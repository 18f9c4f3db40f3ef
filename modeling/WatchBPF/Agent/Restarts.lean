/-
One run of the agent after another, each on the baseline file that the one before left when it was stopped, wherever
that was, on a disk on which `Save` can fail. What is known survives all of them, unless one is stopped while the file
is cut short; filtering runs add nothing to it, and learning runs the keys of the events of others that they saw, as
UTF-8.
-/
import WatchBPF.Agent.Disk

namespace WatchBPF.Agent.Lifecycle

open WatchBPF.Audit WatchBPF.Baseline WatchBPF.Runs WatchBPF.Tasks WatchBPF.Utf8

variable {cfg : Config} {file : Option Bytes} {logger : Option Logger} {clock : Int} {shared : Shared} {m : Machine}

/-! ## What a run adds to the file -/

/-- A key of an event of others that a learning run has handled. -/
def LearnedKey (cfg : Config) (s : State) (key : Bytes) : Prop :=
  cfg.mode = lit "learn" ∧ ∃ ev ∈ events s.agent, Foreign cfg ev ∧ ev.combination.key = key

theorem foreign_of_learn {s₀ : Shared} {w : World} (h : Tasks.Reachable (program cfg) s₀ w) {k : Nat}
    (hmem : (k, Action.learn) ∈ w.trace) : ∃ j, w.tasks[k]? = some j ∧ Foreign cfg j.event := by
  obtain ⟨pre, post, htr⟩ := List.append_of_mem hmem
  obtain ⟨j, hj, hf⟩ := action_of_reachable (R := fun ev _ a => a = .learn → Foreign cfg ev)
    (fun ev s s' stage stage' a as hpast hacts ha => by
      subst ha
      generalize hb : Action.learn = b at hacts
      cases hacts with
      | learn mode => exact hpast.1
      | auditLimited | auditDecision =>
        rcases auditWith_cases _ _ s with ⟨-, h⟩ | ⟨l, -, h⟩ <;> (rw [h] at hb; cases hb)
      | _ => cases hb) h htr
  exact ⟨j, hj, hf rfl⟩

/-- The store has what it started with and keys that it learned. -/
theorem known_cases (h : Runs.Reachable (nextOn cfg) { run := init file shared } m) {key : Bytes}
    (hkey : key ∈ m.run.store.known) : key ∈ shared.store.known ∨ LearnedKey cfg m.run key := by
  have hw := tasks_of_machine h
  rcases ((learned_of_reachable hw).known key).1 hkey with hold | ⟨k, ev, hmem, hev, rfl⟩
  · exact .inl hold
  · obtain ⟨j, hj, hf⟩ := foreign_of_learn hw hmem
    have hjob : j.event = ev := by
      rw [events, List.getElem?_map, hj, Option.map_some, Option.some.injEq] at hev
      exact hev
    refine .inr ⟨(learned_of_reachable hw).mode k hmem, ev, List.mem_of_getElem? hev, ?_, rfl⟩
    rwa [← hjob]

theorem subset_file (h₀ : start cfg file logger clock = some shared)
    (h : Runs.Reachable (nextOn cfg) { run := init file shared } m) (hwhole : m.cut = false) :
    (newStore file).known ⊆ (newStore m.run.file).known := by
  intro key hkey
  have hstart : key ∈ shared.store.known := by rwa [shared_store_of_start h₀]
  rw [file_of_reachable h₀ h hwhole]
  refine Finset.mem_image.2 ⟨key, Finset.mem_sdiff.2 ⟨?_, fun hnew => ?_⟩, coerce_of_valid (valid_of_mem_newStore hkey)⟩
  · exact (learned_of_reachable (tasks_of_machine h)).start_le hstart
  · exact (unsaved_new h key (List.mem_toFinset.1 hnew)).1 hstart

theorem mem_file (h₀ : start cfg file logger clock = some shared)
    (h : Runs.Reachable (nextOn cfg) { run := init file shared } m) {key : Bytes}
    (hkey : key ∈ (newStore m.run.file).known) :
    key ∈ (newStore file).known ∨ ∃ key', LearnedKey cfg m.run key' ∧ coerce key' = key := by
  cases hcut : m.cut with
  | true =>
    rw [(written_of_reachable h₀ h).short hcut] at hkey
    cases hkey
  | false =>
    rw [file_of_reachable h₀ h hcut] at hkey
    obtain ⟨key', hmem, rfl⟩ := Finset.mem_image.1 hkey
    rcases known_cases h (Finset.mem_sdiff.1 hmem).1 with hold | hlearned
    · rw [shared_store_of_start h₀] at hold
      rw [coerce_of_valid (valid_of_mem_newStore hold)]
      exact .inl hold
    · exact .inr ⟨key', hlearned, rfl⟩

/-! ## Chains of runs -/

/-- A run, by its settings and the state in which it was stopped. -/
structure Session where
  cfg : Config
  stopped : Machine

/-- Runs one after the other, from a first baseline file to that of the last. -/
inductive Sessions (file : Option Bytes) : List Session → Option Bytes → Prop
  | nil : Sessions file [] file
  | snoc {ss : List Session} {file' : Option Bytes} (before : Sessions file ss file') (cfg : Config)
      (logger : Option Logger) (clock : Int) (shared : Shared) (m : Machine)
      (start : start cfg file' logger clock = some shared)
      (run : Runs.Reachable (nextOn cfg) { run := init file' shared } m) : Sessions file (ss ++ [⟨cfg, m⟩]) m.run.file

/-- The run was stopped while the file was cut short. -/
def Session.torn (ses : Session) : Bool := ses.stopped.cut

/-- Over any number of runs, each stopped anywhere and with whatever failures of `Save`: what is known comes from the
first file or from events that a learning run saw; nothing of the first file is lost unless a run is stopped while the
file is cut short; and where all runs are filtering, what is known stays as it is until that happens, and is nothing
from then on. -/
theorem known_of_sessions {file file' : Option Bytes} {ss : List Session} (h : Sessions file ss file') :
    (∀ key ∈ (newStore file').known, key ∈ (newStore file).known ∨
      ∃ ses ∈ ss, ∃ key', LearnedKey ses.cfg ses.stopped.run key' ∧ coerce key' = key) ∧
    ((∀ ses ∈ ss, ses.torn = false) → (newStore file).known ⊆ (newStore file').known) ∧
    ((∀ ses ∈ ss, ses.cfg.mode = lit "filter") →
      (newStore file').known = if ss.any Session.torn then ∅ else (newStore file).known) := by
  induction h with
  | nil => exact ⟨fun key hkey => .inl hkey, fun _ => Finset.Subset.rfl, fun _ => rfl⟩
  | @snoc ss file' _ cfg logger clock shared m h₀ hrun ih =>
    obtain ⟨hadded, hkept, hfilter⟩ := ih
    refine ⟨fun key hkey => ?_, fun hwhole => ?_, fun hmode => ?_⟩
    · rcases mem_file h₀ hrun hkey with hold | ⟨key', hlearned, heq⟩
      · rcases hadded key hold with hold | ⟨ses, hses, hkey'⟩
        · exact .inl hold
        · exact .inr ⟨ses, List.mem_append_left _ hses, hkey'⟩
      · exact .inr ⟨⟨cfg, m⟩, List.mem_append_right _ (List.mem_singleton_self _), key', hlearned, heq⟩
    · rw [List.forall_mem_append] at hwhole
      exact (hkept hwhole.1).trans (subset_file h₀ hrun (hwhole.2 ⟨cfg, m⟩ (List.mem_singleton_self _)))
    · rw [List.forall_mem_append] at hmode
      have hnever : cfg.mode ≠ lit "learn" := by
        rw [hmode.2 ⟨cfg, m⟩ (List.mem_singleton_self _)]
        decide
      rw [List.any_append, List.any_cons, List.any_nil, Bool.or_false]
      cases htorn : m.cut with
      | true =>
        rw [(written_of_reachable h₀ hrun).short htorn, show Session.torn ⟨cfg, m⟩ = true from htorn, Bool.or_true,
          if_pos rfl]
      | false =>
        have hsame : (newStore m.run.file).known = (newStore file').known := by
          refine Finset.Subset.antisymm (fun key hkey => ?_) (subset_file h₀ hrun htorn)
          rcases mem_file h₀ hrun hkey with hold | ⟨key', ⟨hlearn, -⟩, -⟩
          · exact hold
          · exact absurd hlearn hnever
        rw [hsame, hfilter hmode.1, show Session.torn ⟨cfg, m⟩ = false from htorn, Bool.or_false]

/-- A first `Save` fails with three bytes written, the next one is complete. -/
def retried (keys : List Bytes) : List (Event ⊕ Fault) :=
  [.inl .launch, .inl .tick, .inl .saveTick, .inl (.lock keys), .inl .truncate, .inr (.failed 3),
    .inl .tick, .inl .saveTick, .inl (.lock keys), .inl .truncate, .inr (.part 3), .inl .write]

theorem known_of_sessions_beacon : ∃ (ss : List Session) (file : Option Bytes),
    Sessions (some (save [beaconKey])) ss file ∧ ss.length = 1 ∧ (newStore file).known = {beaconKey} := by
  have hkeys : (newStore (some (save [beaconKey]))).known = {beaconKey} := by decide +kernel
  have hrun : ((start liveConfig (some (save [beaconKey])) none 0).any fun sh =>
      (run (nextOn liveConfig) (retried [beaconKey]) { run := init (some (save [beaconKey])) sh }).any fun m =>
        !m.cut) = true := by decide +kernel
  obtain ⟨sh, m, h₀, h, hwhole⟩ := exists_of_run hrun
  have hchain : Sessions (some (save [beaconKey])) ([] ++ [⟨liveConfig, m⟩]) m.run.file :=
    .snoc .nil liveConfig none 0 sh m h₀ h
  refine ⟨_, _, hchain, rfl, ?_⟩
  have hfilter : ∀ ses ∈ [] ++ [(⟨liveConfig, m⟩ : Session)], ses.cfg.mode = lit "filter" := by
    intro ses hses
    rw [List.mem_singleton.1 hses]
    rfl
  have hnone : ([] ++ [(⟨liveConfig, m⟩ : Session)]).any Session.torn = false := by
    rw [List.nil_append, List.any_cons, List.any_nil, Bool.or_false]
    exact Bool.not_eq_true' _ ▸ hwhole
  rw [(known_of_sessions hchain).2.2 hfilter, hnone, if_neg Bool.false_ne_true, hkeys]

/-! ## Learning first, then filtering -/

section Deployment

variable {cfg₁ cfg₂ : Config} {logger₁ logger₂ : Option Logger} {clock₁ clock₂ : Int} {shared₁ shared₂ : Shared}
  {m₁ m₂ : Machine}

/-- A filtering run on the file that a learning run left, with whatever failures of `Save`. An event of others is
escalated if and only if its key is not among those that were saved, as UTF-8; if the learning run was stopped when all
its events were dealt with and saved, if and only if it is neither in the first file nor the key, as UTF-8, of an event
of others seen in that run; and in any case if that run was stopped while the file was cut short. -/
theorem escalated_after_learning (h₁ : start cfg₁ file logger₁ clock₁ = some shared₁)
    (hrun₁ : Runs.Reachable (nextOn cfg₁) { run := init file shared₁ } m₁) (hlearn : cfg₁.mode = lit "learn")
    (h₂ : start cfg₂ m₁.run.file logger₂ clock₂ = some shared₂)
    (hrun₂ : Runs.Reachable (nextOn cfg₂) { run := init m₁.run.file shared₂ } m₂) (hfilter : cfg₂.mode = lit "filter")
    {k : Nat} {j : Job} (hj : m₂.run.agent.tasks[k]? = some j) (hf : Foreign cfg₂ j.event)
    (hout : j.stage.inHandler = false) :
    (m₁.cut = false → (.escalate ∈ history k m₂.run.agent.trace ↔
      ∀ key ∈ m₁.run.store.known, key ∉ m₁.run.unsaved → coerce key ≠ j.event.combination.key)) ∧
    (m₁.cut = false → m₁.run.unsaved = [] → (∀ j ∈ m₁.run.agent.tasks, j.stage = .returned) →
      (.escalate ∈ history k m₂.run.agent.trace ↔ j.event.combination.key ∉ (newStore file).known ∧
        ∀ ev ∈ events m₁.run.agent, Foreign cfg₁ ev → coerce ev.combination.key ≠ j.event.combination.key)) ∧
    (m₁.cut = true → .escalate ∈ history k m₂.run.agent.trace) := by
  have hmode : cfg₂.mode ≠ lit "learn" := by rw [hfilter]; decide
  have hescalated := escalated_iff (tasks_of_machine hrun₂) hmode hj hf hout
  rw [shared_store_of_start h₂] at hescalated
  have hsaved : m₁.cut = false → (.escalate ∈ history k m₂.run.agent.trace ↔
      ∀ key ∈ m₁.run.store.known, key ∉ m₁.run.unsaved → coerce key ≠ j.event.combination.key) := by
    intro hwhole
    rw [hescalated, file_of_reachable h₁ hrun₁ hwhole, Finset.mem_image]
    push Not
    refine forall_congr' fun key => ?_
    rw [Finset.mem_sdiff, List.mem_toFinset]
    tauto
  refine ⟨hsaved, fun hwhole hall hdone => ?_, fun hcut => ?_⟩
  · rw [hsaved hwhole, hall]
    have hknown := known_of_learning (tasks_of_machine hrun₁) hlearn hdone
    constructor
    · intro hno
      refine ⟨fun hmem => ?_, fun ev hev hforeign => ?_⟩
      · -- what was in the first file is valid, and stays as it is
        have hvalid := coerce_of_valid (valid_of_mem_newStore hmem)
        rw [← shared_store_of_start h₁] at hmem
        exact hno _ ((hknown _).2 (.inl hmem)) (List.not_mem_nil) hvalid
      · exact hno _ ((hknown _).2 (.inr ⟨ev, hev, hforeign, rfl⟩)) (List.not_mem_nil)
    · rintro ⟨hfile, hevents⟩ key hkey -
      rcases (hknown key).1 hkey with hold | ⟨ev, hev, hforeign, rfl⟩
      · rw [shared_store_of_start h₁] at hold
        rw [coerce_of_valid (valid_of_mem_newStore hold)]
        rintro rfl
        exact hfile hold
      · exact hevents ev hev hforeign
  · rw [hescalated, (written_of_reachable h₁ hrun₁).short hcut]
    exact Finset.notMem_empty _

/-- The beacon is learned and saved; when it comes again to a filtering run, it is not escalated. -/
theorem escalated_after_learning_beacon : ∃ (m₁ m₂ : Machine) (j : Job), m₁.run.file = some (save [beaconKey]) ∧
    m₂.run.agent.tasks[0]? = some j ∧ j.event = beacon.event ∧ .escalate ∉ history 0 m₂.run.agent.trace := by
  obtain ⟨sh₁, s₁, h₁, hrun₁, -, hfile, hunsaved, hfull, hstore⟩ :=
    run_of_returnsWith (learning ++ [.sigint, .saveStop, .lock [beaconKey], .truncate, .write] ++ closing)
      (some (save [beaconKey])) (by decide +kernel)
  have hrun : ((start liveConfig (some (save [beaconKey])) none 0).any fun sh =>
      (run (next liveConfig) learning (init (some (save [beaconKey])) sh)).any fun s =>
        s.agent.tasks == [{ record := beacon, stage := .returned }]) = true := by decide +kernel
  obtain ⟨sh₂, s₂, h₂, hrun₂, htasks⟩ := exists_of_run hrun
  rw [beq_iff_eq] at htasks
  rw [← hfile] at h₂ hrun₂
  have hj : s₂.agent.tasks[0]? = some { record := beacon, stage := .returned } := by rw [htasks]; rfl
  obtain ⟨hsaved, -⟩ := escalated_after_learning h₁ (machine_of_reachable hrun₁) rfl h₂ (machine_of_reachable hrun₂) rfl
    hj ⟨by decide, by decide⟩ rfl
  refine ⟨{ run := s₁, cut := s₁.saver.emptied }, { run := s₂, cut := s₂.saver.emptied }, _, hfile, hj, rfl,
    fun hmem => ?_⟩
  refine (hsaved hfull).1 hmem beaconKey ?_ ?_ (by decide +kernel)
  · show beaconKey ∈ s₁.store.known
    rw [hstore]
    exact Finset.mem_singleton_self _
  · show beaconKey ∉ s₁.unsaved
    rw [hunsaved]
    exact List.not_mem_nil

end Deployment

end WatchBPF.Agent.Lifecycle
