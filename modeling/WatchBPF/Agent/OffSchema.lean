/-
What off-schema answers of the LLM lead to. An answer that fails the checks of `parseAssessment` ends its
assessment. One that passes them is acted upon, whatever it lacks: fields that are missing or not as the
prompt asks are never looked at.
-/
import WatchBPF.Agent.Isolate
import WatchBPF.LLM.Schema

namespace WatchBPF.Agent

open WatchBPF.Audit WatchBPF.LLM WatchBPF.Policy WatchBPF.Tasks

variable {cfg : Config} {ev : Event} {text : Bytes}

/-! ## Answers that are refused -/

/-- Neither a call into `enforce` nor a grant of the limiter. -/
def Action.Inert (cfg : Config) (ev : Event) (a : Action) : Prop := a.enforces = false ∧ a.grants cfg ev = false

/-- In no run does a job that got the answer enforce anything or take a grant. -/
def NeverActedOn (text : Bytes) : Prop :=
  ∀ (cfg : Config) (baseline : Option Bytes) (logger : Option Logger) (clock : Int) (s₀ : Shared) (w : World),
    start cfg baseline logger clock = some s₀ → Reachable (program cfg) s₀ w →
    ∀ k j, w.tasks[k]? = some j → (k, Action.assess (some text)) ∈ w.trace →
      ∀ a, (k, a) ∈ w.trace → a.Inert cfg j.event

/-- What the history of a job has to do with an answer that is refused. -/
def Refused (cfg : Config) (ev : Event) (text : Bytes) : Stage → List Action → Prop
  | .assessed _, as | .decided _ _, as | .acting _, as | .isolating, as => Action.assess (some text) ∉ as
  | .leaving, as | .returned, as => Action.assess (some text) ∈ as → ∀ a ∈ as, a.Inert cfg ev
  | _, as => (∀ a ∈ as, a.Inert cfg ev) ∧ Action.assess (some text) ∉ as

theorem inert_snoc {as : List Action} {a : Action} (h : ∀ b ∈ as, b.Inert cfg ev) (ha : a.Inert cfg ev) :
    ∀ b ∈ as ++ [a], b.Inert cfg ev := by
  intro b hb
  rcases List.mem_append.1 hb with hb | hb
  · exact h b hb
  · exact List.mem_singleton.1 hb ▸ ha

theorem not_mem_snoc {as : List Action} {a b : Action} (h : b ∉ as) (ha : a ≠ b) : b ∉ as ++ [a] := by
  rw [List.mem_append, List.mem_singleton]
  rintro (hb | rfl)
  · exact h hb
  · exact ha rfl

theorem auditWith_ne_assess (call : LogCall) (io : WriteResult) (s : Shared) (answer : Option Bytes) :
    (auditWith call io s).1 ≠ .assess answer := by
  rcases auditWith_cases call io s with ⟨-, h⟩ | ⟨l, -, h⟩ <;> (rw [h]; nofun)

theorem auditWith_inert (call : LogCall) (io : WriteResult) (s : Shared) : (auditWith call io s).1.Inert cfg ev := by
  rcases auditWith_cases call io s with ⟨-, h⟩ | ⟨l, -, h⟩ <;> (rw [h]; exact ⟨rfl, rfl⟩)

theorem refused_step (hf : FailsChecks text) {s s' : Shared} {stage stage' : Stage} {a : Action} {as : List Action}
    (h : Refused cfg ev text stage as) (ha : Acts cfg ev s stage a s' stage') :
    Refused cfg ev text stage' (as ++ [a]) := by
  cases ha with
  | ignore | known | learn | noClient => exact fun _ => inert_snoc h.1 ⟨rfl, rfl⟩
  | lookup | escalate | guard | limit | dispatch | acquire =>
    exact ⟨inert_snoc h.1 ⟨rfl, rfl⟩, not_mem_snoc h.2 nofun⟩
  | auditLimited => exact fun _ => inert_snoc h.1 (auditWith_inert _ _ _)
  | reject => exact fun _ => inert_snoc h.1 ⟨rfl, rfl⟩
  | accept text' ta ok =>
    -- it is another answer that is accepted
    refine not_mem_snoc h.2 fun heq => ?_
    cases heq
    exact not_failsChecks ok hf
  | evaluate => exact not_mem_snoc h nofun
  | auditDecision => exact not_mem_snoc h (auditWith_ne_assess _ _ _ _)
  | kill =>
    split
    · exact not_mem_snoc h nofun
    · exact fun hm => absurd hm (not_mem_snoc h nofun)
  | pause | spare | isolate => exact fun hm => absurd hm (not_mem_snoc h nofun)
  | release =>
    intro hm
    rcases List.mem_append.1 hm with hm | hm
    · exact inert_snoc (h hm) ⟨rfl, rfl⟩
    · cases List.mem_singleton.1 hm

theorem refused_of_reachable (hf : FailsChecks text) {s₀ : Shared} {w : World} (h : Reachable (program cfg) s₀ w)
    {k : Nat} {j : Job} (hj : w.tasks[k]? = some j) : Refused cfg j.event text j.stage (history k w.trace) := by
  refine history_induction (I := fun ev stage as => Refused cfg ev text stage as) (fun _ => ⟨nofun, nofun⟩) ?_ h hj
  intro ev s s' stage stage' a as _ href hacts
  exact refused_step hf href hacts

theorem neverActedOn_of_failsChecks (hf : FailsChecks text) : NeverActedOn text := by
  intro cfg baseline logger clock s₀ w _ h k j hj hm a ha
  have hm := mem_history.2 hm
  have ha := mem_history.2 ha
  have href := refused_of_reachable hf h hj
  revert href
  generalize history k w.trace = as at *
  cases j.stage with
  | leaving | returned => exact fun href => href hm a ha
  | assessed | decided | acting | isolating => exact fun href => absurd hm href
  | _ => exact fun href => href.1 a ha

/-! ## Answers that are accepted -/

theorem advance_accept {i : Input} {s : Shared} {ta : ThreatAssessment} (hi : i.answer = some text)
    (hok : parseAssessment text = .ok ta) :
    advance cfg ev i s .running = some (.assess (some text), s, .assessed ta) := by
  unfold advance
  rw [hi]
  simp only [hok]

theorem advance_evaluate (cfg : Config) (ev : Event) (i : Input) (s : Shared) (ta : ThreatAssessment) : ∃ now d s',
    advance cfg ev i s (.assessed ta) =
      some (.evaluate now ta.threatScore.toInt s.stamps d, s', .decided ta d) := ⟨_, _, _, rfl⟩

theorem next_of_advance {i : Input} {s s' : Shared} {r : KernelRecord} {stage stage' : Stage} {a : Action}
    (h : advance cfg r.event i s stage = some (a, s', stage')) :
    (program cfg).next i s { record := r, stage } = some (a, s', { record := r, stage := stage' }) := by
  show (advance cfg r.event i s stage).map _ = _
  rw [h]
  rfl

/-- A job can be answered with a text that passes the checks, and is then evaluated. -/
theorem evaluated_of_accepted {s₀ : Shared} {w : World} (h : Reachable (program cfg) s₀ w) {k : Nat}
    {r : KernelRecord}
    (hj : w.tasks[k]? = some { record := r, stage := .running }) {ta : ThreatAssessment}
    (hok : parseAssessment text = .ok ta) : ∃ w' j, Reachable (program cfg) s₀ w' ∧ w'.tasks[k]? = some j ∧
      j.event = r.event ∧ (k, Action.assess (some text)) ∈ w'.trace ∧ ∃ now d,
        (k, Action.evaluate now ta.threatScore.toInt w.shared.stamps d) ∈ w'.trace := by
  have hassess : (program cfg).next { answer := some text } w.shared { record := r, stage := .running } =
      some (.assess (some text), w.shared, { record := r, stage := .assessed ta }) :=
    next_of_advance (advance_accept rfl hok)
  obtain ⟨now, d, s', hevaluate⟩ := advance_evaluate cfg r.event {} w.shared ta
  have hlt : k < w.tasks.length := (List.getElem?_eq_some_iff.1 hj).1
  have h₁ := h.tail (.act w k _ _ _ _ _ hj hassess)
  have hj₁ : (w.tasks.set k { record := r, stage := .assessed ta })[k]? =
      some { record := r, stage := .assessed ta } :=
    List.getElem?_set_self hlt
  have h₂ := h₁.tail (.act _ k _ {} _ _ _ hj₁ (next_of_advance hevaluate))
  refine ⟨_, _, h₂, List.getElem?_set_self (by rwa [List.length_set]), rfl, ?_, now, d, ?_⟩
  · exact List.mem_append_left _ (List.mem_append_right _ List.mem_cons_self)
  · exact List.mem_append_right _ List.mem_cons_self

/-- Every score that is accepted calls for the hardest action. -/
def strictConfig : Config := { liveConfig with policy := { liveConfig.policy with thresholdHard := 0 } }

/-- The beacon waits for its answer, the first of all. -/
def awaits (w : World) : Bool :=
  decide (w.tasks = [{ record := beacon, stage := .running }]) && decide (w.shared.stamps = [])

theorem run_of_awaits : ∃ s₀ w, start strictConfig none none 0 = some s₀ ∧ Reachable (program strictConfig) s₀ w ∧
    w.tasks = [{ record := beacon, stage := .running }] ∧ w.shared.stamps = [] := by
  have hrun : ((start strictConfig none none 0).any fun s =>
      (exec (program strictConfig) { shared := s } (.start { record := beacon } :: List.replicate 5 (.act 0 {}))).any
        awaits) = true := by decide +kernel
  obtain ⟨s₀, w, h₀, h, hw⟩ := reachable_of_exec hrun
  rw [awaits, Bool.and_eq_true, decide_eq_true_iff, decide_eq_true_iff] at hw
  exact ⟨s₀, w, h₀, h, hw⟩

theorem grants_strict {score : Int} (h : 0 ≤ score) (now : Int) {comm : Bytes}
    (hc : comm ∉ strictConfig.policy.protectedComms) :
    Policy.grants strictConfig.policy now comm score [] = true := by
  have htier : scoreTier strictConfig.policy score = .hard := scoreTier_hard.2 h
  have hallow : (allowAction strictConfig.policy now []).1 = true := rfl
  exact grants_eq_true.2 ⟨by rw [htier]; rfl, hc, rfl, hallow⟩

theorem beacon_unprotected : beacon.event.comm ∉ strictConfig.policy.protectedComms := by decide

/-- An answer that passes the checks takes a grant. -/
theorem not_neverActedOn {ta : ThreatAssessment} (hok : parseAssessment text = .ok ta) : ¬ NeverActedOn text := by
  intro hnever
  obtain ⟨s₀, w, h₀, h, htasks, hstamps⟩ := run_of_awaits
  have hj₀ : w.tasks[0]? = some { record := beacon, stage := .running } := by
    rw [htasks]
    exact List.getElem?_cons_zero
  obtain ⟨w', j, h', hj, hev, hassess, now, d, heval⟩ := evaluated_of_accepted h hj₀ hok
  obtain ⟨-, hgrant⟩ := hnever _ _ _ _ _ _ h₀ h' _ _ hj hassess _ heval
  have hg := grants_strict (checked_of_parseAssessment hok).1 now beacon_unprotected
  rw [Action.grants, hev, hstamps, hg] at hgrant
  cases hgrant

/-- The promise about off-schema answers is kept for those that fail the checks, and for no others. -/
theorem neverActedOn_iff (text : Bytes) :
    (¬ OnSchema text → NeverActedOn text) ↔ OnSchema text ∨ FailsChecks text := by
  constructor
  · intro h
    rcases failsChecks_or_ok text with hf | ⟨ta, hok⟩
    · exact .inr hf
    · exact .inl (by_contra fun hoff => not_neverActedOn hok (h hoff))
  · rintro (hon | hf) hoff
    · exact absurd hon hoff
    · exact neverActedOn_of_failsChecks hf

/-- The answers that jobs got, and the processes they killed. -/
def answered (trace : List (Nat × Action)) : List (Nat × Bytes) :=
  trace.filterMap fun p => match p.2 with
    | .assess answer => answer.map (p.1, ·)
    | _ => none

def killed (trace : List (Nat × Action)) : List (Nat × UInt32) :=
  trace.filterMap fun p => match p.2 with
    | .kill pid => some (p.1, pid)
    | _ => none

/-- The beacon is killed for an answer of two members. -/
theorem bareAnswer_acted_on : ¬ OnSchema bareAnswer ∧ ∃ s₀ w, start liveConfig none none 0 = some s₀ ∧
    Reachable (program liveConfig) s₀ w ∧ answered w.trace = [(0, bareAnswer)] ∧ killed w.trace = [(0, 4242)] := by
  refine ⟨by decide +kernel, ?_⟩
  have hrun : ((start liveConfig none none 0).any fun s =>
      (exec (program liveConfig) { shared := s } (killMoves beacon)).any fun w =>
        answered w.trace == [(0, bareAnswer)] && killed w.trace == [(0, 4242)]) = true := by decide +kernel
  obtain ⟨s₀, w, h₀, h, hw⟩ := reachable_of_exec hrun
  rw [Bool.and_eq_true, beq_iff_eq, beq_iff_eq] at hw
  exact ⟨s₀, w, h₀, h, hw⟩

end WatchBPF.Agent
