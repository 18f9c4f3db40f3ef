/-
What the readers learn, in any order. `IsKnown` and `Learn` are two steps, between which other readers and
the save goroutine go on; still the set that a learning run ends with depends on its events only, every `Save`
has a set on the way to it, and a filtering run leaves the set alone.
-/
import WatchBPF.Agent.Persist
import WatchBPF.Agent.Fate

namespace WatchBPF.Agent.Lifecycle

open WatchBPF.Baseline WatchBPF.Tasks

/-! ## The jobs in a run of the agent -/

/-- What the agent's goroutines do besides leaves the jobs alone. -/
theorem agent_of_next {cfg : Config} {e : Event} {s s' : State} (h : next cfg e s = some s') :
    s'.agent = s.agent ∨ Tasks.Step (program cfg) s.agent s'.agent := by
  unfold next at h
  split at h
  · cases h
  · cases e with
    | sigint =>
      cases h
      refine .inl ?_
      unfold sigint
      split <;> rfl
    | act k i =>
      refine .inr ?_
      simp only [act] at h
      split at h
      · cases h
      · rename_i j hj
        split at h
        · cases h
        · rename_i a shared j' hnext
          have hstep := Tasks.Step.act s.agent k j i a shared j' hj hnext
          split at h
          · split at h
            · cases h
            · cases h; exact hstep
          · cases h; exact hstep
    | handle l =>
      simp only at h
      split at h
      · split at h
        · cases h; exact .inr (.start s.agent _ ‹_›)
        · cases h
      · cases h
    | tick =>
      simp only at h
      split at h
      · cases h; exact .inl rfl
      · cases h
    | launch | saveTick | saveStop | lock keys | truncate | write | take l | close l | read r | stop l | wait |
      exit =>
      simp only at h
      split at h
      · first
          | cases h; exact .inl rfl
          | split at h
            · cases h; exact .inl rfl
            · cases h
      · cases h

/-- A run of the agent is one of its jobs. -/
theorem tasks_of_reachable {cfg : Config} {file : Option Bytes} {shared : Shared} {s : State}
    (h : Runs.Reachable (next cfg) (init file shared) s) : Tasks.Reachable (program cfg) shared s.agent := by
  refine h.invariant (I := fun s => Tasks.Reachable (program cfg) shared s.agent) ?_ ?_
  · exact Relation.ReflTransGen.refl
  · intro e s s' hr _ hnext
    rcases agent_of_next hnext with hsame | hstep
    · rw [hsame]; exact hr
    · exact hr.tail hstep

/-! ## The store in a run of the jobs -/

/-- The events handled so far, in the order in which they were received. -/
def events (w : World) : List Agent.Event := w.tasks.map Job.event

variable {cfg : Config} {s₀ : Shared} {w w' : World}

theorem events_set {w : World} {k : Nat} {j j' : Job} (hj : w.tasks[k]? = some j) (hr : j'.record = j.record) :
    (w.tasks.set k j').map Job.event = events w := by
  have hev : j'.event = j.event := congrArg KernelRecord.event hr
  refine List.ext_getElem? fun i => ?_
  rw [events, List.getElem?_map, List.getElem?_map, List.getElem?_set]
  split
  · rename_i hik
    subst hik
    rw [hj, if_pos (List.getElem?_eq_some_iff.1 hj).1]
    exact congrArg some hev
  · rfl

/-- What an action can see of the store, and what it can do to it. -/
theorem store_of_action {ev : Agent.Event} {s s' : Shared} {stage stage' : Stage} {a : Action}
    (h : Acts cfg ev s stage a s' stage') :
    (a = .learn → cfg.mode = lit "learn") ∧ (∀ store b, a = .lookup store b → store = s.store) := by
  have haudit : ∀ call io, (auditWith call io s).1 ≠ .learn ∧ ∀ store b, (auditWith call io s).1 ≠ .lookup store b := by
    intro call io
    rcases auditWith_cases call io s with ⟨-, h⟩ | ⟨l, -, h⟩ <;> (rw [h]; exact ⟨nofun, nofun⟩)
  cases h with
  | learn mode => exact ⟨fun _ => mode, nofun⟩
  | lookup => exact ⟨nofun, fun _ _ heq => (Action.lookup.inj heq).1.symm⟩
  | auditLimited now io | auditDecision _ _ now io =>
    obtain ⟨h₁, h₂⟩ := haudit _ io
    exact ⟨fun heq => absurd heq h₁, fun store b heq => absurd heq (h₂ store b)⟩
  | _ => exact ⟨nofun, nofun⟩

/-- What holds of the store in every run: it has the keys learned, and every lookup found a part of it. -/
structure Learned (cfg : Config) (s₀ : Shared) (w : World) : Prop where
  known : ∀ key, key ∈ w.shared.store.known ↔ key ∈ s₀.store.known ∨
    ∃ k ev, (k, Action.learn) ∈ w.trace ∧ (events w)[k]? = some ev ∧ ev.combination.key = key
  seen : ∀ k store b, (k, Action.lookup store b) ∈ w.trace →
    s₀.store.known ⊆ store.known ∧ store.known ⊆ w.shared.store.known
  mode : ∀ k, (k, Action.learn) ∈ w.trace → cfg.mode = lit "learn"

theorem Learned.start_le (h : Learned cfg s₀ w) : s₀.store.known ⊆ w.shared.store.known :=
  fun key hkey => (h.known key).2 (.inl hkey)

theorem learned_of_reachable (h : Tasks.Reachable (program cfg) s₀ w) : Learned cfg s₀ w := by
  induction h with
  | refl => exact ⟨fun key => by simp, nofun, nofun⟩
  | @tail w _ hw hstep ih =>
    cases hstep with
    | start j _ =>
      -- the trace has nothing of the new job
      have hold : ∀ k, k < w.tasks.length → (events { w with tasks := w.tasks ++ [j] })[k]? = (events w)[k]? := by
        intro k hk
        rw [events, events, List.map_append, List.getElem?_append_left (by rwa [List.length_map])]
      refine ⟨fun key => (ih.known key).trans (or_congr_right ?_), ih.seen, ih.mode⟩
      constructor
      · rintro ⟨k, ev, htr, hev, hkey⟩
        exact ⟨k, ev, htr, (hold k (lt_of_mem_trace hw htr)).trans hev, hkey⟩
      · rintro ⟨k, ev, htr, hev, hkey⟩
        exact ⟨k, ev, htr, (hold k (lt_of_mem_trace hw htr)).symm.trans hev, hkey⟩
    | act n j i a shared j' hj hnext =>
      obtain ⟨hrec, hacts⟩ := acts_of_next hnext
      have hevents : (events { shared, tasks := w.tasks.set n j', trace := w.trace ++ [(n, a)] }) = events w :=
        events_set hj hrec
      obtain ⟨hmode, hlookup⟩ := store_of_action hacts
      have hgrows : w.shared.store.known ⊆ shared.store.known := by
        rcases store_of_acts hacts with ⟨-, hstore⟩ | ⟨-, hstore⟩
        · rw [hstore]; exact Finset.subset_insert _ _
        · rw [hstore]
      refine ⟨fun key => ?_, fun k store b hmem => ?_, fun k hmem => ?_⟩
      · have hone : ∀ k b, (k, b) ∈ w.trace ++ [(n, a)] ↔ (k, b) ∈ w.trace ∨ (k = n ∧ b = a) := fun k b => by
          rw [List.mem_append, List.mem_singleton, Prod.mk.injEq]
        have hn : (events w)[n]? = some j.event := by rw [events, List.getElem?_map, hj]; rfl
        simp only [hevents, hone]
        rcases store_of_acts hacts with ⟨rfl, hstore⟩ | ⟨hne, hstore⟩
        · rw [hstore, Store.learn, Finset.mem_insert, ih.known key]
          constructor
          · rintro (hkey | hkey | ⟨k, ev, htr, hev, hkey⟩)
            · exact .inr ⟨n, j.event, .inr ⟨rfl, rfl⟩, hn, hkey.symm⟩
            · exact .inl hkey
            · exact .inr ⟨k, ev, .inl htr, hev, hkey⟩
          · rintro (hkey | ⟨k, ev, htr | ⟨rfl, -⟩, hev, hkey⟩)
            · exact .inr (.inl hkey)
            · exact .inr (.inr ⟨k, ev, htr, hev, hkey⟩)
            · rw [hn, Option.some.injEq] at hev
              exact .inl (by rw [← hkey, ← hev])
        · rw [hstore, ih.known key]
          refine or_congr_right ⟨?_, ?_⟩
          · rintro ⟨k, ev, htr, hev, hkey⟩
            exact ⟨k, ev, .inl htr, hev, hkey⟩
          · rintro ⟨k, ev, htr | ⟨-, heq⟩, hev, hkey⟩
            · exact ⟨k, ev, htr, hev, hkey⟩
            · exact absurd heq.symm hne
      · rcases List.mem_append.1 hmem with hmem | hmem
        · exact ⟨(ih.seen k store b hmem).1, (ih.seen k store b hmem).2.trans hgrows⟩
        · obtain ⟨-, heq⟩ := Prod.mk.inj (List.mem_singleton.1 hmem)
          rw [hlookup store b heq.symm]
          exact ⟨ih.start_le, hgrows⟩
      · rcases List.mem_append.1 hmem with hmem | hmem
        · exact ih.mode k hmem
        · exact hmode (Prod.mk.inj (List.mem_singleton.1 hmem)).2.symm

/-- Nothing is learned in filter mode. -/
theorem store_of_filtering (h : Tasks.Reachable (program cfg) s₀ w) (hmode : cfg.mode ≠ lit "learn") :
    w.shared.store = s₀.store := by
  have hl := learned_of_reachable h
  have hset : w.shared.store.known = s₀.store.known := by
    ext key
    rw [hl.known key, or_iff_left]
    rintro ⟨k, ev, htr, -⟩
    exact hmode (hl.mode k htr)
  cases hw : w.shared.store
  cases hs : s₀.store
  rw [hw, hs] at hset
  exact congrArg Store.mk hset

/-! ## What has become of an event -/

/-- In learn mode an event of others is known when it is looked up, or is learned. -/
theorem fate_of_learning {ev : Agent.Event} {logged : Bool} {as : List Action} (h : Fate cfg ev logged as)
    (hmode : cfg.mode = lit "learn") :
    (¬ Foreign cfg ev ∧ .learn ∉ as) ∨
      (Foreign cfg ev ∧ ((∃ store, .lookup store true ∈ as ∧ store.isKnown ev.combination = true) ∨ .learn ∈ as)) := by
  cases h with
  | ignored own => exact .inl ⟨fun hf => own.elim hf.pid hf.comm, by simp⟩
  | known store foreign known => exact .inr ⟨foreign, .inl ⟨store, by simp, known⟩⟩
  | learned store foreign => exact .inr ⟨foreign, .inr (by simp)⟩
  | limited n record novel => exact absurd hmode novel.mode
  | noClient n novel => exact absurd hmode novel.mode
  | ended h =>
    cases h with
    | failed n answer dispatched => exact absurd hmode dispatched.mode
    | evaluated c record assessed => exact absurd hmode assessed.mode

theorem counted_of_dispatchedIn {ev : Agent.Event} {as : List Action} (h : DispatchedIn cfg ev as) :
    ∃ n : Intake, n.counted <+: as ∧ Novel cfg ev n.store := by
  obtain ⟨n, rest, rfl, hn, -⟩ := h
  exact ⟨n, List.prefix_append _ _, hn.toNovel⟩

/-- In filter mode an event of others was known, and that is all, or was counted by the guard. -/
theorem past_of_filtering {ev : Agent.Event} {logged : Bool} {stage : Stage} {as : List Action}
    (h : Past cfg ev logged stage as) (hmode : cfg.mode ≠ lit "learn") (hf : Foreign cfg ev)
    (hout : stage.inHandler = false) :
    (∃ store, as = [.lookup store true, .pass] ∧ store.isKnown ev.combination = true) ∨
      ∃ n : Intake, n.counted <+: as ∧ Novel cfg ev n.store := by
  rcases dispatchedIn_or_fate h hout with hdispatched | hfate
  · exact .inr (counted_of_dispatchedIn hdispatched)
  · cases hfate with
    | ignored own => exact absurd own (not_or.2 ⟨hf.pid, hf.comm⟩)
    | known store foreign known => exact .inl ⟨store, rfl, known⟩
    | learned store foreign mode => exact absurd mode hmode
    | limited n record novel => exact .inr ⟨n, List.prefix_append _ _, novel⟩
    | noClient n novel => exact .inr ⟨n, List.prefix_append _ _, novel⟩
    | ended hended => exact .inr (counted_of_dispatchedIn (dispatchedIn_released hended))

/-- Of the events of others that were handled, those are escalated whose key was not there at the start. -/
theorem escalated_iff (h : Tasks.Reachable (program cfg) s₀ w) (hmode : cfg.mode ≠ lit "learn") {k : Nat} {j : Job}
    (hj : w.tasks[k]? = some j) (hf : Foreign cfg j.event) (hout : j.stage.inHandler = false) :
    .escalate ∈ history k w.trace ↔ j.event.combination.key ∉ s₀.store.known := by
  have hl := learned_of_reachable h
  -- every lookup found the store of the start
  have hseen : ∀ store b, .lookup store b ∈ history k w.trace → store.known = s₀.store.known := by
    intro store b hmem
    obtain ⟨hle, hge⟩ := hl.seen k store b (mem_history.1 hmem)
    rw [store_of_filtering h hmode] at hge
    exact hge.antisymm hle
  rcases past_of_filtering (past_of_reachable h hj) hmode hf hout with ⟨store, has, hknown⟩ | ⟨n, hpre, hn⟩
  · rw [Store.isKnown, decide_eq_true_eq, hseen store true (by rw [has]; simp)] at hknown
    rw [has]
    exact iff_of_false (by simp) fun hno => hno hknown
  · have hunknown := hn.unknown
    have hlookup : Action.lookup n.store false ∈ n.counted := by simp [Intake.counted]
    have hescalate : Action.escalate ∈ n.counted := by simp [Intake.counted]
    rw [Store.isKnown, decide_eq_false_iff_not, hseen n.store false (hpre.subset hlookup)] at hunknown
    exact iff_of_true (hpre.subset hescalate) hunknown

/-- What has been learned when the events have been dealt with. -/
theorem known_of_learning (h : Tasks.Reachable (program cfg) s₀ w) (hmode : cfg.mode = lit "learn")
    (hdone : ∀ j ∈ w.tasks, j.stage = .returned) (key : Bytes) :
    key ∈ w.shared.store.known ↔ key ∈ s₀.store.known ∨
      ∃ ev ∈ events w, Foreign cfg ev ∧ ev.combination.key = key := by
  have hl := learned_of_reachable h
  have hfate : ∀ {k : Nat} {j : Job}, w.tasks[k]? = some j →
      Fate cfg j.event s₀.auditLogger.isSome (history k w.trace) := by
    intro k j hj
    have hpast := past_of_reachable h hj
    rw [hdone j (List.mem_of_getElem? hj)] at hpast
    exact hpast
  constructor
  · intro hkey
    rcases (hl.known key).1 hkey with hkey | ⟨k, ev, htr, hev, hkey⟩
    · exact .inl hkey
    · obtain ⟨j, hj, rfl⟩ := Option.map_eq_some_iff.1 ((List.getElem?_map ..).symm.trans hev)
      rcases fate_of_learning (hfate hj) hmode with ⟨-, hno⟩ | ⟨hf, -⟩
      · exact absurd (mem_history.2 htr) hno
      · exact .inr ⟨j.event, List.mem_map_of_mem (List.mem_of_getElem? hj), hf, hkey⟩
  · rintro (hkey | ⟨ev, hmem, hf, rfl⟩)
    · exact hl.start_le hkey
    · obtain ⟨j, hj, rfl⟩ := List.mem_map.1 hmem
      obtain ⟨k, hk⟩ := List.getElem?_of_mem hj
      rcases fate_of_learning (hfate hk) hmode with ⟨hno, -⟩ | ⟨-, ⟨store, hlookup, hknown⟩ | hlearn⟩
      · exact absurd hf hno
      · rw [Store.isKnown, decide_eq_true_eq] at hknown
        exact (hl.seen k store true (mem_history.1 hlookup)).2 hknown
      · have hev : (events w)[k]? = some j.event := by rw [events, List.getElem?_map, hk]; rfl
        exact (hl.known _).2 (.inr ⟨k, j.event, mem_history.1 hlearn, hev, rfl⟩)

/-! ## Runs of the agent -/

/-- The store only grows. -/
theorem store_mono {s s' : State} (h : Runs.Reachable (next cfg) s s') : s.store.known ⊆ s'.store.known := by
  refine h.invariant (I := fun s' => s.store.known ⊆ s'.store.known) Finset.Subset.rfl ?_
  intro e s₁ s₂ hle _ hnext
  refine hle.trans ?_
  rcases agent_of_next hnext with hsame | hstep
  · rw [State.store, State.store, hsame]
  · rw [State.store, State.store]
    generalize s₂.agent = w₂ at hstep
    cases hstep with
    | start => exact Finset.Subset.rfl
    | act k j i a shared j' hj hnext =>
      rcases store_of_acts (acts_of_next hnext).2 with ⟨-, hstore⟩ | ⟨-, hstore⟩
      · rw [hstore]; exact Finset.subset_insert _ _
      · rw [hstore]

/-- Over all interleavings of the readers and the save goroutine: once all events are dealt with, learn mode has
added the keys of exactly the events of others; every `Save` has taken a set between the first and the last
one; in filter mode the set stays, and of the events of others those are escalated whose key is not in it. -/
theorem learning_deterministic {file : Option Bytes} {shared : Shared} {s : State}
    (h : Runs.Reachable (next cfg) (init file shared) s) :
    (cfg.mode = lit "learn" → (∀ j ∈ s.agent.tasks, j.stage = .returned) → ∀ key, key ∈ s.store.known ↔
      key ∈ shared.store.known ∨ ∃ ev ∈ events s.agent, Foreign cfg ev ∧ ev.combination.key = key) ∧
    (∀ s₁ keys s₂, Runs.Reachable (next cfg) (init file shared) s₁ → next cfg (.lock keys) s₁ = some s₂ →
      Runs.Reachable (next cfg) s₂ s → shared.store.known ⊆ keys.toFinset ∧ keys.toFinset ⊆ s.store.known) ∧
    (cfg.mode = lit "filter" → s.store = shared.store ∧ ∀ k j, s.agent.tasks[k]? = some j → Foreign cfg j.event →
      j.stage.inHandler = false →
      (.escalate ∈ history k s.agent.trace ↔ j.event.combination.key ∉ shared.store.known)) := by
  have hw := tasks_of_reachable h
  refine ⟨fun hmode hdone key => known_of_learning hw hmode hdone key, ?_, fun hmode => ?_⟩
  · intro s₁ keys s₂ h₁ hlock h₂
    have hlists : s₁.store.Lists keys ∧ s₂.store = s₁.store := by
      obtain ⟨-, hstep⟩ := step_of_next hlock
      cases hstep with
      | lock final keys saver lists => exact ⟨lists, rfl⟩
    have hsaved : keys.toFinset = s₁.store.known := hlists.1.2
    rw [hsaved]
    refine ⟨store_mono h₁, ?_⟩
    rw [← hlists.2]
    exact store_mono h₂
  · have hfilter : cfg.mode ≠ lit "learn" := by rw [hmode]; decide
    exact ⟨store_of_filtering hw hfilter, fun k j hj hf hout => escalated_iff hw hfilter hj hf hout⟩

/-- A first `Save` comes between the lookup of the beacon and its being learned. -/
def savingWhileLearning : List Event :=
  [.launch, .launch, .launch, .read beacon, .handle .connect, .act 0 {}, .tick, .saveTick, .lock [], .truncate, .write,
    .act 0 {}]

theorem learning_deterministic_beacon : ∃ sh s, start learnConfig none none 0 = some sh ∧
    Runs.Reachable (next learnConfig) (init none sh) s ∧ s.file = some (save []) ∧ beaconKey ∈ s.store.known := by
  have hrun : ((start learnConfig none none 0).any fun sh =>
      (Runs.run (next learnConfig) savingWhileLearning (init none sh)).any fun s =>
        s.agent.tasks == [{ record := beacon, stage := .returned }] && s.file == some (save [])) = true := by
    decide +kernel
  obtain ⟨sh, s, hsh, h, hs⟩ := Runs.exists_of_run hrun
  simp only [Bool.and_eq_true, beq_iff_eq] at hs
  obtain ⟨htasks, hfile⟩ := hs
  have hdone : ∀ j ∈ s.agent.tasks, j.stage = .returned := by
    intro j hj
    rw [htasks] at hj
    rw [List.mem_singleton.1 hj]
  have hev : beacon.event ∈ events s.agent := by rw [events, htasks]; exact List.mem_cons_self
  refine ⟨sh, s, hsh, h, hfile, ?_⟩
  exact ((learning_deterministic h).1 rfl hdone beaconKey).2 (.inr ⟨_, hev, ⟨by decide, by decide⟩, rfl⟩)

end WatchBPF.Agent.Lifecycle
