/-
Who holds the locks. A reader takes `store.mu` to look a key up or to learn it, and `audit.mu` to record an event over
the limit. The save goroutine has `store.mu` while it writes the file, so `Learn` waits for it, and once `Learn` waits
no further reader gets the lock; whoever is in `Log` has `audit.mu` while it writes. The sections of `escalationMu` and
`policy.mu` work in memory only, and stay one step.
-/
import WatchBPF.Agent.Backlog

namespace WatchBPF.Agent

open WatchBPF.Kernel

variable {cfg : Config} {readStr : ReadStr} {s₀ : Shared}

/-! ## Locks -/

/-- A critical section that a job can have to wait for. -/
inductive Lock
  /-- `store.mu`, for reading -/
  | lookup
  /-- `store.mu`, for writing -/
  | learn
  /-- `audit.mu` -/
  | log
  deriving DecidableEq

/-- The critical section of a job's next action. -/
def Job.lock (cfg : Config) (s : Shared) (j : Job) : Option Lock :=
  match j.stage with
  | .received => if j.event.pid = cfg.selfPID ∨ j.event.comm ∈ excludedComms then none else some .lookup
  | .looked known => if cfg.mode = lit "learn" ∧ known = false then some .learn else none
  | .limited | .decided .. => if s.auditLogger.isSome then some .log else none
  | _ => none

/-- The critical section that an action is. -/
def Action.lock : Action → Option Lock
  | lookup .. => some .lookup
  | learn => some .learn
  | audit .. => some .log
  | _ => none

/-- What a job comes to is the critical section that its next action is. -/
theorem lock_of_acts {s s' : Shared} {j : Job} {stage : Stage} {a : Action}
    (h : Acts cfg j.event s j.stage a s' stage) : a.lock = j.lock cfg s := by
  obtain ⟨record, stage₀⟩ := j
  have haudit : ∀ call io, (auditWith call io s).1.lock = if s.auditLogger.isSome then some .log else none := by
    intro call io
    rcases auditWith_cases call io s with ⟨hl, h⟩ | ⟨l, hl, h⟩ <;> rw [h, hl] <;> rfl
  cases h with
  | ignore own => exact (if_pos own).symm
  | lookup pid comm => exact (if_neg (not_or.2 ⟨pid, comm⟩)).symm
  | known => exact (if_neg fun h => Bool.noConfusion h.2).symm
  | learn mode => exact (if_pos ⟨mode, rfl⟩).symm
  | escalate mode => exact (if_neg fun h => mode h.1).symm
  | auditLimited | auditDecision => exact haudit _ _
  | kill => rfl
  | _ => rfl

/-- The pipeline, with the locks that are held while the disk is at work. -/
structure Locked where
  pipeline : Pipeline
  /-- `Save` has `store.mu` for reading. -/
  saving : Bool := false
  /-- The job that is in `Learn`: it has asked for `store.mu`, and nobody else gets it before. -/
  learning : Option Nat := none
  /-- The job that is in `Log`, with `audit.mu`. -/
  logging : Option Nat := none

namespace Locked

inductive Event
  /-- The pipeline goes on. -/
  | go (e : Pipeline.Event)
  /-- A job calls `Learn`. -/
  | learn (k : Nat)
  /-- A job calls `Log`, and gets the lock. -/
  | log (k : Nat)
  /-- `Save` gets the lock, and gives it back. -/
  | save
  | saved

/-- The lock that the `k`-th job needs next. -/
def needs (cfg : Config) (p : Pipeline) (k : Nat) : Option Lock :=
  p.agent.tasks[k]?.bind fun j => j.lock cfg p.agent.shared

/-- Nobody keeps the job from its next action. -/
def Permits (l : Locked) (k : Nat) : Option Lock → Prop
  | none => True
  | some .lookup => l.learning = none
  | some .learn => l.learning = some k ∧ l.saving = false
  | some .log => l.logging = some k

instance (l : Locked) (k : Nat) : ∀ lock, Decidable (l.Permits k lock)
  | none => inferInstanceAs (Decidable True)
  | some .lookup => inferInstanceAs (Decidable (l.learning = none))
  | some .learn => inferInstanceAs (Decidable (l.learning = some k ∧ l.saving = false))
  | some .log => inferInstanceAs (Decidable (l.logging = some k))

/-- What was held for an action is given back after it. -/
def after (l : Locked) (p : Pipeline) : Option Lock → Locked
  | some .learn => { l with pipeline := p, learning := none }
  | some .log => { l with pipeline := p, logging := none }
  | _ => { l with pipeline := p }

def next (cfg : Config) (readStr : ReadStr) (e : Event) (l : Locked) : Option Locked :=
  match e with
  | .go (.act k i) =>
    let lock := needs cfg l.pipeline k
    if l.Permits k lock then (Pipeline.next cfg readStr (.act k i) l.pipeline).map fun p => l.after p lock else none
  | .go e => (Pipeline.next cfg readStr e l.pipeline).map fun p => { l with pipeline := p }
  | .learn k =>
    if needs cfg l.pipeline k = some .learn ∧ l.learning = none then some { l with learning := some k } else none
  | .log k =>
    if needs cfg l.pipeline k = some .log ∧ l.logging = none then some { l with logging := some k } else none
  | .save => if l.saving = false ∧ l.learning = none then some { l with saving := true } else none
  | .saved => if l.saving = true then some { l with saving := false } else none

/-- The events, each with what must hold for it. -/
inductive Steps (cfg : Config) (readStr : ReadStr) (l : Locked) : Event → Locked → Prop
  | act (k : Nat) (i : Input) (p : Pipeline) (permits : l.Permits k (needs cfg l.pipeline k))
      (acts : Pipeline.next cfg readStr (.act k i) l.pipeline = some p) :
      Steps cfg readStr l (.go (.act k i)) (l.after p (needs cfg l.pipeline k))
  | flow (e : Pipeline.Event) (p : Pipeline) (flows : Pipeline.next cfg readStr e l.pipeline = some p)
      (other : ∀ k i, e ≠ .act k i) : Steps cfg readStr l (.go e) { l with pipeline := p }
  | learn (k : Nat) (calls : needs cfg l.pipeline k = some .learn) (free : l.learning = none) :
      Steps cfg readStr l (.learn k) { l with learning := some k }
  | log (k : Nat) (calls : needs cfg l.pipeline k = some .log) (free : l.logging = none) :
      Steps cfg readStr l (.log k) { l with logging := some k }
  | save (free : l.learning = none) : Steps cfg readStr l .save { l with saving := true }
  | saved (under : l.saving = true) : Steps cfg readStr l .saved { l with saving := false }

theorem steps_of_next {e : Event} {l l' : Locked} (h : next cfg readStr e l = some l') : Steps cfg readStr l e l' := by
  cases e with
  | go e =>
    cases e with
    | act k i =>
      simp only [next] at h
      split at h
      · obtain ⟨p, hp, rfl⟩ := Option.map_eq_some_iff.1 h
        exact .act k i p ‹_› hp
      · cases h
    | enter | submit | read =>
      obtain ⟨p, hp, rfl⟩ := Option.map_eq_some_iff.1 h
      exact .flow _ p hp nofun
  | learn k =>
    simp only [next] at h
    split at h
    · rename_i hw
      cases h
      exact .learn k hw.1 hw.2
    · cases h
  | log k =>
    simp only [next] at h
    split at h
    · rename_i hw
      cases h
      exact .log k hw.1 hw.2
    · cases h
  | save =>
    simp only [next] at h
    split at h
    · rename_i hw
      cases h
      exact .save hw.2
    · cases h
  | saved =>
    simp only [next] at h
    split at h
    · cases h
      exact .saved ‹_›
    · cases h

@[simp] theorem after_pipeline (l : Locked) (p : Pipeline) (lock : Option Lock) : (l.after p lock).pipeline = p := by
  rcases lock with _ | (_ | _ | _) <;> rfl

theorem after_logging (l : Locked) (p : Pipeline) (lock : Option Lock) :
    (l.after p lock).logging = if lock = some .log then none else l.logging := by
  rcases lock with _ | (_ | _ | _) <;> rfl

theorem after_saving (l : Locked) (p : Pipeline) (lock : Option Lock) : (l.after p lock).saving = l.saving := by
  rcases lock with _ | (_ | _ | _) <;> rfl

/-! ## Who holds a lock -/

/-- Whoever holds a lock has the critical section as its next action. -/
structure Held (cfg : Config) (l : Locked) : Prop where
  learning : ∀ k ∈ l.learning, needs cfg l.pipeline k = some .learn
  logging : ∀ k ∈ l.logging, needs cfg l.pipeline k = some .log

theorem needs_eq {p : Pipeline} {k : Nat} {j : Job} (hj : p.agent.tasks[k]? = some j) :
    needs cfg p k = j.lock cfg p.agent.shared := by
  rw [needs, hj]
  rfl

theorem exists_of_needs {p : Pipeline} {k : Nat} {lock : Lock} (h : needs cfg p k = some lock) :
    ∃ j, p.agent.tasks[k]? = some j ∧ j.lock cfg p.agent.shared = some lock := by
  obtain ⟨j, hj, hlock⟩ := Option.bind_eq_some_iff.1 h
  exact ⟨j, hj, hlock⟩

/-- A job needs what it needed as long as it does nothing itself. -/
theorem needs_of_pipeline {e : Pipeline.Event} {p p' : Pipeline} (h : Pipeline.next cfg readStr e p = some p')
    {k : Nat} (hother : ∀ i, e ≠ .act k i) {lock : Lock} (hk : needs cfg p k = some lock) :
    needs cfg p' k = some lock := by
  obtain ⟨j, hj, hlock⟩ := exists_of_needs hk
  rw [needs_eq (Pipeline.getElem?_next h hj hother)]
  unfold Job.lock at hlock ⊢
  rwa [Pipeline.auditLogger_next h]

theorem held_next {e : Event} {l l' : Locked} (hl : Held cfg l) (h : next cfg readStr e l = some l') :
    Held cfg l' := by
  obtain ⟨hlearning, hlogging⟩ := hl
  cases steps_of_next h with
  | act k i p permits acts =>
    -- whoever else holds a lock still needs it
    have hkeep : ∀ {k' : Nat} {lock : Lock}, k' ≠ k → needs cfg l.pipeline k' = some lock →
        needs cfg p k' = some lock := by
      intro k' lock hne hneeds
      refine needs_of_pipeline acts (fun i' heq => hne ?_) hneeds
      cases heq
      rfl
    have hlearn : needs cfg l.pipeline k ≠ some .learn → ∀ k' ∈ l.learning, needs cfg p k' = some .learn := by
      intro hne k' hk'
      refine hkeep (fun heq => hne ?_) (hlearning k' hk')
      rw [← heq]
      exact hlearning k' hk'
    have hlog : needs cfg l.pipeline k ≠ some .log → ∀ k' ∈ l.logging, needs cfg p k' = some .log := by
      intro hne k' hk'
      refine hkeep (fun heq => hne ?_) (hlogging k' hk')
      rw [← heq]
      exact hlogging k' hk'
    rcases hneeds : needs cfg l.pipeline k with _ | (_ | _ | _) <;> rw [hneeds] at hlearn hlog
    · exact ⟨hlearn nofun, hlog nofun⟩
    · exact ⟨hlearn nofun, hlog nofun⟩
    · exact ⟨nofun, hlog nofun⟩
    · exact ⟨hlearn nofun, nofun⟩
  | flow e p flows other =>
    exact ⟨fun k hk => needs_of_pipeline flows (other k) (hlearning k hk),
      fun k hk => needs_of_pipeline flows (other k) (hlogging k hk)⟩
  | learn k calls free =>
    refine ⟨fun k' hk' => ?_, hlogging⟩
    cases hk'
    exact calls
  | log k calls free =>
    refine ⟨hlearning, fun k' hk' => ?_⟩
    cases hk'
    exact calls
  | save | saved => exact ⟨hlearning, hlogging⟩

/-- With the locks a run is still one of the pipeline. -/
theorem pipeline_of_reachable {p₀ : Pipeline} {l : Locked}
    (h : Runs.Reachable (next cfg readStr) { pipeline := p₀ } l) :
    Runs.Reachable (Pipeline.next cfg readStr) p₀ l.pipeline := by
  refine h.invariant (I := fun l => Runs.Reachable (Pipeline.next cfg readStr) p₀ l.pipeline) .refl ?_
  intro e l l' hreach _ hnext
  cases steps_of_next hnext with
  | act k i p _ acts =>
    rw [after_pipeline]
    exact .step _ _ _ hreach trivial acts
  | flow e p flows => exact .step _ _ _ hreach trivial flows
  | _ => exact hreach

/-- Every run of the pipeline is one with the locks, each taken and given back at once. -/
theorem locked_of_reachable {p₀ p : Pipeline} (h : Runs.Reachable (Pipeline.next cfg readStr) p₀ p) :
    Runs.Reachable (next cfg readStr) { pipeline := p₀ } { pipeline := p } := by
  induction h with
  | refl => exact .refl
  | step e p p' _ _ hnext ih =>
    cases e with
    | enter label ctx prior =>
      refine .step (.go (.enter label ctx prior)) _ _ ih trivial ?_
      simp only [next, hnext, Option.map_some]
    | submit label n =>
      refine .step (.go (.submit label n)) _ _ ih trivial ?_
      simp only [next, hnext, Option.map_some]
    | read label =>
      refine .step (.go (.read label)) _ _ ih trivial ?_
      simp only [next, hnext, Option.map_some]
    | act k i =>
      -- with its lock taken, the action goes through and gives it back
      have hgo : ∀ {l : Locked}, l.pipeline = p → l.Permits k (needs cfg p k) →
          Runs.Reachable (next cfg readStr) { pipeline := p₀ } l →
          Runs.Reachable (next cfg readStr) { pipeline := p₀ } (l.after p' (needs cfg p k)) := by
        rintro l rfl hpermits hl
        refine .step (.go (.act k i)) _ _ hl trivial ?_
        simp only [next, if_pos hpermits, hnext, Option.map_some]
      rcases hneeds : needs cfg p k with _ | (_ | _ | _) <;> rw [hneeds] at hgo
      · exact hgo (l := { pipeline := p }) rfl trivial ih
      · exact hgo (l := { pipeline := p }) rfl rfl ih
      · refine hgo (l := { pipeline := p, learning := some k }) rfl ⟨rfl, rfl⟩ (.step (.learn k) _ _ ih trivial ?_)
        simp only [next, hneeds, and_self, if_true]
      · refine hgo (l := { pipeline := p, logging := some k }) rfl rfl (.step (.log k) _ _ ih trivial ?_)
        simp only [next, hneeds, and_self, if_true]

/-- The locks decide in what order things can go on, but not what the pipeline can come to. -/
theorem reachable_pipeline_iff {p₀ p : Pipeline} :
    (∃ l : Locked, Runs.Reachable (next cfg readStr) { pipeline := p₀ } l ∧ l.pipeline = p) ↔
      Runs.Reachable (Pipeline.next cfg readStr) p₀ p := by
  constructor
  · rintro ⟨l, hl, rfl⟩
    exact pipeline_of_reachable hl
  · intro h
    exact ⟨{ pipeline := p }, locked_of_reachable h, rfl⟩

theorem held_of_reachable {p₀ : Pipeline} {l : Locked}
    (h : Runs.Reachable (next cfg readStr) { pipeline := p₀ } l) : Held cfg l := by
  have hinit : Held cfg { pipeline := p₀ } := ⟨nofun, nofun⟩
  exact h.invariant hinit fun _ _ _ hl _ hnext => held_next hl hnext

end Locked

end WatchBPF.Agent
