/-
The readers keep up. A reader waits for nothing but critical sections, and those that it can have to wait for end when
their goroutines go on; so with the eBPF programs under way, the readers and these going on, all ring buffers are
emptied and all events handled in a bounded number of steps, whatever the LLM does.
-/
import WatchBPF.Agent.Locks

namespace WatchBPF.Agent.Locked

open WatchBPF.Audit WatchBPF.CStruct WatchBPF.Kernel

variable {cfg : Config} {readStr : ReadStr} {s₀ : Shared}

/-! ## Rank -/

/-- The job has a lock that its reader waits for. -/
theorem stage_of_learn {s : Shared} {j : Job} (h : j.lock cfg s = some .learn) : ∃ known, j.stage = .looked known := by
  unfold Job.lock at h
  split at h
  · split at h <;> cases h
  · exact ⟨_, ‹_›⟩
  · split at h <;> cases h
  · split at h <;> cases h
  · cases h

theorem stage_of_log {s : Shared} {j : Job} (h : j.lock cfg s = some .log) :
    j.stage = .limited ∨ ∃ ta d, j.stage = .decided ta d := by
  unfold Job.lock at h
  split at h
  · split at h <;> cases h
  · split at h <;> cases h
  · exact .inl ‹_›
  · exact .inr ⟨_, _, ‹_›⟩
  · cases h

/-- Only an event that is being dealt with, and not waiting for a slot, comes to a critical section. -/
theorem under_way_of_lock {s : Shared} {j : Job} {lock : Lock} (h : j.lock cfg s = some lock) :
    j.stage ≠ .returned ∧ j.stage ≠ .queued := by
  constructor
  all_goals
    intro hstage
    unfold Job.lock at h
    rw [hstage] at h
    cases h

/-- The `k`-th job is in `handleEvent`. -/
def Inside (l : Locked) (k : Nat) : Prop := ∃ j, l.pipeline.agent.tasks[k]? = some j ∧ j.stage.inHandler = true

/-- Only the eBPF programs under way go on, the readers, and whoever is in `Save` or `Log` up to the end of that. -/
def Serving (e : Event) (l : Locked) : Prop :=
  match e with
  | .go (.enter ..) => False
  | .go (.submit ..) | .go (.read _) => True
  | .go (.act k _) => l.Inside k ∨ l.logging = some k
  | .learn _ => True
  | .log k => l.Inside k
  | .save => False
  | .saved => True

instance (l : Locked) (k : Nat) : Decidable (l.Inside k) :=
  decidable_of_iff ((l.pipeline.agent.tasks[k]?).any (fun j => j.stage.inHandler) = true) (Option.any_eq_true _ _)

/-- What is left to do for `audit.mu`: to take it, or to wait for somebody else. -/
def logRank (l : Locked) : Nat :=
  match l.logging with
  | none => 1
  | some k => if l.Inside k then 0 else 2

/-- A bound on what is left to do. -/
def rank (l : Locked) : Nat :=
  3 * Pipeline.backlog l.pipeline + l.saving.toNat + (if l.learning = none then 1 else 0) + l.logRank

theorem logRank_eq {l l' : Locked} (hlogging : l'.logging = l.logging)
    (hinside : ∀ k ∈ l.logging, (l'.Inside k ↔ l.Inside k)) : l'.logRank = l.logRank := by
  unfold logRank
  rw [hlogging]
  cases hl : l.logging with
  | none => rfl
  | some k => simp only [hinside k hl]

theorem inside_of_getElem? {l l' : Locked} {k : Nat} {j : Job} (hj : l.pipeline.agent.tasks[k]? = some j)
    (hj' : l'.pipeline.agent.tasks[k]? = some j) : l'.Inside k ↔ l.Inside k := by
  unfold Inside
  rw [hj, hj']

theorem inside_act {k : Nat} {l : Locked} (h : l.Inside k) (i : Input) :
    Pipeline.Serving (.act k i) l.pipeline := by
  intro j hj
  obtain ⟨j', hj', hin⟩ := h
  obtain rfl := Option.some.inj (hj'.symm.trans hj)
  exact hin

/-- An action of a reader, or of the job that is in `Log`. -/
theorem rank_act {k : Nat} {i : Input} {l : Locked} {p : Pipeline} (hl : Held cfg l)
    (hserving : l.Inside k ∨ l.logging = some k) (permits : l.Permits k (needs cfg l.pipeline k))
    (acts : Pipeline.next cfg readStr (.act k i) l.pipeline = some p) :
    rank (l.after p (needs cfg l.pipeline k)) < rank l := by
  by_cases hlock : needs cfg l.pipeline k = some .log
  · -- it leaves `Log`
    rw [hlock] at permits ⊢
    have hafter : rank (l.after p (some .log)) =
        3 * Pipeline.backlog p + l.saving.toNat + (if l.learning = none then 1 else 0) + 1 := rfl
    have hlogging : l.logging = some k := permits
    rw [hafter]
    unfold rank logRank
    rw [hlogging]
    dsimp only
    by_cases hin : l.Inside k
    · have hlt := Pipeline.backlog_lt _ _ _ (inside_act hin i) acts
      rw [if_pos hin]
      omega
    · obtain ⟨j, hj, -⟩ := exists_of_needs hlock
      have hout : j.stage.inHandler = false := Bool.not_eq_true _ ▸ fun h => hin ⟨j, hj, h⟩
      rw [if_neg hin, Pipeline.backlog_act acts hj hout]
      omega
  · have hin : l.Inside k := hserving.resolve_right fun h => hlock (hl.logging k h)
    have hlt := Pipeline.backlog_lt _ _ _ (inside_act hin i) acts
    have hlog : logRank (l.after p (needs cfg l.pipeline k)) = logRank l := by
      refine logRank_eq (by rw [after_logging, if_neg hlock]) fun k' hk' => ?_
      obtain ⟨j, hj, -⟩ := exists_of_needs (hl.logging k' hk')
      refine inside_of_getElem? hj ?_
      rw [after_pipeline]
      refine Pipeline.getElem?_next acts hj fun i' heq => hlock ?_
      cases heq
      exact hl.logging _ hk'
    unfold rank
    rw [hlog, after_saving, after_pipeline]
    split <;> split <;> omega

theorem rank_lt {e : Event} {l l' : Locked} (hl : Held cfg l) (hserving : Serving e l)
    (h : next cfg readStr e l = some l') : rank l' < rank l := by
  cases steps_of_next h with
  | act k i p permits acts => exact rank_act hl hserving permits acts
  | flow e p flows other =>
    have hserves : Pipeline.Serving e l.pipeline := by
      cases e with
      | act k i => exact absurd rfl (other k i)
      | enter => exact hserving
      | submit | read => trivial
    have hlt := Pipeline.backlog_lt _ _ _ hserves flows
    have hlog : logRank { l with pipeline := p } = logRank l := by
      refine logRank_eq rfl fun k hk => ?_
      obtain ⟨j, hj, -⟩ := exists_of_needs (hl.logging k hk)
      exact inside_of_getElem? hj (Pipeline.getElem?_next flows hj (other k))
    unfold rank
    rw [hlog]
    dsimp only
    omega
  | learn k calls free =>
    have hlog : logRank { l with learning := some k } = logRank l := logRank_eq rfl fun _ _ => Iff.rfl
    unfold rank
    rw [hlog, free]
    simp
  | log k calls free =>
    have hin : Inside { l with logging := some k } k := hserving
    unfold rank logRank
    simp only [free, if_pos hin]
    omega
  | save free => exact hserving.elim
  | saved under =>
    have hlog : logRank { l with saving := false } = logRank l := logRank_eq rfl fun _ _ => Iff.rfl
    unfold rank
    rw [hlog, under]
    simp only [Bool.toNat_false, Bool.toNat_true]
    omega

/-! ## Progress -/

/-- Until the buffers are drained something can go on: whoever a reader waits for, or a reader. -/
theorem serving_of_undrained {l : Locked} (hinv : Pipeline.Inv cfg readStr s₀ l.pipeline) (hl : Held cfg l)
    (hleft : ¬ Pipeline.Drained l.pipeline) :
    ∃ e : Input → Event, ∀ i, Serving (e i) l ∧ (next cfg readStr (e i) l).isSome = true := by
  -- a job goes on when it has its lock
  have hact : ∀ {k : Nat} {j : Job}, l.pipeline.agent.tasks[k]? = some j → j.stage ≠ .returned ∧ j.stage ≠ .queued →
      l.Permits k (needs cfg l.pipeline k) → ∀ i, (next cfg readStr (.go (.act k i)) l).isSome = true := by
    intro k j hj hstage hpermits i
    have hsome : (Pipeline.next cfg readStr (.act k i) l.pipeline).isSome = true :=
      Pipeline.act_isSome hj hstage.1 hstage.2 i
    simp only [next, if_pos hpermits, Option.isSome_map]
    exact hsome
  by_cases hsaving : l.saving = true
  · exact ⟨fun _ => .saved, fun _ => ⟨trivial, by simp only [next, if_pos hsaving, Option.isSome_some]⟩⟩
  cases hlogging : l.logging with
  | some k =>
    have hneeds := hl.logging k hlogging
    obtain ⟨j, hj, hlock⟩ := exists_of_needs hneeds
    have hpermits : l.Permits k (needs cfg l.pipeline k) := by
      rw [hneeds]
      exact hlogging
    exact ⟨fun i => .go (.act k i), fun i => ⟨.inr hlogging, hact hj (under_way_of_lock hlock) hpermits i⟩⟩
  | none =>
    cases hlearning : l.learning with
    | some k =>
      have hneeds := hl.learning k hlearning
      obtain ⟨j, hj, hlock⟩ := exists_of_needs hneeds
      have hpermits : l.Permits k (needs cfg l.pipeline k) := by
        rw [hneeds]
        exact ⟨hlearning, Bool.not_eq_true _ ▸ hsaving⟩
      obtain ⟨known, hstage⟩ := stage_of_learn hlock
      have hin : j.stage.inHandler = true := by rw [hstage]; rfl
      exact ⟨fun i => .go (.act k i), fun i => ⟨.inl ⟨j, hj, hin⟩, hact hj (under_way_of_lock hlock) hpermits i⟩⟩
    | none =>
      rcases Pipeline.serving_of_undrained hinv hleft with ⟨k, j, hj, hin⟩ | ⟨label, hsubmit | hread⟩
      · have hstage : j.stage ≠ .returned ∧ j.stage ≠ .queued := by
          constructor <;> (intro h; rw [h] at hin; cases hin)
        rcases hneeds : needs cfg l.pipeline k with _ | (_ | _ | _)
        · refine ⟨fun i => .go (.act k i), fun i => ⟨.inl ⟨j, hj, hin⟩, hact hj hstage ?_ i⟩⟩
          rw [hneeds]
          trivial
        · refine ⟨fun i => .go (.act k i), fun i => ⟨.inl ⟨j, hj, hin⟩, hact hj hstage ?_ i⟩⟩
          rw [hneeds]
          exact hlearning
        · exact ⟨fun _ => .learn k, fun _ => ⟨trivial, by simp [next, hneeds, hlearning]⟩⟩
        · exact ⟨fun _ => .log k, fun _ => ⟨⟨j, hj, hin⟩, by simp [next, hneeds, hlogging]⟩⟩
      · exact ⟨fun _ => .go (.submit label 0), fun _ => ⟨trivial, by simpa [next] using hsubmit⟩⟩
      · exact ⟨fun _ => .go (.read label), fun _ => ⟨trivial, by simpa [next] using hread⟩⟩

/-! ## What does not move -/

/-- A job that has left `handleEvent` stays where it was, or has come to the end of the `Log` that it was in. -/
def Stays (l : Locked) (k : Nat) (j : Job) (l' : Locked) : Prop :=
  l'.pipeline.agent.tasks[k]? = some j ∨
    l.logging = some k ∧ l'.logging ≠ some k ∧
      ∃ ta d, j.stage = .decided ta d ∧ l'.pipeline.agent.tasks[k]? = some { j with stage := .acting d }

/-- What holds of every state that is reached by serving. -/
structure Since (l l' : Locked) : Prop where
  calls : ∀ label, (l'.pipeline.channel label).calls = (l.pipeline.channel label).calls
  others : ∀ (k : Nat) (j : Job), l.pipeline.agent.tasks[k]? = some j → j.stage.inHandler = false → Stays l k j l'
  /-- nobody but the readers has come into `Log` -/
  holder : ∀ k, l'.logging = some k → l.logging = some k ∨ l'.Inside k

theorem not_inside {l : Locked} {k : Nat} {j : Job} (hj : l.pipeline.agent.tasks[k]? = some j)
    (hout : j.stage.inHandler = false) : ¬ l.Inside k := by
  rintro ⟨j', hj', hin⟩
  obtain rfl := Option.some.inj (hj.symm.trans hj')
  rw [hout] at hin
  cases hin

/-- The job that is in `Log` about a decision goes on to act on it. -/
theorem acting_of_log {k : Nat} {i : Input} {p p' : Pipeline} {j : Job} (hj : p.agent.tasks[k]? = some j)
    (hout : j.stage.inHandler = false) (hlock : j.lock cfg p.agent.shared = some .log)
    (acts : Pipeline.next cfg readStr (.act k i) p = some p') :
    ∃ ta d, j.stage = .decided ta d ∧ p'.agent.tasks[k]? = some { j with stage := .acting d } := by
  obtain hstage | ⟨ta, d, hstage⟩ := stage_of_log hlock
  · rw [hstage] at hout
    cases hout
  · refine ⟨ta, d, hstage, ?_⟩
    cases Pipeline.steps_of_next acts with
    | act _ _ j₀ a shared j' here acts =>
      obtain rfl := Option.some.inj (hj.symm.trans here)
      obtain ⟨hrecord, hacts⟩ := acts_of_next acts
      have hnext : j'.stage = .acting d := by
        rw [hstage] at hacts
        generalize hs : j'.stage = stage at hacts
        cases hacts
        rfl
      rw [List.getElem?_set_self (List.getElem?_eq_some_iff.1 hj).1]
      obtain ⟨record, stage⟩ := j'
      cases hrecord
      cases hnext
      rfl

theorem since_act {l₀ l : Locked} {k : Nat} {i : Input} {p : Pipeline} (hl : Held cfg l) (hsince : Since l₀ l)
    (hserving : l.Inside k ∨ l.logging = some k) (acts : Pipeline.next cfg readStr (.act k i) l.pipeline = some p) :
    Since l₀ (l.after p (needs cfg l.pipeline k)) := by
  -- the other jobs do not move
  have hkeep : ∀ {k₁ : Nat} {j : Job}, k₁ ≠ k → l.pipeline.agent.tasks[k₁]? = some j →
      (l.after p (needs cfg l.pipeline k)).pipeline.agent.tasks[k₁]? = some j := by
    intro k₁ j hne hj
    rw [after_pipeline]
    exact Pipeline.getElem?_next acts hj fun i' heq => hne (by cases heq; rfl)
  have hlogging : ∀ k₁, (l.after p (needs cfg l.pipeline k)).logging = some k₁ → k₁ ≠ k ∧ l.logging = some k₁ := by
    intro k₁ h
    rw [after_logging] at h
    split at h
    · cases h
    · refine ⟨?_, h⟩
      rintro rfl
      exact absurd (hl.logging _ h) ‹_›
  refine ⟨fun label => ?_, fun k₁ j hj hout => ?_, fun k₁ hk₁ => ?_⟩
  · rw [after_pipeline, Pipeline.calls_next acts nofun, hsince.calls]
  · by_cases heq : k₁ = k
    · subst heq
      rcases hsince.others k₁ j hj hout with hstay | ⟨-, hfree, ta, d, -, hacting⟩
      · -- it was in `Log` from the start
        have hnot := not_inside hstay hout
        have hlog : l.logging = some k₁ := hserving.resolve_left hnot
        have hneeds := hl.logging k₁ hlog
        obtain ⟨ta, d, hstage, hacting⟩ := acting_of_log hstay hout ((needs_eq hstay).symm.trans hneeds) acts
        refine .inr ⟨(hsince.holder k₁ hlog).resolve_right hnot, fun h => (hlogging k₁ h).1 rfl, ta, d, hstage, ?_⟩
        rw [after_pipeline]
        exact hacting
      · rcases hserving with hin | hlog
        · exact absurd hin (not_inside hacting rfl)
        · exact absurd hlog hfree
    · rcases hsince.others k₁ j hj hout with hstay | ⟨hlog, hfree, ta, d, hstage, hacting⟩
      · exact .inl (hkeep heq hstay)
      · exact .inr ⟨hlog, fun h => hfree (hlogging k₁ h).2, ta, d, hstage, hkeep heq hacting⟩
  · obtain ⟨hne, hlog⟩ := hlogging k₁ hk₁
    refine (hsince.holder k₁ hlog).imp_right ?_
    rintro ⟨j, hj, hin⟩
    exact ⟨j, hkeep hne hj, hin⟩

theorem since_next {l₀ l l' : Locked} {e : Event} (hl : Held cfg l) (hsince : Since l₀ l) (hserving : Serving e l)
    (h : next cfg readStr e l = some l') : Since l₀ l' := by
  cases steps_of_next h with
  | act k i p permits acts => exact since_act hl hsince hserving acts
  | flow e p flows other =>
    have hkeep : ∀ {k : Nat} {j : Job}, l.pipeline.agent.tasks[k]? = some j → p.agent.tasks[k]? = some j :=
      fun hj => Pipeline.getElem?_next flows hj (other _)
    refine ⟨fun label => ?_, fun k j hj hout => ?_, fun k hk => ?_⟩
    · rw [← hsince.calls label]
      refine Pipeline.calls_next flows ?_ label
      rintro label' ctx prior rfl
      exact hserving
    · rcases hsince.others k j hj hout with hstay | ⟨hlog, hfree, ta, d, hstage, hacting⟩
      · exact .inl (hkeep hstay)
      · exact .inr ⟨hlog, hfree, ta, d, hstage, hkeep hacting⟩
    · refine (hsince.holder k hk).imp_right ?_
      rintro ⟨j, hj, hin⟩
      exact ⟨j, hkeep hj, hin⟩
  | learn k calls free => exact ⟨hsince.calls, hsince.others, hsince.holder⟩
  | log k calls free =>
    refine ⟨hsince.calls, fun k₁ j hj hout => ?_, fun k₁ hk₁ => ?_⟩
    · rcases hsince.others k₁ j hj hout with hstay | ⟨hlog, hfree, ta, d, hstage, hacting⟩
      · exact .inl hstay
      · refine .inr ⟨hlog, fun heq => ?_, ta, d, hstage, hacting⟩
        cases heq
        exact not_inside hacting rfl hserving
    · cases hk₁
      exact .inr hserving
  | save => exact hserving.elim
  | saved => exact ⟨hsince.calls, hsince.others, hsince.holder⟩

/-- The readers never wait for the LLM, only for critical sections. From every state of every run, with nothing going on
but the eBPF programs that are under way, the readers, and whoever is in `Save` or `Log` up to the end of that, in
whatever order and with whatever inputs: there is a bound on what they do, they are not blocked before the buffers are
empty and `handleEvent` has returned from every event, and they get there; by then the events of all calls that found
room were handed over in order, and no job that was past `handleEvent` has moved, but for one that was in `Log`. -/
theorem readers_keep_up (hr : ReadsStr readStr) {l : Locked}
    (h : Runs.Reachable (next cfg readStr) { pipeline := { agent := { shared := s₀ } } } l) :
    (∀ n l', Runs.Goes (next cfg readStr) Serving n l l' →
      n ≤ rank l ∧
      (∀ (k : Nat) (j : Job), l.pipeline.agent.tasks[k]? = some j → j.stage.inHandler = false → Stays l k j l') ∧
      ((∃ e : Input → Event, ∀ i, Serving (e i) l' ∧ (next cfg readStr (e i) l').isSome = true) ∨
        Pipeline.Drained l'.pipeline ∧ ∀ label,
          List.Forall₂ (Pipeline.Yields readStr label) (Pipeline.admitted label (l.pipeline.channel label).calls)
            (Pipeline.handed label l'.pipeline.agent))) ∧
    ∃ n l', Runs.Goes (next cfg readStr) Serving n l l' ∧ Pipeline.Drained l'.pipeline := by
  have hrank : ∀ e l l', Runs.Reachable (next cfg readStr) { pipeline := { agent := { shared := s₀ } } } l →
      Serving e l → next cfg readStr e l = some l' → rank l' < rank l :=
    fun e l l' hl hserving hnext => rank_lt (held_of_reachable hl) hserving hnext
  have hprogress : ∀ {l'}, Runs.Reachable (next cfg readStr) { pipeline := { agent := { shared := s₀ } } } l' →
      ¬ Pipeline.Drained l'.pipeline →
        ∃ e : Input → Event, ∀ i, Serving (e i) l' ∧ (next cfg readStr (e i) l').isSome = true :=
    fun hl' hleft =>
      serving_of_undrained (Pipeline.inv_of_reachable hr (pipeline_of_reachable hl')) (held_of_reachable hl') hleft
  refine ⟨fun n l' hgoes => ?_, ?_⟩
  · have hbound := hgoes.le_rank hrank h
    have hl' := hgoes.reachable h
    have hsince := (hgoes.invariant (I := fun l' => Held cfg l' ∧ Since l l')
      ⟨held_of_reachable h, fun _ => rfl, fun _ _ hj _ => .inl hj, fun _ hk => .inl hk⟩
      fun _ _ _ hs hserving hnext => ⟨held_next hs.1 hnext, since_next hs.1 hs.2 hserving hnext⟩).2
    refine ⟨by omega, hsince.others, ?_⟩
    by_cases hleft : Pipeline.Drained l'.pipeline
    · have hinv := Pipeline.inv_of_reachable hr (pipeline_of_reachable hl')
      refine .inr ⟨hleft, fun label => ?_⟩
      obtain ⟨served, hserved, hhanded⟩ := (hinv.feeds label).delivers.order
      rw [hleft.1 label, List.map_nil, List.append_nil, hsince.calls label] at hserved
      rw [hserved]
      exact hhanded
    · exact .inl (hprogress hl' hleft)
  · refine Runs.exists_goes (D := fun l => Pipeline.Drained l.pipeline) hrank (fun l' hl' hleft => ?_) h
    obtain ⟨e, he⟩ := hprogress hl' hleft
    exact ⟨e {}, he {}⟩

/-- A connection on its way up to an assessment that may never end. -/
def toAssessment (k : Nat) : List Event :=
  [.go (.enter .connect httpsCtx (List.replicate 52 0)), .go (.submit .connect 0), .go (.read .connect)] ++
    List.replicate 5 (.go (.act k {}))

/-- All slots of `llmSemaphore` are taken, one of the assessments is in `Log`, and `Save` is writing. -/
def crowded : List Event :=
  (List.range 3).flatMap toAssessment ++
    [.go (.act 0 { answer := some (lit "\x7b\"threat_score\":35,\"recommended_action\":\"log\"\x7d") }),
      .go (.act 0 {}), .log 0, .save, .go (.enter .connect httpsCtx (List.replicate 52 0))]

/-- A further connection is handled then. -/
theorem readers_keep_up_busy : ∃ l : Locked, l.pipeline.agent.shared.slots = 3 ∧ l.logging = some 0 ∧ l.saving = true ∧
    (l.pipeline.channel .connect).slots.length = 1 ∧
    ∃ n l', Runs.Goes (next liveConfig probeReadUserStr) Serving n l l' ∧ Pipeline.Drained l'.pipeline := by
  have hrun : ((start liveConfig none (some (newLogger none)) 0).any fun s =>
      (Runs.run (next liveConfig probeReadUserStr) crowded { pipeline := { agent := { shared := s } } }).any fun l =>
        l.pipeline.agent.shared.slots == 3 && l.logging == some 0 && l.saving &&
          (l.pipeline.channel .connect).slots.length == 1) = true := by
    decide +kernel
  obtain ⟨s, l, -, hl, hcheck⟩ := Runs.exists_of_run hrun
  simp only [Bool.and_eq_true, beq_iff_eq] at hcheck
  obtain ⟨⟨⟨hslots, hlogging⟩, hsaving⟩, hwaiting⟩ := hcheck
  exact ⟨l, hslots, hlogging, hsaving, hwaiting, (readers_keep_up readsStr_probeReadUserStr hl).2⟩

end WatchBPF.Agent.Locked
