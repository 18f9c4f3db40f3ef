/-
What becomes of an event. The history of a job tells where it stands: each stage is reached by one
sequence of actions, and a job that has returned met one of seven fates.
-/
import WatchBPF.Agent.Handle

namespace WatchBPF.Agent

open WatchBPF.Audit WatchBPF.Baseline WatchBPF.LLM WatchBPF.Policy WatchBPF.Tasks

variable {cfg : Config} {ev : Event} {logged : Bool}

/-! ## Courses -/

/-- The event is none of the agent's own. -/
structure Foreign (cfg : Config) (ev : Event) : Prop where
  pid : ev.pid ≠ cfg.selfPID
  comm : ev.comm ∉ excludedComms

/-- How an event came to the escalation guard. -/
structure Intake where
  store : Store
  now : Int
  now' : Int
  count : Nat

/-- The event was escalated after a lookup in this store. -/
structure Novel (cfg : Config) (ev : Event) (store : Store) : Prop extends Foreign cfg ev where
  mode : cfg.mode ≠ lit "learn"
  unknown : store.isKnown ev.combination = false

structure Dispatched (cfg : Config) (ev : Event) (n : Intake) : Prop extends Novel cfg ev n.store where
  within : n.count ≤ 50
  client : cfg.llmClient = true

def Intake.counted (n : Intake) : List Action := [.lookup n.store false, .escalate, .guard n.now n.now' n.count]

def Intake.actions (n : Intake) : List Action := n.counted ++ [.dispatch, .acquire]

/-- How a dispatched event came to its decision. -/
structure Course where
  intake : Intake
  text : Bytes
  ta : ThreatAssessment
  now : Int
  stamps : Timestamps

namespace Course

def score (c : Course) : Int := c.ta.threatScore.toInt

def decision (cfg : Config) (ev : Event) (c : Course) : Decision :=
  (evaluate cfg.policy c.now ev.comm c.score c.stamps).1

def actions (cfg : Config) (ev : Event) (c : Course) : List Action :=
  c.intake.actions ++ [.assess (some c.text), .evaluate c.now c.score c.stamps (c.decision cfg ev)]

/-- What is done about the decision. -/
def effects (cfg : Config) (ev : Event) (c : Course) : List Action :=
  if (c.decision cfg ev).live then
    if (c.decision cfg ev).tier = .hard then
      .kill ev.pid :: if ev.label = .connect then [.isolate (isolatedIP ev.detail)] else []
    else [.pause ev.pid]
  else [.pass]

end Course

structure Assessed (cfg : Config) (ev : Event) (c : Course) : Prop extends Dispatched cfg ev c.intake where
  accepted : parseAssessment c.text = .ok c.ta

/-- One audit call, if there is a logger. -/
def Recorded (logged : Bool) (call : Instant → LogCall) (record : Action) : Prop :=
  if logged then ∃ now err, record = .audit (call now) err else record = .pass

theorem recorded_auditWith (call : Instant → LogCall) (now : Instant) (io : WriteResult) (s : Shared) :
    Recorded s.auditLogger.isSome call (auditWith (call now) io s).1 := by
  unfold Recorded
  rcases auditWith_cases (call now) io s with ⟨hl, h⟩ | ⟨l, hl, h⟩
  · rw [h, hl]
    rfl
  · rw [h, hl]
    exact ⟨now, _, rfl⟩

/-! ## Fates -/

/-- The histories of assessments that have ended. -/
inductive Ended (cfg : Config) (ev : Event) (logged : Bool) : List Action → Prop
  | failed (n : Intake) (answer : Option Bytes) (dispatched : Dispatched cfg ev n)
      (bad : ∀ text ∈ answer, ∃ e, parseAssessment text = .error e) :
      Ended cfg ev logged (n.actions ++ [.assess answer])
  | evaluated (c : Course) (record : Action) (assessed : Assessed cfg ev c)
      (recorded : Recorded logged (fun now => decisionCall ev now c.ta.threatScore (c.decision cfg ev)) record) :
      Ended cfg ev logged (c.actions cfg ev ++ record :: c.effects cfg ev)

/-- The histories of events that have been dealt with. -/
inductive Fate (cfg : Config) (ev : Event) (logged : Bool) : List Action → Prop
  | ignored (own : ev.pid = cfg.selfPID ∨ ev.comm ∈ excludedComms) : Fate cfg ev logged [.ignore]
  | known (store : Store) (foreign : Foreign cfg ev) (known : store.isKnown ev.combination = true) :
      Fate cfg ev logged [.lookup store true, .pass]
  | learned (store : Store) (foreign : Foreign cfg ev) (mode : cfg.mode = lit "learn")
      (unknown : store.isKnown ev.combination = false) : Fate cfg ev logged [.lookup store false, .learn]
  | limited (n : Intake) (record : Action) (novel : Novel cfg ev n.store) (exceeded : 50 < n.count)
      (recorded : Recorded logged (limitedCall ev) record) :
      Fate cfg ev logged (n.counted ++ [.limit, record])
  | noClient (n : Intake) (novel : Novel cfg ev n.store) (within : n.count ≤ 50) (client : cfg.llmClient = false) :
      Fate cfg ev logged (n.counted ++ [.pass])
  | ended {as : List Action} (h : Ended cfg ev logged as) : Fate cfg ev logged (as ++ [.release])

/-- The histories that lead to a stage. -/
def Past (cfg : Config) (ev : Event) (logged : Bool) : Stage → List Action → Prop
  | .received, as => as = []
  | .looked known, as => Foreign cfg ev ∧ ∃ store, as = [.lookup store known] ∧ store.isKnown ev.combination = known
  | .escalated, as => ∃ store, as = [.lookup store false, .escalate] ∧ Novel cfg ev store
  | .guarded overLimit, as => ∃ n : Intake, as = n.counted ∧ Novel cfg ev n.store ∧ overLimit = decide (50 < n.count)
  | .limited, as => ∃ n : Intake, as = n.counted ++ [.limit] ∧ Novel cfg ev n.store ∧ 50 < n.count
  | .queued, as => ∃ n : Intake, as = n.counted ++ [.dispatch] ∧ Dispatched cfg ev n
  | .running, as => ∃ n : Intake, as = n.actions ∧ Dispatched cfg ev n
  | .assessed ta, as => ∃ n text, as = n.actions ++ [.assess (some text)] ∧ Dispatched cfg ev n ∧
      parseAssessment text = .ok ta
  | .decided ta d, as => ∃ c : Course, as = c.actions cfg ev ∧ Assessed cfg ev c ∧ c.ta = ta ∧ c.decision cfg ev = d
  | .acting d, as => ∃ (c : Course) (record : Action), as = c.actions cfg ev ++ [record] ∧ Assessed cfg ev c ∧
      c.decision cfg ev = d ∧
      Recorded logged (fun now => decisionCall ev now c.ta.threatScore (c.decision cfg ev)) record
  | .isolating, as => ∃ (c : Course) (record : Action), as = c.actions cfg ev ++ [record, .kill ev.pid] ∧
      Assessed cfg ev c ∧ (c.decision cfg ev).tier = .hard ∧ (c.decision cfg ev).live = true ∧ ev.label = .connect ∧
      Recorded logged (fun now => decisionCall ev now c.ta.threatScore (c.decision cfg ev)) record
  | .leaving, as => Ended cfg ev logged as
  | .returned, as => Fate cfg ev logged as

theorem live_of_acts {d : Decision} (h : d.tier.acts = true) (hd : d.isDryRun = false) : d.live = true := by
  simp [Decision.live, h, hd]

/-- An action takes the histories of one stage to those of the next. -/
theorem past_step {s s' : Shared} {stage stage' : Stage} {a : Action} {as : List Action}
    (h : Past cfg ev s.auditLogger.isSome stage as) (ha : Acts cfg ev s stage a s' stage') :
    Past cfg ev s.auditLogger.isSome stage' (as ++ [a]) := by
  cases ha with
  | ignore own => cases h; exact .ignored own
  | lookup pid comm => cases h; exact ⟨⟨pid, comm⟩, _, rfl, rfl⟩
  | known =>
    obtain ⟨hf, store, rfl, hk⟩ := h
    exact .known store hf hk
  | learn mode =>
    obtain ⟨hf, store, rfl, hk⟩ := h
    exact .learned store hf mode hk
  | escalate mode =>
    obtain ⟨hf, store, rfl, hk⟩ := h
    exact ⟨store, rfl, ⟨hf, mode, hk⟩⟩
  | guard now now' count window since later counted =>
    obtain ⟨store, rfl, hn⟩ := h
    exact ⟨⟨store, now, now', count⟩, rfl, hn, rfl⟩
  | limit =>
    obtain ⟨n, rfl, hn, hover⟩ := h
    exact ⟨n, rfl, hn, of_decide_eq_true hover.symm⟩
  | dispatch client =>
    obtain ⟨n, rfl, hn, hover⟩ := h
    exact ⟨n, rfl, ⟨hn, Nat.le_of_not_lt (of_decide_eq_false hover.symm), client⟩⟩
  | noClient client =>
    obtain ⟨n, rfl, hn, hover⟩ := h
    exact .noClient n hn (Nat.le_of_not_lt (of_decide_eq_false hover.symm)) client
  | auditLimited now io =>
    obtain ⟨n, rfl, hn, hover⟩ := h
    exact .limited n _ hn hover (recorded_auditWith (limitedCall ev) now io s)
  | acquire free =>
    obtain ⟨n, rfl, hn⟩ := h
    exact ⟨n, rfl, hn⟩
  | reject answer bad =>
    obtain ⟨n, rfl, hn⟩ := h
    exact .failed n answer hn bad
  | accept text ta ok =>
    obtain ⟨n, rfl, hn⟩ := h
    exact ⟨n, text, rfl, hn, ok⟩
  | evaluate ta now d stamps since decides =>
    obtain ⟨n, text, rfl, hn, hok⟩ := h
    have hd : Course.decision cfg ev ⟨n, text, ta, now, s.stamps⟩ = d := by
      rw [Course.decision, Course.score, decides]
    exact ⟨⟨n, text, ta, now, s.stamps⟩, by rw [Course.actions, hd]; simp [Course.score], ⟨hn, hok⟩, rfl, hd⟩
  | auditDecision ta d now io =>
    obtain ⟨c, rfl, hc, rfl, rfl⟩ := h
    exact ⟨c, _, rfl, hc, rfl,
      recorded_auditWith (fun now => decisionCall ev now c.ta.threatScore (c.decision cfg ev)) now io s⟩
  | kill d hard live =>
    obtain ⟨c, record, rfl, hc, rfl, hr⟩ := h
    have hlive := live_of_acts (by rw [hard]; rfl) live
    by_cases hl : ev.label = .connect
    · rw [if_pos hl]
      exact ⟨c, record, by simp, hc, hard, hlive, hl, hr⟩
    · rw [if_neg hl]
      show Ended cfg ev _ _
      simpa [Course.effects, hlive, hard, hl] using Ended.evaluated c record hc hr
  | pause d soft live =>
    obtain ⟨c, record, rfl, hc, rfl, hr⟩ := h
    have hlive := live_of_acts (by rw [soft]; rfl) live
    show Ended cfg ev _ _
    simpa [Course.effects, hlive, soft] using Ended.evaluated c record hc hr
  | spare d dead =>
    obtain ⟨c, record, rfl, hc, rfl, hr⟩ := h
    show Ended cfg ev _ _
    simpa [Course.effects, dead] using Ended.evaluated c record hc hr
  | isolate =>
    obtain ⟨c, record, rfl, hc, hard, hlive, hl, hr⟩ := h
    show Ended cfg ev _ _
    simpa [Course.effects, hlive, hard, hl] using Ended.evaluated c record hc hr
  | release => exact .ended h

/-! ## Dispatched events -/

/-- The guard is not passed in these. -/
def Unguarded (as : List Action) : Prop := ∀ now now' count, Action.guard now now' count ∉ as

theorem unguarded_nil : Unguarded [] := fun _ _ _ => List.not_mem_nil

theorem Unguarded.cons {a : Action} {as : List Action} (ha : ∀ now now' count, Action.guard now now' count ≠ a)
    (has : Unguarded as) : Unguarded (a :: as) := by
  intro now now' count hmem
  rcases List.mem_cons.1 hmem with heq | hmem
  · exact ha now now' count heq
  · exact has now now' count hmem

theorem Unguarded.append {as bs : List Action} (ha : Unguarded as) (hb : Unguarded bs) : Unguarded (as ++ bs) := by
  intro now now' count hmem
  rcases List.mem_append.1 hmem with hmem | hmem
  · exact ha now now' count hmem
  · exact hb now now' count hmem

theorem Recorded.ne_guard {call : Instant → LogCall} {record : Action} (h : Recorded logged call record)
    (now now' : Int) (count : Nat) : Action.guard now now' count ≠ record := by
  rintro rfl
  unfold Recorded at h
  split at h
  · obtain ⟨now, err, h⟩ := h
    cases h
  · cases h

theorem unguarded_effects (c : Course) : Unguarded (c.effects cfg ev) := by
  unfold Course.effects
  split
  · split
    · split
      · exact .cons nofun (.cons nofun unguarded_nil)
      · exact .cons nofun unguarded_nil
    · exact .cons nofun unguarded_nil
  · exact .cons nofun unguarded_nil

/-- The event was counted once, and dispatched. -/
def DispatchedIn (cfg : Config) (ev : Event) (as : List Action) : Prop :=
  ∃ n rest, as = n.counted ++ .dispatch :: rest ∧ Dispatched cfg ev n ∧ Unguarded rest

theorem DispatchedIn.append {as bs : List Action} (h : DispatchedIn cfg ev as) (hb : Unguarded bs) :
    DispatchedIn cfg ev (as ++ bs) := by
  obtain ⟨n, rest, rfl, hn, hrest⟩ := h
  exact ⟨n, rest ++ bs, by rw [List.append_assoc, List.cons_append], hn, hrest.append hb⟩

theorem dispatchedIn_actions {n : Intake} (hn : Dispatched cfg ev n) : DispatchedIn cfg ev n.actions :=
  ⟨n, [.acquire], rfl, hn, .cons nofun unguarded_nil⟩

theorem dispatchedIn_course {c : Course} (hc : Assessed cfg ev c) : DispatchedIn cfg ev (c.actions cfg ev) :=
  (dispatchedIn_actions hc.toDispatched).append (.cons nofun (.cons nofun unguarded_nil))

theorem dispatchedIn_ended {as : List Action} (h : Ended cfg ev logged as) : DispatchedIn cfg ev as := by
  cases h with
  | failed n answer dispatched => exact (dispatchedIn_actions dispatched).append (.cons nofun unguarded_nil)
  | evaluated c record assessed recorded =>
    exact (dispatchedIn_course assessed).append (.cons recorded.ne_guard (unguarded_effects c))

theorem dispatchedIn_released {as : List Action} (h : Ended cfg ev logged as) :
    DispatchedIn cfg ev (as ++ [.release]) :=
  (dispatchedIn_ended h).append (.cons nofun unguarded_nil)

/-- When `handleEvent` is through with an event, it has met its fate or was dispatched. -/
theorem dispatchedIn_or_fate {stage : Stage} {as : List Action} (h : Past cfg ev logged stage as)
    (hout : stage.inHandler = false) : DispatchedIn cfg ev as ∨ Fate cfg ev logged as := by
  cases stage with
  | received | looked | escalated | guarded | limited => cases hout
  | queued =>
    obtain ⟨n, rfl, hn⟩ := h
    exact .inl ⟨n, [], rfl, hn, unguarded_nil⟩
  | running =>
    obtain ⟨n, rfl, hn⟩ := h
    exact .inl (dispatchedIn_actions hn)
  | assessed ta =>
    obtain ⟨n, text, rfl, hn, -⟩ := h
    exact .inl ((dispatchedIn_actions hn).append (.cons nofun unguarded_nil))
  | decided ta d =>
    obtain ⟨c, rfl, hc, -⟩ := h
    exact .inl (dispatchedIn_course hc)
  | acting d =>
    obtain ⟨c, record, rfl, hc, -, hr⟩ := h
    exact .inl ((dispatchedIn_course hc).append (.cons hr.ne_guard unguarded_nil))
  | isolating =>
    obtain ⟨c, record, rfl, hc, -, -, -, hr⟩ := h
    exact .inl ((dispatchedIn_course hc).append (.cons hr.ne_guard (.cons nofun unguarded_nil)))
  | leaving => exact .inl (dispatchedIn_ended h)
  | returned => exact .inr h

/-! ## Histories in a run -/

/-- The logger a run starts with tells whether there is one. -/
def Logged (logged : Bool) (s : Shared) : Prop := s.auditLogger.isSome = logged

theorem keeps_logged (cfg : Config) (logged : Bool) : Keeps (program cfg) (Logged logged) := by
  intro i s j a s' j' hs h
  exact (acts_auditLogger (acts_of_next h).2).trans hs

/-- What holds of a job when its record is received, and is kept by every action that a job of that event can
take, holds of the history of every job in a run. -/
theorem history_induction {I : Event → Stage → List Action → Prop} {s₀ : Shared} {w : World}
    (init : ∀ ev, I ev .received [])
    (step : ∀ ev s s' stage stage' a as, Logged s₀.auditLogger.isSome s → I ev stage as →
      Acts cfg ev s stage a s' stage' → I ev stage' (as ++ [a]))
    (h : Reachable (program cfg) s₀ w) {k : Nat} {j : Job} (hj : w.tasks[k]? = some j) :
    I j.event j.stage (history k w.trace) := by
  obtain ⟨ts, j₀, ⟨h₀, -⟩, hs⟩ := script_of_reachable (keeps_logged cfg _) rfl h hj
  refine script_induction (I := fun j as => I j.event j.stage as) ?_ ?_ hs
  · rw [h₀]
    exact init _
  · intro i s j as a s' j' ih hlog hnext
    obtain ⟨hrec, hacts⟩ := acts_of_next hnext
    rw [show j'.event = j.event from congrArg KernelRecord.event hrec]
    exact step _ _ _ _ _ _ _ hlog ih hacts

/-- In every run, the history of every job is one that leads to its stage. -/
theorem past_of_reachable {s₀ : Shared} {w : World} (h : Reachable (program cfg) s₀ w) {k : Nat} {j : Job}
    (hj : w.tasks[k]? = some j) :
    Past cfg j.event s₀.auditLogger.isSome j.stage (history k w.trace) := by
  refine history_induction (I := fun ev stage as => Past cfg ev s₀.auditLogger.isSome stage as) (fun _ => rfl) ?_ h hj
  intro ev s s' stage stage' a as hlog hpast hacts
  rw [← hlog] at hpast ⊢
  exact past_step hpast hacts

/-- What is true of every action after a history of its stage is true of the actions of a run. -/
theorem action_of_reachable {R : Event → List Action → Action → Prop} {s₀ : Shared} {w : World}
    (hR : ∀ ev s s' stage stage' a as, Past cfg ev s₀.auditLogger.isSome stage as →
      Acts cfg ev s stage a s' stage' → R ev as a) (h : Reachable (program cfg) s₀ w)
    {pre post : List (Nat × Action)} {k : Nat} {a : Action} (htr : w.trace = pre ++ (k, a) :: post) :
    ∃ j, w.tasks[k]? = some j ∧ R j.event (history k pre) a := by
  have hlt : k < w.tasks.length := lt_of_mem_trace h (a := a) (by rw [htr]; simp)
  obtain ⟨ts, j₀, ⟨hstage, -⟩, hs⟩ := script_of_reachable (keeps_logged cfg _) rfl h (List.getElem?_eq_getElem hlt)
  obtain ⟨⟨hev, -⟩, hall⟩ := script_actions
    (I := fun j as => j.event = j₀.event ∧ Past cfg j₀.event s₀.auditLogger.isSome j.stage as) (R := R j₀.event)
    ⟨rfl, by rw [hstage]; rfl⟩
    (by
      rintro i s j as a s' j' ⟨hev, hpast⟩ hlog hnext
      obtain ⟨hrec, hacts⟩ := acts_of_next hnext
      rw [hev] at hacts
      refine ⟨⟨(congrArg KernelRecord.event hrec).trans hev, ?_⟩, hR _ _ _ _ _ _ _ hpast hacts⟩
      rw [← hlog] at hpast ⊢
      exact past_step hpast hacts) hs
  refine ⟨_, List.getElem?_eq_getElem hlt, hev ▸ hall (history k pre) a (history k post) ?_⟩
  rw [htr, ← List.singleton_append, history_append, history_append, history_singleton_self]
  rfl

end WatchBPF.Agent
