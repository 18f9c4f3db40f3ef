/-
`handleEvent` and `processLLM` as tasks. A kernel event becomes a job of its reader; past the
baseline filter and the escalation guard it is dispatched, waits for one of the slots, is assessed,
evaluated, audited and acted upon. Every access to what the goroutines share is an action of its
own, so the jobs interleave as the locks allow.
-/
import WatchBPF.Agent.Events
import WatchBPF.Audit.Logger
import WatchBPF.LLM.Assessment
import WatchBPF.Lib.Tasks
import WatchBPF.Policy.Engine

namespace WatchBPF.Agent

open WatchBPF.Audit WatchBPF.Baseline WatchBPF.LLM WatchBPF.Policy

/-! ## The shared state -/

/-- What `main` takes from its flags and the config file. -/
structure Config where
  mode : Bytes
  selfPID : UInt32
  policy : Policy.Config

/-- `llmClient != nil`: `main` sets a client in filter mode only. -/
def Config.llmClient (cfg : Config) : Bool := cfg.mode == lit "filter"

/-- Processes whose events are never looked at. -/
def excludedComms : List Bytes := [lit "ollama", lit "llama-server", lit "watchbpf-agent"]

/-- The variables that goroutines share, and the monotonic clock in nanoseconds. -/
structure Shared where
  clock : Int
  store : Store
  escalationCount : Nat
  escalationWindow : Int
  /-- of the policy engine -/
  stamps : Timestamps
  auditLogger : Option Logger
  /-- taken slots of `llmSemaphore` -/
  slots : Nat

/-- `main` up to the read loops; `none` where it ends with an error. -/
def start (cfg : Config) (baseline : Option Bytes) (auditLogger : Option Logger) (clock : Int) : Option Shared :=
  if cfg.mode ≠ lit "learn" ∧ cfg.mode ≠ lit "filter" then none
  else some { clock, store := newStore baseline, escalationCount := 0, escalationWindow := clock, stamps := [],
              auditLogger, slots := 0 }

/-- If it comes to the read loops, they start from this. -/
theorem eq_of_start {cfg : Config} {baseline : Option Bytes} {logger : Option Logger} {clock : Int} {s : Shared}
    (h : start cfg baseline logger clock = some s) :
    s = { clock, store := newStore baseline, escalationCount := 0, escalationWindow := clock, stamps := [],
          auditLogger := logger, slots := 0 } := by
  unfold start at h
  split at h
  · cases h
  · cases h
    rfl

theorem auditLogger_of_start {cfg : Config} {baseline : Option Bytes} {logger : Option Logger} {clock : Int}
    {s : Shared} (h : start cfg baseline logger clock = some s) : s.auditLogger = logger := by
  rw [eq_of_start h]

/-- The critical section of `escalationMu`; `time.Since` reads the clock at `now`, `time.Now` at `now'`. -/
def countEscalation (now now' : Int) (count : Nat) (window : Int) : Nat × Int :=
  let (count, window) := if now - window > 60 * 10 ^ 9 then (0, now') else (count, window)
  (count + 1, window)

/-- The audit call for an event that `handleEvent` does not dispatch. -/
def limitedCall (ev : Event) (now : Instant) : LogCall :=
  { now, eventType := ev.label.text, comm := ev.comm, detail := ev.detail, pid := ev.pid, threatScore := -1,
    tier := lit "rate_limited", reason := lit "escalation storm — LLM call skipped", actionTaken := [] }

/-- The audit call of `processLLM`. -/
def decisionCall (ev : Event) (now : Instant) (score : Int64) (d : Decision) : LogCall :=
  { now, eventType := ev.label.text, comm := ev.comm, detail := ev.detail, pid := ev.pid, threatScore := score,
    tier := d.tier.text, reason := d.reason, actionTaken := [] }

/-- `strings.Split(detail, ":")[0]` -/
def isolatedIP (detail : Bytes) : Bytes := detail.takeWhile (· ≠ 0x3A)

/-! ## Jobs -/

/-- Where the handling of an event stands. -/
inductive Stage
  | received
  | looked (known : Bool)
  | escalated
  | guarded (overLimit : Bool)
  | limited
  /-- dispatched, without a slot -/
  | queued
  /-- waiting for the LLM -/
  | running
  | assessed (ta : ThreatAssessment)
  | decided (ta : ThreatAssessment) (d : Decision)
  | acting (d : Decision)
  | isolating
  /-- `processLLM` has returned, its slot is still taken -/
  | leaving
  | returned
  deriving DecidableEq

/-- The event's reader is inside `handleEvent`. -/
def Stage.inHandler : Stage → Bool
  | received | looked _ | escalated | guarded _ | limited => true
  | _ => false

/-- What a job does to the outside or the shared state, with what it saw there. -/
inductive Action
  | ignore
  | lookup (store : Store) (known : Bool)
  | learn
  | escalate
  | guard (now now' : Int) (count : Nat)
  | limit
  | dispatch
  | acquire
  /-- `Assess` returns: an error of the backend, or the text it answered with -/
  | assess (answer : Option Bytes)
  | evaluate (now : Int) (score : Int) (stamps : Timestamps) (d : Decision)
  | audit (call : LogCall) (err : Option LogError)
  | kill (pid : UInt32)
  | pause (pid : UInt32)
  | isolate (ip : Bytes)
  | release
  | pass

/-- An audit call that returned an error. -/
def Action.failed : Action → Bool
  | audit _ err => err.isSome
  | _ => false

/-- What an action is given from outside. -/
structure Input where
  /-- time since the clock was last read -/
  elapsed : Nat := 0
  elapsed' : Nat := 0
  answer : Option Bytes := none
  instant : Instant := ⟨1970, 1, 1, 0, 0, 0⟩
  io : WriteResult := .ok

/-- `if auditLogger != nil { auditLogger.Log(…) }` -/
def auditWith (call : LogCall) (io : WriteResult) (s : Shared) : Action × Shared :=
  match s.auditLogger with
  | none => (.pass, s)
  | some l => (.audit call (log call io l).1, { s with auditLogger := some (log call io l).2 })

/-- The next action in the handling of an event; `none` when it is blocked or done. -/
def advance (cfg : Config) (ev : Event) (i : Input) (s : Shared) : Stage → Option (Action × Shared × Stage)
  | .received =>
    if ev.pid = cfg.selfPID ∨ ev.comm ∈ excludedComms then some (.ignore, s, .returned)
    else
      let known := s.store.isKnown ev.combination
      some (.lookup s.store known, s, .looked known)
  | .looked known =>
    if cfg.mode = lit "learn" then
      if known then some (.pass, s, .returned)
      else some (.learn, { s with store := s.store.learn ev.combination }, .returned)
    else if known then some (.pass, s, .returned)
    else some (.escalate, s, .escalated)
  | .escalated =>
    let now := s.clock + i.elapsed
    let now' := now + i.elapsed'
    let (count, window) := countEscalation now now' s.escalationCount s.escalationWindow
    some (.guard now now' count, { s with clock := now', escalationCount := count, escalationWindow := window },
      .guarded (decide (50 < count)))
  | .guarded overLimit =>
    if overLimit then some (.limit, s, .limited)
    else if cfg.llmClient then some (.dispatch, s, .queued)
    else some (.pass, s, .returned)
  | .limited =>
    let (a, s) := auditWith (limitedCall ev i.instant) i.io s
    some (a, s, .returned)
  | .queued => if s.slots < 3 then some (.acquire, { s with slots := s.slots + 1 }, .running) else none
  | .running =>
    match i.answer with
    | none => some (.assess none, s, .leaving)
    | some text =>
      match parseAssessment text with
      | .error _ => some (.assess (some text), s, .leaving)
      | .ok ta => some (.assess (some text), s, .assessed ta)
  | .assessed ta =>
    let now := s.clock + i.elapsed
    let score := ta.threatScore.toInt
    let (d, stamps) := evaluate cfg.policy now ev.comm score s.stamps
    some (.evaluate now score s.stamps d, { s with clock := now, stamps }, .decided ta d)
  | .decided ta d =>
    let (a, s) := auditWith (decisionCall ev i.instant ta.threatScore d) i.io s
    some (a, s, .acting d)
  | .acting d =>
    match d.tier with
    | .hard =>
      if d.isDryRun then some (.pass, s, .leaving)
      else some (.kill ev.pid, s, if ev.label = .connect then .isolating else .leaving)
    | .soft => if d.isDryRun then some (.pass, s, .leaving) else some (.pause ev.pid, s, .leaving)
    | _ => some (.pass, s, .leaving)
  | .isolating => some (.isolate (isolatedIP ev.detail), s, .leaving)
  | .leaving => some (.release, { s with slots := s.slots - 1 }, .returned)
  | .returned => none

/-- A record on its way through the agent. -/
structure Job where
  record : KernelRecord
  stage : Stage := .received
  deriving DecidableEq

def Job.event (j : Job) : Event := j.record.event

/-- A reader takes a record when it is done with the one before; the jobs go on as they can. -/
def program (cfg : Config) : Tasks.Program Shared Job Action Input where
  admits js j := j.stage = .received ∧ ∀ j' ∈ js, j'.event.label = j.event.label → j'.stage.inHandler = false
  next i s j := (advance cfg j.event i s j.stage).map fun (a, s, stage) => (a, s, { j with stage })

instance (cfg : Config) (js : List Job) (j : Job) : Decidable ((program cfg).admits js j) :=
  inferInstanceAs (Decidable (_ ∧ _))

abbrev World := Tasks.World Shared Job Action

/-! ## What an action can be -/

/-- The actions of a job, each with what must hold for it. -/
inductive Acts (cfg : Config) (ev : Event) (s : Shared) : Stage → Action → Shared → Stage → Prop
  | ignore (own : ev.pid = cfg.selfPID ∨ ev.comm ∈ excludedComms) : Acts cfg ev s .received .ignore s .returned
  | lookup (pid : ev.pid ≠ cfg.selfPID) (comm : ev.comm ∉ excludedComms) :
      Acts cfg ev s .received (.lookup s.store (s.store.isKnown ev.combination)) s
        (.looked (s.store.isKnown ev.combination))
  | known : Acts cfg ev s (.looked true) .pass s .returned
  | learn (mode : cfg.mode = lit "learn") :
      Acts cfg ev s (.looked false) .learn { s with store := s.store.learn ev.combination } .returned
  | escalate (mode : cfg.mode ≠ lit "learn") : Acts cfg ev s (.looked false) .escalate s .escalated
  | guard (now now' : Int) (count : Nat) (window : Int) (since : s.clock ≤ now) (later : now ≤ now')
      (counted : countEscalation now now' s.escalationCount s.escalationWindow = (count, window)) :
      Acts cfg ev s .escalated (.guard now now' count)
        { s with clock := now', escalationCount := count, escalationWindow := window }
        (.guarded (decide (50 < count)))
  | limit : Acts cfg ev s (.guarded true) .limit s .limited
  | dispatch (client : cfg.llmClient = true) : Acts cfg ev s (.guarded false) .dispatch s .queued
  | noClient (client : cfg.llmClient = false) : Acts cfg ev s (.guarded false) .pass s .returned
  | auditLimited (now : Instant) (io : WriteResult) :
      Acts cfg ev s .limited (auditWith (limitedCall ev now) io s).1 (auditWith (limitedCall ev now) io s).2 .returned
  | acquire (free : s.slots < 3) : Acts cfg ev s .queued .acquire { s with slots := s.slots + 1 } .running
  | reject (answer : Option Bytes) (bad : ∀ text ∈ answer, ∃ e, parseAssessment text = .error e) :
      Acts cfg ev s .running (.assess answer) s .leaving
  | accept (text : Bytes) (ta : ThreatAssessment) (ok : parseAssessment text = .ok ta) :
      Acts cfg ev s .running (.assess (some text)) s (.assessed ta)
  | evaluate (ta : ThreatAssessment) (now : Int) (d : Decision) (stamps : Timestamps) (since : s.clock ≤ now)
      (decides : Policy.evaluate cfg.policy now ev.comm ta.threatScore.toInt s.stamps = (d, stamps)) :
      Acts cfg ev s (.assessed ta) (.evaluate now ta.threatScore.toInt s.stamps d)
        { s with clock := now, stamps } (.decided ta d)
  | auditDecision (ta : ThreatAssessment) (d : Decision) (now : Instant) (io : WriteResult) :
      Acts cfg ev s (.decided ta d) (auditWith (decisionCall ev now ta.threatScore d) io s).1
        (auditWith (decisionCall ev now ta.threatScore d) io s).2 (.acting d)
  | kill (d : Decision) (hard : d.tier = .hard) (live : d.isDryRun = false) :
      Acts cfg ev s (.acting d) (.kill ev.pid) s (if ev.label = .connect then .isolating else .leaving)
  | pause (d : Decision) (soft : d.tier = .soft) (live : d.isDryRun = false) :
      Acts cfg ev s (.acting d) (.pause ev.pid) s .leaving
  | spare (d : Decision) (dead : d.live = false) : Acts cfg ev s (.acting d) .pass s .leaving
  | isolate : Acts cfg ev s .isolating (.isolate (isolatedIP ev.detail)) s .leaving
  | release : Acts cfg ev s .leaving .release { s with slots := s.slots - 1 } .returned

theorem acts_of_advance {cfg : Config} {ev : Event} {i : Input} {s s' : Shared} {stage stage' : Stage} {a : Action}
    (h : advance cfg ev i s stage = some (a, s', stage')) : Acts cfg ev s stage a s' stage' := by
  cases stage with
  | received =>
    simp only [advance] at h
    split at h
    · cases h; exact .ignore ‹_›
    · rename_i hown
      cases h
      exact .lookup (fun hp => hown (.inl hp)) fun hc => hown (.inr hc)
  | looked known =>
    simp only [advance] at h
    cases known with
    | true => split at h <;> (cases h; exact .known)
    | false =>
      split at h
      · cases h; exact .learn ‹_›
      · cases h; exact .escalate ‹_›
  | escalated =>
    cases h
    exact .guard _ _ _ _ (by omega) (by omega) rfl
  | guarded overLimit =>
    simp only [advance] at h
    cases overLimit with
    | true => cases h; exact .limit
    | false =>
      simp only [Bool.false_eq_true, if_false] at h
      split at h
      · cases h; exact .dispatch ‹_›
      · cases h; exact .noClient (Bool.not_eq_true _ ▸ ‹_›)
  | limited => cases h; exact .auditLimited _ _
  | queued =>
    simp only [advance] at h
    split at h
    · cases h; exact .acquire ‹_›
    · cases h
  | running =>
    simp only [advance] at h
    split at h
    · cases h; exact .reject none nofun
    · split at h
      · cases h
        exact .reject _ fun t ht => by cases ht; exact ⟨_, ‹_›⟩
      · cases h; exact .accept _ _ ‹_›
  | assessed ta =>
    cases h
    exact .evaluate ta _ _ _ (by omega) rfl
  | decided ta d => cases h; exact .auditDecision ta d _ _
  | acting d =>
    simp only [advance] at h
    split at h
    · split at h
      · cases h; exact .spare d (by simp [Decision.live, *])
      · cases h; exact .kill d ‹_› (Bool.not_eq_true _ ▸ ‹_›)
    · split at h
      · cases h; exact .spare d (by simp [Decision.live, *])
      · cases h; exact .pause d ‹_› (Bool.not_eq_true _ ▸ ‹_›)
    · cases h
      refine .spare d ?_
      cases ht : d.tier <;> simp_all [Decision.live, Tier.acts]
  | isolating => cases h; exact .isolate
  | leaving => cases h; exact .release
  | returned => cases h

theorem acts_of_next {cfg : Config} {i : Input} {s s' : Shared} {j j' : Job} {a : Action}
    (h : (program cfg).next i s j = some (a, s', j')) :
    j'.record = j.record ∧ Acts cfg j.event s j.stage a s' j'.stage := by
  obtain ⟨⟨a, s', stage⟩, hadv, heq⟩ := Option.map_eq_some_iff.1 h
  cases heq
  exact ⟨rfl, acts_of_advance hadv⟩

/-- Without a logger nothing happens; with one it is called, and nothing else changes. -/
theorem auditWith_cases (call : LogCall) (io : WriteResult) (s : Shared) :
    (s.auditLogger = none ∧ auditWith call io s = (.pass, s)) ∨
    ∃ l, s.auditLogger = some l ∧ auditWith call io s =
      (.audit call (log call io l).1, { s with auditLogger := some (log call io l).2 }) := by
  unfold auditWith
  cases s.auditLogger with
  | none => exact .inl ⟨rfl, rfl⟩
  | some l => exact .inr ⟨l, rfl, rfl⟩

/-- The audit logger stays, or stays missing. -/
theorem acts_auditLogger {cfg : Config} {ev : Event} {s s' : Shared} {stage stage' : Stage} {a : Action}
    (h : Acts cfg ev s stage a s' stage') : s'.auditLogger.isSome = s.auditLogger.isSome := by
  have haudit : ∀ call io, (auditWith call io s).2.auditLogger.isSome = s.auditLogger.isSome := by
    intro call io
    rcases auditWith_cases call io s with ⟨-, h⟩ | ⟨l, hl, h⟩
    · rw [h]
    · rw [h, hl]
      rfl
  cases h with
  | auditLimited | auditDecision => exact haudit _ _
  | _ => rfl

end WatchBPF.Agent
