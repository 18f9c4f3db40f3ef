/-
The books of the agent. Every escalated event is in exactly one place: limited, answered, failed, on its
way to the LLM or still in its handler. It is audited if it was limited or evaluated, and holds one of the
three slots from the call of `processLLM` until after its return.
-/
import WatchBPF.Agent.Enforce
import WatchBPF.Lib.Accounts

namespace WatchBPF.Agent

open WatchBPF.Audit WatchBPF.LLM WatchBPF.Tasks

variable {cfg : Config} {ev : Event}

/-! ## Kinds of actions, classes of stages -/

namespace Action

/-- `EventsEscalated.Inc()` -/
def escalates : Action → Bool
  | escalate => true
  | _ => false

/-- `EventsRateLimited.Inc()` -/
def limits : Action → Bool
  | limit => true
  | _ => false

def assesses : Action → Bool
  | assess _ => true
  | _ => false

/-- `LLMCalls` with `"success"` -/
def succeeds : Action → Bool
  | assess (some text) => (parseAssessment text).isOk
  | _ => false

/-- `LLMCalls` with `"error"` -/
def errs : Action → Bool
  | assess none => true
  | assess (some text) => !(parseAssessment text).isOk
  | _ => false

def evaluates : Action → Bool
  | evaluate .. => true
  | _ => false

/-- A call of `auditLogger.Log`. -/
def audits : Action → Bool
  | audit .. => true
  | _ => false

def acquires : Action → Bool
  | acquire => true
  | _ => false

def releases : Action → Bool
  | release => true
  | _ => false

theorem assesses_split (a : Action) : a.assesses.toNat = a.succeeds.toNat + a.errs.toNat := by
  cases a with
  | assess answer =>
    cases answer with
    | none => rfl
    | some text => cases h : (parseAssessment text).isOk <;> simp [assesses, succeeds, errs, h]
  | _ => rfl

theorem answers_split (q : Nat × Action) :
    (q.2.limits || q.2.assesses).toNat = q.2.limits.toNat + q.2.assesses.toNat := by
  cases q.2 <;> rfl

theorem reports_split (a : Action) : (a.limits || a.evaluates).toNat = a.limits.toNat + a.evaluates.toNat := by
  cases a <;> rfl

theorem settles_split (a : Action) :
    (a.limits || (a.evaluates || a.errs)).toNat = a.limits.toNat + (a.evaluates || a.errs).toNat := by
  cases a with
  | assess => exact (Nat.zero_add _).symm
  | _ => rfl

theorem decides_split (a : Action) : (a.evaluates || a.errs).toNat = a.evaluates.toNat + a.errs.toNat := by
  cases a with
  | assess => exact (Nat.zero_add _).symm
  | _ => rfl

end Action

namespace Stage

/-- Counted as escalated, and still inside `handleEvent`. -/
def escalating : Stage → Bool
  | escalated | guarded _ => true
  | _ => false

/-- Dispatched, and the LLM call has not returned. -/
def awaiting : Stage → Bool
  | queued | running => true
  | _ => false

def inProcessLLM : Stage → Bool
  | running | assessed _ | decided _ _ | acting _ | isolating => true
  | _ => false

def holdsSlot : Stage → Bool
  | leaving => true
  | stage => stage.inProcessLLM

theorem holdsSlot_of_inProcessLLM {stage : Stage} (h : stage.inProcessLLM = true) : stage.holdsSlot = true := by
  cases stage with
  | leaving => rfl
  | _ => exact h

/-- The next thing to do is the audit call. -/
def auditDue : Stage → Bool
  | limited | decided _ _ => true
  | _ => false

theorem escalating_split (stage : Stage) :
    (stage.escalating || stage.awaiting).toNat = stage.escalating.toNat + stage.awaiting.toNat := by
  cases stage <;> rfl

/-- The outcome of the escalation is still open. -/
def undecided : Stage → Bool
  | received | looked _ | escalated | guarded _ | queued | running | assessed _ => true
  | _ => false

end Stage

/-! ## The books of one action -/

@[simp] theorem slots_auditWith (call : LogCall) (io : WriteResult) (s : Shared) :
    (auditWith call io s).2.slots = s.slots := by
  rcases auditWith_cases call io s with ⟨-, h⟩ | ⟨l, -, h⟩ <;> rw [h]

theorem accounts_of_acts {p : Stage → Bool} {enters leaves : Action → Bool} {J : Shared → Prop}
    (h₀ : p .received = false)
    (step : ∀ ev s s' stage stage' a, J s → Acts cfg ev s stage a s' stage' →
      (p stage').toNat + (leaves a).toNat = (p stage).toNat + (enters a).toNat) :
    Accounts (program cfg) J (fun j => p j.stage) enters leaves where
  init js j h := by rw [show j.stage = _ from h.1, h₀]
  step i s j a s' j' hs h := step _ _ _ _ _ _ hs (acts_of_next h).2

theorem accounts_escalated (hc : cfg.llmClient = true) :
    Accounts (program cfg) (fun _ => True) (fun j => j.stage.escalating || j.stage.awaiting) Action.escalates
      (fun a => a.limits || a.assesses) := by
  refine accounts_of_acts (p := fun stage => stage.escalating || stage.awaiting) rfl
    fun ev s s' stage stage' a _ ha => ?_
  cases ha with
  | auditLimited | auditDecision =>
    rcases auditWith_cases _ _ _ with ⟨-, h⟩ | ⟨l, -, h⟩ <;> (rw [h]; rfl)
  | noClient client => rw [hc] at client; cases client
  | kill => split <;> rfl
  | _ => rfl

theorem accounts_audits : Accounts (program cfg) (Logged true) (fun j => j.stage.auditDue)
    (fun a => a.limits || a.evaluates) Action.audits := by
  refine accounts_of_acts (p := Stage.auditDue) rfl fun ev s s' stage stage' a hs ha => ?_
  cases ha with
  | auditLimited | auditDecision =>
    rcases auditWith_cases _ _ s with ⟨hl, -⟩ | ⟨l, -, h⟩
    · rw [Logged, hl] at hs; cases hs
    · rw [h]; rfl
  | kill => split <;> rfl
  | _ => rfl

theorem accounts_slots : Accounts (program cfg) (fun _ => True) (fun j => j.stage.holdsSlot) Action.acquires
    Action.releases := by
  refine accounts_of_acts (p := Stage.holdsSlot) rfl fun ev s s' stage stage' a _ ha => ?_
  cases ha with
  | auditLimited | auditDecision =>
    rcases auditWith_cases _ _ _ with ⟨-, h⟩ | ⟨l, -, h⟩ <;> (rw [h]; rfl)
  | kill => split <;> rfl
  | _ => rfl

theorem counts_slots : Counts (program cfg) Shared.slots fun j => j.stage.holdsSlot where
  init js j h := by rw [show j.stage = _ from h.1]; rfl
  step i s j a s' j' h hpos := by
    obtain ⟨-, ha⟩ := acts_of_next h
    revert ha hpos
    generalize j.stage = stage
    generalize j'.stage = stage'
    intro hpos ha
    cases ha with
    | auditLimited | auditDecision => rw [slots_auditWith]; rfl
    | kill => split <;> rfl
    | release =>
      -- the slot of this job is counted, so that nothing is subtracted from zero
      have hpos := hpos rfl
      show s.slots - 1 + 1 = s.slots + 0
      omega
    | _ => rfl

theorem keeps_three : Keeps (program cfg) fun s => s.slots ≤ 3 := by
  intro i s j a s' j' hs h
  obtain ⟨-, ha⟩ := acts_of_next h
  revert ha
  generalize j.stage = stage
  generalize j'.stage = stage'
  intro ha
  cases ha with
  | auditLimited | auditDecision => rwa [slots_auditWith]
  | acquire free => exact free
  | release => exact (Nat.sub_le _ _).trans hs
  | _ => exact hs

theorem keeps_true : Keeps (program cfg) fun _ => True := fun _ _ _ _ _ _ _ _ => trivial

/-- An event is limited, evaluated or failed once at most. -/
theorem outcome_of_acts {s s' : Shared} {stage stage' : Stage} {a : Action} (ha : Acts cfg ev s stage a s' stage') :
    stage'.undecided.toNat + (a.limits || (a.evaluates || a.errs)).toNat ≤ stage.undecided.toNat := by
  cases ha with
  | auditLimited | auditDecision =>
    rcases auditWith_cases _ _ _ with ⟨-, h⟩ | ⟨l, -, h⟩ <;> (rw [h]; exact Nat.zero_le _)
  | kill => split <;> exact Nat.zero_le _
  | accept text ta ok =>
    have hok : (parseAssessment text).isOk = true := by rw [ok]; rfl
    simp [Action.limits, Action.evaluates, Action.errs, Stage.undecided, hok]
  | reject answer =>
    show 0 + (Action.assess answer).errs.toNat ≤ 1
    rw [Nat.zero_add]
    exact Bool.toNat_le _
  | _ => exact Nat.le_of_ble_eq_true rfl

theorem outcome_of_reachable {s₀ : Shared} {w : World} (h : Reachable (program cfg) s₀ w) {k : Nat} {j : Job}
    (hj : w.tasks[k]? = some j) :
    (history k w.trace).countP Action.limits + (history k w.trace).countP Action.evaluates +
      (history k w.trace).countP Action.errs ≤ 1 := by
  obtain ⟨ts, j₀, ⟨h₀, -⟩, hs⟩ := script_of_reachable keeps_true trivial h hj
  have hle := countP_of_script (fun a => a.limits || (a.evaluates || a.errs)) (fun j => j.stage.undecided.toNat)
    (fun _ _ _ _ _ _ _ hnext => outcome_of_acts (acts_of_next hnext).2) hs
  rw [countP_split Action.settles_split, countP_split Action.decides_split, h₀] at hle
  have hone : Stage.received.undecided.toNat = 1 := rfl
  omega

/-! ## The books of a run -/

/-- What the metrics, the audit calls and the slots of a run amount to. -/
structure Ledger (cfg : Config) (logged : Bool) (w : World) : Prop where
  /-- Every counted escalation is in one place. -/
  escalations : w.trace.countP (fun q => q.2.escalates) =
    w.trace.countP (fun q => q.2.limits) + w.trace.countP (fun q => q.2.succeeds) +
      w.trace.countP (fun q => q.2.errs) + w.tasks.countP (fun j => j.stage.awaiting) +
      w.tasks.countP fun j => j.stage.escalating
  /-- No event is limited, evaluated or failed twice, or two of these. -/
  outcome : ∀ k j, w.tasks[k]? = some j → (history k w.trace).countP Action.limits +
    (history k w.trace).countP Action.evaluates + (history k w.trace).countP Action.errs ≤ 1
  /-- A limited event and an evaluated one have an audit call each, or are about to make it. -/
  audits : logged = true → ∀ k j, w.tasks[k]? = some j →
    (history k w.trace).countP Action.audits + j.stage.auditDue.toNat =
      (history k w.trace).countP Action.limits + (history k w.trace).countP Action.evaluates
  silent : logged = true → ∀ k j, w.tasks[k]? = some j → 0 < (history k w.trace).countP Action.errs →
    (history k w.trace).countP Action.audits = 0
  /-- A slot is taken for each assessment inside `processLLM` or about to give it back, -/
  slots : w.shared.slots = w.tasks.countP fun j => j.stage.holdsSlot
  three : w.shared.slots ≤ 3 ∧ w.tasks.countP (fun j => j.stage.inProcessLLM) ≤ 3
  /-- by the assessment itself, -/
  own : ∀ k j, w.tasks[k]? = some j → j.stage.holdsSlot.toNat + (history k w.trace).countP Action.releases =
    (history k w.trace).countP Action.acquires
  /-- whatever `processLLM` ends with, -/
  ends : ∀ (k : Nat) j i a s j', w.tasks[k]? = some j → j.stage.inProcessLLM = true →
    (program cfg).next i w.shared j = some (a, s, j') → j'.stage.inProcessLLM = true ∨ j'.stage = .leaving
  /-- and giving it back is not blocked. -/
  givesBack : ∀ (k : Nat) j i, w.tasks[k]? = some j → j.stage = .leaving →
    (program cfg).next i w.shared j =
      some (.release, { w.shared with slots := w.shared.slots - 1 }, { j with stage := .returned })

theorem ends_of_acts {s s' : Shared} {stage stage' : Stage} {a : Action} (ha : Acts cfg ev s stage a s' stage')
    (h : stage.inProcessLLM = true) : stage'.inProcessLLM = true ∨ stage' = .leaving := by
  cases ha with
  | accept | evaluate | auditDecision => exact .inl rfl
  | kill =>
    split
    · exact .inl rfl
    · exact .inr rfl
  | reject | pause | spare | isolate => exact .inr rfl
  | _ => cases h

/-- In filter mode the books of every run balance. -/
theorem ledger_of_reachable {baseline : Option Bytes} {logger : Option Logger} {clock : Int} {s₀ : Shared} {w : World}
    (hm : cfg.mode = lit "filter") (h₀ : start cfg baseline logger clock = some s₀)
    (h : Reachable (program cfg) s₀ w) : Ledger cfg logger.isSome w := by
  have hc : cfg.llmClient = true := beq_iff_eq.2 hm
  have hslots₀ : s₀.slots = 0 := by rw [eq_of_start h₀]
  have hlogger : s₀.auditLogger = logger := auditLogger_of_start h₀
  have hescalations := (accounts_escalated hc).reachable keeps_true trivial h
  have hslots := counts_slots.reachable hslots₀ h
  have hthree : w.shared.slots ≤ 3 := shared_of_reachable keeps_three (by rw [hslots₀]; decide) h
  have hinside : w.tasks.countP (fun j => j.stage.inProcessLLM) ≤ w.tasks.countP fun j => j.stage.holdsSlot :=
    List.countP_mono_left fun j _ hin => Stage.holdsSlot_of_inProcessLLM hin
  have haudits : logger.isSome = true → ∀ k j, w.tasks[k]? = some j →
      (history k w.trace).countP Action.audits + j.stage.auditDue.toNat =
        (history k w.trace).countP Action.limits + (history k w.trace).countP Action.evaluates := by
    intro hl k j hj
    have hbooks := accounts_audits.history_of_reachable (keeps_logged cfg true) (by rw [Logged, hlogger, hl]) h hj
    rw [countP_split Action.reports_split] at hbooks
    omega
  constructor
  case escalations =>
    rw [countP_split fun j : Job => j.stage.escalating_split, countP_split Action.answers_split,
      countP_split fun q : Nat × Action => q.2.assesses_split] at hescalations
    omega
  case outcome => exact fun k j hj => outcome_of_reachable h hj
  case audits => exact haudits
  case silent =>
    intro hl k j hj herr
    have hone := outcome_of_reachable h hj
    have hbooks := haudits hl k j hj
    omega
  case slots => exact hslots
  case three => exact ⟨hthree, by omega⟩
  case own => exact fun k j hj => accounts_slots.history_of_reachable keeps_true trivial h hj
  case ends => exact fun k j i a s j' _ hin hnext => ends_of_acts (acts_of_next hnext).2 hin
  case givesBack =>
    intro k j i _ hl
    show (advance cfg j.event i w.shared j.stage).map _ = _
    rw [hl]
    rfl

theorem ledger_of_reachable_beacon : ∃ w : World, w.tasks.map Job.record = [beacon] ∧
    w.trace.countP (fun q => q.2.escalates) = 1 ∧ Ledger liveConfig true w := by
  have hrun : ((start liveConfig none (some (newLogger none)) 0).any fun s =>
      (exec (program liveConfig) { shared := s } beaconMoves).any fun w =>
        decide (w.tasks.map Job.record = [beacon]) && w.trace.countP (fun q => q.2.escalates) == 1) = true := by
    decide +kernel
  obtain ⟨s₀, w, h₀, h, hw⟩ := reachable_of_exec hrun
  rw [Bool.and_eq_true, decide_eq_true_iff, beq_iff_eq] at hw
  exact ⟨w, hw.1, hw.2, ledger_of_reachable rfl h₀ h⟩

end WatchBPF.Agent
