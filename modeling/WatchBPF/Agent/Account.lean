/-
What the audit file tells of what the agent did. While no record is torn, the lines that a run adds to the file read
back as the records of its calls; and of whomever they are about, they count as many kills, pauses and isolations as
there have been, up to those that a job is just coming to and those whose record could not be written.
-/
import WatchBPF.Agent.Ledger
import WatchBPF.Agent.RateLimit
import WatchBPF.Agent.Trail

namespace WatchBPF.Agent

open WatchBPF.Audit WatchBPF.Policy WatchBPF.Tasks WatchBPF.Utf8

variable {cfg : Config} {ev : Event} {f : Option Bytes}

/-! ## Deeds -/

/-- What a call into `enforce` does. -/
inductive Deed
  | kill
  | pause
  | isolate

namespace Deed

def done : Deed → Action → Bool
  | kill, .kill _ | pause, .pause _ | isolate, .isolate _ => true
  | _, _ => false

/-- A decision that it follows from. -/
def follows (deed : Deed) (label : Label) (d : Decision) : Bool :=
  d.live && match deed with
    | kill => (d.tier = .hard : Bool)
    | pause => (d.tier = .soft : Bool)
    | isolate => (d.tier = .hard ∧ label = .connect : Bool)

/-- The audit call for the decision has been made, and it is still to be done. -/
def due : Deed → Label → Stage → Bool
  | deed, label, .acting d => deed.follows label d
  | isolate, _, .isolating => true
  | _, _, _ => false

/-- A record that tells of it. -/
def told (deed : Deed) (eventType tier reason : Bytes) : Bool :=
  !(lit "DRY-RUN").isPrefixOf reason && match deed with
    | kill => (tier = lit "hard_action" : Bool)
    | pause => (tier = lit "soft_action" : Bool)
    | isolate => (tier = lit "hard_action" ∧ eventType = lit "CONNECT" : Bool)

/-- An audit call with such a record. -/
def reported (deed : Deed) : Action → Bool
  | .audit call _ => deed.told call.eventType call.tier call.reason
  | _ => false

theorem reported_limited (deed : Deed) (now : Instant) (err : Option LogError) :
    deed.reported (.audit (limitedCall ev now) err) = false := by
  have hhard : lit "rate_limited" ≠ lit "hard_action" := by decide
  have hsoft : lit "rate_limited" ≠ lit "soft_action" := by decide
  cases deed <;> simp [reported, told, limitedCall, hhard, hsoft]

/-- A decision is reported as what follows from it. -/
theorem reported_decision (deed : Deed) (now : Instant) (score : Int64) (d : Decision) (err : Option LogError) :
    deed.reported (.audit (decisionCall ev now score d) err) = deed.follows ev.label d := by
  have hhard : d.tier.text = lit "hard_action" ↔ d.tier = .hard := by cases d.tier <;> decide
  have hsoft : d.tier.text = lit "soft_action" ↔ d.tier = .soft := by cases d.tier <;> decide
  have hlabel : ev.label.text = lit "CONNECT" ↔ ev.label = .connect := by cases ev.label <;> decide
  show (!d.isDryRun && _) = (d.tier.acts && !d.isDryRun && _)
  cases deed with
  | kill =>
    simp only [decisionCall, hhard]
    cases d.tier <;> cases d.isDryRun <;> rfl
  | pause =>
    simp only [decisionCall, hsoft]
    cases d.tier <;> cases d.isDryRun <;> rfl
  | isolate =>
    simp only [decisionCall, hhard, hlabel]
    cases d.tier <;> cases d.isDryRun <;> simp [Tier.acts]

end Deed

/-- A job comes to a deed by reporting it, and is past it when it is done. -/
theorem accounts_deed (deed : Deed) : Accounts (program cfg) (Logged true) (fun j => deed.due j.event.label j.stage)
    deed.reported deed.done where
  init js j h := by
    rw [show j.stage = _ from h.1]
    cases deed <;> rfl
  step i s j a s' j' hs h := by
    obtain ⟨hrec, ha⟩ := acts_of_next h
    rw [show j'.event = j.event from congrArg KernelRecord.event hrec]
    revert ha
    generalize j.stage = stage
    generalize j'.stage = stage'
    intro ha
    cases ha with
    | auditLimited now io =>
      rcases auditWith_cases (limitedCall j.event now) io s with ⟨hl, -⟩ | ⟨l, -, h⟩
      · rw [Logged, hl] at hs; cases hs
      · rw [h, deed.reported_limited]
        cases deed <;> rfl
    | auditDecision ta d now io =>
      rcases auditWith_cases (decisionCall j.event now ta.threatScore d) io s with ⟨hl, -⟩ | ⟨l, -, h⟩
      · rw [Logged, hl] at hs; cases hs
      · rw [h, deed.reported_decision]
        cases deed <;> simp [Deed.due, Deed.done]
    | kill d hard live =>
      have hlive := live_of_acts (by rw [hard]; rfl) live
      by_cases hlabel : j.event.label = .connect <;> cases deed <;>
        simp [Deed.due, Deed.done, Deed.follows, Deed.reported, hard, hlive, hlabel]
    | pause d soft live =>
      have hlive := live_of_acts (by rw [soft]; rfl) live
      cases deed <;> simp [Deed.due, Deed.done, Deed.follows, Deed.reported, soft, hlive]
    | spare d dead => cases deed <;> simp [Deed.due, Deed.done, Deed.follows, Deed.reported, dead]
    | _ => cases deed <;> rfl

/-! ## Records on file -/

/-- No record is torn: a call that fails could not open the file. -/
def Untorn (trace : List (Nat × Action)) : Prop := ∀ k call, (k, Action.audit call (some .writing)) ∉ trace

/-- The call whose record an action has written. -/
def Action.writes : Action → Option LogCall
  | audit call none => some call
  | _ => none

/-- Where a logger stands whose calls have written these entries. -/
structure Filed (f : Option Bytes) (calls : List LogCall) (es : List Entry) (l : Logger) : Prop where
  records : List.Forall₂ Records es calls
  content : l.file.getD [] = f.getD [] ++ unlines (es.map marshal)

theorem Filed.log {calls : List LogCall} {es : List Entry} {l : Logger} (h : Filed f calls es l) (call : LogCall)
    {io : WriteResult} (hio : (Audit.log call io l).1 ≠ some .writing) :
    ∃ es', Filed f (calls ++ (Action.audit call (Audit.log call io l).1).writes.toList) es' (Audit.log call io l).2 := by
  cases io with
  | ok =>
    refine ⟨es ++ [newEntry l.lastHash call], List.rel_append h.records (.cons (newEntry_records _ _) .nil), ?_⟩
    simp [Audit.log, h.content, unlines]
  | openFailed => exact ⟨es, by simpa [Action.writes, Audit.log] using h.records, h.content⟩
  | writeFailed n => exact absurd rfl hio

theorem filed_of_run {s₀ : Shared} (hl : s₀.auditLogger = some (newLogger f)) {w : World}
    (h : Reachable (program cfg) s₀ w) (hu : Untorn w.trace) :
    ∃ l es, w.shared.auditLogger = some l ∧ Filed f (w.trace.filterMap fun p => p.2.writes) es l := by
  induction h with
  | refl => exact ⟨_, [], hl, .nil, (List.append_nil _).symm⟩
  | @tail w _ _ hstep ih =>
    cases hstep with
    | start => exact ih hu
    | act k j i a s' j' _ hnext =>
      obtain ⟨l, es, hlog, hfiled⟩ := ih fun k call hm => hu k call (List.mem_append_left _ hm)
      show ∃ l es, s'.auditLogger = some l ∧ Filed f ((w.trace ++ [(k, a)]).filterMap fun p => p.2.writes) es l
      rw [filterMap_snoc]
      rcases acts_log (acts_of_next hnext).2 with ⟨call, io, l', hl', rfl, hs'⟩ | ⟨hnone, hs'⟩
      · obtain rfl : l = l' := Option.some.inj (hlog.symm.trans hl')
        obtain ⟨es', hes'⟩ := hfiled.log call fun herr =>
          hu k call (herr ▸ List.mem_append_right _ List.mem_cons_self)
        exact ⟨_, es', hs', hes'⟩
      · have hquiet : a.writes = none := by
          cases a with
          | audit => cases hnone
          | _ => rfl
        rw [hquiet, Option.toList_none, List.append_nil]
        exact ⟨l, es, hs'.trans hlog, hfiled⟩

/-- Complete lines in front of the new ones stay what they are, and the new ones are the records. -/
theorem Filed.entries {calls : List LogCall} {es : List Entry} {l : Logger} (h : Filed f calls es l)
    (ht : Terminated (f.getD [])) :
    Terminated (l.file.getD []) ∧ recordLines (l.file.getD []) = recordLines (f.getD []) ++ es.map marshal ∧
      fileEntries l.file = fileEntries f ++ es.map Entry.coerce := by
  rw [fileEntries, fileEntries, h.content]
  refine ⟨terminated_append_unlines ht _, recordLines_append_marshal ht es, ?_⟩
  have hnew : (es.map marshal).filterMap unmarshal = es.map Entry.coerce := by
    rw [List.filterMap_map, show unmarshal ∘ marshal = some ∘ Entry.coerce from funext unmarshal_marshal,
      ← List.filterMap_map, List.filterMap_some]
  rw [Audit.entries, recordLines_append_marshal ht, List.filterMap_append, hnew]
  rfl

/-! ## What the file tells -/

/-- Whom a record is about. -/
structure Subject where
  eventType : Bytes
  comm : Bytes
  detail : Bytes
  pid : UInt32
  deriving DecidableEq

/-- As it stands in the file, where all strings are UTF-8. -/
def Event.subject (ev : Event) : Subject := ⟨ev.label.text, coerce ev.comm, coerce ev.detail, ev.pid⟩

namespace Deed

/-- The record tells that it was done about the subject. -/
def toldOf (deed : Deed) (x : Subject) (e : Entry) : Bool :=
  (x = ⟨e.eventType, e.comm, e.detail, e.pid⟩ : Bool) && deed.told e.eventType e.tier e.reason

/-- The record of the call, read back, would tell so. -/
def tellsOf (deed : Deed) (x : Subject) (call : LogCall) : Bool := deed.toldOf x (newEntry genesis call).coerce

/-- A record that would tell so and could not be written. -/
def lost (deed : Deed) (x : Subject) : Action → Bool
  | .audit call (some _) => deed.tellsOf x call
  | _ => false

/-- A record that tells so has been written. -/
def filed (deed : Deed) (x : Subject) (a : Action) : Bool := (a.writes.map (deed.tellsOf x)).getD false

theorem toldOf_coerce (deed : Deed) (x : Subject) {e : Entry} {call : LogCall} (h : Records e call) :
    deed.toldOf x e.coerce = deed.tellsOf x call := by
  unfold tellsOf toldOf Entry.coerce
  rw [h.eventType, h.comm, h.detail, h.pid, h.tier, h.reason]
  rfl

theorem countP_toldOf (deed : Deed) (x : Subject) {es : List Entry} {calls : List LogCall}
    (h : List.Forall₂ Records es calls) :
    (es.map Entry.coerce).countP (deed.toldOf x) = calls.countP (deed.tellsOf x) := by
  induction h with
  | nil => rfl
  | cons hrec _ ih => rw [List.map_cons, List.countP_cons, List.countP_cons, ih, deed.toldOf_coerce x hrec]

/-- A call made for an event is reported for the subject of the event. -/
theorem tellsOf_of_reports (deed : Deed) (x : Subject) {call : LogCall} (h : Reports cfg ev call)
    (err : Option LogError) :
    deed.tellsOf x call = ((ev.subject = x : Bool) && deed.reported (.audit call err)) := by
  have hlabel : coerce ev.label.text = ev.label.text := coerce_of_valid (by cases ev.label <;> decide)
  have hcall : coerce call.tier = call.tier ∧ coerce call.reason = call.reason ∧ call.eventType = ev.label.text ∧
      call.comm = ev.comm ∧ call.detail = ev.detail ∧ call.pid = ev.pid := by
    cases h with
    | limited now =>
      have htier : valid (lit "rate_limited") = true := by decide
      have hreason : valid (lit "escalation storm — LLM call skipped") = true := by decide
      exact ⟨coerce_of_valid htier, coerce_of_valid hreason, rfl, rfl, rfl, rfl⟩
    | decided now score t n stamps =>
      exact ⟨coerce_of_valid (valid_tier_text _), coerce_of_valid (valid_reason ..), rfl, rfl, rfl, rfl⟩
  obtain ⟨htier, hreason, htype, hcomm, hdetail, hpid⟩ := hcall
  unfold tellsOf toldOf Entry.coerce newEntry reported Event.subject
  simp only [htier, hreason, htype, hlabel, hcomm, hdetail, hpid, eq_comm]

theorem filed_add_lost (deed : Deed) (x : Subject) (a : Action) :
    (deed.filed x a || deed.lost x a).toNat = (deed.filed x a).toNat + (deed.lost x a).toNat := by
  cases a with
  | audit call err => cases err <;> simp [filed, lost, Action.writes]
  | _ => rfl

end Deed

/-- In every run of the agent whose records are whole or missing: each line that the run has added to the file decodes,
and of each deed and each subject, the records it has added, and those it could not add, are as many as the calls made
and those that are due. -/
theorem actions_on_record {baseline : Option Bytes} {clock : Int} {s₀ : Shared} {w : World}
    (ht : Terminated (f.getD [])) (h₀ : start cfg baseline (some (newLogger f)) clock = some s₀)
    (h : Reachable (program cfg) s₀ w) (hu : Untorn w.trace) :
    ∃ l es, w.shared.auditLogger = some l ∧ Terminated (l.file.getD []) ∧
      (∃ lines, recordLines (l.file.getD []) = recordLines (f.getD []) ++ lines ∧ Decode lines es) ∧
      fileEntries l.file = fileEntries f ++ es ∧
      ∀ (deed : Deed) (x : Subject),
        es.countP (deed.toldOf x) + w.trace.countP (fun p => deed.lost x p.2) =
          w.trace.countP (fun p => w.tasks[p.1]?.any (·.event.subject = x) && deed.done p.2) +
            w.tasks.countP fun j => j.event.subject = x && deed.due j.event.label j.stage := by
  have hlogger : s₀.auditLogger = some (newLogger f) := auditLogger_of_start h₀
  obtain ⟨l, es, hl, hfiled⟩ := filed_of_run hlogger h hu
  obtain ⟨hterminated, hlines, hentries⟩ := hfiled.entries ht
  refine ⟨l, _, hl, hterminated, ⟨_, hlines, decode_marshal es⟩, hentries, fun deed x => ?_⟩
  have hbooks := (accounts_deed deed).reachable_of (keeps_logged cfg true) (by rw [Logged, hlogger]; rfl) h
    fun j => j.event.subject = x
  -- what is reported of the subject is on file or lost
  have hreported : w.trace.countP (fun p => w.tasks[p.1]?.any (·.event.subject = x) && deed.reported p.2) =
      w.trace.countP fun p => deed.filed x p.2 || deed.lost x p.2 := by
    refine List.countP_congr fun p hmem => ?_
    obtain ⟨k, a⟩ := p
    cases a with
    | audit call err =>
      obtain ⟨j, hj, hr⟩ := reports_of_reachable h hmem
      rw [hj, Option.any_some, ← deed.tellsOf_of_reports x hr err]
      cases err <;> simp [Deed.filed, Deed.lost, Action.writes]
    | _ => simp [Deed.reported, Deed.filed, Deed.lost, Action.writes]
  rw [hreported, countP_split fun p : Nat × Action => deed.filed_add_lost x p.2] at hbooks
  rw [deed.countP_toldOf x hfiled.records, List.countP_filterMap, Nat.add_comm (w.trace.countP _) (w.tasks.countP _),
    hbooks]
  rfl

/-- So many calls have been made for the beacon, and none is due. -/
def settledAs (w : World) (deed : Deed) (n : Nat) : Bool :=
  w.trace.countP (fun p => w.tasks[p.1]?.any (·.event.subject = beacon.event.subject) && deed.done p.2) == n &&
    (w.tasks.countP fun j => j.event.subject = beacon.event.subject && deed.due j.event.label j.stage) == 0

/-- The beacon on a new file: one kill and one blocked address are on record. -/
theorem actions_on_record_beacon : ∃ (w : World) (l : Logger), w.shared.auditLogger = some l ∧
    (fileEntries l.file).countP (Deed.kill.toldOf beacon.event.subject) = 1 ∧
    (fileEntries l.file).countP (Deed.isolate.toldOf beacon.event.subject) = 1 ∧
    (fileEntries l.file).countP (Deed.pause.toldOf beacon.event.subject) = 0 := by
  have hrun : ((start liveConfig none (some (newLogger none)) 0).any fun s =>
      (exec (program liveConfig) { shared := s } beaconMoves).any fun w =>
        (w.trace.all fun p => !p.2.failed) && settledAs w .kill 1 && settledAs w .isolate 1 &&
          settledAs w .pause 0) = true := by decide +kernel
  obtain ⟨s₀, w, h₀, h, hw⟩ := reachable_of_exec hrun
  simp only [Bool.and_eq_true] at hw
  obtain ⟨⟨⟨hwritten, hkill⟩, hisolate⟩, hpause⟩ := hw
  have hnone := allWritten_of_all hwritten
  have hlost : ∀ deed : Deed, w.trace.countP (fun p => deed.lost beacon.event.subject p.2) = 0 := by
    intro deed
    refine List.countP_eq_zero.2 fun p hmem hlost => ?_
    obtain ⟨k, a⟩ := p
    cases a with
    | audit call err =>
      rw [hnone k call err hmem] at hlost
      cases hlost
    | _ => cases hlost
  obtain ⟨l, es, hl, -, -, hes, hcount⟩ := actions_on_record (.inl rfl) h₀ h fun k call hmem => by
    cases hnone k call _ hmem
  have hone : ∀ deed n, settledAs w deed n = true →
      (fileEntries l.file).countP (deed.toldOf beacon.event.subject) = n := by
    intro deed n hsettled
    rw [settledAs, Bool.and_eq_true, beq_iff_eq, beq_iff_eq] at hsettled
    have hdeed := hcount deed beacon.event.subject
    rw [hlost, hsettled.1, hsettled.2] at hdeed
    rw [hes]
    exact hdeed
  exact ⟨w, l, hl, hone _ _ hkill, hone _ _ hisolate, hone _ _ hpause⟩

end WatchBPF.Agent
