/-
Why the agent enforces. Every call of `KillProcess`, `PauseProcess` or `IsolateIP` in a run has a
course behind it that passed all guards and took a grant of the limiter; a grant is used once, and
with a working audit logger the records tell which events were acted upon.
-/
import WatchBPF.Agent.Fate

namespace WatchBPF.Agent

open WatchBPF.Audit WatchBPF.Baseline WatchBPF.LLM WatchBPF.Policy WatchBPF.Tasks

variable {cfg : Config} {ev : Event} {logged : Bool}

/-! ## Warrants -/

/-- A call into package `enforce`. -/
def Action.enforces : Action → Bool
  | kill _ | pause _ | isolate _ => true
  | _ => false

/-- A kill or pause attempt. -/
def Action.attempts : Action → Bool
  | kill _ | pause _ => true
  | _ => false

/-- An evaluation for which `allowAction` returns true. -/
def Action.grants (cfg : Config) (ev : Event) : Action → Bool
  | evaluate now score stamps _ => Policy.grants cfg.policy now ev.comm score stamps
  | _ => false

/-- What a score calls for. -/
def CalledFor (cfg : Config) (ev : Event) (score : Int) : Action → Prop
  | .kill pid => pid = ev.pid ∧ cfg.policy.thresholdHard ≤ score
  | .pause pid => pid = ev.pid ∧ cfg.policy.thresholdSoft ≤ score ∧ score < cfg.policy.thresholdHard
  | .isolate ip => ip = isolatedIP ev.detail ∧ ev.label = .connect ∧ cfg.policy.thresholdHard ≤ score
  | _ => False

/-- The course `c` justifies an action after what was done before. -/
structure Warrant (cfg : Config) (ev : Event) (past : List Action) (a : Action) (c : Course) : Prop where
  mode : cfg.mode = lit "filter"
  live : cfg.policy.enforceMode = lit "live"
  pid : ev.pid ≠ cfg.selfPID
  comm : ev.comm ∉ excludedComms
  unprotected : ev.comm ∉ cfg.policy.protectedComms
  unknown : c.intake.store.isKnown ev.combination = false
  within : c.intake.count ≤ 50
  accepted : parseAssessment c.text = .ok c.ta
  range : 0 ≤ c.score ∧ c.score ≤ 100
  granted : (allowAction cfg.policy c.now c.stamps).1 = true
  calledFor : CalledFor cfg ev c.score a
  course : c.actions cfg ev <+: past

theorem grants_of_live {c : Course} (h : (c.decision cfg ev).live = true) :
    Policy.grants cfg.policy c.now ev.comm c.score c.stamps = true ∧
      (c.decision cfg ev).tier = scoreTier cfg.policy c.score := by
  obtain ⟨hg, hd⟩ := live_evaluate cfg.policy c.now ev.comm c.score c.stamps
  have hgrants := hg.symm.trans h
  exact ⟨hgrants, congrArg Decision.tier (hd hgrants)⟩

theorem warrant {c : Course} {past : List Action} {a : Action} (hc : Assessed cfg ev c)
    (hlive : (c.decision cfg ev).live = true) (hcalled : CalledFor cfg ev c.score a)
    (hpast : c.actions cfg ev <+: past) : Warrant cfg ev past a c := by
  obtain ⟨-, hcomm, hmode, hallow⟩ := grants_eq_true.1 (grants_of_live hlive).1
  obtain ⟨hlo, hhi, -⟩ := checked_of_parseAssessment hc.accepted
  exact ⟨beq_iff_eq.1 hc.client, hmode, hc.pid, hc.comm, hcomm, hc.unknown, hc.within, hc.accepted, ⟨hlo, hhi⟩,
    hallow, hcalled, hpast⟩

theorem auditWith_quiet (call : LogCall) (io : WriteResult) (s : Shared) :
    (auditWith call io s).1.enforces = false := by
  rcases auditWith_cases call io s with ⟨-, h⟩ | ⟨l, -, h⟩ <;> (rw [h]; rfl)

/-- An action that enforces has a warrant. -/
theorem warrant_of_acts {s s' : Shared} {stage stage' : Stage} {a : Action} {as : List Action}
    (h : Past cfg ev logged stage as) (ha : Acts cfg ev s stage a s' stage') (he : a.enforces = true) :
    ∃ c, Warrant cfg ev as a c := by
  cases ha with
  | kill d hard live =>
    obtain ⟨c, record, rfl, hc, rfl, -⟩ := h
    have hlive := live_of_acts (by rw [hard]; rfl) live
    have htier := (grants_of_live hlive).2.symm.trans hard
    exact ⟨c, warrant hc hlive ⟨rfl, scoreTier_hard.1 htier⟩ ⟨_, rfl⟩⟩
  | pause d soft live =>
    obtain ⟨c, record, rfl, hc, rfl, -⟩ := h
    have hlive := live_of_acts (by rw [soft]; rfl) live
    have htier := (grants_of_live hlive).2.symm.trans soft
    exact ⟨c, warrant hc hlive ⟨rfl, scoreTier_soft.1 htier⟩ ⟨_, rfl⟩⟩
  | isolate =>
    obtain ⟨c, record, rfl, hc, hard, hlive, hl, -⟩ := h
    have htier := (grants_of_live hlive).2.symm.trans hard
    exact ⟨c, warrant hc hlive ⟨rfl, hl, scoreTier_hard.1 htier⟩ ⟨_, rfl⟩⟩
  | auditLimited | auditDecision => rw [auditWith_quiet] at he; cases he
  | _ => cases he

/-! ## Grants and attempts -/

def attempts (as : List Action) : Nat := as.countP Action.attempts

def granted (cfg : Config) (ev : Event) (as : List Action) : Nat := as.countP (Action.grants cfg ev)

@[simp] theorem attempts_append (as bs : List Action) : attempts (as ++ bs) = attempts as + attempts bs :=
  List.countP_append

@[simp] theorem granted_append (as bs : List Action) :
    granted cfg ev (as ++ bs) = granted cfg ev as + granted cfg ev bs := List.countP_append

theorem Recorded.quiet (cfg : Config) (ev : Event) {call : Instant → LogCall} {record : Action}
    (h : Recorded logged call record) :
    attempts [record] = 0 ∧ granted cfg ev [record] = 0 ∧ record.enforces = false := by
  unfold Recorded at h
  cases logged with
  | true => obtain ⟨now, err, rfl⟩ := h; exact ⟨rfl, rfl, rfl⟩
  | false => cases h; exact ⟨rfl, rfl, rfl⟩

namespace Course

@[simp] theorem attempts_actions (c : Course) : attempts (c.actions cfg ev) = 0 := rfl

theorem granted_actions (c : Course) :
    granted cfg ev (c.actions cfg ev) = if (c.decision cfg ev).live then 1 else 0 := by
  have h := (live_evaluate cfg.policy c.now ev.comm c.score c.stamps).1
  rw [show (c.decision cfg ev).live = _ from h]
  show granted cfg ev (c.intake.actions ++ _) = _
  rw [granted_append]
  show 0 + List.countP (Action.grants cfg ev) _ = _
  simp only [List.countP_cons, List.countP_nil, Action.grants, Nat.zero_add]
  rfl

theorem attempts_effects (c : Course) :
    attempts (c.effects cfg ev) = if (c.decision cfg ev).live then 1 else 0 := by
  unfold effects
  split <;> [split <;> [split <;> rfl; rfl]; rfl]

theorem granted_effects (c : Course) : granted cfg ev (c.effects cfg ev) = 0 := by
  unfold effects
  split <;> [split <;> [split <;> rfl; rfl]; rfl]

end Course

/-- A grant is used at most once at any time, and has been used when the job returns. -/
theorem attempts_le_granted {stage : Stage} {as : List Action} (h : Past cfg ev logged stage as) :
    attempts as ≤ granted cfg ev as ∧ granted cfg ev as ≤ 1 ∧
      (stage = .returned → attempts as = granted cfg ev as) := by
  have hended : ∀ {as}, Ended cfg ev logged as → attempts as = granted cfg ev as ∧ granted cfg ev as ≤ 1 := by
    rintro as (⟨n, answer, -, -⟩ | ⟨c, record, -, hr⟩)
    · exact ⟨rfl, Nat.zero_le _⟩
    · obtain ⟨ha, hg, -⟩ := hr.quiet cfg ev
      rw [← List.singleton_append, attempts_append, attempts_append, granted_append, granted_append, ha, hg,
        c.attempts_actions, c.granted_actions, c.attempts_effects, c.granted_effects]
      constructor
      · omega
      · split <;> omega
  have hcourse : ∀ c : Course, granted cfg ev (c.actions cfg ev) ≤ 1 := fun c => by
    rw [c.granted_actions]; split <;> omega
  cases stage with
  | received => cases h; exact ⟨le_rfl, Nat.zero_le _, nofun⟩
  | looked known =>
    obtain ⟨-, store, rfl, -⟩ := h
    exact ⟨le_rfl, Nat.zero_le _, nofun⟩
  | escalated =>
    obtain ⟨store, rfl, -⟩ := h
    exact ⟨le_rfl, Nat.zero_le _, nofun⟩
  | guarded | limited | queued | running =>
    obtain ⟨n, rfl, -⟩ := h
    exact ⟨le_rfl, Nat.zero_le _, nofun⟩
  | assessed ta =>
    obtain ⟨n, text, rfl, -⟩ := h
    exact ⟨le_rfl, Nat.zero_le _, nofun⟩
  | decided ta d =>
    obtain ⟨c, rfl, -⟩ := h
    exact ⟨Nat.zero_le _, hcourse c, nofun⟩
  | acting d =>
    obtain ⟨c, record, rfl, -, -, hr⟩ := h
    obtain ⟨ha, hg, -⟩ := hr.quiet cfg ev
    rw [attempts_append, granted_append, ha, hg]
    exact ⟨Nat.zero_le _, hcourse c, nofun⟩
  | isolating =>
    obtain ⟨c, record, rfl, -, -, hlive, -, hr⟩ := h
    obtain ⟨ha, hg, -⟩ := hr.quiet cfg ev
    rw [← List.singleton_append, attempts_append, attempts_append, granted_append, granted_append, ha, hg,
      c.granted_actions, if_pos hlive]
    exact ⟨le_rfl, le_rfl, nofun⟩
  | leaving =>
    obtain ⟨heq, hle⟩ := hended h
    exact ⟨heq.le, hle, nofun⟩
  | returned =>
    have heq : attempts as = granted cfg ev as ∧ granted cfg ev as ≤ 1 := by
      cases h with
      | limited n record novel exceeded recorded =>
        obtain ⟨ha, hg, -⟩ := recorded.quiet cfg ev
        rw [← List.singleton_append, ← List.append_assoc, attempts_append, granted_append, ha, hg]
        exact ⟨rfl, Nat.zero_le _⟩
      | ended h =>
        rw [attempts_append, granted_append]
        exact hended h
      | _ => exact ⟨rfl, Nat.zero_le _⟩
    exact ⟨heq.1.le, heq.2, fun _ => heq.1⟩

/-! ## Records and attempts -/

/-- The call records a decision that is carried out. -/
def ActionRecord (call : LogCall) : Prop :=
  (call.tier = lit "hard_action" ∨ call.tier = lit "soft_action") ∧ ¬ lit "DRY-RUN" <+: call.reason

def enforced (as : List Action) : Bool := as.any Action.enforces

/-- The audit file has got a record of an action. -/
def RecordsAction (as : List Action) : Prop := ∃ call, Action.audit call none ∈ as ∧ ActionRecord call

theorem actionRecord_decisionCall {now : Instant} {score : Int64} {d : Decision} :
    ActionRecord (decisionCall ev now score d) ↔ d.live = true := by
  have hdry : lit "DRY-RUN" <+: d.reason ↔ d.isDryRun = true := List.isPrefixOf_iff_prefix.symm
  have htier : (d.tier.text = lit "hard_action" ∨ d.tier.text = lit "soft_action") ↔ d.tier.acts = true := by
    cases d.tier <;> decide
  show (_ ∨ _) ∧ ¬ _ ↔ _
  rw [show (decisionCall ev now score d).tier = d.tier.text from rfl,
    show (decisionCall ev now score d).reason = d.reason from rfl, htier, hdry]
  simp [Decision.live]

theorem enforced_effects (c : Course) : enforced (c.effects cfg ev) = (c.decision cfg ev).live := by
  unfold Course.effects
  split
  · rename_i hlive
    rw [hlive]
    split <;> rfl
  · rename_i hlive
    rw [Bool.not_eq_true] at hlive
    rw [hlive]
    rfl

theorem not_audit_effects (c : Course) (call : LogCall) (err : Option LogError) :
    Action.audit call err ∉ c.effects cfg ev := by
  unfold Course.effects
  split <;> [split <;> [split <;> simp; simp]; simp]

theorem not_recordsAction_limited {as : List Action} {record : Action} (h : Recorded logged (limitedCall ev) record)
    (has : ∀ call err, Action.audit call err ∉ as) : ¬ RecordsAction (as ++ [record]) := by
  rintro ⟨call, hmem, hact⟩
  rcases List.mem_append.1 hmem with hmem | hmem
  · exact has _ _ hmem
  · unfold Recorded at h
    cases logged with
    | true =>
      obtain ⟨now, err, rfl⟩ := h
      rw [List.mem_singleton, Action.audit.injEq] at hmem
      rw [hmem.1] at hact
      exact absurd hact.1 (show ¬ (lit "rate_limited" = _ ∨ lit "rate_limited" = _) by decide)
    | false => cases h; simp at hmem

/-- Once ended, an event was acted upon exactly when its record says so. -/
theorem enforced_iff_of_ended {as : List Action} (h : Ended cfg ev true as)
    (hw : ∀ call err, Action.audit call err ∈ as → err = none) : enforced as = true ↔ RecordsAction as := by
  cases h with
  | failed n answer => simp [enforced, Action.enforces, RecordsAction, Intake.actions, Intake.counted]
  | evaluated c record assessed recorded =>
    obtain ⟨now, err, rfl⟩ := recorded
    obtain rfl : err = none := hw _ _ (List.mem_append_right _ List.mem_cons_self)
    have henf : enforced (c.actions cfg ev ++ .audit (decisionCall ev now c.ta.threatScore (c.decision cfg ev)) none ::
        c.effects cfg ev) = (c.decision cfg ev).live := by
      rw [← enforced_effects c, enforced, List.any_append, List.any_cons]
      rfl
    rw [henf]
    constructor
    · intro hlive
      exact ⟨_, List.mem_append_right _ List.mem_cons_self, actionRecord_decisionCall.2 hlive⟩
    · rintro ⟨call, hmem, hact⟩
      rcases List.mem_append.1 hmem with hmem | hmem
      · simp [Course.actions, Intake.actions, Intake.counted] at hmem
      · rcases List.mem_cons.1 hmem with heq | hmem
        · rw [(Action.audit.inj heq).1] at hact
          exact actionRecord_decisionCall.1 hact
        · exact absurd hmem (not_audit_effects c _ _)

/-- With a working logger an event is recorded before it is acted upon, and acted upon if so recorded. -/
theorem enforced_iff_recorded {stage : Stage} {as : List Action} (h : Past cfg ev true stage as)
    (hw : ∀ call err, Action.audit call err ∈ as → err = none) :
    (enforced as = true → RecordsAction as) ∧ (stage = .returned → RecordsAction as → enforced as = true) := by
  cases stage with
  | received => cases h; exact ⟨nofun, nofun⟩
  | looked known =>
    obtain ⟨-, store, rfl, -⟩ := h
    exact ⟨nofun, nofun⟩
  | escalated =>
    obtain ⟨store, rfl, -⟩ := h
    exact ⟨nofun, nofun⟩
  | guarded | limited | queued | running =>
    obtain ⟨n, rfl, -⟩ := h
    exact ⟨nofun, nofun⟩
  | assessed ta =>
    obtain ⟨n, text, rfl, -⟩ := h
    exact ⟨nofun, nofun⟩
  | decided ta d =>
    obtain ⟨c, rfl, -⟩ := h
    exact ⟨nofun, nofun⟩
  | acting d =>
    obtain ⟨c, record, rfl, -, -, now, err, rfl⟩ := h
    exact ⟨nofun, nofun⟩
  | isolating =>
    obtain ⟨c, record, rfl, -, -, hlive, -, now, err, rfl⟩ := h
    obtain rfl : err = none := hw _ _ (List.mem_append_right _ List.mem_cons_self)
    exact ⟨fun _ => ⟨_, List.mem_append_right _ List.mem_cons_self, actionRecord_decisionCall.2 hlive⟩, nofun⟩
  | leaving => exact ⟨(enforced_iff_of_ended h hw).1, nofun⟩
  | returned =>
    have hiff : enforced as = true ↔ RecordsAction as := by
      cases h with
      | limited n record novel exceeded recorded =>
        obtain ⟨now, err, rfl⟩ := id recorded
        have hno : ¬ RecordsAction ((n.counted ++ [.limit]) ++ [.audit (limitedCall ev now) err]) :=
          not_recordsAction_limited recorded (by simp [Intake.counted])
        rw [List.append_assoc] at hno
        exact ⟨nofun, fun hr => absurd hr hno⟩
      | @ended bs h =>
        have hb := enforced_iff_of_ended h fun call err hm => hw call err (List.mem_append_left _ hm)
        have he : enforced (bs ++ [.release]) = enforced bs := by
          simp [enforced, Action.enforces]
        rw [he, hb]
        simp [RecordsAction]
      | _ => simp [enforced, Action.enforces, RecordsAction, Intake.counted]
    exact ⟨hiff.1, fun _ => hiff.2⟩

/-! ## Runs -/

/-- In every run each call into `enforce` has a warrant in the history of its job; a job makes one kill
or pause attempt for each grant it took; and with a working audit logger it makes an attempt exactly
when its record has an acting tier and a reason that does not start with `DRY-RUN`. -/
theorem enforcement_justified {baseline : Option Bytes} {logger : Option Logger} {clock : Int} {s₀ : Shared}
    {w : World} (h₀ : start cfg baseline logger clock = some s₀) (h : Reachable (program cfg) s₀ w) :
    (∀ pre k a post, w.trace = pre ++ (k, a) :: post → a.enforces = true →
      ∃ j c, w.tasks[k]? = some j ∧ Warrant cfg j.event (history k pre) a c) ∧
    (∀ k j, w.tasks[k]? = some j →
      attempts (history k w.trace) ≤ granted cfg j.event (history k w.trace) ∧
      granted cfg j.event (history k w.trace) ≤ 1 ∧
      (j.stage = .returned → attempts (history k w.trace) = granted cfg j.event (history k w.trace))) ∧
    (logger.isSome = true → ∀ k j, w.tasks[k]? = some j →
      (∀ call err, (k, Action.audit call err) ∈ w.trace → err = none) →
      (enforced (history k w.trace) = true → RecordsAction (history k w.trace)) ∧
      (j.stage = .returned → RecordsAction (history k w.trace) → enforced (history k w.trace) = true)) := by
  have hlogger : s₀.auditLogger = logger := auditLogger_of_start h₀
  refine ⟨fun pre k a post htr he => ?_, fun k j hj => ?_, fun hsome k j hj hw => ?_⟩
  · obtain ⟨j, hj, hc⟩ := action_of_reachable (R := fun ev as a => a.enforces = true → ∃ c, Warrant cfg ev as a c)
      (fun _ _ _ _ _ _ _ hpast hacts => warrant_of_acts hpast hacts) h htr
    obtain ⟨c, hc⟩ := hc he
    exact ⟨j, c, hj, hc⟩
  · exact attempts_le_granted (past_of_reachable h hj)
  · have hpast := past_of_reachable h hj
    rw [hlogger, hsome] at hpast
    exact enforced_iff_recorded hpast fun call err hm => hw call err (mem_history.1 hm)

/-- The default configuration, enforcing. -/
def liveConfig : Config :=
  { mode := lit "filter", selfPID := 900,
    policy := { enforceMode := lit "live", protectedComms := [lit "systemd", lit "sshd"], maxActionsPerWindow := 50,
                thresholdAlert := 40, thresholdSoft := 70, thresholdHard := 90, isPrint := fun _ => false } }

/-- `nc` connecting to 203.0.113.7:4444. -/
def beacon : KernelRecord :=
  .connect { pid := 4242, uid := 0, comm := #v[0x6E, 0x63, 0, 0, 0, 0, 0, 0, 0, 0, 0, 0, 0, 0, 0, 0],
             isIPv6 := 0, ipv6Addr := .replicate 16 0, dstAddr := 0x077100CB, dstPort := 4444 }

/-- The beacon assessed with a score of 95. -/
def beaconMoves : List (Move Job Input) :=
  .start { record := beacon } :: List.replicate 11
    (.act 0 { elapsed := 10 ^ 6, answer := some (lit "\x7b\"threat_score\":95,\"recommended_action\":\"kill\"\x7d") })

/-- The run is over, the ninth action was a call into `enforce`, and the audit call went well. -/
def beaconEnforced (w : World) : Bool :=
  (w.tasks[0]?.any fun j => j.stage == .returned) && (w.trace[8]?.any fun p => p.1 == 0 && p.2.enforces) &&
    enforced (history 0 w.trace) && w.trace.all fun p => !p.2.failed

theorem enforcement_justified_beacon : ∃ (w : World) (a : Action) (j : Job) (c : Course),
    w.trace[8]? = some (0, a) ∧ a.enforces = true ∧ w.tasks[0]? = some j ∧ j.stage = .returned ∧
    Warrant liveConfig j.event (history 0 (w.trace.take 8)) a c ∧
    attempts (history 0 w.trace) = granted liveConfig j.event (history 0 w.trace) ∧
    RecordsAction (history 0 w.trace) := by
  have hrun : ((start liveConfig none (some (newLogger none)) 0).any fun s =>
      (exec (program liveConfig) { shared := s } beaconMoves).any beaconEnforced) = true := by decide +kernel
  obtain ⟨s₀, w, h₀, h, hw⟩ := reachable_of_exec hrun
  obtain ⟨hwarrant, hcount, hrecord⟩ := enforcement_justified h₀ h
  simp only [beaconEnforced, Bool.and_eq_true, List.all_eq_true] at hw
  obtain ⟨⟨⟨hj, ha⟩, henf⟩, hwritten⟩ := hw
  obtain ⟨j, hj, hret⟩ := (Option.any_eq_true _ _).1 hj
  obtain ⟨⟨k, a⟩, ha, hka⟩ := (Option.any_eq_true _ _).1 ha
  simp only [Bool.and_eq_true, beq_iff_eq] at hka hret
  obtain ⟨rfl, he⟩ := hka
  obtain ⟨hlt, hget⟩ := List.getElem?_eq_some_iff.1 ha
  have htr : w.trace = w.trace.take 8 ++ (0, a) :: w.trace.drop 9 := by
    rw [← hget, List.cons_getElem_drop_succ, List.take_append_drop]
  obtain ⟨j', c, hj', hc⟩ := hwarrant _ _ _ _ htr he
  obtain rfl : j = j' := Option.some.inj (hj.symm.trans hj')
  refine ⟨w, a, j, c, ha, he, hj, hret, hc, (hcount 0 j hj).2.2 hret, (hrecord rfl 0 j hj fun call err hm => ?_).1 henf⟩
  simpa [Action.failed] using hwritten _ hm

end WatchBPF.Agent
