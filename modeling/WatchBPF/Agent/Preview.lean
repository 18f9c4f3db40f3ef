/-
Dry runs preview live ones. The agent that only reports goes through the same motions as the agent that enforces:
each run of the one has its counterpart among the runs of the other, in which the same happens up to the decisions,
their records and the actions themselves. What it reports is what would be done, rate limit aside.
-/
import WatchBPF.Agent.Enforce
import WatchBPF.Lib.Simulation

namespace WatchBPF.Agent

open WatchBPF.Audit WatchBPF.Baseline WatchBPF.LLM WatchBPF.Policy WatchBPF.Tasks

/-! ## Decisions -/

/-- The same configuration with another value of `-enforce`. -/
abbrev Config.enforcing (cfg : Config) (mode : Bytes) : Config :=
  { cfg with policy := { cfg.policy with enforceMode := mode } }

/-- What a live engine decides, and what a dry run reports. -/
inductive Foreseen : Decision → Decision → Prop
  | harmless (d : Decision) (idle : d.tier.acts = false) : Foreseen d d
  | granted (t : Tier) (acts : t.acts = true) : Foreseen ⟨t, thresholdReason⟩ ⟨t, dryRunReason⟩
  | denied (t : Tier) (acts : t.acts = true) : Foreseen ⟨.alert, limitReason⟩ ⟨t, dryRunReason⟩

variable {cfg : Config} {ev : Event} {mode : Bytes}

theorem foreseen_evaluate (hlive : cfg.policy.enforceMode = lit "live") (hmode : mode ≠ lit "live") (now : Int)
    (comm : Bytes) (score : Int) (stamps stamps' : Timestamps) :
    Foreseen (evaluate cfg.policy now comm score stamps).1
      (evaluate (cfg.enforcing mode).policy now comm score stamps').1 := by
  have hscore : scoreTier (cfg.enforcing mode).policy score = scoreTier cfg.policy score := rfl
  have hlisted : (cfg.enforcing mode).policy.protectedComms = cfg.policy.protectedComms := rfl
  have hdry : (cfg.enforcing mode).policy.enforceMode = mode := rfl
  unfold evaluate
  rw [hscore, hlisted, hdry, hlive]
  generalize ht : scoreTier cfg.policy score = t
  cases hacts : t.acts with
  | false =>
    simp only [hacts, Bool.false_eq_true, and_false, if_false]
    exact .harmless _ hacts
  | true =>
    simp only [hacts, and_true, ne_eq, not_true_eq_false, hmode, not_false_eq_true, if_true, if_false]
    split
    · exact .harmless _ rfl
    · cases allowAction cfg.policy now stamps with
      | mk allowed stamps =>
        cases allowed with
        | false => exact .denied t hacts
        | true => exact .granted t hacts

/-! ## Actions -/

/-- What is done live, and what is done instead in a dry run. -/
inductive Previewed : List Action → List Action → Prop
  | same (a : Action) (quiet : a.enforces = false) : Previewed [a] [a]
  | evaluate (now score : Int) (stamps stamps' : Timestamps) {d d' : Decision} (foreseen : Foreseen d d') :
      Previewed [.evaluate now score stamps d] [.evaluate now score stamps' d']
  | audit (ev : Event) (now : Instant) (score : Int64) {d d' : Decision} (err : Option LogError)
      (foreseen : Foreseen d d') :
      Previewed [.audit (decisionCall ev now score d) err] [.audit (decisionCall ev now score d') err]
  | kill (pid : UInt32) : Previewed [.kill pid] [.pass]
  | pause (pid : UInt32) : Previewed [.pause pid] [.pass]
  | isolate (ip : Bytes) : Previewed [.isolate ip] []

theorem quiet_of_previewed {as as' : List Action} (h : Previewed as as') : ∀ a ∈ as', a.enforces = false := by
  cases h with
  | same a quiet => exact List.forall_mem_singleton.2 quiet
  | isolate => nofun
  | _ => exact List.forall_mem_singleton.2 rfl

/-! ## States -/

/-- The state of a live run but for the budget and the audit trail. -/
inductive SameState : Shared → Shared → Prop
  | mk (s : Shared) (stamps : Timestamps) (logger : Option Logger) (logged : logger.isSome = s.auditLogger.isSome) :
      SameState s { s with stamps, auditLogger := logger }

theorem sameState_logged (s : Shared) (stamps : Timestamps) (logger : Option Logger) (l l' : Logger) :
    SameState { s with auditLogger := some l }
      { ({ s with stamps, auditLogger := logger } : Shared) with auditLogger := some l' } :=
  .mk { s with auditLogger := some l } stamps (some l') rfl

/-- A stage at which no decision is known. -/
def Stage.withoutDecision : Stage → Bool
  | decided _ _ | acting _ | isolating => false
  | _ => true

inductive SameStage : Stage → Stage → Prop
  | same (stage : Stage) (without : stage.withoutDecision = true) : SameStage stage stage
  | decided (ta : ThreatAssessment) {d d' : Decision} (foreseen : Foreseen d d') :
      SameStage (.decided ta d) (.decided ta d')
  | acting {d d' : Decision} (foreseen : Foreseen d d') : SameStage (.acting d) (.acting d')
  | isolating : SameStage .isolating .leaving

structure SameJob (j j' : Job) : Prop where
  record : j'.record = j.record
  stage : SameStage j.stage j'.stage

theorem inHandler_of_same {stage stage' : Stage} (h : SameStage stage stage') : stage'.inHandler = stage.inHandler := by
  cases h <;> rfl

/-! ## Steps -/

/-- What does not depend on the decision is done alike. -/
theorem advance_withoutDecision {stage : Stage} (h : stage.withoutDecision = true) (hassessed : ∀ ta, stage ≠ .assessed ta)
    (hlimited : stage ≠ .limited) (i : Input) (s : Shared) (stamps : Timestamps) (logger : Option Logger) :
    advance (cfg.enforcing mode) ev i { s with stamps, auditLogger := logger } stage =
      (advance cfg ev i s stage).map fun p => (p.1, { p.2.1 with stamps, auditLogger := logger }, p.2.2) := by
  cases stage with
  | decided | acting | isolating => cases h
  | assessed ta => exact absurd rfl (hassessed ta)
  | limited => exact absurd rfl hlimited
  | received | looked | queued =>
    unfold advance
    simp only
    split_ifs <;> rfl
  | guarded =>
    have hclient : (cfg.enforcing mode).llmClient = cfg.llmClient := rfl
    unfold advance
    simp only
    rw [hclient]
    split_ifs <;> rfl
  | running =>
    unfold advance
    simp only
    cases i.answer with
    | none => rfl
    | some text =>
      simp only
      cases parseAssessment text with
      | error e => rfl
      | ok ta => rfl
  | escalated | leaving | returned => rfl

/-- Whether a write fails does not depend on what is written. -/
theorem err_log (io : WriteResult) : ∃ err, ∀ c l, (log c io l).1 = err := by
  cases io with
  | ok => exact ⟨none, fun _ _ => rfl⟩
  | openFailed => exact ⟨some .opening, fun _ _ => rfl⟩
  | writeFailed n => exact ⟨some .writing, fun _ _ => rfl⟩

/-- Audit calls in states that correspond: there is no logger, or both calls come to the same. -/
theorem auditWith_same {s s' : Shared} (hs : SameState s s') (call call' : LogCall) (io : WriteResult) :
    auditWith call io s = (.pass, s) ∧ auditWith call' io s' = (.pass, s') ∨
      ∃ err s₁ s₁', auditWith call io s = (.audit call err, s₁) ∧ auditWith call' io s' = (.audit call' err, s₁') ∧
        SameState s₁ s₁' := by
  obtain ⟨stamps, logger, logged⟩ := hs
  obtain ⟨err, herr⟩ := err_log io
  have hlogged : ∀ {l}, s.auditLogger = some l → logger ≠ none := by
    rintro l hl rfl
    rw [hl] at logged
    exact Bool.false_ne_true logged
  have hunlogged : ∀ {l}, s.auditLogger = none → logger ≠ some l := by
    rintro l hl rfl
    rw [hl] at logged
    exact Bool.false_ne_true logged.symm
  rcases auditWith_cases call io s with ⟨hl, h⟩ | ⟨l, hl, h⟩ <;>
    rcases auditWith_cases call' io { s with stamps, auditLogger := logger } with ⟨hl', h'⟩ | ⟨l', hl', h'⟩
  · exact .inl ⟨h, h'⟩
  · exact absurd hl' (hunlogged hl)
  · exact absurd hl' (hlogged hl)
  · rw [herr] at h h'
    exact .inr ⟨err, _, _, h, h', sameState_logged s stamps logger _ _⟩

/-- What an action and its answer have to do with each other. -/
structure Answers (p p' : Action × Shared × Stage) : Prop where
  action : Previewed [p.1] [p'.1]
  state : SameState p.2.1 p'.2.1
  stage : SameStage p.2.2 p'.2.2

theorem answers_audit {s s' : Shared} (hs : SameState s s') {call call' : LogCall} {io : WriteResult}
    {stage stage' : Stage} (hcall : ∀ err, Previewed [.audit call err] [.audit call' err])
    (hstage : SameStage stage stage') :
    Answers ((auditWith call io s).1, (auditWith call io s).2, stage)
      ((auditWith call' io s').1, (auditWith call' io s').2, stage') := by
  rcases auditWith_same hs call call' io with ⟨h, h'⟩ | ⟨err, s₁, s₁', h, h', hstate⟩
  · rw [h, h']
    exact ⟨.same .pass rfl, hs, hstage⟩
  · rw [h, h']
    exact ⟨hcall err, hstate, hstage⟩

/-- A decision is acted upon live and passed over in a dry run. -/
theorem advance_acting {d d' : Decision} (h : Foreseen d d') {s s' : Shared} (hs : SameState s s') (i : Input) :
    Option.Rel Answers (advance cfg ev i s (.acting d)) (advance (cfg.enforcing mode) ev i s' (.acting d')) := by
  have hpass : ∀ {c : Config} {s : Shared} {d : Decision}, d.tier.acts = false ∨ d.isDryRun = true →
      advance c ev i s (.acting d) = some (.pass, s, .leaving) := by
    intro c s d hd
    unfold advance
    simp only
    split
    · rename_i hhard
      rcases hd with hidle | hdry
      · rw [hhard] at hidle
        cases hidle
      · rw [if_pos hdry]
    · rename_i hsoft
      rcases hd with hidle | hdry
      · rw [hsoft] at hidle
        cases hidle
      · rw [if_pos hdry]
    · rfl
  have hdry : ∀ t, Decision.isDryRun ⟨t, dryRunReason⟩ = true := fun t =>
    (by decide : (lit "DRY-RUN").isPrefixOf dryRunReason = true)
  have hthreshold : ∀ t, Decision.isDryRun ⟨t, thresholdReason⟩ = false := fun t =>
    (by decide : (lit "DRY-RUN").isPrefixOf thresholdReason = false)
  have hleaving : SameStage .leaving .leaving := .same _ rfl
  cases h with
  | harmless d idle =>
    rw [hpass (.inl idle), hpass (.inl idle)]
    exact .some ⟨.same .pass rfl, hs, hleaving⟩
  | denied t acts =>
    rw [hpass (.inl rfl), hpass (.inr (hdry t))]
    exact .some ⟨.same .pass rfl, hs, hleaving⟩
  | granted t acts =>
    rw [hpass (c := cfg.enforcing mode) (.inr (hdry t))]
    unfold advance
    simp only [hthreshold, Bool.false_eq_true, if_false]
    cases t with
    | hard =>
      refine .some ⟨.kill _, hs, ?_⟩
      show SameStage (if ev.label = .connect then .isolating else .leaving) .leaving
      split
      · exact .isolating
      · exact hleaving
    | soft => exact .some ⟨.pause _, hs, hleaving⟩
    | log | alert => cases acts

/-- Stages that correspond are left alike, but for the call of `IsolateIP`. -/
theorem advance_same (hlive : cfg.policy.enforceMode = lit "live") (hmode : mode ≠ lit "live") {s s' : Shared}
    (hs : SameState s s') {stage stage' : Stage} (h : SameStage stage stage') (hne : stage ≠ .isolating) (i : Input) :
    Option.Rel Answers (advance cfg ev i s stage) (advance (cfg.enforcing mode) ev i s' stage') := by
  cases h with
  | isolating => exact absurd rfl hne
  | acting foreseen => exact advance_acting foreseen hs i
  | decided ta foreseen =>
    exact .some (answers_audit hs (fun err => .audit ev i.instant ta.threatScore err foreseen) (.acting foreseen))
  | same stage without =>
    by_cases hassessed : ∃ ta, stage = .assessed ta
    · obtain ⟨ta, rfl⟩ := hassessed
      obtain ⟨stamps, logger, logged⟩ := hs
      have hforeseen := foreseen_evaluate hlive hmode (s.clock + i.elapsed) ev.comm ta.threatScore.toInt s.stamps stamps
      exact .some ⟨.evaluate _ _ _ _ hforeseen, .mk _ _ logger logged, .decided ta hforeseen⟩
    by_cases hlimited : stage = .limited
    · subst hlimited
      exact .some (answers_audit hs (fun err => .same _ rfl) (.same .returned rfl))
    obtain ⟨stamps, logger, logged⟩ := hs
    have hstep := @advance_withoutDecision cfg ev mode stage without (fun ta h => hassessed ⟨ta, h⟩) hlimited i s stamps
      logger
    rw [hstep]
    cases hadv : advance cfg ev i s stage with
    | none => exact .none
    | some p =>
      obtain ⟨a, s₁, stage₁⟩ := p
      have hacts := acts_of_advance hadv
      refine .some ⟨.same a ?_, .mk s₁ stamps logger (logged.trans (acts_auditLogger hacts).symm), .same stage₁ ?_⟩
      all_goals
        cases hacts <;> first | rfl | exact absurd rfl hlimited | exact absurd ⟨_, rfl⟩ hassessed | cases without

/-! ## Runs -/

theorem forall_same {p : Job → Prop} (hp : ∀ j j', SameJob j j' → (p j ↔ p j')) {js js' : List Job}
    (h : List.Forall₂ SameJob js js') : (∀ j ∈ js, p j) ↔ ∀ j ∈ js', p j := by
  induction h with
  | nil => exact ⟨fun _ => nofun, fun _ => nofun⟩
  | cons hhead _ ih => rw [List.forall_mem_cons, List.forall_mem_cons, hp _ _ hhead, ih]

theorem event_of_same {j j' : Job} (h : SameJob j j') : j'.event = j.event := congrArg KernelRecord.event h.record

/-- A reader is as free in the one run as in the other. -/
theorem admits_same {js js' : List Job} (h : List.Forall₂ SameJob js js') (j : Job) :
    (program cfg).admits js j ↔ (program (cfg.enforcing mode)).admits js' j := by
  refine and_congr_right fun _ => forall_same (fun j₁ j₁' hj => ?_) h
  rw [event_of_same hj, inHandler_of_same hj.stage]

theorem sameJob_received {j : Job} (h : j.stage = .received) : SameJob j j where
  record := rfl
  stage := by
    rw [h]
    exact .same _ rfl

theorem next_eq_some {i : Input} {s s' : Shared} {j j' : Job} {a : Action} : (program cfg).next i s j = some (a, s', j') ↔
    advance cfg j.event i s j.stage = some (a, s', j'.stage) ∧ j'.record = j.record := by
  constructor
  · intro h
    obtain ⟨⟨a, s', stage⟩, hadv, heq⟩ := Option.map_eq_some_iff.1 h
    cases heq
    exact ⟨hadv, rfl⟩
  · rintro ⟨hadv, hrecord⟩
    show (advance cfg j.event i s j.stage).map _ = _
    rw [hadv]
    obtain ⟨record, stage⟩ := j'
    cases hrecord
    rfl

theorem stage_leaving {j j' : Job} (h : SameJob j j') (hiso : j.stage = .isolating) : j'.stage = .leaving := by
  have hstage := h.stage
  rw [hiso] at hstage
  generalize j'.stage = stage' at hstage
  cases hstage with
  | same _ without => cases without
  | isolating => rfl

section Modes

variable (hlive : cfg.policy.enforceMode = lit "live") (hmode : mode ≠ lit "live")
include hlive hmode

theorem dryRun_simulates_live :
    Simulates (program cfg) (program (cfg.enforcing mode)) SameState SameJob Previewed where
  start js js' j h hadm := ⟨j, (admits_same h j).1 hadm, sameJob_received hadm.1⟩
  next i s s' j j' a s₁ j₁ hs hj hnext := by
    obtain ⟨hadv, hrecord⟩ := next_eq_some.1 hnext
    by_cases hiso : j.stage = .isolating
    · -- nothing is done instead of isolating
      rw [hiso] at hadv
      injection hadv with hadv
      rw [Prod.mk.injEq, Prod.mk.injEq] at hadv
      obtain ⟨rfl, rfl, hleaving⟩ := hadv
      refine ⟨[], s', j', .nil _ _, hs, ⟨hj.record.trans hrecord.symm, ?_⟩, .single (.isolate _)⟩
      rw [← hleaving, stage_leaving hj hiso]
      exact .same _ rfl
    · have hrel : Option.Rel Answers (advance cfg j.event i s j.stage)
          (advance (cfg.enforcing mode) j.event i s' j'.stage) := advance_same hlive hmode hs hj.stage hiso i
      rw [hadv] at hrel
      generalize hadv' : advance (cfg.enforcing mode) j.event i s' j'.stage = o at hrel
      cases hrel with
      | @some _ p' hanswer =>
        rw [← event_of_same hj] at hadv'
        exact ⟨[p'.1], p'.2.1, ⟨j'.record, p'.2.2⟩, .single i (next_eq_some.2 ⟨hadv', rfl⟩), hanswer.state,
          ⟨hj.record.trans hrecord.symm, hanswer.stage⟩, .single hanswer.action⟩

theorem live_simulates_dryRun : Simulates (program (cfg.enforcing mode)) (program cfg) (fun s s' => SameState s' s)
    (fun j j' => SameJob j' j) fun c c' => Previewed c' c where
  start js js' j h hadm := ⟨j, (admits_same h.flip j).2 hadm, sameJob_received hadm.1⟩
  next i s' s j' j a s₁' j₁' hs hj hnext := by
    obtain ⟨hadv, hrecord⟩ := next_eq_some.1 hnext
    by_cases hiso : j.stage = .isolating
    · -- the live run has to isolate before its slot is free
      rw [stage_leaving hj hiso] at hadv
      injection hadv with hadv
      rw [Prod.mk.injEq, Prod.mk.injEq] at hadv
      obtain ⟨rfl, rfl, hreturned⟩ := hadv
      have hisolate : (program cfg).next i s j =
          some (.isolate (isolatedIP j.event.detail), s, ⟨j.record, .leaving⟩) := by
        refine next_eq_some.2 ⟨?_, rfl⟩
        rw [hiso]
        rfl
      have hrelease : (program cfg).next i s ⟨j.record, .leaving⟩ =
          some (.release, { s with slots := s.slots - 1 }, ⟨j.record, .returned⟩) := rfl
      have hchunks : Chunked (fun c' c => Previewed c c') ([] ++ [Action.release])
          ([.isolate (isolatedIP j.event.detail)] ++ [.release]) :=
        .append (.single (.isolate _)) (.single (.same .release rfl))
      refine ⟨_, _, _, .cons i hisolate (.single i hrelease), ?_, ⟨hrecord.trans hj.record, ?_⟩, hchunks⟩
      · obtain ⟨stamps, logger, logged⟩ := hs
        exact .mk { s with slots := s.slots - 1 } stamps logger logged
      · rw [← hreturned]
        exact .same _ rfl
    · have hrel : Option.Rel Answers (advance cfg j.event i s j.stage)
          (advance (cfg.enforcing mode) j.event i s' j'.stage) := advance_same hlive hmode hs hj.stage hiso i
      rw [event_of_same hj] at hadv
      rw [hadv] at hrel
      generalize hadv' : advance cfg j.event i s j.stage = o at hrel
      cases hrel with
      | @some p _ hanswer =>
        exact ⟨[p.1], p.2.1, ⟨j.record, p.2.2⟩, .single i (next_eq_some.2 ⟨hadv', rfl⟩), hanswer.state,
          ⟨hrecord.trans hj.record, hanswer.stage⟩, .single hanswer.action⟩

end Modes

/-- Every live run has a dry run that goes as it does, and every dry run is that of a live run: the same events come to
the same stages, in states that are the same but for the budget and the audit trail; what is decided is foreseen, what
is recorded says so, and nothing is done to any process or address. -/
theorem dryRun_previews (hlive : cfg.policy.enforceMode = lit "live") (hmode : mode ≠ lit "live")
    {baseline : Option Bytes} {logger : Option Logger} {clock : Int} {s₀ : Shared}
    (h₀ : start cfg baseline logger clock = some s₀) :
    (∀ w, Reachable (program cfg) s₀ w → ∃ w', Reachable (program (cfg.enforcing mode)) s₀ w' ∧
      Alike SameState SameJob Previewed w w') ∧
    (∀ w', Reachable (program (cfg.enforcing mode)) s₀ w' → ∃ w, Reachable (program cfg) s₀ w ∧
      Alike SameState SameJob Previewed w w') ∧
    start (cfg.enforcing mode) baseline logger clock = some s₀ ∧
    ∀ w w' : World, Alike SameState SameJob Previewed w w' → ∀ p ∈ w'.trace, p.2.enforces = false := by
  have hsame : SameState s₀ s₀ := .mk s₀ s₀.stamps s₀.auditLogger rfl
  refine ⟨fun w hw => (dryRun_simulates_live hlive hmode).run hsame hw, fun w' hw' => ?_, h₀, fun w w' h => ?_⟩
  · obtain ⟨w, hw, halike⟩ := (live_simulates_dryRun hlive hmode).run hsame hw'
    exact ⟨w, hw, halike.flip⟩
  · refine h.trace.forall_right ?_
    rintro l l' ⟨k, c, c', rfl, rfl, hc⟩ p hp
    obtain ⟨a, ha, rfl⟩ := List.mem_map.1 hp
    exact quiet_of_previewed hc a ha

/-- The run in which the beacon is killed has a dry run in which it is not. -/
theorem dryRun_previews_beacon : ∃ w w' : World, enforced (history 0 w.trace) = true ∧
    Alike SameState SameJob Previewed w w' ∧ ∀ p ∈ w'.trace, p.2.enforces = false := by
  have hrun : ((start liveConfig none none 0).any fun s =>
      (exec (program liveConfig) { shared := s } beaconMoves).any fun w => enforced (history 0 w.trace)) = true := by
    decide +kernel
  obtain ⟨s₀, w, h₀, hw, henforced⟩ := reachable_of_exec hrun
  obtain ⟨hdry, -, -, hquiet⟩ := dryRun_previews rfl (by decide : lit "dry-run" ≠ lit "live") h₀
  obtain ⟨w', -, halike⟩ := hdry w hw
  exact ⟨w, w', henforced, halike, hquiet w w' halike⟩

end WatchBPF.Agent
