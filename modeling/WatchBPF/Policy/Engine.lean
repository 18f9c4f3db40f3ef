/-
The policy engine: a score becomes a tier, and three guardrails stand between a tier and an action.
Which decisions take a grant of the rate limiter, and how a live action is told from all others by
the text of its reason.
-/
import WatchBPF.Lib.Strconv

namespace WatchBPF.Policy

open WatchBPF.Utf8 WatchBPF.Strconv

/-- How strongly an event is answered. -/
inductive Tier
  | log
  | alert
  | soft
  | hard
  deriving DecidableEq

/-- The tier as it is logged. -/
def Tier.text : Tier → Bytes
  | log => lit "log"
  | alert => lit "alert"
  | soft => lit "soft_action"
  | hard => lit "hard_action"

/-- What `Evaluate` returns: a tier, and why. -/
structure Decision where
  tier : Tier
  reason : Bytes
  deriving DecidableEq

/-- What `NewEngine` is given; `isPrint` is the table behind `%q`. -/
structure Config where
  enforceMode : Bytes
  protectedComms : List Bytes
  maxActionsPerWindow : Int
  thresholdAlert : Int
  thresholdSoft : Int
  thresholdHard : Int
  isPrint : Nat → Bool

/-- What changes in an engine: `actionTimestamps`, in nanoseconds. -/
abbrev Timestamps := List Int

/-- `actionWindow`, one minute. -/
def actionWindow : Int := 60 * 10 ^ 9

/-- `allowAction` -/
def allowAction (cfg : Config) (now : Int) (stamps : Timestamps) : Bool × Timestamps :=
  let filtered := stamps.filter fun t => now - actionWindow < t
  if (filtered.length : Int) ≥ cfg.maxActionsPerWindow then (false, filtered) else (true, filtered ++ [now])

/-- The tier of a score, before the guardrails. -/
def scoreTier (cfg : Config) (score : Int) : Tier :=
  if score ≥ cfg.thresholdHard then .hard
  else if score ≥ cfg.thresholdSoft then .soft
  else if score ≥ cfg.thresholdAlert then .alert
  else .log

def protectedReason (cfg : Config) (comm : Bytes) (tier : Tier) : Bytes :=
  lit "process " ++ quote cfg.isPrint comm ++ lit " is on protected list — downgraded from " ++ tier.text ++
    lit " to alert"

def dryRunReason : Bytes := lit "DRY-RUN: would have taken this action, but enforcement is not live"

def limitReason : Bytes := lit "rate limit exceeded — downgraded to alert to prevent action storm"

def thresholdReason : Bytes := lit "threshold-based decision"

/-- A tier that calls for an action. -/
def Tier.acts (t : Tier) : Bool := t == .hard || t == .soft

/-- `Evaluate`, at the time `now` when it asks the limiter. -/
def evaluate (cfg : Config) (now : Int) (comm : Bytes) (score : Int) (stamps : Timestamps) : Decision × Timestamps :=
  let tier := scoreTier cfg score
  if comm ∈ cfg.protectedComms ∧ tier.acts then (⟨.alert, protectedReason cfg comm tier⟩, stamps)
  else if cfg.enforceMode ≠ lit "live" ∧ tier.acts then (⟨tier, dryRunReason⟩, stamps)
  else if tier.acts then
    match allowAction cfg now stamps with
    | (false, stamps) => (⟨.alert, limitReason⟩, stamps)
    | (true, stamps) => (⟨tier, thresholdReason⟩, stamps)
  else (⟨tier, thresholdReason⟩, stamps)

/-- Whether an evaluation takes a grant: it asks the limiter, which allows it. -/
def grants (cfg : Config) (now : Int) (comm : Bytes) (score : Int) (stamps : Timestamps) : Bool :=
  (scoreTier cfg score).acts && comm ∉ cfg.protectedComms && cfg.enforceMode == lit "live" &&
    (allowAction cfg now stamps).1

/-- `strings.HasPrefix(decision.Reason, "DRY-RUN")` -/
def Decision.isDryRun (d : Decision) : Bool := (lit "DRY-RUN").isPrefixOf d.reason

/-- A decision that is carried out. -/
def Decision.live (d : Decision) : Bool := d.tier.acts && !d.isDryRun

/-! ## What an evaluation can decide -/

/-- The ways out of `Evaluate`. -/
inductive Outcome (cfg : Config) (now : Int) (comm : Bytes) (score : Int) (stamps : Timestamps) :
    Decision → Timestamps → Prop
  | shielded (listed : comm ∈ cfg.protectedComms) (acts : (scoreTier cfg score).acts = true) :
      Outcome cfg now comm score stamps ⟨.alert, protectedReason cfg comm (scoreTier cfg score)⟩ stamps
  | dryRun (dry : cfg.enforceMode ≠ lit "live") (acts : (scoreTier cfg score).acts = true) :
      Outcome cfg now comm score stamps ⟨scoreTier cfg score, dryRunReason⟩ stamps
  | limited (denied : (allowAction cfg now stamps).1 = false) :
      Outcome cfg now comm score stamps ⟨.alert, limitReason⟩ (allowAction cfg now stamps).2
  | granted (unlisted : comm ∉ cfg.protectedComms) (live : cfg.enforceMode = lit "live")
      (acts : (scoreTier cfg score).acts = true) (allowed : (allowAction cfg now stamps).1 = true) :
      Outcome cfg now comm score stamps ⟨scoreTier cfg score, thresholdReason⟩ (allowAction cfg now stamps).2
  | harmless (idle : (scoreTier cfg score).acts = false) :
      Outcome cfg now comm score stamps ⟨scoreTier cfg score, thresholdReason⟩ stamps

theorem evaluate_outcome (cfg : Config) (now : Int) (comm : Bytes) (score : Int) (stamps : Timestamps) :
    Outcome cfg now comm score stamps (evaluate cfg now comm score stamps).1 (evaluate cfg now comm score stamps).2 := by
  unfold evaluate
  cases hacts : (scoreTier cfg score).acts with
  | false =>
    simp only [hacts, Bool.false_eq_true, and_false, if_false]
    exact .harmless hacts
  | true =>
    simp only [hacts, and_true, if_true]
    split
    · exact .shielded ‹_› hacts
    · split
      · exact .dryRun ‹_› hacts
      · have hlive : cfg.enforceMode = lit "live" := not_not.1 ‹_›
        cases hallow : allowAction cfg now stamps with
        | mk allowed stamps' =>
          cases allowed with
          | false =>
            have h : Outcome cfg now comm score stamps ⟨.alert, limitReason⟩ (allowAction cfg now stamps).2 :=
              .limited (by rw [hallow])
            rwa [hallow] at h
          | true =>
            have h : Outcome cfg now comm score stamps ⟨scoreTier cfg score, thresholdReason⟩
                (allowAction cfg now stamps).2 := .granted ‹_› hlive hacts (by rw [hallow])
            rwa [hallow] at h

theorem scoreTier_hard {cfg : Config} {score : Int} : scoreTier cfg score = .hard ↔ cfg.thresholdHard ≤ score := by
  unfold scoreTier
  repeat' split
  all_goals (simp; try omega)

theorem scoreTier_soft {cfg : Config} {score : Int} :
    scoreTier cfg score = .soft ↔ cfg.thresholdSoft ≤ score ∧ score < cfg.thresholdHard := by
  unfold scoreTier
  repeat' split
  all_goals (simp; try omega)

theorem grants_eq_true {cfg : Config} {now : Int} {comm : Bytes} {score : Int} {stamps : Timestamps} :
    grants cfg now comm score stamps = true ↔ (scoreTier cfg score).acts = true ∧ comm ∉ cfg.protectedComms ∧
      cfg.enforceMode = lit "live" ∧ (allowAction cfg now stamps).1 = true := by
  simp [grants, and_assoc]

/-- A decision is carried out exactly when its evaluation took a grant; its tier is then that of the
score. -/
theorem live_evaluate (cfg : Config) (now : Int) (comm : Bytes) (score : Int) (stamps : Timestamps) :
    (evaluate cfg now comm score stamps).1.live = grants cfg now comm score stamps ∧
      (grants cfg now comm score stamps = true →
        (evaluate cfg now comm score stamps).1 = ⟨scoreTier cfg score, thresholdReason⟩) := by
  have hdry : Decision.isDryRun ⟨scoreTier cfg score, dryRunReason⟩ = true := by
    show (lit "DRY-RUN").isPrefixOf dryRunReason = true
    decide
  have hthr : Decision.isDryRun ⟨scoreTier cfg score, thresholdReason⟩ = false := by
    show (lit "DRY-RUN").isPrefixOf thresholdReason = false
    decide
  have ho := evaluate_outcome cfg now comm score stamps
  generalize (evaluate cfg now comm score stamps).2 = stamps' at ho
  generalize (evaluate cfg now comm score stamps).1 = d at ho
  cases ho with
  | shielded listed acts => simp [Decision.live, Tier.acts, grants, listed]
  | dryRun dry acts => simp [Decision.live, hdry, grants, dry]
  | limited denied => simp [Decision.live, Tier.acts, grants, denied]
  | granted unlisted live acts allowed => simp [Decision.live, hthr, grants, unlisted, live, acts, allowed]
  | harmless idle => simp [Decision.live, grants, idle]

theorem valid_tier_text (t : Tier) : valid t.text = true := by cases t <;> decide

/-- The text of a decision is valid UTF-8, whatever the process is called. -/
theorem valid_reason (cfg : Config) (now : Int) (comm : Bytes) (score : Int) (stamps : Timestamps) :
    valid (evaluate cfg now comm score stamps).1.reason = true := by
  have hdry : valid dryRunReason = true := by decide
  have hlimit : valid limitReason = true := by decide
  have hthr : valid thresholdReason = true := by decide
  have ho := evaluate_outcome cfg now comm score stamps
  generalize (evaluate cfg now comm score stamps).2 = stamps' at ho
  generalize (evaluate cfg now comm score stamps).1 = d at ho
  cases ho with
  | shielded listed acts =>
    exact valid_append (valid_append (valid_append (valid_append (by decide) (valid_quote _ _)) (by decide))
      (valid_tier_text _)) (by decide)
  | dryRun => exact hdry
  | limited => exact hlimit
  | granted | harmless => exact hthr

end WatchBPF.Policy
