/-
Evaluations that take no grant. They prune the timestamps at most, so that a sequence of `Evaluate` calls
decides the same without any of them.
-/
import WatchBPF.Policy.Limiter

namespace WatchBPF.Policy

open WatchBPF.Window

/-! ## Sequences of calls -/

/-- A call of `Evaluate`, at the time `now` when it asks the limiter. -/
structure Call where
  now : Int
  comm : Bytes
  score : Int

/-- What a call decides, and whether it takes a grant. -/
structure Evaluation where
  decision : Decision
  granted : Bool
  deriving DecidableEq

def evaluations (cfg : Config) : Timestamps → List Call → List Evaluation
  | _, [] => []
  | stamps, c :: calls =>
    let evaluated := evaluate cfg c.now c.comm c.score stamps
    ⟨evaluated.1, grants cfg c.now c.comm c.score stamps⟩ :: evaluations cfg evaluated.2 calls

/-- The entries of a list that are marked to be kept. -/
def select {α : Type} : List Bool → List α → List α
  | true :: keep, a :: l => a :: select keep l
  | false :: keep, _ :: l => select keep l
  | _, _ => []

/-! ## One call -/

/-- Whether an evaluation comes to the limiter. -/
def asks (cfg : Config) (comm : Bytes) (score : Int) : Bool :=
  (scoreTier cfg score).acts && comm ∉ cfg.protectedComms && cfg.enforceMode == lit "live"

theorem grants_eq (cfg : Config) (now : Int) (comm : Bytes) (score : Int) (stamps : Timestamps) :
    grants cfg now comm score stamps = (asks cfg comm score && (allowAction cfg now stamps).1) := rfl

variable {cfg : Config} {now : Int} {comm : Bytes} {score : Int} {stamps stamps' : Timestamps}

theorem evaluate_of_asks (h : asks cfg comm score = true) (now : Int) (stamps : Timestamps) :
    evaluate cfg now comm score stamps =
      (if (allowAction cfg now stamps).1 then ⟨scoreTier cfg score, thresholdReason⟩ else ⟨.alert, limitReason⟩,
        (allowAction cfg now stamps).2) := by
  simp only [asks, Bool.and_eq_true, decide_eq_true_eq, beq_iff_eq] at h
  obtain ⟨⟨hacts, hlisted⟩, hlive⟩ := h
  unfold evaluate
  rw [if_neg (fun h => hlisted h.1), if_neg (fun h => h.1 hlive), if_pos hacts]
  cases allowAction cfg now stamps with
  | mk allowed kept => cases allowed <;> rfl

/-- An evaluation that does not come to the limiter decides by its arguments only. -/
theorem evaluate_of_not_asks (h : asks cfg comm score = false) :
    ∃ d, ∀ now stamps, evaluate cfg now comm score stamps = (d, stamps) := by
  unfold evaluate
  by_cases hlisted : comm ∈ cfg.protectedComms ∧ (scoreTier cfg score).acts
  · exact ⟨_, fun now stamps => by rw [if_pos hlisted]⟩
  · by_cases hdry : cfg.enforceMode ≠ lit "live" ∧ (scoreTier cfg score).acts
    · exact ⟨_, fun now stamps => by rw [if_neg hlisted, if_pos hdry]⟩
    · have hidle : ¬ (scoreTier cfg score).acts = true := by
        intro hacts
        rw [asks, hacts] at h
        simp only [Bool.true_and, Bool.and_eq_false_iff, decide_eq_false_iff_not, not_not, beq_eq_false_iff_ne] at h
        rcases h with hmem | hmode
        · exact hlisted ⟨hmem, hacts⟩
        · exact hdry ⟨hmode, hacts⟩
      exact ⟨_, fun now stamps => by rw [if_neg hlisted, if_neg hdry, if_neg hidle]⟩

/-- An engine is seen through the grants that are recent. -/
theorem evaluate_alike (cfg : Config) (comm : Bytes) (score : Int) (h : Alike actionWindow now stamps stamps') :
    (evaluate cfg now comm score stamps).1 = (evaluate cfg now comm score stamps').1 ∧
      grants cfg now comm score stamps = grants cfg now comm score stamps' ∧
      Alike actionWindow now (evaluate cfg now comm score stamps).2 (evaluate cfg now comm score stamps').2 := by
  obtain ⟨hsame, halike⟩ := h.request (m := cfg.maxActionsPerWindow)
  rw [← allowAction_eq_request, ← allowAction_eq_request] at hsame halike
  refine ⟨?_, by rw [grants_eq, grants_eq, hsame], ?_⟩
  · cases hasks : asks cfg comm score with
    | true => rw [evaluate_of_asks hasks, evaluate_of_asks hasks, hsame]
    | false =>
      obtain ⟨d, hd⟩ := evaluate_of_not_asks hasks
      rw [hd, hd]
  · cases hasks : asks cfg comm score with
    | true =>
      rw [evaluate_of_asks hasks, evaluate_of_asks hasks]
      exact halike
    | false =>
      obtain ⟨d, hd⟩ := evaluate_of_not_asks hasks
      rw [hd, hd]
      exact h

/-- Without a grant an evaluation leaves the engine as it was, as far as can be seen. -/
theorem alike_of_not_grants (h : grants cfg now comm score stamps = false) :
    Alike actionWindow now (evaluate cfg now comm score stamps).2 stamps := by
  cases hasks : asks cfg comm score with
  | true =>
    rw [grants_eq, hasks, Bool.true_and, allowAction_eq_request] at h
    rw [evaluate_of_asks hasks, allowAction_eq_request]
    exact alike_of_denied h
  | false =>
    obtain ⟨d, hd⟩ := evaluate_of_not_asks hasks
    rw [hd]
    exact Alike.refl now stamps

/-! ## Deleting calls -/

theorem evaluations_cons (cfg : Config) (stamps : Timestamps) (c : Call) (calls : List Call) :
    evaluations cfg stamps (c :: calls) =
      ⟨(evaluate cfg c.now c.comm c.score stamps).1, grants cfg c.now c.comm c.score stamps⟩ ::
        evaluations cfg (evaluate cfg c.now c.comm c.score stamps).2 calls := rfl

theorem evaluations_select_alike {calls : List Call} (hsorted : (calls.map Call.now).Pairwise (· ≤ ·)) :
    ∀ {keep : List Bool} {stamps stamps' : Timestamps}, keep.length = calls.length →
      (∀ c ∈ calls, Alike actionWindow c.now stamps stamps') →
      (∀ e ∈ select (keep.map not) (evaluations cfg stamps calls), e.granted = false) →
      evaluations cfg stamps' (select keep calls) = select keep (evaluations cfg stamps calls) := by
  induction calls with
  | nil =>
    intro keep stamps stamps' hlen _ _
    obtain rfl := List.length_eq_zero_iff.1 hlen
    rfl
  | cons c calls ih =>
    intro keep stamps stamps' hlen halike hdel
    obtain ⟨hle, hsorted⟩ := List.pairwise_cons.1 hsorted
    have hlater : ∀ d ∈ calls, c.now ≤ d.now := fun d hd => hle d.now (List.mem_map_of_mem hd)
    have hc := halike c List.mem_cons_self
    cases keep with
    | nil => cases hlen
    | cons k keep =>
      have hlen' : keep.length = calls.length := Nat.succ.inj hlen
      rw [evaluations_cons] at hdel ⊢
      cases k with
      | true =>
        obtain ⟨hdecision, hgranted, hnext⟩ := evaluate_alike cfg c.comm c.score hc
        rw [select, select, evaluations_cons, ← hdecision, ← hgranted,
          ih hsorted hlen' (fun d hd => hnext.later (hlater d hd)) hdel]
      | false =>
        -- the call left nothing behind that the later ones can see
        have hnone : grants cfg c.now c.comm c.score stamps = false := hdel _ List.mem_cons_self
        have hnext := (alike_of_not_grants hnone).trans hc
        exact ih hsorted hlen' (fun d hd => hnext.later (hlater d hd)) fun e he => hdel e (List.mem_cons_of_mem _ he)

/-- Over calls at non-decreasing times, on any engine: with calls left out that took no grant, each of the
others is decided as before, and takes a grant if it did. -/
theorem evaluations_select (cfg : Config) (stamps : Timestamps) {calls : List Call}
    (hsorted : (calls.map Call.now).Pairwise (· ≤ ·)) {keep : List Bool} (hlen : keep.length = calls.length)
    (hdel : ∀ e ∈ select (keep.map not) (evaluations cfg stamps calls), e.granted = false) :
    evaluations cfg stamps (select keep calls) = select keep (evaluations cfg stamps calls) :=
  evaluations_select_alike hsorted hlen (fun _ _ => Alike.refl _ _) hdel

/-- One action a minute: the first call takes it, the second is denied and left out, the third comes later. -/
theorem evaluations_select_denied :
    let cfg : Config :=
      { enforceMode := lit "live", protectedComms := [lit "sshd"], maxActionsPerWindow := 1, thresholdAlert := 40,
        thresholdSoft := 70, thresholdHard := 90, isPrint := fun _ => true }
    let calls : List Call := [⟨0, lit "nc", 95⟩, ⟨10 ^ 9, lit "nc", 95⟩, ⟨61 * 10 ^ 9, lit "nc", 95⟩]
    (evaluations cfg [] calls).map (·.granted) = [true, false, true] ∧
      evaluations cfg [] (select [true, false, true] calls) = select [true, false, true] (evaluations cfg [] calls) := by
  intro cfg calls
  exact ⟨by decide, evaluations_select cfg [] (by decide) rfl (by decide)⟩

end WatchBPF.Policy
