/-
The engine over all its calls, by the times of the calls that took a grant. They are the grants of a limiter that
is asked at the times of the calls that come to it, so that there are no more of them in any minute than the
configured number.
-/
import WatchBPF.Policy.Harmless

namespace WatchBPF.Policy

open WatchBPF.Window

variable {cfg : Config} {stamps : Timestamps}

/-- The timestamps after calls. -/
def engineAfter (cfg : Config) (stamps : Timestamps) (calls : List Call) : Timestamps :=
  calls.foldl (fun stamps c => (evaluate cfg c.now c.comm c.score stamps).2) stamps

/-- The times of the calls that take a grant. -/
def grantTimes (cfg : Config) : Timestamps → List Call → List Int
  | _, [] => []
  | stamps, c :: calls =>
    (if grants cfg c.now c.comm c.score stamps then [c.now] else []) ++
      grantTimes cfg (evaluate cfg c.now c.comm c.score stamps).2 calls

/-- The times at which the limiter is asked. -/
def askTimes (cfg : Config) (calls : List Call) : List Int :=
  (calls.filter fun c => asks cfg c.comm c.score).map (·.now)

theorem askTimes_eq_filterMap (calls : List Call) :
    askTimes cfg calls = calls.filterMap fun c => if asks cfg c.comm c.score then some c.now else none := by
  induction calls with
  | nil => rfl
  | cons c calls ih =>
    rw [List.filterMap_cons, ← ih, askTimes, List.filter_cons]
    split <;> rfl

/-! ## One more call -/

theorem engineAfter_snoc (calls : List Call) (c : Call) : engineAfter cfg stamps (calls ++ [c]) =
    (evaluate cfg c.now c.comm c.score (engineAfter cfg stamps calls)).2 := by
  simp [engineAfter]

theorem evaluations_snoc (c : Call) : ∀ (stamps : Timestamps) (calls : List Call),
    evaluations cfg stamps (calls ++ [c]) = evaluations cfg stamps calls ++
      [⟨(evaluate cfg c.now c.comm c.score (engineAfter cfg stamps calls)).1,
        grants cfg c.now c.comm c.score (engineAfter cfg stamps calls)⟩]
  | _, [] => rfl
  | stamps, c' :: calls => by
    rw [List.cons_append, evaluations_cons, evaluations_snoc c _ calls, evaluations_cons]
    rfl

theorem grantTimes_snoc (c : Call) : ∀ (stamps : Timestamps) (calls : List Call),
    grantTimes cfg stamps (calls ++ [c]) = grantTimes cfg stamps calls ++
      if grants cfg c.now c.comm c.score (engineAfter cfg stamps calls) then [c.now] else []
  | _, [] => List.append_nil _
  | stamps, c' :: calls => by
    rw [List.cons_append, grantTimes, grantTimes_snoc c _ calls, grantTimes, List.append_assoc]
    rfl

theorem askTimes_snoc (calls : List Call) (c : Call) :
    askTimes cfg (calls ++ [c]) = askTimes cfg calls ++ if asks cfg c.comm c.score then [c.now] else [] := by
  unfold askTimes
  rw [List.filter_append, List.map_append]
  cases h : asks cfg c.comm c.score <;> simp [h]

/-! ## The limiter behind the engine -/

/-- The engine keeps what the limiter keeps, and its grants are those of the limiter. -/
theorem engine_requests (cfg : Config) (calls : List Call) :
    engineAfter cfg [] calls = (requests actionWindow cfg.maxActionsPerWindow (askTimes cfg calls)).2 ∧
      grantTimes cfg [] calls = Window.grants (requests actionWindow cfg.maxActionsPerWindow (askTimes cfg calls)).1 := by
  induction calls using List.reverseRecOn with
  | nil => exact ⟨rfl, rfl⟩
  | append_singleton calls c ih =>
    obtain ⟨hkept, hgrants⟩ := ih
    rw [engineAfter_snoc, grantTimes_snoc, askTimes_snoc]
    cases hasks : asks cfg c.comm c.score with
    | true =>
      rw [if_pos rfl, requests_snoc, History.request, grants_append, ← hkept, ← hgrants, evaluate_of_asks hasks,
        grants_eq, hasks, Bool.true_and, allowAction_eq_request]
      refine ⟨rfl, congrArg _ ?_⟩
      cases hok : (request actionWindow cfg.maxActionsPerWindow c.now (engineAfter cfg [] calls)).1 <;>
        simp [Window.grants]
    | false =>
      obtain ⟨d, hd⟩ := evaluate_of_not_asks hasks
      have hno : grants cfg c.now c.comm c.score (engineAfter cfg [] calls) = false := by
        rw [grants_eq, hasks, Bool.false_and]
      rw [hd, hno, if_neg Bool.false_ne_true, List.append_nil, List.append_nil]
      exact ⟨hkept, hgrants⟩

open Classical in
/-- Over calls at non-decreasing times, no minute has more grants than the limit. -/
theorem countP_grantTimes_le (cfg : Config) {calls : List Call} (h : (calls.map Call.now).Pairwise (· ≤ ·)) (T : ℝ) :
    ((grantTimes cfg [] calls).countP fun t : Int => T - actionWindow < t ∧ t ≤ T : Nat) ≤
      max cfg.maxActionsPerWindow 0 := by
  have hasked : (askTimes cfg calls).Pairwise (· ≤ ·) :=
    h.sublist (List.Sublist.map _ List.filter_sublist)
  rw [(engine_requests cfg calls).2, List.countP_eq_length_filter]
  refine length_le_of_within hasked List.filter_sublist fun s hs t ht => ?_
  have hs := of_decide_eq_true (List.mem_filter.1 hs).2
  have ht := of_decide_eq_true (List.mem_filter.1 ht).2
  have hlt : (t : ℝ) - actionWindow < s := (sub_le_sub_right ht.2 _).trans_lt hs.1
  exact_mod_cast hlt

/-- Over calls at non-decreasing times, no choice of the calls that ask the limiter keeps the budget and has more of
them than took a grant. -/
theorem length_le_grantTimes (cfg : Config) {calls : List Call} (h : (calls.map Call.now).Pairwise (· ≤ ·))
    {chosen : List Int} (hs : chosen.Sublist (askTimes cfg calls))
    (hb : Budgeted actionWindow cfg.maxActionsPerWindow chosen) : chosen.length ≤ (grantTimes cfg [] calls).length := by
  have hasked : (askTimes cfg calls).Pairwise (· ≤ ·) := h.sublist (List.Sublist.map _ List.filter_sublist)
  rw [(engine_requests cfg calls).2]
  exact length_le_grants (by decide) hasked hs hb

end WatchBPF.Policy
