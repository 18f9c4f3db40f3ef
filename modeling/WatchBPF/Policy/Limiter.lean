/-
The limiter of the policy engine over all its calls. `allowAction` as it works on its slice, what it
shares with a limiter that remembers every grant, and what that bounds: the grants in any minute and
the timestamps kept.
-/
import WatchBPF.Lib.Slice
import WatchBPF.Lib.Window
import WatchBPF.Policy.Engine
import Mathlib.Algebra.Order.Archimedean.Real.Basic

namespace WatchBPF.Policy

open WatchBPF.Window

/-! ## The slice -/

/-- `allowAction` on the slice `actionTimestamps`, filtered in place; `spare` is what a new backing
array has room for. -/
def allowActionInPlace (cfg : Config) (spare : List Int) (now : Int) (s : Slice Int) : Bool × Slice Int :=
  let cutoff := now - actionWindow
  let filtered := s.filterInPlace fun t => cutoff < t
  if (filtered.len : Int) ≥ cfg.maxActionsPerWindow then (false, filtered) else (true, filtered.append spare now)

/-- On the elements it is `allowAction`. -/
theorem allowActionInPlace_elems (cfg : Config) (spare : List Int) (now : Int) (s : Slice Int) :
    ((allowActionInPlace cfg spare now s).1, (allowActionInPlace cfg spare now s).2.elems) =
      allowAction cfg now s.elems := by
  have hlen := congrArg List.length (s.elems_filterInPlace fun t => now - actionWindow < t)
  rw [Slice.length_elems] at hlen
  unfold allowActionInPlace allowAction
  simp only [hlen]
  split
  · rw [Slice.elems_filterInPlace]
  · rw [Slice.elems_append, Slice.elems_filterInPlace]

theorem allowAction_eq_request (cfg : Config) (now : Int) (stamps : Timestamps) :
    allowAction cfg now stamps = request actionWindow cfg.maxActionsPerWindow now stamps := by
  unfold allowAction request
  by_cases h : ((recent actionWindow now stamps).length : Int) < cfg.maxActionsPerWindow
  · rw [if_pos h]
    exact if_neg (not_le.2 h)
  · rw [if_neg h]
    exact if_pos (not_lt.1 h)

/-! ## Runs -/

/-- Calls of `allowAction` on a new engine, with their answers, and the slice after them. -/
def allowActions (cfg : Config) (spare : List Int) (nows : List Int) : List (Int × Bool) × Slice Int :=
  nows.foldl (fun (calls, s) now =>
    let (ok, s) := allowActionInPlace cfg spare now s
    (calls ++ [(now, ok)], s)) ([], .nil)

/-- The engine answers, and keeps, what the limiter that prunes a list does. -/
theorem allowActions_eq (cfg : Config) (spare : List Int) (nows : List Int) :
    (allowActions cfg spare nows).1 = (requests actionWindow cfg.maxActionsPerWindow nows).1 ∧
      (allowActions cfg spare nows).2.elems = (requests actionWindow cfg.maxActionsPerWindow nows).2 := by
  induction nows using List.reverseRecOn with
  | nil => exact ⟨rfl, rfl⟩
  | append_singleton nows now ih =>
    have hstep := allowActionInPlace_elems cfg spare now (allowActions cfg spare nows).2
    rw [allowAction_eq_request, ih.2] at hstep
    rw [requests_snoc, History.request, ← hstep, ← ih.1]
    constructor <;> simp [allowActions]

/-- The allowed calls with a property of their times, as grants. -/
theorem countP_grants (p : Int → Prop) [DecidablePred p] (calls : List (Int × Bool)) :
    (calls.countP fun c => c.2 && p c.1) = ((Window.grants calls).filter fun t => p t).length := by
  rw [Window.grants, List.filter_map, List.length_map, List.filter_filter, List.countP_eq_length_filter]
  congr 2
  funext c
  exact Bool.and_comm _ _

open Classical in
/-- Over calls at non-decreasing times: a call is allowed if and only if fewer than the limit of the
earlier allowed calls are less than a minute old; no minute has more allowed calls than the limit; and
the slice holds the allowed calls of the last minute. -/
theorem allowActions_sliding (cfg : Config) (spare : List Int) {nows : List Int} (h : nows.Pairwise (· ≤ ·)) :
    (allowActions cfg spare nows).1.map (·.1) = nows ∧
    (∀ pre now ok post, (allowActions cfg spare nows).1 = pre ++ (now, ok) :: post →
      (ok = true ↔ ((pre.countP fun c => c.2 && now - actionWindow < c.1 : Nat) : Int) < cfg.maxActionsPerWindow)) ∧
    (∀ T : ℝ, (((allowActions cfg spare nows).1.countP fun c =>
      c.2 && ((T - actionWindow < c.1 ∧ c.1 ≤ T : Prop) : Bool) : Nat) : Int) ≤ max cfg.maxActionsPerWindow 0) ∧
    (∀ pre now, pre ++ [now] <+: nows → ((allowActions cfg spare (pre ++ [now])).2.len : Int) ≤
        max cfg.maxActionsPerWindow 0 ∧
      (allowActions cfg spare (pre ++ [now])).2.elems =
        ((allowActions cfg spare (pre ++ [now])).1.filter fun c => c.2 && now - actionWindow < c.1).map (·.1)) := by
  have hcalls := fun nows => (allowActions_eq cfg spare nows).1
  have hkept := fun nows => (allowActions_eq cfg spare nows).2
  refine ⟨?_, fun pre now ok post hc => ?_, fun T => ?_, fun pre now hp => ⟨?_, ?_⟩⟩
  · rw [hcalls]
    exact requests_times nows
  · rw [hcalls] at hc
    rw [granted_iff h hc, countP_grants]
    rfl
  · rw [hcalls, countP_grants (fun t : Int => T - actionWindow < t ∧ t ≤ T)]
    refine length_le_of_within h List.filter_sublist fun s hs t ht => ?_
    have hs := of_decide_eq_true (List.mem_filter.1 hs).2
    have ht := of_decide_eq_true (List.mem_filter.1 ht).2
    have hlt : (t : ℝ) - actionWindow < s := (sub_le_sub_right ht.2 _).trans_lt hs.1
    exact_mod_cast hlt
  · rw [← Slice.length_elems, hkept]
    exact length_kept_le _
  · rw [hkept, kept_eq (by decide) (h.sublist hp.sublist), hcalls, Window.grants, recent, List.filter_map,
      List.filter_filter]
    congr 1
    refine List.filter_congr fun c _ => ?_
    exact Bool.and_comm _ _

/-- One action a minute. -/
def sparing : Config :=
  { enforceMode := lit "live", protectedComms := [], maxActionsPerWindow := 1, thresholdAlert := 40,
    thresholdSoft := 70, thresholdHard := 90, isPrint := fun _ => false }

/-- A call after half a minute is denied and takes nothing from the next. -/
theorem allowActions_sliding_sparing :
    let nows := [0, 30 * 10 ^ 9, 60 * 10 ^ 9]
    (allowActions sparing [] nows).1 = [(0, true), (30 * 10 ^ 9, false), (60 * 10 ^ 9, true)] ∧
      (allowActions sparing [] nows).2.len ≤ 1 := by
  intro nows
  have hsorted : nows.Pairwise (· ≤ ·) := by decide
  obtain ⟨-, -, -, hkept⟩ := allowActions_sliding sparing [] hsorted
  exact ⟨by decide, Int.ofNat_le.1 (hkept [0, 30 * 10 ^ 9] (60 * 10 ^ 9) (List.prefix_refl _)).1⟩

end WatchBPF.Policy
