/-
The guard before the LLM. It counts escalated events by minutes that start at its resets, so at most
fifty pass between two resets; sixty seconds that hold a reset can have as many before it as after it,
unless the arrivals leave a gap there.
-/
import WatchBPF.Agent.Handle
import WatchBPF.Lib.Gaps
import Mathlib.Algebra.Order.Archimedean.Real.Basic

namespace WatchBPF.Agent

open WatchBPF.FixedWindow WatchBPF.Tasks

/-- `time.Minute` -/
def minute : Int := 60 * 10 ^ 9

/-- The times at which escalated events pass the guard and are dispatched; for each event the clock
readings of `time.Since` and `time.Now`. -/
def passGuard : Nat → Int → List (Int × Int) → List Int
  | _, _, [] => []
  | escalationCount, escalationWindow, (now, now') :: events =>
    let (escalationCount, escalationWindow) := countEscalation now now' escalationCount escalationWindow
    let overLimit := escalationCount > 50
    if overLimit then passGuard escalationCount escalationWindow events
    else now :: passGuard escalationCount escalationWindow events

theorem countEscalation_eq_tick (now now' : Int) (count : Nat) (window : Int) :
    countEscalation now now' count window = tick minute now now' count window := rfl

theorem passGuard_eq_passing : ∀ (count : Nat) (window : Int) (events : List (Int × Int)),
    passGuard count window events = passing minute 50 count window events
  | _, _, [] => rfl
  | count, window, (now, now') :: events => by
    rw [passGuard, passing, countEscalation_eq_tick]
    simp only [passGuard_eq_passing, gt_iff_lt, ← not_le, ite_not]

/-! ## Any sixty seconds -/

/-- The sixty seconds from `T` on, both ends included. -/
def Within (T : ℝ) (t : Int) : Prop := T ≤ t ∧ t ≤ T + minute

theorem within_le {T : ℝ} {s t : Int} (hs : Within T s) (ht : Within T t) : t - s ≤ minute := by
  have h := sub_le_sub ht.2 hs.1
  rw [add_sub_cancel_left] at h
  exact_mod_cast h

open Classical in
/-- In no sixty seconds more than fifty events are dispatched exactly when the arrivals leave a gap wherever the count
starts anew: the first fifty since it last started come more than sixty seconds before those that pass fifty later. -/
theorem dispatched_le_iff {window : Int} {events : List (Int × Int)} (h : Clocked window events) :
    (∀ T : ℝ, (passGuard 0 window events).countP (fun t => Within T t) ≤ 50) ↔ Gapped minute 50 window events := by
  have hle : ∀ (T : ℝ) (s t : Int), decide (Within T s) = true → decide (Within T t) = true → t - s ≤ minute :=
    fun T s t hs ht => within_le (of_decide_eq_true hs) (of_decide_eq_true ht)
  have hfrom : ∀ s t : Int, t - s ≤ minute → ∃ T : ℝ, ∀ x : Int, s ≤ x → x ≤ t → decide (Within T x) = true := by
    refine fun s t hst => ⟨s, fun x hs hx => decide_eq_true ⟨Int.cast_le.2 hs, ?_⟩⟩
    exact_mod_cast (show x ≤ s + minute by omega)
  rw [passGuard_eq_passing]
  exact countP_passing_le_iff_gapped (by decide) hle hfrom h

open Classical in
/-- Two arrivals leave no fifty-first. -/
theorem dispatched_le_iff_pair : Clocked 0 [(1, 1), (2 * minute, 2 * minute)] ∧
    ∀ T : ℝ, (passGuard 0 0 [(1, 1), (2 * minute, 2 * minute)]).countP (fun t => Within T t) ≤ 50 := by
  have hclocked : Clocked 0 [(1, 1), (2 * minute, 2 * minute)] := by decide
  refine ⟨hclocked, (dispatched_le_iff hclocked).2 fun v early e rest ho _ _ k _ s _ t ht => ?_⟩
  have hle := ho.length_le
  obtain ⟨hlt, -⟩ := List.getElem?_eq_some_iff.1 ht
  rw [List.length_cons, List.length_cons, List.length_nil] at hle
  omega

/-- Fifty events a minute after the start, and fifty a nanosecond later. -/
def burst : List (Int × Int) :=
  List.replicate 50 (minute, minute) ++ List.replicate 50 (minute + 1, minute + 1)

/-- All hundred are dispatched. -/
theorem dispatched_burst : Clocked 0 burst ∧
    open Classical in (passGuard 0 0 burst).countP (fun t => Within minute t) = 100 := by
  have hpass : passGuard 0 0 burst = List.replicate 50 minute ++ List.replicate 50 (minute + 1) := by decide +kernel
  have hfirst : Within minute minute := ⟨le_rfl, by norm_num [minute]⟩
  have hlast : Within minute (minute + 1) := ⟨by norm_num [minute], by norm_num [minute]⟩
  refine ⟨by decide +kernel, ?_⟩
  rw [hpass, List.countP_append, List.countP_replicate, List.countP_replicate]
  simp [hfirst, hlast]

open Classical in
/-- In no sixty seconds are more than a hundred events dispatched. -/
theorem dispatched_le_hundred {window : Int} {events : List (Int × Int)} (h : Clocked window events) (T : ℝ) :
    (passGuard 0 window events).countP (fun t => Within T t) ≤ 100 := by
  rw [passGuard_eq_passing]
  exact countP_passing_le h fun s t hs ht => within_le (of_decide_eq_true hs) (of_decide_eq_true ht)

/-! ## The guard in a run -/

def Action.reading : Action → Option (Int × Int × Nat)
  | guard now now' count => some (now, now', count)
  | _ => none

/-- The clock readings of the escalated events of a trace, and the counts they got. -/
def readings (trace : List (Nat × Action)) : List (Int × Int × Nat) := trace.filterMap fun p => p.2.reading

/-- The guard after the escalations so far. -/
structure GuardInv (window : Int) (rs : List (Int × Int × Nat)) (s : Shared) : Prop where
  clocked : Clocked window (rs.map fun r => (r.1, r.2.1))
  start : window ≤ s.clock
  last : ∀ r ∈ rs, r.2.1 ≤ s.clock
  state : ticks minute (rs.map fun r => (r.1, r.2.1)) (0, window) = (s.escalationCount, s.escalationWindow)
  passed : (rs.filter fun r => r.2.2 ≤ 50).map (·.1) = passGuard 0 window (rs.map fun r => (r.1, r.2.1))

/-- An action reads the clock for the guard, or leaves the guard alone while time goes on. -/
theorem acts_guard {cfg : Config} {ev : Event} {s s' : Shared} {stage stage' : Stage} {a : Action}
    (h : Acts cfg ev s stage a s' stage') :
    (∃ now now' count window, a = .guard now now' count ∧ s.clock ≤ now ∧ now ≤ now' ∧ s'.clock = now' ∧
      countEscalation now now' s.escalationCount s.escalationWindow = (count, window) ∧
      s'.escalationCount = count ∧ s'.escalationWindow = window) ∨
    (a.reading = none ∧ s.clock ≤ s'.clock ∧ s'.escalationCount = s.escalationCount ∧
      s'.escalationWindow = s.escalationWindow) := by
  have haudit : ∀ call io, (auditWith call io s).1.reading = none ∧ s.clock ≤ (auditWith call io s).2.clock ∧
      (auditWith call io s).2.escalationCount = s.escalationCount ∧
      (auditWith call io s).2.escalationWindow = s.escalationWindow := by
    intro call io
    rcases auditWith_cases call io s with ⟨-, h⟩ | ⟨l, -, h⟩ <;> (rw [h]; exact ⟨rfl, le_rfl, rfl, rfl⟩)
  cases h with
  | guard now now' count window since later counted =>
    exact .inl ⟨now, now', count, window, rfl, since, later, rfl, counted, rfl, rfl⟩
  | evaluate ta now d stamps since decides => exact .inr ⟨rfl, since, rfl, rfl⟩
  | auditLimited | auditDecision => exact .inr (haudit _ _)
  | _ => exact .inr ⟨rfl, le_rfl, rfl, rfl⟩

theorem GuardInv.step {window : Int} {rs : List (Int × Int × Nat)} {s s' : Shared} {cfg : Config} {ev : Event}
    {stage stage' : Stage} {a : Action} (h : GuardInv window rs s) (ha : Acts cfg ev s stage a s' stage') :
    GuardInv window (rs ++ a.reading.toList) s' := by
  rcases acts_guard ha with ⟨now, now', count, window', rfl, since, later, hclock, counted, hcount, hwindow⟩ |
    ⟨hnone, hclock, hcount, hwindow⟩
  · have hstate : tick minute now now' s.escalationCount s.escalationWindow = (count, window') := counted
    have hmap : (rs ++ (Action.guard now now' count).reading.toList).map (fun r => (r.1, r.2.1)) =
        rs.map (fun r => (r.1, r.2.1)) ++ [(now, now')] := by simp [Action.reading]
    constructor
    · rw [hmap]
      refine h.clocked.snoc (h.start.trans since) (fun e he => ?_) later
      obtain ⟨r, hr, rfl⟩ := List.mem_map.1 he
      exact (h.last r hr).trans since
    · exact hclock ▸ (h.start.trans since).trans later
    · intro r hr
      rw [hclock]
      rcases List.mem_append.1 hr with hr | hr
      · exact ((h.last r hr).trans since).trans later
      · rw [List.mem_singleton.1 hr]
    · rw [hmap, ticks_snoc, h.state, hcount, hwindow]
      exact hstate
    · rw [hmap, passGuard_eq_passing, passing_snoc, ← passGuard_eq_passing, ← h.passed, h.state, hstate,
        List.filter_append, List.map_append]
      congr 1
      show List.map _ (List.filter _ [(now, now', count)]) = _
      by_cases hle : count ≤ 50
      · rw [if_pos hle, List.filter_cons_of_pos (by simpa using hle)]
        rfl
      · rw [if_neg hle, List.filter_cons_of_neg (by simpa using hle)]
        rfl
  · rw [hnone, Option.toList_none, List.append_nil]
    exact ⟨h.clocked, h.start.trans hclock, fun r hr => (h.last r hr).trans hclock,
      by rw [h.state, hcount, hwindow], h.passed⟩

/-- In a run the guard lets pass what it does on the sequence of escalations of that run. -/
theorem passed_of_reachable {cfg : Config} {baseline : Option Bytes} {logger : Option Audit.Logger} {clock : Int}
    {s₀ : Shared} {w : World} (h₀ : start cfg baseline logger clock = some s₀) (h : Reachable (program cfg) s₀ w) :
    GuardInv clock (readings w.trace) w.shared := by
  have hstart : s₀.clock = clock ∧ s₀.escalationCount = 0 ∧ s₀.escalationWindow = clock := by
    rw [eq_of_start h₀]
    exact ⟨rfl, rfl, rfl⟩
  induction h with
  | refl =>
    obtain ⟨hclock, hcount, hwindow⟩ := hstart
    exact ⟨trivial, hclock.ge, by simp [readings], by rw [hcount, hwindow]; rfl, rfl⟩
  | tail _ hstep ih =>
    cases hstep with
    | start => exact ih
    | act k j i a s' j' _ hnext =>
      have hread : ∀ tr : List (Nat × Action), readings (tr ++ [(k, a)]) = readings tr ++ a.reading.toList := by
        intro tr
        cases ha : a.reading <;> simp [readings, ha]
      rw [hread]
      exact ih.step (acts_of_next hnext).2

end WatchBPF.Agent
