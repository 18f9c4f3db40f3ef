/-
Storms of events. What the guard lets pass in any number of minutes is fifty events for each of them and fifty
more, and only what it lets pass is dispatched; so that is all the LLM gets of a storm, in every run and wherever
the minutes start.
-/
import WatchBPF.Agent.Budget
import WatchBPF.Agent.Ledger

namespace WatchBPF.Agent

open WatchBPF.Audit WatchBPF.FixedWindow WatchBPF.Tasks

variable {cfg : Config} {ev : Event}

namespace Action

def dispatches : Action → Bool
  | dispatch => true
  | _ => false

/-- The event passes the guard. -/
def passes : Action → Bool
  | guard _ _ count => decide (count ≤ 50)
  | _ => false

end Action

/-- The `n` minutes from `T` on, both ends included. -/
def WithinMinutes (n : Nat) (T : ℝ) (t : Int) : Prop := T ≤ t ∧ t ≤ T + n * minute

/-- The event passed the guard within these minutes. -/
def PassedIn (n : Nat) (T : ℝ) (as : List Action) : Prop :=
  ∃ now now' count, .guard now now' count ∈ as ∧ count ≤ 50 ∧ WithinMinutes n T now

/-- Whether the event may still be dispatched, and has passed the guard for it. -/
def Stage.passed : Stage → Bool
  | guarded overLimit => !overLimit
  | _ => false

/-- A dispatch follows a passage, and happens once. -/
structure Dispatching (stage : Stage) (as : List Action) : Prop where
  passed : as.countP Action.dispatches + stage.passed.toNat ≤ as.countP Action.passes
  once : as.countP Action.dispatches + stage.inHandler.toNat ≤ 1

theorem dispatching_snoc {s s' : Shared} {stage stage' : Stage} {a : Action} {as : List Action}
    (h : Dispatching stage as) (ha : Acts cfg ev s stage a s' stage') : Dispatching stage' (as ++ [a]) := by
  have haudit : ∀ call io, (auditWith call io s).1.dispatches = false ∧ (auditWith call io s).1.passes = false := by
    intro call io
    rcases auditWith_cases call io s with ⟨-, h⟩ | ⟨l, -, h⟩ <;> (rw [h]; exact ⟨rfl, rfl⟩)
  obtain ⟨passed, once⟩ := h
  have hstep : a.dispatches.toNat + stage'.passed.toNat ≤ a.passes.toNat + stage.passed.toNat ∧
      a.dispatches.toNat + stage'.inHandler.toNat ≤ stage.inHandler.toNat := by
    cases ha with
    | guard now now' count =>
      refine ⟨?_, le_rfl⟩
      show 0 + (!decide (50 < count)).toNat ≤ (decide (count ≤ 50)).toNat + 0
      by_cases hle : count ≤ 50
      · rw [decide_eq_true hle, Nat.zero_add]
        exact Bool.toNat_le _
      · simp [not_le.1 hle]
    | auditLimited | auditDecision =>
      rw [(haudit _ _).1, (haudit _ _).2]
      exact ⟨le_rfl, Nat.zero_le _⟩
    | kill =>
      split
      · exact ⟨le_rfl, le_rfl⟩
      · exact ⟨le_rfl, le_rfl⟩
    | _ => exact ⟨Nat.le_of_ble_eq_true rfl, Nat.le_of_ble_eq_true rfl⟩
  constructor
  · simp only [List.countP_append, List.countP_singleton, ite_eq_toNat]
    omega
  · simp only [List.countP_append, List.countP_singleton, ite_eq_toNat]
    omega

theorem dispatching_of_reachable {s₀ : Shared} {w : World} (h : Reachable (program cfg) s₀ w) {k : Nat} {j : Job}
    (hj : w.tasks[k]? = some j) : Dispatching j.stage (history k w.trace) := by
  obtain ⟨ts, j₀, ⟨h₀, -⟩, hs⟩ := script_of_reachable keeps_true trivial h hj
  refine script_induction (I := fun j as => Dispatching j.stage as) ?_ ?_ hs
  · rw [h₀]
    exact ⟨le_rfl, le_rfl⟩
  · intro i s j as a s' j' hd _ hnext
    exact dispatching_snoc hd (acts_of_next hnext).2

open Classical in
/-- The passages of a run within some minutes, among its clock readings. -/
theorem countP_passed (n : Nat) (T : ℝ) (trace : List (Nat × Action)) :
    trace.countP (fun p => (p.2.reading.map fun r => decide (r.2.2 ≤ 50) && (WithinMinutes n T r.1 : Bool)).getD false) =
      (((readings trace).filter fun r => r.2.2 ≤ 50).map (·.1)).countP fun t => WithinMinutes n T t := by
  rw [List.countP_map, List.countP_filter, readings, List.countP_filterMap]
  refine List.countP_congr fun p _ => ?_
  cases p.2.reading with
  | none => rfl
  | some r =>
    show (_ && _) = true ↔ (_ && _) = true
    rw [Bool.and_comm]
    rfl

open Classical in
/-- In every run, an event is dispatched once at most and on a passage through the guard; and of the events that
passed it within any `n` minutes, at most `50 * (n + 1)` are dispatched. -/
theorem dispatched_in_minutes {baseline : Option Bytes} {logger : Option Logger} {clock : Int} {s₀ : Shared}
    {w : World} (h₀ : start cfg baseline logger clock = some s₀) (h : Reachable (program cfg) s₀ w) :
    (∀ k, (history k w.trace).countP Action.dispatches ≤ 1 ∧
      (.dispatch ∈ history k w.trace → ∃ now now' count, .guard now now' count ∈ history k w.trace ∧ count ≤ 50)) ∧
    ∀ (n : Nat) (T : ℝ), 0 < n →
      (w.trace.countP fun p => p.2.dispatches && (PassedIn n T (history p.1 w.trace) : Bool)) ≤ 50 * (n + 1) := by
  have hjobs : ∀ k, (history k w.trace).countP Action.dispatches ≤ 1 ∧
      (history k w.trace).countP Action.dispatches ≤ (history k w.trace).countP Action.passes := by
    intro k
    by_cases hk : k < w.tasks.length
    · have hd := dispatching_of_reachable h (List.getElem?_eq_getElem hk)
      exact ⟨Nat.le_of_add_right_le hd.once, Nat.le_of_add_right_le hd.passed⟩
    · rw [history_of_le h (not_lt.1 hk)]
      exact ⟨Nat.zero_le _, le_rfl⟩
  refine ⟨fun k => ⟨(hjobs k).1, fun hmem => ?_⟩, fun n T hn => ?_⟩
  · have hpos : 0 < (history k w.trace).countP Action.dispatches := List.countP_pos_iff.2 ⟨_, hmem, rfl⟩
    obtain ⟨a, ha, hpass⟩ := List.countP_pos_iff.1 (hpos.trans_le (hjobs k).2)
    unfold Action.passes at hpass
    split at hpass
    · exact ⟨_, _, _, ha, of_decide_eq_true hpass⟩
    · cases hpass
  · obtain ⟨n, rfl⟩ := Nat.exists_eq_add_of_le' hn
    have hpass : ∀ k, (history k w.trace).countP
        (fun a => a.dispatches && (PassedIn (n + 1) T (history k w.trace) : Bool)) ≤ (history k w.trace).countP fun a =>
          (a.reading.map fun r => decide (r.2.2 ≤ 50) && (WithinMinutes (n + 1) T r.1 : Bool)).getD false := by
      intro k
      by_cases hin : PassedIn (n + 1) T (history k w.trace)
      · have hone : (history k w.trace).countP
            (fun a => a.dispatches && (PassedIn (n + 1) T (history k w.trace) : Bool)) ≤ 1 := by
          simp only [hin, decide_true, Bool.and_true]
          exact (hjobs k).1
        obtain ⟨now, now', count, hmem, hle, hwithin⟩ := hin
        refine hone.trans (List.countP_pos_iff.2 ⟨_, hmem, ?_⟩)
        simp [Action.reading, hle, hwithin]
      · simp [hin]
    have hguard := passed_of_reachable h₀ h
    refine (countP_le_of_histories hpass).trans ?_
    rw [countP_passed, hguard.passed, passGuard_eq_passing, Nat.mul_comm]
    refine countP_passing_interval_le hguard.clocked fun s t hs ht => ?_
    have hs : WithinMinutes (n + 1) T s := of_decide_eq_true hs
    have ht : WithinMinutes (n + 1) T t := of_decide_eq_true ht
    have hle := sub_le_sub ht.2 hs.1
    rw [add_sub_cancel_left] at hle
    rw [nsmul_eq_mul]
    exact_mod_cast hle

open Classical in
theorem dispatched_in_minutes_beacon : ∃ w : World, (history 0 w.trace).countP Action.dispatches = 1 ∧
    ∀ T : ℝ, (w.trace.countP fun p => p.2.dispatches && (PassedIn 1 T (history p.1 w.trace) : Bool)) ≤ 100 := by
  have hrun : ((start liveConfig none (some (newLogger none)) 0).any fun s =>
      (exec (program liveConfig) { shared := s } beaconMoves).any fun w =>
        (history 0 w.trace).countP Action.dispatches == 1) = true := by decide +kernel
  obtain ⟨s₀, w, h₀, h, hw⟩ := reachable_of_exec hrun
  exact ⟨w, beq_iff_eq.1 hw, fun T => (dispatched_in_minutes h₀ h).2 1 T Nat.one_pos⟩

end WatchBPF.Agent
