/-
The agent comes to rest. An event takes at most eleven actions, and an event that waits for a slot waits for others
that are on their way; so once no more records come, all events are dealt with and all slots are free after a bounded
number of actions, whatever the LLM, the clock and the disk do. A critical section of `store.mu`, `escalationMu`,
`policy.mu` or `audit.mu` is one action, so the wait for a goroutine that is inside of one does not show here.
-/
import WatchBPF.Agent.Ledger
import WatchBPF.Lib.Drain

namespace WatchBPF.Agent

open WatchBPF.Audit WatchBPF.Tasks

variable {cfg : Config}

/-- The most actions that the event can still take. -/
def Stage.remaining : Stage → Nat
  | received => 11
  | looked _ => 10
  | escalated => 9
  | guarded _ => 8
  | queued => 7
  | running => 6
  | assessed _ => 5
  | decided _ _ => 4
  | acting _ => 3
  | isolating => 2
  | limited | leaving => 1
  | returned => 0

theorem Stage.remaining_eq_zero {stage : Stage} : stage.remaining = 0 ↔ stage = returned := by
  cases stage <;> simp [remaining]

theorem remaining_of_acts {ev : Event} {s s' : Shared} {stage stage' : Stage} {a : Action}
    (h : Acts cfg ev s stage a s' stage') : stage'.remaining < stage.remaining := by
  cases h with
  | kill => split <;> exact Nat.le_of_ble_eq_true rfl
  | _ => exact Nat.le_of_ble_eq_true rfl

theorem ranked_remaining : Ranked (program cfg) fun j => j.stage.remaining :=
  fun _ _ _ _ _ _ h => remaining_of_acts (acts_of_next h).2

/-- Only an event that waits for a slot can be blocked. -/
theorem advance_isSome {ev : Event} (i : Input) {s : Shared} {stage : Stage} (hdone : stage ≠ .returned)
    (hfree : stage = .queued → s.slots < 3) : (advance cfg ev i s stage).isSome = true := by
  cases stage with
  | received | looked _ | guarded _ | running | acting _ =>
    simp only [advance]
    repeat' split
    all_goals rfl
  | queued =>
    simp only [advance]
    rw [if_pos (hfree rfl)]
    rfl
  | returned => exact absurd rfl hdone
  | _ => rfl

theorem enabled_of {w : World} {k : Nat} {j : Job} (hj : w.tasks[k]? = some j) (hdone : j.stage ≠ .returned)
    (hfree : j.stage = .queued → w.shared.slots < 3) : Enabled (program cfg) w := by
  refine ⟨k, j, hj, fun i => ?_⟩
  show ((advance cfg j.event i w.shared j.stage).map _).isSome = true
  rw [Option.isSome_map]
  exact advance_isSome i hdone hfree

/-- Some event can go on, as long as there is one that is not dealt with: those that wait for a slot wait for
others. -/
theorem progresses {s₀ : Shared} (hslots : s₀.slots = 0) :
    Progresses (program cfg) s₀ fun j => j.stage.remaining := by
  intro w hw hleft
  have hcount := counts_slots.reachable hslots hw
  by_cases hmoving : ∃ j ∈ w.tasks, j.stage ≠ .returned ∧ j.stage ≠ .queued
  · obtain ⟨j, hmem, hdone, hqueued⟩ := hmoving
    obtain ⟨k, hk⟩ := List.getElem?_of_mem hmem
    exact enabled_of hk hdone fun h => absurd h hqueued
  · push Not at hmoving
    -- nobody holds a slot, so the first that waits can take one
    have hfree : w.shared.slots = 0 := by
      rw [hcount, List.countP_eq_zero]
      intro j hmem hholds
      by_cases hdone : j.stage = .returned
      · rw [hdone] at hholds
        cases hholds
      · rw [hmoving j hmem hdone] at hholds
        cases hholds
    rw [Ne, total_eq_zero] at hleft
    push Not at hleft
    obtain ⟨j, hmem, hj⟩ := hleft
    obtain ⟨k, hk⟩ := List.getElem?_of_mem hmem
    refine enabled_of hk (fun hdone => hj (Stage.remaining_eq_zero.2 hdone)) fun _ => ?_
    rw [hfree]
    decide

/-- All events are dealt with, and no slot is taken. -/
def Idle (w : World) : Prop := (∀ j ∈ w.tasks, j.stage = .returned) ∧ w.shared.slots = 0

theorem idle_of_total {s₀ : Shared} {w : World} (hslots : s₀.slots = 0) (h : Reachable (program cfg) s₀ w)
    (hleft : total (fun j : Job => j.stage.remaining) w = 0) : Idle w := by
  have hdone : ∀ j ∈ w.tasks, j.stage = .returned := fun j hj =>
    Stage.remaining_eq_zero.1 (total_eq_zero.1 hleft j hj)
  refine ⟨hdone, ?_⟩
  rw [counts_slots.reachable hslots h, List.countP_eq_zero]
  intro j hj hholds
  rw [hdone j hj] at hholds
  cases hholds

/-- In every state of every run: each event has taken at most eleven actions, less those it can still take. Without
further records the agent makes a bounded number of further actions, in whatever order and with whatever inputs; until
it is idle some event has an action to take, critical sections under way aside; and it gets there. -/
theorem comes_to_rest {baseline : Option Bytes} {logger : Option Logger} {clock : Int} {s₀ : Shared} {w : World}
    (h₀ : start cfg baseline logger clock = some s₀) (h : Reachable (program cfg) s₀ w) :
    (∀ k j, w.tasks[k]? = some j → (history k w.trace).length + j.stage.remaining ≤ 11) ∧
    w.trace.length + total (fun j => j.stage.remaining) w ≤ 11 * w.tasks.length ∧
    (∀ n w', Goes (program cfg) n w w' →
      n ≤ total (fun j => j.stage.remaining) w ∧ (Idle w' ∨ Enabled (program cfg) w')) ∧
    ∃ n w', Goes (program cfg) n w w' ∧ Idle w' := by
  have hslots : s₀.slots = 0 := by rw [eq_of_start h₀]
  have hbound : ∀ js j, (program cfg).admits js j → j.stage.remaining ≤ 11 := by
    rintro js j ⟨hreceived, -⟩
    rw [hreceived]
    rfl
  refine ⟨length_history_le ranked_remaining hbound h, length_trace_le ranked_remaining hbound h,
    fun n w' hgoes => ⟨?_, ?_⟩, ?_⟩
  · have hle := hgoes.le_total ranked_remaining
    omega
  · by_cases hleft : total (fun j : Job => j.stage.remaining) w' = 0
    · exact .inl (idle_of_total hslots (hgoes.reachable h) hleft)
    · exact .inr (progresses hslots w' (hgoes.reachable h) hleft)
  · obtain ⟨n, w', hgoes, hleft⟩ := exists_drained ranked_remaining (progresses hslots) {} h
    exact ⟨n, w', hgoes, idle_of_total hslots (hgoes.reachable h) hleft⟩

/-- Two beacons that wait for a slot are dealt with. -/
theorem comes_to_rest_beacons : ∃ w : World, w.tasks = List.replicate 2 { record := beacon, stage := .queued } ∧
    ∃ n w', Goes (program liveConfig) n w w' ∧ Idle w' := by
  have hrun : ((start liveConfig none (some (newLogger none)) 0).any fun s =>
      (exec (program liveConfig) { shared := s } ((List.range 2).flatMap fun k =>
        .start { record := beacon } :: List.replicate 4 (.act k {}))).any fun w =>
          decide (w.tasks = List.replicate 2 { record := beacon, stage := .queued })) = true := by
    decide +kernel
  obtain ⟨s₀, w, h₀, h, hw⟩ := reachable_of_exec hrun
  exact ⟨w, of_decide_eq_true hw, (comes_to_rest h₀ h).2.2.2⟩

end WatchBPF.Agent
