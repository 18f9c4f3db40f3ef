/-
What is left for the readers. Each record that a program has room for is submitted, read and handled in a bounded
number of steps, and none of these steps waits for an assessment; what the jobs do once they have left `handleEvent`
does not add to it.
-/
import WatchBPF.Agent.Pipeline
import WatchBPF.Agent.Drain

namespace WatchBPF.Agent.Pipeline

open WatchBPF.CStruct WatchBPF.Kernel WatchBPF.RingBuf

variable {cfg : Config} {readStr : ReadStr} {s₀ : Shared}

/-! ## Rank -/

/-- The most actions before the event leaves `handleEvent`. -/
def handling : Stage → Nat
  | .received => 5
  | .looked _ => 4
  | .escalated => 3
  | .guarded _ => 2
  | .limited => 1
  | _ => 0

theorem handling_eq_zero {stage : Stage} : handling stage = 0 ↔ stage.inHandler = false := by
  cases stage <;> simp [handling, Stage.inHandler]

theorem handling_of_acts {ev : Agent.Event} {s s' : Shared} {stage stage' : Stage} {a : Action}
    (h : Acts cfg ev s stage a s' stage') (hin : stage.inHandler = true) : handling stage' < handling stage := by
  cases h with
  | ignore | lookup | known | learn | escalate | guard | limit | dispatch | noClient | auditLimited =>
    exact Nat.le_of_ble_eq_true rfl
  | _ => cases hin

/-- What a slot still takes: its program submits it, and its reader takes it and handles the event. -/
def pending (s : Slot Ctx Bytes) : Nat := if s.busy then 7 else 6

def load (c : Channel) : Nat := (c.slots.map pending).sum

def loads (channel : Label → Channel) : Nat :=
  load (channel .exec) + load (channel .openat) + load (channel .connect)

/-- What the eBPF programs under way and the readers still have to do. -/
def backlog (p : Pipeline) : Nat := loads p.channel + Tasks.total (fun j => handling j.stage) p.agent

theorem loads_update (channel : Label → Channel) (label : Label) (c : Channel) :
    loads (Function.update channel label c) + load (channel label) = loads channel + load c := by
  unfold loads
  cases label <;> simp only [Function.update, reduceCtorEq, dite_true, dite_false] <;> omega

/-- No new call, and no job that has left `handleEvent` does anything. -/
def Serving (e : Event) (p : Pipeline) : Prop :=
  match e with
  | .enter .. => False
  | .submit .. | .read _ => True
  | .act k _ => ∀ j ∈ p.agent.tasks[k]?, j.stage.inHandler = true

/-- The buffers are empty, and the readers wait for records. -/
def Drained (p : Pipeline) : Prop :=
  (∀ label, (p.channel label).slots = []) ∧ ∀ j ∈ p.agent.tasks, j.stage.inHandler = false

theorem load_submit {c : Channel} {n : Nat} {s : Slot Ctx Bytes} (here : c.slots[n]? = some s) (busy : s.busy = true)
    (raw : Bytes) :
    load { c with slots := c.slots.set n { s with sample := raw, busy := false } } + 1 = load c := by
  have hset := Tasks.sum_set_of here pending { s with sample := raw, busy := false }
  have hbusy : pending s = 7 := if_pos busy
  have hdone : pending { s with sample := raw, busy := false } = 6 := rfl
  show ((c.slots.set n _).map pending).sum + 1 = (c.slots.map pending).sum
  omega

theorem load_read {c : Channel} {s : Slot Ctx Bytes} {slots : List (Slot Ctx Bytes)} (first : c.slots = s :: slots)
    (submitted : s.busy = false) : load { c with slots } + 6 = load c := by
  have hdone : pending s = 6 := if_neg (by rw [submitted]; exact Bool.false_ne_true)
  unfold load
  rw [first, List.map_cons, List.sum_cons, hdone, Nat.add_comm]

theorem total_receive (label : Label) (raw : Bytes) (w : World) :
    Tasks.total (fun j => handling j.stage) (receive label raw w) ≤ Tasks.total (fun j => handling j.stage) w + 5 := by
  unfold receive Tasks.total
  split
  · exact Nat.le_add_right _ _
  · rw [List.map_append, List.sum_append]
    rfl

theorem backlog_lt (e : Event) (p p' : Pipeline) (hserving : Serving e p) (h : next cfg readStr e p = some p') :
    backlog p' < backlog p := by
  unfold backlog
  cases steps_of_next h with
  | other | reserve | giveUp => exact hserving.elim
  | submit label n s raw here busy filled =>
    have hload := load_submit here busy raw
    have hupdate := loads_update p.channel label
      { p.channel label with slots := (p.channel label).slots.set n { s with sample := raw, busy := false } }
    refine Nat.add_lt_add_right ?_ _
    dsimp only at hupdate hload ⊢
    omega
  | read label s slots first submitted idle =>
    have hload := load_read first submitted
    have hupdate := loads_update p.channel label { p.channel label with slots }
    have htotal := total_receive label s.sample p.agent
    dsimp only at hupdate hload ⊢
    omega
  | act k i j a shared j' here acts =>
    have hset := Tasks.sum_set_of here (fun j : Job => handling j.stage) j'
    have hlt := handling_of_acts (acts_of_next acts).2 (hserving j here)
    refine Nat.add_lt_add_left ?_ _
    unfold Tasks.total
    dsimp only at hset ⊢
    omega

theorem inHandler_of_acts {ev : Agent.Event} {s s' : Shared} {stage stage' : Stage} {a : Action}
    (h : Acts cfg ev s stage a s' stage') (hout : stage.inHandler = false) : stage'.inHandler = false := by
  cases h with
  | lookup | escalate | guard | limit => cases hout
  | kill => split <;> rfl
  | _ => rfl

/-- An action of a job that has left `handleEvent` leaves the readers as much to do. -/
theorem backlog_act {k : Nat} {i : Input} {p p' : Pipeline} (h : next cfg readStr (.act k i) p = some p') {j : Job}
    (here : p.agent.tasks[k]? = some j) (hout : j.stage.inHandler = false) : backlog p' = backlog p := by
  cases steps_of_next h with
  | act _ _ j₀ a shared j' here' acts =>
    obtain rfl := Option.some.inj (here.symm.trans here')
    have hset := Tasks.sum_set_of here (fun j : Job => handling j.stage) j'
    have hzero : handling j.stage = 0 := handling_eq_zero.2 hout
    have hzero' : handling j'.stage = 0 := handling_eq_zero.2 (inHandler_of_acts (acts_of_next acts).2 hout)
    unfold backlog Tasks.total
    dsimp only at hset ⊢
    omega

/-- A job stays as it is as long as it does nothing itself. -/
theorem getElem?_next {e : Event} {p p' : Pipeline} (h : next cfg readStr e p = some p') {k : Nat} {j : Job}
    (hj : p.agent.tasks[k]? = some j) (hother : ∀ i, e ≠ .act k i) : p'.agent.tasks[k]? = some j := by
  cases steps_of_next h with
  | read label s slots =>
    unfold receive
    split
    · exact hj
    · exact (List.getElem?_append_left (List.getElem?_eq_some_iff.1 hj).1).trans hj
  | act k' i j₀ a shared j' here acts =>
    exact (List.getElem?_set_ne fun heq => hother i (by rw [heq])).trans hj
  | _ => exact hj

theorem auditLogger_next {e : Event} {p p' : Pipeline} (h : next cfg readStr e p = some p') :
    p'.agent.shared.auditLogger.isSome = p.agent.shared.auditLogger.isSome := by
  cases steps_of_next h with
  | read label s slots =>
    unfold receive
    split <;> rfl
  | act k i j a shared j' here acts => exact acts_auditLogger (acts_of_next acts).2
  | _ => rfl

/-- Only a call asks for room. -/
theorem calls_next {e : Event} {p p' : Pipeline} (h : next cfg readStr e p = some p')
    (hother : ∀ label ctx prior, e ≠ .enter label ctx prior) (label : Label) :
    (p'.channel label).calls = (p.channel label).calls := by
  have hsame : ∀ {label' : Label} {slots : List (Slot Ctx Bytes)},
      (Function.update p.channel label' { p.channel label' with slots } label).calls = (p.channel label).calls := by
    intro label' slots
    by_cases heq : label = label'
    · subst heq
      rw [Function.update_self]
    · rw [Function.update_of_ne heq]
  cases steps_of_next h with
  | other label' ctx prior | reserve label' ctx prior | giveUp label' ctx prior =>
    exact absurd rfl (hother label' ctx prior)
  | submit | read => exact hsame
  | act => rfl

/-- Until the buffers are drained there is an event in `handleEvent`, or the first record of a buffer can be submitted
or read. -/
theorem serving_of_undrained {p : Pipeline} (hinv : Inv cfg readStr s₀ p) (hleft : ¬ Drained p) :
    (∃ (k : Nat) (j : Job), p.agent.tasks[k]? = some j ∧ j.stage.inHandler = true) ∨
      ∃ label, (next cfg readStr (.submit label 0) p).isSome = true ∨
        (next cfg readStr (.read label) p).isSome = true := by
  by_cases hin : ∃ j ∈ p.agent.tasks, j.stage.inHandler = true
  · obtain ⟨j, hmem, hin⟩ := hin
    obtain ⟨k, hk⟩ := List.getElem?_of_mem hmem
    exact .inl ⟨k, j, hk, hin⟩
  · push Not at hin
    have hslots : ∃ label, (p.channel label).slots ≠ [] := by
      by_contra hnone
      push Not at hnone
      exact hleft ⟨hnone, fun j hj => Bool.not_eq_true _ ▸ hin j hj⟩
    obtain ⟨label, hne⟩ := hslots
    obtain ⟨s, slots, first⟩ := List.exists_cons_of_ne_nil hne
    refine .inr ⟨label, ?_⟩
    by_cases hbusy : s.busy = true
    · -- the program that has the first slot is on its way
      obtain ⟨prior, -, hreports, hsample⟩ := (hinv.feeds label).delivers.holds s (first ▸ List.mem_cons_self)
      rw [if_pos hbusy] at hsample
      have hhere : (p.channel label).slots[0]? = some s := by rw [first]; rfl
      refine .inl ?_
      simp only [next, hhere, if_pos hbusy, Option.isSome_map, hsample]
      exact hreports
    · have hidle : ¬ (s.busy = true ∨ Busy p.agent label) := by
        rintro (h | ⟨j, hj, -, hjin⟩)
        · exact hbusy h
        · exact hin j hj hjin
      refine .inr ?_
      simp only [next, first, if_neg hidle, Option.isSome_some]

/-- A job that is not blocked by the semaphore goes on, whatever its input. -/
theorem act_isSome {p : Pipeline} {k : Nat} {j : Job} (here : p.agent.tasks[k]? = some j)
    (hdone : j.stage ≠ .returned) (hfree : j.stage ≠ .queued) (i : Input) :
    (next cfg readStr (.act k i) p).isSome = true := by
  have hsome : (advance cfg j.event i p.agent.shared j.stage).isSome = true :=
    advance_isSome i hdone fun h => absurd h hfree
  simp only [next, here, program, Option.isSome_map]
  exact hsome

end WatchBPF.Agent.Pipeline
