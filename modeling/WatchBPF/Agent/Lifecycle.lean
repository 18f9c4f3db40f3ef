/-
The life of the agent, from the goroutines that `main` starts to its return. An interrupt goes into the
channel `stopper`, where the save goroutine and the three that close the readers wait for it; the read
loops end when their readers are closed, and `main` when the read loops have ended.
-/
import WatchBPF.Agent.Handle
import WatchBPF.Lib.Runs

namespace WatchBPF.Agent.Lifecycle

open WatchBPF.Baseline WatchBPF.Runs WatchBPF.Tasks

/-! ## Goroutines -/

/-- The main goroutine. -/
inductive Main
  /-- Goroutines of these probes are still to be started; with none left it is in `wg.Wait`. -/
  | launching (rest : List Label)
  /-- Past `wg.Wait`. -/
  | returning
  | exited
  deriving DecidableEq

/-- The save goroutine; `final` once it has had the signal. -/
inductive Saver
  | selecting
  | saving (final : Bool)
  /-- Inside `Save`, with the lock. -/
  | locked (final : Bool) (data : Bytes)
  /-- Inside `os.WriteFile`: the file is empty. -/
  | truncated (final : Bool) (data : Bytes)
  | returned
  deriving DecidableEq

/-- A goroutine that closes a reader. -/
inductive Closer
  | absent
  | waiting
  | closing
  | returned
  deriving DecidableEq

/-- A read loop; while its job is in `handleEvent` it counts as reading. -/
inductive Reader
  | absent
  | reading
  | got (r : KernelRecord)
  | returned
  deriving DecidableEq

/-- The goroutines of the agent, and what they share. -/
structure State where
  /-- the jobs and what they share -/
  agent : World
  /-- the baseline file -/
  file : Option Bytes
  main : Main := .launching [.exec, .openat, .connect]
  /-- a signal is in the channel -/
  stopper : Bool := false
  /-- interrupts so far, and those that found the channel empty -/
  delivered : Nat := 0
  accepted : Nat := 0
  /-- `saveTicker`: running, and a tick is in its channel -/
  ticking : Bool := true
  ticked : Bool := false
  saver : Saver := .selecting
  closer : Label → Closer := fun _ => .absent
  reader : Label → Reader := fun _ => .absent
  /-- the ring-buffer reader has been closed -/
  closed : Label → Bool := fun _ => false
  /-- keys that have come into the store since a `Save` last completed -/
  unsaved : List Bytes := []

def State.store (s : State) : Store := s.agent.shared.store

/-- The read loop is inside `handleEvent`. -/
def State.busy (s : State) (l : Label) : Bool := s.agent.tasks.any fun j => j.event.label == l && j.stage.inHandler

/-- `Save` has the lock, so that `Learn` waits. -/
def Saver.locks : Saver → Bool
  | locked .. | truncated .. => true
  | _ => false

/-! ## Events -/

inductive Event
  /-- `main` starts the closer and the read loop of the next probe. -/
  | launch
  | sigint
  | tick
  /-- The save goroutine takes a tick, or the signal. -/
  | saveTick
  | saveStop
  /-- `Save` locks the store and lists its keys in this order. -/
  | lock (keys : List Bytes)
  | truncate
  | write
  /-- A closer takes the signal, and closes its reader. -/
  | take (l : Label)
  | close (l : Label)
  /-- `rd.Read` returns a record, which is then handled. -/
  | read (r : KernelRecord)
  | handle (l : Label)
  /-- A job goes on. -/
  | act (k : Nat) (i : Input)
  /-- `rd.Read` returns `ErrClosed`. -/
  | stop (l : Label)
  | wait
  | exit

instance (s : Store) (keys : List Bytes) : Decidable (s.Lists keys) := inferInstanceAs (Decidable (_ ∧ _))

/-- The runtime sends without blocking. -/
def sigint (s : State) : State :=
  if s.stopper then { s with delivered := s.delivered + 1 }
  else { s with delivered := s.delivered + 1, accepted := s.accepted + 1, stopper := true }

/-- A job's action; `Learn` waits for the lock. -/
def act (cfg : Config) (k : Nat) (i : Input) (s : State) : Option State :=
  match s.agent.tasks[k]? with
  | none => none
  | some j =>
    match (program cfg).next i s.agent.shared j with
    | none => none
    | some (a, shared, j') =>
      let agent := { shared, tasks := s.agent.tasks.set k j', trace := s.agent.trace ++ [(k, a)] }
      match a with
      | .learn =>
        if s.saver.locks then none
        else some { s with
          agent
          unsaved := if j.event.combination.key ∈ s.store.known then s.unsaved
            else s.unsaved ++ [j.event.combination.key] }
      | _ => some { s with agent }

def next (cfg : Config) (e : Event) (s : State) : Option State :=
  if s.main = .exited then none
  else
    match e with
    | .launch =>
      match s.main with
      | .launching (l :: rest) =>
        some { s with
          main := .launching rest
          closer := Function.update s.closer l .waiting
          reader := Function.update s.reader l .reading }
      | _ => none
    | .sigint => some (sigint s)
    | .tick => if s.ticking then some { s with ticked := true } else none
    | .saveTick =>
      if s.saver = .selecting ∧ s.ticked then some { s with saver := .saving false, ticked := false } else none
    | .saveStop =>
      if s.saver = .selecting ∧ s.stopper then
        some { s with saver := .saving true, stopper := false, ticking := false }
      else none
    | .lock keys =>
      match s.saver with
      | .saving final => if s.store.Lists keys then some { s with saver := .locked final (save keys) } else none
      | _ => none
    | .truncate =>
      match s.saver with
      | .locked final data => some { s with saver := .truncated final data, file := some [] }
      | _ => none
    | .write =>
      match s.saver with
      | .truncated final data =>
        some { s with saver := if final then .returned else .selecting, file := some data, unsaved := [] }
      | _ => none
    | .take l =>
      if s.closer l = .waiting ∧ s.stopper then
        some { s with closer := Function.update s.closer l .closing, stopper := false }
      else none
    | .close l =>
      if s.closer l = .closing then
        some { s with closer := Function.update s.closer l .returned, closed := Function.update s.closed l true }
      else none
    | .read r =>
      let l := r.event.label
      if s.reader l = .reading ∧ s.closed l = false ∧ s.busy l = false then
        some { s with reader := Function.update s.reader l (.got r) }
      else none
    | .handle l =>
      match s.reader l with
      | .got r =>
        if (program cfg).admits s.agent.tasks { record := r } then
          some { s with
            agent := { s.agent with tasks := s.agent.tasks ++ [{ record := r }] }
            reader := Function.update s.reader l .reading }
        else none
      | _ => none
    | .act k i => act cfg k i s
    | .stop l =>
      if s.reader l = .reading ∧ s.closed l = true ∧ s.busy l = false then
        some { s with reader := Function.update s.reader l .returned }
      else none
    | .wait =>
      if s.main = .launching [] ∧ ∀ l ∈ [Label.exec, .openat, .connect], s.reader l = .returned then
        some { s with main := .returning }
      else none
    | .exit => if s.main = .returning then some { s with main := .exited } else none

/-- When the goroutines are about to be started. -/
def init (file : Option Bytes) (shared : Shared) : State := { agent := { shared }, file }

/-! ## What an event can do -/

/-- The events, each with what must hold for it and what it makes of the state. -/
inductive Step (cfg : Config) (s : State) : Event → State → Prop
  | launch (l : Label) (rest : List Label) (main : s.main = .launching (l :: rest)) :
      Step cfg s .launch { s with
        main := .launching rest
        closer := Function.update s.closer l .waiting
        reader := Function.update s.reader l .reading }
  | dropped (full : s.stopper = true) : Step cfg s .sigint { s with delivered := s.delivered + 1 }
  | accepted (empty : s.stopper = false) :
      Step cfg s .sigint { s with delivered := s.delivered + 1, accepted := s.accepted + 1, stopper := true }
  | tick : Step cfg s .tick { s with ticked := true }
  | saveTick (saver : s.saver = .selecting) : Step cfg s .saveTick { s with saver := .saving false, ticked := false }
  | saveStop (saver : s.saver = .selecting) (full : s.stopper = true) :
      Step cfg s .saveStop { s with saver := .saving true, stopper := false, ticking := false }
  | lock (final : Bool) (keys : List Bytes) (saver : s.saver = .saving final) (lists : s.store.Lists keys) :
      Step cfg s (.lock keys) { s with saver := .locked final (save keys) }
  | truncate (final : Bool) (data : Bytes) (saver : s.saver = .locked final data) :
      Step cfg s .truncate { s with saver := .truncated final data, file := some [] }
  | write (final : Bool) (data : Bytes) (saver : s.saver = .truncated final data) :
      Step cfg s .write
        { s with saver := if final then .returned else .selecting, file := some data, unsaved := [] }
  | take (l : Label) (closer : s.closer l = .waiting) (full : s.stopper = true) :
      Step cfg s (.take l) { s with closer := Function.update s.closer l .closing, stopper := false }
  | close (l : Label) (closer : s.closer l = .closing) :
      Step cfg s (.close l)
        { s with closer := Function.update s.closer l .returned, closed := Function.update s.closed l true }
  | read (r : KernelRecord) (reader : s.reader r.event.label = .reading) :
      Step cfg s (.read r) { s with reader := Function.update s.reader r.event.label (.got r) }
  | handle (l : Label) (r : KernelRecord) (reader : s.reader l = .got r) :
      Step cfg s (.handle l) { s with
        agent := { s.agent with tasks := s.agent.tasks ++ [{ record := r }] }
        reader := Function.update s.reader l .reading }
  | learn (k : Nat) (i : Input) (j : Job) (shared : Shared) (tasks : List Job) (trace : List (Nat × Action))
      (free : s.saver.locks = false) (store : shared.store = s.store.learn j.event.combination) :
      Step cfg s (.act k i) { s with
        agent := { shared, tasks, trace }
        unsaved := if j.event.combination.key ∈ s.store.known then s.unsaved
          else s.unsaved ++ [j.event.combination.key] }
  | act (k : Nat) (i : Input) (agent : World) (store : agent.shared.store = s.store) :
      Step cfg s (.act k i) { s with agent }
  | stop (l : Label) (reader : s.reader l = .reading) (closed : s.closed l = true) :
      Step cfg s (.stop l) { s with reader := Function.update s.reader l .returned }
  | wait (stopped : ∀ l, s.reader l = .returned) : Step cfg s .wait { s with main := .returning }
  | exit (main : s.main = .returning) : Step cfg s .exit { s with main := .exited }

/-- Only `Learn` changes the store. -/
theorem store_of_acts {cfg : Config} {ev : Agent.Event} {s s' : Shared} {stage stage' : Stage} {a : Action}
    (h : Acts cfg ev s stage a s' stage') :
    a = .learn ∧ s'.store = s.store.learn ev.combination ∨ a ≠ .learn ∧ s'.store = s.store := by
  have haudit : ∀ call io, (auditWith call io s).1 ≠ .learn ∧ (auditWith call io s).2.store = s.store := by
    intro call io
    rcases auditWith_cases call io s with ⟨-, h⟩ | ⟨l, -, h⟩ <;> (rw [h]; exact ⟨nofun, rfl⟩)
  cases h with
  | learn => exact .inl ⟨rfl, rfl⟩
  | auditLimited | auditDecision => exact .inr (haudit _ _)
  | _ => exact .inr ⟨nofun, rfl⟩

theorem step_of_act {cfg : Config} {k : Nat} {i : Input} {s s' : State} (h : act cfg k i s = some s') :
    Step cfg s (.act k i) s' := by
  unfold act at h
  split at h
  · cases h
  · rename_i j hj
    split at h
    · cases h
    · rename_i a shared j' hnext
      obtain ⟨-, hacts⟩ := acts_of_next hnext
      rcases store_of_acts hacts with ⟨rfl, hstore⟩ | ⟨hne, hstore⟩
      · simp only at h
        split at h
        · cases h
        · cases h
          exact .learn k i j _ _ _ (Bool.not_eq_true _ ▸ ‹_›) hstore
      · split at h
        · exact absurd rfl hne
        · cases h
          exact .act k i _ hstore

theorem step_of_next {cfg : Config} {e : Event} {s s' : State} (h : next cfg e s = some s') :
    s.main ≠ .exited ∧ Step cfg s e s' := by
  unfold next at h
  split at h
  · cases h
  · refine ⟨‹_›, ?_⟩
    cases e with
    | sigint =>
      cases h
      unfold sigint
      split
      · exact .dropped ‹_›
      · exact .accepted (Bool.not_eq_true _ ▸ ‹_›)
    | act k i => exact step_of_act h
    | launch =>
      simp only at h
      split at h
      · cases h; exact .launch _ _ ‹_›
      · cases h
    | lock keys =>
      simp only at h
      split at h
      · split at h
        · cases h; exact .lock _ keys ‹_› ‹_›
        · cases h
      · cases h
    | handle l =>
      simp only at h
      split at h
      · split at h
        · cases h; exact .handle l _ ‹_›
        · cases h
      · cases h
    | truncate =>
      simp only at h
      split at h
      · cases h; exact .truncate _ _ ‹_›
      · cases h
    | write =>
      simp only at h
      split at h
      · cases h; exact .write _ _ ‹_›
      · cases h
    | wait =>
      simp only at h
      split at h
      · rename_i hw
        cases h
        exact .wait fun l => hw.2 l (by cases l <;> decide)
      · cases h
    | tick | saveTick | saveStop | take l | close l | read r | stop l | exit =>
      simp only at h
      split at h
      · rename_i hw
        cases h
        first
          | exact .tick
          | exact .saveTick hw.1
          | exact .saveStop hw.1 hw.2
          | exact .take _ hw.1 hw.2
          | exact .close _ hw
          | exact .read _ hw.1
          | exact .stop _ hw.1 hw.2.1
          | exact .exit hw
      · cases h

end WatchBPF.Agent.Lifecycle
