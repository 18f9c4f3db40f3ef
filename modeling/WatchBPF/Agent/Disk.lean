/-
A run on a disk that can fail. `os.WriteFile` may not get the file open, or give up with a part of the bytes
written; the save goroutine drops the error and goes on, and the file stays that way until the next `Save`. It
is loaded as what the last complete `Save` wrote, and as nothing while it is cut short.
-/
import WatchBPF.Agent.Learning
import WatchBPF.Baseline.Torn

namespace WatchBPF.Agent.Lifecycle

open WatchBPF.Audit WatchBPF.Baseline WatchBPF.Runs WatchBPF.Tasks WatchBPF.Utf8

/-- A run, with what its disk has made of the file. -/
structure Machine where
  run : State
  /-- `Save` has emptied the file, and not all has been written since. -/
  cut : Bool := false

/-- What goes wrong in `os.WriteFile`. -/
inductive Fault
  /-- The file cannot be opened, and stays as it is. -/
  | unopened
  /-- So much is in the file while the rest is still to come. -/
  | part (n : Nat)
  /-- So much is in the file, and no more will come. -/
  | failed (n : Nat)

/-- Whether the file is cut short after an event. -/
def Event.cuts (cut : Bool) : Event → Bool
  | .truncate => true
  | .write => false
  | _ => cut

/-- `Save` returns the error to nobody. -/
def Fault.strike (f : Fault) (m : Machine) : Option Machine :=
  if m.run.main = .exited then none
  else
    match f, m.run.saver with
    | .unopened, .locked final _ =>
      some { m with run := { m.run with saver := if final then .returned else .selecting } }
    | .part n, .truncated _ data =>
      if n < data.length then some { run := { m.run with file := some (data.take n) }, cut := true } else none
    | .failed n, .truncated final data =>
      if n < data.length then
        some {
          run := { m.run with saver := if final then .returned else .selecting, file := some (data.take n) }
          cut := true }
      else none
    | _, _ => none

/-- The run goes on, or a fault strikes its `Save`. -/
def nextOn (cfg : Config) (e : Event ⊕ Fault) (m : Machine) : Option Machine :=
  match e with
  | .inl e => (next cfg e m.run).map fun run => { run, cut := e.cuts m.cut }
  | .inr f => f.strike m

variable {cfg : Config} {file : Option Bytes} {logger : Option Logger} {clock : Int} {shared : Shared} {m m' : Machine}

/-- The faults, each with what must hold for it. -/
inductive Strikes (m : Machine) : Fault → Machine → Prop
  | unopened (final : Bool) (data : Bytes) (saver : m.run.saver = .locked final data) :
      Strikes m .unopened { m with run := { m.run with saver := if final then .returned else .selecting } }
  | part (n : Nat) (final : Bool) (data : Bytes) (saver : m.run.saver = .truncated final data)
      (short : n < data.length) :
      Strikes m (.part n) { run := { m.run with file := some (data.take n) }, cut := true }
  | failed (n : Nat) (final : Bool) (data : Bytes) (saver : m.run.saver = .truncated final data)
      (short : n < data.length) :
      Strikes m (.failed n) {
        run := { m.run with saver := if final then .returned else .selecting, file := some (data.take n) }
        cut := true }

theorem strikes_of_strike {f : Fault} (h : f.strike m = some m') : Strikes m f m' := by
  unfold Fault.strike at h
  split at h
  · cases h
  · split at h
    · cases h; exact .unopened _ _ ‹_›
    · split at h
      · cases h; exact .part _ _ _ ‹_› ‹_›
      · cases h
    · split at h
      · cases h; exact .failed _ _ _ ‹_› ‹_›
      · cases h
    · cases h

/-- Either the run goes on, or a `Save` of it is struck. -/
theorem nextOn_cases {e : Event ⊕ Fault} (h : nextOn cfg e m = some m') :
    (∃ ev, next cfg ev m.run = some m'.run ∧ m'.cut = ev.cuts m.cut) ∨ ∃ f, Strikes m f m' := by
  cases e with
  | inl ev =>
    obtain ⟨run, hrun, rfl⟩ := Option.map_eq_some_iff.1 h
    exact .inl ⟨ev, hrun, rfl⟩
  | inr f => exact .inr ⟨f, strikes_of_strike h⟩

theorem agent_of_strikes {f : Fault} (h : Strikes m f m') :
    m'.run.agent = m.run.agent ∧ m'.run.unsaved = m.run.unsaved := by
  cases h <;> exact ⟨rfl, rfl⟩

/-- The jobs do not see the disk. -/
theorem tasks_of_machine (h : Runs.Reachable (nextOn cfg) { run := init file shared } m) :
    Tasks.Reachable (program cfg) shared m.run.agent := by
  refine h.invariant (I := fun m => Tasks.Reachable (program cfg) shared m.run.agent) ?_ ?_
  · exact Relation.ReflTransGen.refl
  intro e m m' hr _ hnext
  rcases nextOn_cases hnext with ⟨ev, hrun, -⟩ | ⟨f, hf⟩
  · rcases agent_of_next hrun with hsame | hstep
    · rw [hsame]
      exact hr
    · exact hr.tail hstep
  · rw [(agent_of_strikes hf).1]
    exact hr

/-- A run without faults; the file is cut short while `Save` has it empty. -/
theorem machine_of_reachable {s : State} (h : Runs.Reachable (next cfg) (init file shared) s) :
    Runs.Reachable (nextOn cfg) { run := init file shared } { run := s, cut := s.saver.emptied } := by
  induction h with
  | refl => exact .refl
  | step e s s' _ _ hnext ih =>
    have hcut : e.cuts s.saver.emptied = s'.saver.emptied := by
      obtain ⟨-, hstep⟩ := step_of_next hnext
      cases hstep with
      | saveTick saver | saveStop saver | lock _ _ saver | truncate _ _ saver =>
        rw [saver]
        rfl
      | write final => cases final <;> rfl
      | _ => rfl
    refine .step (.inl e) _ _ ih trivial ?_
    show (next cfg e s).map _ = _
    rw [hnext, Option.map_some, hcut]

/-! ## What the file has -/

/-- What `Save` is about to write, if it has the lock. -/
def Saver.data : Saver → Option Bytes
  | locked _ data | truncated _ data => some data
  | _ => none

/-- `Save` writes the store as it is; the file is that of a store which lacks the unsaved keys only, unless it is cut
short. -/
structure Written (m : Machine) : Prop where
  data : ∀ data ∈ m.run.saver.data, ∃ keys, m.run.store.Lists keys ∧ data = save keys
  whole : m.cut = false → Holds m.run.file m.run.store m.run.unsaved
  short : m.cut = true → (newStore m.run.file).known = ∅

theorem data_of_unlocked {saver : Saver} (h : saver.locks = false) : saver.data = none := by
  cases saver with
  | locked | truncated => cases h
  | _ => rfl

theorem data_after (final : Bool) : (if final then Saver.returned else .selecting).data = none := by
  cases final <;> rfl

theorem Written.step {s' : State} {e : Event} (hw : Written m) (h : Step cfg m.run e s') :
    Written { run := s', cut := e.cuts m.cut } := by
  obtain ⟨hdata, hwhole, hshort⟩ := hw
  cases h with
  | saveTick | saveStop => exact ⟨nofun, hwhole, hshort⟩
  | lock final keys saver lists =>
    refine ⟨fun data hd => ?_, hwhole, hshort⟩
    cases hd
    exact ⟨keys, lists, rfl⟩
  | truncate final data saver =>
    rw [saver] at hdata
    exact ⟨hdata, nofun, fun _ => rfl⟩
  | write final data saver =>
    rw [saver] at hdata
    obtain ⟨keys, hlists, rfl⟩ := hdata data rfl
    refine ⟨fun data hd => ?_, fun _ => holds_save hlists, nofun⟩
    rw [data_after] at hd
    cases hd
  | learn k i j shared' tasks trace free store =>
    have hstore : shared'.store = m.run.store.learn j.event.combination := store
    refine ⟨fun data hd => ?_, fun hcut => ?_, hshort⟩
    · rw [data_of_unlocked free] at hd
      cases hd
    · have hholds := holds_learn (hwhole hcut) j.event.combination
      rwa [← hstore] at hholds
  | act k i agent store =>
    have hstore : agent.shared.store = m.run.store := store
    refine ⟨fun data hd => ?_, fun hcut => ?_, hshort⟩
    · have hlists := hdata data hd
      rwa [← hstore] at hlists
    · have hholds := hwhole hcut
      rwa [← hstore] at hholds
  | _ => exact ⟨hdata, hwhole, hshort⟩

theorem Written.strikes {f : Fault} (hw : Written m) (h : Strikes m f m') : Written m' := by
  obtain ⟨hdata, hwhole, hshort⟩ := hw
  have hcut : ∀ {final data n}, m.run.saver = .truncated final data → n < data.length →
      (newStore (some (data.take n))).known = ∅ := by
    intro final data n saver short
    rw [saver] at hdata
    obtain ⟨keys, -, rfl⟩ := hdata data rfl
    exact known_newStore_take short
  have hafter : ∀ (final : Bool), ∀ data ∈ (if final then Saver.returned else .selecting).data,
      ∃ keys, m.run.store.Lists keys ∧ data = save keys := by
    intro final data hd
    rw [data_after] at hd
    cases hd
  cases h with
  | unopened final data saver => exact ⟨hafter final, hwhole, hshort⟩
  | part n final data saver short => exact ⟨hdata, nofun, fun _ => hcut saver short⟩
  | failed n final data saver short => exact ⟨hafter final, nofun, fun _ => hcut saver short⟩

theorem shared_store_of_start (h₀ : start cfg file logger clock = some shared) : shared.store = newStore file := by
  rw [eq_of_start h₀]

theorem written_of_reachable (h₀ : start cfg file logger clock = some shared)
    (h : Runs.Reachable (nextOn cfg) { run := init file shared } m) : Written m := by
  have hinit : Written { run := init file shared } := by
    refine ⟨nofun, fun _ => ?_, nofun⟩
    show Holds file shared.store []
    rw [shared_store_of_start h₀]
    exact holds_newStore file
  refine h.invariant (I := Written) hinit fun e m m' hw _ hnext => ?_
  rcases nextOn_cases hnext with ⟨ev, hrun, hcut⟩ | ⟨f, hf⟩
  · have hstep := hw.step (step_of_next hrun).2
    rwa [← hcut] at hstep
  · exact hw.strikes hf

/-- Unless it is cut short, the file has what is saved of the store, as UTF-8. -/
theorem file_of_reachable (h₀ : start cfg file logger clock = some shared)
    (h : Runs.Reachable (nextOn cfg) { run := init file shared } m) (hwhole : m.cut = false) :
    (newStore m.run.file).known = (m.run.store.known \ m.run.unsaved.toFinset).image coerce := by
  obtain ⟨base, hfile, hstore, hnew⟩ := (written_of_reachable h₀ h).whole hwhole
  have hbase : m.run.store.known \ m.run.unsaved.toFinset = base := by
    rw [hstore, Finset.union_sdiff_right, Finset.sdiff_eq_self_iff_disjoint, Finset.disjoint_right]
    exact fun k hk => hnew k (List.mem_toFinset.1 hk)
  rw [hfile, hbase]

/-- Only what was not there at the start can be unsaved, and nothing in a filtering run. -/
theorem unsaved_new (h : Runs.Reachable (nextOn cfg) { run := init file shared } m) :
    ∀ key ∈ m.run.unsaved, key ∉ shared.store.known ∧ cfg.mode = lit "learn" := by
  induction h with
  | refl => exact nofun
  | step e m m' before _ hnext ih =>
    have hlater : Runs.Reachable (nextOn cfg) { run := init file shared } m' := .step e m m' before trivial hnext
    have hstores : cfg.mode ≠ lit "learn" → m'.run.store = m.run.store := fun hmode =>
      (store_of_filtering (tasks_of_machine hlater) hmode).trans
        (store_of_filtering (tasks_of_machine before) hmode).symm
    have hle : shared.store.known ⊆ m.run.store.known := (learned_of_reachable (tasks_of_machine before)).start_le
    rcases nextOn_cases hnext with ⟨ev, hrun, -⟩ | ⟨f, hf⟩
    · obtain ⟨run', cut'⟩ := m'
      obtain ⟨-, hstep⟩ := step_of_next hrun
      cases hstep with
      | write => exact nofun
      | learn k i j shared' tasks trace free store =>
        intro key hkey
        -- a key that comes into the store was not in it, and comes in learn mode
        by_cases hknown : j.event.combination.key ∈ m.run.store.known
        · rw [if_pos hknown] at hkey
          exact ih key hkey
        · rw [if_neg hknown] at hkey
          rcases List.mem_append.1 hkey with hkey | hkey
          · exact ih key hkey
          · rw [List.mem_singleton.1 hkey]
            refine ⟨fun hmem => hknown (hle hmem), ?_⟩
            by_contra hmode
            refine hknown ?_
            have hsame : shared'.store = m.run.store := hstores hmode
            rw [← hsame, store, Store.learn]
            exact Finset.mem_insert_self _ _
      | _ => exact ih
    · rw [(agent_of_strikes hf).2]
      exact ih

end WatchBPF.Agent.Lifecycle
