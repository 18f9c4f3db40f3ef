/-
What the baseline file has when `main` returns. `main` does not wait for the save goroutine, so the file is
that of the last `Save` that was completed: what was learned since is lost, and everything is if a `Save` is
caught between emptying the file and writing it.
-/
import WatchBPF.Agent.Lifecycle
import WatchBPF.Agent.Enforce

namespace WatchBPF.Agent.Lifecycle

open WatchBPF.Audit WatchBPF.Baseline WatchBPF.Runs WatchBPF.Utf8

variable {cfg : Config} {file : Option Bytes} {logger : Option Logger} {clock : Int} {shared : Shared} {s s' : State}

/-! ## What the file has -/

/-- The file has every key of the store. -/
def Persisted (s : State) : Prop := ∀ k ∈ s.store.known, k ∈ (newStore s.file).known

/-- A `Save` has emptied the file and not yet written it. -/
def Saver.emptied : Saver → Bool
  | truncated .. => true
  | _ => false

/-- The file is that of a store which lacks the unsaved keys only. -/
def Holds (file : Option Bytes) (store : Store) (unsaved : List Bytes) : Prop :=
  ∃ base : Finset Bytes, (newStore file).known = base.image coerce ∧ store.known = base ∪ unsaved.toFinset ∧
    ∀ k ∈ unsaved, k ∉ base

/-- What holds of the file in all reachable states; `Save` works on the store as it is. -/
def OnDisk (file : Option Bytes) (store : Store) (unsaved : List Bytes) : Saver → Prop
  | .locked _ data => (∃ keys, store.Lists keys ∧ data = save keys) ∧ Holds file store unsaved
  | .truncated _ data => (∃ keys, store.Lists keys ∧ data = save keys) ∧ file = some []
  | _ => Holds file store unsaved

theorem coerce_newStore (file : Option Bytes) : (newStore file).known.image coerce = (newStore file).known := by
  have hid : ∀ k ∈ (newStore file).known, coerce k = k := fun k hk => coerce_of_valid (valid_of_mem_newStore hk)
  rw [Finset.image_congr hid, Finset.image_id']

theorem holds_newStore (file : Option Bytes) : Holds file (newStore file) [] :=
  ⟨_, (coerce_newStore file).symm, by simp, nofun⟩

theorem holds_save {store : Store} {keys : List Bytes} (h : store.Lists keys) : Holds (some (save keys)) store [] :=
  ⟨_, known_newStore_save h, by simp, nofun⟩

theorem holds_learn {store : Store} {unsaved : List Bytes} (h : Holds file store unsaved) (q : Combination) :
    Holds file (store.learn q) (if q.key ∈ store.known then unsaved else unsaved ++ [q.key]) := by
  obtain ⟨base, hfile, hstore, hnew⟩ := h
  split
  · rename_i hknown
    refine ⟨base, hfile, ?_, hnew⟩
    rw [← hstore]
    exact Finset.insert_eq_of_mem hknown
  · rename_i hunknown
    refine ⟨base, hfile, ?_, fun k hk => ?_⟩
    · show insert q.key store.known = _
      rw [hstore]
      ext k
      simp only [Finset.mem_insert, Finset.mem_union, List.mem_toFinset, List.mem_append, List.mem_singleton]
      tauto
    · rcases List.mem_append.1 hk with hk | hk
      · exact hnew k hk
      · rw [List.mem_singleton.1 hk]
        exact fun hb => hunknown (by rw [hstore]; exact Finset.mem_union_left _ hb)

/-- A file that holds the store has its keys exactly when none is unsaved and all are valid UTF-8. -/
theorem persisted_of_holds {store : Store} {unsaved : List Bytes} (h : Holds file store unsaved) :
    (∀ k ∈ store.known, k ∈ (newStore file).known) ↔ unsaved = [] ∧ ∀ k ∈ store.known, valid k = true := by
  obtain ⟨base, hfile, hstore, hnew⟩ := h
  constructor
  · intro hall
    have hvalid : ∀ k ∈ store.known, valid k = true := fun k hk => valid_of_mem_newStore (hall k hk)
    refine ⟨List.eq_nil_iff_forall_not_mem.2 fun k hk => ?_, hvalid⟩
    have hmem := hall k (by rw [hstore]; exact Finset.mem_union_right _ (List.mem_toFinset.2 hk))
    -- a key that the file has is of the base, and unchanged in it
    rw [hfile] at hmem
    obtain ⟨b, hb, rfl⟩ := Finset.mem_image.1 hmem
    refine hnew _ hk ?_
    rwa [coerce_of_valid (hvalid b (by rw [hstore]; exact Finset.mem_union_left _ hb))]
  · rintro ⟨rfl, hvalid⟩ k hk
    rw [hfile]
    refine Finset.mem_image.2 ⟨k, ?_, coerce_of_valid (hvalid k hk)⟩
    simpa [hstore] using hk

theorem holds_of_unlocked {store : Store} {unsaved : List Bytes} {saver : Saver} (hfree : saver.locks = false) :
    OnDisk file store unsaved saver ↔ Holds file store unsaved := by
  cases saver with
  | selecting | saving | returned => exact Iff.rfl
  | locked | truncated => cases hfree

theorem onDisk_step {e : Event} (hd : OnDisk s.file s.store s.unsaved s.saver) (h : Step cfg s e s') :
    OnDisk s'.file s'.store s'.unsaved s'.saver := by
  cases h with
  | saveTick saver | saveStop saver => rw [saver] at hd; exact hd
  | lock final keys saver lists =>
    rw [saver] at hd
    exact ⟨⟨keys, lists, rfl⟩, hd⟩
  | truncate final data saver =>
    rw [saver] at hd
    exact ⟨hd.1, rfl⟩
  | write final data saver =>
    rw [saver] at hd
    obtain ⟨⟨keys, hlists, rfl⟩, -⟩ := hd
    refine (holds_of_unlocked ?_).2 (holds_save hlists)
    cases final <;> rfl
  | learn k i j shared tasks trace free store =>
    have hholds := holds_learn ((holds_of_unlocked free).1 hd) j.event.combination
    refine (holds_of_unlocked free).2 ?_
    show Holds s.file shared.store _
    rw [store]
    exact hholds
  | act k i agent store =>
    show OnDisk s.file agent.shared.store s.unsaved s.saver
    rw [store]
    exact hd
  | _ => exact hd

theorem onDisk_of_reachable (h₀ : start cfg file logger clock = some shared)
    (h : Reachable (next cfg) (init file shared) s) : OnDisk s.file s.store s.unsaved s.saver := by
  refine h.invariant (I := fun s => OnDisk s.file s.store s.unsaved s.saver) ?_
    fun _ _ _ hd _ hnext => onDisk_step hd (step_of_next hnext).2
  have hstore : shared.store = newStore file := by rw [eq_of_start h₀]
  show Holds file shared.store []
  rw [hstore]
  exact holds_newStore file

/-- In every state of a run, and so when `main` returns, the file has all keys of the store exactly when no
`Save` has emptied it, no key has been learned since the last `Save`, and all keys are valid UTF-8; or when
there are no keys. -/
theorem persisted_iff (h₀ : start cfg file logger clock = some shared)
    (h : Reachable (next cfg) (init file shared) s) :
    Persisted s ↔ s.store.known = ∅ ∨
      (s.saver.emptied = false ∧ s.unsaved = [] ∧ ∀ k ∈ s.store.known, valid k = true) := by
  have hd := onDisk_of_reachable h₀ h
  have hnil : s.store.known = ∅ → Persisted s := fun hstore k hk => by rw [hstore] at hk; cases hk
  cases hemptied : s.saver.emptied with
  | true =>
    constructor
    · intro hp
      refine .inl (Finset.eq_empty_of_forall_notMem fun k hk => ?_)
      have hfile : s.file = some [] := by
        cases hsaver : s.saver with
        | truncated => rw [hsaver] at hd; exact hd.2
        | _ => rw [hsaver] at hemptied; cases hemptied
      have hmem := hp k hk
      rw [hfile] at hmem
      cases hmem
    · rintro (hstore | ⟨hno, -⟩)
      · exact hnil hstore
      · cases hno
  | false =>
    have hholds : Holds s.file s.store s.unsaved := by
      cases hsaver : s.saver with
      | truncated => rw [hsaver] at hemptied; cases hemptied
      | locked => rw [hsaver] at hd; exact hd.2
      | _ => rw [hsaver] at hd; exact hd
    rw [Persisted, persisted_of_holds hholds]
    constructor
    · exact fun hall => .inr ⟨rfl, hall⟩
    · rintro (hstore | ⟨-, hall⟩)
      · exact (persisted_of_holds hholds).1 (hnil hstore)
      · exact hall

/-! ## Returning -/

def learnConfig : Config := { liveConfig with mode := lit "learn" }

def beaconKey : Bytes := beacon.event.combination.key

/-- The beacon is learned. -/
def learning : List Event :=
  [.launch, .launch, .launch, .read beacon, .handle .connect, .act 0 {}, .act 0 {}]

/-- Three interrupts reach the closers, and `main` returns. -/
def closing : List Event :=
  ([.exec, .openat, .connect].flatMap fun l => [.sigint, .take l, .close l, .stop l]) ++ [.wait]

/-- `main` returns, with the beacon in the store and this as the file. -/
def returnsWith (file : Option Bytes) (s : State) : Bool :=
  s.main == .returning && s.file == file && s.unsaved == (if file.isNone then [beaconKey] else []) &&
    !s.saver.emptied && decide (s.store.known = {beaconKey})

theorem run_of_returnsWith (es : List Event) (file : Option Bytes)
    (hrun : ((start learnConfig none none 0).any fun sh =>
      (run (next learnConfig) es (init none sh)).any (returnsWith file)) = true) :
    ∃ sh s, start learnConfig none none 0 = some sh ∧ Reachable (next learnConfig) (init none sh) s ∧
      s.main = .returning ∧ s.file = file ∧ s.unsaved = (if file.isNone then [beaconKey] else []) ∧
      s.saver.emptied = false ∧ s.store.known = {beaconKey} := by
  obtain ⟨sh, s, hsh, h, hs⟩ := exists_of_run hrun
  simp only [returnsWith, Bool.and_eq_true, Bool.not_eq_true', beq_iff_eq, decide_eq_true_eq] at hs
  obtain ⟨⟨⟨⟨hmain, hfile⟩, hunsaved⟩, hemptied⟩, hstore⟩ := hs
  exact ⟨sh, s, hsh, h, hmain, hfile, hunsaved, hemptied, hstore⟩

theorem persisted_iff_saved : ∃ sh s, start learnConfig none none 0 = some sh ∧
    Reachable (next learnConfig) (init none sh) s ∧ s.main = .returning ∧ s.store.known = {beaconKey} ∧
    Persisted s := by
  obtain ⟨sh, s, hsh, h, hmain, -, hunsaved, hemptied, hstore⟩ :=
    run_of_returnsWith (learning ++ [.sigint, .saveStop, .lock [beaconKey], .truncate, .write] ++ closing)
      (some (save [beaconKey])) (by decide +kernel)
  refine ⟨sh, s, hsh, h, hmain, hstore, (persisted_iff hsh h).2 (.inr ⟨hemptied, hunsaved, fun k hk => ?_⟩)⟩
  rw [hstore, Finset.mem_singleton] at hk
  rw [hk]
  decide +kernel

/-- The closers get the signals, and the beacon is in no file when `main` returns. -/
theorem returning_unsaved : ∃ sh s, start learnConfig none none 0 = some sh ∧
    Reachable (next learnConfig) (init none sh) s ∧ s.main = .returning ∧ beaconKey ∈ s.store.known ∧
    s.file = none ∧ ¬ Persisted s := by
  obtain ⟨sh, s, hsh, h, hmain, hfile, -, -, hstore⟩ :=
    run_of_returnsWith (learning ++ closing) none (by decide +kernel)
  have hmem : beaconKey ∈ s.store.known := by
    rw [hstore]
    exact Finset.mem_singleton_self _
  refine ⟨sh, s, hsh, h, hmain, hmem, hfile, fun hp => ?_⟩
  have hlost := hp _ hmem
  rw [hfile] at hlost
  cases hlost

end WatchBPF.Agent.Lifecycle
