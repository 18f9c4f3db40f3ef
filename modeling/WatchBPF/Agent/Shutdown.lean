/-
What an interrupt stops. The save goroutine and the three closers wait for the same signal, and each signal
reaches one of them: it takes four that find the channel empty before all readers are closed and the last
`Save` is done, and `main` may return without that `Save`.
-/
import WatchBPF.Agent.Lifecycle
import WatchBPF.Agent.Enforce

namespace WatchBPF.Agent.Lifecycle

open WatchBPF.Audit WatchBPF.Baseline WatchBPF.Runs

variable {cfg : Config} {file : Option Bytes} {shared : Shared} {s s' : State}

/-! ## Who has had a signal -/

def Saver.took : Saver → Bool
  | saving final | locked final _ | truncated final _ => final
  | returned => true
  | selecting => false

def Closer.took : Closer → Bool
  | closing | returned => true
  | _ => false

/-- How many goroutines have had a signal. -/
def takers (saver : Saver) (closer : Label → Closer) : Nat :=
  saver.took.toNat + (closer .exec).took.toNat + (closer .openat).took.toNat + (closer .connect).took.toNat

theorem takers_saver (saver saver' : Saver) (closer : Label → Closer) :
    takers saver' closer + saver.took.toNat = takers saver closer + saver'.took.toNat := by
  unfold takers
  omega

theorem takers_closer (saver : Saver) (closer : Label → Closer) (l : Label) (c : Closer) :
    takers saver (Function.update closer l c) + (closer l).took.toNat = takers saver closer + c.took.toNat := by
  cases l <;> simp [takers, Function.update] <;> omega

/-- What holds of signals and goroutines in all reachable states. -/
structure Inv (s : State) : Prop where
  signals : s.accepted = s.stopper.toNat + takers s.saver s.closer
  closed : ∀ l, s.closed l = true ↔ s.closer l = .returned
  readers : ∀ l, s.reader l = .returned → s.closed l = true
  main : s.main = .returning ∨ s.main = .exited → ∀ l, s.reader l = .returned
  fresh : ∀ rest, s.main = .launching rest → rest.Nodup ∧ ∀ l ∈ rest, s.closer l = .absent ∧ s.reader l = .absent

theorem inv_init : Inv (init file shared) where
  signals := rfl
  closed l := iff_of_false nofun nofun
  readers l h := nomatch h
  main h := by rcases h with h | h <;> cases h
  fresh rest h := by
    cases h
    exact ⟨by decide, fun l _ => ⟨rfl, rfl⟩⟩

namespace Inv

variable {l : Label}

/-- A closer that has been started is none of those still to be. -/
theorem fresh_closer (hi : Inv s) (h : s.closer l ≠ .absent) (c : Closer) : ∀ rest, s.main = .launching rest →
    rest.Nodup ∧ ∀ l' ∈ rest, Function.update s.closer l c l' = .absent ∧ s.reader l' = .absent := by
  intro rest hmain
  obtain ⟨hnodup, hfresh⟩ := hi.fresh rest hmain
  refine ⟨hnodup, fun l' hl' => ⟨?_, (hfresh l' hl').2⟩⟩
  have hne : l' ≠ l := fun heq => h (heq ▸ (hfresh l' hl').1)
  rw [Function.update_of_ne hne]
  exact (hfresh l' hl').1

/-- A closer that does not return leaves its reader open. -/
theorem closed_update (hi : Inv s) {c : Closer} (hold : s.closer l ≠ .returned) (hc : c ≠ .returned) (l' : Label) :
    s.closed l' = true ↔ Function.update s.closer l c l' = .returned := by
  rcases eq_or_ne l' l with rfl | hne
  · rw [hi.closed, Function.update_self]
    exact iff_of_false hold hc
  · rw [hi.closed, Function.update_of_ne hne]

/-- A read loop that runs may go on, or return if its reader is closed. -/
theorem reader_update (hi : Inv s) {c : Reader} (habsent : s.reader l ≠ .absent) (hreturned : s.reader l ≠ .returned)
    (hc : c = .returned → s.closed l = true) : Inv { s with reader := Function.update s.reader l c } where
  signals := hi.signals
  closed := hi.closed
  readers l' h := by
    rcases eq_or_ne l' l with rfl | hne
    · exact hc (by simpa using h)
    · exact hi.readers l' (by simpa [hne] using h)
  main h := absurd (hi.main h l) hreturned
  fresh rest hmain := by
    obtain ⟨hnodup, hfresh⟩ := hi.fresh rest hmain
    refine ⟨hnodup, fun l' hl' => ⟨(hfresh l' hl').1, ?_⟩⟩
    have hne : l' ≠ l := fun heq => habsent (heq ▸ (hfresh l' hl').2)
    simpa [hne] using (hfresh l' hl').2

end Inv

theorem inv_step {e : Event} (hi : Inv s) (h : Step cfg s e s') : Inv s' := by
  cases h with
  | launch l rest main =>
    obtain ⟨hnodup, hfresh⟩ := hi.fresh _ main
    obtain ⟨hl, hnodup⟩ := List.nodup_cons.1 hnodup
    obtain ⟨hcloser, hreader⟩ := hfresh l List.mem_cons_self
    constructor
    case signals =>
      -- the closer is new and has had no signal
      have htakers := takers_closer s.saver s.closer l .waiting
      rw [hcloser] at htakers
      exact hi.signals.trans (congrArg _ htakers.symm)
    case closed => exact hi.closed_update (by rw [hcloser]; nofun) nofun
    case readers =>
      intro l' h
      rcases eq_or_ne l' l with rfl | hne
      · simp at h
      · exact hi.readers l' (by simpa [hne] using h)
    case main => exact fun h => by rcases h with h | h <;> cases h
    case fresh =>
      intro rest' h
      cases h
      refine ⟨hnodup, fun l' hl' => ?_⟩
      have hne : l' ≠ l := fun heq => hl (heq ▸ hl')
      simpa [hne] using hfresh l' (List.mem_cons_of_mem _ hl')
  | dropped => exact { hi with }
  | accepted empty =>
    refine { hi with signals := ?_ }
    have hsignals := hi.signals
    rw [empty] at hsignals
    show s.accepted + 1 = 1 + takers s.saver s.closer
    rw [hsignals, Nat.add_comm]
    exact congrArg _ (Nat.zero_add _)
  | tick => exact { hi with }
  | saveTick saver => exact { hi with signals := hi.signals.trans (by rw [saver]; rfl) }
  | saveStop saver full =>
    -- the signal goes from the channel to the save goroutine
    refine { hi with signals := ?_ }
    have hsignals := hi.signals
    have htakers := takers_saver s.saver (.saving true) s.closer
    rw [full] at hsignals
    rw [saver] at hsignals htakers
    show s.accepted = 0 + takers (.saving true) s.closer
    have hnone : Saver.selecting.took.toNat = 0 := rfl
    have hone : (Saver.saving true).took.toNat = 1 := rfl
    have hfull : true.toNat = 1 := rfl
    omega
  | lock final keys saver => exact { hi with signals := hi.signals.trans (by rw [saver]; rfl) }
  | truncate final data saver => exact { hi with signals := hi.signals.trans (by rw [saver]; rfl) }
  | write final data saver => exact { hi with signals := hi.signals.trans (by rw [saver]; cases final <;> rfl) }
  | take l closer full =>
    -- the signal goes from the channel to the closer
    have hsignals := hi.signals
    have htakers := takers_closer s.saver s.closer l .closing
    rw [full] at hsignals
    rw [closer] at htakers
    have hnone : Closer.waiting.took.toNat = 0 := rfl
    have hone : Closer.closing.took.toNat = 1 := rfl
    have hfull : true.toNat = 1 := rfl
    constructor
    case signals =>
      show s.accepted = 0 + takers s.saver (Function.update s.closer l .closing)
      omega
    case closed => exact hi.closed_update (by rw [closer]; nofun) nofun
    case readers => exact hi.readers
    case main => exact hi.main
    case fresh => exact hi.fresh_closer (by rw [closer]; nofun) _
  | close l closer =>
    constructor
    case signals =>
      -- it is the signal that the closer has had already
      have htakers := takers_closer s.saver s.closer l .returned
      rw [closer] at htakers
      exact hi.signals.trans (congrArg _ (Nat.add_right_cancel htakers).symm)
    case closed =>
      intro l'
      rcases eq_or_ne l' l with rfl | hne
      · simp
      · simp [hi.closed, hne]
    case readers =>
      intro l' h
      rcases eq_or_ne l' l with rfl | hne
      · simp
      · simpa [hne] using hi.readers l' h
    case main => exact hi.main
    case fresh => exact hi.fresh_closer (by rw [closer]; nofun) _
  | read r reader => exact hi.reader_update (by rw [reader]; nofun) (by rw [reader]; nofun) nofun
  | handle l r reader =>
    exact { hi.reader_update (l := l) (c := .reading) (by rw [reader]; nofun) (by rw [reader]; nofun) nofun with }
  | learn | act => exact { hi with }
  | stop l reader closed =>
    exact hi.reader_update (by rw [reader]; nofun) (by rw [reader]; nofun) fun _ => closed
  | wait stopped =>
    exact { hi with main := fun _ => stopped, fresh := fun _ h => nomatch h }
  | exit main => exact { hi with main := fun _ => hi.main (.inl main), fresh := fun _ h => nomatch h }

theorem inv_of_reachable (h : Reachable (next cfg) (init file shared) s) : Inv s :=
  h.invariant inv_init fun _ _ _ hi _ hnext => inv_step hi (step_of_next hnext).2

/-! ## Rest -/

/-- The steps by which the save goroutine, the closers and the read loops end. -/
def Event.endsGoroutine (s : State) : Event → Bool
  | saveStop | take _ | close _ | stop _ => true
  | lock _ | truncate | write => s.saver.took
  | _ => false

/-- None of these goroutines can take a further step towards its end. -/
def AtRest (cfg : Config) (s : State) : Prop := ∀ e : Event, e.endsGoroutine s = true → next cfg e s = none

/-- Before `main` exits, a goroutine at rest that has had a signal has ended. -/
theorem returned_of_atRest (h : AtRest cfg s) (hmain : s.main ≠ .exited) :
    (s.saver.took = true → s.saver = .returned) ∧ ∀ l, (s.closer l).took = true → s.closer l = .returned := by
  constructor
  · intro htook
    cases hsaver : s.saver with
    | selecting => rw [hsaver] at htook; cases htook
    | returned => rfl
    | saving final =>
      have hlists : s.store.Lists s.store.known.toList := ⟨Finset.nodup_toList _, Finset.toList_toFinset _⟩
      have hnone := h (.lock s.store.known.toList) htook
      unfold next at hnone
      rw [if_neg hmain] at hnone
      simp only [hsaver, if_pos hlists] at hnone
      cases hnone
    | locked final data =>
      have hnone := h .truncate htook
      unfold next at hnone
      rw [if_neg hmain] at hnone
      simp only [hsaver] at hnone
      cases hnone
    | truncated final data =>
      have hnone := h .write htook
      unfold next at hnone
      rw [if_neg hmain] at hnone
      simp only [hsaver] at hnone
      cases hnone
  · intro l htook
    cases hcloser : s.closer l with
    | absent | waiting => rw [hcloser] at htook; cases htook
    | returned => rfl
    | closing =>
      have hnone := h (.close l) rfl
      unfold next at hnone
      rw [if_neg hmain] at hnone
      simp only [hcloser, if_true] at hnone
      cases hnone

/-! ## The order of steps -/

/-- The save goroutine has had the signal, and has written the file since. -/
def SavedLast (es : List Event) : Prop := ∃ before after, es = before ++ .saveStop :: after ∧ .write ∈ after

theorem savedLast_snoc {es : List Event} {e : Event} :
    SavedLast (es ++ [e]) ↔ SavedLast es ∨ e = .write ∧ .saveStop ∈ es := by
  constructor
  · rintro ⟨before, after, heq, hwrite⟩
    cases after using List.reverseRecOn with
    | nil => cases hwrite
    | append_singleton after e' =>
      rw [← List.cons_append, ← List.append_assoc] at heq
      obtain ⟨rfl, hlast⟩ := List.append_inj' heq rfl
      obtain rfl := List.singleton_inj.1 hlast
      rcases List.mem_append.1 hwrite with hwrite | hwrite
      · exact .inl ⟨before, after, rfl, hwrite⟩
      · exact .inr ⟨(List.mem_singleton.1 hwrite).symm, by simp⟩
  · rintro (⟨before, after, rfl, hwrite⟩ | ⟨rfl, hstop⟩)
    · exact ⟨before, after ++ [e], by simp, List.mem_append_left _ hwrite⟩
    · obtain ⟨before, after, rfl⟩ := List.append_of_mem hstop
      exact ⟨before, after ++ [.write], by simp, by simp⟩

/-- How far the save goroutine and `main` are, by the events so far. -/
structure Order (es : List Event) (s : State) : Prop where
  stop : .saveStop ∈ es ↔ s.saver.took = true
  saved : SavedLast es ↔ s.saver = .returned
  exit : .exit ∈ es ↔ s.main = .exited

theorem Order.step {es : List Event} {e : Event} (ho : Order es s) (hmain : s.main ≠ .exited) (h : Step cfg s e s') :
    Order (es ++ [e]) s' := by
  obtain ⟨hstop, hsaved, hexit⟩ := ho
  have hstops : .saveStop ∈ es ++ [e] ↔ s.saver.took = true ∨ .saveStop = e := by
    rw [List.mem_append, List.mem_singleton, hstop]
  have hsaves : SavedLast (es ++ [e]) ↔ s.saver = .returned ∨ e = .write ∧ s.saver.took = true := by
    rw [savedLast_snoc, hsaved, hstop]
  have hexits : .exit ∈ es ++ [e] ↔ .exit = e := by
    rw [List.mem_append, List.mem_singleton, hexit]
    exact or_iff_right hmain
  refine ⟨hstops.trans ?_, hsaves.trans ?_, hexits.trans ?_⟩
  · cases h with
    | saveTick saver | saveStop saver | lock final keys saver | truncate final data saver =>
      rw [saver]
      simp [Saver.took]
    | write final data saver =>
      rw [saver]
      cases final <;> simp [Saver.took]
    | _ => simp
  · cases h with
    | saveTick saver | saveStop saver | lock final keys saver | truncate final data saver =>
      rw [saver]
      simp
    | write final data saver =>
      rw [saver]
      cases final <;> simp [Saver.took]
    | _ => simp
  · cases h with
    | exit => simp
    | launch | wait => simp
    | _ => simp [hmain]

theorem order_of_run {es : List Event} (h : run (next cfg) es (init file shared) = some s) : Order es s := by
  refine run_induction (I := Order) ⟨?_, ?_, ?_⟩ (fun es e s s' ho hnext => ?_) h
  · exact iff_of_false (List.not_mem_nil) Bool.false_ne_true
  · refine iff_of_false ?_ nofun
    rintro ⟨before, after, heq, -⟩
    exact List.append_ne_nil_of_right_ne_nil before (List.cons_ne_nil _ _) heq.symm
  · exact iff_of_false (List.not_mem_nil) nofun
  · obtain ⟨hmain, hstep⟩ := step_of_next hnext
    exact ho.step hmain hstep

/-- `main` exits with the last event, if at all. -/
theorem last_of_exited {es : List Event} (h : run (next cfg) es (init file shared) = some s)
    (hmain : s.main = .exited) : ∃ before, es = before ++ [.exit] ∧ .exit ∉ before := by
  have hexit := (order_of_run h).exit.2 hmain
  cases es using List.reverseRecOn with
  | nil => cases hexit
  | append_singleton before e =>
    rw [run_snoc] at h
    obtain ⟨s₁, h₁, hnext⟩ := Option.bind_eq_some_iff.1 h
    have hbefore : .exit ∉ before := fun hmem => (step_of_next hnext).1 ((order_of_run h₁).exit.1 hmem)
    rcases List.mem_append.1 hexit with hmem | hmem
    · exact absurd hmem hbefore
    · rw [← List.mem_singleton.1 hmem]
      exact ⟨before, rfl, hbefore⟩

/-- `main` exits after the last `Save` only, if it has not exited before. -/
theorem exits_saved_iff {es : List Event} (h : run (next cfg) es (init file shared) = some s) :
    (∀ before after, es = before ++ .exit :: after → SavedLast before) ↔ (s.main = .exited → s.saver = .returned) := by
  have ho := order_of_run h
  have hsnoc : ∀ before, SavedLast (before ++ [.exit]) ↔ SavedLast before := by
    intro before
    rw [savedLast_snoc]
    simp
  constructor
  · intro hall hmain
    obtain ⟨before, rfl, -⟩ := last_of_exited h hmain
    exact ho.saved.1 ((hsnoc before).2 (hall before [] rfl))
  · rintro hsaved before after rfl
    have hmain := ho.exit.1 (by simp)
    obtain ⟨before', heq, hnot⟩ := last_of_exited h hmain
    cases after using List.reverseRecOn with
    | nil => exact (hsnoc before).1 (ho.saved.2 (hsaved hmain))
    | append_singleton after e =>
      -- nothing comes after the exit
      rw [← List.cons_append, ← List.append_assoc] at heq
      obtain ⟨rfl, -⟩ := List.append_inj' heq rfl
      exact absurd (by simp) hnot

/-! ## All goroutines -/

/-- At rest and with the channel empty, all readers are closed and the last `Save` is done exactly when four
signals found the channel empty and `main` has exited, if at all, after the save goroutine had its signal and wrote
the file. -/
theorem shut_down_iff {es : List Event} (h : run (next cfg) es (init file shared) = some s) (hempty : s.stopper = false)
    (hrest : AtRest cfg s) :
    (∀ l, s.closed l = true) ∧ s.saver = .returned ↔
      4 ≤ s.accepted ∧ ∀ before after, es = before ++ .exit :: after → SavedLast before := by
  have hi := inv_of_reachable (reachable_iff.2 ⟨es, h⟩)
  have hsignals := hi.signals
  rw [hempty] at hsignals
  have hzero : false.toNat = 0 := rfl
  rw [exits_saved_iff h]
  constructor
  · rintro ⟨hclosed, hsaver⟩
    refine ⟨?_, fun _ => hsaver⟩
    -- what has ended has had a signal
    have htook : ∀ l, (s.closer l).took.toNat = 1 := fun l => by rw [(hi.closed l).1 (hclosed l)]; rfl
    have hsaved : s.saver.took.toNat = 1 := by rw [hsaver]; rfl
    unfold takers at hsignals
    have hexec := htook .exec
    have hopen := htook .openat
    have hconnect := htook .connect
    omega
  · rintro ⟨hfour, hexit⟩
    by_cases hmain : s.main = .exited
    · exact ⟨fun l => hi.readers l (hi.main (.inr hmain) l), hexit hmain⟩
    · obtain ⟨hsaver, hcloser⟩ := returned_of_atRest hrest hmain
      -- four goroutines have had a signal, so all have
      have hle : ∀ b : Bool, b.toNat ≤ 1 := Bool.toNat_le
      have hall : ∀ b : Bool, 1 ≤ b.toNat → b = true := fun b hb => by cases b; cases hb; rfl
      unfold takers at hsignals
      have hsaved := hle s.saver.took
      have hexec := hle (s.closer .exec).took
      have hopen := hle (s.closer .openat).took
      have hconnect := hle (s.closer .connect).took
      refine ⟨fun l => (hi.closed l).2 (hcloser l (hall _ ?_)), hsaver (hall _ (by omega))⟩
      cases l with
      | exec | openat | connect => omega

/-! ## One signal, and four -/

theorem atRest_of {s : State} (hstopper : s.stopper = false) (hsaver : s.saver = .returned)
    (hcloser : ∀ l, s.closer l ≠ .closing) (hreader : ∀ l, s.reader l = .reading → s.closed l = false) :
    AtRest cfg s := by
  intro e he
  unfold next
  split
  · rfl
  · cases e with
    | saveStop => exact if_neg fun h => by rw [hstopper] at h; cases h.2
    | take l => exact if_neg fun h => by rw [hstopper] at h; cases h.2
    | close l => exact if_neg (hcloser l)
    | stop l => exact if_neg fun h => by rw [hreader l h.1] at h; cases h.2.1
    | lock | truncate | write => simp only [hsaver]
    | _ => cases he

/-- An interrupt is delivered, and the save goroutine takes it. -/
def savedOnly : List Event := [.launch, .launch, .launch, .sigint, .saveStop, .lock [], .truncate, .write]

/-- One interrupt for each goroutine, taken at once. -/
def stopped : List Event :=
  [.launch, .launch, .launch, .sigint, .take .exec, .close .exec, .stop .exec,
    .sigint, .take .openat, .close .openat, .stop .openat,
    .sigint, .take .connect, .close .connect, .stop .connect,
    .sigint, .saveStop, .lock [], .truncate, .write]

/-- The signals have been taken and the save goroutine has ended; what became of closers and readers. -/
def settled (s : State) (accepted : Nat) (closer : Closer) (reader : Reader) (closed : Bool) : Bool :=
  !s.stopper && s.saver == .returned && s.accepted == accepted && s.delivered == accepted &&
    s.main == .launching [] && [Label.exec, .openat, .connect].all fun l =>
      s.closer l == closer && s.reader l == reader && s.closed l == closed

theorem run_of_settled (es : List Event) (accepted : Nat) (closer : Closer) (reader : Reader) (closed : Bool)
    (hrun : ((start liveConfig none none 0).any fun sh =>
      (run (next liveConfig) es (init none sh)).any fun s => settled s accepted closer reader closed) = true) :
    ∃ sh s, start liveConfig none none 0 = some sh ∧ run (next liveConfig) es (init none sh) = some s ∧
      s.stopper = false ∧ s.saver = .returned ∧ s.accepted = accepted ∧ s.delivered = accepted ∧
      s.main = .launching [] ∧ ∀ l, s.closer l = closer ∧ s.reader l = reader ∧ s.closed l = closed := by
  obtain ⟨sh, hsh, hrun⟩ := (Option.any_eq_true _ _).1 hrun
  obtain ⟨s, h, hs⟩ := (Option.any_eq_true _ _).1 hrun
  simp only [settled, Bool.and_eq_true, Bool.not_eq_true', beq_iff_eq, List.all_eq_true] at hs
  obtain ⟨⟨⟨⟨⟨hstopper, hsaver⟩, hacc⟩, hdel⟩, hmain⟩, hall⟩ := hs
  refine ⟨sh, s, hsh, h, hstopper, hsaver, hacc, hdel, hmain, fun l => ?_⟩
  obtain ⟨⟨hc, hr⟩, hcl⟩ := hall l (by cases l <;> decide)
  exact ⟨hc, hr, hcl⟩

theorem shut_down_iff_four : ∃ sh s, start liveConfig none none 0 = some sh ∧
    Reachable (next liveConfig) (init none sh) s ∧ s.accepted = 4 ∧ (∀ l, s.closed l = true) ∧
    s.saver = .returned := by
  obtain ⟨sh, s, hsh, h, hstopper, hsaver, hacc, -, -, hall⟩ :=
    run_of_settled stopped 4 .returned .returned true (by decide +kernel)
  have hrest : AtRest liveConfig s := atRest_of hstopper hsaver (fun l => by rw [(hall l).1]; nofun)
    fun l h => by rw [(hall l).2.1] at h; cases h
  have hnever : .exit ∉ stopped := by simp [stopped]
  refine ⟨sh, s, hsh, reachable_of_run .refl h, hacc,
    (shut_down_iff h hstopper hrest).2 ⟨hacc.ge, fun before after heq => absurd ?_ hnever⟩⟩
  rw [heq]
  simp

/-- After one interrupt the agent no longer saves, and all its readers go on. -/
theorem interrupt_swallowed : ∃ sh s, start liveConfig none none 0 = some sh ∧
    Reachable (next liveConfig) (init none sh) s ∧ s.delivered = 1 ∧ s.stopper = false ∧ AtRest liveConfig s ∧
    ∀ l, s.closed l = false := by
  obtain ⟨sh, s, hsh, h, hstopper, hsaver, -, hdel, -, hall⟩ :=
    run_of_settled savedOnly 1 .waiting .reading false (by decide +kernel)
  have hrest : AtRest liveConfig s := atRest_of hstopper hsaver (fun l => by rw [(hall l).1]; nofun)
    fun l _ => (hall l).2.2
  exact ⟨sh, s, hsh, reachable_of_run .refl h, hdel, hstopper, hrest, fun l => (hall l).2.2⟩

end WatchBPF.Agent.Lifecycle
