/-
Critical sections of one mutex, run by any number of goroutines. A section is a program of atomic
actions; goroutines call, wait, enter in any order, act one action at a time and leave. Whatever the
schedule, the state is as if the sections had run whole, one after the other in lock order.
-/
import Mathlib.Logic.Relation
import Mathlib.Tactic

namespace WatchBPF.Mutex

/-- A critical section: actions on the shared state, each choosing the rest from what it saw. -/
inductive Prog (σ : Type)
  | done
  | act (upd : σ → σ) (next : σ → Prog σ)

/-- A section run whole. -/
def Prog.run {σ : Type} : Prog σ → σ → σ
  | done, s => s
  | act upd next, s => (next s).run (upd s)

variable {σ κ : Type}

/-- What a schedule has reached. -/
structure Config (σ κ : Type) where
  shared : σ
  /-- every call made so far -/
  called : List κ := []
  /-- calls that have not entered -/
  waiting : List κ := []
  /-- calls that have entered, in lock order -/
  order : List κ := []
  /-- what is left of the section under way -/
  holder : Option (Prog σ) := none

/-- One step of one goroutine. `idle` is what may happen to the state while nobody holds the lock. -/
inductive Step (exec : κ → Prog σ) (idle : σ → σ → Prop) : Config σ κ → Config σ κ → Prop
  | call (c : Config σ κ) (k : κ) :
      Step exec idle c { c with called := c.called ++ [k], waiting := c.waiting ++ [k] }
  | lock (c : Config σ κ) (k : κ) (before after : List κ) (free : c.holder = none)
      (waits : c.waiting = before ++ k :: after) :
      Step exec idle c
        { c with waiting := before ++ after, order := c.order ++ [k], holder := some (exec k) }
  | act (c : Config σ κ) (upd : σ → σ) (next : σ → Prog σ) (holds : c.holder = some (.act upd next)) :
      Step exec idle c { c with shared := upd c.shared, holder := some (next c.shared) }
  | unlock (c : Config σ κ) (holds : c.holder = some .done) : Step exec idle c { c with holder := none }
  | idle (c : Config σ κ) (s : σ) (free : c.holder = none) (h : idle c.shared s) :
      Step exec idle c { c with shared := s }

variable {exec : κ → Prog σ} {idle : σ → σ → Prop}

/-- Reachable from `start` before any call. -/
def Reachable (exec : κ → Prog σ) (idle : σ → σ → Prop) (start : σ) (c : Config σ κ) : Prop :=
  Relation.ReflTransGen (Step exec idle) { shared := start } c

/-- The shared state once the section under way has run to its end. -/
def Config.settled (c : Config σ κ) : σ :=
  match c.holder with
  | none => c.shared
  | some p => p.run c.shared

theorem settled_of_free {c : Config σ κ} (h : c.holder = none) : c.settled = c.shared := by
  rw [Config.settled, h]

/-- What holds at the start and is kept by every whole section, and by what happens in between,
holds of every schedule. -/
theorem settled_induction {I : List κ → σ → Prop} {start : σ} (init : I [] start)
    (call : ∀ ks k s, I ks s → I (ks ++ [k]) ((exec k).run s))
    (between : ∀ ks s t, I ks s → idle s t → I ks t) {c : Config σ κ}
    (h : Reachable exec idle start c) : I c.order c.settled := by
  induction h with
  | refl => exact init
  | tail _ hstep ih =>
    cases hstep with
    | call k => exact ih
    | lock k before after free waits =>
      rw [settled_of_free free] at ih
      exact call _ _ _ ih
    | act upd next holds => simpa [Config.settled, holds, Prog.run] using ih
    | unlock holds => simpa [Config.settled, holds, Prog.run] using ih
    | idle s free hs =>
      rw [settled_of_free free] at ih
      simpa [Config.settled, free] using between _ _ _ ih hs

/-- No call is lost and none enters twice. -/
theorem order_perm {start : σ} {c : Config σ κ} (h : Reachable exec idle start c) :
    (c.order ++ c.waiting).Perm c.called := by
  induction h with
  | refl => exact .refl _
  | tail _ hstep ih =>
    cases hstep with
    | call k => rw [← List.append_assoc]; exact ih.append_right [k]
    | lock k before after free waits =>
      refine .trans ?_ ih
      rw [waits, List.append_assoc]
      have hk : (before ++ k :: after).Perm (k :: (before ++ after)) := List.perm_middle
      exact hk.symm.append_left _
    | act | unlock | idle => exact ih

/-- Nothing is under way when every call made has come back. -/
theorem order_perm_called {start : σ} {c : Config σ κ} (h : Reachable exec idle start c)
    (hw : c.waiting = []) : c.order.Perm c.called := by
  simpa [hw] using order_perm h

/-- Without steps in between, a schedule runs the sections one after the other. -/
theorem settled_eq_foldl {start : σ} {c : Config σ κ} (h : Reachable exec (fun _ _ => False) start c) :
    c.settled = c.order.foldl (fun s k => (exec k).run s) start :=
  settled_induction (I := fun ks s => s = ks.foldl (fun s k => (exec k).run s) start) rfl
    (fun ks k s hs => by rw [List.foldl_append, ← hs]; rfl) (fun _ _ _ _ hf => hf.elim) h

/-! ## What every action does -/

/-- Every action of the section is within `R`, whatever it finds. -/
def Prog.Within (R : σ → σ → Prop) : Prog σ → Prop
  | done => True
  | act upd next => (∀ s, R s (upd s)) ∧ ∀ s, (next s).Within R

/-- What every action does, and what happens in between, happens to the state throughout a schedule; nobody need
have left the section. -/
theorem within_of_reachable {R : σ → σ → Prop} (refl : ∀ s, R s s) (trans : ∀ s t u, R s t → R t u → R s u)
    (sections : ∀ k, (exec k).Within R) (between : ∀ s t, idle s t → R s t) {start : σ} {c : Config σ κ}
    (h : Reachable exec idle start c) : R start c.shared := by
  have hboth : R start c.shared ∧ ∀ p, c.holder = some p → p.Within R := by
    induction h with
    | refl => exact ⟨refl start, nofun⟩
    | tail _ hstep ih =>
      obtain ⟨hshared, hholder⟩ := ih
      cases hstep with
      | call => exact ⟨hshared, hholder⟩
      | lock k =>
        refine ⟨hshared, fun p hp => ?_⟩
        cases hp
        exact sections k
      | act upd next holds =>
        obtain ⟨hupd, hnext⟩ := hholder _ holds
        refine ⟨trans _ _ _ hshared (hupd _), fun p hp => ?_⟩
        cases hp
        exact hnext _
      | unlock => exact ⟨hshared, nofun⟩
      | idle s free hs => exact ⟨trans _ _ _ hshared (between _ _ hs), hholder⟩
  exact hboth.1

/-! ## Schedules without contention -/

theorem run_holder {c : Config σ κ} {p : Prog σ} (h : c.holder = some p) :
    Relation.ReflTransGen (Step exec idle) c { c with shared := p.run c.shared, holder := none } := by
  induction p generalizing c with
  | done => exact .single (.unlock c h)
  | act upd next ih => exact .head (.act c upd next h) (ih c.shared rfl)

/-- A call made while nobody waits can run at once. -/
theorem run_call {c : Config σ κ} (free : c.holder = none) (hw : c.waiting = []) (k : κ) :
    Relation.ReflTransGen (Step exec idle) c
      { c with shared := (exec k).run c.shared, called := c.called ++ [k], order := c.order ++ [k] } := by
  obtain ⟨shared, called, waiting, order, holder⟩ := c
  obtain rfl : waiting = [] := hw
  obtain rfl : holder = none := free
  refine .head (.call _ k) (.head (.lock _ k [] [] rfl rfl) ?_)
  exact run_holder (p := exec k) rfl

/-- One call after the other. -/
theorem reachable_calls (start : σ) (ks : List κ) :
    Reachable exec idle start
      { shared := ks.foldl (fun s k => (exec k).run s) start, called := ks, order := ks } := by
  induction ks using List.reverseRecOn with
  | nil => exact .refl
  | append_singleton ks k ih =>
    have := ih.trans (run_call rfl rfl k)
    rwa [List.foldl_append]

end WatchBPF.Mutex
