/-
Systems that events move from state to state. What holds at the start and is kept by every event holds of
all states a run reaches; where the events of a run are to meet a condition, it is enough to look at those
that do.
-/
import Mathlib.Tactic

namespace WatchBPF.Runs

variable {σ ε : Type}

/-- Reached from `start` by events that meet `ok` in the states they find; `next` is `none` where an event
cannot happen. -/
inductive Reach (next : ε → σ → Option σ) (ok : ε → σ → Prop) (start : σ) : σ → Prop
  | refl : Reach next ok start start
  | step (e : ε) (s s' : σ) (before : Reach next ok start s) (meets : ok e s) (h : next e s = some s') :
      Reach next ok start s'

variable {next : ε → σ → Option σ} {ok : ε → σ → Prop} {start : σ}

theorem Reach.invariant {I : σ → Prop} (init : I start)
    (step : ∀ e s s', I s → ok e s → next e s = some s' → I s') {s : σ} (h : Reach next ok start s) : I s := by
  induction h with
  | refl => exact init
  | step e s s' _ hok hnext ih => exact step e s s' ih hok hnext

/-- Events one after the other; `none` where one of them cannot happen. -/
def run (next : ε → σ → Option σ) : List ε → σ → Option σ
  | [], s => some s
  | e :: es, s => (next e s).bind (run next es)

/-- Without a condition on the events. -/
abbrev Reachable (next : ε → σ → Option σ) (start s : σ) : Prop := Reach next (fun _ _ => True) start s

theorem reachable_of_run : ∀ {es : List ε} {s s' : σ}, Reachable next start s → run next es s = some s' →
    Reachable next start s'
  | [], s, s', h, hrun => by cases hrun; exact h
  | e :: es, s, s', h, hrun => by
    obtain ⟨s₁, hnext, hrun⟩ := Option.bind_eq_some_iff.1 hrun
    exact reachable_of_run (.step e s s₁ h trivial hnext) hrun

theorem run_snoc {es : List ε} {e : ε} {s : σ} : run next (es ++ [e]) s = (run next es s).bind (next e) := by
  induction es generalizing s with
  | nil =>
    show (next e s).bind (run next []) = next e s
    cases next e s <;> rfl
  | cons e' es ih =>
    show (next e' s).bind (run next (es ++ [e])) = ((next e' s).bind (run next es)).bind (next e)
    rw [Option.bind_assoc]
    exact congrArg _ (funext fun _ => ih)

theorem reachable_iff {s : σ} : Reachable next start s ↔ ∃ es, run next es start = some s := by
  constructor
  · intro h
    induction h with
    | refl => exact ⟨[], rfl⟩
    | step e s s' _ _ hnext ih =>
      obtain ⟨es, hrun⟩ := ih
      exact ⟨es ++ [e], by rw [run_snoc, hrun, Option.bind_some, hnext]⟩
  · rintro ⟨es, hrun⟩
    exact reachable_of_run .refl hrun

/-- What holds of a run as far as it has come. -/
theorem run_induction {I : List ε → σ → Prop} (init : I [] start)
    (step : ∀ es e s s', I es s → next e s = some s' → I (es ++ [e]) s') {es : List ε} {s : σ}
    (h : run next es start = some s) : I es s := by
  induction es using List.reverseRecOn generalizing s with
  | nil =>
    cases h
    exact init
  | append_singleton es e ih =>
    rw [run_snoc] at h
    obtain ⟨s₁, h₁, hnext⟩ := Option.bind_eq_some_iff.1 h
    exact step es e s₁ s (ih h₁) hnext

/-- A run that passes a check, from a start there may not be, reaches what was checked. -/
theorem exists_of_run {α : Type} {o : Option α} {init : α → σ} {es : List ε} {check : σ → Bool}
    (h : (o.any fun a => (run next es (init a)).any check) = true) :
    ∃ a s, o = some a ∧ Reachable next (init a) s ∧ check s = true := by
  obtain ⟨a, ha, h⟩ := (Option.any_eq_true _ _).1 h
  obtain ⟨s, hrun, hs⟩ := (Option.any_eq_true _ _).1 h
  exact ⟨a, s, ha, reachable_of_run .refl hrun, hs⟩

/-! ## Bounded runs -/

/-- A number of events one after the other, each meeting `ok` in the state it finds. -/
inductive Goes (next : ε → σ → Option σ) (ok : ε → σ → Prop) : Nat → σ → σ → Prop
  | refl (s : σ) : Goes next ok 0 s s
  | step {n : Nat} {s s' : σ} (before : Goes next ok n s s') (e : ε) (s'' : σ) (meets : ok e s')
      (h : next e s' = some s'') : Goes next ok (n + 1) s s''

variable {n : Nat} {s s' : σ} {rank : σ → Nat}

theorem Goes.reachable (h : Goes next ok n s s') (hs : Reachable next start s) : Reachable next start s' := by
  induction h with
  | refl => exact hs
  | step _ e s'' _ hnext ih => exact .step e _ s'' (ih hs) trivial hnext

theorem Goes.invariant {I : σ → Prop} (init : I s) (step : ∀ e s s', I s → ok e s → next e s = some s' → I s')
    (h : Goes next ok n s s') : I s' := by
  induction h with
  | refl => exact init
  | step _ e s'' hok hnext ih => exact step e _ s'' (ih init) hok hnext

/-- Where every event uses up some rank, the rank bounds what is still to come. -/
theorem Goes.le_rank (hr : ∀ e s s', Reachable next start s → ok e s → next e s = some s' → rank s' < rank s)
    (h : Goes next ok n s s') (hs : Reachable next start s) : n + rank s' ≤ rank s := by
  induction h with
  | refl => rw [Nat.zero_add]
  | step before e s'' hok hnext ih =>
    have hlt := hr e _ s'' (before.reachable hs) hok hnext
    have hle := ih hs
    omega

/-- Where some event can happen as long as the run is not done, it gets done. -/
theorem exists_goes {D : σ → Prop}
    (hr : ∀ e s s', Reachable next start s → ok e s → next e s = some s' → rank s' < rank s)
    (hp : ∀ s, Reachable next start s → ¬ D s → ∃ e, ok e s ∧ (next e s).isSome = true)
    (hs : Reachable next start s) : ∃ n s', Goes next ok n s s' ∧ D s' := by
  have go : ∀ m n s', Goes next ok n s s' → rank s' = m → ∃ n s', Goes next ok n s s' ∧ D s' := by
    intro m
    induction m using Nat.strong_induction_on with
    | _ m ih =>
      rintro n s' h rfl
      by_cases hdone : D s'
      · exact ⟨n, s', h, hdone⟩
      · obtain ⟨e, hok, hsome⟩ := hp s' (h.reachable hs) hdone
        obtain ⟨s'', hnext⟩ := Option.isSome_iff_exists.1 hsome
        exact ih (rank s'') (hr e s' s'' (h.reachable hs) hok hnext) (n + 1) s'' (h.step e s'' hok hnext) rfl
  exact go _ 0 s (.refl s) rfl

end WatchBPF.Runs
