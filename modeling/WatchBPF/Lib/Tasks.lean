/-
Tasks over a shared state. Tasks are started at any time and act in any order, one action at a time,
each on the state and on the task itself. The trace of a run, cut down to one task, is a run of that
task alone that may find the shared state as it likes at every action.
-/
import Mathlib.Logic.Relation
import Mathlib.Tactic

namespace WatchBPF.Tasks

/-- What a run has reached: the tasks by number, and who did what. -/
structure World (σ τ α : Type) where
  shared : σ
  tasks : List τ := []
  trace : List (Nat × α) := []

/-- A program for tasks: which may start, and what a task does next with an input from outside. -/
structure Program (σ τ α ι : Type) where
  admits : List τ → τ → Prop
  next : ι → σ → τ → Option (α × σ × τ)

variable {σ τ α ι : Type} (P : Program σ τ α ι)

/-- A task starts, or one takes its next action. -/
inductive Step : World σ τ α → World σ τ α → Prop
  | start (w : World σ τ α) (t : τ) (h : P.admits w.tasks t) : Step w { w with tasks := w.tasks ++ [t] }
  | act (w : World σ τ α) (k : Nat) (t : τ) (i : ι) (a : α) (s : σ) (t' : τ) (here : w.tasks[k]? = some t)
      (h : P.next i w.shared t = some (a, s, t')) :
      Step w { shared := s, tasks := w.tasks.set k t', trace := w.trace ++ [(k, a)] }

/-- Reachable from a state without tasks. -/
def Reachable (start : σ) (w : World σ τ α) : Prop := Relation.ReflTransGen (Step P) { shared := start } w

/-- The actions of one task, in order. -/
def history (k : Nat) (trace : List (Nat × α)) : List α := (trace.filter fun p => p.1 == k).map (·.2)

/-- A task by itself; `J` is all that is known of the shared states. -/
inductive Script (J : σ → Prop) : τ → List α → τ → Prop
  | nil (t : τ) : Script J t [] t
  | snoc {t₀ t : τ} {as : List α} (i : ι) (s : σ) (a : α) (s' : σ) (t' : τ) (before : Script J t₀ as t) (hs : J s)
      (h : P.next i s t = some (a, s', t')) : Script J t₀ (as ++ [a]) t'

/-- No task's action breaks `J`. -/
def Keeps (J : σ → Prop) : Prop := ∀ i s t a s' t', J s → P.next i s t = some (a, s', t') → J s'

variable {P} {J : σ → Prop} {start : σ} {w : World σ τ α}

theorem shared_of_reachable (hk : Keeps P J) (h₀ : J start) (h : Reachable P start w) : J w.shared := by
  induction h with
  | refl => exact h₀
  | tail _ hstep ih =>
    cases hstep with
    | start => exact ih
    | act k t i a s t' _ hnext => exact hk _ _ _ _ _ _ ih hnext

@[simp] theorem history_nil (k : Nat) : history k ([] : List (Nat × α)) = [] := rfl

@[simp] theorem history_append (k : Nat) (l m : List (Nat × α)) : history k (l ++ m) = history k l ++ history k m := by
  simp [history]

@[simp] theorem history_singleton_self (k : Nat) (a : α) : history k [(k, a)] = [a] := by simp [history]

theorem history_singleton_ne {k j : Nat} (h : j ≠ k) (a : α) : history k [(j, a)] = [] := by
  simp [history, h]

theorem mem_history {k : Nat} {a : α} {l : List (Nat × α)} : a ∈ history k l ↔ (k, a) ∈ l := by
  simp [history]

/-- Only tasks act. -/
theorem lt_of_mem_trace (h : Reachable P start w) {k : Nat} {a : α} (ha : (k, a) ∈ w.trace) : k < w.tasks.length := by
  induction h with
  | refl => simp at ha
  | tail _ hstep ih =>
    cases hstep with
    | start t _ => rw [List.length_append]; exact Nat.lt_add_right _ (ih ha)
    | act j t i b s t' here _ =>
      rw [List.length_set]
      rcases List.mem_append.1 ha with ha | ha
      · exact ih ha
      · rw [List.mem_singleton, Prod.mk.injEq] at ha
        rw [ha.1]
        exact (List.getElem?_eq_some_iff.1 here).1

theorem history_of_le (h : Reachable P start w) {k : Nat} (hk : w.tasks.length ≤ k) : history k w.trace = [] := by
  rw [List.eq_nil_iff_forall_not_mem]
  intro a ha
  exact absurd (lt_of_mem_trace h (mem_history.1 ha)) (by omega)

/-- What a task did in a run is what it could do by itself. -/
theorem script_of_reachable (hk : Keeps P J) (h₀ : J start) (h : Reachable P start w) :
    ∀ {k : Nat} {t : τ}, w.tasks[k]? = some t → ∃ ts t₀, P.admits ts t₀ ∧ Script P J t₀ (history k w.trace) t := by
  induction h with
  | refl => intro k t ht; simp at ht
  | @tail w _ hw hstep ih =>
    intro k t ht
    cases hstep with
    | start t₁ hadm =>
      rcases lt_or_ge k w.tasks.length with hlt | hge
      · exact ih (by rwa [List.getElem?_append_left hlt] at ht)
      · rw [List.getElem?_append_right hge] at ht
        obtain ⟨-, rfl⟩ : k - w.tasks.length = 0 ∧ t₁ = t := by
          cases hd : k - w.tasks.length with
          | zero => rw [hd] at ht; exact ⟨rfl, by simpa using ht⟩
          | succ n => rw [hd] at ht; simp at ht
        rw [show history k w.trace = [] from history_of_le hw hge]
        exact ⟨_, _, hadm, .nil _⟩
    | act j t₁ i a s t' here hnext =>
      rw [history_append]
      by_cases hj : j = k
      · subst hj
        have hlt := (List.getElem?_eq_some_iff.1 here).1
        rw [List.getElem?_set_self hlt, Option.some.injEq] at ht
        subst ht
        obtain ⟨ts, t₀, hadm, hs⟩ := ih here
        rw [history_singleton_self]
        exact ⟨ts, t₀, hadm, .snoc i _ a s t' hs (shared_of_reachable hk h₀ hw) hnext⟩
      · rw [List.getElem?_set_ne hj] at ht
        rw [history_singleton_ne hj, List.append_nil]
        exact ih ht

/-- What holds of a task when it starts and is kept by its actions holds throughout its history. -/
theorem script_induction {I : τ → List α → Prop} {t₀ : τ} (init : I t₀ [])
    (step : ∀ i s t as a s' t', I t as → J s → P.next i s t = some (a, s', t') → I t' (as ++ [a]))
    {as : List α} {t : τ} (h : Script P J t₀ as t) : I t as := by
  induction h with
  | nil => exact init
  | snoc i s a s' t' _ hs hnext ih => exact step i s _ _ a s' t' ih hs hnext

/-- What every action of a task finds in its history, along with an invariant of that task. -/
theorem script_actions {I : τ → List α → Prop} {R : List α → α → Prop} {t₀ : τ} (init : I t₀ [])
    (step : ∀ i s t as a s' t', I t as → J s → P.next i s t = some (a, s', t') → I t' (as ++ [a]) ∧ R as a)
    {as : List α} {t : τ} (h : Script P J t₀ as t) : I t as ∧ ∀ pre a post, as = pre ++ a :: post → R pre a := by
  induction h with
  | nil => exact ⟨init, by simp⟩
  | snoc i s a s' t' _ hs hnext ih =>
    obtain ⟨hinv, hall⟩ := ih
    obtain ⟨hinv', hr⟩ := step i s _ _ a s' t' hinv hs hnext
    refine ⟨hinv', fun pre b post heq => ?_⟩
    rcases List.eq_nil_or_concat post with rfl | ⟨post, c, rfl⟩
    · obtain ⟨rfl, hab⟩ := List.append_inj' heq rfl
      rwa [List.singleton_inj.1 hab] at hr
    · rw [List.concat_eq_append, ← List.cons_append, ← List.append_assoc] at heq
      exact hall pre b post (List.append_inj' heq rfl).1

/-! ## Schedules -/

inductive Move (τ ι : Type)
  | start (t : τ)
  | act (k : Nat) (i : ι)

/-- A schedule carried out; `none` where a move cannot be made. -/
def exec (P : Program σ τ α ι) [∀ ts t, Decidable (P.admits ts t)] :
    World σ τ α → List (Move τ ι) → Option (World σ τ α)
  | w, [] => some w
  | w, .start t :: ms =>
    if P.admits w.tasks t then exec P { w with tasks := w.tasks ++ [t] } ms else none
  | w, .act k i :: ms =>
    match w.tasks[k]? with
    | none => none
    | some t =>
      match P.next i w.shared t with
      | none => none
      | some (a, s, t') => exec P { shared := s, tasks := w.tasks.set k t', trace := w.trace ++ [(k, a)] } ms

theorem steps_of_exec [∀ ts t, Decidable (P.admits ts t)] : ∀ {ms : List (Move τ ι)} {w w' : World σ τ α},
    exec P w ms = some w' → Relation.ReflTransGen (Step P) w w'
  | [], w, w', h => by cases h; exact .refl
  | .start t :: ms, w, w', h => by
    rw [exec] at h
    split at h
    · exact .head (.start w t ‹_›) (steps_of_exec h)
    · cases h
  | .act k i :: ms, w, w', h => by
    rw [exec] at h
    split at h
    · cases h
    · split at h
      · cases h
      · exact .head (.act w k _ i _ _ _ ‹_› ‹_›) (steps_of_exec h)

/-- A schedule that passes a check, from a start there may not be, reaches what was checked. -/
theorem reachable_of_exec [∀ ts t, Decidable (P.admits ts t)] {o : Option σ} {ms : List (Move τ ι)}
    {check : World σ τ α → Bool} (h : (o.any fun s => (exec P { shared := s } ms).any check) = true) :
    ∃ s w, o = some s ∧ Reachable P s w ∧ check w = true := by
  obtain ⟨s, hs, h⟩ := (Option.any_eq_true _ _).1 h
  obtain ⟨w, hexec, hw⟩ := (Option.any_eq_true _ _).1 h
  exact ⟨s, w, hs, steps_of_exec hexec, hw⟩

end WatchBPF.Tasks
