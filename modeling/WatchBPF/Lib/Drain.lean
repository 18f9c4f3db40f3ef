/-
Runs in which no new task starts. Where every action uses up some of its task's rank, such a run is no longer than
the ranks allow; where some task can act as long as there is rank left, it goes on until there is none.
-/
import WatchBPF.Lib.Tasks

namespace WatchBPF.Tasks

variable {σ τ α ι : Type} {P : Program σ τ α ι} {start : σ} {w w' : World σ τ α} {rank : τ → Nat}

/-- A number of actions one after the other, while no task starts. -/
inductive Goes (P : Program σ τ α ι) : Nat → World σ τ α → World σ τ α → Prop
  | refl (w : World σ τ α) : Goes P 0 w w
  | act {n : Nat} {w w' : World σ τ α} (before : Goes P n w w') (k : Nat) (t : τ) (i : ι) (a : α) (s : σ) (t' : τ)
      (here : w'.tasks[k]? = some t) (h : P.next i w'.shared t = some (a, s, t')) :
      Goes P (n + 1) w { shared := s, tasks := w'.tasks.set k t', trace := w'.trace ++ [(k, a)] }

theorem Goes.reachable {n : Nat} (h : Goes P n w w') (hw : Reachable P start w) : Reachable P start w' := by
  induction h with
  | refl => exact hw
  | act _ k t i a s t' here hnext ih => exact (ih hw).tail (.act _ k t i a s t' here hnext)

/-- A task that can act with any input. -/
def Enabled (P : Program σ τ α ι) (w : World σ τ α) : Prop :=
  ∃ (k : Nat) (t : τ), w.tasks[k]? = some t ∧ ∀ i, (P.next i w.shared t).isSome = true

/-! ## Ranks -/

/-- Every action uses up some rank. -/
def Ranked (P : Program σ τ α ι) (rank : τ → Nat) : Prop :=
  ∀ i s t a s' t', P.next i s t = some (a, s', t') → rank t' < rank t

/-- What the tasks have left. -/
def total (rank : τ → Nat) (w : World σ τ α) : Nat := (w.tasks.map rank).sum

theorem sum_set_of {l : List τ} {k : Nat} {t : τ} (h : l[k]? = some t) (rank : τ → Nat) (t' : τ) :
    ((l.set k t').map rank).sum + rank t = (l.map rank).sum + rank t' := by
  induction l generalizing k with
  | nil => cases h
  | cons t₁ l ih =>
    cases k with
    | zero =>
      cases h
      simp only [List.set_cons_zero, List.map_cons, List.sum_cons]
      omega
    | succ k =>
      have hl := ih h
      simp only [List.set_cons_succ, List.map_cons, List.sum_cons]
      omega

theorem total_eq_zero : total rank w = 0 ↔ ∀ t ∈ w.tasks, rank t = 0 := by
  rw [total, List.sum_eq_zero_iff, List.forall_mem_map]

/-- The ranks bound what is still to come. -/
theorem Goes.le_total (hr : Ranked P rank) {n : Nat} (h : Goes P n w w') : n + total rank w' ≤ total rank w := by
  induction h with
  | refl => rw [Nat.zero_add]
  | @act n w w' _ k t i a s t' here hnext ih =>
    have hset := sum_set_of here rank t'
    have hlt := hr _ _ _ _ _ _ hnext
    unfold total at ih ⊢
    show n + 1 + ((w'.tasks.set k t').map rank).sum ≤ _
    omega

/-- They bound what there has been as well. -/
theorem length_trace_le {bound : Nat} (hr : Ranked P rank) (hb : ∀ ts t, P.admits ts t → rank t ≤ bound)
    (h : Reachable P start w) : w.trace.length + total rank w ≤ bound * w.tasks.length := by
  induction h with
  | refl => exact Nat.zero_le _
  | @tail w _ _ hstep ih =>
    unfold total at ih ⊢
    cases hstep with
    | start t hadm =>
      have hle := hb _ _ hadm
      simp only [List.map_append, List.map_cons, List.map_nil, List.sum_append, List.sum_cons, List.sum_nil,
        List.length_append, List.length_singleton, Nat.mul_succ]
      omega
    | act k t i a s t' here hnext =>
      have hset := sum_set_of here rank t'
      have hlt := hr _ _ _ _ _ _ hnext
      simp only [List.length_append, List.length_singleton, List.length_set]
      omega

/-- So do they for each task alone. -/
theorem length_history_le {bound : Nat} (hr : Ranked P rank) (hb : ∀ ts t, P.admits ts t → rank t ≤ bound)
    (h : Reachable P start w) : ∀ k t, w.tasks[k]? = some t → (history k w.trace).length + rank t ≤ bound := by
  induction h with
  | refl => exact nofun
  | @tail w w' hw hstep ih =>
    intro k t hk
    cases hstep with
    | start t₀ hadm =>
      rcases lt_or_ge k w.tasks.length with hlt | hge
      · rw [List.getElem?_append_left hlt] at hk
        exact ih k t hk
      · -- a new task has done nothing
        rw [List.getElem?_append_right hge] at hk
        rw [List.mem_singleton.1 (List.mem_of_getElem? hk), history_of_le hw hge, List.length_nil, Nat.zero_add]
        exact hb _ _ hadm
    | act k' t₀ i a s' t' here hnext =>
      by_cases heq : k' = k
      · subst heq
        obtain ⟨hlt, rfl⟩ := List.getElem?_eq_some_iff.1 hk
        rw [List.getElem_set_self, history_append, history_singleton_self, List.length_append, List.length_singleton]
        have hbefore := ih k' t₀ here
        have hless := hr _ _ _ _ _ _ hnext
        omega
      · rw [List.getElem?_set_ne heq] at hk
        rw [history_append, history_singleton_ne heq, List.append_nil]
        exact ih k t hk

/-- While there is rank left, some task can act. -/
def Progresses (P : Program σ τ α ι) (start : σ) (rank : τ → Nat) : Prop :=
  ∀ w, Reachable P start w → total rank w ≠ 0 → Enabled P w

/-- The tasks come to an end. -/
theorem exists_drained (hr : Ranked P rank) (hp : Progresses P start rank) (i : ι)
    (hw : Reachable P start w) : ∃ n w', Goes P n w w' ∧ total rank w' = 0 := by
  have go : ∀ m n w', Goes P n w w' → total rank w' ≤ m → ∃ n w', Goes P n w w' ∧ total rank w' = 0 := by
    intro m
    induction m with
    | zero => exact fun n w' h hle => ⟨n, w', h, Nat.le_zero.1 hle⟩
    | succ m ih =>
      intro n w' h hle
      by_cases h0 : total rank w' = 0
      · exact ⟨n, w', h, h0⟩
      · obtain ⟨k, t, here, hall⟩ := hp w' (h.reachable hw) h0
        obtain ⟨⟨a, s, t'⟩, hnext⟩ := Option.isSome_iff_exists.1 (hall i)
        have hset := sum_set_of here rank t'
        have hlt := hr _ _ _ _ _ _ hnext
        refine ih (n + 1) _ (h.act k t i a s t' here hnext) ?_
        unfold total at hle ⊢
        show ((w'.tasks.set k t').map rank).sum ≤ m
        omega
  exact go _ 0 w (.refl w) le_rfl

end WatchBPF.Tasks
