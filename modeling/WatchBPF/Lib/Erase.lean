/-
Tasks that leave no mark. Where some tasks change nothing that is shared, and no other task waits for them to start,
every run stays a run when they are taken out of it: the shared state is the same, and so is what each of the others
did. The others are numbered anew.
-/
import WatchBPF.Lib.Tasks

namespace WatchBPF.Tasks

variable {σ τ α ι : Type} {P : Program σ τ α ι} {J : σ → Prop} {start : σ} {w : World σ τ α} {loud : τ → Bool}

/-! ## Numbers -/

/-- The number of a task among those that stay; `stays` says for every task if it does. -/
def place (stays : List Bool) (k : Nat) : Nat := (stays.take k).count true

def rename (stays : List Bool) (p : Nat × α) : Option (Nat × α) :=
  if stays[p.1]? = some true then some (place stays p.1, p.2) else none

@[simp] theorem place_zero (stays : List Bool) : place stays 0 = 0 := rfl

@[simp] theorem place_cons_succ (b : Bool) (stays : List Bool) (k : Nat) :
    place (b :: stays) (k + 1) = place stays k + b.toNat := by
  cases b <;> simp [place]

/-- Those that stay keep different numbers. -/
theorem place_inj : ∀ {stays : List Bool} {k j : Nat}, stays[k]? = some true → stays[j]? = some true →
    place stays k = place stays j → k = j
  | [], _, _, hk, _, _ => by cases hk
  | b :: stays, 0, 0, _, _, _ => rfl
  | b :: stays, 0, j + 1, hk, _, h => by
    cases hk
    simp at h
  | b :: stays, k + 1, 0, _, hj, h => by
    cases hj
    simp at h
  | b :: stays, k + 1, j + 1, hk, hj, h => by
    rw [place_cons_succ, place_cons_succ] at h
    have hk' : stays[k]? = some true := hk
    have hj' : stays[j]? = some true := hj
    rw [place_inj hk' hj' (Nat.add_right_cancel h)]

theorem place_of_all : ∀ {stays : List Bool} {k : Nat}, (∀ b ∈ stays, b = true) → k ≤ stays.length → place stays k = k
  | _, 0, _, _ => rfl
  | [], k + 1, _, hk => by cases hk
  | b :: stays, k + 1, h, hk => by
    obtain ⟨rfl, hstays⟩ := List.forall_mem_cons.1 h
    have hk : k ≤ stays.length := Nat.le_of_succ_le_succ hk
    have ih := place_of_all hstays hk
    rw [place_cons_succ, ih]
    rfl

theorem rename_append {stays : List Bool} {p : Nat × α} (hp : p.1 < stays.length) (b : Bool) :
    rename (stays ++ [b]) p = rename stays p := by
  have hplace : place (stays ++ [b]) p.1 = place stays p.1 := by
    rw [place, place, List.take_append_of_le_length hp.le]
  rw [rename, rename, List.getElem?_append_left hp, hplace]

/-- Nothing that a task that stays has done is lost, and nothing is added. -/
theorem history_rename {stays : List Bool} {k : Nat} (hk : stays[k]? = some true) (trace : List (Nat × α)) :
    history (place stays k) (trace.filterMap (rename stays)) = history k trace := by
  induction trace with
  | nil => rfl
  | cons p trace ih =>
    obtain ⟨j, a⟩ := p
    rw [← List.singleton_append, List.filterMap_append, history_append, history_append, ih]
    congr 1
    by_cases hj : stays[j]? = some true
    · have hone : [(j, a)].filterMap (rename stays) = [(place stays j, a)] := by simp [rename, hj]
      rw [hone]
      by_cases hjk : j = k
      · rw [hjk, history_singleton_self, history_singleton_self]
      · rw [history_singleton_ne fun h => hjk (place_inj hj hk h), history_singleton_ne hjk]
    · have hnone : [(j, a)].filterMap (rename stays) = [] := by simp [rename, hj]
      have hjk : j ≠ k := by
        rintro rfl
        exact hj hk
      rw [hnone, history_nil, history_singleton_ne hjk]

/-! ## Lists of tasks -/

theorem getElem?_filter_of {l : List τ} {k : Nat} {t : τ} (h : l[k]? = some t) (ht : loud t = true) :
    (l.filter loud)[place (l.map loud) k]? = some t := by
  induction l generalizing k with
  | nil => cases h
  | cons t₁ l ih =>
    cases k with
    | zero =>
      cases h
      rw [List.filter_cons_of_pos ht]
      rfl
    | succ k =>
      rw [List.map_cons, place_cons_succ]
      cases h₁ : loud t₁ with
      | true => rw [List.filter_cons_of_pos h₁]; exact ih h
      | false => rw [List.filter_cons_of_neg (by simp [h₁])]; exact ih h

theorem filter_set_loud {l : List τ} {k : Nat} {t t' : τ} (h : l[k]? = some t) (ht : loud t = true)
    (ht' : loud t' = true) : (l.set k t').filter loud = (l.filter loud).set (place (l.map loud) k) t' := by
  induction l generalizing k with
  | nil => cases h
  | cons t₁ l ih =>
    cases k with
    | zero =>
      cases h
      rw [List.set_cons_zero, List.filter_cons_of_pos ht, List.filter_cons_of_pos ht']
      rfl
    | succ k =>
      rw [List.set_cons_succ, List.map_cons, place_cons_succ]
      cases h₁ : loud t₁ with
      | true => rw [List.filter_cons_of_pos h₁, List.filter_cons_of_pos h₁, ih h]; rfl
      | false => rw [List.filter_cons_of_neg (by simp [h₁]), List.filter_cons_of_neg (by simp [h₁]), ih h]; rfl

theorem filter_set_quiet {l : List τ} {k : Nat} {t t' : τ} (h : l[k]? = some t) (ht : loud t = false)
    (ht' : loud t' = false) : (l.set k t').filter loud = l.filter loud := by
  induction l generalizing k with
  | nil => cases h
  | cons t₁ l ih =>
    cases k with
    | zero =>
      cases h
      rw [List.set_cons_zero, List.filter_cons_of_neg (by simp [ht']), List.filter_cons_of_neg (by simp [ht])]
    | succ k => rw [List.set_cons_succ, List.filter_cons, List.filter_cons, ih h]

theorem map_set_of {l : List τ} {k : Nat} {t t' : τ} (h : l[k]? = some t) (ht : loud t' = loud t) :
    (l.set k t').map loud = l.map loud := by
  rw [List.map_set, ht]
  refine List.ext_getElem? fun i => ?_
  rw [List.getElem?_set]
  split
  · rename_i hik
    subst hik
    rw [List.length_map, if_pos (List.getElem?_eq_some_iff.1 h).1, List.getElem?_map, h]
    rfl
  · rfl

/-! ## Runs -/

/-- A run without the tasks that are not loud. -/
def erase (loud : τ → Bool) (w : World σ τ α) : World σ τ α where
  shared := w.shared
  tasks := w.tasks.filter loud
  trace := w.trace.filterMap (rename (w.tasks.map loud))

/-- The tasks that are not loud, and meet `Q`, change nothing that is shared, and nothing waits for them. -/
structure Unheard (P : Program σ τ α ι) (J : σ → Prop) (loud : τ → Bool) (Q : τ → Prop) : Prop where
  keeps : ∀ i s t a s' t', P.next i s t = some (a, s', t') → loud t' = loud t
  starts : ∀ ts t, P.admits ts t → P.admits (ts.filter loud) t ∧ (loud t = false → Q t)
  still : ∀ i s t a s' t', J s → loud t = false → Q t → P.next i s t = some (a, s', t') → s' = s ∧ Q t'

namespace Unheard

variable {Q : τ → Prop}

theorem quiet_of_reachable (hu : Unheard P J loud Q) (hk : Keeps P J) (hJ : J start) (h : Reachable P start w) :
    ∀ t ∈ w.tasks, loud t = false → Q t := by
  induction h with
  | refl => simp
  | @tail w _ hw hstep ih =>
    cases hstep with
    | start t₀ hadm =>
      intro t ht
      rcases List.mem_append.1 ht with ht | ht
      · exact ih t ht
      · rw [List.mem_singleton.1 ht]
        exact (hu.starts _ _ hadm).2
    | act k t₀ i a s t' here hnext =>
      intro t ht hquiet
      rcases List.mem_or_eq_of_mem_set ht with ht | rfl
      · exact ih t ht hquiet
      · rw [hu.keeps _ _ _ _ _ _ hnext] at hquiet
        have hQ := ih t₀ (List.mem_of_getElem? here) hquiet
        exact (hu.still _ _ _ _ _ _ (shared_of_reachable hk hJ hw) hquiet hQ hnext).2

/-- A task that starts renames nothing that was done. -/
theorem filterMap_rename_start (h : Reachable P start w) (t : τ) :
    w.trace.filterMap (rename ((w.tasks ++ [t]).map loud)) = w.trace.filterMap (rename (w.tasks.map loud)) := by
  refine List.filterMap_congr fun p hp => ?_
  rw [List.map_append]
  exact rename_append (by rw [List.length_map]; exact lt_of_mem_trace h hp) _

/-- A task that is not loud is not seen to start. -/
theorem erase_start (h : Reachable P start w) {t : τ} (ht : loud t = false) :
    erase loud { w with tasks := w.tasks ++ [t] } = erase loud w := by
  unfold erase
  simp only [filterMap_rename_start h, List.filter_append]
  rw [List.filter_cons_of_neg (by simp [ht]), List.filter_nil, List.append_nil]

/-- Nor is it seen to act. -/
theorem erase_act (hu : Unheard P J loud Q) (hk : Keeps P J) (hJ : J start) (h : Reachable P start w) {i : ι} {k : Nat}
    {t t' : τ} {a : α} {s : σ} (here : w.tasks[k]? = some t) (hnext : P.next i w.shared t = some (a, s, t'))
    (ht : loud t = false) :
    erase loud { shared := s, tasks := w.tasks.set k t', trace := w.trace ++ [(k, a)] } = erase loud w := by
  have hsame := hu.keeps _ _ _ _ _ _ hnext
  have hnone : [(k, a)].filterMap (rename (w.tasks.map loud)) = [] := by simp [rename, here, ht]
  have hQ := hu.quiet_of_reachable hk hJ h t (List.mem_of_getElem? here) ht
  obtain ⟨rfl, -⟩ := hu.still _ _ _ _ _ _ (shared_of_reachable hk hJ h) ht hQ hnext
  unfold erase
  simp only [map_set_of here hsame, List.filterMap_append]
  rw [ht] at hsame
  rw [hnone, filter_set_quiet here ht hsame, List.append_nil]

/-- What is left of a run is a run. -/
theorem reachable_erase (hu : Unheard P J loud Q) (hk : Keeps P J) (hJ : J start) (h : Reachable P start w) :
    Reachable P start (erase loud w) := by
  induction h with
  | refl => exact Relation.ReflTransGen.refl
  | @tail w _ hw hstep ih =>
    cases hstep with
    | start t hadm =>
      cases ht : loud t with
      | true =>
        unfold erase at ih ⊢
        simp only [filterMap_rename_start hw, List.filter_append]
        rw [List.filter_cons_of_pos ht]
        exact ih.tail (.start _ t (hu.starts _ _ hadm).1)
      | false =>
        rw [erase_start hw ht]
        exact ih
    | act k t i a s t' here hnext =>
      cases ht : loud t with
      | true =>
        -- a task that stays does in the rest of the run what it did
        have hsame := hu.keeps _ _ _ _ _ _ hnext
        unfold erase at ih ⊢
        simp only [map_set_of here hsame, List.filterMap_append]
        rw [ht] at hsame
        have hone : [(k, a)].filterMap (rename (w.tasks.map loud)) = [(place (w.tasks.map loud) k, a)] := by
          simp [rename, here, ht]
        rw [hone, filter_set_loud here ht hsame]
        exact ih.tail (.act _ _ t i a s t' (getElem?_filter_of here ht) hnext)
      | false =>
        rw [hu.erase_act hk hJ hw here hnext ht]
        exact ih

theorem erase_of_all (h : Reachable P start w) (hloud : ∀ t ∈ w.tasks, loud t = true) : erase loud w = w := by
  have hstays : ∀ b ∈ w.tasks.map loud, b = true := by
    rw [List.forall_mem_map]
    exact hloud
  have htrace : w.trace.filterMap (rename (w.tasks.map loud)) = w.trace := by
    have hsome : ∀ p ∈ w.trace, rename (w.tasks.map loud) p = some p := by
      intro p hp
      have hlt := lt_of_mem_trace h hp
      have hget := List.getElem?_eq_getElem hlt
      rw [rename, place_of_all hstays (by rw [List.length_map]; exact hlt.le), List.getElem?_map, hget,
        Option.map_some, hloud _ (List.getElem_mem hlt), if_pos rfl]
    rw [List.filterMap_congr hsome, List.filterMap_some]
  rw [erase, List.filter_eq_self.2 hloud, htrace]

/-- What runs leave when tasks are taken out are the runs that do not have them. -/
theorem image_erase (hu : Unheard P J loud Q) (hk : Keeps P J) (hJ : J start) :
    erase loud '' {w | Reachable P start w} = {w | Reachable P start w ∧ ∀ t ∈ w.tasks, loud t = true} := by
  refine Set.Subset.antisymm ?_ ?_
  · rintro _ ⟨w, hw, rfl⟩
    exact ⟨hu.reachable_erase hk hJ hw, fun t ht => (List.mem_filter.1 ht).2⟩
  · rintro w ⟨hw, hloud⟩
    exact ⟨w, hw, erase_of_all hw hloud⟩

end Unheard

end WatchBPF.Tasks
