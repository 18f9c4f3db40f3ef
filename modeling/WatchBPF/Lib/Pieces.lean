/-
Splitting a list at a class of its elements: the maximal runs of the class, and one piece for each
other element. The pieces of a list exist, are unique, and a run can be exchanged for any other run.
-/
import WatchBPF.Lib.Bytes

namespace WatchBPF

section Pieces

variable {α : Type} (p : α → Bool)

/-- `ts` are the pieces of `s`: a run of the class ends where the next element is outside of it. -/
inductive Pieces : List α → List (List α) → Prop
  | nil : Pieces [] []
  | other {a : α} {s : List α} {ts : List (List α)} : p a = false → Pieces s ts → Pieces (a :: s) ([a] :: ts)
  | run {t s : List α} {ts : List (List α)} : t ≠ [] → (∀ a ∈ t, p a = true) → (∀ a ∈ s.head?, p a = false) →
      Pieces s ts → Pieces (t ++ s) (t :: ts)

variable {p}

namespace Pieces

theorem flatten {s : List α} {ts : List (List α)} (h : Pieces p s ts) : ts.flatten = s := by
  induction h with
  | nil => rfl
  | other _ _ ih => rw [List.flatten_cons, ih, List.singleton_append]
  | run _ _ _ _ ih => rw [List.flatten_cons, ih]

/-- In front of an element outside the class stands its own piece. -/
theorem of_other {a : α} {s : List α} {us : List (List α)} (ha : p a = false) (h : Pieces p (a :: s) us) :
    ∃ us', us = [a] :: us' ∧ Pieces p s us' := by
  generalize hs : a :: s = s' at h
  cases h with
  | nil => cases hs
  | @other b s' us' hb h =>
    obtain ⟨rfl, rfl⟩ := List.cons.inj hs
    exact ⟨us', rfl, h⟩
  | @run t s' us' hne ht _ _ =>
    obtain ⟨b, t, rfl⟩ := List.exists_cons_of_ne_nil hne
    obtain ⟨rfl, -⟩ := List.cons.inj hs
    have := ht a List.mem_cons_self
    rw [ha] at this
    cases this

/-- In front of an element of the class stands the longest run. -/
theorem of_run {a : α} {s : List α} {us : List (List α)} (ha : p a = true) (h : Pieces p (a :: s) us) :
    ∃ us', us = (a :: s).takeWhile p :: us' ∧ Pieces p ((a :: s).dropWhile p) us' := by
  generalize hs : a :: s = s' at h
  cases h with
  | nil => cases hs
  | @other b s' us' hb h =>
    obtain ⟨rfl, rfl⟩ := List.cons.inj hs
    rw [ha] at hb
    cases hb
  | @run t s' us' _ ht hnext h =>
    rw [takeWhile_append_other ht hnext, dropWhile_append_other ht hnext]
    exact ⟨us', rfl, h⟩

theorem unique {s : List α} {ts us : List (List α)} (h : Pieces p s ts) (h' : Pieces p s us) : ts = us := by
  induction h generalizing us with
  | nil =>
    generalize hs : ([] : List α) = s at h'
    cases h' with
    | nil => rfl
    | other => cases hs
    | run hne => exact absurd (List.append_eq_nil_iff.1 hs.symm).1 hne
  | other ha _ ih =>
    obtain ⟨us', rfl, hs⟩ := of_other ha h'
    rw [ih hs]
  | @run t s ts hne ht hnext _ ih =>
    obtain ⟨a, t, rfl⟩ := List.exists_cons_of_ne_nil hne
    obtain ⟨us', hus, hs⟩ := of_run (ht a List.mem_cons_self) h'
    change us = ((a :: t) ++ s).takeWhile p :: us' at hus
    change Pieces p (((a :: t) ++ s).dropWhile p) us' at hs
    rw [dropWhile_append_other ht hnext] at hs
    rw [hus, takeWhile_append_other ht hnext, ih hs]

/-- What the pieces of a list begin with, when it does not begin with the class. -/
theorem head_other {s : List α} {ts : List (List α)} (h : Pieces p s ts) (hs : ∀ a ∈ s.head?, p a = false) :
    ts = [] ∨ ∃ a ts', p a = false ∧ ts = [a] :: ts' := by
  cases h with
  | nil => exact .inl rfl
  | other ha _ => exact .inr ⟨_, _, ha, rfl⟩
  | @run t s ts hne ht _ _ =>
    obtain ⟨a, t, rfl⟩ := List.exists_cons_of_ne_nil hne
    have := hs a rfl
    rw [ht a List.mem_cons_self] at this
    cases this

/-- A run may be exchanged for another one: the other pieces stay. -/
theorem exchange {ts us : List (List α)} {d d' : List α} (hd : ∀ a ∈ d, p a = true) (hd' : ∀ a ∈ d', p a = true)
    (hne : d' ≠ []) {s : List α} (h : Pieces p s (ts ++ d :: us)) :
    Pieces p (ts.flatten ++ (d' ++ us.flatten)) (ts ++ d' :: us) := by
  induction ts generalizing s with
  | nil =>
    rw [List.nil_append] at h
    cases h with
    | @other a s _ ha h =>
      rw [hd a List.mem_cons_self] at ha
      cases ha
    | run _ _ hnext h =>
      rw [← h.flatten] at hnext
      refine .run hne hd' hnext ?_
      rw [h.flatten]
      exact h
  | cons t ts ih =>
    rw [List.cons_append] at h
    rw [List.flatten_cons, List.append_assoc, List.cons_append]
    cases h with
    | other ha h => exact .other ha (ih h)
    | run ht htp hnext h =>
      refine .run ht htp ?_ (ih h)
      -- after a run comes no run: the piece exchanged is not the next one
      cases ts with
      | nil =>
        rcases h.head_other hnext with hnil | ⟨a, ts', ha, hcons⟩
        · cases hnil
        · obtain ⟨rfl, -⟩ := List.cons.inj hcons
          rw [hd a List.mem_cons_self] at ha
          cases ha
      | cons u ts =>
        rcases h.head_other hnext with hnil | ⟨a, ts', ha, hcons⟩
        · cases hnil
        · obtain ⟨rfl, -⟩ := List.cons.inj hcons
          intro b hb
          cases hb
          exact ha

end Pieces

end Pieces

end WatchBPF
