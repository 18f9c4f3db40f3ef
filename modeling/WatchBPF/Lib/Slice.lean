/-
Go slices that start at the front of their backing array. Filtering in place, `s[:0]` with `append`
while ranging over `s`, writes behind the reader and leaves the elements that a filter keeps.
-/
import Mathlib.Tactic

namespace WatchBPF

/-- A slice of the first `len` elements of its backing array. -/
structure Slice (α : Type) where
  array : List α
  len : Nat
  le_cap : len ≤ array.length

namespace Slice

variable {α : Type} (p : α → Bool)

def elems (s : Slice α) : List α := s.array.take s.len

/-- The nil slice. -/
def nil : Slice α := ⟨[], 0, le_rfl⟩

@[simp] theorem elems_nil : (nil : Slice α).elems = [] := rfl

@[simp] theorem length_elems (s : Slice α) : s.elems.length = s.len := by
  simp [elems, s.le_cap]

/-! ## Appending -/

/-- `append(s, x)`: in place if there is room, else in a new array that has `spare` room as well. -/
def append (spare : List α) (s : Slice α) (x : α) : Slice α :=
  if h : s.len < s.array.length then ⟨s.array.set s.len x, s.len + 1, by simpa using h⟩
  else ⟨s.elems ++ x :: spare, s.len + 1, by simp⟩

theorem elems_append (spare : List α) (s : Slice α) (x : α) : (s.append spare x).elems = s.elems ++ [x] := by
  unfold append
  split
  · rename_i h
    show (s.array.set s.len x).take (s.len + 1) = _
    rw [List.take_add_one, List.take_set_of_le le_rfl, List.getElem?_set_self h]
    rfl
  · show (s.elems ++ x :: spare).take (s.len + 1) = _
    rw [List.take_append, List.take_of_length_le (by simp), length_elems, Nat.add_sub_cancel_left]
    rfl

/-! ## Filtering in place -/

/-- The loop of `n` rounds over the array `a`: the next element is read at `i`, one that passes is
written at `j`. -/
def filterLoop : Nat → List α → Nat → Nat → List α × Nat
  | 0, a, _, j => (a, j)
  | n + 1, a, i, j =>
    match a[i]? with
    | none => (a, j)
    | some x => if p x then filterLoop n (a.set j x) (i + 1) (j + 1) else filterLoop n a (i + 1) j

/-- As the writer is never ahead of the reader, what is read is what was there. -/
theorem filterLoop_spec : ∀ {n : Nat} {a : List α} {i j : Nat}, j ≤ i → i + n ≤ a.length →
    (filterLoop p n a i j).1.length = a.length ∧
      (filterLoop p n a i j).2 = j + (((a.drop i).take n).filter p).length ∧
      (filterLoop p n a i j).1.take (filterLoop p n a i j).2 = a.take j ++ ((a.drop i).take n).filter p
  | 0, a, i, j, _, _ => by simp [filterLoop]
  | n + 1, a, i, j, hj, hn => by
    have hi : i < a.length := by omega
    have hread : (a.drop i).take (n + 1) = a[i] :: (a.drop (i + 1)).take n := by
      rw [List.drop_eq_getElem_cons hi, List.take_succ_cons]
    rw [filterLoop, List.getElem?_eq_getElem hi, hread]
    simp only
    split
    · rename_i hp
      -- the write is behind the next read, which finds the array as it was
      obtain ⟨hlen, hcount, helems⟩ := filterLoop_spec (n := n) (a := a.set j a[i]) (i := i + 1) (j := j + 1)
        (by omega) (by simp; omega)
      rw [List.drop_set_of_lt (by omega)] at hcount helems
      rw [List.take_add_one, List.take_set_of_le le_rfl, List.getElem?_set_self (by omega)] at helems
      rw [List.filter_cons_of_pos hp]
      refine ⟨by rw [hlen, List.length_set], by rw [hcount, List.length_cons]; omega, ?_⟩
      rw [helems]
      simp
    · rename_i hp
      obtain ⟨hlen, hcount, helems⟩ := filterLoop_spec (n := n) (a := a) (i := i + 1) (j := j) (by omega) (by omega)
      rw [List.filter_cons_of_neg hp]
      exact ⟨hlen, hcount, helems⟩

/-- `out := s[:0]; for _, x := range s { if p(x) { out = append(out, x) } }` -/
def filterInPlace (s : Slice α) : Slice α where
  array := (filterLoop p s.len s.array 0 0).1
  len := (filterLoop p s.len s.array 0 0).2
  le_cap := by
    have hcap := s.le_cap
    obtain ⟨hlen, hcount, -⟩ := filterLoop_spec p (n := s.len) (a := s.array) (i := 0) (j := 0) le_rfl (by omega)
    have hle := List.length_filter_le p ((s.array.drop 0).take s.len)
    rw [List.length_take] at hle
    omega

theorem elems_filterInPlace (s : Slice α) : (s.filterInPlace p).elems = s.elems.filter p := by
  have hcap := s.le_cap
  obtain ⟨-, -, helems⟩ := filterLoop_spec p (n := s.len) (a := s.array) (i := 0) (j := 0) le_rfl (by omega)
  exact helems

end Slice

end WatchBPF
