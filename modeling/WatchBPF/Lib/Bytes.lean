/-
Byte strings: Go strings and byte slices as lists of bytes, the laws of texts joined with a
separator, and scanners that take a piece at a time off the front of their input.
-/
import Mathlib.Tactic

namespace WatchBPF

/-- A Go string or byte slice. -/
abbrev Bytes := List UInt8

instance : LawfulBEq Bytes := inferInstance

/-- The bytes of a string literal. -/
def lit (s : String) : Bytes := s.toUTF8.data.toList

/-- A property of the elements of a closed list, by evaluation. -/
theorem forall_of_all {α : Type} {p : α → Prop} [DecidablePred p] {l : List α} (h : (l.all fun a => p a) = true) :
    ∀ a ∈ l, p a := by
  simpa using h

/-! ## Runs of a class -/

section Class

variable {α : Type} {p : α → Bool} {t s : List α}

theorem takeWhile_append_other (ht : ∀ a ∈ t, p a = true) (hs : ∀ a ∈ s.head?, p a = false) :
    (t ++ s).takeWhile p = t := by
  rw [List.takeWhile_append_of_pos ht]
  cases s with
  | nil => exact List.append_nil t
  | cons b s => rw [List.takeWhile_cons_of_neg (by rw [hs b rfl]; exact Bool.false_ne_true), List.append_nil]

theorem dropWhile_append_other (ht : ∀ a ∈ t, p a = true) (hs : ∀ a ∈ s.head?, p a = false) :
    (t ++ s).dropWhile p = s := by
  rw [List.dropWhile_append_of_pos ht]
  cases s with
  | nil => rfl
  | cons b s => rw [List.dropWhile_cons_of_neg (by rw [hs b rfl]; exact Bool.false_ne_true)]

/-- Behind elements outside the class nothing changes. -/
theorem takeWhile_append_none (t : List α) (hs : ∀ a ∈ s, p a = false) : (t ++ s).takeWhile p = t.takeWhile p := by
  induction t with
  | nil => exact takeWhile_append_other nofun fun a ha => hs a (List.mem_of_mem_head? ha)
  | cons b t ih => rw [List.cons_append, List.takeWhile_cons, List.takeWhile_cons, ih]

theorem dropWhile_append_none (t : List α) (hs : ∀ a ∈ s, p a = false) :
    (t ++ s).dropWhile p = t.dropWhile p ++ s := by
  induction t with
  | nil => exact dropWhile_append_other nofun fun a ha => hs a (List.mem_of_mem_head? ha)
  | cons b t ih =>
    rw [List.cons_append, List.dropWhile_cons, List.dropWhile_cons, ih]
    split <;> rfl

end Class

/-! ## Texts joined with a separator -/

theorem mem_intercalate {α : Type} {sep : List α} {x : α} : ∀ {l : List (List α)},
    x ∈ sep.intercalate l → x ∈ sep ∨ ∃ w ∈ l, x ∈ w
  | [], h => by simp at h
  | [w], h => .inr ⟨w, by simp, by simpa using h⟩
  | w :: w' :: l, h => by
    simp only [List.intercalate_cons_cons, List.append_assoc, List.mem_append] at h
    rcases h with h | h | h
    · exact .inr ⟨w, by simp, h⟩
    · exact .inl h
    · rcases mem_intercalate h with h | ⟨v, hv, h⟩
      · exact .inl h
      · exact .inr ⟨v, List.mem_cons_of_mem _ hv, h⟩

section Join

variable {α : Type} [BEq α] [LawfulBEq α] {sep : α}

/-- Two texts cut at a separator are equal piecewise when the cuts are equally deep. -/
theorem append_sep_inj : ∀ {a b x y : List α}, a ++ sep :: x = b ++ sep :: y →
    a.count sep = b.count sep → a = b ∧ x = y
  | [], [], x, y, h, _ => ⟨rfl, by simpa using h⟩
  | [], c :: b, x, y, h, hc => by
    simp only [List.nil_append, List.cons_append, List.cons.injEq] at h
    obtain ⟨rfl, -⟩ := h
    simp at hc
  | c :: a, [], x, y, h, hc => by
    simp only [List.nil_append, List.cons_append, List.cons.injEq] at h
    obtain ⟨rfl, -⟩ := h
    simp at hc
  | c :: a, d :: b, x, y, h, hc => by
    simp only [List.cons_append, List.cons.injEq] at h
    obtain ⟨rfl, h⟩ := h
    have hc' : a.count sep = b.count sep := by
      simp only [List.count_cons] at hc; omega
    obtain ⟨rfl, rfl⟩ := append_sep_inj h hc'
    exact ⟨rfl, rfl⟩

/-- A text is determined after its last separator. -/
theorem append_sep_inj_right {a b x y : List α} (h : a ++ sep :: x = b ++ sep :: y)
    (hx : sep ∉ x) (hy : sep ∉ y) : a = b ∧ x = y := by
  apply append_sep_inj h
  have hc := congrArg (List.count sep) h
  simpa [List.count_append, List.count_eq_zero_of_not_mem hx, List.count_eq_zero_of_not_mem hy]
    using hc

/-- Joined pieces with equally many separators each are equal. -/
theorem intercalate_inj : ∀ {as bs : List (List α)},
    List.Forall₂ (fun a b => a.count sep = b.count sep) as bs →
    [sep].intercalate as = [sep].intercalate bs → as = bs
  | [], [], _, _ => rfl
  | [a], [b], _, h => by simpa using h
  | a :: a' :: as, b :: b' :: bs, .cons hab hr, h => by
    simp only [List.intercalate_cons_cons, List.append_assoc, List.singleton_append] at h
    obtain ⟨rfl, h'⟩ := append_sep_inj h hab
    rw [intercalate_inj hr h']
  | [_], _ :: _ :: _, .cons _ hr, _ => by cases hr
  | _ :: _ :: _, [_], .cons _ hr, _ => by cases hr

/-- Pieces without the separator are determined by the text they make. -/
theorem intercalate_inj_of_not_mem : ∀ {as bs : List (List α)}, as ≠ [] → bs ≠ [] →
    (∀ a ∈ as, sep ∉ a) → (∀ b ∈ bs, sep ∉ b) → [sep].intercalate as = [sep].intercalate bs → as = bs
  | [a], [b], _, _, _, _, h => by simpa using h
  | [a], b :: b' :: bs, _, _, ha, _, h => by
    simp only [List.intercalate_singleton, List.intercalate_cons_cons, List.append_assoc, List.singleton_append] at h
    exact absurd (by rw [h]; simp) (ha a (by simp))
  | a :: a' :: as, [b], _, _, _, hb, h => by
    simp only [List.intercalate_singleton, List.intercalate_cons_cons, List.append_assoc, List.singleton_append] at h
    exact absurd (by rw [← h]; simp) (hb b (by simp))
  | a :: a' :: as, b :: b' :: bs, _, _, ha, hb, h => by
    simp only [List.intercalate_cons_cons, List.append_assoc, List.singleton_append] at h
    obtain ⟨rfl, h'⟩ := append_sep_inj h (by
      rw [List.count_eq_zero_of_not_mem (ha a (by simp)), List.count_eq_zero_of_not_mem (hb b (by simp))])
    have hrest : a' :: as = b' :: bs := intercalate_inj_of_not_mem (by simp) (by simp)
      (fun x hx => ha x (by simp [hx])) (fun x hx => hb x (by simp [hx])) h'
    rw [hrest]

end Join

/-! ## Scanners -/

section Chop

variable {α β : Type} (step : α → List α → β × List α)

/-- `chop` with a bound on the number of pieces. -/
def chopN : Nat → List α → List β
  | n + 1, a :: s => (step a s).1 :: chopN n (step a s).2
  | _, _ => []

/-- The pieces `step` takes off the front of the input, one after the other. -/
def chop (s : List α) : List β := chopN step s.length s

@[simp] theorem chop_nil : chop step [] = [] := rfl

variable {step} (hstep : ∀ a s, (step a s).2.length ≤ s.length)
include hstep

/-- A bound of at least the length of the input is no bound. -/
theorem chopN_eq : ∀ (n m : Nat) (s : List α), s.length ≤ n → s.length ≤ m →
    chopN step n s = chopN step m s
  | n, m, [], _, _ => by cases n <;> cases m <;> rfl
  | 0, _, _ :: _, h, _ => by simp at h
  | _ + 1, 0, _ :: _, _, h => by simp at h
  | n + 1, m + 1, a :: s, hn, hm => by
    have hle := hstep a s
    simp only [List.length_cons] at hn hm
    simp only [chopN]
    rw [chopN_eq n m _ (by omega) (by omega)]

theorem chop_cons (a : α) (s : List α) :
    chop step (a :: s) = (step a s).1 :: chop step (step a s).2 := by
  show _ :: chopN step s.length _ = _ :: chopN step _ _
  rw [chopN_eq hstep s.length _ _ (hstep a s) le_rfl]

/-- Induction along the pieces. -/
theorem chop_induction {P : List α → Prop} (nil : P [])
    (cons : ∀ a s, P (step a s).2 → P (a :: s)) (s : List α) : P s := by
  induction hn : s.length using Nat.strong_induction_on generalizing s with
  | _ n ih =>
    cases s with
    | nil => exact nil
    | cons a s =>
      refine cons a s (ih _ ?_ _ rfl)
      have := hstep a s
      simp only [List.length_cons] at hn
      omega

end Chop

end WatchBPF
