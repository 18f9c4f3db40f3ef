/-
Numerals in base ten and sixteen: `%d` and `strconv.AppendInt` with their inverses
`strconv.ParseUint` and `ParseInt`, and `hex.EncodeToString`.
-/
import WatchBPF.Lib.Bytes
import Mathlib.Data.Nat.Digits.Defs

namespace WatchBPF.Numeral

/-! ## Digits -/

/-- The digit of a value below sixteen, in lower case. -/
def digit (d : Nat) : UInt8 := if d < 10 then UInt8.ofNat (48 + d) else UInt8.ofNat (87 + d)

def isDigit (c : UInt8) : Bool := 48 ≤ c.toNat && c.toNat ≤ 57

theorem toNat_digit {d : Nat} (h : d < 16) :
    (digit d).toNat = if d < 10 then 48 + d else 87 + d := by
  unfold digit
  split <;> simp only [UInt8.toNat_ofNat'] <;> omega

theorem isDigit_digit {d : Nat} (h : d < 10) : isDigit (digit d) = true := by
  rw [isDigit, toNat_digit (by omega), if_pos h]
  simp only [Bool.and_eq_true, decide_eq_true_eq]
  omega

theorem digit_ascii {d : Nat} (h : d < 16) : (digit d).toNat < 0x80 := by
  rw [toNat_digit h]; split <;> omega

/-- Digits are no punctuation. -/
theorem digit_ne {d : Nat} (h : d < 16) {c : UInt8} (hc : c.toNat < 48) : digit d ≠ c := by
  rintro rfl
  rw [toNat_digit h] at hc
  split at hc <;> omega

theorem digit_injective : ∀ d < 16, ∀ e < 16, digit d = digit e → d = e := by decide

/-! ## Numerals -/

/-- The numeral of `n` in base `b`, without leading zeros. -/
def numeral (b n : Nat) : Bytes := (if n = 0 then [0] else (Nat.digits b n).reverse).map digit

/-- `%d` of an unsigned value. -/
def itoa (n : Nat) : Bytes := numeral 10 n

/-- `%d`, and `strconv.AppendInt` in base ten. -/
def formatInt (n : Int) : Bytes := if n < 0 then 0x2D :: itoa n.natAbs else itoa n.natAbs

theorem mem_numeral {b n : Nat} (hb : 1 < b) {c : UInt8} (hc : c ∈ numeral b n) :
    ∃ d < b, c = digit d := by
  unfold numeral at hc
  split at hc
  · exact ⟨0, by omega, by simpa using hc⟩
  · obtain ⟨d, hd, rfl⟩ := List.mem_map.1 hc
    exact ⟨d, Nat.digits_lt_base hb (List.mem_reverse.1 hd), rfl⟩

theorem numeral_ne_nil (b n : Nat) : numeral b n ≠ [] := by
  unfold numeral
  split
  · simp
  · rename_i h
    simpa using Nat.digits_ne_nil_iff_ne_zero.2 h

theorem map_digit_injective : ∀ {l m : List Nat}, (∀ d ∈ l, d < 16) → (∀ d ∈ m, d < 16) →
    l.map digit = m.map digit → l = m
  | [], [], _, _, _ => rfl
  | [], _ :: _, _, _, h | _ :: _, [], _, _, h => by simp at h
  | d :: l, e :: m, hl, hm, h => by
    simp only [List.map_cons, List.cons.injEq] at h
    rw [digit_injective d (hl d (by simp)) e (hm e (by simp)) h.1,
      map_digit_injective (fun x hx => hl x (by simp [hx])) (fun x hx => hm x (by simp [hx])) h.2]

/-- A number is determined by its numeral. -/
theorem numeral_injective {b : Nat} (hb : 1 < b) (hb' : b ≤ 16) {m n : Nat} (h : numeral b m = numeral b n) :
    m = n := by
  have hlt : ∀ k, ∀ d ∈ (if k = 0 then [0] else (Nat.digits b k).reverse), d < 16 := by
    intro k d hd
    split at hd
    · obtain rfl := List.mem_singleton.1 hd; decide
    · have := Nat.digits_lt_base hb (List.mem_reverse.1 hd); omega
  have hval : ∀ k, Nat.ofDigits b (if k = 0 then [0] else (Nat.digits b k).reverse).reverse = k := by
    intro k
    split
    · rename_i hk; simp [hk]
    · rw [List.reverse_reverse, Nat.ofDigits_digits]
  rw [← hval m, ← hval n, map_digit_injective (hlt m) (hlt n) h]

theorem itoa_ascii (n : Nat) : ∀ c ∈ itoa n, c.toNat < 0x80 := by
  intro c hc
  obtain ⟨d, hd, rfl⟩ := mem_numeral (by decide) hc
  exact digit_ascii (by omega)

theorem formatInt_ascii (n : Int) : ∀ c ∈ formatInt n, c.toNat < 0x80 := by
  intro c hc
  unfold formatInt at hc
  split at hc
  · rcases List.mem_cons.1 hc with rfl | hc
    · decide
    · exact itoa_ascii _ c hc
  · exact itoa_ascii _ c hc

/-- Numerals hold no byte below the digits except the sign. -/
theorem not_mem_formatInt (n : Int) {c : UInt8} (hc : c.toNat < 48) (hs : c ≠ 0x2D) :
    c ∉ formatInt n := by
  have hi : ∀ m, c ∉ itoa m := fun m hm => by
    obtain ⟨d, hd, rfl⟩ := mem_numeral (by decide) hm
    exact digit_ne (by omega) hc rfl
  unfold formatInt
  split
  · simp [hi, hs]
  · exact hi _

theorem not_mem_formatInt_of_gt (n : Int) {c : UInt8} (hc : 57 < c.toNat) : c ∉ formatInt n := by
  have hi : ∀ m, c ∉ itoa m := fun m hm => by
    obtain ⟨d, hd, rfl⟩ := mem_numeral (by decide) hm
    rw [toNat_digit (by omega), if_pos hd] at hc
    omega
  unfold formatInt
  split
  · rw [List.mem_cons]
    rintro (rfl | h)
    · revert hc; decide
    · exact hi _ h
  · exact hi _

/-! ## Parsing -/

/-- The value of a digit string; `none` when empty or with another byte. -/
def parseDigits (s : Bytes) : Option Nat :=
  if s.isEmpty then none
  else s.foldlM (fun n c => if isDigit c then some (10 * n + (c.toNat - 48)) else none) 0

/-- `strconv.ParseUint(s, 10, 64)`, then the range of the destination. -/
def parseUint (max : Nat) (s : Bytes) : Option Nat :=
  (parseDigits s).bind fun n => if n ≤ max then some n else none

/-- `strconv.ParseInt(s, 10, 64)`. A leading `+` is no JSON number and is left out. -/
def parseInt (s : Bytes) : Option Int :=
  match s with
  | 0x2D :: s => (parseDigits s).bind fun n => if n ≤ 2 ^ 63 then some (-(n : Int)) else none
  | s => (parseDigits s).bind fun n => if n < 2 ^ 63 then some (n : Int) else none

theorem foldlM_digits (ds : List Nat) (h : ∀ d ∈ ds, d < 10) (n : Nat) :
    (ds.map digit).foldlM (fun n c => if isDigit c then some (10 * n + (c.toNat - 48)) else none) n =
      some (ds.foldl (fun n d => 10 * n + d) n) := by
  induction ds generalizing n with
  | nil => rfl
  | cons d ds ih =>
    have hd : d < 10 := h d (by simp)
    have hv : (digit d).toNat - 48 = d := by rw [toNat_digit (by omega), if_pos hd]; omega
    simp only [List.map_cons, List.foldlM_cons, isDigit_digit hd, if_true, Option.bind_eq_bind,
      Option.bind_some, List.foldl_cons, hv]
    exact ih (fun d' hd' => h d' (by simp [hd'])) _

theorem parseDigits_itoa (n : Nat) : parseDigits (itoa n) = some n := by
  have hne : (itoa n).isEmpty = false := by
    rw [List.isEmpty_eq_false_iff]; exact numeral_ne_nil 10 n
  unfold parseDigits
  rw [hne, if_neg Bool.false_ne_true, itoa, numeral]
  split
  · subst_vars; rfl
  · have hd : ∀ d ∈ (Nat.digits 10 n).reverse, d < 10 := fun d hd =>
      Nat.digits_lt_base (by decide) (List.mem_reverse.1 hd)
    have hf : (Nat.digits 10 n).foldr (fun d n => 10 * n + d) 0 = n := by
      conv_rhs => rw [← Nat.ofDigits_digits 10 n, Nat.ofDigits_eq_foldr]
      simp [Nat.add_comm]
    rw [foldlM_digits _ hd, List.foldl_reverse, hf]

theorem parseUint_itoa {max n : Nat} (h : n ≤ max) : parseUint max (itoa n) = some n := by
  simp [parseUint, parseDigits_itoa, h]

theorem itoa_head_ne (n : Nat) : ∀ s, itoa n ≠ 0x2D :: s := by
  intro s h
  have : (0x2D : UInt8) ∈ itoa n := by rw [h]; exact List.mem_cons_self ..
  obtain ⟨d, hd, he⟩ := mem_numeral (by decide) this
  exact digit_ne (by omega) (by decide) he.symm

theorem parseInt_formatInt {n : Int} (hlo : -2 ^ 63 ≤ n) (hhi : n < 2 ^ 63) :
    parseInt (formatInt n) = some n := by
  unfold formatInt
  split
  · have h : n.natAbs ≤ 2 ^ 63 := by omega
    have hn : -(n.natAbs : Int) = n := by omega
    simp only [parseInt, parseDigits_itoa, Option.bind_some, if_pos h, hn]
  · have h : n.natAbs < 2 ^ 63 := by omega
    have hn : (n.natAbs : Int) = n := by omega
    unfold parseInt
    split
    · exact absurd ‹_› (itoa_head_ne _ _)
    · simp only [parseDigits_itoa, Option.bind_some, if_pos h, hn]

/-! ## Hexadecimal -/

/-- `hex.EncodeToString`. -/
def hex (s : Bytes) : Bytes := s.flatMap fun b => [digit (b.toNat / 16), digit (b.toNat % 16)]

theorem mem_hex {s : Bytes} {c : UInt8} (hc : c ∈ hex s) : ∃ d < 16, c = digit d := by
  obtain ⟨b, -, hc⟩ := List.mem_flatMap.1 hc
  have := b.toNat_lt
  rcases List.mem_pair.1 hc with rfl | rfl
  · exact ⟨_, by omega, rfl⟩
  · exact ⟨_, by omega, rfl⟩

theorem hex_ascii (s : Bytes) : ∀ c ∈ hex s, c.toNat < 0x80 := by
  intro c hc
  obtain ⟨d, hd, rfl⟩ := mem_hex hc
  exact digit_ascii hd

theorem hex_injective : ∀ {s t : Bytes}, hex s = hex t → s = t
  | [], [], _ => rfl
  | [], _ :: _, h | _ :: _, [], h => by simp [hex] at h
  | a :: s, b :: t, h => by
    have ha := a.toNat_lt
    have hb := b.toNat_lt
    simp only [hex, List.flatMap_cons, List.cons_append, List.nil_append, List.cons.injEq] at h
    obtain ⟨h1, h2, h⟩ := h
    have h1 := digit_injective _ (by omega) _ (by omega) h1
    have h2 := digit_injective _ (by omega) _ (by omega) h2
    rw [hex_injective h, UInt8.toNat_inj.1 (by omega : a.toNat = b.toNat)]

@[simp] theorem length_hex (s : Bytes) : (hex s).length = 2 * s.length := by
  induction s with
  | nil => rfl
  | cons b s ih => simp only [hex, List.flatMap_cons, List.length_append, List.length_cons] at ih ⊢; simp_all; omega

end WatchBPF.Numeral
