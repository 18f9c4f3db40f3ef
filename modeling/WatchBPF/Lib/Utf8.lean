/-
UTF-8 as Go reads it: `utf8.DecodeRune` takes the well-formed encoding at the front of a slice,
or one byte where there is none. Valid strings, the coercion that replaces every ill-formed byte
by U+FFFD, and how both behave under concatenation.
-/
import WatchBPF.Lib.Bytes

namespace WatchBPF.Utf8

/-! ## Runes -/

/-- A rune of a byte string with its encoding; `bad` is a byte that starts no well-formed one. -/
inductive Rune
  | one (b0 : UInt8)
  | two (b0 b1 : UInt8)
  | three (b0 b1 b2 : UInt8)
  | four (b0 b1 b2 b3 : UInt8)
  | bad (b0 : UInt8)
  deriving DecidableEq, Repr

def inRange (lo hi : Nat) (b : UInt8) : Bool := lo ≤ b.toNat && b.toNat ≤ hi

/-- A continuation byte. -/
def tail (b : UInt8) : Bool := inRange 0x80 0xBF b

/-- The second bytes that may follow the lead byte of three. -/
def second3 (b0 b1 : UInt8) : Bool :=
  (b0 == 0xE0 && inRange 0xA0 0xBF b1) || (b0 == 0xED && inRange 0x80 0x9F b1) ||
    ((inRange 0xE1 0xEC b0 || inRange 0xEE 0xEF b0) && tail b1)

/-- The second bytes that may follow the lead byte of four. -/
def second4 (b0 b1 : UInt8) : Bool :=
  (b0 == 0xF0 && inRange 0x90 0xBF b1) || (b0 == 0xF4 && inRange 0x80 0x8F b1) ||
    (inRange 0xF1 0xF3 b0 && tail b1)

namespace Rune

def enc : Rune → Bytes
  | one b0 => [b0]
  | two b0 b1 => [b0, b1]
  | three b0 b1 b2 => [b0, b1, b2]
  | four b0 b1 b2 b3 => [b0, b1, b2, b3]
  | bad b0 => [b0]

/-- The encoding is well-formed. -/
def ok : Rune → Bool
  | one b0 => b0.toNat < 0x80
  | two b0 b1 => inRange 0xC2 0xDF b0 && tail b1
  | three b0 b1 b2 => second3 b0 b1 && tail b2
  | four b0 b1 b2 b3 => second4 b0 b1 && tail b2 && tail b3
  | bad _ => false

/-- The code point; that of U+FFFD for a `bad` byte. -/
def value : Rune → Nat
  | one b0 => b0.toNat
  | two b0 b1 => b0.toNat % 32 * 64 + b1.toNat % 64
  | three b0 b1 b2 => b0.toNat % 16 * 4096 + b1.toNat % 64 * 64 + b2.toNat % 64
  | four b0 b1 b2 b3 =>
    b0.toNat % 8 * 262144 + b1.toNat % 64 * 4096 + b2.toNat % 64 * 64 + b3.toNat % 64
  | bad _ => 0xFFFD

/-- U+FFFD for a `bad` byte. -/
def coerce : Rune → Rune
  | bad _ => three 0xEF 0xBF 0xBD
  | r => r

theorem ok_coerce : ∀ r : Rune, r.ok = true ∨ (∃ b, r = bad b) → r.coerce.ok = true
  | one _, h | two _ _, h | three _ _ _, h | four _ _ _ _, h => by
    rcases h with h | ⟨_, h⟩
    · exact h
    · cases h
  | bad _, _ => (by decide : (three 0xEF 0xBF 0xBD).ok = true)

theorem coerce_of_ok : ∀ {r : Rune}, r.ok = true → r.coerce = r
  | one _, _ | two _ _, _ | three _ _ _, _ | four _ _ _ _, _ => rfl

end Rune

/-- `utf8.DecodeRune` on the slice `b0 :: s`: the rune and what follows it. -/
def decodeRune (b0 : UInt8) (s : Bytes) : Rune × Bytes :=
  if (Rune.one b0).ok then (.one b0, s)
  else match s with
    | [] => (.bad b0, s)
    | b1 :: s1 =>
      if (Rune.two b0 b1).ok then (.two b0 b1, s1)
      else match s1 with
        | [] => (.bad b0, s)
        | b2 :: s2 =>
          if (Rune.three b0 b1 b2).ok then (.three b0 b1 b2, s2)
          else match s2 with
            | [] => (.bad b0, s)
            | b3 :: s3 => if (Rune.four b0 b1 b2 b3).ok then (.four b0 b1 b2 b3, s3) else (.bad b0, s)

/-- What decoding returns: a well-formed rune, or one bad byte. -/
theorem decodeRune_spec (b0 : UInt8) (s : Bytes) :
    (decodeRune b0 s).1.enc ++ (decodeRune b0 s).2 = b0 :: s ∧
      ((decodeRune b0 s).1.ok = true ∨ decodeRune b0 s = (.bad b0, s)) := by
  unfold decodeRune
  split
  · exact ⟨rfl, .inl ‹_›⟩
  · split
    · exact ⟨rfl, .inr rfl⟩
    · split
      · exact ⟨rfl, .inl ‹_›⟩
      · split
        · exact ⟨rfl, .inr rfl⟩
        · split
          · exact ⟨rfl, .inl ‹_›⟩
          · split
            · exact ⟨rfl, .inr rfl⟩
            · split
              · exact ⟨rfl, .inl ‹_›⟩
              · exact ⟨rfl, .inr rfl⟩

theorem enc_ne_nil (r : Rune) : r.enc ≠ [] := by cases r <;> simp [Rune.enc]

theorem decodeRune_length (b0 : UInt8) (s : Bytes) : (decodeRune b0 s).2.length ≤ s.length := by
  have h := congrArg List.length (decodeRune_spec b0 s).1
  have := List.length_pos_of_ne_nil (enc_ne_nil (decodeRune b0 s).1)
  simp only [List.length_append, List.length_cons] at h
  omega

theorem ok_two {b0 b1 : UInt8} (h : (Rune.two b0 b1).ok = true) :
    0xC2 ≤ b0.toNat ∧ b0.toNat ≤ 0xDF ∧ 0x80 ≤ b1.toNat := by
  simp only [Rune.ok, tail, inRange, Bool.and_eq_true, decide_eq_true_eq] at h
  omega

theorem ok_three {b0 b1 b2 : UInt8} (h : (Rune.three b0 b1 b2).ok = true) :
    0xE0 ≤ b0.toNat ∧ b0.toNat ≤ 0xEF ∧ 0x80 ≤ b1.toNat ∧ 0x80 ≤ b2.toNat := by
  simp only [Rune.ok, second3, tail, inRange, Bool.and_eq_true, Bool.or_eq_true, decide_eq_true_eq,
    beq_iff_eq, ← UInt8.toNat_inj, UInt8.reduceToNat] at h
  omega

theorem ok_four {b0 b1 b2 b3 : UInt8} (h : (Rune.four b0 b1 b2 b3).ok = true) :
    0xF0 ≤ b0.toNat ∧ 0x80 ≤ b1.toNat ∧ 0x80 ≤ b2.toNat ∧ 0x80 ≤ b3.toNat := by
  simp only [Rune.ok, second4, tail, inRange, Bool.and_eq_true, Bool.or_eq_true, decide_eq_true_eq,
    beq_iff_eq, ← UInt8.toNat_inj, UInt8.reduceToNat] at h
  omega

/-- A well-formed encoding is decoded whatever follows it. -/
theorem decodeRune_of_ok {r : Rune} (hr : r.ok = true) {b0 : UInt8} {t : Bytes}
    (he : r.enc = b0 :: t) (s : Bytes) : decodeRune b0 (t ++ s) = (r, s) := by
  have h1 : ¬ b0.toNat < 0x80 → (Rune.one b0).ok = false := by simp [Rune.ok]
  have h2 : ∀ b1, ¬ b0.toNat ≤ 0xDF → (Rune.two b0 b1).ok = false := fun b1 h => by
    by_contra hc; have := ok_two (by simpa using hc); omega
  have h3 : ∀ b1 b2, ¬ b0.toNat ≤ 0xEF → (Rune.three b0 b1 b2).ok = false := fun b1 b2 h => by
    by_contra hc; have := ok_three (by simpa using hc); omega
  cases r with
  | one b => cases he; simp [decodeRune, hr]
  | two b b1 =>
    cases he
    have := ok_two hr
    simp [decodeRune, h1 (by omega), hr]
  | three b b1 b2 =>
    cases he
    have := ok_three hr
    simp [decodeRune, h1 (by omega), h2 b1 (by omega), hr]
  | four b b1 b2 b3 =>
    cases he
    have := ok_four hr
    simp [decodeRune, h1 (by omega), h2 b1 (by omega), h3 b1 b2 (by omega), hr]
  | bad b => simp [Rune.ok] at hr

/-- An ASCII byte ends whatever stands before it. -/
theorem decodeRune_append_ascii (b0 : UInt8) (s t : Bytes) {b : UInt8} (hb : b.toNat < 0x80) :
    decodeRune b0 (s ++ b :: t) = ((decodeRune b0 s).1, (decodeRune b0 s).2 ++ b :: t) := by
  have h2 : ∀ a, (Rune.two a b).ok = false := fun a => by
    by_contra h; have := ok_two (by simpa using h); omega
  have h3 : ∀ a c, (Rune.three a b c).ok = false := fun a c => by
    by_contra h; have := ok_three (by simpa using h); omega
  have h3' : ∀ a c, (Rune.three a c b).ok = false := fun a c => by
    by_contra h; have := ok_three (by simpa using h); omega
  have h4 : ∀ a c d, (Rune.four a b c d).ok = false := fun a c d => by
    by_contra h; have := ok_four (by simpa using h); omega
  have h4' : ∀ a c d, (Rune.four a c b d).ok = false := fun a c d => by
    by_contra h; have := ok_four (by simpa using h); omega
  have h4'' : ∀ a c d, (Rune.four a c d b).ok = false := fun a c d => by
    by_contra h; have := ok_four (by simpa using h); omega
  by_cases h1 : (Rune.one b0).ok = true
  · simp [decodeRune, h1]
  · rcases s with _ | ⟨b1, _ | ⟨b2, _ | ⟨b3, s⟩⟩⟩
    · rcases t with _ | ⟨c, _ | ⟨d, t⟩⟩ <;> simp [decodeRune, h1, h2, h3, h4]
    · by_cases c2 : (Rune.two b0 b1).ok = true
      · simp [decodeRune, h1, c2]
      · rcases t with _ | ⟨c, t⟩ <;> simp [decodeRune, h1, c2, h3', h4']
    · by_cases c2 : (Rune.two b0 b1).ok = true
      · simp [decodeRune, h1, c2]
      · by_cases c3 : (Rune.three b0 b1 b2).ok = true
        · simp [decodeRune, h1, c2, c3]
        · simp [decodeRune, h1, c2, c3, h4'']
    · simp only [decodeRune, List.cons_append, h1]
      split_ifs <;> rfl

/-- `utf8.AppendRune` of a code point that is no surrogate. -/
def encodeRune (n : Nat) : Bytes :=
  if n < 0x80 then [UInt8.ofNat n]
  else if n < 0x800 then [UInt8.ofNat (0xC0 + n / 64), UInt8.ofNat (0x80 + n % 64)]
  else if n < 0x10000 then
    [UInt8.ofNat (0xE0 + n / 4096), UInt8.ofNat (0x80 + n / 64 % 64), UInt8.ofNat (0x80 + n % 64)]
  else
    [UInt8.ofNat (0xF0 + n / 262144), UInt8.ofNat (0x80 + n / 4096 % 64),
      UInt8.ofNat (0x80 + n / 64 % 64), UInt8.ofNat (0x80 + n % 64)]

/-! ## Scanning a string -/

/-- The runes of a string, in order. -/
def runes (s : Bytes) : List Rune := chop decodeRune s

@[simp] theorem runes_nil : runes [] = [] := rfl

theorem runes_cons (b0 : UInt8) (s : Bytes) :
    runes (b0 :: s) = (decodeRune b0 s).1 :: runes (decodeRune b0 s).2 :=
  chop_cons decodeRune_length b0 s

/-- `utf8.Valid`. -/
def valid (s : Bytes) : Bool := (runes s).all Rune.ok

/-- The string with every ill-formed byte replaced by U+FFFD. -/
def coerce (s : Bytes) : Bytes := (runes s).flatMap fun r => r.coerce.enc

@[simp] theorem valid_nil : valid [] = true := rfl
@[simp] theorem coerce_nil : coerce [] = [] := rfl

theorem runes_enc_append {r : Rune} (hr : r.ok = true) (s : Bytes) :
    runes (r.enc ++ s) = r :: runes s := by
  obtain ⟨b0, t, he⟩ := List.exists_cons_of_ne_nil (enc_ne_nil r)
  rw [he, List.cons_append, runes_cons, decodeRune_of_ok hr he]

theorem runes_cons_ascii (s : Bytes) {b : UInt8} (hb : b.toNat < 0x80) :
    runes (b :: s) = .one b :: runes s :=
  runes_enc_append (r := .one b) (by simp [Rune.ok, hb]) s

theorem runes_flatMap_enc : ∀ {rs : List Rune}, (∀ r ∈ rs, r.ok = true) →
    runes (rs.flatMap Rune.enc) = rs
  | [], _ => rfl
  | r :: rs, h => by
    rw [List.flatMap_cons, runes_enc_append (h r (by simp)), runes_flatMap_enc fun r' hr' => h r' (by simp [hr'])]

/-- The encodings of a string's runes spell the string. -/
theorem flatMap_enc_runes (s : Bytes) : (runes s).flatMap Rune.enc = s := by
  induction s using chop_induction decodeRune_length with
  | nil => rfl
  | cons b s ih => rw [runes_cons, List.flatMap_cons, ih, (decodeRune_spec b s).1]

/-- A rune of a string is well-formed or a bad byte. -/
theorem ok_or_bad (s : Bytes) : ∀ r ∈ runes s, r.ok = true ∨ ∃ b, r = .bad b := by
  induction s using chop_induction decodeRune_length with
  | nil => simp
  | cons b s ih =>
    intro r hr
    rw [runes_cons] at hr
    rcases List.mem_cons.1 hr with rfl | hr
    · rcases (decodeRune_spec b s).2 with h | h
      · exact .inl h
      · exact .inr ⟨b, by rw [h]⟩
    · exact ih r hr

theorem runes_append_of_valid {s : Bytes} (hs : valid s = true) (t : Bytes) :
    runes (s ++ t) = runes s ++ runes t := by
  induction s using chop_induction decodeRune_length with
  | nil => rfl
  | cons b s ih =>
    rw [valid, runes_cons, List.all_cons, Bool.and_eq_true] at hs
    conv_lhs => rw [← (decodeRune_spec b s).1, List.append_assoc, runes_enc_append hs.1, ih hs.2]
    rw [runes_cons, List.cons_append]

theorem runes_append_ascii (s t : Bytes) {b : UInt8} (hb : b.toNat < 0x80) :
    runes (s ++ b :: t) = runes s ++ .one b :: runes t := by
  induction s using chop_induction decodeRune_length with
  | nil => exact runes_cons_ascii t hb
  | cons c s ih =>
    rw [List.cons_append, runes_cons, decodeRune_append_ascii c s t hb, ih, runes_cons, List.cons_append]

/-! ## Validity and coercion -/

theorem valid_append {s t : Bytes} (hs : valid s = true) (ht : valid t = true) :
    valid (s ++ t) = true := by
  rw [valid, runes_append_of_valid hs, List.all_append, Bool.and_eq_true]
  exact ⟨hs, ht⟩

theorem valid_append_ascii (s t : Bytes) {b : UInt8} (hb : b.toNat < 0x80) :
    valid (s ++ b :: t) = (valid s && valid t) := by
  simp [valid, runes_append_ascii s t hb, Rune.ok, hb]

theorem valid_cons_ascii (t : Bytes) {b : UInt8} (hb : b.toNat < 0x80) : valid (b :: t) = valid t := by
  simpa using valid_append_ascii [] t hb

theorem valid_ascii : ∀ {s : Bytes}, (∀ b ∈ s, b.toNat < 0x80) → valid s = true
  | [], _ => rfl
  | b :: s, h => by
    rw [valid_cons_ascii s (h b (by simp)), valid_ascii fun c hc => h c (by simp [hc])]

theorem coerce_append_ascii (s t : Bytes) {b : UInt8} (hb : b.toNat < 0x80) :
    coerce (s ++ b :: t) = coerce s ++ b :: coerce t := by
  simp [coerce, runes_append_ascii s t hb, Rune.coerce, Rune.enc]

theorem runes_coerce (s : Bytes) : runes (coerce s) = (runes s).map Rune.coerce := by
  have h : coerce s = ((runes s).map Rune.coerce).flatMap Rune.enc := by
    rw [coerce, List.flatMap_map]
  rw [h]
  refine runes_flatMap_enc fun r hr => ?_
  obtain ⟨r', hr', rfl⟩ := List.mem_map.1 hr
  exact r'.ok_coerce (ok_or_bad s r' hr')

/-- Coercion yields valid strings. -/
@[simp] theorem valid_coerce (s : Bytes) : valid (coerce s) = true := by
  rw [valid, runes_coerce, List.all_map, List.all_eq_true]
  exact fun r hr => r.ok_coerce (ok_or_bad s r hr)

theorem coerce_of_valid {s : Bytes} (hs : valid s = true) : coerce s = s := by
  conv_rhs => rw [← flatMap_enc_runes s]
  rw [coerce]
  refine List.flatMap_congr fun r hr => ?_
  rw [Rune.coerce_of_ok (List.all_eq_true.1 hs r hr)]

end WatchBPF.Utf8
