/-
`json.Marshal` of the values the development writes: string literals with HTML-safe escapes, flat
structs of strings and integers, and indented arrays of strings. Each text is read back as the
value it was made from with the strings coerced to UTF-8, and none but the array holds a newline.
-/
import WatchBPF.Lib.Json.Parser

namespace WatchBPF.Json

open WatchBPF.Utf8 WatchBPF.Numeral

/-! ## String literals -/

/-- `\u00XX` -/
def escapeByte (b : UInt8) : Bytes := lit "\\u00" ++ [digit (b.toNat / 16), digit (b.toNat % 16)]

/-- A byte of ASCII in a literal, with `<`, `>` and `&` escaped. -/
def quoteByte (b : UInt8) : Bytes :=
  if b == 0x22 || b == 0x5C then [0x5C, b]
  else if b == 0x08 then [0x5C, 0x62]
  else if b == 0x0C then [0x5C, 0x66]
  else if b == 0x0A then [0x5C, 0x6E]
  else if b == 0x0D then [0x5C, 0x72]
  else if b == 0x09 then [0x5C, 0x74]
  else if b.toNat < 0x20 || b == 0x3C || b == 0x3E || b == 0x26 then escapeByte b
  else [b]

/-- `appendString`, one rune. -/
def quoteRune : Rune → Bytes
  | .one b => quoteByte b
  | .three b0 b1 b2 =>
    if b0 = 0xE2 ∧ b1 = 0x80 ∧ b2 = 0xA8 then lit "\\u2028"
    else if b0 = 0xE2 ∧ b1 = 0x80 ∧ b2 = 0xA9 then lit "\\u2029"
    else [b0, b1, b2]
  | .bad _ => lit "\\ufffd"
  | r => r.enc

/-- `appendString`: the literal of a Go string. -/
def quote (s : Bytes) : Bytes := 0x22 :: ((runes s).flatMap quoteRune ++ [0x22])

/-- The three ways a rune is written: as it stands, as a letter escape, as a `\u` escape. -/
inductive QuoteShape (r : Rune) (out : Bytes) : Prop
  | plain (out_eq : out = r.enc) (ok : r.ok = true)
      (bytes : ∀ b ∈ out, 0x20 ≤ b.toNat ∧ b ≠ 0x22 ∧ b ≠ 0x5C)
  | letter (b c : UInt8) (rune : r = .one b) (out_eq : out = [0x5C, c])
      (range : 0x20 ≤ c.toNat ∧ c.toNat < 0x80 ∧ c ≠ 0x75) (esc : escape c = some b)
  | unit (u : Nat) (h1 h2 h3 h4 : UInt8) (out_eq : out = [0x5C, 0x75, h1, h2, h3, h4])
      (digits : ∀ h ∈ [h1, h2, h3, h4], 0x30 ≤ h.toNat ∧ h.toNat < 0x80 ∧ h ≠ 0x5C)
      (val : getu4 h1 h2 h3 h4 = some u) (single : (isHigh u || isLow u) = false)
      (text : encodeRune u = r.coerce.enc)

theorem hexVal_digit : ∀ d < 16, hexVal (digit d) = some d := by decide

theorem digit_range : ∀ d < 16, 0x30 ≤ (digit d).toNat ∧ (digit d).toNat < 0x80 ∧ digit d ≠ 0x5C := by
  decide

theorem quoteShape_escapeByte {b : UInt8} (hb : b.toNat < 0x80) : QuoteShape (.one b) (escapeByte b) := by
  have h1 : b.toNat / 16 < 16 := by omega
  have h2 : b.toNat % 16 < 16 := by omega
  refine .unit b.toNat 0x30 0x30 (digit (b.toNat / 16)) (digit (b.toNat % 16)) rfl ?_ ?_ ?_ ?_
  · intro h hh
    simp only [List.mem_cons, List.not_mem_nil, or_false] at hh
    rcases hh with rfl | rfl | rfl | rfl
    · decide
    · decide
    · exact digit_range _ h1
    · exact digit_range _ h2
  · have h0 : hexVal 0x30 = some 0 := by decide
    simp only [getu4, hexVal_digit _ h1, hexVal_digit _ h2, h0, Option.bind_eq_bind, Option.bind_some,
      Option.some.injEq]
    omega
  · simp only [isHigh, isLow, Bool.or_eq_false_iff, Bool.and_eq_false_iff, decide_eq_false_iff_not]
    omega
  · simp [encodeRune, hb, Rune.coerce, Rune.enc]

theorem quoteShape_one {b : UInt8} (hb : b.toNat < 0x80) : QuoteShape (.one b) (quoteByte b) := by
  unfold quoteByte
  split
  · rename_i h
    refine .letter b b rfl rfl ?_ ?_ <;> simp only [Bool.or_eq_true, beq_iff_eq] at h <;>
      rcases h with rfl | rfl <;> decide
  iterate 5
    split
    · refine .letter b _ rfl rfl (by decide) ?_
      rename_i h
      rw [beq_iff_eq] at h
      subst h
      decide
  split
  · exact quoteShape_escapeByte hb
  · rename_i hq _ _ _ _ _ h
    simp only [Bool.or_eq_true, beq_iff_eq, decide_eq_true_eq, not_or, not_lt] at hq h
    exact .plain rfl (by simp [Rune.ok, hb]) (by simp [hq, h])

/-- The bytes of a longer encoding are no ASCII. -/
theorem enc_bytes {r : Rune} (hr : r.ok = true) (h1 : ∀ b, r ≠ .one b) : ∀ b ∈ r.enc, 0x80 ≤ b.toNat := by
  cases r with
  | one b => exact absurd rfl (h1 b)
  | two b0 b1 => have := ok_two hr; simp only [Rune.enc, List.forall_mem_cons]; simp; omega
  | three b0 b1 b2 => have := ok_three hr; simp only [Rune.enc, List.forall_mem_cons]; simp; omega
  | four b0 b1 b2 b3 => have := ok_four hr; simp only [Rune.enc, List.forall_mem_cons]; simp; omega
  | bad b => simp [Rune.ok] at hr

theorem quoteShape {r : Rune} (hr : r.ok = true ∨ ∃ b, r = .bad b) : QuoteShape r (quoteRune r) := by
  have plain : r.ok = true → (∀ b, r ≠ .one b) → QuoteShape r r.enc := fun hok h1 =>
    .plain rfl hok fun b hb => by
      have := enc_bytes hok h1 b hb
      refine ⟨by omega, ?_, ?_⟩ <;> (rintro rfl; revert this; decide)
  rcases hr with hok | ⟨b, rfl⟩
  · cases r with
    | one b => exact quoteShape_one (by simpa [Rune.ok] using hok)
    | two b0 b1 => exact plain hok fun b h => by cases h
    | three b0 b1 b2 =>
      by_cases h1 : b0 = 0xE2 ∧ b1 = 0x80 ∧ b2 = 0xA8
      · obtain ⟨rfl, rfl, rfl⟩ := h1
        exact .unit 0x2028 _ _ _ _ rfl (forall_of_all (by decide)) (by decide) (by decide) (by decide)
      by_cases h2 : b0 = 0xE2 ∧ b1 = 0x80 ∧ b2 = 0xA9
      · obtain ⟨rfl, rfl, rfl⟩ := h2
        exact .unit 0x2029 _ _ _ _ rfl (forall_of_all (by decide)) (by decide) (by decide) (by decide)
      have hq : quoteRune (.three b0 b1 b2) = (Rune.three b0 b1 b2).enc := by
        rw [quoteRune, if_neg h1, if_neg h2]; rfl
      rw [hq]
      exact plain hok fun b h => by cases h
    | four b0 b1 b2 b3 => exact plain hok fun b h => by cases h
    | bad b => simp [Rune.ok] at hok
  · exact .unit 0xFFFD _ _ _ _ rfl (forall_of_all (by decide)) (by decide) (by decide)
      (by decide : encodeRune 0xFFFD = (Rune.three 0xEF 0xBF 0xBD).enc)

/-! ## Reading a literal back -/

theorem scanString_plain {w : Bytes} (hw : ∀ b ∈ w, 0x20 ≤ b.toNat ∧ b ≠ 0x22 ∧ b ≠ 0x5C) (s : Bytes) :
    scanString (w ++ s) = (scanString s).map fun p => (w ++ p.1, p.2) := by
  induction w with
  | nil => simp
  | cons b w ih =>
    obtain ⟨hb, hw⟩ := List.forall_mem_cons.1 hw
    rw [List.cons_append, scanString_text hb, ih hw, Option.map_map]
    rfl

theorem scanString_quoteRune {r : Rune} (hr : r.ok = true ∨ ∃ b, r = .bad b) (s : Bytes) :
    scanString (quoteRune r ++ s) = (scanString s).map fun p => (quoteRune r ++ p.1, p.2) := by
  cases quoteShape hr with
  | plain _ _ bytes => exact scanString_plain bytes s
  | letter b c _ out_eq => rw [out_eq]; exact scanString_escape c s
  | unit u h1 h2 h3 h4 out_eq digits =>
    have hp : ∀ b ∈ [h1, h2, h3, h4], 0x20 ≤ b.toNat ∧ b ≠ 0x22 ∧ b ≠ 0x5C := fun b hb => by
      obtain ⟨h, -, h5⟩ := digits b hb
      exact ⟨by omega, by rintro rfl; revert h; decide, h5⟩
    rw [out_eq, show [0x5C, 0x75, h1, h2, h3, h4] ++ s = 0x5C :: 0x75 :: ([h1, h2, h3, h4] ++ s) from rfl,
      scanString_escape, scanString_plain hp, Option.map_map]
    rfl

theorem scanString_quoted (s r : Bytes) :
    scanString ((runes s).flatMap quoteRune ++ 0x22 :: r) = some ((runes s).flatMap quoteRune, r) := by
  have go : ∀ rs : List Rune, (∀ q ∈ rs, q.ok = true ∨ ∃ b, q = .bad b) →
      scanString (rs.flatMap quoteRune ++ 0x22 :: r) = some (rs.flatMap quoteRune, r) := by
    intro rs hrs
    induction rs with
    | nil => exact scanString_quote r
    | cons q rs ih =>
      obtain ⟨hq, hrs⟩ := List.forall_mem_cons.1 hrs
      rw [List.flatMap_cons, List.append_assoc, scanString_quoteRune hq, ih hrs]
      rfl
  exact go _ (ok_or_bad s)

/-- A piece that joins with no other. -/
def Piece.single : Piece → Prop
  | .text _ => True
  | .unit u => (isHigh u || isLow u) = false

def Piece.bytes : Piece → Bytes
  | .text s => s
  | .unit u => encodeUnit u

theorem assemble_cons {p : Piece} (hp : p.single) (ps : List Piece) :
    assemble (p :: ps) = p.bytes ++ assemble ps := by
  cases p with
  | text s => rw [assemble]; rfl
  | unit u =>
    simp only [Piece.single, Bool.or_eq_false_iff] at hp
    rw [assemble.eq_def]
    rcases ps with _ | ⟨_ | v, ps⟩ <;> simp [Piece.bytes, hp.1]

/-- A quoted rune reads as one piece with the coerced rune's bytes. -/
theorem pieces_quoteRune {r : Rune} (hr : r.ok = true ∨ ∃ b, r = .bad b) (t : Bytes) :
    ∃ p : Piece, p.single ∧ p.bytes = r.coerce.enc ∧
      pieces (runes (quoteRune r ++ t)) = (pieces (runes t)).map (p :: ·) := by
  cases quoteShape hr with
  | plain out_eq ok bytes =>
    refine ⟨.text r.coerce.enc, trivial, rfl, ?_⟩
    rw [out_eq] at bytes ⊢
    rw [runes_enc_append ok]
    cases r with
    | one b =>
      obtain ⟨h1, -, h2⟩ := bytes b (by simp [Rune.enc])
      exact pieces_ascii h1 h2 _
    | two | three | four | bad => exact pieces_rune (fun b h => by cases h) _
  | letter b c rune out_eq range esc =>
    subst rune
    refine ⟨.text [b], trivial, rfl, ?_⟩
    rw [out_eq, List.cons_append, List.cons_append, List.nil_append, runes_cons_ascii _ (by decide),
      runes_cons_ascii _ range.2.1, pieces_letter range.2.2, esc]
    rfl
  | unit u h1 h2 h3 h4 out_eq digits val single text =>
    refine ⟨.unit u, single, ?_, ?_⟩
    · simp [Piece.bytes, encodeUnit, single, text]
    · simp only [List.forall_mem_cons, List.not_mem_nil, false_implies, implies_true, and_true] at digits
      rw [out_eq]
      simp only [List.cons_append, List.nil_append]
      rw [runes_cons_ascii _ (by decide), runes_cons_ascii _ (by decide), runes_cons_ascii _ digits.1.2.1,
        runes_cons_ascii _ digits.2.1.2.1, runes_cons_ascii _ digits.2.2.1.2.1,
        runes_cons_ascii _ digits.2.2.2.2.1, pieces_unit, val]
      rfl

theorem unquote_quoted (s : Bytes) : unquote ((runes s).flatMap quoteRune) = some (coerce s) := by
  have go : ∀ rs : List Rune, (∀ q ∈ rs, q.ok = true ∨ ∃ b, q = .bad b) →
      ∃ ps, pieces (runes (rs.flatMap quoteRune)) = some ps ∧
        assemble ps = rs.flatMap fun r => r.coerce.enc := by
    intro rs hrs
    induction rs with
    | nil => exact ⟨[], rfl, rfl⟩
    | cons q rs ih =>
      obtain ⟨hq, hrs⟩ := List.forall_mem_cons.1 hrs
      obtain ⟨ps, hps, hval⟩ := ih hrs
      obtain ⟨p, single, bytes, hp⟩ := pieces_quoteRune hq (rs.flatMap quoteRune)
      refine ⟨p :: ps, ?_, ?_⟩
      · rw [List.flatMap_cons, hp, hps]; rfl
      · rw [assemble_cons single, bytes, hval, List.flatMap_cons]
  obtain ⟨ps, hps, hval⟩ := go _ (ok_or_bad s)
  rw [unquote, hps, Option.map_some, hval]
  rfl

/-- A literal is read back as its string, coerced to UTF-8. -/
theorem lex_quote (s r : Bytes) : lex (quote s ++ r) = (lex r).map (.str (coerce s) :: ·) := by
  refine lex_cons (by decide) ?_
  have hp : punct 0x22 = none := by decide
  simp [token, hp, scanString_quoted, unquote_quoted]

/-- A literal holds no control character. -/
theorem quote_bytes (s : Bytes) : ∀ b ∈ quote s, 0x20 ≤ b.toNat := by
  intro b hb
  simp only [quote, List.mem_cons, List.mem_append, List.mem_flatMap, List.not_mem_nil, or_false] at hb
  rcases hb with rfl | ⟨r, hr, hb⟩ | rfl
  · decide
  · cases quoteShape (ok_or_bad s r hr) with
    | plain _ _ bytes => exact (bytes b hb).1
    | letter b' c _ out_eq range =>
      rw [out_eq] at hb
      rcases List.mem_pair.1 hb with rfl | rfl
      · decide
      · exact range.1
    | unit u h1 h2 h3 h4 out_eq digits =>
      rw [out_eq] at hb
      rcases List.mem_cons.1 hb with rfl | hb
      · decide
      · rcases List.mem_cons.1 hb with rfl | hb
        · decide
        · have := (digits b hb).1; omega
  · decide

end WatchBPF.Json
