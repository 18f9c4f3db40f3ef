/-
`json.Marshal` of a flat struct of strings and integers and `json.MarshalIndent` of a slice of
strings. Both parse back to the value they were made from, strings coerced to UTF-8, and the
struct's text holds no control character, so it stays on one line.
-/
import WatchBPF.Lib.Json.Encode

namespace WatchBPF.Json

open WatchBPF.Utf8 WatchBPF.Numeral

/-- A field value of a flat struct. -/
inductive Scalar
  | str (s : Bytes)
  | int (n : Int)

def Scalar.text : Scalar → Bytes
  | str s => quote s
  | int n => formatInt n

/-- The JSON value a field's text reads as. -/
def Scalar.value : Scalar → Value
  | str s => .str (coerce s)
  | int n => .num (formatInt n)

def Scalar.token : Scalar → Token
  | str s => .str (coerce s)
  | int n => .num (formatInt n)

/-- `"name":value` -/
def memberText (f : Bytes × Scalar) : Bytes := quote f.1 ++ 0x3A :: f.2.text

/-- `json.Marshal` of a flat struct given by its fields in order. -/
def marshalObject (fs : List (Bytes × Scalar)) : Bytes :=
  0x7B :: ([0x2C].intercalate (fs.map memberText) ++ [0x7D])

/-- `json.MarshalIndent(ss, "", "  ")` -/
def marshalStrings (ss : List Bytes) : Bytes :=
  if ss.isEmpty then lit "[]"
  else lit "[\n  " ++ ((lit ",\n  ").intercalate (ss.map quote) ++ lit "\n]")

/-! ## Number literals -/

/-- A byte that continues no number literal. -/
def endsNumber (c : UInt8) : Prop :=
  isDigit c = false ∧ c ≠ 0x2E ∧ c ≠ 0x65 ∧ c ≠ 0x45

theorem scanDigits_append {w : Bytes} (hne : w ≠ []) (hw : ∀ b ∈ w, isDigit b = true) {c : UInt8}
    (hc : isDigit c = false) (s : Bytes) : scanDigits (w ++ c :: s) = some (w, c :: s) := by
  have hs : ∀ b ∈ (c :: s).head?, isDigit b = false := by
    rintro b ⟨⟩
    exact hc
  rw [scanDigits, takeWhile_append_other hw hs, dropWhile_append_other hw hs, if_neg (by simpa using hne)]

/-- Only a zero stands on its own in front of the digits. -/
theorem scanInt_cons {b : UInt8} (hb : b ≠ 0x30) (s : Bytes) : scanInt (b :: s) = scanDigits (b :: s) := by
  unfold scanInt
  split
  · rename_i h
    exact absurd (List.cons.inj h).1 hb
  · rfl

theorem scanFrac_cons {b : UInt8} (hb : b ≠ 0x2E) (s : Bytes) : scanFrac (b :: s) = some ([], b :: s) := by
  unfold scanFrac
  split
  · rename_i h
    exact absurd (List.cons.inj h).1 hb
  · rfl

theorem scanExp_cons {b : UInt8} (h1 : b ≠ 0x65) (h2 : b ≠ 0x45) (s : Bytes) :
    scanExp (b :: s) = some ([], b :: s) := by
  simp [scanExp, h1, h2]

theorem scanNumber_cons {b : UInt8} (hb : b ≠ 0x2D) (s : Bytes) : scanNumber (b :: s) = scanUnsigned (b :: s) := by
  unfold scanNumber
  split
  · rename_i h
    exact absurd (List.cons.inj h).1 hb
  · rfl

theorem itoa_digits (n : Nat) : ∀ b ∈ itoa n, isDigit b = true := by
  intro b hb
  obtain ⟨d, hd, rfl⟩ := mem_numeral (by decide) hb
  exact isDigit_digit hd

/-- Only zero is written with a leading zero. -/
theorem itoa_leading {n : Nat} (hn : n ≠ 0) : ∀ s, itoa n ≠ 0x30 :: s := by
  intro s h
  have hd : Nat.digits 10 n ≠ [] := Nat.digits_ne_nil_iff_ne_zero.2 hn
  have hl := Nat.getLast_digit_ne_zero 10 hn
  have hh : (itoa n).head (by rw [h]; simp) = digit ((Nat.digits 10 n).getLast hd) := by
    simp only [itoa, numeral, if_neg hn, List.head_map, List.head_reverse]
  have hlt : (Nat.digits 10 n).getLast hd < 10 := Nat.digits_lt_base (by decide) (List.getLast_mem hd)
  have h0 := congrArg UInt8.toNat hh
  rw [toNat_digit (by omega), if_pos hlt] at h0
  simp only [h, List.head_cons, UInt8.reduceToNat] at h0
  omega

theorem scanUnsigned_itoa (n : Nat) {c : UInt8} (hc : endsNumber c) (s : Bytes) :
    scanUnsigned (itoa n ++ c :: s) = some (itoa n, c :: s) := by
  obtain ⟨hdigit, hdot, he, hE⟩ := hc
  have hint : scanInt (itoa n ++ c :: s) = some (itoa n, c :: s) := by
    by_cases hn : n = 0
    · subst hn; rfl
    · have hdigits := scanDigits_append (numeral_ne_nil 10 n) (itoa_digits n) hdigit s
      obtain ⟨b, w, hw⟩ := List.exists_cons_of_ne_nil (numeral_ne_nil 10 n)
      change itoa n = b :: w at hw
      change scanDigits (itoa n ++ c :: s) = some (itoa n, c :: s) at hdigits
      have hb : b ≠ 0x30 := by
        rintro rfl
        exact itoa_leading hn w hw
      rw [hw, List.cons_append] at hdigits ⊢
      rw [scanInt_cons hb, hdigits]
  simp [scanUnsigned, hint, scanFrac_cons hdot, scanExp_cons he hE]

theorem scanNumber_formatInt (n : Int) {c : UInt8} (hc : endsNumber c) (s : Bytes) :
    scanNumber (formatInt n ++ c :: s) = some (formatInt n, c :: s) := by
  unfold formatInt
  split
  · rw [List.cons_append, scanNumber, scanUnsigned_itoa _ hc]; rfl
  · have hunsigned := scanUnsigned_itoa n.natAbs hc s
    obtain ⟨b, w, hw⟩ := List.exists_cons_of_ne_nil (numeral_ne_nil 10 n.natAbs)
    change itoa n.natAbs = b :: w at hw
    have hb : b ≠ 0x2D := by
      rintro rfl
      exact itoa_head_ne _ w hw
    rw [hw, List.cons_append] at hunsigned ⊢
    rw [scanNumber_cons hb, hunsigned]

theorem lex_formatInt (n : Int) {c : UInt8} (hc : endsNumber c) (s : Bytes) :
    lex (formatInt n ++ c :: s) = (lex (c :: s)).map (.num (formatInt n) :: ·) := by
  have hb : ∀ b ∈ formatInt n, b = 0x2D ∨ ∃ d < 10, b = digit d := by
    intro b hb
    unfold formatInt at hb
    split at hb
    · rcases List.mem_cons.1 hb with rfl | hb
      · exact .inl rfl
      · exact .inr (mem_numeral (by decide) hb)
    · exact .inr (mem_numeral (by decide) hb)
  have hne : formatInt n ≠ [] := by
    unfold formatInt
    split
    · simp
    · exact numeral_ne_nil 10 _
  obtain ⟨b, w, hw⟩ := List.exists_cons_of_ne_nil hne
  have digits : ∀ d < 10, isSpace (digit d) = false ∧ punct (digit d) = none ∧ digit d ≠ 0x22 ∧
      digit d ≠ 0x6E ∧ digit d ≠ 0x74 ∧ digit d ≠ 0x66 := by decide
  have hfirst : isSpace b = false ∧ punct b = none ∧ b ≠ 0x22 ∧ b ≠ 0x6E ∧ b ≠ 0x74 ∧ b ≠ 0x66 := by
    rcases hb b (by rw [hw]; simp) with rfl | ⟨d, hd, rfl⟩
    · decide
    · exact digits d hd
  obtain ⟨h1, h2, h3, h4, h5, h6⟩ := hfirst
  have hscan := scanNumber_formatInt n hc s
  rw [hw, List.cons_append] at hscan ⊢
  refine lex_cons h1 ?_
  simp [token, word, h2, h3, h4, h5, h6, hscan]

/-! ## Objects -/

theorem lex_punct {b : UInt8} {t : Token} (hb : isSpace b = false) (ht : punct b = some t) (s : Bytes) :
    lex (b :: s) = (lex s).map (t :: ·) :=
  lex_cons hb (by simp [token, ht])

theorem endsNumber_comma : endsNumber 0x2C := by unfold endsNumber; decide
theorem endsNumber_brace : endsNumber 0x7D := by unfold endsNumber; decide

/-- The tokens of one member. -/
def memberTokens (f : Bytes × Scalar) : List Token := [.str (coerce f.1), .colon, f.2.token]

theorem lex_memberText (f : Bytes × Scalar) {c : UInt8} (hc : endsNumber c) (s : Bytes) :
    lex (memberText f ++ c :: s) = (lex (c :: s)).map (memberTokens f ++ ·) := by
  rw [memberText, List.append_assoc, lex_quote, List.cons_append, lex_punct (t := .colon) (by decide) (by decide)]
  obtain ⟨k, v⟩ := f
  cases v with
  | str v =>
    rw [Scalar.text, lex_quote, Option.map_map, Option.map_map]
    rfl
  | int n =>
    rw [Scalar.text, lex_formatInt n hc, Option.map_map, Option.map_map]
    rfl

theorem lex_marshalObject (fs : List (Bytes × Scalar)) :
    lex (marshalObject fs) =
      some (.lbrace :: ([Token.comma].intercalate (fs.map memberTokens) ++ [.rbrace])) := by
  have go : ∀ fs : List (Bytes × Scalar), fs ≠ [] →
      lex ([0x2C].intercalate (fs.map memberText) ++ [0x7D]) =
        some ([Token.comma].intercalate (fs.map memberTokens) ++ [.rbrace]) := by
    intro fs hne
    induction fs with
    | nil => exact absurd rfl hne
    | cons f fs ih =>
      cases fs with
      | nil =>
        simp only [List.map_cons, List.map_nil, List.intercalate_singleton]
        rw [lex_memberText f endsNumber_brace]
        rfl
      | cons f' fs =>
        simp only [List.map_cons, List.intercalate_cons_cons, List.append_assoc, List.cons_append,
          List.nil_append] at ih ⊢
        rw [lex_memberText f endsNumber_comma, lex_punct (t := .comma) (by decide) (by decide), ih (by simp)]
        rfl
  rw [marshalObject, lex_punct (t := .lbrace) (by decide) (by decide)]
  by_cases hne : fs = []
  · subst hne; rfl
  · rw [go fs hne]; rfl

/-- The value of a member. -/
def memberValue (f : Bytes × Scalar) : Bytes × Value := (coerce f.1, f.2.value)

theorem feed_member (f : Bytes × Scalar) (ms : List (Bytes × Value)) (stack : List Frame) :
    (memberTokens f).foldlM feed (.key ms stack) =
      some (.after f.2.value (.obj ms (coerce f.1) :: stack)) := by
  obtain ⟨k, v⟩ := f
  cases v <;> rfl

theorem feed_members : ∀ (fs : List (Bytes × Scalar)) (ms : List (Bytes × Value)), fs ≠ [] →
    ([Token.comma].intercalate (fs.map memberTokens) ++ [Token.rbrace]).foldlM feed (.key ms []) =
      some (.after (.obj (ms ++ fs.map memberValue)) [])
  | [], _, h => absurd rfl h
  | [f], ms, _ => by
    simp only [List.map_cons, List.map_nil, List.intercalate_singleton]
    rw [List.foldlM_append, feed_member]
    rfl
  | f :: f' :: fs, ms, _ => by
    have ih := feed_members (f' :: fs) (ms ++ [memberValue f]) (by simp)
    simp only [List.map_cons, List.intercalate_cons_cons, List.append_assoc] at ih ⊢
    rw [List.foldlM_append, feed_member]
    simp only [Option.bind_eq_bind, Option.bind_some, List.singleton_append, List.foldlM_cons]
    exact ih

/-- A marshalled struct parses to the object of its fields, strings coerced. -/
theorem parse_marshalObject (fs : List (Bytes × Scalar)) :
    parse (marshalObject fs) = some (.obj (fs.map memberValue)) := by
  rw [parse, lex_marshalObject, Option.bind_some]
  by_cases hne : fs = []
  · subst hne; rfl
  · obtain ⟨f, fs', rfl⟩ := List.exists_cons_of_ne_nil hne
    -- the first key is read in the state after `{`, which takes it as any other
    have hk : ∀ ts, (Token.lbrace :: (memberTokens f ++ ts)).foldlM feed (.value []) =
        (memberTokens f ++ ts).foldlM feed (.key [] []) := fun ts => rfl
    have hm := feed_members (f :: fs') [] (by simp)
    rw [List.nil_append] at hm
    cases fs' with
    | nil =>
      simp only [List.map_cons, List.map_nil, List.intercalate_singleton] at hm ⊢
      rw [hk, hm]; rfl
    | cons f' fs' =>
      simp only [List.map_cons, List.intercalate_cons_cons, List.append_assoc] at hm ⊢
      rw [hk, hm]; rfl

theorem memberText_bytes (f : Bytes × Scalar) : ∀ b ∈ memberText f, 0x20 ≤ b.toNat := by
  intro b hb
  simp only [memberText, List.mem_append, List.mem_cons] at hb
  rcases hb with hb | rfl | hb
  · exact quote_bytes _ b hb
  · decide
  · cases hf : f.2 with
    | str s => rw [hf] at hb; exact quote_bytes s b hb
    | int n =>
      rw [hf] at hb
      by_contra hlt
      exact not_mem_formatInt n (by omega) (by rintro rfl; revert hlt; decide) hb

/-- A marshalled struct holds no control character. -/
theorem marshalObject_bytes (fs : List (Bytes × Scalar)) : ∀ b ∈ marshalObject fs, 0x20 ≤ b.toNat := by
  intro b hb
  simp only [marshalObject, List.mem_cons, List.mem_append, List.not_mem_nil, or_false] at hb
  rcases hb with rfl | hb | rfl
  · decide
  · rcases mem_intercalate hb with hb | ⟨w, hw, hb⟩
    · rw [List.mem_singleton.1 hb]; decide
    · obtain ⟨f, -, rfl⟩ := List.mem_map.1 hw
      exact memberText_bytes f b hb
  · decide

/-! ## Arrays of strings -/

theorem lex_marshalStrings (ss : List Bytes) :
    lex (marshalStrings ss) =
      some (.lbrack :: ([Token.comma].intercalate (ss.map fun s => [.str (coerce s)]) ++ [.rbrack])) := by
  have hcomma : lit ",\n  " = 0x2C :: [0x0A, 0x20, 0x20] := by decide
  have hopen : lit "[\n  " = 0x5B :: [0x0A, 0x20, 0x20] := by decide
  have hclose : lit "\n]" = [0x0A] ++ [0x5D] := by decide
  have go : ∀ ss : List Bytes, ss ≠ [] →
      lex ((lit ",\n  ").intercalate (ss.map quote) ++ lit "\n]") =
        some ([Token.comma].intercalate (ss.map fun s => [.str (coerce s)]) ++ [.rbrack]) := by
    intro ss hne
    induction ss with
    | nil => exact absurd rfl hne
    | cons s ss ih =>
      cases ss with
      | nil =>
        simp only [List.map_cons, List.map_nil, List.intercalate_singleton]
        rw [lex_quote, hclose, lex_append_space (forall_of_all (by decide)),
          lex_punct (t := .rbrack) (by decide) (by decide)]
        rfl
      | cons s' ss =>
        simp only [List.map_cons, List.intercalate_cons_cons, List.append_assoc] at ih ⊢
        rw [lex_quote]
        conv_lhs => rw [hcomma]
        rw [List.cons_append, lex_punct (t := .comma) (by decide) (by decide),
          lex_append_space (forall_of_all (by decide)), ← hcomma, ih (by simp)]
        rfl
  unfold marshalStrings
  by_cases hne : ss = []
  · subst hne; decide
  · rw [if_neg (by simpa using hne), hopen, List.cons_append, lex_punct (t := .lbrack) (by decide) (by decide),
      lex_append_space (forall_of_all (by decide)), go ss hne]
    rfl

theorem feed_elems : ∀ (ss : List Bytes) (es : List Value), ss ≠ [] →
    ([Token.comma].intercalate (ss.map fun s => [Token.str (coerce s)]) ++ [Token.rbrack]).foldlM feed
        (.value [.arr es]) =
      some (.after (.arr (es ++ ss.map fun s => Value.str (coerce s))) [])
  | [], _, h => absurd rfl h
  | [s], es, _ => rfl
  | s :: s' :: ss, es, _ => by
    have ih := feed_elems (s' :: ss) (es ++ [Value.str (coerce s)]) (by simp)
    simp only [List.map_cons, List.intercalate_cons_cons, List.append_assoc] at ih ⊢
    exact ih

/-- A marshalled slice of strings parses to the array of its strings, coerced. -/
theorem parse_marshalStrings (ss : List Bytes) :
    parse (marshalStrings ss) = some (.arr (ss.map fun s => .str (coerce s))) := by
  rw [parse, lex_marshalStrings, Option.bind_some]
  by_cases hne : ss = []
  · subst hne; rfl
  · obtain ⟨s, ss', rfl⟩ := List.exists_cons_of_ne_nil hne
    have hm := feed_elems (s :: ss') [] (by simp)
    rw [List.nil_append] at hm
    have hk : ∀ t ts, (Token.lbrack :: .str t :: ts).foldlM feed (.value []) =
        (Token.str t :: ts).foldlM feed (.value [.arr []]) := fun t ts => rfl
    cases ss' with
    | nil => rfl
    | cons s' ss' =>
      simp only [List.map_cons, List.intercalate_cons_cons, List.cons_append,
        List.nil_append] at hm ⊢
      rw [hk, hm]; rfl

end WatchBPF.Json
