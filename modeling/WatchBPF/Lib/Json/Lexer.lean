/-
The tokens of a JSON text as `encoding/json` scans them: white space, punctuation, keywords,
number literals, and string literals with their escapes resolved and ill-formed UTF-8 coerced.
-/
import WatchBPF.Lib.Utf8
import WatchBPF.Lib.Numeral

namespace WatchBPF.Json

open WatchBPF.Utf8 WatchBPF.Numeral

inductive Token
  | lbrace | rbrace | lbrack | rbrack | colon | comma
  | null | true | false
  | num (text : Bytes)
  | str (value : Bytes)
  deriving DecidableEq, Repr

/-! ## White space -/

def isSpace (b : UInt8) : Bool := b == 0x20 || b == 0x09 || b == 0x0A || b == 0x0D

def skipSpace (s : Bytes) : Bytes := s.dropWhile isSpace

/-! ## String literals -/

/-- The text of a literal up to its closing quote, and what follows the quote. -/
def scanString : Bytes → Option (Bytes × Bytes)
  | [] => none
  | b :: s =>
    if b == 0x22 then some ([], s)
    else if b == 0x5C then
      match s with
      | [] => none
      | c :: s => (scanString s).map fun p => (b :: c :: p.1, p.2)
    else if b.toNat < 0x20 then none
    else (scanString s).map fun p => (b :: p.1, p.2)

theorem scanString_quote (s : Bytes) : scanString (0x22 :: s) = some ([], s) := by
  rw [scanString.eq_def]; rfl

theorem scanString_escape (c : UInt8) (s : Bytes) :
    scanString (0x5C :: c :: s) = (scanString s).map fun p => (0x5C :: c :: p.1, p.2) := by
  rw [scanString.eq_def]; rfl

theorem scanString_text {b : UInt8} (hb : 0x20 ≤ b.toNat ∧ b ≠ 0x22 ∧ b ≠ 0x5C) (s : Bytes) :
    scanString (b :: s) = (scanString s).map fun p => (b :: p.1, p.2) := by
  have : ¬ b.toNat < 0x20 := by omega
  rw [scanString.eq_def]
  simp [hb.2.1, hb.2.2, this]

/-- The character a one-letter escape stands for. -/
def escape (c : UInt8) : Option UInt8 :=
  if c == 0x22 || c == 0x5C || c == 0x2F then some c
  else if c == 0x62 then some 0x08
  else if c == 0x66 then some 0x0C
  else if c == 0x6E then some 0x0A
  else if c == 0x72 then some 0x0D
  else if c == 0x74 then some 0x09
  else none

def hexVal (c : UInt8) : Option Nat :=
  if isDigit c then some (c.toNat - 48)
  else if 97 ≤ c.toNat && c.toNat ≤ 102 then some (c.toNat - 87)
  else if 65 ≤ c.toNat && c.toNat ≤ 70 then some (c.toNat - 55)
  else none

/-- `getu4`: the code unit of four hexadecimal digits. -/
def getu4 (a b c d : UInt8) : Option Nat := do
  let a ← hexVal a
  let b ← hexVal b
  let c ← hexVal c
  let d ← hexVal d
  some (a * 4096 + b * 256 + c * 16 + d)

/-- A piece of a literal: text as it reads, or the code unit of a `\u` escape. -/
inductive Piece
  | text (s : Bytes)
  | unit (u : Nat)
  deriving DecidableEq, Repr

def pieces : List Rune → Option (List Piece)
  | [] => some []
  | .one b :: rs =>
    if b == 0x5C then
      match rs with
      | .one c :: rs =>
        if c == 0x75 then
          match rs with
          | .one h1 :: .one h2 :: .one h3 :: .one h4 :: rs =>
            (getu4 h1 h2 h3 h4).bind fun u => (pieces rs).map (.unit u :: ·)
          | _ => none
        else (escape c).bind fun e => (pieces rs).map (.text [e] :: ·)
      | _ => none
    else if b.toNat < 0x20 then none
    else (pieces rs).map (.text [b] :: ·)
  | r :: rs => (pieces rs).map (.text r.coerce.enc :: ·)

theorem pieces_ascii {b : UInt8} (hb : 0x20 ≤ b.toNat) (h : b ≠ 0x5C) (rs : List Rune) :
    pieces (.one b :: rs) = (pieces rs).map (.text [b] :: ·) := by
  have : ¬ b.toNat < 0x20 := by omega
  rw [pieces.eq_def]
  simp [h, this]

theorem pieces_rune {r : Rune} (h : ∀ b, r ≠ .one b) (rs : List Rune) :
    pieces (r :: rs) = (pieces rs).map (.text r.coerce.enc :: ·) := by
  rw [pieces.eq_def]
  cases r with
  | one b => exact absurd rfl (h b)
  | two | three | four | bad => rfl

theorem pieces_letter {c : UInt8} (h : c ≠ 0x75) (rs : List Rune) :
    pieces (.one 0x5C :: .one c :: rs) =
      (escape c).bind fun e => (pieces rs).map (.text [e] :: ·) := by
  rw [pieces.eq_def]
  simp [h]

theorem pieces_unit (h1 h2 h3 h4 : UInt8) (rs : List Rune) :
    pieces (.one 0x5C :: .one 0x75 :: .one h1 :: .one h2 :: .one h3 :: .one h4 :: rs) =
      (getu4 h1 h2 h3 h4).bind fun u => (pieces rs).map (.unit u :: ·) := by
  rw [pieces.eq_def]
  rfl

def isHigh (u : Nat) : Bool := 0xD800 ≤ u && u < 0xDC00
def isLow (u : Nat) : Bool := 0xDC00 ≤ u && u < 0xE000

/-- A code unit on its own; U+FFFD for a surrogate. -/
def encodeUnit (u : Nat) : Bytes := encodeRune (if isHigh u || isLow u then 0xFFFD else u)

/-- The pieces put together, a surrogate pair as one rune. -/
def assemble : List Piece → Bytes
  | [] => []
  | .text s :: ps => s ++ assemble ps
  | .unit u :: .unit v :: ps =>
    if isHigh u && isLow v then
      encodeRune ((u - 0xD800) * 1024 + (v - 0xDC00) + 0x10000) ++ assemble ps
    else encodeUnit u ++ assemble (.unit v :: ps)
  | .unit u :: ps => encodeUnit u ++ assemble ps

/-- `unquote`: the value of the text between the quotes of a literal. -/
def unquote (s : Bytes) : Option Bytes := (pieces (runes s)).map assemble

/-! ## Number literals -/

/-- A run of digits that is not empty. -/
def scanDigits (s : Bytes) : Option (Bytes × Bytes) :=
  if (s.takeWhile isDigit).isEmpty then none else some (s.takeWhile isDigit, s.dropWhile isDigit)

def scanInt : Bytes → Option (Bytes × Bytes)
  | 0x30 :: s => some ([0x30], s)
  | s => scanDigits s

def scanFrac : Bytes → Option (Bytes × Bytes)
  | 0x2E :: s => (scanDigits s).map fun p => (0x2E :: p.1, p.2)
  | s => some ([], s)

def scanExp : Bytes → Option (Bytes × Bytes)
  | [] => some ([], [])
  | e :: s =>
    if e == 0x65 || e == 0x45 then
      match s with
      | 0x2B :: s => (scanDigits s).map fun p => (e :: 0x2B :: p.1, p.2)
      | 0x2D :: s => (scanDigits s).map fun p => (e :: 0x2D :: p.1, p.2)
      | s => (scanDigits s).map fun p => (e :: p.1, p.2)
    else some ([], e :: s)

def scanUnsigned (s : Bytes) : Option (Bytes × Bytes) := do
  let (int, s) ← scanInt s
  let (frac, s) ← scanFrac s
  let (exp, s) ← scanExp s
  some (int ++ frac ++ exp, s)

def scanNumber : Bytes → Option (Bytes × Bytes)
  | 0x2D :: s => (scanUnsigned s).map fun p => (0x2D :: p.1, p.2)
  | s => scanUnsigned s

/-! ## Tokens -/

/-- What follows the keyword `w` at the front of `s`. -/
def keyword (w : Bytes) (t : Token) (s : Bytes) : Option (Token × Bytes) :=
  if w.isPrefixOf s then some (t, s.drop w.length) else none

def punct (b : UInt8) : Option Token :=
  if b == 0x7B then some .lbrace
  else if b == 0x7D then some .rbrace
  else if b == 0x5B then some .lbrack
  else if b == 0x5D then some .rbrack
  else if b == 0x3A then some .colon
  else if b == 0x2C then some .comma
  else none

/-- The keyword or number literal at the front of `b :: s`. -/
def word (b : UInt8) (s : Bytes) : Option (Token × Bytes) :=
  if b == 0x6E then keyword (lit "ull") .null s
  else if b == 0x74 then keyword (lit "rue") .true s
  else if b == 0x66 then keyword (lit "alse") .false s
  else (scanNumber (b :: s)).map fun p => (.num p.1, p.2)

/-- The token at the front of `b :: s`, where `b` is no white space. -/
def token (b : UInt8) (s : Bytes) : Option (Token × Bytes) :=
  match punct b with
  | some t => some (t, s)
  | none =>
    if b == 0x22 then (scanString s).bind fun p => (unquote p.1).map fun v => (.str v, p.2)
    else word b s

/-- One step of the scan; a refusal ends it. -/
def next (b : UInt8) (s : Bytes) : Option Token × Bytes :=
  match token b s with
  | some (t, r) => (some t, skipSpace r)
  | none => (none, [])

/-- The tokens of a text, or `none` where it holds something that is no token. -/
def lex (s : Bytes) : Option (List Token) := (chop next (skipSpace s)).mapM id

/-! ## The scan consumes its input -/

theorem scanString_length : ∀ {s : Bytes} {p : Bytes × Bytes}, scanString s = some p →
    p.2.length ≤ s.length
  | [], _, h => by simp [scanString] at h
  | b :: s, p, h => by
    unfold scanString at h
    split at h
    · cases h; simp
    · split at h
      · split at h
        · cases h
        · rename_i c s
          obtain ⟨q, hq, rfl⟩ := Option.map_eq_some_iff.1 h
          have := scanString_length hq
          simp only [List.length_cons]; omega
      · split at h
        · cases h
        · obtain ⟨q, hq, rfl⟩ := Option.map_eq_some_iff.1 h
          have := scanString_length hq
          simp only [List.length_cons]; omega

theorem scanDigits_length {s : Bytes} {p : Bytes × Bytes} (h : scanDigits s = some p) :
    p.2.length < s.length := by
  unfold scanDigits at h
  split at h
  · cases h
  · cases h
    rename_i hne
    have hl := congrArg List.length (List.takeWhile_append_dropWhile (p := isDigit) (l := s))
    have : 0 < (s.takeWhile isDigit).length := by
      rw [List.length_pos_iff]; simpa using hne
    simp only [List.length_append] at hl ⊢
    omega

theorem scanInt_length {s : Bytes} {p : Bytes × Bytes} (h : scanInt s = some p) :
    p.2.length < s.length := by
  unfold scanInt at h
  split at h
  · cases h; simp
  · exact scanDigits_length h

theorem scanFrac_length {s : Bytes} {p : Bytes × Bytes} (h : scanFrac s = some p) :
    p.2.length ≤ s.length := by
  unfold scanFrac at h
  split at h
  · obtain ⟨q, hq, rfl⟩ := Option.map_eq_some_iff.1 h
    have := scanDigits_length hq
    simp only [List.length_cons]; omega
  · cases h; exact le_rfl

theorem scanExp_length {s : Bytes} {p : Bytes × Bytes} (h : scanExp s = some p) :
    p.2.length ≤ s.length := by
  unfold scanExp at h
  split at h
  · cases h; exact le_rfl
  · split at h
    · split at h <;>
      · obtain ⟨q, hq, rfl⟩ := Option.map_eq_some_iff.1 h
        have := scanDigits_length hq
        simp only [List.length_cons] at *; omega
    · cases h; exact le_rfl

theorem scanUnsigned_length {s : Bytes} {p : Bytes × Bytes} (h : scanUnsigned s = some p) :
    p.2.length < s.length := by
  unfold scanUnsigned at h
  simp only [Option.bind_eq_bind, Option.bind_eq_some_iff] at h
  obtain ⟨q1, h1, q2, h2, q3, h3, h4⟩ := h
  cases h4
  have := scanInt_length h1
  have := scanFrac_length h2
  have := scanExp_length h3
  simp only at *; omega

theorem scanNumber_length {s : Bytes} {p : Bytes × Bytes} (h : scanNumber s = some p) :
    p.2.length < s.length := by
  unfold scanNumber at h
  split at h
  · obtain ⟨q, hq, rfl⟩ := Option.map_eq_some_iff.1 h
    have := scanUnsigned_length hq
    simp only [List.length_cons]; omega
  · exact scanUnsigned_length h

theorem keyword_length {w : Bytes} {t : Token} {s : Bytes} {p : Token × Bytes}
    (h : keyword w t s = some p) : p.2.length ≤ s.length := by
  unfold keyword at h
  split at h
  · cases h; simp
  · cases h

theorem word_length {b : UInt8} {s : Bytes} {p : Token × Bytes} (h : word b s = some p) :
    p.2.length ≤ s.length := by
  unfold word at h
  iterate 3 (split at h; · exact keyword_length h)
  obtain ⟨q, hq, rfl⟩ := Option.map_eq_some_iff.1 h
  have := scanNumber_length hq
  simp only [List.length_cons] at this
  show q.2.length ≤ s.length
  omega

theorem token_length {b : UInt8} {s : Bytes} {p : Token × Bytes} (h : token b s = some p) :
    p.2.length ≤ s.length := by
  unfold token at h
  split at h
  · cases h; exact le_rfl
  · split at h
    · obtain ⟨q, hq, h⟩ := Option.bind_eq_some_iff.1 h
      obtain ⟨v, -, rfl⟩ := Option.map_eq_some_iff.1 h
      exact scanString_length hq
    · exact word_length h

theorem length_skipSpace (s : Bytes) : (skipSpace s).length ≤ s.length :=
  (List.dropWhile_sublist _).length_le

theorem next_length (b : UInt8) (s : Bytes) : (next b s).2.length ≤ s.length := by
  unfold next
  split
  · rename_i t r h
    exact (length_skipSpace r).trans (token_length h)
  · simp

/-! ## Scanning token by token -/

theorem skipSpace_append {w : Bytes} (hw : ∀ b ∈ w, isSpace b = true) (s : Bytes) :
    skipSpace (w ++ s) = skipSpace s := List.dropWhile_append_of_pos hw

@[simp] theorem lex_nil : lex [] = some [] := rfl

/-- White space before a token is ignored. -/
theorem lex_append_space {w : Bytes} (hw : ∀ b ∈ w, isSpace b = true) (s : Bytes) :
    lex (w ++ s) = lex s := by
  rw [lex, skipSpace_append hw, lex]

/-- A token at the front of the text is the first of its tokens. -/
theorem lex_cons {b : UInt8} {s r : Bytes} {t : Token} (hb : isSpace b = false)
    (h : token b s = some (t, r)) : lex (b :: s) = (lex r).map (t :: ·) := by
  have hs : skipSpace (b :: s) = b :: s := List.dropWhile_cons_of_neg (by simp [hb])
  have hn : next b s = (some t, skipSpace r) := by simp [next, h]
  rw [lex, hs, chop_cons next_length, hn, List.mapM_cons, lex]
  cases (chop next (skipSpace r)).mapM id <;> rfl

end WatchBPF.Json
