/-
`strconv.Quote`, which `%q` prints: runes that can be printed stand as they are, every other byte or
rune is escaped. Whatever is quoted, the result is valid UTF-8.
-/
import WatchBPF.Lib.Utf8
import WatchBPF.Lib.Numeral

namespace WatchBPF.Strconv

open WatchBPF.Utf8 WatchBPF.Numeral

/-- `IsPrint`; `table` decides beyond Latin-1. -/
def isPrint (table : Nat → Bool) (r : Nat) : Bool :=
  if r ≤ 0xFF then (0x20 ≤ r && r < 0x7F) || (0xA1 ≤ r && r != 0xAD) else table r

/-- The lowest `width` hexadecimal digits. -/
def hexDigits : Nat → Nat → Bytes
  | 0, _ => []
  | width + 1, n => hexDigits width (n / 16) ++ [digit (n % 16)]

/-- `appendEscapedRune` for a rune that is not printed. -/
def escapeRune (r : Nat) : Bytes :=
  if r = 0x07 then lit "\\a"
  else if r = 0x08 then lit "\\b"
  else if r = 0x0C then lit "\\f"
  else if r = 0x0A then lit "\\n"
  else if r = 0x0D then lit "\\r"
  else if r = 0x09 then lit "\\t"
  else if r = 0x0B then lit "\\v"
  else if r < 0x20 ∨ r = 0x7F then lit "\\x" ++ hexDigits 2 r
  else if r < 0x10000 then lit "\\u" ++ hexDigits 4 r
  else lit "\\U" ++ hexDigits 8 r

def quoteRune (table : Nat → Bool) : Rune → Bytes
  | .bad b => lit "\\x" ++ hexDigits 2 b.toNat
  | r =>
    if r = .one 0x22 ∨ r = .one 0x5C then 0x5C :: r.enc
    else if isPrint table r.value then r.enc
    else escapeRune r.value

def quote (table : Nat → Bool) (s : Bytes) : Bytes := 0x22 :: ((runes s).flatMap (quoteRune table) ++ [0x22])

theorem hexDigits_ascii : ∀ (width n : Nat), ∀ b ∈ hexDigits width n, b.toNat < 0x80
  | 0, _, _, h => by simp [hexDigits] at h
  | width + 1, n, b, h => by
    rw [hexDigits, List.mem_append] at h
    rcases h with h | h
    · exact hexDigits_ascii width _ b h
    · rw [List.mem_singleton.1 h]; exact digit_ascii (Nat.mod_lt _ (by decide))

theorem escapeRune_ascii (r : Nat) : ∀ b ∈ escapeRune r, b.toNat < 0x80 := by
  have hx : ∀ (w : Bytes), (∀ b ∈ w, b.toNat < 0x80) → ∀ width n, ∀ b ∈ w ++ hexDigits width n, b.toNat < 0x80 :=
    fun w hw width n b hb => (List.mem_append.1 hb).elim (hw b) (hexDigits_ascii width n b)
  unfold escapeRune
  iterate 7 (split; · exact forall_of_all (by decide))
  split
  · exact hx _ (forall_of_all (by decide)) _ _
  · split
    · exact hx _ (forall_of_all (by decide)) _ _
    · exact hx _ (forall_of_all (by decide)) _ _

theorem valid_quoteRune (table : Nat → Bool) {r : Rune} (h : r.ok = true ∨ ∃ b, r = .bad b) :
    valid (quoteRune table r) = true := by
  have hok : r.ok = true → valid r.enc = true := fun hok => by
    have := runes_enc_append hok []
    rw [List.append_nil] at this
    simp [valid, this, hok]
  have hplain : r.ok = true → valid (if r = .one 0x22 ∨ r = .one 0x5C then 0x5C :: r.enc
      else if isPrint table r.value then r.enc else escapeRune r.value) = true := fun hr => by
    split
    · rw [valid_cons_ascii _ (by decide)]; exact hok hr
    · split
      · exact hok hr
      · exact valid_ascii (escapeRune_ascii _)
  cases r with
  | bad b =>
    refine valid_ascii fun c hc => ?_
    rcases List.mem_append.1 hc with hc | hc
    · have : ∀ b ∈ lit "\\x", b.toNat < 0x80 := forall_of_all (by decide)
      exact this c hc
    · exact hexDigits_ascii _ _ c hc
  | one | two | three | four => exact hplain (h.resolve_right (by simp))

/-- A quoted string is valid UTF-8. -/
theorem valid_quote (table : Nat → Bool) (s : Bytes) : valid (quote table s) = true := by
  have go : ∀ rs : List Rune, (∀ r ∈ rs, r.ok = true ∨ ∃ b, r = .bad b) →
      valid (rs.flatMap (quoteRune table) ++ [0x22]) = true := by
    intro rs
    induction rs with
    | nil => intro _; rfl
    | cons r rs ih =>
      intro h
      rw [List.flatMap_cons, List.append_assoc]
      exact valid_append (valid_quoteRune table (h r (by simp))) (ih fun q hq => h q (by simp [hq]))
  rw [quote, valid_cons_ascii _ (by decide)]
  exact go _ (ok_or_bad s)

end WatchBPF.Strconv
