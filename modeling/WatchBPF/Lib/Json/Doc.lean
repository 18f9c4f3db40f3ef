/-
`json.Marshal` of any tree of structs, slices, strings, integers and booleans. As long as it is not nested deeper
than a reader allows, it is read back as the tree that it was made from, with its strings coerced to UTF-8.
-/
import WatchBPF.Lib.Json.Append

namespace WatchBPF.Json

open WatchBPF.Utf8 WatchBPF.Numeral

/-- What is marshalled. -/
inductive Doc
  | null
  | bool (b : Bool)
  | int (n : Int)
  | str (s : Bytes)
  | arr (elems : List Doc)
  | obj (members : List (Bytes × Doc))

/-! ## Texts -/

mutual

def Doc.text : Doc → Bytes
  | .null => lit "null"
  | .bool b => if b then lit "true" else lit "false"
  | .int n => formatInt n
  | .str s => quote s
  | .arr ds => 0x5B :: ((elemsText ds).drop 1 ++ [0x5D])
  | .obj ms => 0x7B :: ((membersText ms).drop 1 ++ [0x7D])

/-- The elements, each behind a comma. -/
def elemsText : List Doc → Bytes
  | [] => []
  | d :: ds => 0x2C :: (d.text ++ elemsText ds)

def membersText : List (Bytes × Doc) → Bytes
  | [] => []
  | (k, d) :: ms => 0x2C :: (quote k ++ 0x3A :: (d.text ++ membersText ms))

end

mutual

def Doc.tokens : Doc → List Token
  | .null => [.null]
  | .bool b => [if b then .true else .false]
  | .int n => [.num (formatInt n)]
  | .str s => [.str (coerce s)]
  | .arr ds => .lbrack :: ((elemsTokens ds).drop 1 ++ [.rbrack])
  | .obj ms => .lbrace :: ((membersTokens ms).drop 1 ++ [.rbrace])

def elemsTokens : List Doc → List Token
  | [] => []
  | d :: ds => .comma :: (d.tokens ++ elemsTokens ds)

def membersTokens : List (Bytes × Doc) → List Token
  | [] => []
  | (k, d) :: ms => .comma :: .str (coerce k) :: .colon :: (d.tokens ++ membersTokens ms)

end

mutual

/-- What the text is read as. -/
def Doc.value : Doc → Value
  | .null => .null
  | .bool b => .bool b
  | .int n => .num (formatInt n)
  | .str s => .str (coerce s)
  | .arr ds => .arr (elemsValue ds)
  | .obj ms => .obj (membersValue ms)

def elemsValue : List Doc → List Value
  | [] => []
  | d :: ds => d.value :: elemsValue ds

def membersValue : List (Bytes × Doc) → List (Bytes × Value)
  | [] => []
  | (k, d) :: ms => (coerce k, d.value) :: membersValue ms

end

mutual

/-- How many containers are open at most. -/
def Doc.depth : Doc → Nat
  | .arr ds => elemsDepth ds + 1
  | .obj ms => membersDepth ms + 1
  | _ => 0

def elemsDepth : List Doc → Nat
  | [] => 0
  | d :: ds => max d.depth (elemsDepth ds)

def membersDepth : List (Bytes × Doc) → Nat
  | [] => 0
  | (_, d) :: ms => max d.depth (membersDepth ms)

end

/-! ## Scanning -/

theorem endsNumber_bracket : endsNumber 0x5D := by unfold endsNumber; decide

theorem token_cons {b : UInt8} {s r : Bytes} {t : Token} (hp : punct b = none) (hq : b ≠ 0x22)
    (h : word b s = some (t, r)) : token b s = some (t, r) := by
  rw [token, hp]
  simp only [beq_iff_eq, hq, if_false, h]

theorem keyword_append (w : Bytes) (t : Token) (s : Bytes) : keyword w t (w ++ s) = some (t, s) := by
  rw [keyword, if_pos (List.isPrefixOf_iff_prefix.2 (List.prefix_append w s)), List.drop_left]

theorem lex_null (s : Bytes) : lex (lit "null" ++ s) = (lex s).map (.null :: ·) := by
  have hnull : lit "null" = 0x6E :: lit "ull" := by decide
  have hword : word 0x6E (lit "ull" ++ s) = some (.null, s) := keyword_append (lit "ull") .null s
  rw [hnull, List.cons_append]
  exact lex_cons (by decide) (token_cons (by decide) (by decide) hword)

theorem lex_bool (b : Bool) (s : Bytes) :
    lex ((if b then lit "true" else lit "false") ++ s) = (lex s).map ((if b then .true else .false) :: ·) := by
  have htrue : lit "true" = 0x74 :: lit "rue" := by decide
  have hfalse : lit "false" = 0x66 :: lit "alse" := by decide
  cases b with
  | true =>
    have hword : word 0x74 (lit "rue" ++ s) = some (.true, s) := keyword_append (lit "rue") .true s
    rw [if_pos rfl, if_pos rfl, htrue, List.cons_append]
    exact lex_cons (by decide) (token_cons (by decide) (by decide) hword)
  | false =>
    have hword : word 0x66 (lit "alse" ++ s) = some (.false, s) := keyword_append (lit "alse") .false s
    rw [if_neg Bool.false_ne_true, if_neg Bool.false_ne_true, hfalse, List.cons_append]
    exact lex_cons (by decide) (token_cons (by decide) (by decide) hword)

/-- What follows an element is a comma or what follows the elements. -/
theorem elemsText_append (ds : List Doc) {c : UInt8} (hc : endsNumber c) (s : Bytes) :
    ∃ c' s', elemsText ds ++ c :: s = c' :: s' ∧ endsNumber c' := by
  cases ds with
  | nil => exact ⟨c, s, rfl, hc⟩
  | cons d ds => exact ⟨_, _, by rw [elemsText, List.cons_append], endsNumber_comma⟩

theorem membersText_append (ms : List (Bytes × Doc)) {c : UInt8} (hc : endsNumber c) (s : Bytes) :
    ∃ c' s', membersText ms ++ c :: s = c' :: s' ∧ endsNumber c' := by
  cases ms with
  | nil => exact ⟨c, s, rfl, hc⟩
  | cons m ms => exact ⟨_, _, by rw [membersText, List.cons_append], endsNumber_comma⟩

mutual

theorem lex_text : ∀ (d : Doc) {c : UInt8}, endsNumber c → ∀ s : Bytes,
    lex (d.text ++ c :: s) = (lex (c :: s)).map (d.tokens ++ ·)
  | .null, c, _, s => by
    rw [Doc.text, Doc.tokens, lex_null]
    rfl
  | .bool b, c, _, s => by
    rw [Doc.text, Doc.tokens, lex_bool]
    rfl
  | .int n, c, hc, s => by
    rw [Doc.text, Doc.tokens, lex_formatInt n hc]
    rfl
  | .str v, c, _, s => by
    rw [Doc.text, Doc.tokens, lex_quote]
    rfl
  | .arr [], c, _, s => by
    simp only [Doc.text, Doc.tokens, elemsText, elemsTokens, List.drop_nil, List.nil_append, List.cons_append]
    rw [lex_punct (t := .lbrack) (by decide) (by decide), lex_punct (t := .rbrack) (by decide) (by decide),
      Option.map_map]
    rfl
  | .arr (d :: ds), c, _, s => by
    obtain ⟨c', s', htail, hc'⟩ := elemsText_append ds endsNumber_bracket (c :: s)
    simp only [Doc.text, Doc.tokens, elemsText, elemsTokens, List.drop_succ_cons, List.drop_zero, List.append_assoc,
      List.cons_append, List.nil_append]
    rw [lex_punct (t := .lbrack) (by decide) (by decide), htail, lex_text d hc', ← htail,
      lex_elemsText ds endsNumber_bracket, lex_punct (t := .rbrack) (by decide) (by decide)]
    simp only [Option.map_map]
    congr 1
  | .obj [], c, _, s => by
    simp only [Doc.text, Doc.tokens, membersText, membersTokens, List.drop_nil, List.nil_append, List.cons_append]
    rw [lex_punct (t := .lbrace) (by decide) (by decide), lex_punct (t := .rbrace) (by decide) (by decide),
      Option.map_map]
    rfl
  | .obj ((k, d) :: ms), c, _, s => by
    obtain ⟨c', s', htail, hc'⟩ := membersText_append ms endsNumber_brace (c :: s)
    simp only [Doc.text, Doc.tokens, membersText, membersTokens, List.drop_succ_cons, List.drop_zero,
      List.append_assoc, List.cons_append, List.nil_append]
    rw [lex_punct (t := .lbrace) (by decide) (by decide), lex_quote, lex_punct (t := .colon) (by decide) (by decide),
      htail, lex_text d hc', ← htail, lex_membersText ms endsNumber_brace,
      lex_punct (t := .rbrace) (by decide) (by decide)]
    simp only [Option.map_map]
    congr 1

theorem lex_elemsText : ∀ (ds : List Doc) {c : UInt8}, endsNumber c → ∀ s : Bytes,
    lex (elemsText ds ++ c :: s) = (lex (c :: s)).map (elemsTokens ds ++ ·)
  | [], c, _, s => by
    rw [elemsText, elemsTokens]
    simp
  | d :: ds, c, hc, s => by
    obtain ⟨c', s', htail, hc'⟩ := elemsText_append ds hc s
    simp only [elemsText, elemsTokens, List.append_assoc, List.cons_append]
    rw [lex_punct (t := .comma) (by decide) (by decide), htail, lex_text d hc', ← htail, lex_elemsText ds hc]
    simp only [Option.map_map]
    rfl

theorem lex_membersText : ∀ (ms : List (Bytes × Doc)) {c : UInt8}, endsNumber c → ∀ s : Bytes,
    lex (membersText ms ++ c :: s) = (lex (c :: s)).map (membersTokens ms ++ ·)
  | [], c, _, s => by
    rw [membersText, membersTokens]
    simp
  | (k, d) :: ms, c, hc, s => by
    obtain ⟨c', s', htail, hc'⟩ := membersText_append ms hc s
    simp only [membersText, membersTokens, List.append_assoc, List.cons_append]
    rw [lex_punct (t := .comma) (by decide) (by decide), lex_quote, lex_punct (t := .colon) (by decide) (by decide),
      htail, lex_text d hc', ← htail, lex_membersText ms hc]
    simp only [Option.map_map]
    rfl

end

/-! ## Reading -/

/-- A value does not start with a closing bracket. -/
theorem tokens_cons_ne (d : Doc) : ∃ t ts, d.tokens = t :: ts ∧ t ≠ .rbrack := by
  cases d with
  | null => exact ⟨.null, [], by rw [Doc.tokens], nofun⟩
  | bool b => exact ⟨if b then .true else .false, [], by rw [Doc.tokens], by cases b <;> nofun⟩
  | int n => exact ⟨.num (formatInt n), [], by rw [Doc.tokens], nofun⟩
  | str s => exact ⟨.str (coerce s), [], by rw [Doc.tokens], nofun⟩
  | arr ds => exact ⟨.lbrack, (elemsTokens ds).drop 1 ++ [.rbrack], by rw [Doc.tokens], nofun⟩
  | obj ms => exact ⟨.lbrace, (membersTokens ms).drop 1 ++ [.rbrace], by rw [Doc.tokens], nofun⟩

theorem feed_firstElem {t : Token} (ht : t ≠ .rbrack) (stack : List Frame) :
    feed (.firstElem stack) t = feed (.value (.arr [] :: stack)) t := by
  cases t with
  | rbrack => exact absurd rfl ht
  | _ => rfl

mutual

theorem feed_tokens : ∀ (d : Doc) (stack : List Frame), stack.length + d.depth ≤ maxDepth →
    d.tokens.foldlM feed (.value stack) = some (.after d.value stack)
  | .null, stack, _ => by rw [Doc.tokens, Doc.value]; rfl
  | .bool b, stack, _ => by rw [Doc.tokens, Doc.value]; cases b <;> rfl
  | .int n, stack, _ => by rw [Doc.tokens, Doc.value]; rfl
  | .str s, stack, _ => by rw [Doc.tokens, Doc.value]; rfl
  | .arr ds, stack, h => by
    rw [Doc.depth] at h
    have hopen : ∀ ts : List Token, (Token.lbrack :: ts).foldlM feed (.value stack) =
        ts.foldlM feed (.firstElem stack) := by
      intro ts
      rw [List.foldlM_cons, feed, beginValue, if_pos (by omega)]
      rfl
    rw [Doc.tokens, Doc.value, hopen]
    cases ds with
    | nil => rw [elemsTokens, elemsValue]; rfl
    | cons d ds =>
      rw [elemsDepth] at h
      have hfirst := feed_tokens d (.arr [] :: stack) (by rw [List.length_cons]; omega)
      have hrest := feed_elemsTokens ds d.value [] stack (by omega)
      obtain ⟨t, ts, htokens, hne⟩ := tokens_cons_ne d
      rw [htokens, List.foldlM_cons, ← feed_firstElem hne, ← List.foldlM_cons, ← htokens] at hfirst
      rw [elemsTokens, elemsValue, List.drop_succ_cons, List.drop_zero, List.append_assoc, List.foldlM_append, hfirst]
      exact hrest
  | .obj ms, stack, h => by
    rw [Doc.depth] at h
    have hopen : ∀ ts : List Token, (Token.lbrace :: ts).foldlM feed (.value stack) =
        ts.foldlM feed (.firstKey stack) := by
      intro ts
      rw [List.foldlM_cons, feed, beginValue, if_pos (by omega)]
      rfl
    rw [Doc.tokens, Doc.value, hopen]
    cases ms with
    | nil => rw [membersTokens, membersValue]; rfl
    | cons m ms =>
      obtain ⟨k, d⟩ := m
      rw [membersDepth] at h
      have hfirst := feed_tokens d (.obj [] (coerce k) :: stack) (by rw [List.length_cons]; omega)
      have hrest := feed_membersTokens ms (coerce k) d.value [] stack (by omega)
      have hkey : ∀ ts : List Token, (Token.str (coerce k) :: Token.colon :: ts).foldlM feed (.firstKey stack) =
          ts.foldlM feed (.value (.obj [] (coerce k) :: stack)) := fun ts => rfl
      rw [membersTokens, membersValue, List.drop_succ_cons, List.drop_zero, List.cons_append, List.cons_append, hkey,
        List.append_assoc, List.foldlM_append, hfirst]
      exact hrest

theorem feed_elemsTokens : ∀ (ds : List Doc) (v : Value) (es : List Value) (stack : List Frame),
    stack.length + 1 + elemsDepth ds ≤ maxDepth →
    (elemsTokens ds ++ [Token.rbrack]).foldlM feed (.after v (.arr es :: stack)) =
      some (.after (.arr (es ++ v :: elemsValue ds)) stack)
  | [], v, es, stack, _ => by rw [elemsTokens, elemsValue]; rfl
  | d :: ds, v, es, stack, h => by
    rw [elemsDepth] at h
    have hfirst := feed_tokens d (.arr (es ++ [v]) :: stack) (by rw [List.length_cons]; omega)
    have hrest := feed_elemsTokens ds d.value (es ++ [v]) stack (by omega)
    have hcomma : ∀ ts : List Token, (Token.comma :: ts).foldlM feed (.after v (.arr es :: stack)) =
        ts.foldlM feed (.value (.arr (es ++ [v]) :: stack)) := fun ts => rfl
    rw [List.append_assoc] at hrest
    rw [elemsTokens, elemsValue, List.cons_append, hcomma, List.append_assoc, List.foldlM_append, hfirst]
    exact hrest

theorem feed_membersTokens : ∀ (ms : List (Bytes × Doc)) (k : Bytes) (v : Value) (vs : List (Bytes × Value))
    (stack : List Frame), stack.length + 1 + membersDepth ms ≤ maxDepth →
    (membersTokens ms ++ [Token.rbrace]).foldlM feed (.after v (.obj vs k :: stack)) =
      some (.after (.obj (vs ++ (k, v) :: membersValue ms)) stack)
  | [], k, v, vs, stack, _ => by rw [membersTokens, membersValue]; rfl
  | (k', d) :: ms, k, v, vs, stack, h => by
    rw [membersDepth] at h
    have hfirst := feed_tokens d (.obj (vs ++ [(k, v)]) (coerce k') :: stack) (by rw [List.length_cons]; omega)
    have hrest := feed_membersTokens ms (coerce k') d.value (vs ++ [(k, v)]) stack (by omega)
    have hcomma : ∀ ts : List Token,
        (Token.comma :: Token.str (coerce k') :: Token.colon :: ts).foldlM feed (.after v (.obj vs k :: stack)) =
          ts.foldlM feed (.value (.obj (vs ++ [(k, v)]) (coerce k') :: stack)) := fun ts => rfl
    rw [List.append_assoc] at hrest
    rw [membersTokens, membersValue, List.cons_append, List.cons_append, List.cons_append, hcomma, List.append_assoc,
      List.foldlM_append, hfirst]
    exact hrest

end

/-- What is marshalled is read back, with its strings coerced. -/
theorem parse_text (d : Doc) (h : d.depth ≤ maxDepth) : parse d.text = some d.value := by
  -- white space ends the text as anything else would
  have hspace : ∀ b ∈ [(0x20 : UInt8)], isSpace b = true := forall_of_all (by decide)
  have hlex : lex d.text = some d.tokens := by
    have hends : endsNumber 0x20 := by unfold endsNumber; decide
    rw [← lex_space hspace, lex_text d hends []]
    have hnil : lex [0x20] = some [] := by decide
    rw [hnil, Option.map_some, List.append_nil]
  rw [parse, hlex, Option.bind_some, feed_tokens d [] (by simpa using h)]
  rfl

end WatchBPF.Json
