/-
What more bytes at the end do to a JSON text. White space does nothing, and a text that is cut before
its last token is no JSON any more, for a value that has ended takes no further token.
-/
import WatchBPF.Lib.Json.Marshal

namespace WatchBPF.Json

open WatchBPF.Utf8 WatchBPF.Numeral

/-! ## Literals -/

/-- A closed literal is closed whatever follows. -/
theorem scanString_append : ∀ {s : Bytes} {p : Bytes × Bytes}, scanString s = some p → ∀ r : Bytes,
    scanString (s ++ r) = some (p.1, p.2 ++ r)
  | [], _, h, _ => by simp [scanString] at h
  | b :: s, p, h, r => by
    rw [List.cons_append]
    unfold scanString at h ⊢
    split at h
    · rename_i hb
      cases h
      rw [if_pos hb]
    · rename_i hb
      rw [if_neg hb]
      split at h
      · rename_i hesc
        rw [if_pos hesc]
        cases s with
        | nil => cases h
        | cons c s =>
          obtain ⟨q, hq, rfl⟩ := Option.map_eq_some_iff.1 h
          simp only [List.cons_append]
          rw [scanString_append hq r]
          rfl
      · rename_i hesc
        rw [if_neg hesc]
        split at h
        · cases h
        · rename_i hctl
          obtain ⟨q, hq, rfl⟩ := Option.map_eq_some_iff.1 h
          rw [if_neg hctl, scanString_append hq r]
          rfl

theorem quote_mem_of_scanString : ∀ {s : Bytes} {p : Bytes × Bytes}, scanString s = some p → 0x22 ∈ s
  | [], _, h => by simp [scanString] at h
  | b :: s, p, h => by
    unfold scanString at h
    split at h
    · rename_i hb
      rw [← beq_iff_eq.1 hb]
      exact List.mem_cons_self
    · split at h
      · cases s with
        | nil => cases h
        | cons c s =>
          obtain ⟨q, hq, rfl⟩ := Option.map_eq_some_iff.1 h
          exact List.mem_cons_of_mem _ (List.mem_cons_of_mem _ (quote_mem_of_scanString hq))
      · split at h
        · cases h
        · obtain ⟨q, hq, rfl⟩ := Option.map_eq_some_iff.1 h
          exact List.mem_cons_of_mem _ (quote_mem_of_scanString hq)

/-- An open literal is not closed by text without quotes. -/
theorem scanString_append_none : ∀ {s w : Bytes}, scanString s = none → 0x22 ∉ w → scanString (s ++ w) = none
  | [], w, _, hw => Option.eq_none_iff_forall_not_mem.2 fun _ hp => hw (quote_mem_of_scanString hp)
  | b :: s, w, h, hw => by
    rw [List.cons_append]
    unfold scanString at h ⊢
    split at h
    · cases h
    · rename_i hb
      rw [if_neg hb]
      split at h
      · rename_i hesc
        rw [if_pos hesc]
        cases s with
        | nil =>
          -- the escape takes a byte of what follows
          cases w with
          | nil => rfl
          | cons c w =>
            have hw' : 0x22 ∉ w := fun hmem => hw (List.mem_cons_of_mem _ hmem)
            exact Option.map_eq_none_iff.2 (scanString_append_none (s := []) (by simp [scanString]) hw')
        | cons c s => exact Option.map_eq_none_iff.2 (scanString_append_none (Option.map_eq_none_iff.1 h) hw)
      · rename_i hesc
        rw [if_neg hesc]
        split at h
        · rename_i hctl
          rw [if_pos hctl]
        · rename_i hctl
          rw [if_neg hctl]
          exact Option.map_eq_none_iff.2 (scanString_append_none (Option.map_eq_none_iff.1 h) hw)

/-! ## Exponents -/

theorem scanExp_signed {e c : UInt8} (he : e = 0x65 ∨ e = 0x45) (hc : c = 0x2B ∨ c = 0x2D) (s : Bytes) :
    scanExp (e :: c :: s) = (scanDigits s).map fun p => ([e, c] ++ p.1, p.2) := by
  rcases he with rfl | rfl <;> rcases hc with rfl | rfl <;> rfl

theorem scanExp_unsigned {e : UInt8} (he : e = 0x65 ∨ e = 0x45) {s : Bytes}
    (hs : ∀ c ∈ s.head?, c ≠ 0x2B ∧ c ≠ 0x2D) :
    scanExp (e :: s) = (scanDigits s).map fun p => ([e] ++ p.1, p.2) := by
  have hexp : (e == 0x65 || e == 0x45) = true := by rcases he with rfl | rfl <;> rfl
  rw [scanExp.eq_def]
  simp only [hexp, if_true]
  split
  · exact absurd rfl (hs _ rfl).1
  · exact absurd rfl (hs _ rfl).2
  · rfl

/-! ## White space at the end -/

/-- Something that is no token ends the scan. -/
theorem lex_cons_none {b : UInt8} {s : Bytes} (hb : isSpace b = false) (h : token b s = none) :
    lex (b :: s) = none := by
  have hs : skipSpace (b :: s) = b :: s := List.dropWhile_cons_of_neg (by simp [hb])
  have hn : next b s = (none, []) := by simp [next, h]
  rw [lex, hs, chop_cons next_length, hn, List.mapM_cons]
  rfl

/-- What is left over takes the text that was appended. -/
def leftover {α : Type} (w : Bytes) (p : α × Bytes) : α × Bytes := (p.1, p.2 ++ w)

section Space

variable {w : Bytes} (hw : ∀ b ∈ w, isSpace b = true)
include hw

/-- White space has none of the bytes that a scanner looks for. -/
theorem ne_of_space {b c : UInt8} (hb : b ∈ w) (hc : isSpace c = false) : b ≠ c := by
  rintro rfl
  rw [hw b hb] at hc
  cases hc

theorem quote_not_mem_space : (0x22 : UInt8) ∉ w := fun hmem => ne_of_space hw hmem (by decide) rfl

theorem isDigit_space : ∀ b ∈ w, isDigit b = false := by
  intro b hb
  have := hw b hb
  simp only [isSpace, Bool.or_eq_true, beq_iff_eq] at this
  rcases this with ((rfl | rfl) | rfl) | rfl <;> rfl

theorem scanString_space (s : Bytes) : scanString (s ++ w) = (scanString s).map (leftover w) := by
  cases h : scanString s with
  | none => exact scanString_append_none h (quote_not_mem_space hw)
  | some p => exact scanString_append h w

theorem scanDigits_space (s : Bytes) : scanDigits (s ++ w) = (scanDigits s).map (leftover w) := by
  rw [scanDigits, scanDigits, takeWhile_append_none s (isDigit_space hw), dropWhile_append_none s (isDigit_space hw)]
  split <;> rfl

theorem scanInt_space (s : Bytes) : scanInt (s ++ w) = (scanInt s).map (leftover w) := by
  cases s with
  | nil =>
    have hnil : scanInt ([] : Bytes) = none := rfl
    have hdig := scanDigits_space hw []
    rw [List.nil_append] at hdig ⊢
    rw [hnil]
    unfold scanInt
    split
    · exact absurd rfl (ne_of_space hw List.mem_cons_self (by decide))
    · exact hdig
  | cons b s =>
    by_cases hb : b = 0x30
    · subst hb
      rfl
    · rw [List.cons_append, scanInt_cons hb, scanInt_cons hb, ← List.cons_append, scanDigits_space hw]

theorem scanFrac_space (s : Bytes) : scanFrac (s ++ w) = (scanFrac s).map (leftover w) := by
  cases s with
  | nil =>
    rw [List.nil_append]
    unfold scanFrac
    split
    · exact absurd rfl (ne_of_space hw List.mem_cons_self (by decide))
    · rfl
  | cons b s =>
    by_cases hb : b = 0x2E
    · subst hb
      show (scanDigits (s ++ w)).map _ = ((scanDigits s).map _).map _
      rw [scanDigits_space hw, Option.map_map, Option.map_map]
      rfl
    · rw [List.cons_append, scanFrac_cons hb, scanFrac_cons hb]
      rfl

theorem scanExp_space (s : Bytes) : scanExp (s ++ w) = (scanExp s).map (leftover w) := by
  have hdigits : ∀ (pre s : Bytes), (scanDigits (s ++ w)).map (fun p => (pre ++ p.1, p.2)) =
      ((scanDigits s).map fun p => (pre ++ p.1, p.2)).map (leftover w) := fun pre s => by
    rw [scanDigits_space hw, Option.map_map, Option.map_map]
    rfl
  cases s with
  | nil =>
    cases w with
    | nil => rfl
    | cons c w =>
      have hne : ∀ {d : UInt8}, isSpace d = false → c ≠ d := fun hd => ne_of_space hw List.mem_cons_self hd
      exact scanExp_cons (hne (by decide)) (hne (by decide)) w
  | cons e s =>
    rw [List.cons_append]
    by_cases he : e = 0x65 ∨ e = 0x45
    · by_cases hsign : ∃ c s', s = c :: s' ∧ (c = 0x2B ∨ c = 0x2D)
      · obtain ⟨c, s, rfl, hc⟩ := hsign
        rw [List.cons_append, scanExp_signed he hc, scanExp_signed he hc, hdigits]
      · have hs : ∀ c ∈ s.head?, c ≠ 0x2B ∧ c ≠ 0x2D := by
          intro c hc
          obtain ⟨s, rfl⟩ := List.head?_eq_some_iff.1 hc
          exact ⟨fun h => hsign ⟨c, s, rfl, .inl h⟩, fun h => hsign ⟨c, s, rfl, .inr h⟩⟩
        have hsw : ∀ c ∈ (s ++ w).head?, c ≠ 0x2B ∧ c ≠ 0x2D := by
          intro c hc
          cases s with
          | nil =>
            have hmem := List.mem_of_mem_head? hc
            exact ⟨ne_of_space hw hmem (by decide), ne_of_space hw hmem (by decide)⟩
          | cons d s => exact hs c hc
        rw [scanExp_unsigned he hs, scanExp_unsigned he hsw, hdigits]
    · rw [not_or] at he
      rw [scanExp_cons he.1 he.2, scanExp_cons he.1 he.2]
      rfl

theorem scanUnsigned_space (s : Bytes) : scanUnsigned (s ++ w) = (scanUnsigned s).map (leftover w) := by
  unfold scanUnsigned
  rw [scanInt_space hw]
  cases scanInt s with
  | none => rfl
  | some p =>
    simp only [Option.map_some, Option.bind_eq_bind, Option.bind_some, leftover]
    rw [scanFrac_space hw]
    cases scanFrac p.2 with
    | none => rfl
    | some q =>
      simp only [Option.map_some, Option.bind_some, leftover]
      rw [scanExp_space hw]
      cases scanExp q.2 <;> rfl

theorem scanNumber_space {b : UInt8} (s : Bytes) :
    scanNumber (b :: s ++ w) = (scanNumber (b :: s)).map (leftover w) := by
  by_cases hb : b = 0x2D
  · subst hb
    show (scanUnsigned (s ++ w)).map _ = ((scanUnsigned s).map _).map _
    rw [scanUnsigned_space hw, Option.map_map, Option.map_map]
    rfl
  · rw [List.cons_append, scanNumber_cons hb, scanNumber_cons hb, ← List.cons_append, scanUnsigned_space hw]

theorem keyword_space {k : Bytes} (hk : ∀ b ∈ k, isSpace b = false) (t : Token) (s : Bytes) :
    keyword k t (s ++ w) = (keyword k t s).map (leftover w) := by
  have hiff : k <+: s ++ w ↔ k <+: s := by
    constructor
    · intro h
      rcases List.prefix_or_prefix_of_prefix h (List.prefix_append s w) with h' | ⟨r, rfl⟩
      · exact h'
      · have hrw : r <+: w := (List.prefix_append_right_inj s).1 h
        cases r with
        | nil => rw [List.append_nil]
        | cons b r => exact absurd rfl (ne_of_space hw (hrw.subset List.mem_cons_self) (hk b (by simp)))
    · exact fun h => h.trans (List.prefix_append s w)
  unfold keyword
  by_cases h : k <+: s
  · rw [if_pos (List.isPrefixOf_iff_prefix.2 (hiff.2 h)), if_pos (List.isPrefixOf_iff_prefix.2 h),
      List.drop_append_of_le_length h.length_le]
    rfl
  · rw [if_neg fun h' => h (hiff.1 (List.isPrefixOf_iff_prefix.1 h')),
      if_neg fun h' => h (List.isPrefixOf_iff_prefix.1 h')]
    rfl

theorem word_space (b : UInt8) (s : Bytes) : word b (s ++ w) = (word b s).map (leftover w) := by
  unfold word
  split
  · exact keyword_space hw (forall_of_all (by decide)) _ s
  · split
    · exact keyword_space hw (forall_of_all (by decide)) _ s
    · split
      · exact keyword_space hw (forall_of_all (by decide)) _ s
      · rw [← List.cons_append, scanNumber_space hw, Option.map_map, Option.map_map]
        rfl

theorem token_space (b : UInt8) (s : Bytes) : token b (s ++ w) = (token b s).map (leftover w) := by
  unfold token
  cases punct b with
  | some t => rfl
  | none =>
    simp only
    split
    · rw [scanString_space hw]
      cases scanString s with
      | none => rfl
      | some p =>
        simp only [Option.map_some, Option.bind_some, leftover]
        cases unquote p.1 <;> rfl
    · exact word_space hw b s

/-- White space at the end of a text is ignored. -/
theorem lex_space (s : Bytes) : lex (s ++ w) = lex s := by
  induction hn : s.length using Nat.strong_induction_on generalizing s with
  | _ n ih =>
    cases s with
    | nil =>
      have := lex_append_space hw []
      rw [List.append_nil] at this
      exact this
    | cons b s =>
      rw [List.length_cons] at hn
      rw [List.cons_append]
      by_cases hb : isSpace b = true
      · have hskip : ∀ s, lex (b :: s) = lex s := fun s => lex_append_space (w := [b]) (by simpa using hb) s
        rw [hskip, hskip, ih s.length (by omega) s rfl]
      · have hb' : isSpace b = false := Bool.eq_false_iff.2 hb
        have htoken := token_space hw b s
        cases h : token b s with
        | none =>
          rw [h] at htoken
          rw [lex_cons_none hb' htoken, lex_cons_none hb' h]
        | some p =>
          obtain ⟨t, r⟩ := p
          rw [h] at htoken
          have hlen := token_length h
          rw [lex_cons hb' htoken, lex_cons hb' h]
          show (lex (r ++ w)).map _ = _
          rw [ih r.length (by simp only at hlen; omega) r rfl]

theorem parse_space (s : Bytes) : parse (s ++ w) = parse s := by rw [parse, lex_space hw, parse]

end Space

theorem parse_space_append {w : Bytes} (hw : ∀ b ∈ w, isSpace b = true) (s : Bytes) : parse (w ++ s) = parse s := by
  rw [parse, lex_append_space hw, parse]

/-! ## Texts that are cut -/

/-- A proper prefix of the text has no tokens, or not all of these. -/
def Cuts (s : Bytes) (ts : List Token) : Prop :=
  ∀ p r, s = p ++ r → r ≠ [] → ∀ us, lex p = some us → ∃ t rest, ts = us ++ t :: rest

theorem cuts_nil : Cuts [] [] := by
  intro p r h hr
  exact absurd (List.append_eq_nil_iff.1 h.symm).2 hr

theorem cuts_punct {b : UInt8} {t : Token} {s : Bytes} {ts : List Token} (hb : isSpace b = false)
    (ht : punct b = some t) (h : Cuts s ts) : Cuts (b :: s) (t :: ts) := by
  intro p r hp hr us hus
  cases p with
  | nil =>
    cases hus
    exact ⟨t, ts, rfl⟩
  | cons c p =>
    obtain ⟨rfl, rfl⟩ := List.cons.inj hp
    rw [lex_punct hb ht] at hus
    obtain ⟨us', hus', rfl⟩ := Option.map_eq_some_iff.1 hus
    obtain ⟨u, rest, rfl⟩ := h p r rfl hr us' hus'
    exact ⟨u, rest, rfl⟩

theorem cuts_space {w s : Bytes} {t : Token} {ts : List Token} (hw : ∀ b ∈ w, isSpace b = true)
    (h : Cuts s (t :: ts)) : Cuts (w ++ s) (t :: ts) := by
  intro p r hp hr us hus
  rcases List.append_eq_append_iff.1 hp with ⟨q, rfl, hs⟩ | ⟨q, rfl, -⟩
  · rw [lex_append_space hw] at hus
    exact h q r hs hr us hus
  · have hnil := lex_append_space (fun b hb => hw b (List.mem_append_left q hb)) []
    rw [List.append_nil, hus] at hnil
    cases hnil
    exact ⟨t, ts, rfl⟩

/-- An open literal is no token. -/
theorem lex_open {q r : Bytes} {v : Bytes} (h : scanString (q ++ r) = some (v, [])) (hr : r ≠ []) :
    lex (0x22 :: q) = none := by
  refine lex_cons_none (by decide) ?_
  have hnone : scanString q = none := by
    cases hq : scanString q with
    | none => rfl
    | some p =>
      rw [scanString_append hq r, Option.some.injEq, Prod.mk.injEq] at h
      exact absurd (List.append_eq_nil_iff.1 h.2).2 hr
  have hp : punct 0x22 = none := by decide
  simp [token, hp, hnone]

theorem cuts_quote {s : Bytes} {ts : List Token} (v : Bytes) (h : Cuts s ts) :
    Cuts (quote v ++ s) (.str (coerce v) :: ts) := by
  intro p r hp hr us hus
  have behind : ∀ q, p = quote v ++ q → s = q ++ r → ∃ t rest, Token.str (coerce v) :: ts = us ++ t :: rest := by
    rintro q rfl hs
    rw [lex_quote] at hus
    obtain ⟨us', hus', rfl⟩ := Option.map_eq_some_iff.1 hus
    obtain ⟨u, rest, rfl⟩ := h q r hs hr us' hus'
    exact ⟨u, rest, rfl⟩
  rcases List.append_eq_append_iff.1 hp with ⟨q, hpq, hs⟩ | ⟨q, hq, hrq⟩
  · exact behind q hpq hs
  · by_cases hne : q = []
    · subst hne
      rw [List.append_nil] at hq
      exact behind [] (by rw [hq, List.append_nil]) hrq.symm
    · cases p with
      | nil =>
        cases hus
        exact ⟨_, ts, rfl⟩
      | cons b p =>
        obtain ⟨rfl, hbody⟩ := List.cons.inj hq
        have hopen := lex_open (hbody ▸ scanString_quoted v []) hne
        rw [hus] at hopen
        cases hopen

theorem cuts_marshalStrings (ss : List Bytes) :
    Cuts (marshalStrings ss)
      (.lbrack :: ([Token.comma].intercalate (ss.map fun s => [.str (coerce s)]) ++ [.rbrack])) := by
  have hcomma : lit ",\n  " = 0x2C :: [0x0A, 0x20, 0x20] := by decide
  have hopen : lit "[\n  " = 0x5B :: [0x0A, 0x20, 0x20] := by decide
  have hclose : lit "\n]" = [0x0A] ++ [0x5D] := by decide
  have hend : Cuts (0x5D :: []) [.rbrack] := cuts_punct (by decide) (by decide) cuts_nil
  have hspace : ∀ {w s : Bytes} {t : Token} {ts : List Token}, (w.all fun b => isSpace b) = true →
      Cuts s (t :: ts) → Cuts (w ++ s) (t :: ts) := fun hw h => cuts_space (List.all_eq_true.1 hw) h
  -- the tokens behind an opening bracket or a comma begin with a string
  have go : ∀ (s : Bytes) (ss : List Bytes), Cuts ((lit ",\n  ").intercalate ((s :: ss).map quote) ++ lit "\n]")
      (.str (coerce s) :: ((ss.flatMap fun s => [.comma, .str (coerce s)]) ++ [.rbrack])) := by
    intro s ss
    induction ss generalizing s with
    | nil =>
      simp only [List.map_cons, List.map_nil, List.intercalate_singleton, hclose]
      exact cuts_quote s (hspace (by decide) hend)
    | cons s' ss ih =>
      simp only [List.map_cons, List.intercalate_cons_cons, List.append_assoc] at ih ⊢
      conv => arg 1; rw [hcomma]
      refine cuts_quote s ?_
      rw [List.cons_append]
      exact cuts_punct (by decide) (by decide) (hspace (by decide) (hcomma ▸ ih s'))
  have htokens : ∀ (s : Bytes) (ss : List Bytes),
      [Token.comma].intercalate ((s :: ss).map fun s => [.str (coerce s)]) =
        .str (coerce s) :: ss.flatMap fun s => [.comma, .str (coerce s)] := by
    intro s ss
    induction ss generalizing s with
    | nil => rfl
    | cons s' ss ih =>
      simp only [List.map_cons, List.intercalate_cons_cons] at ih ⊢
      rw [ih s']
      rfl
  unfold marshalStrings
  cases ss with
  | nil => exact cuts_punct (by decide) (by decide) hend
  | cons s ss =>
    rw [if_neg (by simp), hopen, List.cons_append, htokens]
    exact cuts_punct (by decide) (by decide) (hspace (by decide) (go s ss))

/-- A run that has come to a value takes no further token. -/
theorem parse_cut {s : Bytes} {ts : List Token} {st : State} (h : Cuts s ts)
    (hfeed : ts.foldlM feed (.value []) = some st) {p r : Bytes} (hs : s = p ++ r) (hr : r ≠ []) :
    parse p = none := by
  unfold parse
  cases hlex : lex p with
  | none => rfl
  | some us =>
    obtain ⟨t, rest, rfl⟩ := h p r hs hr us hlex
    rw [List.foldlM_append] at hfeed
    obtain ⟨mid, hmid, hrest⟩ := Option.bind_eq_some_iff.1 hfeed
    rw [Option.bind_some, hmid, Option.bind_some]
    cases hres : mid.result with
    | none => rfl
    | some v =>
      unfold State.result at hres
      split at hres
      · cases hrest
      · cases hres

/-- No proper prefix of a marshalled slice of strings decodes. -/
theorem parse_marshalStrings_cut {ss : List Bytes} {p r : Bytes} (hs : marshalStrings ss = p ++ r) (hr : r ≠ []) :
    parse p = none := by
  have hparse := parse_marshalStrings ss
  rw [parse, lex_marshalStrings, Option.bind_some] at hparse
  obtain ⟨st, hst, -⟩ := Option.bind_eq_some_iff.1 hparse
  exact parse_cut (cuts_marshalStrings ss) hst hs hr

end WatchBPF.Json
