/-
What decoding leaves in strings: every string literal of an accepted text has a valid UTF-8 value,
whatever bytes and escapes it is written with.
-/
import WatchBPF.Lib.Json.Struct

namespace WatchBPF.Json

open WatchBPF.Utf8 WatchBPF.Numeral

/-! ## Encoded runes -/

theorem valid_enc {r : Rune} (h : r.ok = true) : valid r.enc = true := by
  have := runes_enc_append h []
  rw [List.append_nil] at this
  simp [valid, this, h]

/-- A code point that is no surrogate is encoded well formed. -/
theorem valid_encodeRune {n : Nat} (hn : n < 0x110000) (hs : n < 0xD800 ∨ 0xE000 ≤ n) :
    valid (encodeRune n) = true := by
  unfold encodeRune
  split
  · exact valid_enc (r := .one _) (by simp only [Rune.ok, UInt8.toNat_ofNat', decide_eq_true_eq]; omega)
  · split
    · refine valid_enc (r := .two _ _) ?_
      simp only [Rune.ok, tail, inRange, UInt8.toNat_ofNat', Bool.and_eq_true, decide_eq_true_eq]
      omega
    · split
      · refine valid_enc (r := .three _ _ _) ?_
        simp only [Rune.ok, second3, tail, inRange, UInt8.toNat_ofNat', Bool.and_eq_true, Bool.or_eq_true,
          decide_eq_true_eq, beq_iff_eq, ← UInt8.toNat_inj, UInt8.reduceToNat]
        omega
      · refine valid_enc (r := .four _ _ _ _) ?_
        simp only [Rune.ok, second4, tail, inRange, UInt8.toNat_ofNat', Bool.and_eq_true, Bool.or_eq_true,
          decide_eq_true_eq, beq_iff_eq, ← UInt8.toNat_inj, UInt8.reduceToNat]
        omega

/-! ## Literals -/

theorem hexVal_lt {c : UInt8} {v : Nat} (h : hexVal c = some v) : v < 16 := by
  unfold hexVal at h
  split at h
  · rename_i hc
    simp only [isDigit, Bool.and_eq_true, decide_eq_true_eq] at hc
    cases h; omega
  · split at h
    · rename_i hc
      simp only [Bool.and_eq_true, decide_eq_true_eq] at hc
      cases h; omega
    · split at h
      · rename_i hc
        simp only [Bool.and_eq_true, decide_eq_true_eq] at hc
        cases h; omega
      · cases h

theorem getu4_lt {a b c d : UInt8} {u : Nat} (h : getu4 a b c d = some u) : u < 65536 := by
  simp only [getu4, Option.bind_eq_bind, Option.bind_eq_some_iff, Option.some.injEq] at h
  obtain ⟨a, ha, b, hb, c, hc, d, hd, rfl⟩ := h
  have := hexVal_lt ha
  have := hexVal_lt hb
  have := hexVal_lt hc
  have := hexVal_lt hd
  omega

theorem escape_ascii {c e : UInt8} (h : escape c = some e) : e.toNat < 0x80 := by
  unfold escape at h
  split at h
  · rename_i hc
    simp only [Bool.or_eq_true, beq_iff_eq] at hc
    cases h
    rcases hc with (rfl | rfl) | rfl <;> decide
  · iterate 5 (split at h; · cases h; decide)
    cases h

/-- A piece with a well-formed value. -/
def Piece.wellFormed : Piece → Prop
  | .text s => valid s = true
  | .unit u => u < 65536

theorem pieces_wellFormed : ∀ {rs : List Rune} {ps : List Piece}, (∀ r ∈ rs, r.ok = true ∨ ∃ b, r = .bad b) →
    pieces rs = some ps → ∀ p ∈ ps, p.wellFormed := by
  intro rs
  induction rs using pieces.induct with
  | case1 => intro ps _ h; rw [pieces] at h; cases h; simp
  | case2 b hb c hc h1 h2 h3 h4 rs ih =>
    intro ps hr h
    obtain rfl : b = 0x5C := by simpa using hb
    obtain rfl : c = 0x75 := by simpa using hc
    rw [pieces_unit] at h
    obtain ⟨u, hu, h⟩ := Option.bind_eq_some_iff.1 h
    obtain ⟨qs, hq, rfl⟩ := Option.map_eq_some_iff.1 h
    exact List.forall_mem_cons.2 ⟨getu4_lt hu, ih (fun r hm => hr r (by simp [hm])) hq⟩
  | case3 b hb c rs hc hno =>
    intro ps _ h
    rw [pieces.eq_def] at h
    simp [hb, hc] at h
  | case4 b hb c rs hc ih =>
    intro ps hr h
    obtain rfl : b = 0x5C := by simpa using hb
    rw [pieces_letter (by simpa using hc)] at h
    obtain ⟨e, he, h⟩ := Option.bind_eq_some_iff.1 h
    obtain ⟨qs, hq, rfl⟩ := Option.map_eq_some_iff.1 h
    have hv : valid [e] = true := valid_ascii (by simpa using escape_ascii he)
    exact List.forall_mem_cons.2 ⟨hv, ih (fun r hm => hr r (by simp [hm])) hq⟩
  | case5 b rs hb hno =>
    intro ps _ h
    rw [pieces.eq_def] at h
    simp [hb] at h
  | case6 b rs hb hlt =>
    intro ps _ h
    rw [pieces.eq_def] at h
    simp [hb, hlt] at h
  | case7 b rs hb hlt ih =>
    intro ps hr h
    rw [pieces_ascii (by omega) (by simpa using hb)] at h
    obtain ⟨qs, hq, rfl⟩ := Option.map_eq_some_iff.1 h
    have hv : valid [b] = true := by
      rcases hr (.one b) (by simp) with hok | ⟨c, hc⟩
      · exact valid_enc hok
      · cases hc
    exact List.forall_mem_cons.2 ⟨hv, ih (fun r hm => hr r (by simp [hm])) hq⟩
  | case8 r rs hone ih =>
    intro ps hr h
    rw [pieces_rune (fun b hb => hone b hb)] at h
    obtain ⟨qs, hq, rfl⟩ := Option.map_eq_some_iff.1 h
    exact List.forall_mem_cons.2 ⟨valid_enc (r.ok_coerce (hr r (by simp))), ih (fun q hm => hr q (by simp [hm])) hq⟩

theorem valid_encodeUnit {u : Nat} (hu : u < 65536) : valid (encodeUnit u) = true := by
  unfold encodeUnit
  split
  · exact valid_encodeRune (by decide) (by decide)
  · rename_i h
    simp only [isHigh, isLow, Bool.or_eq_true, Bool.and_eq_true, decide_eq_true_eq] at h
    exact valid_encodeRune (by omega) (by omega)

theorem valid_assemble : ∀ {ps : List Piece}, (∀ p ∈ ps, p.wellFormed) → valid (assemble ps) = true := by
  intro ps
  induction ps using assemble.induct with
  | case1 => intro _; rfl
  | case2 s ps ih =>
    intro h
    rw [assemble]
    exact valid_append (h (.text s) (by simp)) (ih fun p hp => h p (by simp [hp]))
  | case3 u v ps hp ih =>
    intro h
    have hu : u < 65536 := h (.unit u) (by simp)
    have hv : v < 65536 := h (.unit v) (by simp)
    rw [assemble, if_pos hp]
    simp only [isHigh, isLow, Bool.and_eq_true, decide_eq_true_eq] at hp
    exact valid_append (valid_encodeRune (by omega) (by omega)) (ih fun p hp => h p (by simp [hp]))
  | case4 u v ps hp ih =>
    intro h
    rw [assemble, if_neg hp]
    exact valid_append (valid_encodeUnit (h (.unit u) (by simp))) (ih fun p hp => h p (by simp [hp]))
  | case5 u ps hno ih =>
    intro h
    rw [assemble.eq_def]
    cases ps with
    | nil => exact valid_append (valid_encodeUnit (h (.unit u) (by simp))) (ih (by simp))
    | cons p ps =>
      cases p with
      | text s => exact valid_append (valid_encodeUnit (h (.unit u) (by simp))) (ih fun p hp => h p (by simp [hp]))
      | unit v => exact absurd rfl (hno v ps)

/-- The value of a literal is valid UTF-8. -/
theorem valid_unquote {s v : Bytes} (h : unquote s = some v) : valid v = true := by
  obtain ⟨ps, hps, rfl⟩ := Option.map_eq_some_iff.1 h
  exact valid_assemble (pieces_wellFormed (ok_or_bad s) hps)

/-! ## Tokens and values -/

/-- A token whose string is valid. -/
def TokenValid : Token → Prop
  | .str v => valid v = true
  | _ => True

theorem token_valid {b : UInt8} {s : Bytes} {p : Token × Bytes} (h : token b s = some p) :
    TokenValid p.1 := by
  unfold token at h
  split at h
  · rename_i t ht
    cases h
    unfold punct at ht
    iterate 6 (split at ht; · cases ht; trivial)
    cases ht
  · split at h
    · obtain ⟨q, -, h⟩ := Option.bind_eq_some_iff.1 h
      obtain ⟨v, hv, rfl⟩ := Option.map_eq_some_iff.1 h
      exact valid_unquote hv
    · have hk : ∀ {w t}, keyword w t s = some p → TokenValid t → TokenValid p.1 := fun hk ht => by
        unfold keyword at hk
        split at hk
        · cases hk; exact ht
        · cases hk
      unfold word at h
      iterate 3 (split at h; · exact hk h trivial)
      obtain ⟨q, -, rfl⟩ := Option.map_eq_some_iff.1 h
      trivial

theorem lex_valid {s : Bytes} {ts : List Token} (h : lex s = some ts) : ∀ t ∈ ts, TokenValid t := by
  have go : ∀ (s : Bytes) (ts : List Token), (chop next s).mapM id = some ts → ∀ t ∈ ts, TokenValid t := by
    intro s
    induction s using chop_induction next_length with
    | nil => intro ts h; cases h; simp
    | cons b s ih =>
      intro ts h
      rw [chop_cons next_length, List.mapM_cons] at h
      simp only [id_eq, Option.bind_eq_bind, Option.pure_def, Option.bind_eq_some_iff, Option.some.injEq] at h
      obtain ⟨t, ht, us, hus, rfl⟩ := h
      refine List.forall_mem_cons.2 ⟨?_, ih us hus⟩
      unfold next at ht
      split at ht
      · rename_i u r hu
        cases ht
        exact token_valid hu
      · cases ht
  exact go _ ts h

/-- A value whose own string is valid. -/
def Value.atom (v : Value) : Prop := ∀ s, v = .str s → valid s = true

/-- A value whose own string, or those of its elements, are valid. -/
def Value.shallow (v : Value) : Prop := v.atom ∧ ∀ es, v = .arr es → ∀ e ∈ es, e.atom

theorem shallow_arr {es : List Value} (h : ∀ e ∈ es, e.atom) : (Value.arr es).shallow :=
  ⟨nofun, fun _ h' => by cases h'; exact h⟩

theorem shallow_obj (ms : List (Bytes × Value)) : (Value.obj ms).shallow := ⟨nofun, nofun⟩

def Frame.shallow : Frame → Prop
  | .arr es => ∀ e ∈ es, e.atom
  | .obj _ _ => True

def State.shallow : State → Prop
  | .value st | .firstElem st | .firstKey st | .key _ st | .colon _ _ st => ∀ f ∈ st, f.shallow
  | .after v st => v.shallow ∧ ∀ f ∈ st, f.shallow

theorem beginValue_shallow {st : List Frame} {t : Token} {q : State} (hst : ∀ f ∈ st, f.shallow)
    (ht : TokenValid t) (h : beginValue st t = some q) : q.shallow := by
  cases t with
  | str s =>
    cases h
    exact ⟨⟨fun s' h' => by cases h'; exact ht, nofun⟩, hst⟩
  | null | true | false | num =>
    cases h
    exact ⟨⟨nofun, nofun⟩, hst⟩
  | lbrack | lbrace =>
    simp only [beginValue] at h
    split at h
    · cases h; exact hst
    · cases h
  | rbrace | rbrack | colon | comma => cases h

theorem endValue_shallow {v : Value} {st : List Frame} {t : Token} {q : State} (hv : v.shallow)
    (hst : ∀ f ∈ st, f.shallow) (h : endValue v st t = some q) : q.shallow := by
  unfold endValue at h
  split at h
  all_goals cases h
  · rename_i es stack
    simp only [List.forall_mem_cons] at hst
    refine List.forall_mem_cons.2 ⟨?_, hst.2⟩
    intro e he
    rcases List.mem_append.1 he with he | he
    · exact hst.1 e he
    · rw [List.mem_singleton.1 he]; exact hv.1
  · rename_i es stack
    simp only [List.forall_mem_cons] at hst
    refine ⟨shallow_arr fun e he => ?_, hst.2⟩
    rcases List.mem_append.1 he with he | he
    · exact hst.1 e he
    · rw [List.mem_singleton.1 he]; exact hv.1
  · exact fun f hf => hst f (by simp [hf])
  · exact ⟨shallow_obj _, fun f hf => hst f (by simp [hf])⟩

theorem feed_shallow {st st' : State} {t : Token} (hs : st.shallow) (ht : TokenValid t)
    (h : feed st t = some st') : st'.shallow := by
  have harr : ∀ {stack : List Frame}, (∀ f ∈ stack, f.shallow) → ∀ f ∈ Frame.arr [] :: stack, f.shallow :=
    fun hst => List.forall_mem_cons.2 ⟨by simp [Frame.shallow], hst⟩
  unfold feed at h
  split at h
  · exact beginValue_shallow hs ht h
  · cases h; exact ⟨shallow_arr (by simp), hs⟩
  · exact beginValue_shallow (harr hs) ht h
  · cases h; exact ⟨shallow_obj _, hs⟩
  · cases h; exact hs
  · cases h; exact hs
  · cases h; exact List.forall_mem_cons.2 ⟨trivial, hs⟩
  · exact endValue_shallow hs.1 hs.2 h
  · cases h

theorem parse_shallow {s : Bytes} {v : Value} (h : parse s = some v) : v.shallow := by
  obtain ⟨ts, hts, h⟩ := Option.bind_eq_some_iff.1 h
  obtain ⟨st, hst, h⟩ := Option.bind_eq_some_iff.1 h
  have go : ∀ (ts : List Token) (st st' : State), (∀ t ∈ ts, TokenValid t) → st.shallow →
      ts.foldlM feed st = some st' → st'.shallow := by
    intro ts
    induction ts with
    | nil => intro st st' _ hs h; cases h; exact hs
    | cons t ts ih =>
      intro st st' ht hs h
      rw [List.foldlM_cons] at h
      obtain ⟨mid, hmid, h⟩ := Option.bind_eq_some_iff.1 h
      exact ih mid st' (fun u hu => ht u (by simp [hu])) (feed_shallow hs (ht t (by simp)) hmid) h
  have hs := go ts _ st (lex_valid hts) (by simp [State.shallow]) hst
  unfold State.result at h
  split at h
  · cases h; exact hs.1
  · cases h

/-- The strings of a decoded slice are valid UTF-8. -/
theorem valid_unmarshalStrings {data : Bytes} {ss : List Bytes} (hd : unmarshalStrings data = some ss) :
    ∀ s ∈ ss, valid s = true := by
  obtain ⟨v, hv, h⟩ := Option.bind_eq_some_iff.1 hd
  have hsh := parse_shallow hv
  split at h
  · cases h; simp
  · rename_i vs
    have hat := hsh.2 vs rfl
    replace h : vs.mapM decodeElem = some ss := h
    clear hsh hv hd
    induction vs generalizing ss with
    | nil => cases h; simp
    | cons w ws ih =>
      rw [List.mapM_cons] at h
      simp only [Option.bind_eq_bind, Option.pure_def, Option.bind_eq_some_iff, Option.some.injEq] at h
      obtain ⟨s, hs, rest, hrest, rfl⟩ := h
      refine List.forall_mem_cons.2 ⟨?_, ih (fun e he => hat e (by simp [he])) hrest⟩
      cases w with
      | str t => cases hs; exact hat (.str s) (by simp) s rfl
      | null => cases hs; rfl
      | bool | num | arr | obj => cases hs
  · cases h

/-! ## Marshalled texts -/

theorem valid_quote (s : Bytes) : valid (quote s) = true := by
  have hrune : ∀ r ∈ runes s, valid (quoteRune r) = true := by
    intro r hr
    cases quoteShape (ok_or_bad s r hr) with
    | plain out_eq ok =>
      rw [out_eq]
      exact valid_enc ok
    | letter b c _ out_eq range =>
      rw [out_eq]
      refine valid_ascii (List.forall_mem_cons.2 ⟨by decide, List.forall_mem_singleton.2 range.2.1⟩)
    | unit u h1 h2 h3 h4 out_eq digits =>
      rw [out_eq]
      exact valid_ascii (List.forall_mem_cons.2 ⟨by decide, List.forall_mem_cons.2 ⟨by decide, fun b hb => (digits b hb).2.1⟩⟩)
  have hrunes : ∀ rs : List Rune, (∀ r ∈ rs, valid (quoteRune r) = true) → valid (rs.flatMap quoteRune) = true := by
    intro rs
    induction rs with
    | nil => exact fun _ => rfl
    | cons r rs ih =>
      intro h
      rw [List.flatMap_cons]
      exact valid_append (h r List.mem_cons_self) (ih fun q hq => h q (List.mem_cons_of_mem _ hq))
  rw [quote, valid_cons_ascii _ (by decide)]
  exact valid_append (hrunes _ hrune) (by decide)

/-- What is marshalled is valid UTF-8, whatever the strings are. -/
theorem valid_marshalObject (fs : List (Bytes × Scalar)) : valid (marshalObject fs) = true := by
  have hmember : ∀ f : Bytes × Scalar, valid (memberText f) = true := by
    rintro ⟨name, v⟩
    refine valid_append (valid_quote name) ?_
    rw [valid_cons_ascii _ (by decide)]
    cases v with
    | str s => exact valid_quote s
    | int n => exact valid_ascii (formatInt_ascii n)
  have hmembers : ∀ fs : List (Bytes × Scalar), valid ([0x2C].intercalate (fs.map memberText)) = true := by
    intro fs
    induction fs with
    | nil => rfl
    | cons f fs ih =>
      cases fs with
      | nil => simpa using hmember f
      | cons g fs =>
        rw [List.map_cons, List.map_cons, List.intercalate_cons_cons]
        exact valid_append (valid_append (hmember f) (by decide)) ih
  rw [marshalObject, valid_cons_ascii _ (by decide)]
  exact valid_append (hmembers fs) (by decide)

end WatchBPF.Json
