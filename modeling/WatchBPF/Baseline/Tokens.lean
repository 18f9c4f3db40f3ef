/-
`normalize` without the regular expression: a text is the maximal runs of its word characters and the
bytes between them, and normalising it replaces the runs of digits. Normal texts stay as they are, and
the digits of a run make no difference.
-/
import WatchBPF.Baseline.Normalize
import WatchBPF.Lib.Pieces

namespace WatchBPF.Baseline

open WatchBPF.Utf8 WatchBPF.Numeral

/-! ## The tokens of a text -/

theorem not_isWord_head_dropWhile (s : Bytes) : ∀ c ∈ (s.dropWhile isWord).head?, isWord c = false := by
  intro c hc
  have := head?_dropWhile_isWord s
  rw [Option.mem_def.1 hc] at this
  exact this

theorem pieces_tokens (s : Bytes) : Pieces isWord s (tokens s) := by
  induction s using chop_induction tokenStep_length with
  | nil => exact .nil
  | cons b s ih =>
    rw [tokens_cons]
    by_cases hb : isWord b = true
    · simp only [tokenStep, if_pos hb] at ih ⊢
      have hw : ∀ c ∈ b :: s.takeWhile isWord, isWord c = true := by
        intro c hc
        rcases List.mem_cons.1 hc with rfl | hc
        · exact hb
        · exact List.mem_takeWhile_imp hc
      have := Pieces.run (List.cons_ne_nil b _) hw (not_isWord_head_dropWhile s) ih
      rw [List.cons_append, List.takeWhile_append_dropWhile] at this
      exact this
    · simp only [tokenStep, if_neg hb] at ih ⊢
      exact .other (Bool.eq_false_iff.2 hb) ih

theorem normalize_pieces {s : Bytes} {ts : List Bytes} (h : Pieces isWord s ts) :
    normalize s = ts.flatMap replaceToken := by
  rw [h.unique (pieces_tokens s), normalize_tokens]

/-! ## Normal texts -/

theorem normalize_other {c : UInt8} (hc : isWord c = false) (s : Bytes) : normalize (c :: s) = c :: normalize s :=
  normalize_append_sep hc [] s

/-- A run of word characters is normalised on its own when no word character follows. -/
theorem normalize_word_append {w s : Bytes} (hne : w ≠ []) (hw : ∀ b ∈ w, isWord b = true)
    (hs : ∀ c ∈ s.head?, isWord c = false) : normalize (w ++ s) = replaceToken w ++ normalize s := by
  cases s with
  | nil => rw [List.append_nil, normalize_nil, List.append_nil, normalize_word hne hw]
  | cons c s =>
    have hc : isWord c = false := hs c rfl
    rw [normalize_append_sep hc, normalize_word hne hw, normalize_other hc]

/-- What is written for a run of digits is normal, and sets what follows apart. -/
theorem normalize_num_append (s : Bytes) : normalize (lit "<NUM>" ++ s) = lit "<NUM>" ++ normalize s := by
  have hnum : lit "<NUM>" ++ s = [] ++ 0x3C :: (lit "NUM" ++ 0x3E :: s) := rfl
  have hword : normalize (lit "NUM") = lit "NUM" := by
    rw [normalize_word (by decide) (forall_of_all (by decide))]; decide
  rw [hnum, normalize_append_sep (by decide), normalize_append_sep (by decide), hword]
  rfl

/-- A replaced text begins with a word character only where the text does. -/
theorem head_flatMap_replaceToken {s : Bytes} {ts : List Bytes} (h : Pieces isWord s ts)
    (hs : ∀ c ∈ s.head?, isWord c = false) : ∀ c ∈ (ts.flatMap replaceToken).head?, isWord c = false := by
  rcases h.head_other hs with rfl | ⟨a, ts, ha, rfl⟩
  · rintro c ⟨⟩
  · rw [List.flatMap_cons, replaceToken_sep ha]
    rintro c ⟨⟩
    exact ha

theorem normalize_flatMap_replaceToken {s : Bytes} {ts : List Bytes} (h : Pieces isWord s ts) :
    normalize (ts.flatMap replaceToken) = ts.flatMap replaceToken := by
  induction h with
  | nil => rfl
  | @other a s ts ha h ih =>
    rw [List.flatMap_cons, replaceToken_sep ha, List.singleton_append, normalize_other ha, ih]
  | @run t s ts hne ht hnext h ih =>
    rw [List.flatMap_cons]
    by_cases hd : t.all isDigit = true
    · rw [replaceToken, if_pos hd, normalize_num_append, ih]
    · have hkeep : replaceToken t = t := if_neg hd
      rw [hkeep, normalize_word_append hne ht (head_flatMap_replaceToken h hnext), hkeep, ih]

theorem normalize_normalize (s : Bytes) : normalize (normalize s) = normalize s := by
  rw [normalize_tokens s]
  exact normalize_flatMap_replaceToken (pieces_tokens s)

/-! ## The digits of a run -/

/-- Another run of digits in the place of one is replaced alike. -/
theorem normalize_exchange {s d d' : Bytes} {ts us : List Bytes} (h : Pieces isWord s (ts ++ d :: us))
    (hd : d.all isDigit = true) (hd' : d'.all isDigit = true) (hne : d' ≠ []) :
    normalize (ts.flatten ++ (d' ++ us.flatten)) = normalize s := by
  have hw : ∀ {d : Bytes}, d.all isDigit = true → ∀ b ∈ d, isWord b = true :=
    fun hall b hb => isWord_of_isDigit (List.all_eq_true.1 hall b hb)
  rw [normalize_pieces h, normalize_pieces (h.exchange (hw hd) (hw hd') hne)]
  simp only [List.flatMap_append, List.flatMap_cons, replaceToken, if_pos hd, if_pos hd']

/-- The scan replaces token by token, whatever way the tokens of a text are found; it leaves a normal
text alone and no digit of a run of digits shows in its result. -/
theorem normalize_eq_tokenwise (s : Bytes) :
    (∃! ts, Pieces isWord s ts) ∧
    (∀ ts, Pieces isWord s ts → normalize s = ts.flatMap replaceToken) ∧
    normalize (normalize s) = normalize s ∧
    ∀ ts d us d', Pieces isWord s (ts ++ d :: us) → d.all isDigit = true → d'.all isDigit = true → d' ≠ [] →
      normalize (ts.flatten ++ (d' ++ us.flatten)) = normalize s :=
  ⟨⟨tokens s, pieces_tokens s, fun _ h => h.unique (pieces_tokens s)⟩, fun _ h => normalize_pieces h,
    normalize_normalize s, fun _ _ _ _ h hd hd' hne => normalize_exchange h hd hd' hne⟩

end WatchBPF.Baseline
