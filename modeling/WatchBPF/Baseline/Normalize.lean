/-
`normalize`: the leftmost, greedy, backtracking replacement of `\b\d+\b`, and the same function token
by token: the maximal runs of word characters that are all digits become `<NUM>`.
-/
import WatchBPF.Lib.Utf8
import WatchBPF.Lib.Numeral
import Mathlib.Data.List.TakeWhile

namespace WatchBPF.Baseline

open WatchBPF.Utf8 WatchBPF.Numeral

/-! ## The regular expression -/

/-- An ASCII word character, as `\b` knows them. -/
def isWord (b : UInt8) : Bool :=
  isDigit b || (65 ≤ b.toNat && b.toNat ≤ 90) || (97 ≤ b.toNat && b.toNat ≤ 122) || b == 0x5F

def wordAt (b : Option UInt8) : Bool := b.any isWord

/-- `\b` between two bytes; none is the edge of the text. -/
def boundary (a b : Option UInt8) : Bool := wordAt a != wordAt b

/-- The longest of the first `n` lengths after which there is a boundary. -/
def backtrack (s : Bytes) : Nat → Option Nat
  | 0 => none
  | n + 1 => if boundary s[n]? s[n + 1]? then some (n + 1) else backtrack s n

/-- The length of a match at the front of `s`, the byte before being `prev`. -/
def matchAt (prev : Option UInt8) (s : Bytes) : Option Nat :=
  if boundary prev s.head? then backtrack s (s.takeWhile isDigit).length else none

/-- `ReplaceAllString`: `skip` bytes of the last match are still to be passed. -/
def replaceFrom (prev : Option UInt8) : Nat → Bytes → Bytes
  | _, [] => []
  | skip + 1, b :: s => replaceFrom (some b) skip s
  | 0, b :: s =>
    match matchAt prev (b :: s) with
    | some n => lit "<NUM>" ++ replaceFrom (some b) (n - 1) s
    | none => b :: replaceFrom (some b) 0 s

/-- `numericPattern.ReplaceAllString(s, "<NUM>")` -/
def normalize (s : Bytes) : Bytes := replaceFrom none 0 s

/-! ## Matches -/

theorem isWord_of_isDigit {b : UInt8} (h : isDigit b = true) : isWord b = true := by simp [isWord, h]

/-- Between two digits there is no boundary. -/
theorem backtrack_digits {s : Bytes} : ∀ {n : Nat}, (∀ i ≤ n, (s[i]?).any isDigit = true) → backtrack s n = none
  | 0, _ => rfl
  | n + 1, h => by
    have hw : ∀ i ≤ n + 1, wordAt s[i]? = true := fun i hi => by
      obtain ⟨b, hb, hd⟩ := Option.any_eq_true _ _ |>.1 (h i hi)
      rw [hb]; exact isWord_of_isDigit hd
    rw [backtrack, boundary, hw n (by omega), hw (n + 1) le_rfl, if_neg (by simp),
      backtrack_digits fun i hi => h i (by omega)]

/-- Only the whole run of digits can match, and only between boundaries. -/
theorem matchAt_eq (prev : Option UInt8) (s : Bytes) :
    matchAt prev s = if wordAt prev = false ∧ s.takeWhile isDigit ≠ [] ∧ wordAt (s.dropWhile isDigit).head? = false
      then some (s.takeWhile isDigit).length else none := by
  have hsplit := List.takeWhile_append_dropWhile (p := isDigit) (l := s)
  generalize hd : s.takeWhile isDigit = d at hsplit
  generalize s.dropWhile isDigit = r at hsplit
  have hdig : ∀ b ∈ d, isDigit b = true := fun b hb => by
    rw [← hd] at hb; exact List.mem_takeWhile_imp hb
  rw [matchAt, hd, ← hsplit]
  rcases List.eq_nil_or_concat d with rfl | ⟨init, c, rfl⟩
  · simp [backtrack]
  · rw [List.concat_eq_append] at hdig ⊢
    have hhead : wordAt (init ++ [c] ++ r).head? = true := by
      cases init with
      | nil => exact isWord_of_isDigit (hdig c (by simp))
      | cons b init => exact isWord_of_isDigit (hdig b (by simp))
    have hlast : (init ++ [c] ++ r)[init.length]? = some c := by simp
    have hnext : (init ++ [c] ++ r)[init.length + 1]? = r.head? := by
      rw [List.getElem?_append_right (by simp), List.head?_eq_getElem?]; simp
    have hnone : backtrack (init ++ [c] ++ r) init.length = none := backtrack_digits fun i hi => by
      have hlt : i < (init ++ [c]).length := by simp; omega
      rw [List.getElem?_append_left hlt, List.getElem?_eq_getElem hlt]
      exact hdig _ (List.getElem_mem hlt)
    have hc : wordAt (some c) = true := isWord_of_isDigit (hdig c (by simp))
    rw [List.length_append, List.length_singleton, backtrack, hlast, hnext, hnone]
    simp only [boundary, hhead, hc]
    cases wordAt prev <;> cases wordAt r.head? <;> simp

theorem matchAt_word {prev : Option UInt8} (h : wordAt prev = true) (s : Bytes) : matchAt prev s = none := by
  rw [matchAt_eq, if_neg (by simp [h])]

theorem matchAt_nonword (prev : Option UInt8) {b : UInt8} (h : isWord b = false) (s : Bytes) :
    matchAt prev (b :: s) = none := by
  have hd : isDigit b = false := by
    cases hb : isDigit b with
    | false => rfl
    | true => rw [isWord_of_isDigit hb] at h; exact absurd h (by decide)
  rw [matchAt_eq, if_neg (by simp [hd])]

/-- What a match covers are digits. -/
theorem matchAt_digits {prev : Option UInt8} {s : Bytes} {n : Nat} (h : matchAt prev s = some n) :
    0 < n ∧ ∀ b ∈ s.take n, isDigit b = true := by
  rw [matchAt_eq] at h
  split at h
  · rename_i hc
    cases h
    refine ⟨List.length_pos_of_ne_nil hc.2.1, fun b hb => ?_⟩
    have htake : s.take (s.takeWhile isDigit).length = s.takeWhile isDigit := by
      conv_lhs => arg 2; rw [← List.takeWhile_append_dropWhile (p := isDigit) (l := s)]
      exact List.take_left
    rw [htake] at hb
    exact List.mem_takeWhile_imp hb
  · cases h

/-! ## Token by token -/

/-- One token off the front: a maximal run of word characters, or one other byte. -/
def tokenStep (b : UInt8) (s : Bytes) : Bytes × Bytes :=
  if isWord b then (b :: s.takeWhile isWord, s.dropWhile isWord) else ([b], s)

def tokens (s : Bytes) : List Bytes := chop tokenStep s

def replaceToken (t : Bytes) : Bytes := if t.all isDigit then lit "<NUM>" else t

theorem tokenStep_length (b : UInt8) (s : Bytes) : (tokenStep b s).2.length ≤ s.length := by
  unfold tokenStep
  split
  · exact (List.dropWhile_sublist _).length_le
  · exact le_rfl

theorem tokens_cons (b : UInt8) (s : Bytes) : tokens (b :: s) = (tokenStep b s).1 :: tokens (tokenStep b s).2 :=
  chop_cons tokenStep_length b s

theorem replaceFrom_skip : ∀ (w : Bytes) (prev : Option UInt8) (rest : Bytes),
    replaceFrom prev w.length (w ++ rest) = replaceFrom (w.getLast?.or prev) 0 rest
  | [], _, _ => rfl
  | b :: w, prev, rest => by
    rw [List.length_cons, List.cons_append, replaceFrom, replaceFrom_skip w]
    cases w <;> simp [List.getLast?_cons]

theorem replaceFrom_word : ∀ {w : Bytes} {prev : Option UInt8}, wordAt prev = true →
    (∀ b ∈ w, isWord b = true) → ∀ rest : Bytes,
    ∃ prev', replaceFrom prev 0 (w ++ rest) = w ++ replaceFrom prev' 0 rest
  | [], prev, _, _, _ => ⟨prev, rfl⟩
  | b :: w, prev, hp, hw, rest => by
    obtain ⟨prev', h⟩ := @replaceFrom_word w (some b) (hw b (by simp))
      (fun c hc => hw c (by simp [hc])) rest
    exact ⟨prev', by rw [List.cons_append, replaceFrom, matchAt_word hp, h, List.cons_append]⟩

theorem head?_dropWhile_isWord (s : Bytes) : wordAt (s.dropWhile isWord).head? = false := by
  cases h : s.dropWhile isWord with
  | nil => rfl
  | cons b r =>
    have := List.head?_dropWhile_not isWord s
    rw [h] at this
    simpa [wordAt] using this

/-- The regular expression replaces token by token. -/
theorem replaceFrom_eq_tokens (s : Bytes) : ∀ prev : Option UInt8, (wordAt prev = false ∨ wordAt s.head? = false) →
    replaceFrom prev 0 s = (tokens s).flatMap replaceToken := by
  induction s using chop_induction tokenStep_length with
  | nil => intros; rfl
  | cons b s ih =>
    intro prev hprev
    rw [tokens_cons, List.flatMap_cons]
    by_cases hb : isWord b = true
    · have hp : wordAt prev = false := hprev.resolve_right (by simp [wordAt, hb])
      simp only [tokenStep, hb, if_true] at ih ⊢
      have hrest : ∀ prev', replaceFrom prev' 0 (s.dropWhile isWord) =
          (tokens (s.dropWhile isWord)).flatMap replaceToken :=
        fun prev' => ih prev' (.inr (head?_dropWhile_isWord s))
      have hs := List.takeWhile_append_dropWhile (p := isWord) (l := s)
      have hword : ∀ c ∈ s.takeWhile isWord, isWord c = true := fun c hc => List.mem_takeWhile_imp hc
      have hhead := head?_dropWhile_isWord s
      generalize s.takeWhile isWord = w at hs hword
      generalize s.dropWhile isWord = rest at hs hrest hhead
      subst hs
      by_cases hall : (b :: w).all isDigit = true
      · -- the run is the match
        have hnd : rest.takeWhile isDigit = [] ∧ rest.dropWhile isDigit = rest := by
          cases rest with
          | nil => exact ⟨rfl, rfl⟩
          | cons c rest =>
            have hc : ¬ isDigit c = true := fun h => by
              simp [wordAt, isWord_of_isDigit h] at hhead
            exact ⟨List.takeWhile_cons_of_neg hc, List.dropWhile_cons_of_neg hc⟩
        have htw : (b :: (w ++ rest)).takeWhile isDigit = b :: w := by
          rw [← List.cons_append, List.takeWhile_append_of_pos (List.all_eq_true.1 hall), hnd.1, List.append_nil]
        have hdw : (b :: (w ++ rest)).dropWhile isDigit = rest := by
          rw [← List.cons_append, List.dropWhile_append_of_pos (List.all_eq_true.1 hall), hnd.2]
        have hm : matchAt prev (b :: (w ++ rest)) = some (w.length + 1) := by
          rw [matchAt_eq, htw, hdw, if_pos ⟨hp, by simp, hhead⟩]; rfl
        rw [replaceFrom, hm]
        show lit "<NUM>" ++ replaceFrom (some b) w.length (w ++ rest) = _
        rw [replaceFrom_skip, hrest, replaceToken, if_pos hall]
      · have hm : matchAt prev (b :: (w ++ rest)) = none := by
          rw [matchAt_eq, if_neg]
          rintro ⟨-, -, h⟩
          -- the digits at the front of the run end before it does
          refine hall (List.all_eq_true.2 ?_)
          by_contra hex
          have : ∃ c r, (b :: w).dropWhile isDigit = c :: r := by
            cases hd : (b :: w).dropWhile isDigit with
            | nil => exact absurd (List.dropWhile_eq_nil_iff.1 hd) hex
            | cons c r => exact ⟨c, r, rfl⟩
          obtain ⟨c, r, hc⟩ := this
          have hmem : c ∈ b :: w := (List.dropWhile_sublist isDigit).subset (hc ▸ List.mem_cons_self)
          have hcw : isWord c = true := by
            rcases List.mem_cons.1 hmem with rfl | hm
            · exact hb
            · exact hword c hm
          rw [← List.cons_append, List.dropWhile_append, hc] at h
          simp [wordAt, hcw] at h
        obtain ⟨prev', hr⟩ := @replaceFrom_word w (some b) hb hword rest
        rw [replaceFrom, hm]
        show b :: replaceFrom (some b) 0 (w ++ rest) = _
        rw [hr, hrest, replaceToken, if_neg hall, List.cons_append]
    · have hb' : isWord b = false := by simpa using hb
      simp only [tokenStep, hb, if_false, Bool.false_eq_true] at ih ⊢
      have hd : isDigit b = false := by
        cases h : isDigit b with
        | false => rfl
        | true => exact absurd (isWord_of_isDigit h) hb
      rw [replaceFrom, matchAt_nonword prev hb']
      show b :: replaceFrom (some b) 0 s = _
      rw [ih (some b) (.inl hb'), replaceToken]
      simp [hd]

theorem normalize_tokens (s : Bytes) : normalize s = (tokens s).flatMap replaceToken :=
  replaceFrom_eq_tokens s none (.inl rfl)

/-! ## Texts joined at other characters -/

theorem tokens_append_sep {sep : UInt8} (hsep : isWord sep = false) (s t : Bytes) :
    tokens (s ++ sep :: t) = tokens s ++ [sep] :: tokens t := by
  induction s using chop_induction tokenStep_length with
  | nil => rw [List.nil_append, tokens_cons]; simp [tokenStep, hsep, tokens]
  | cons b s ih =>
    rw [List.cons_append, tokens_cons, tokens_cons]
    by_cases hb : isWord b = true
    · simp only [tokenStep, hb, if_true] at ih ⊢
      have htw : (s ++ sep :: t).takeWhile isWord = s.takeWhile isWord := by
        rw [List.takeWhile_append]
        split
        · rename_i h
          rw [List.takeWhile_cons_of_neg (by simp [hsep]), List.append_nil]
          exact ((List.takeWhile_sublist isWord).eq_of_length h).symm
        · rfl
      have hdw : (s ++ sep :: t).dropWhile isWord = s.dropWhile isWord ++ sep :: t := by
        rw [List.dropWhile_append]
        split
        · rename_i h
          rw [List.dropWhile_cons_of_neg (by simp [hsep]), List.isEmpty_iff.1 h, List.nil_append]
        · rfl
      rw [htw, hdw, ih, List.cons_append]
    · simp only [tokenStep, hb, if_false, Bool.false_eq_true] at ih ⊢
      rw [ih, List.cons_append]

theorem replaceToken_sep {sep : UInt8} (hsep : isWord sep = false) : replaceToken [sep] = [sep] := by
  have : isDigit sep = false := by
    cases h : isDigit sep with
    | false => rfl
    | true => rw [isWord_of_isDigit h] at hsep; exact absurd hsep (by decide)
  simp [replaceToken, this]

/-- Text on either side of a character that is no word character is normalised on its own. -/
theorem normalize_append_sep {sep : UInt8} (hsep : isWord sep = false) (s t : Bytes) :
    normalize (s ++ sep :: t) = normalize s ++ sep :: normalize t := by
  rw [normalize_tokens, tokens_append_sep hsep, List.flatMap_append, List.flatMap_cons, replaceToken_sep hsep,
    normalize_tokens, normalize_tokens]
  rfl

@[simp] theorem normalize_nil : normalize [] = [] := rfl

theorem normalize_intercalate {sep : UInt8} (hsep : isWord sep = false) : ∀ ss : List Bytes,
    normalize ([sep].intercalate ss) = [sep].intercalate (ss.map normalize)
  | [] => rfl
  | [s] => by simp
  | s :: t :: ss => by
    have ih := normalize_intercalate hsep (t :: ss)
    simp only [List.intercalate_cons_cons, List.map_cons, List.append_assoc, List.singleton_append] at ih ⊢
    rw [normalize_append_sep hsep, ih]

/-- A run of word characters is one token. -/
theorem normalize_word {w : Bytes} (hne : w ≠ []) (hw : ∀ b ∈ w, isWord b = true) :
    normalize w = replaceToken w := by
  obtain ⟨b, w, rfl⟩ := List.exists_cons_of_ne_nil hne
  have hb : isWord b = true := hw b (by simp)
  have hw' : ∀ c ∈ w, isWord c = true := fun c hc => hw c (by simp [hc])
  have hstep : tokenStep b w = (b :: w, []) := by
    rw [tokenStep, if_pos hb, List.takeWhile_eq_self_iff.2 hw', List.dropWhile_eq_nil_iff.2 hw']
  rw [normalize_tokens, tokens_cons, hstep]
  simp [tokens]

/-! ## UTF-8 -/

theorem isDigit_ascii {b : UInt8} (h : isDigit b = true) : b.toNat < 0x80 := by
  simp only [isDigit, Bool.and_eq_true, decide_eq_true_eq] at h
  omega

theorem valid_ascii_append : ∀ {w : Bytes}, (∀ b ∈ w, b.toNat < 0x80) → ∀ s : Bytes, valid (w ++ s) = valid s
  | [], _, _ => rfl
  | b :: w, h, s => by
    rw [List.cons_append, valid_cons_ascii _ (h b (by simp)), valid_ascii_append (fun c hc => h c (by simp [hc]))]

/-- Replacing digits leaves it to the rest of the text whether it is valid UTF-8. -/
theorem valid_replaceFrom : ∀ (s : Bytes) (prev : Option UInt8) (skip : Nat) (before : Bytes),
    (∀ b ∈ s.take skip, b.toNat < 0x80) →
    valid (before ++ replaceFrom prev skip s) = valid (before ++ s.drop skip)
  | [], _, _, _, _ => by simp [replaceFrom]
  | b :: s, prev, skip + 1, before, h => by
    rw [replaceFrom, List.drop_succ_cons]
    exact valid_replaceFrom s (some b) skip before fun c hc => h c (by simp [hc])
  | b :: s, prev, 0, before, _ => by
    rw [replaceFrom, List.drop_zero]
    cases hm : matchAt prev (b :: s) with
    | none =>
      have := valid_replaceFrom s (some b) 0 (before ++ [b]) (by simp)
      simpa using this
    | some n =>
      obtain ⟨hpos, hdig⟩ := matchAt_digits hm
      obtain ⟨k, rfl⟩ : ∃ k, n = k + 1 := ⟨n - 1, by omega⟩
      rw [List.take_succ_cons] at hdig
      have hb := isDigit_ascii (hdig b (by simp))
      have hrest := valid_replaceFrom s (some b) k [] fun c hc => isDigit_ascii (hdig c (by simp [hc]))
      have hskip : valid s = valid (s.drop k) := by
        conv_lhs => rw [← List.take_append_drop k s]
        exact valid_ascii_append (fun c hc => isDigit_ascii (hdig c (by simp [hc]))) _
      show valid (before ++ (0x3C :: (lit "NUM>" ++ replaceFrom (some b) k s))) = _
      rw [valid_append_ascii _ _ (by decide), valid_append_ascii _ _ hb, valid_ascii_append (forall_of_all (by decide))]
      rw [List.nil_append, List.nil_append] at hrest
      rw [hrest, hskip]

theorem valid_normalize (s : Bytes) : valid (normalize s) = valid s :=
  valid_replaceFrom s none 0 [] (by simp)

end WatchBPF.Baseline
