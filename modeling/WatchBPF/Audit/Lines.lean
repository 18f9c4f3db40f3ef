/-
The two line scanners of the audit package: `splitLines`, which verification reads with, and the scan
for the last line, which a restart reads with. They agree on the last line that is not blank, and
both go piece by piece over a file whose pieces end in a newline.
-/
import WatchBPF.Lib.Bytes

namespace WatchBPF.Audit

/-! ## The scanners -/

/-- The loop of `splitLines`: `cur` is `data[start:i]`. -/
def splitLinesFrom (cur : Bytes) : Bytes → List Bytes
  | [] => if cur = [] then [] else [cur]
  | b :: data => if b = 0x0A then cur :: splitLinesFrom [] data else splitLinesFrom (cur ++ [b]) data

/-- The pieces between newlines, without an empty last one. -/
def splitLines (data : Bytes) : List Bytes := splitLinesFrom [] data

/-- The loop of `loadLastHash`: `cur` is `data[start:i]`. -/
def lastLineFrom (lastLine cur : Bytes) : Bytes → Bytes
  | [] => if cur = [] then lastLine else cur
  | b :: data =>
    if b = 0x0A then lastLineFrom (if cur = [] then lastLine else cur) [] data
    else lastLineFrom lastLine (cur ++ [b]) data

/-- The last piece that is not empty. -/
def lastLine (data : Bytes) : Bytes := lastLineFrom [] [] data

/-- The lines verification looks at. -/
def recordLines (data : Bytes) : List Bytes := (splitLines data).filter (· ≠ [])

@[simp] theorem recordLines_nil : recordLines [] = [] := rfl

/-- Nothing follows the last newline. -/
def Terminated (data : Bytes) : Prop := data = [] ∨ data.getLast? = some 0x0A

instance (data : Bytes) : Decidable (Terminated data) := by unfold Terminated; infer_instance

/-! ## Agreement -/

theorem lastLineFrom_eq : ∀ (data last cur : Bytes),
    lastLineFrom last cur data = (((splitLinesFrom cur data).filter (· ≠ [])).getLast?).getD last
  | [], last, cur => by
    by_cases h : cur = [] <;> simp [lastLineFrom, splitLinesFrom, h]
  | b :: data, last, cur => by
    unfold lastLineFrom splitLinesFrom
    split
    · rw [lastLineFrom_eq data]
      by_cases h : cur = []
      · simp [h]
      · simp [h, List.getLast?_cons]
    · exact lastLineFrom_eq data last _

/-- The scanners agree on the last line. -/
theorem lastLine_eq (data : Bytes) : lastLine data = (recordLines data).getLast?.getD [] :=
  lastLineFrom_eq data [] []

/-! ## Splitting in pieces -/

theorem splitLinesFrom_append : ∀ {data : Bytes} (cur rest : Bytes), data.getLast? = some 0x0A →
    splitLinesFrom cur (data ++ rest) = splitLinesFrom cur data ++ splitLinesFrom [] rest
  | [], _, _, h => by simp at h
  | [b], cur, rest, h => by
    obtain rfl : b = 0x0A := by simpa using h
    simp [splitLinesFrom]
  | b :: c :: data, cur, rest, h => by
    have h' : (c :: data).getLast? = some 0x0A := by simpa [List.getLast?_cons_cons] using h
    rw [List.cons_append, splitLinesFrom, splitLinesFrom]
    split
    · rw [splitLinesFrom_append [] rest h', List.cons_append]
    · exact splitLinesFrom_append _ rest h'

theorem splitLines_append {data : Bytes} (h : Terminated data) (rest : Bytes) :
    splitLines (data ++ rest) = splitLines data ++ splitLines rest := by
  rcases h with rfl | h
  · rfl
  · exact splitLinesFrom_append [] rest h

theorem recordLines_append {data : Bytes} (h : Terminated data) (rest : Bytes) :
    recordLines (data ++ rest) = recordLines data ++ recordLines rest := by
  rw [recordLines, splitLines_append h, List.filter_append]; rfl

theorem splitLinesFrom_line : ∀ {line : Bytes} (cur rest : Bytes), (0x0A : UInt8) ∉ line →
    splitLinesFrom cur (line ++ 0x0A :: rest) = (cur ++ line) :: splitLinesFrom [] rest
  | [], cur, rest, _ => by simp [splitLinesFrom]
  | b :: line, cur, rest, h => by
    have hb : b ≠ 0x0A := fun he => h (by simp [he])
    rw [List.cons_append, splitLinesFrom, if_neg hb,
      splitLinesFrom_line _ _ fun hm => h (by simp [hm])]
    simp

theorem splitLinesFrom_tail : ∀ {line : Bytes} (cur : Bytes), (0x0A : UInt8) ∉ line →
    splitLinesFrom cur line = if cur ++ line = [] then [] else [cur ++ line]
  | [], cur, _ => by simp [splitLinesFrom]
  | b :: line, cur, h => by
    have hb : b ≠ 0x0A := fun he => h (by simp [he])
    rw [splitLinesFrom, if_neg hb, splitLinesFrom_tail _ fun hm => h (by simp [hm])]
    simp

/-- A line appended to complete lines is a line of its own. -/
theorem splitLines_append_line {data line : Bytes} (h : Terminated data) (hl : (0x0A : UInt8) ∉ line) :
    splitLines (data ++ line ++ [0x0A]) = splitLines data ++ [line] := by
  rw [List.append_assoc, splitLines_append h, splitLines, splitLines, splitLinesFrom_line _ _ hl]
  simp [splitLinesFrom]

theorem terminated_append_line (data line : Bytes) : Terminated (data ++ line ++ [0x0A]) :=
  .inr (by simp)

/-- Every byte string is complete lines and a tail without a newline. -/
theorem exists_tail (data : Bytes) :
    ∃ body tail, data = body ++ tail ∧ Terminated body ∧ (0x0A : UInt8) ∉ tail := by
  induction data using List.reverseRecOn with
  | nil => exact ⟨[], [], rfl, .inl rfl, by simp⟩
  | append_singleton data b ih =>
    by_cases hb : b = 0x0A
    · subst hb
      exact ⟨data ++ [0x0A], [], by simp, .inr (by simp), by simp⟩
    · obtain ⟨body, tail, rfl, hbody, htail⟩ := ih
      exact ⟨body, tail ++ [b], by simp, hbody, by simp [htail, Ne.symm hb]⟩

theorem terminated_iff_tail {body tail : Bytes} (hb : Terminated body) (ht : (0x0A : UInt8) ∉ tail) :
    Terminated (body ++ tail) ↔ tail = [] := by
  constructor
  · rintro (h | h)
    · exact (List.append_eq_nil_iff.1 h).2
    · by_contra hne
      obtain ⟨init, b, rfl⟩ := List.eq_nil_or_concat tail |>.resolve_left hne
      simp only [List.concat_eq_append, ← List.append_assoc, List.getLast?_concat, Option.some.injEq] at h
      exact ht (by simp [h])
  · rintro rfl
    rwa [List.append_nil]

/-- A line appended to a torn tail is glued to it. -/
theorem splitLines_append_glued {body tail line : Bytes} (hb : Terminated body) (ht : (0x0A : UInt8) ∉ tail)
    (hl : (0x0A : UInt8) ∉ line) :
    splitLines (body ++ tail ++ line ++ [0x0A]) = splitLines body ++ [tail ++ line] := by
  rw [List.append_assoc body tail line]
  exact splitLines_append_line hb (by simp [ht, hl])

/-! ## Lines put together -/

/-- The file that consists of the given lines. -/
def unlines (lines : List Bytes) : Bytes := lines.flatMap fun l => l ++ [0x0A]

theorem unlines_append (ls ms : List Bytes) : unlines (ls ++ ms) = unlines ls ++ unlines ms := by
  simp [unlines]

theorem terminated_append_unlines {data : Bytes} (h : Terminated data) (ls : List Bytes) :
    Terminated (data ++ unlines ls) := by
  induction ls using List.reverseRecOn with
  | nil => simpa [unlines] using h
  | append_singleton ls l _ =>
    rw [unlines_append, ← List.append_assoc]
    simpa [unlines] using terminated_append_line (data ++ unlines ls) l

theorem splitLines_append_unlines {data : Bytes} (h : Terminated data) {ls : List Bytes}
    (hl : ∀ l ∈ ls, (0x0A : UInt8) ∉ l) : splitLines (data ++ unlines ls) = splitLines data ++ ls := by
  induction ls using List.reverseRecOn with
  | nil => simp [unlines]
  | append_singleton ls l ih =>
    have ht := terminated_append_unlines h ls
    rw [unlines_append, ← List.append_assoc, ← List.append_assoc, ← ih fun m hm => hl m (by simp [hm])]
    simpa [unlines] using splitLines_append_line ht (hl l (by simp))

theorem recordLines_append_unlines {data : Bytes} (h : Terminated data) {ls : List Bytes}
    (hl : ∀ l ∈ ls, (0x0A : UInt8) ∉ l) (hne : ∀ l ∈ ls, l ≠ []) :
    recordLines (data ++ unlines ls) = recordLines data ++ ls := by
  rw [recordLines, splitLines_append_unlines h hl, List.filter_append]
  congr 1
  exact List.filter_eq_self.2 fun l hm => by simpa using hne l hm

end WatchBPF.Audit
