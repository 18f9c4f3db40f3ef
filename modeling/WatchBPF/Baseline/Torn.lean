/-
A `Save` that stops on its way. `os.WriteFile` empties the file before it writes, and no part of a saved file
decodes, so that whatever was cut off, `load` begins with an empty store.
-/
import WatchBPF.Baseline.Store
import WatchBPF.Lib.Json.Append

namespace WatchBPF.Baseline

open WatchBPF.Utf8 WatchBPF.Json

/-- Where a `Save` stops: before it has opened the file, or with so many bytes written. -/
inductive Stop
  | unopened
  | written (n : Nat)
  deriving DecidableEq

/-- The file when a `Save` of these keys has stopped. -/
def saveStopped (file : Option Bytes) (keys : List Bytes) : Stop → Option Bytes
  | .unopened => file
  | .written n => some ((save keys).take n)

/-- It has stopped with the file emptied, and something still to be written. -/
def Stop.Torn (keys : List Bytes) : Stop → Prop
  | .unopened => False
  | .written n => n < (save keys).length

/-- A part of a saved file is loaded as an empty store. -/
theorem known_newStore_take {keys : List Bytes} {n : Nat} (hn : n < (save keys).length) :
    (newStore (some ((save keys).take n))).known = ∅ := by
  have hrest : (save keys).drop n ≠ [] := by
    rw [Ne, List.drop_eq_nil_iff, not_le]
    exact hn
  have hnone : unmarshalStrings ((save keys).take n) = none := by
    rw [unmarshalStrings, parse_marshalStrings_cut (List.take_append_drop n (save keys)).symm hrest]
    rfl
  rw [newStore, hnone]

theorem newStore_torn {stop : Stop} {keys : List Bytes} (ht : stop.Torn keys) (file : Option Bytes) :
    (newStore (saveStopped file keys stop)).known = ∅ := by
  cases stop with
  | unopened => exact ht.elim
  | written n => exact known_newStore_take ht

theorem saveStopped_of_not_torn {stop : Stop} {keys : List Bytes} (ht : ¬ stop.Torn keys) (file : Option Bytes) :
    saveStopped file keys stop = file ∨ saveStopped file keys stop = some (save keys) := by
  cases stop with
  | unopened => exact .inl rfl
  | written n => exact .inr (congrArg some (List.take_of_length_le (not_lt.1 ht)))

theorem known_save_eq_empty {s : Store} {keys : List Bytes} (h : s.Lists keys) :
    (newStore (some (save keys))).known = ∅ ↔ s.known = ∅ := by
  rw [known_newStore_save h, Finset.image_eq_empty]

/-- The file is loaded as the set saved before or as the new one exactly when nothing of the new one has been
cut off, or one of the two is empty. -/
theorem newStore_saveStopped_iff {old new : Store} {keys₀ keys : List Bytes} (h₀ : old.Lists keys₀)
    (h : new.Lists keys) (stop : Stop) :
    ((newStore (saveStopped (some (save keys₀)) keys stop)).known = (newStore (some (save keys₀))).known ∨
      (newStore (saveStopped (some (save keys₀)) keys stop)).known = (newStore (some (save keys))).known) ↔
      ¬ stop.Torn keys ∨ old.known = ∅ ∨ new.known = ∅ := by
  rw [← known_save_eq_empty h₀, ← known_save_eq_empty h]
  by_cases ht : stop.Torn keys
  · rw [newStore_torn ht]
    constructor
    · rintro (hold | hnew)
      · exact .inr (.inl hold.symm)
      · exact .inr (.inr hnew.symm)
    · rintro (hno | hold | hnew)
      · exact absurd ht hno
      · exact .inl hold.symm
      · exact .inr hnew.symm
  · refine iff_of_true ?_ (.inl ht)
    rcases saveStopped_of_not_torn ht (some (save keys₀)) with hfile | hfile
    · exact .inl (by rw [hfile])
    · exact .inr (by rw [hfile])

theorem newStore_saveStopped_iff_second :
    let ls : Combination := ⟨lit "EXEC", lit "ls", lit "/bin/ls"⟩
    let ps : Combination := ⟨lit "EXEC", lit "ps", lit "/bin/ps"⟩
    let file := saveStopped (some (save [ls.key])) [ls.key, ps.key] (.written 47)
    (newStore file).known = (newStore (some (save [ls.key]))).known ∨
      (newStore file).known = (newStore (some (save [ls.key, ps.key]))).known := by
  intro ls ps file
  have h₀ : ((newStore none).learnAll [ls]).Lists [ls.key] := ⟨by decide, by decide⟩
  have h : ((newStore none).learnAll [ls, ps]).Lists [ls.key, ps.key] := ⟨by decide, by decide⟩
  exact (newStore_saveStopped_iff h₀ h (.written 47)).2 (.inl (by unfold Stop.Torn; decide))

/-- With the file just emptied the baseline is lost. -/
theorem newStore_emptied :
    let ls : Combination := ⟨lit "EXEC", lit "ls", lit "/bin/ls"⟩
    let ps : Combination := ⟨lit "EXEC", lit "ps", lit "/bin/ps"⟩
    let file := saveStopped (some (save [ls.key])) [ls.key, ps.key] (.written 0)
    ((newStore none).learnAll [ls]).Lists [ls.key] ∧ ((newStore none).learnAll [ls, ps]).Lists [ls.key, ps.key] ∧
      (newStore file).known ≠ (newStore (some (save [ls.key]))).known ∧
      (newStore file).known ≠ (newStore (some (save [ls.key, ps.key]))).known := by
  intro ls ps file
  exact ⟨⟨by decide, by decide⟩, ⟨by decide, by decide⟩, by decide, by decide⟩

end WatchBPF.Baseline
