/-
The baseline store: learned behaviour as a set of flat keys `type|comm|path`, saved as a JSON array
and loaded back. What a key forgets decides both what counts as learned and what survives a restart.
-/
import WatchBPF.Baseline.Normalize
import WatchBPF.Lib.Json.Valid
import Mathlib.Data.Finset.Card

namespace WatchBPF.Baseline

open WatchBPF.Utf8 WatchBPF.Json

/-! ## The store -/

/-- What an event is looked up and learned by. -/
structure Combination where
  eventType : Bytes
  comm : Bytes
  path : Bytes
  deriving DecidableEq

/-- The flat key, with the path normalized. -/
def makeKey (eventType comm path : Bytes) : Bytes := eventType ++ lit "|" ++ comm ++ lit "|" ++ normalize path

/-- The key a combination is looked up by. -/
def Combination.key (q : Combination) : Bytes := makeKey q.eventType q.comm q.path

/-- The allowlist: the keys of what has been learned. -/
structure Store where
  known : Finset Bytes

/-- `IsKnown`: the key has been seen before. -/
def Store.isKnown (s : Store) (q : Combination) : Bool := q.key ∈ s.known

/-- `Learn`: one more key in the allowlist. -/
def Store.learn (s : Store) (q : Combination) : Store := ⟨insert q.key s.known⟩

def Store.count (s : Store) : Nat := s.known.card

/-- The orders in which a range over the map may list its keys. -/
def Store.Lists (s : Store) (keys : List Bytes) : Prop := keys.Nodup ∧ keys.toFinset = s.known

/-- What `Save` writes when the keys are listed so. -/
def save (keys : List Bytes) : Bytes := marshalStrings keys

/-- `NewStore`, with what `load` finds in the file. -/
def newStore (file : Option Bytes) : Store :=
  match file with
  | none => ⟨∅⟩
  | some data =>
    match unmarshalStrings data with
    | none => ⟨∅⟩
    | some keys => ⟨keys.toFinset⟩

/-- A sequence of `Learn` calls. -/
def Store.learnAll (s : Store) (qs : List Combination) : Store := qs.foldl Store.learn s

theorem known_learnAll (qs : List Combination) (s : Store) :
    (s.learnAll qs).known = s.known ∪ (qs.map Combination.key).toFinset := by
  induction qs generalizing s with
  | nil => simp [Store.learnAll]
  | cons q qs ih =>
    show ((s.learn q).learnAll qs).known = _
    rw [ih, Store.learn]
    ext k
    simp only [Finset.mem_union, Finset.mem_insert, List.map_cons, List.toFinset_cons]
    tauto

theorem isKnown_learnAll {qs : List Combination} {s : Store} {q : Combination} :
    (s.learnAll qs).isKnown q = true ↔ q.key ∈ s.known ∨ ∃ l ∈ qs, l.key = q.key := by
  simp [Store.isKnown, known_learnAll]

/-! ## What a key tells -/

theorem key_eq (q : Combination) :
    q.key = [0x7C].intercalate [q.eventType, q.comm, normalize q.path] := by
  have hbar : lit "|" = [0x7C] := by decide
  simp [Combination.key, makeKey, hbar]

/-- The combination was learned as the other is asked for. -/
structure Same (l q : Combination) : Prop where
  eventType : l.eventType = q.eventType
  comm : l.comm = q.comm
  path : normalize l.path = normalize q.path

/-- One first field is the other followed by a bar and a first part of the other second field. -/
def Moved (a b a' b' : Bytes) : Prop := ∃ m, a = a' ++ lit "|" ++ m ∧ b' = m ++ lit "|" ++ b

/-- Texts joined by a bar agree when the fields do, or a bar of one of them stands for the separator. -/
theorem append_bar_inj_iff {a b a' b' : Bytes} : a ++ lit "|" ++ b = a' ++ lit "|" ++ b' ↔
    (a = a' ∧ b = b') ∨ Moved a b a' b' ∨ Moved a' b' a b := by
  have hbar : lit "|" = [0x7C] := by decide
  unfold Moved
  simp only [hbar, List.append_assoc, List.singleton_append]
  constructor
  · intro h
    rcases List.append_eq_append_iff.1 h with ⟨m, rfl, hm⟩ | ⟨m, rfl, hm⟩
    · cases m with
      | nil => exact .inl ⟨(List.append_nil a).symm, List.tail_eq_of_cons_eq hm⟩
      | cons c m =>
        obtain ⟨rfl, rfl⟩ := List.cons.inj hm
        exact .inr (.inr ⟨m, rfl, rfl⟩)
    · cases m with
      | nil => exact .inl ⟨List.append_nil a', (List.tail_eq_of_cons_eq hm).symm⟩
      | cons c m =>
        obtain ⟨rfl, rfl⟩ := List.cons.inj hm
        exact .inr (.inl ⟨m, rfl, rfl⟩)
  · rintro (⟨rfl, rfl⟩ | ⟨m, rfl, rfl⟩ | ⟨m, rfl, rfl⟩)
    · rfl
    · simp
    · simp

/-- A bar moves between the command name and the path, or between the event type and what comes after it. -/
inductive Shifted (l q : Combination) : Prop
  | comm (eventType : l.eventType = q.eventType)
      (moved : Moved l.comm (normalize l.path) q.comm (normalize q.path) ∨
        Moved q.comm (normalize q.path) l.comm (normalize l.path))
  | eventType (moved :
      Moved l.eventType (l.comm ++ lit "|" ++ normalize l.path) q.eventType (q.comm ++ lit "|" ++ normalize q.path) ∨
        Moved q.eventType (q.comm ++ lit "|" ++ normalize q.path) l.eventType (l.comm ++ lit "|" ++ normalize l.path))

theorem key_eq_iff {l q : Combination} : l.key = q.key ↔ Same l q ∨ Shifted l q := by
  have hkey : ∀ q : Combination, q.key = q.eventType ++ lit "|" ++ (q.comm ++ lit "|" ++ normalize q.path) := by
    intro q
    simp only [Combination.key, makeKey, List.append_assoc]
  rw [hkey, hkey, append_bar_inj_iff, append_bar_inj_iff]
  constructor
  · rintro (⟨htype, ⟨hcomm, hpath⟩ | hmoved⟩ | hmoved)
    · exact .inl ⟨htype, hcomm, hpath⟩
    · exact .inr (.comm htype hmoved)
    · exact .inr (.eventType hmoved)
  · rintro (⟨htype, hcomm, hpath⟩ | ⟨htype, hmoved⟩ | hmoved)
    · exact .inl ⟨htype, .inl ⟨hcomm, hpath⟩⟩
    · exact .inl ⟨htype, .inr hmoved⟩
    · exact .inr hmoved

/-- A query is known exactly through what was learned as it is, as long as no learned combination
reaches its key with a bar moved. -/
theorem isKnown_iff_same (ls : List Combination) (q : Combination) :
    (((⟨∅⟩ : Store).learnAll ls).isKnown q = true ↔ ∃ l ∈ ls, Same l q) ↔
      (∃ l ∈ ls, Same l q) ∨ ∀ l ∈ ls, ¬ Shifted l q := by
  have hknown : ((⟨∅⟩ : Store).learnAll ls).isKnown q = true ↔ ∃ l ∈ ls, Same l q ∨ Shifted l q := by
    rw [isKnown_learnAll]
    simp only [Finset.notMem_empty, false_or, key_eq_iff]
  rw [hknown]
  constructor
  · intro h
    by_cases hs : ∃ l ∈ ls, Same l q
    · exact .inl hs
    · exact .inr fun l hl hsh => hs (h.1 ⟨l, hl, .inr hsh⟩)
  · rintro (hs | hno)
    · exact ⟨fun _ => hs, fun ⟨l, hl, h⟩ => ⟨l, hl, .inl h⟩⟩
    · constructor
      · rintro ⟨l, hl, h | h⟩
        · exact ⟨l, hl, h⟩
        · exact absurd h (hno l hl)
      · rintro ⟨l, hl, h⟩
        exact ⟨l, hl, .inl h⟩

/-- A command name with a bar, learned, makes another command's path known. -/
theorem isKnown_shifted :
    let learned : Combination := ⟨lit "EXEC", lit "a|b", lit "c"⟩
    let query : Combination := ⟨lit "EXEC", lit "a", lit "b|c"⟩
    ((⟨∅⟩ : Store).learnAll [learned]).isKnown query = true ∧ ¬ ∃ l ∈ [learned], Same l query := by
  refine ⟨by decide, ?_⟩
  rintro ⟨l, hl, hs⟩
  obtain rfl := List.mem_singleton.1 hl
  exact absurd hs.comm (by decide)

/-! ## Saving and loading -/

/-- The labels events are learned under. -/
def eventLabels : List Bytes := [lit "EXEC", lit "OPEN", lit "CONNECT"]

theorem valid_key {q : Combination} (hq : q.eventType ∈ eventLabels) :
    valid q.key = true ↔ valid q.comm = true ∧ valid q.path = true := by
  have ht : valid q.eventType = true := by
    have : ∀ t ∈ eventLabels, valid t = true := by decide
    exact this _ hq
  rw [key_eq]
  simp only [List.intercalate_cons_cons, List.intercalate_singleton, List.append_assoc, List.singleton_append]
  rw [valid_append_ascii _ _ (by decide), valid_append_ascii _ _ (by decide), ht, valid_normalize]
  simp

/-- Loaded keys are valid UTF-8, whatever the file. -/
theorem valid_of_mem_newStore {file : Option Bytes} {k : Bytes} (hk : k ∈ (newStore file).known) :
    valid k = true := by
  unfold newStore at hk
  split at hk
  · simp at hk
  · split at hk
    · simp at hk
    · rename_i keys hkeys
      exact valid_unmarshalStrings hkeys k (List.mem_toFinset.1 hk)

/-- A saved store is loaded with its keys coerced to UTF-8. -/
theorem known_newStore_save {s : Store} {keys : List Bytes} (h : s.Lists keys) :
    (newStore (some (save keys))).known = s.known.image coerce := by
  rw [newStore, save, unmarshalStrings_marshalStrings]
  ext k
  simp [← h.2]

/-- A store survives saving and loading exactly when everything learned is valid UTF-8. -/
theorem newStore_save_iff {file : Option Bytes} {ls : List Combination} {keys : List Bytes}
    (hl : ∀ l ∈ ls, l.eventType ∈ eventLabels) (hkeys : ((newStore file).learnAll ls).Lists keys) :
    ((∀ q, (newStore (some (save keys))).isKnown q = ((newStore file).learnAll ls).isKnown q) ∧
      (newStore (some (save keys))).count = ((newStore file).learnAll ls).count) ↔
      ∀ l ∈ ls, valid l.comm = true ∧ valid l.path = true := by
  have hsave := known_newStore_save hkeys
  set s := (newStore file).learnAll ls with hs
  constructor
  · rintro ⟨hknown, -⟩ l hm
    have hmem : s.isKnown l = true := isKnown_learnAll.2 (.inr ⟨l, hm, rfl⟩)
    rw [← hknown l, Store.isKnown, decide_eq_true_eq] at hmem
    exact (valid_key (hl l hm)).1 (valid_of_mem_newStore hmem)
  · intro hv
    have hid : s.known.image coerce = s.known := by
      have : ∀ k ∈ s.known, coerce k = k := by
        intro k hk
        refine coerce_of_valid ?_
        rw [hs, known_learnAll, Finset.mem_union, List.mem_toFinset, List.mem_map] at hk
        rcases hk with hk | ⟨l, hm, rfl⟩
        · exact valid_of_mem_newStore hk
        · exact (valid_key (hl l hm)).2 (hv l hm)
      rw [Finset.image_congr this, Finset.image_id']
    rw [hid] at hsave
    exact ⟨fun q => by rw [Store.isKnown, Store.isKnown, hsave], by rw [Store.count, Store.count, hsave]⟩

theorem newStore_save_iff_ascii :
    let learned : Combination := ⟨lit "EXEC", lit "ls", lit "/bin/ls"⟩
    (∀ q, (newStore (some (save [learned.key]))).isKnown q = ((newStore none).learnAll [learned]).isKnown q) ∧
      (newStore (some (save [learned.key]))).count = ((newStore none).learnAll [learned]).count := by
  intro learned
  have hkeys : ((newStore none).learnAll [learned]).Lists [learned.key] := ⟨by simp, by rw [known_learnAll]; rfl⟩
  exact (newStore_save_iff (by decide) hkeys).2 (by decide)

/-- A command name that is no UTF-8 is forgotten. -/
theorem isKnown_lost :
    let learned : Combination := ⟨lit "EXEC", [0xFF], lit "/bin/ls"⟩
    ((newStore none).learnAll [learned]).Lists [learned.key] ∧
      ((newStore none).learnAll [learned]).isKnown learned = true ∧
      (newStore (some (save [learned.key]))).isKnown learned = false := by
  intro learned
  have hkeys : ((newStore none).learnAll [learned]).Lists [learned.key] := ⟨by simp, by rw [known_learnAll]; rfl⟩
  refine ⟨hkeys, by decide, ?_⟩
  rw [Store.isKnown, known_newStore_save hkeys, known_learnAll]
  decide

end WatchBPF.Baseline
