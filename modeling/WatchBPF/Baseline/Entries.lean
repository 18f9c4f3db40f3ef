/-
The entries of a baseline file. `load` takes them into the store as they stand, where `Learn` and
`IsKnown` normalise the path first: an entry whose path is not normal is no combination's key.
-/
import WatchBPF.Baseline.Tokens
import WatchBPF.Baseline.Store

namespace WatchBPF.Baseline

open WatchBPF.Utf8 WatchBPF.Numeral WatchBPF.Json

/-! ## Bars -/

theorem count_replaceToken (t : Bytes) : (replaceToken t).count 0x7C = t.count 0x7C := by
  unfold replaceToken
  split
  · rename_i hd
    have hno : (0x7C : UInt8) ∉ t := fun hmem => absurd (List.all_eq_true.1 hd _ hmem) (by decide)
    rw [List.count_eq_zero_of_not_mem hno]
    decide
  · rfl

/-- Normalising neither adds nor removes a bar. -/
theorem count_normalize (s : Bytes) : (normalize s).count 0x7C = s.count 0x7C := by
  rw [normalize_tokens]
  conv_rhs => rw [← (pieces_tokens s).flatten]
  induction tokens s with
  | nil => rfl
  | cons t ts ih =>
    rw [List.flatMap_cons, List.flatten_cons, List.count_append, List.count_append, ih, count_replaceToken]

/-- The fields of the combination can be told apart in its key. -/
structure Combination.Plain (q : Combination) : Prop where
  eventType : q.eventType ∈ eventLabels
  comm : 0x7C ∉ q.comm
  path : 0x7C ∉ q.path

theorem Combination.Plain.label {q : Combination} (h : q.Plain) : q.eventType.count 0x7C = 0 := by
  have : ∀ t ∈ eventLabels, t.count 0x7C = 0 := by decide
  exact this _ h.eventType

/-- No bar can move in a plain combination. -/
theorem not_shifted {l q : Combination} (hq : q.Plain) : ¬ Shifted l q := by
  have hbar : (lit "|").count 0x7C = 1 := by decide
  have hcomm := List.count_eq_zero_of_not_mem hq.comm
  have hpath : (normalize q.path).count 0x7C = 0 :=
    (count_normalize q.path).trans (List.count_eq_zero_of_not_mem hq.path)
  rintro (⟨-, ⟨m, -, h⟩ | ⟨m, h, -⟩⟩ | ⟨m, -, h⟩ | ⟨m, h, -⟩)
  · rw [h, List.count_append, List.count_append, hbar] at hpath
    omega
  · rw [h, List.count_append, List.count_append, hbar] at hcomm
    omega
  · -- one bar of the query is its own, so the other fields have none
    have hcount := congrArg (List.count 0x7C) h
    simp only [List.count_append, hbar, hcomm, hpath] at hcount
    omega
  · have hlabel := hq.label
    rw [h, List.count_append, List.count_append, hbar] at hlabel
    omega

/-- Only a combination with the same fields has the key of a plain one. -/
theorem key_eq_iff_same {l q : Combination} (hq : q.Plain) : l.key = q.key ↔ Same l q := by
  rw [key_eq_iff, or_iff_left (not_shifted hq)]

/-! ## Entries -/

/-- The text of an entry: the fields as they are. -/
def Combination.entry (q : Combination) : Bytes := q.eventType ++ lit "|" ++ q.comm ++ lit "|" ++ q.path

/-- The file is a JSON array of the entries of plain combinations. -/
structure HasEntries (data : Bytes) (qs : List Combination) : Prop where
  decoded : unmarshalStrings data = some (qs.map Combination.entry)
  plain : ∀ q ∈ qs, q.Plain

/-- The combination with its path in normal form. -/
def Combination.normal (q : Combination) : Combination := { q with path := normalize q.path }

theorem entry_normal (q : Combination) : q.normal.entry = q.key := rfl

theorem plain_normal {q : Combination} (hq : q.Plain) : q.normal.Plain :=
  ⟨hq.eventType, hq.comm, by
    rw [← List.count_eq_zero]
    exact (count_normalize q.path).trans (List.count_eq_zero_of_not_mem hq.path)⟩

/-- Plain combinations are told apart by their entries. -/
theorem entry_inj {q q' : Combination} (hq : q.Plain) (hq' : q'.Plain) (h : q.entry = q'.entry) : q = q' := by
  have hbar : lit "|" = [0x7C] := by decide
  simp only [Combination.entry, hbar, List.append_assoc, List.singleton_append] at h
  obtain ⟨h1, h⟩ := append_sep_inj h (hq.label.trans hq'.label.symm)
  obtain ⟨h2, h3⟩ := append_sep_inj h
    ((List.count_eq_zero_of_not_mem hq.comm).trans (List.count_eq_zero_of_not_mem hq'.comm).symm)
  obtain ⟨et, comm, path⟩ := q
  obtain ⟨et', comm', path'⟩ := q'
  obtain rfl : et = et' := h1
  obtain rfl : comm = comm' := h2
  obtain rfl : path = path' := h3
  rfl

theorem known_newStore {data : Bytes} {qs : List Combination} (h : HasEntries data qs) :
    (newStore (some data)).known = (qs.map Combination.entry).toFinset := by
  rw [newStore, h.decoded]

/-- The key of a plain combination is loaded exactly when its normal form is in the file. -/
theorem key_mem_newStore {data : Bytes} {qs : List Combination} (h : HasEntries data qs) {q : Combination}
    (hq : q.Plain) : q.key ∈ (newStore (some data)).known ↔ q.normal ∈ qs := by
  rw [known_newStore h, List.mem_toFinset, List.mem_map]
  constructor
  · rintro ⟨q', hmem, he⟩
    rw [← entry_normal] at he
    rw [← entry_inj (h.plain q' hmem) (plain_normal hq) he]
    exact hmem
  · exact fun hmem => ⟨q.normal, hmem, entry_normal q⟩

/-- An entry is some combination's key exactly when its path is normal. -/
theorem entry_key_iff {q : Combination} (hq : q.Plain) :
    (∃ l : Combination, l.key = q.entry) ↔ normalize q.path = q.path := by
  constructor
  · rintro ⟨l, hl⟩
    -- a bar of one of the other's fields would be one too many
    have hcount := congrArg (List.count 0x7C) hl
    have hbar : lit "|" = [0x7C] := by decide
    rw [key_eq] at hl hcount
    simp only [Combination.entry, hbar, List.intercalate_cons_cons, List.intercalate_singleton, List.append_assoc,
      List.singleton_append, List.count_append, List.count_cons_self, count_normalize, hq.label,
      List.count_eq_zero_of_not_mem hq.comm, List.count_eq_zero_of_not_mem hq.path] at hl hcount
    have hcomm := List.count_eq_zero_of_not_mem hq.comm
    have hlabel := hq.label
    obtain ⟨-, hl⟩ := append_sep_inj hl (by omega)
    obtain ⟨-, hl⟩ := append_sep_inj hl (by omega)
    rw [← hl, normalize_normalize]
  · intro h
    refine ⟨q, ?_⟩
    rw [← entry_normal, Combination.normal, h]

/-- Every entry is known after `NewStore` and any learning exactly when the normal form of each is in the file
too or was learned; the store holds nothing but keys exactly when every path in the file is normal. -/
theorem isKnown_entries_iff {data : Bytes} {qs : List Combination} (h : HasEntries data qs) (ls : List Combination) :
    ((∀ q ∈ qs, ((newStore (some data)).learnAll ls).isKnown q = true) ↔
      ∀ q ∈ qs, q.normal ∈ qs ∨ ∃ l ∈ ls, Same l q) ∧
    ((∀ k ∈ ((newStore (some data)).learnAll ls).known, ∃ q : Combination, q.key = k) ↔
      ∀ q ∈ qs, normalize q.path = q.path) := by
  constructor
  · refine forall₂_congr fun q hq => ?_
    have hplain := h.plain q hq
    rw [isKnown_learnAll, key_mem_newStore h hplain]
    simp only [key_eq_iff_same hplain]
  · rw [known_learnAll, known_newStore h]
    constructor
    · intro hkeys q hq
      refine (entry_key_iff (h.plain q hq)).1 (hkeys q.entry ?_)
      exact Finset.mem_union_left _ (List.mem_toFinset.2 (List.mem_map_of_mem hq))
    · intro hnormal k hk
      rcases Finset.mem_union.1 hk with hk | hk
      · obtain ⟨q, hq, rfl⟩ := List.mem_map.1 (List.mem_toFinset.1 hk)
        exact (entry_key_iff (h.plain q hq)).2 (hnormal q hq)
      · obtain ⟨l, -, rfl⟩ := List.mem_map.1 (List.mem_toFinset.1 hk)
        exact ⟨l, rfl⟩

theorem isKnown_entries_iff_shell :
    let data := lit "[\n  \"OPEN|sed|/usr/lib/locale/locale-archive\"\n]"
    let q : Combination := ⟨lit "OPEN", lit "sed", lit "/usr/lib/locale/locale-archive"⟩
    (newStore (some data)).isKnown q = true := by
  intro data q
  have hfile : HasEntries data [q] := ⟨by decide, by
    rintro _ ⟨⟩
    · exact ⟨by decide, by decide, by decide⟩
    · contradiction⟩
  refine (isKnown_entries_iff hfile []).1.2 ?_ q (by simp)
  rintro _ ⟨⟩
  · exact .inl (by decide)
  · contradiction

/-- An entry with the number of a process in its path is dead. -/
theorem isKnown_dead :
    let data := lit "[\n  \"OPEN|ps|/proc/844\"\n]"
    let q : Combination := ⟨lit "OPEN", lit "ps", lit "/proc/844"⟩
    HasEntries data [q] ∧ q.entry ∈ (newStore (some data)).known ∧ (newStore (some data)).isKnown q = false ∧
      ¬ ∃ l : Combination, l.key = q.entry := by
  intro data q
  have hq : q.Plain := ⟨by decide, by decide, by decide⟩
  have hfile : HasEntries data [q] := ⟨by decide, by simpa using hq⟩
  refine ⟨hfile, by decide, by decide, ?_⟩
  rw [entry_key_iff hq]
  decide

end WatchBPF.Baseline
