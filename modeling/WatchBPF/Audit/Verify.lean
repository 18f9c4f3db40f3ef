/-
`VerifyChain`: a walk over the lines of a file that stops at the first it refuses. What it accepts
are exactly the files whose records form a sealed chain from genesis, and what it counts is how far
the records do.
-/
import WatchBPF.Audit.Entry
import WatchBPF.Audit.Lines
import WatchBPF.Lib.HashChain

namespace WatchBPF.Audit

open WatchBPF.HashChain WatchBPF.Numeral WatchBPF.Sha256

/-- What `prevHash` is before the first entry. -/
def genesis : Bytes := lit "genesis"

/-- Audit entries as a hash chain. -/
def chain : Scheme Entry Bytes := ⟨genesis, Entry.prevHash, Entry.hash, computeHash⟩

@[simp] theorem chain_prev (e : Entry) : chain.prev e = e.prevHash := rfl
@[simp] theorem chain_link (e : Entry) : chain.link e = e.hash := rfl
@[simp] theorem chain_digest (e : Entry) : chain.digest e = computeHash e := rfl
@[simp] theorem chain_genesis : chain.genesis = genesis := rfl

/-! ## The walk -/

/-- Why a file is refused, with the line number given. -/
inductive VerifyError
  | unreadable
  | malformed (line : Nat)
  | broken (line : Nat) (expected got : Bytes)
  | mismatch (line : Nat)
  deriving DecidableEq

/-- The error's text; `cause` is that of the error it wraps. -/
def VerifyError.text (cause : Bytes) : VerifyError → Bytes
  | unreadable => cause
  | malformed line => lit "malformed entry at line " ++ itoa line ++ lit ": " ++ cause
  | broken line expected got =>
    lit "chain broken at line " ++ itoa line ++ lit ": expected prev_hash " ++ expected ++ lit ", got " ++ got
  | mismatch line => lit "hash mismatch at line " ++ itoa line ++ lit ": possible tampering"

/-- The line an error names. -/
def VerifyError.line : VerifyError → Nat
  | unreadable => 1
  | malformed line | broken line _ _ | mismatch line => line

/-- The loop of `VerifyChain`. -/
def verifyLines : Bytes → Nat → List Bytes → Bool × Nat × Option VerifyError
  | _, count, [] => (true, count, none)
  | prevHash, count, line :: lines =>
    if line = [] then verifyLines prevHash count lines
    else match unmarshal line with
      | none => (false, count, some (.malformed (count + 1)))
      | some e =>
        if e.prevHash ≠ prevHash then (false, count, some (.broken (count + 1) prevHash e.prevHash))
        else if computeHash { e with hash := [] } ≠ e.hash then (false, count, some (.mismatch (count + 1)))
        else verifyLines e.hash (count + 1) lines

/-- `VerifyChain`; `none` is a file that cannot be read. -/
def verifyChain : Option Bytes → Bool × Nat × Option VerifyError
  | none => (false, 0, some .unreadable)
  | some data => verifyLines genesis 0 (splitLines data)

/-- The records of a file that decode. -/
def entries (data : Bytes) : List Entry := (recordLines data).filterMap unmarshal

theorem verifyLines_filter : ∀ (lines : List Bytes) (g : Bytes) (n : Nat),
    verifyLines g n (lines.filter (· ≠ [])) = verifyLines g n lines
  | [], _, _ => rfl
  | line :: lines, g, n => by
    by_cases h : line = []
    · rw [List.filter_cons_of_neg (by simp [h]), verifyLines_filter lines, verifyLines, if_pos h]
    · rw [List.filter_cons_of_pos (by simp [h]), verifyLines, verifyLines, if_neg h, if_neg h]
      simp only [verifyLines_filter lines]

theorem verifyChain_eq (data : Bytes) : verifyChain (some data) = verifyLines genesis 0 (recordLines data) :=
  (verifyLines_filter _ _ _).symm

/-- Every error names the line after those counted. -/
theorem verifyLines_line : ∀ {lines : List Bytes} {g : Bytes} {n : Nat} {err : VerifyError},
    (verifyLines g n lines).2.2 = some err → err.line = (verifyLines g n lines).2.1 + 1
  | [], _, _, _, h => by cases h
  | line :: lines, g, n, err, h => by
    rw [verifyLines] at h ⊢
    split at h
    · rw [if_pos ‹_›]; exact verifyLines_line h
    · rw [if_neg ‹_›]
      split at h
      · cases h; rfl
      · split at h
        · rw [if_pos ‹_›]; cases h; rfl
        · rw [if_neg ‹_›]
          split at h
          · rw [if_pos ‹_›]; cases h; rfl
          · rw [if_neg ‹_›]; exact verifyLines_line h

/-- A refusal is an error. -/
theorem verifyLines_err_iff : ∀ (lines : List Bytes) (g : Bytes) (n : Nat),
    (verifyLines g n lines).1 = true ↔ (verifyLines g n lines).2.2 = none
  | [], _, _ => by simp [verifyLines]
  | line :: lines, g, n => by
    rw [verifyLines]
    split
    · exact verifyLines_err_iff lines g n
    · split
      · simp
      · split
        · simp
        · split
          · simp
          · exact verifyLines_err_iff lines _ _

/-! ## What is accepted -/

/-- The lines decode to the entries, one each. -/
def Decode (lines : List Bytes) (es : List Entry) : Prop := lines.map unmarshal = es.map some

theorem Decode.entries {data : Bytes} {es : List Entry} (h : Decode (recordLines data) es) : entries data = es := by
  have hid : (recordLines data).filterMap unmarshal = ((recordLines data).map unmarshal).filterMap id := by
    rw [List.filterMap_map]; rfl
  rw [Audit.entries, hid, h]
  simp [List.filterMap_map]

/-- One step of the walk over a line that decodes. -/
theorem verifyLines_cons {line : Bytes} {e : Entry} (hne : line ≠ []) (hu : unmarshal line = some e)
    (g : Bytes) (n : Nat) (lines : List Bytes) :
    verifyLines g n (line :: lines) =
      if e.prevHash ≠ g then (false, n, some (.broken (n + 1) g e.prevHash))
      else if computeHash e ≠ e.hash then (false, n, some (.mismatch (n + 1)))
      else verifyLines e.hash (n + 1) lines := by
  rw [verifyLines, if_neg hne, hu]
  rfl

/-- The walk counts as far as the entries form a sealed chain, and accepts when that is all of them. -/
theorem verifyLines_spec : ∀ {lines : List Bytes} {es : List Entry}, [] ∉ lines → Decode lines es →
    ∀ (g : Bytes) (n : Nat), (verifyLines g n lines).2.1 = n + accepted chain g es ∧
      ((verifyLines g n lines).1 = true ↔ accepted chain g es = es.length)
  | [], [], _, _, g, n => by simp [verifyLines, accepted]
  | [], _ :: _, _, h, _, _ => by simp [Decode] at h
  | _ :: _, [], _, h, _, _ => by simp [Decode] at h
  | line :: lines, e :: es, hne, h, g, n => by
    simp only [Decode, List.map_cons, List.cons.injEq] at h
    obtain ⟨ih1, ih2⟩ := verifyLines_spec (fun hm => hne (by simp [hm])) h.2 e.hash (n + 1)
    rw [verifyLines_cons (fun he => hne (by simp [he])) h.1]
    by_cases hp : e.prevHash = g
    · by_cases hc : computeHash e = e.hash
      · simp only [hp, hc, ne_eq, not_true_eq_false, if_false, accepted, chain_prev, chain_digest, chain_link,
          and_self, if_true, List.length_cons]
        exact ⟨by rw [ih1]; omega, by rw [ih2]; omega⟩
      · simp [hp, hc, accepted]
    · simp [hp, accepted]

/-- A linked list of entries is refused only for a hash. -/
theorem verifyLines_linked : ∀ {lines : List Bytes} {es : List Entry}, [] ∉ lines → Decode lines es →
    ∀ {g : Bytes}, Linked chain g es → ∀ n : Nat, (verifyLines g n lines).2.2 = none ∨
      ∃ k, (verifyLines g n lines).2.2 = some (.mismatch k)
  | [], [], _, _, _, _, _ => .inl rfl
  | [], _ :: _, _, h, _, _, _ => by simp [Decode] at h
  | _ :: _, [], _, h, _, _, _ => by simp [Decode] at h
  | line :: lines, e :: es, hne, h, g, hl, n => by
    simp only [Decode, List.map_cons, List.cons.injEq] at h
    rw [verifyLines_cons (fun he => hne (by simp [he])) h.1, if_neg (by simpa using hl.1)]
    by_cases hc : computeHash e = e.hash
    · rw [if_neg (by simpa using hc)]
      exact verifyLines_linked (fun hm => hne (by simp [hm])) h.2 hl.2 _
    · rw [if_pos hc]
      exact .inr ⟨_, rfl⟩

/-- What is accepted decodes. -/
theorem decode_of_verifyLines : ∀ {lines : List Bytes} {g : Bytes} {n : Nat}, [] ∉ lines →
    (verifyLines g n lines).1 = true → ∃ es, Decode lines es
  | [], _, _, _, _ => ⟨[], rfl⟩
  | line :: lines, g, n, hne, h => by
    rw [verifyLines, if_neg fun he => hne (by simp [he])] at h
    split at h
    · cases h
    · rename_i e hu
      split at h
      · cases h
      · split at h
        · cases h
        · obtain ⟨es, hes⟩ := decode_of_verifyLines (fun hm => hne (by simp [hm])) h
          exact ⟨e :: es, by simp only [Decode, List.map_cons, hu] at hes ⊢; rw [hes]⟩

theorem nil_not_mem_recordLines (data : Bytes) : [] ∉ recordLines data := by simp [recordLines]

theorem accepted_eq_length_iff {es : List Entry} : ∀ {g : Bytes},
    accepted chain g es = es.length ↔ Linked chain g es ∧ Sealed chain es := by
  induction es with
  | nil => simp [accepted, Linked, Sealed]
  | cons e es ih =>
    intro g
    simp only [accepted, Linked, Sealed, List.length_cons, List.forall_mem_cons] at ih ⊢
    by_cases h : chain.prev e = g ∧ chain.digest e = chain.link e
    · simp only [if_pos h, Nat.add_right_cancel_iff, ih]; tauto
    · simp only [if_neg h]
      constructor
      · omega
      · rintro ⟨⟨h1, -⟩, h2, -⟩; exact absurd ⟨h1, h2⟩ h

/-- A file is accepted when its records decode and form a sealed chain from genesis. -/
structure Accepted (data : Bytes) (es : List Entry) : Prop where
  decode : Decode (recordLines data) es
  linked : Linked chain genesis es
  sealed : Sealed chain es

theorem verifyChain_of_accepted {data : Bytes} {es : List Entry} (h : Accepted data es) :
    verifyChain (some data) = (true, es.length, none) := by
  obtain ⟨h1, h2⟩ := verifyLines_spec (nil_not_mem_recordLines data) h.decode genesis 0
  rw [accepted_eq_length_iff.2 ⟨h.linked, h.sealed⟩] at h1 h2
  rw [verifyChain_eq, ← Prod.eta (verifyLines _ _ _), ← Prod.eta (verifyLines _ _ _).2, h1, h2.2 rfl,
    (verifyLines_err_iff _ _ _).1 (h2.2 rfl), Nat.zero_add]

theorem accepted_of_verifyChain {data : Bytes} (h : (verifyChain (some data)).1 = true) :
    Accepted data (entries data) := by
  rw [verifyChain_eq] at h
  obtain ⟨es, hes⟩ := decode_of_verifyLines (nil_not_mem_recordLines data) h
  obtain ⟨-, h2⟩ := verifyLines_spec (nil_not_mem_recordLines data) hes genesis 0
  obtain ⟨hl, hs⟩ := accepted_eq_length_iff.1 (h2.1 h)
  rw [hes.entries]
  exact ⟨hes, hl, hs⟩

theorem recordLines_append_marshal {data : Bytes} (ht : Terminated data) (es : List Entry) :
    recordLines (data ++ unlines (es.map marshal)) = recordLines data ++ es.map marshal :=
  recordLines_append_unlines ht (fun _ hl => by obtain ⟨e, -, rfl⟩ := List.mem_map.1 hl; exact newline_not_mem_marshal e)
    fun _ hl => by obtain ⟨e, -, rfl⟩ := List.mem_map.1 hl; exact marshal_ne_nil e

theorem Decode.append {ls ms : List Bytes} {es fs : List Entry} (h : Decode ls es) (h' : Decode ms fs) :
    Decode (ls ++ ms) (es ++ fs) := by
  rw [Decode, List.map_append, List.map_append, h, h']

/-- Written entries read back coerced. -/
theorem decode_marshal (es : List Entry) : Decode (es.map marshal) (es.map Entry.coerce) := by
  simp [Decode, unmarshal_marshal]

end WatchBPF.Audit
