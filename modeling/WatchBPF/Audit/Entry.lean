/-
The audit record: its JSON line and the string its hash is taken of. Writing a record and reading it
back coerces its strings to UTF-8, and coercing a record coerces the string that is hashed, so the
two hashes agree as soon as the record's strings are well formed.
-/
import WatchBPF.Lib.Json.Struct
import WatchBPF.Lib.Sha256

namespace WatchBPF.Audit

open WatchBPF.Utf8 WatchBPF.Numeral WatchBPF.Json WatchBPF.Sha256

/-! ## Time stamps -/

/-- `appendInt`: decimal, padded with zeros. -/
def padded (width n : Nat) : Bytes := List.replicate (width - (itoa n).length) 0x30 ++ itoa n

/-- What the clock reads, in UTC. -/
structure Instant where
  year : Nat
  month : Nat
  day : Nat
  hour : Nat
  minute : Nat
  second : Nat

/-- `Format(time.RFC3339)` -/
def Instant.rfc3339 (t : Instant) : Bytes :=
  padded 4 t.year ++ [0x2D] ++ padded 2 t.month ++ [0x2D] ++ padded 2 t.day ++ [0x54] ++
    padded 2 t.hour ++ [0x3A] ++ padded 2 t.minute ++ [0x3A] ++ padded 2 t.second ++ [0x5A]

theorem padded_ascii (width n : Nat) : ∀ b ∈ padded width n, b.toNat < 0x80 := by
  intro b hb
  rcases List.mem_append.1 hb with hb | hb
  · rw [List.eq_of_mem_replicate hb]; decide
  · exact itoa_ascii n b hb

theorem valid_rfc3339 (t : Instant) : valid t.rfc3339 = true := by
  refine valid_ascii fun b hb => ?_
  simp only [Instant.rfc3339, List.mem_append, List.mem_singleton] at hb
  rcases hb with (((((((((((hb | rfl) | hb) | rfl) | hb) | rfl) | hb) | rfl) | hb) | rfl) | hb) | rfl) <;>
    first | exact padded_ascii _ _ b hb | decide

/-! ## Records -/

/-- `Entry`, one audit record. -/
structure Entry where
  timestamp : Bytes := []
  eventType : Bytes := []
  comm : Bytes := []
  detail : Bytes := []
  pid : UInt32 := 0
  threatScore : Int64 := 0
  tier : Bytes := []
  reason : Bytes := []
  actionTaken : Bytes := []
  prevHash : Bytes := []
  hash : Bytes := []
  deriving DecidableEq

/-- The struct tags of `Entry`. -/
def entryFields : List (Json.Field Entry) := [
  { name := lit "timestamp", kind := .string Entry.timestamp fun v e => { e with timestamp := v } },
  { name := lit "event_type", kind := .string Entry.eventType fun v e => { e with eventType := v } },
  { name := lit "comm", kind := .string Entry.comm fun v e => { e with comm := v } },
  { name := lit "detail", kind := .string Entry.detail fun v e => { e with detail := v } },
  { name := lit "pid", kind := .uint32 Entry.pid fun v e => { e with pid := v } },
  { name := lit "threat_score", kind := .int Entry.threatScore fun v e => { e with threatScore := v },
    omitEmpty := true },
  { name := lit "tier", kind := .string Entry.tier fun v e => { e with tier := v } },
  { name := lit "reason", kind := .string Entry.reason fun v e => { e with reason := v } },
  { name := lit "action_taken", kind := .string Entry.actionTaken fun v e => { e with actionTaken := v },
    omitEmpty := true },
  { name := lit "prev_hash", kind := .string Entry.prevHash fun v e => { e with prevHash := v } },
  { name := lit "hash", kind := .string Entry.hash fun v e => { e with hash := v } }]

theorem wellNamed_entryFields : WellNamed entryFields := by
  constructor
  · decide
  · decide

/-- `json.Marshal(e)` -/
def marshal (e : Entry) : Bytes := marshalStruct entryFields e

/-- `json.Unmarshal(line, &e)` into a zero `e`. -/
def unmarshal (line : Bytes) : Option Entry := unmarshalStruct entryFields {} line

/-- A record has the bytes of one line. -/
theorem newline_not_mem_marshal (e : Entry) : (0x0A : UInt8) ∉ marshal e := fun h =>
  absurd (marshalStruct_bytes entryFields e _ h) (by decide)

theorem marshal_ne_nil (e : Entry) : marshal e ≠ [] := marshalStruct_ne_nil _ e

/-- The record with its strings coerced to UTF-8. -/
def Entry.coerce (e : Entry) : Entry :=
  { timestamp := Utf8.coerce e.timestamp, eventType := Utf8.coerce e.eventType, comm := Utf8.coerce e.comm,
    detail := Utf8.coerce e.detail, pid := e.pid, threatScore := e.threatScore, tier := Utf8.coerce e.tier,
    reason := Utf8.coerce e.reason, actionTaken := Utf8.coerce e.actionTaken,
    prevHash := Utf8.coerce e.prevHash, hash := Utf8.coerce e.hash }

/-- A line read back is its record coerced. -/
theorem unmarshal_marshal (e : Entry) : unmarshal (marshal e) = some e.coerce := by
  rw [unmarshal, marshal, unmarshalStruct_marshalStruct wellNamed_entryFields]
  -- an omitted field is empty, which is what the zero record holds
  by_cases hs : e.threatScore = 0 <;> by_cases ha : e.actionTaken = [] <;>
    simp [entryFields, Kind.isEmpty, Kind.copy, Entry.coerce, hs, ha]

/-! ## The hash -/

/-- The operands of the `Sprintf` in `computeHash`. -/
def hashOperands (e : Entry) : List Bytes :=
  [e.timestamp, e.eventType, e.comm, e.detail, itoa e.pid.toNat, formatInt e.threatScore.toInt, e.tier,
    e.reason, e.actionTaken, e.prevHash]

/-- `raw` in `computeHash`. -/
def hashInput (e : Entry) : Bytes := [0x7C].intercalate (hashOperands e)

/-- `computeHash`: SHA-256 over the joined fields, in hex. -/
def computeHash (e : Entry) : Bytes := hex (sum256 (hashInput e))

theorem length_computeHash (e : Entry) : (computeHash e).length = 64 := by
  rw [computeHash, length_hex, length_sum256]

theorem computeHash_ascii (e : Entry) : ∀ b ∈ computeHash e, b.toNat < 0x80 := hex_ascii _

/-- The hash is not part of what is hashed. -/
theorem computeHash_congr {e f : Entry} (h : hashInput e = hashInput f) : computeHash e = computeHash f := by
  rw [computeHash, computeHash, h]

theorem computeHash_eq_iff {e f : Entry} :
    computeHash e = computeHash f ↔ sum256 (hashInput e) = sum256 (hashInput f) := by
  rw [computeHash, computeHash]
  exact ⟨fun h => hex_injective h, fun h => by rw [h]⟩

theorem coerce_intercalate (ss : List Bytes) :
    Utf8.coerce ([0x7C].intercalate ss) = [0x7C].intercalate (ss.map Utf8.coerce) := by
  match ss with
  | [] => rfl
  | [s] => simp
  | s :: t :: ss =>
    have ih := coerce_intercalate (t :: ss)
    simp only [List.intercalate_cons_cons, List.map_cons, List.append_assoc, List.singleton_append] at ih ⊢
    rw [coerce_append_ascii _ _ (by decide), ih]

theorem valid_intercalate (ss : List Bytes) :
    valid ([0x7C].intercalate ss) = true ↔ ∀ s ∈ ss, valid s = true := by
  match ss with
  | [] => simp
  | [s] => simp
  | s :: t :: ss =>
    have ih := valid_intercalate (t :: ss)
    simp only [List.intercalate_cons_cons, List.append_assoc, List.singleton_append] at ih ⊢
    rw [valid_append_ascii _ _ (by decide), Bool.and_eq_true, ih]
    simp

/-- Coercing a record coerces what is hashed. -/
theorem hashInput_coerce (e : Entry) : hashInput e.coerce = Utf8.coerce (hashInput e) := by
  rw [hashInput, hashInput, coerce_intercalate]
  simp [hashOperands, Entry.coerce, coerce_of_valid (valid_ascii (itoa_ascii _)),
    coerce_of_valid (valid_ascii (formatInt_ascii _))]

/-- The strings that are hashed. -/
def Entry.hashed (e : Entry) : List Bytes :=
  [e.timestamp, e.eventType, e.comm, e.detail, e.tier, e.reason, e.actionTaken, e.prevHash]

theorem valid_hashInput (e : Entry) : valid (hashInput e) = true ↔ ∀ s ∈ e.hashed, valid s = true := by
  rw [hashInput, valid_intercalate]
  simp [hashOperands, Entry.hashed, valid_ascii (itoa_ascii _), valid_ascii (formatInt_ascii _)]

theorem computeHash_coerce {e : Entry} (h : ∀ s ∈ e.hashed, valid s = true) :
    computeHash e.coerce = computeHash e :=
  computeHash_congr (by rw [hashInput_coerce, coerce_of_valid ((valid_hashInput e).2 h)])

end WatchBPF.Audit
