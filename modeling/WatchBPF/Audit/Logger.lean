/-
`Log` and `NewLogger`. The head of the chain is kept in memory, advanced before the file is written
and read back from the file on a restart; while no write fails the two agree, and the file is what
it was before with one line for each call.
-/
import WatchBPF.Audit.Verify
import WatchBPF.Lib.Mutex

namespace WatchBPF.Audit

open WatchBPF.HashChain WatchBPF.Numeral WatchBPF.Utf8 WatchBPF.Mutex

/-! ## Log -/

/-- The arguments of `Log`, and what it reads from the clock. -/
structure LogCall where
  now : Instant
  eventType : Bytes
  comm : Bytes
  detail : Bytes
  pid : UInt32
  threatScore : Int64
  tier : Bytes
  reason : Bytes
  actionTaken : Bytes

/-- What the file system does with a call. -/
inductive WriteResult
  | ok
  | openFailed
  /-- an error after some bytes of the line -/
  | writeFailed (n : Nat)
  deriving DecidableEq

/-- What `Log` can fail at. -/
inductive LogError
  | opening
  | writing
  deriving DecidableEq

/-- The text of the error; `cause` is that of the error of the file system. -/
def LogError.text (cause : Bytes) : LogError → Bytes
  | opening => lit "opening audit log: " ++ cause
  | writing => cause

/-- A logger and the file it writes; `none` is no file. -/
structure Logger where
  lastHash : Bytes
  file : Option Bytes

/-- The entry `Log` builds. -/
def newEntry (lastHash : Bytes) (c : LogCall) : Entry :=
  let e : Entry := { timestamp := c.now.rfc3339, eventType := c.eventType, comm := c.comm, detail := c.detail,
                     pid := c.pid, threatScore := c.threatScore, tier := c.tier, reason := c.reason,
                     actionTaken := c.actionTaken, prevHash := lastHash }
  { e with hash := computeHash e }

/-- `Log`. Marshalling an entry cannot fail. -/
def log (c : LogCall) (io : WriteResult) (l : Logger) : Option LogError × Logger :=
  let e := newEntry l.lastHash c
  let l := { l with lastHash := e.hash }
  let line := marshal e
  match io with
  | .openFailed => (some .opening, l)
  | .writeFailed n => (some .writing, { l with file := some (l.file.getD [] ++ line.take n) })
  | .ok => (none, { l with file := some (l.file.getD [] ++ line ++ [0x0A]) })

/-- `Log` under its mutex: the hash is advanced, then the file is opened, then it is written. -/
def logSection (c : LogCall) (io : WriteResult) : Prog Logger :=
  .act (fun l => { l with lastHash := (newEntry l.lastHash c).hash }) fun l =>
    let line := marshal (newEntry l.lastHash c)
    match io with
    | .openFailed => .done
    | .writeFailed n => .act (fun l => { l with file := some (l.file.getD []) }) fun _ =>
        .act (fun l => { l with file := some (l.file.getD [] ++ line.take n) }) fun _ => .done
    | .ok => .act (fun l => { l with file := some (l.file.getD []) }) fun _ =>
        .act (fun l => { l with file := some (l.file.getD [] ++ line ++ [0x0A]) }) fun _ => .done

@[simp] theorem logSection_run (c : LogCall) (io : WriteResult) (l : Logger) :
    (logSection c io).run l = (log c io l).2 := by
  cases io <;> rfl

/-- The hash is advanced whatever happens. -/
@[simp] theorem log_lastHash (c : LogCall) (io : WriteResult) (l : Logger) :
    (log c io l).2.lastHash = (newEntry l.lastHash c).hash := by
  cases io <;> rfl

/-- A call returns nil when its write succeeds. -/
theorem log_err (c : LogCall) (io : WriteResult) (l : Logger) : (log c io l).1 = none ↔ io = .ok := by
  cases io <;> simp [log]

/-! ## Restarts -/

/-- What `loadLastHash` leaves in `lastHash`. -/
def loadLastHash (file : Option Bytes) : Bytes :=
  match file with
  | none => genesis
  | some data =>
    if data = [] then genesis
    else if lastLine data = [] then genesis
    else match unmarshal (lastLine data) with
      | none => genesis
      | some e => if e.hash ≠ [] then e.hash else genesis

/-- `NewLogger` -/
def newLogger (file : Option Bytes) : Logger := ⟨loadLastHash file, file⟩

/-- Over a file whose records decode, each with a hash, the logger starts at the last hash. -/
theorem loadLastHash_of_decode {data : Bytes} {es : List Entry} (h : Decode (recordLines data) es)
    (hne : ∀ e ∈ es, e.hash ≠ []) : loadLastHash (some data) = tip chain genesis es := by
  have hll := lastLine_eq data
  have hmap := congrArg List.getLast? h
  rw [List.getLast?_map, List.getLast?_map] at hmap
  rw [tip_eq_getLast?, loadLastHash]
  cases hlast : (recordLines data).getLast? with
  | none =>
    rw [hlast, Option.map_none] at hmap
    have hes : es.getLast? = none := by simpa using hmap.symm
    simp [hll, hlast, hes]
  | some line =>
    rw [hlast, Option.map_some] at hmap
    obtain ⟨e, he, hue⟩ := Option.map_eq_some_iff.1 hmap.symm
    have hline : line ≠ [] := fun h0 => nil_not_mem_recordLines data (h0 ▸ List.mem_of_getLast? hlast)
    have hdata : data ≠ [] := by rintro rfl; simp [recordLines, splitLines, splitLinesFrom] at hlast
    simp [hll, hlast, hline, hdata, ← hue, he, hne e (List.mem_of_getLast? he)]

/-! ## The entries of a run -/

/-- The entries a run of calls builds. -/
def chainEntries (lastHash : Bytes) : List LogCall → List Entry
  | [] => []
  | c :: cs => newEntry lastHash c :: chainEntries (newEntry lastHash c).hash cs

/-- The entry has the call's arguments. -/
structure Records (e : Entry) (c : LogCall) : Prop where
  timestamp : e.timestamp = c.now.rfc3339
  eventType : e.eventType = c.eventType
  comm : e.comm = c.comm
  detail : e.detail = c.detail
  pid : e.pid = c.pid
  threatScore : e.threatScore = c.threatScore
  tier : e.tier = c.tier
  reason : e.reason = c.reason
  actionTaken : e.actionTaken = c.actionTaken

theorem newEntry_records (g : Bytes) (c : LogCall) : Records (newEntry g c) c :=
  ⟨rfl, rfl, rfl, rfl, rfl, rfl, rfl, rfl, rfl⟩

@[simp] theorem newEntry_prevHash (g : Bytes) (c : LogCall) : (newEntry g c).prevHash = g := rfl

/-- An entry carries the hash of its content. -/
theorem newEntry_hash (g : Bytes) (c : LogCall) : (newEntry g c).hash = computeHash (newEntry g c) := rfl

theorem chainEntries_append (g : Bytes) (cs ds : List LogCall) :
    chainEntries g (cs ++ ds) = chainEntries g cs ++ chainEntries (tip chain g (chainEntries g cs)) ds := by
  induction cs generalizing g with
  | nil => rfl
  | cons c cs ih => rw [List.cons_append, chainEntries, ih]; rfl

@[simp] theorem length_chainEntries (g : Bytes) (cs : List LogCall) : (chainEntries g cs).length = cs.length := by
  induction cs generalizing g with
  | nil => rfl
  | cons c cs ih => rw [chainEntries, List.length_cons, ih, List.length_cons]

theorem linked_chainEntries (g : Bytes) (cs : List LogCall) : Linked chain g (chainEntries g cs) := by
  induction cs generalizing g with
  | nil => trivial
  | cons c cs ih => exact ⟨rfl, ih _⟩

theorem sealed_chainEntries (g : Bytes) (cs : List LogCall) : Sealed chain (chainEntries g cs) := by
  induction cs generalizing g with
  | nil => simp [Sealed, chainEntries]
  | cons c cs ih => exact List.forall_mem_cons.2 ⟨rfl, ih _⟩

theorem chainEntries_records (g : Bytes) (cs : List LogCall) : List.Forall₂ Records (chainEntries g cs) cs := by
  induction cs generalizing g with
  | nil => exact .nil
  | cons c cs ih => exact .cons (newEntry_records g c) (ih _)

/-! ## Links -/

/-- A hash as `Log` and the verifier know them. -/
structure Digest (h : Bytes) : Prop where
  ascii : ∀ b ∈ h, b.toNat < 0x80
  noBar : (0x7C : UInt8) ∉ h
  length : h.length = 64

theorem digest_computeHash (e : Entry) : Digest (computeHash e) where
  ascii := computeHash_ascii e
  noBar h := by
    obtain ⟨d, hd, he⟩ := mem_hex h
    have := congrArg UInt8.toNat he
    rw [toNat_digit hd] at this
    split at this <;> simp at this <;> omega
  length := length_computeHash e

theorem newEntry_digest (g : Bytes) (c : LogCall) : Digest (newEntry g c).hash := digest_computeHash _

theorem Digest.ne_nil {h : Bytes} (hd : Digest h) : h ≠ [] := by
  rintro rfl; exact absurd hd.length (by decide)

theorem Digest.ne_genesis {h : Bytes} (hd : Digest h) : h ≠ genesis := by
  rintro rfl; exact absurd hd.length (by decide)

theorem Digest.coerce {h : Bytes} (hd : Digest h) : Utf8.coerce h = h := coerce_of_valid (valid_ascii hd.ascii)

/-- What an entry of a chain names as the hash before it. -/
def Link (h : Bytes) : Prop := h = genesis ∨ Digest h

theorem Link.valid {h : Bytes} (hl : Link h) : Utf8.valid h = true := by
  rcases hl with rfl | hd
  · decide
  · exact valid_ascii hd.ascii

theorem Link.noBar {h : Bytes} (hl : Link h) : (0x7C : UInt8) ∉ h := by
  rcases hl with rfl | hd
  · decide
  · exact hd.noBar

theorem sealed_digest {es : List Entry} (h : Sealed chain es) : ∀ e ∈ es, Digest e.hash := fun e he => by
  have := h e he
  rw [chain_digest, chain_link] at this
  exact this ▸ digest_computeHash e

theorem sealed_fresh (es : List Entry) : Fresh chain es := fun e _ => (digest_computeHash e).ne_genesis

theorem tip_link {es : List Entry} (h : ∀ e ∈ es, Digest e.hash) : ∀ {g : Bytes}, Link g → Link (tip chain g es) := by
  induction es with
  | nil => exact fun hg => hg
  | cons e es ih => exact fun _ => ih (fun f hf => h f (by simp [hf])) (.inr (h e (by simp)))

theorem linked_prev {es : List Entry} (h : ∀ e ∈ es, Digest e.hash) : ∀ {g : Bytes}, Link g →
    Linked chain g es → ∀ e ∈ es, Link e.prevHash := by
  induction es with
  | nil => simp
  | cons e es ih =>
    intro g hg hl
    refine List.forall_mem_cons.2 ⟨?_, ih (fun f hf => h f (by simp [hf])) (.inr (h e (by simp))) hl.2⟩
    rwa [show e.prevHash = g from hl.1]

theorem tip_coerce {es : List Entry} (h : ∀ e ∈ es, Digest e.hash) : ∀ {g : Bytes},
    tip chain g (es.map Entry.coerce) = tip chain g es := by
  induction es with
  | nil => intro; rfl
  | cons e es ih =>
    intro g
    have he : e.coerce.hash = e.hash := (h e (by simp)).coerce
    simp only [List.map_cons, tip, chain_link, he, ih fun f hf => h f (by simp [hf])]

/-- Coercing the entries of a chain leaves it linked. -/
theorem linked_coerce {es : List Entry} (h : ∀ e ∈ es, Digest e.hash) : ∀ {g : Bytes}, Link g →
    Linked chain g es → Linked chain g (es.map Entry.coerce) := by
  induction es with
  | nil => exact fun _ _ => trivial
  | cons e es ih =>
    intro g hg hl
    have he : e.coerce.hash = e.hash := (h e (by simp)).coerce
    refine ⟨?_, ?_⟩
    · show Utf8.coerce e.prevHash = g
      rw [show e.prevHash = g from hl.1, coerce_of_valid hg.valid]
    · rw [chain_link, he]
      exact ih (fun f hf => h f (by simp [hf])) (.inr (h e (by simp))) hl.2

end WatchBPF.Audit
