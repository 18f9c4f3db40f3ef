/-
What `readLoop` makes of a ring-buffer record: the three event structs as `binary.Read` fills them,
and the command name and detail text handed to `handleEvent`.
-/
import WatchBPF.Lib.NetIP
import WatchBPF.Baseline.Store

namespace WatchBPF.Agent

open WatchBPF.Net WatchBPF.Numeral WatchBPF.Baseline

/-! ## Records -/

/-- The three probes, by the label their events carry. -/
inductive Label
  | exec
  | openat
  | connect
  deriving DecidableEq

/-- The label that `main` gives the probe. -/
def Label.text : Label → Bytes
  | exec => lit "EXEC"
  | openat => lit "OPEN"
  | connect => lit "CONNECT"

/-- `execEvent`, as the probe lays it out. -/
structure ExecEvent where
  pid : UInt32
  uid : UInt32
  comm : Vector UInt8 16
  filename : Vector UInt8 256
  args : List (Vector UInt8 64)
  deriving DecidableEq

/-- `openEvent` -/
structure OpenEvent where
  pid : UInt32
  uid : UInt32
  comm : Vector UInt8 16
  filename : Vector UInt8 256
  deriving DecidableEq

/-- `connectEvent` -/
structure ConnectEvent where
  pid : UInt32
  uid : UInt32
  comm : Vector UInt8 16
  isIPv6 : UInt8
  ipv6Addr : Vector UInt8 16
  dstAddr : UInt32
  dstPort : UInt16
  deriving DecidableEq

/-- A record as one of the read loops decodes it. -/
inductive KernelRecord
  | exec (ev : ExecEvent)
  | openat (ev : OpenEvent)
  | connect (ev : ConnectEvent)
  deriving DecidableEq

/-! ## `binary.Read` -/

def readUint8 : Bytes → Option (UInt8 × Bytes)
  | b :: s => some (b, s)
  | [] => none

def readUint16 : Bytes → Option (UInt16 × Bytes)
  | b0 :: b1 :: s => some (UInt16.ofNat (b0.toNat + b1.toNat * 2 ^ 8), s)
  | _ => none

def readUint32 : Bytes → Option (UInt32 × Bytes)
  | b0 :: b1 :: b2 :: b3 :: s =>
    some (UInt32.ofNat (b0.toNat + b1.toNat * 2 ^ 8 + b2.toNat * 2 ^ 16 + b3.toNat * 2 ^ 24), s)
  | _ => none

def readArray (n : Nat) (s : Bytes) : Option (Vector UInt8 n × Bytes) :=
  if h : n ≤ s.length then some (⟨(s.take n).toArray, by simp [h]⟩, s.drop n) else none

def readArrays (n : Nat) : Nat → Bytes → Option (List (Vector UInt8 n) × Bytes)
  | 0, s => some ([], s)
  | k + 1, s => do
    let (a, s) ← readArray n s
    let (as, s) ← readArrays n k s
    some (a :: as, s)

def readExec (raw : Bytes) : Option ExecEvent := do
  let (pid, s) ← readUint32 raw
  let (uid, s) ← readUint32 s
  let (comm, s) ← readArray 16 s
  let (filename, s) ← readArray 256 s
  let (args, _) ← readArrays 64 4 s
  some { pid, uid, comm, filename, args }

def readOpen (raw : Bytes) : Option OpenEvent := do
  let (pid, s) ← readUint32 raw
  let (uid, s) ← readUint32 s
  let (comm, s) ← readArray 16 s
  let (filename, _) ← readArray 256 s
  some { pid, uid, comm, filename }

def readConnect (raw : Bytes) : Option ConnectEvent := do
  let (pid, s) ← readUint32 raw
  let (uid, s) ← readUint32 s
  let (comm, s) ← readArray 16 s
  let (isIPv6, s) ← readUint8 s
  let (ipv6Addr, s) ← readArray 16 s
  -- the padding before `DstAddr`
  let (_, s) ← readArray 3 s
  let (dstAddr, s) ← readUint32 s
  let (dstPort, _) ← readUint16 s
  some { pid, uid, comm, isIPv6, ipv6Addr, dstAddr, dstPort }

/-- A record is read as its read loop reads it. -/
def readRecord (label : Label) (raw : Bytes) : Option KernelRecord :=
  match label with
  | .exec => (readExec raw).map .exec
  | .openat => (readOpen raw).map .openat
  | .connect => (readConnect raw).map .connect

/-! ## Events -/

/-- The bytes up to the first NUL. -/
def cstr (b : Bytes) : Bytes := b.takeWhile (· ≠ 0)

/-- The arguments of `handleEvent`. -/
structure Event where
  label : Label
  comm : Bytes
  detail : Bytes
  pid : UInt32
  uid : UInt32
  deriving DecidableEq

/-- The file name, and the arguments there are. -/
def ExecEvent.detail (ev : ExecEvent) : Bytes :=
  let filename := cstr ev.filename.toList
  let argParts := (ev.args.map fun slot => cstr slot.toList).filter (· ≠ [])
  if argParts ≠ [] then filename ++ lit " " ++ (lit " ").intercalate argParts else filename

/-- `PutUint32` -/
def putUint32 (x : UInt32) : UInt8 × UInt8 × UInt8 × UInt8 :=
  (UInt8.ofNat (x.toNat % 2 ^ 8), UInt8.ofNat (x.toNat / 2 ^ 8 % 2 ^ 8), UInt8.ofNat (x.toNat / 2 ^ 16 % 2 ^ 8),
    UInt8.ofNat (x.toNat / 2 ^ 24))

/-- The address a connect event is about. -/
inductive Addr
  | v4 (octets : UInt8 × UInt8 × UInt8 × UInt8)
  | v6 (ip : Vector UInt8 16)
  deriving DecidableEq

/-- The two arms of the test of `IsIPv6`. -/
def ConnectEvent.addr (ev : ConnectEvent) : Addr :=
  if ev.isIPv6 = 1 then .v6 ev.ipv6Addr else .v4 (putUint32 ev.dstAddr)

/-- `ipStr` in `readLoop`. -/
def Addr.text : Addr → Bytes
  | v4 (a, b, c, d) => string4 a b c d
  | v6 ip => lit "[" ++ string16 ip.toList ++ lit "]"

/-- `fmt.Sprintf("%s:%d", ipStr, ev.DstPort)` -/
def ConnectEvent.detail (ev : ConnectEvent) : Bytes := ev.addr.text ++ lit ":" ++ itoa ev.dstPort.toNat

/-- What the read loop hands to `handleEvent`. -/
def KernelRecord.event : KernelRecord → Event
  | exec ev => { label := .exec, comm := cstr ev.comm.toList, detail := ev.detail, pid := ev.pid, uid := ev.uid }
  | openat ev =>
    { label := .openat, comm := cstr ev.comm.toList, detail := cstr ev.filename.toList, pid := ev.pid, uid := ev.uid }
  | connect ev => { label := .connect, comm := cstr ev.comm.toList, detail := ev.detail, pid := ev.pid, uid := ev.uid }

/-- What the baseline store knows an event by. -/
def Event.combination (ev : Event) : Combination := ⟨ev.label.text, ev.comm, ev.detail⟩

theorem label_text_injective : ∀ {k l : Label}, k.text = l.text → k = l := by
  intro k l
  cases k <;> cases l <;> decide

theorem bar_not_mem_label (l : Label) : (0x7C : UInt8) ∉ l.text := by cases l <;> decide

/-! ## Addresses -/

theorem putUint32_injective {x y : UInt32} (h : putUint32 x = putUint32 y) : x = y := by
  have hx := x.toNat_lt
  have hy := y.toNat_lt
  simp only [putUint32, Prod.mk.injEq, ← UInt8.toNat_inj, UInt8.toNat_ofNat'] at h
  refine UInt32.toNat_inj.1 ?_
  omega

theorem addr_text_injective {a b : Addr} (h : a.text = b.text) : a = b := by
  have hbracket : ∀ o : UInt8 × UInt8 × UInt8 × UInt8, ∀ ip : Vector UInt8 16,
      (Addr.v4 o).text ≠ (Addr.v6 ip).text := by
    rintro ⟨a, b, c, d⟩ ip h
    have hm : (0x5B : UInt8) ∈ string4 a b c d := by
      rw [show string4 a b c d = _ from h]
      exact List.mem_append_left _ (List.mem_append_left _ (by decide))
    exact absurd (string4_mem hm) (by decide)
  match a, b with
  | .v4 (a, b, c, d), .v4 (a', b', c', d') =>
    obtain ⟨rfl, rfl, rfl, rfl⟩ := string4_injective h
    rfl
  | .v4 o, .v6 ip => exact absurd h (hbracket o ip)
  | .v6 ip, .v4 o => exact absurd h.symm (hbracket o ip)
  | .v6 ip, .v6 ip' =>
    simp only [Addr.text, List.append_assoc, List.append_cancel_left_eq, List.append_cancel_right_eq] at h
    rw [Vector.toList_inj.1 (string16_injective (by simp) (by simp) h)]

end WatchBPF.Agent
