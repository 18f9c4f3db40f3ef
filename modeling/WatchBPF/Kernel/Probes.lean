/-
The three eBPF programs. Each takes a reserved piece of its ring buffer, fills it from the task that
entered the system call and from that task's memory, and submits it. How `bpf_probe_read_user_str`
leaves the bytes behind the NUL is a parameter.
-/
import WatchBPF.Lib.CStruct
import Mathlib.Data.List.TakeWhile

namespace WatchBPF.Kernel

open WatchBPF.CStruct

/-! ## Tasks -/

/-- A command name as the kernel keeps it, a C string in `TASK_COMM_LEN` bytes. -/
structure Comm where
  name : Bytes
  short : name.length ≤ 15
  nul_free : 0 ∉ name
  deriving DecidableEq

/-- The name that a task called `name` has. -/
def Comm.of (name : Bytes) : Comm where
  name := (name.take 15).takeWhile (· ≠ 0)
  short := (List.takeWhile_sublist _).length_le.trans (List.length_take_le _ _)
  nul_free := fun h => by simpa using List.mem_takeWhile_imp h

/-- The field that `bpf_get_current_comm` fills. -/
def Comm.field (c : Comm) : Vector UInt8 16 :=
  ⟨(c.name ++ List.replicate (16 - c.name.length) 0).toArray, by
    have := c.short
    simp
    omega⟩

/-- What the helpers tell of the task that makes the call. -/
structure Task where
  /-- `bpf_get_current_pid_tgid()` -/
  pidTgid : UInt64
  /-- `bpf_get_current_uid_gid()` -/
  uidGid : UInt64
  comm : Comm

def Task.pid (t : Task) : UInt32 := (t.pidTgid >>> 32).toUInt32

def Task.uid (t : Task) : UInt32 := (t.uidGid &&& 0xFFFFFFFF).toUInt32

/-! ## User memory -/

/-- The memory of a task; `none` where it cannot be read. -/
abbrev UserMem := UInt64 → Option UInt8

/-- The `n` bytes at `p`. -/
def readUser (mem : UserMem) : UInt64 → Nat → Option Bytes
  | _, 0 => some []
  | p, n + 1 => (mem p).bind fun b => (readUser mem (p + 1) n).map (b :: ·)

/-- `bpf_probe_read_user` of `n` bytes, which a fault leaves zero. -/
def probeReadUser (mem : UserMem) (p : UInt64) (n : Nat) : Bytes := (readUser mem p n).getD (List.replicate n 0)

/-- The string at `p` as far as the first `n` bytes show it. -/
def userStr (mem : UserMem) : UInt64 → Nat → Option Bytes
  | _, 0 => some []
  | p, n + 1 => (mem p).bind fun b => if b = 0 then some [] else (userStr mem (p + 1) n).map (b :: ·)

/-- What `bpf_probe_read_user_str` makes of the buffer it is given. -/
abbrev ReadStr := UserMem → UInt64 → Bytes → Bytes

/-- The documented behaviour: the string cut to fit with its NUL, with anything behind it; zeroes after a
fault. -/
structure ReadsStr (readStr : ReadStr) : Prop where
  length : ∀ mem p buf, (readStr mem p buf).length = buf.length
  text : ∀ mem p buf s, 0 < buf.length → userStr mem p buf.length = some s →
    s.take (buf.length - 1) ++ [0] <+: readStr mem p buf
  fault : ∀ mem p buf, userStr mem p buf.length = none → readStr mem p buf = List.replicate buf.length 0

/-- A read that writes only what it has to. -/
def probeReadUserStr : ReadStr := fun mem p buf =>
  match userStr mem p buf.length with
  | none => List.replicate buf.length 0
  | some s => ((s.take (buf.length - 1) ++ [0]) ++ buf.drop ((s.take (buf.length - 1)).length + 1)).take buf.length

theorem readsStr_probeReadUserStr : ReadsStr probeReadUserStr where
  length mem p buf := by
    unfold probeReadUserStr
    split
    · rw [List.length_replicate]
    · simp only [List.length_take, List.length_append, List.length_drop, List.length_singleton]
      omega
  text mem p buf s hpos hs := by
    unfold probeReadUserStr
    rw [hs]
    refine List.prefix_take_iff.2 ⟨List.prefix_append _ _, ?_⟩
    rw [List.length_append, List.length_take, List.length_singleton]
    omega
  fault mem p buf hs := by
    unfold probeReadUserStr
    rw [hs]

/-! ## Records -/

def u8 : CType := .uint 1
def u16 : CType := .uint 2
def u32 : CType := .uint 4

/-- `pid`, `uid`, `comm`, `filename`, `args` -/
def event : List CType := [u32, u32, .array 16 u8, .array 256 u8, .array 4 (.array 64 u8)]

/-- `pid`, `uid`, `comm`, `filename` -/
def openEvent : List CType := [u32, u32, .array 16 u8, .array 256 u8]

/-- `pid`, `uid`, `comm`, `is_ipv6`, `ipv6_addr`, `dst_addr`, `dst_port` -/
def connectEvent : List CType := [u32, u32, .array 16 u8, u8, .array 16 u8, u32, u16]

/-- `sin_family`, `sin_port`, `sin_addr`, `sin_zero` -/
def sockaddrIn : List CType := [u16, u16, u32, .array 8 u8]

/-- `sin6_family`, `sin6_port`, `sin6_flowinfo`, `sin6_addr`, `sin6_scope_id` -/
def sockaddrIn6 : List CType := [u16, u16, u32, .array 16 u8, u32]

/-! ## Programs -/

/-- What a program is entered with: the arguments of the system call, the task and its memory. -/
structure Ctx where
  args : Fin 6 → UInt64
  task : Task
  mem : UserMem

/-- The members that all records begin with. -/
def fillTask (ts : List CType) (task : Task) (e : Bytes) : Bytes :=
  let e := store (offsetOf ts 0) (le 4 task.pid.toNat) e
  let e := store (offsetOf ts 1) (le 4 task.uid.toNat) e
  store (offsetOf ts 2) task.comm.field.toList e

/-- `bpf_probe_read_user_str` into the `n` bytes of the record at `off`. -/
def fillStr (readStr : ReadStr) (mem : UserMem) (p : UInt64) (off n : Nat) (e : Bytes) : Bytes :=
  store off (readStr mem p (load off n e)) e

/-- The pointer `argv[i + 1]`, read into a variable that is `NULL`. -/
def argPtr (mem : UserMem) (argv : UInt64) (i : Nat) : UInt64 :=
  UInt64.ofNat (ofLE (probeReadUser mem (argv + UInt64.ofNat (8 * (i + 1))) 8))

/-- The unrolled loop over `argv`, from `i` on with `n` rounds left. -/
def fillArgs (readStr : ReadStr) (mem : UserMem) (argv : UInt64) : Nat → Nat → Bytes → Bytes
  | 0, _, e => e
  | n + 1, i, e =>
    if argPtr mem argv i = 0 then e
    else fillArgs readStr mem argv n (i + 1)
      (fillStr readStr mem (argPtr mem argv i) (offsetOf event 4 + 64 * i) 64 e)

/-- `handle_execve`, given what `bpf_ringbuf_reserve` returns; the record it submits. -/
def handleExecve (readStr : ReadStr) (ctx : Ctx) (reserved : Option Bytes) : Option Bytes :=
  reserved.map fun _ =>
    let e := List.replicate (structSize event) 0
    let e := fillTask event ctx.task e
    let e := fillStr readStr ctx.mem (ctx.args 0) (offsetOf event 3) 256 e
    fillArgs readStr ctx.mem (ctx.args 1) 4 0 e

/-- `handle_openat`; the record is not cleared. -/
def handleOpenat (readStr : ReadStr) (ctx : Ctx) (reserved : Option Bytes) : Option Bytes :=
  reserved.map fun e =>
    let e := fillTask openEvent ctx.task e
    fillStr readStr ctx.mem (ctx.args 1) (offsetOf openEvent 3) 256 e

/-- `__builtin_bswap16` -/
def bswap16 (x : UInt16) : UInt16 := UInt16.ofNat (x.toNat % 256 * 256 + x.toNat / 256)

def loadU16 (off : Nat) (s : Bytes) : UInt16 := UInt16.ofNat (ofLE (load off 2 s))

def loadU32 (off : Nat) (s : Bytes) : UInt32 := UInt32.ofNat (ofLE (load off 4 s))

/-- `handle_connect` -/
def handleConnect (ctx : Ctx) (reserved : Option Bytes) : Option Bytes :=
  let uservaddr := ctx.args 1
  let family := loadU16 0 (probeReadUser ctx.mem uservaddr 2)
  if family ≠ 2 ∧ family ≠ 10 then none
  else reserved.map fun _ =>
    let e := List.replicate (structSize connectEvent) 0
    let e := fillTask connectEvent ctx.task e
    if family = 2 then
      let addr := probeReadUser ctx.mem uservaddr (structSize sockaddrIn)
      let e := store (offsetOf connectEvent 3) [0] e
      let e := store (offsetOf connectEvent 5) (le 4 (loadU32 (offsetOf sockaddrIn 2) addr).toNat) e
      store (offsetOf connectEvent 6) (le 2 (bswap16 (loadU16 (offsetOf sockaddrIn 1) addr)).toNat) e
    else
      let addr6 := probeReadUser ctx.mem uservaddr (structSize sockaddrIn6)
      let e := store (offsetOf connectEvent 3) [1] e
      let e := store (offsetOf connectEvent 4) (load (offsetOf sockaddrIn6 3) 16 addr6) e
      store (offsetOf connectEvent 6) (le 2 (bswap16 (loadU16 (offsetOf sockaddrIn6 1) addr6)).toNat) e

end WatchBPF.Kernel
