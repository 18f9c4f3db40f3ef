/-
The records of the eBPF programs as the agent reads them. The Go structs lie where the C structs do,
so what a program stored is what `binary.Read` finds, and `cstr` stops before whatever was in the
buffer earlier.
-/
import WatchBPF.Agent.Events
import WatchBPF.Kernel.Probes

namespace WatchBPF.Agent

open WatchBPF.CStruct WatchBPF.Kernel

/-! ## Reading at an offset -/

section Read

variable {raw : Bytes} {off n : Nat}

theorem readUint8_at (h : off + 1 ≤ raw.length) :
    ∃ b, readUint8 (raw.drop off) = some (b, raw.drop (off + 1)) ∧ [b] = load off 1 raw := by
  rw [load, List.drop_eq_getElem_cons (by omega)]
  exact ⟨_, rfl, rfl⟩

theorem readUint16_at (h : off + 2 ≤ raw.length) :
    readUint16 (raw.drop off) = some (loadU16 off raw, raw.drop (off + 2)) := by
  rw [loadU16, load, List.drop_eq_getElem_cons (by omega), List.drop_eq_getElem_cons (i := off + 1) (by omega)]
  simp only [readUint16, List.take_succ_cons, List.take_zero, ofLE]
  congr 3
  omega

theorem readUint32_at (h : off + 4 ≤ raw.length) :
    readUint32 (raw.drop off) = some (loadU32 off raw, raw.drop (off + 4)) := by
  rw [loadU32, load, List.drop_eq_getElem_cons (by omega), List.drop_eq_getElem_cons (i := off + 1) (by omega),
    List.drop_eq_getElem_cons (i := off + 1 + 1) (by omega),
    List.drop_eq_getElem_cons (i := off + 1 + 1 + 1) (by omega)]
  simp only [readUint32, List.take_succ_cons, List.take_zero, ofLE]
  congr 3
  omega

theorem readArray_at (h : off + n ≤ raw.length) :
    ∃ v, readArray n (raw.drop off) = some (v, raw.drop (off + n)) ∧ v.toList = load off n raw := by
  have hn : n ≤ (raw.drop off).length := by
    rw [List.length_drop]
    omega
  rw [readArray, dif_pos hn, List.drop_drop]
  exact ⟨_, rfl, rfl⟩

theorem readArrays_at : ∀ {k off : Nat}, off + n * k ≤ raw.length →
    ∃ vs, readArrays n k (raw.drop off) = some (vs, raw.drop (off + n * k)) ∧
      vs.map (·.toList) = (List.range k).map fun i => load (off + n * i) n raw
  | 0, off, _ => ⟨[], rfl, rfl⟩
  | k + 1, off, h => by
    rw [Nat.mul_succ] at h
    obtain ⟨v, hv, hload⟩ := readArray_at (show off + n ≤ raw.length by omega)
    obtain ⟨vs, hvs, hloads⟩ := readArrays_at (show off + n + n * k ≤ raw.length by omega)
    refine ⟨v :: vs, ?_, ?_⟩
    · rw [readArrays, hv]
      simp only [Option.bind_eq_bind, Option.bind_some, hvs]
      rw [Nat.mul_succ, Nat.add_assoc, Nat.add_comm n]
    · rw [List.map_cons, hload, hloads, List.range_succ_eq_map, List.map_cons, List.map_map]
      congr 1
      refine List.map_congr_left fun i _ => ?_
      rw [Function.comp_apply, Nat.mul_succ, Nat.add_assoc, Nat.add_comm n]

end Read

/-! ## Strings -/

/-- What is left of the string at `p` in a slot for `cap` characters; nothing if it cannot be read. -/
def captureStr (mem : UserMem) (p : UInt64) (cap : Nat) : Bytes := ((userStr mem p (cap + 1)).getD []).take cap

/-- The memory has the C string `s` at `p`. -/
def HoldsStr (mem : UserMem) (p : UInt64) (s : Bytes) : Prop :=
  0 ∉ s ∧ readUser mem p (s.length + 1) = some (s ++ [0])

theorem nul_not_mem_userStr {mem : UserMem} : ∀ {n : Nat} {p : UInt64} {s : Bytes}, userStr mem p n = some s → 0 ∉ s
  | 0, p, s, h => by cases h; simp
  | n + 1, p, s, h => by
    obtain ⟨b, -, h⟩ := Option.bind_eq_some_iff.1 h
    split at h
    · cases h; simp
    · rename_i hb
      obtain ⟨t, ht, rfl⟩ := Option.map_eq_some_iff.1 h
      exact List.not_mem_cons_of_ne_of_not_mem (Ne.symm hb) (nul_not_mem_userStr ht)

theorem userStr_of_holds {mem : UserMem} : ∀ {s : Bytes} {p : UInt64}, HoldsStr mem p s → ∀ n,
    userStr mem p n = some (s.take n)
  | s, p, _, 0 => by rw [List.take_zero]; rfl
  | [], p, ⟨_, hr⟩, n + 1 => by
    obtain ⟨b, hb, hr⟩ := Option.bind_eq_some_iff.1 hr
    obtain ⟨t, -, ht⟩ := Option.map_eq_some_iff.1 hr
    rw [userStr, hb, Option.bind_some, if_pos (List.cons.inj ht).1, List.take_nil]
  | c :: s, p, ⟨hs, hr⟩, n + 1 => by
    obtain ⟨b, hb, hr⟩ := Option.bind_eq_some_iff.1 hr
    obtain ⟨t, ht, heq⟩ := Option.map_eq_some_iff.1 hr
    obtain ⟨rfl, rfl⟩ := List.cons.inj heq
    have hne : b ≠ 0 := fun h0 => hs (h0 ▸ List.mem_cons_self)
    have ih := userStr_of_holds (p := p + 1) ⟨fun h0 => hs (List.mem_cons_of_mem _ h0), ht⟩ n
    rw [userStr, hb, Option.bind_some, if_neg hne, ih, Option.map_some, List.take_succ_cons]

/-- A string that can be read is captured up to the capacity. -/
theorem captureStr_of_holds {mem : UserMem} {p : UInt64} {s : Bytes} (h : HoldsStr mem p s) (cap : Nat) :
    captureStr mem p cap = s.take cap := by
  rw [captureStr, userStr_of_holds h, Option.getD_some, List.take_take, Nat.min_eq_left (Nat.le_succ cap)]

theorem cstr_text {s b : Bytes} (hs : 0 ∉ s) (h : s ++ [0] <+: b) : cstr b = s := by
  obtain ⟨t, rfl⟩ := h
  rw [cstr, List.append_assoc, List.takeWhile_append_of_pos]
  · simp
  · intro c hc
    exact decide_eq_true fun h0 => hs (h0 ▸ hc)

theorem cstr_zeroes (n : Nat) : cstr (List.replicate n 0) = [] := by
  cases n <;> simp [cstr, List.replicate_succ]

theorem cstr_field (c : Comm) : cstr c.field.toList = c.name := by
  have hshort := c.short
  refine cstr_text c.nul_free ⟨List.replicate (15 - c.name.length) 0, ?_⟩
  rw [List.append_assoc, List.singleton_append, ← List.replicate_succ,
    show 15 - c.name.length + 1 = 16 - c.name.length by omega]
  rfl

/-- Whatever was in the buffer, the string is what is read back. -/
theorem cstr_readStr {readStr : ReadStr} (hr : ReadsStr readStr) (mem : UserMem) (p : UInt64) {buf : Bytes}
    {cap : Nat} (hb : buf.length = cap + 1) : cstr (readStr mem p buf) = captureStr mem p cap := by
  rw [captureStr]
  cases h : userStr mem p (cap + 1) with
  | none =>
    rw [hr.fault mem p buf (by rw [hb]; exact h), cstr_zeroes, Option.getD_none, List.take_nil]
  | some s =>
    have htext := hr.text mem p buf s (by omega) (by rw [hb]; exact h)
    rw [hb, Nat.add_sub_cancel] at htext
    exact cstr_text (fun h0 => nul_not_mem_userStr h (List.mem_of_mem_take h0)) htext

/-! ## Filling a record -/

section Fill

variable {ts : List CType} {e : Bytes} {readStr : ReadStr} {off n : Nat}

/-- Where every record begins. -/
def Headed (ts : List CType) : Prop := offsetOf ts 0 = 0 ∧ offsetOf ts 1 = 4 ∧ offsetOf ts 2 = 8

instance (ts : List CType) : Decidable (Headed ts) := inferInstanceAs (Decidable (_ ∧ _ ∧ _))

theorem fillTask_spec (task : Task) (ht : Headed ts) (he : 24 ≤ e.length) :
    (fillTask ts task e).length = e.length ∧ load 0 4 (fillTask ts task e) = le 4 task.pid.toNat ∧
      load 4 4 (fillTask ts task e) = le 4 task.uid.toNat ∧
      load 8 16 (fillTask ts task e) = task.comm.field.toList ∧
      ∀ off n, 24 ≤ off → load off n (fillTask ts task e) = load off n e := by
  obtain ⟨h0, h1, h2⟩ := ht
  have hpid : (le 4 task.pid.toNat).length = 4 := length_le _ _
  have huid : (le 4 task.uid.toNat).length = 4 := length_le _ _
  have hcomm : task.comm.field.toList.length = 16 := by simp
  simp only [fillTask, h0, h1, h2]
  generalize le 4 task.pid.toNat = pid at *
  generalize le 4 task.uid.toNat = uid at *
  generalize task.comm.field.toList = comm at *
  have l₁ : (store 0 pid e).length = e.length := length_store (by omega)
  have l₂ : (store 4 uid (store 0 pid e)).length = e.length := (length_store (by omega)).trans l₁
  have l₃ : (store 8 comm (store 4 uid (store 0 pid e))).length = e.length := (length_store (by omega)).trans l₂
  refine ⟨l₃, ?_, ?_, load_store hcomm (by omega), fun off n ho => ?_⟩
  · rw [load_store_of_disjoint (by omega) (by omega), load_store_of_disjoint (by omega) (by omega),
      load_store hpid (by omega)]
  · rw [load_store_of_disjoint (by omega) (by omega), load_store huid (by omega)]
  · rw [load_store_of_disjoint (by omega) (by omega), load_store_of_disjoint (by omega) (by omega),
      load_store_of_disjoint (by omega) (by omega)]

theorem fillStr_spec (hr : ReadsStr readStr) (mem : UserMem) (p : UInt64) (he : off + n ≤ e.length) :
    (fillStr readStr mem p off n e).length = e.length ∧
      load off n (fillStr readStr mem p off n e) = readStr mem p (load off n e) ∧
      ∀ off' n', off' + n' ≤ off ∨ off + n ≤ off' →
        load off' n' (fillStr readStr mem p off n e) = load off' n' e := by
  have hlen : (readStr mem p (load off n e)).length = n := (hr.length _ _ _).trans (length_load he)
  unfold fillStr
  refine ⟨length_store (by omega), load_store hlen he, fun off' n' hd => ?_⟩
  exact load_store_of_disjoint (by omega) (by omega)

/-- What the loop over `argv` leaves in the slots from `i` on. -/
def argSlots (mem : UserMem) (argv : UInt64) : Nat → Nat → List Bytes
  | 0, _ => []
  | n + 1, i =>
    if argPtr mem argv i = 0 then List.replicate (n + 1) []
    else captureStr mem (argPtr mem argv i) 63 :: argSlots mem argv n (i + 1)

theorem fillArgs_spec (hr : ReadsStr readStr) (mem : UserMem) (argv : UInt64) :
    ∀ {n i : Nat} {e : Bytes}, 280 + 64 * (i + n) ≤ e.length →
    (fillArgs readStr mem argv n i e).length = e.length ∧
      (∀ off' n', off' + n' ≤ 280 + 64 * i → load off' n' (fillArgs readStr mem argv n i e) = load off' n' e) ∧
      ((∀ k, i ≤ k → k < i + n → cstr (load (280 + 64 * k) 64 e) = []) →
        (List.range' i n).map (fun k => cstr (load (280 + 64 * k) 64 (fillArgs readStr mem argv n i e))) =
          argSlots mem argv n i)
  | 0, i, e, _ => ⟨rfl, fun _ _ _ => rfl, fun _ => rfl⟩
  | n + 1, i, e, he => by
    rw [fillArgs, argSlots]
    split
    · -- the array has ended: the slots stay as they are
      refine ⟨rfl, fun _ _ _ => rfl, fun hz => ?_⟩
      rw [List.map_congr_left (g := fun _ => ([] : Bytes)) fun k hk => ?_, List.map_const', List.length_range']
      obtain ⟨hlo, hhi⟩ := List.mem_range'_1.1 hk
      exact hz k hlo hhi
    · have hoff : offsetOf event 4 = 280 := rfl
      obtain ⟨hlen, hslot, hrest⟩ := fillStr_spec hr mem (argPtr mem argv i)
        (show 280 + 64 * i + 64 ≤ e.length by omega)
      rw [hoff]
      generalize hfill : fillStr readStr mem (argPtr mem argv i) (280 + 64 * i) 64 e = e' at *
      obtain ⟨hlen', hbelow, hslots⟩ := fillArgs_spec hr mem argv
        (show 280 + 64 * (i + 1 + n) ≤ e'.length by omega)
      refine ⟨hlen'.trans hlen, fun off' n' h => ?_, fun hz => ?_⟩
      · rw [hbelow off' n' (by omega), hrest off' n' (.inl h)]
      · rw [List.range'_succ, List.map_cons, hslots fun k hlo hhi => ?_, hbelow _ _ (by omega), hslot,
          cstr_readStr hr _ _ (length_load (by omega))]
        rw [hrest _ _ (.inr (by omega))]
        exact hz k (by omega) (by omega)

end Fill

/-! ## Decoding -/

variable {readStr : ReadStr} {ctx : Ctx} {prior raw : Bytes}

theorem toUInt32_le (x : UInt32) : UInt32.ofNat (ofLE (le 4 x.toNat)) = x := by
  have hx := x.toNat_lt
  rw [ofLE_le, Nat.mod_eq_of_lt (by omega), UInt32.ofNat_toNat]

/-- The members every record begins with, decoded. -/
structure Head (ctx : Ctx) (pid uid : UInt32) (comm : Vector UInt8 16) : Prop where
  pid : pid = ctx.task.pid
  uid : uid = ctx.task.uid
  comm : cstr comm.toList = ctx.task.comm.name

/-- What is written behind the head leaves it as it was filled. -/
theorem head_of_kept {e : Bytes} {comm : Vector UInt8 16}
    (hkept : ∀ off n, off + n ≤ 24 → load off n raw = load off n e) (hpid : load 0 4 e = le 4 ctx.task.pid.toNat)
    (huid : load 4 4 e = le 4 ctx.task.uid.toNat) (hcomm : load 8 16 e = ctx.task.comm.field.toList)
    (hc : comm.toList = load 8 16 raw) : Head ctx (loadU32 0 raw) (loadU32 4 raw) comm := by
  constructor
  · rw [loadU32, hkept 0 4 (by omega), hpid, toUInt32_le]
  · rw [loadU32, hkept 4 4 (by omega), huid, toUInt32_le]
  · rw [hc, hkept 8 16 (by omega), hcomm, cstr_field]

/-- The members that every record begins with are read alike. -/
theorem readHead_load (h : 24 ≤ raw.length) :
    readUint32 raw = some (loadU32 0 raw, raw.drop 4) ∧
      readUint32 (raw.drop 4) = some (loadU32 4 raw, raw.drop 8) ∧
      ∃ comm, readArray 16 (raw.drop 8) = some (comm, raw.drop 24) ∧ comm.toList = load 8 16 raw := by
  refine ⟨?_, ?_, ?_⟩
  · exact readUint32_at (show 0 + 4 ≤ raw.length by omega)
  · exact readUint32_at (show 4 + 4 ≤ raw.length by omega)
  · exact readArray_at (show 8 + 16 ≤ raw.length by omega)

theorem readExec_load (h : 536 ≤ raw.length) :
    ∃ ev, readExec raw = some ev ∧ ev.pid = loadU32 0 raw ∧ ev.uid = loadU32 4 raw ∧
      ev.comm.toList = load 8 16 raw ∧ ev.filename.toList = load 24 256 raw ∧
      ev.args.map (·.toList) = (List.range 4).map fun i => load (280 + 64 * i) 64 raw := by
  obtain ⟨hpid, huid, comm, hcomm, hc⟩ := readHead_load (show 24 ≤ raw.length by omega)
  obtain ⟨filename, hfilename, hf⟩ := readArray_at (show 24 + 256 ≤ raw.length by omega)
  obtain ⟨args, hargs, ha⟩ := readArrays_at (show 280 + 64 * 4 ≤ raw.length by omega)
  refine ⟨⟨loadU32 0 raw, loadU32 4 raw, comm, filename, args⟩, ?_, rfl, rfl, hc, hf, ha⟩
  simp only [readExec, hpid, huid, hcomm, hfilename, hargs, Option.bind_eq_bind, Option.bind_some]

theorem readOpen_load (h : 280 ≤ raw.length) :
    ∃ ev, readOpen raw = some ev ∧ ev.pid = loadU32 0 raw ∧ ev.uid = loadU32 4 raw ∧
      ev.comm.toList = load 8 16 raw ∧ ev.filename.toList = load 24 256 raw := by
  obtain ⟨hpid, huid, comm, hcomm, hc⟩ := readHead_load (show 24 ≤ raw.length by omega)
  obtain ⟨filename, hfilename, hf⟩ := readArray_at (show 24 + 256 ≤ raw.length by omega)
  refine ⟨⟨loadU32 0 raw, loadU32 4 raw, comm, filename⟩, ?_, rfl, rfl, hc, hf⟩
  simp only [readOpen, hpid, huid, hcomm, hfilename, Option.bind_eq_bind, Option.bind_some]

theorem readConnect_load (h : 50 ≤ raw.length) :
    ∃ ev, readConnect raw = some ev ∧ ev.pid = loadU32 0 raw ∧ ev.uid = loadU32 4 raw ∧
      ev.comm.toList = load 8 16 raw ∧ [ev.isIPv6] = load 24 1 raw ∧ ev.ipv6Addr.toList = load 25 16 raw ∧
      ev.dstAddr = loadU32 44 raw ∧ ev.dstPort = loadU16 48 raw := by
  obtain ⟨hpid, huid, comm, hcomm, hc⟩ := readHead_load (show 24 ≤ raw.length by omega)
  obtain ⟨isIPv6, hisIPv6, hi⟩ := readUint8_at (show 24 + 1 ≤ raw.length by omega)
  obtain ⟨ipv6Addr, hipv6Addr, ha⟩ := readArray_at (show 25 + 16 ≤ raw.length by omega)
  obtain ⟨pad, hpad, -⟩ := readArray_at (show 41 + 3 ≤ raw.length by omega)
  have hdstAddr := readUint32_at (show 44 + 4 ≤ raw.length by omega)
  have hdstPort := readUint16_at (show 48 + 2 ≤ raw.length by omega)
  refine ⟨⟨loadU32 0 raw, loadU32 4 raw, comm, isIPv6, ipv6Addr, loadU32 44 raw, loadU16 48 raw⟩, ?_, rfl, rfl,
    hc, hi, ha, rfl, rfl⟩
  simp only [readConnect, hpid, huid, hcomm, hisIPv6, hipv6Addr, hpad, hdstAddr, hdstPort, Option.bind_eq_bind,
    Option.bind_some]

/-- An `execve` record is read as it was filled. -/
theorem decode_execve (hr : ReadsStr readStr) (ctx : Ctx) (prior : Bytes) :
    ∃ raw ev, handleExecve readStr ctx (some prior) = some raw ∧ readRecord .exec raw = some (.exec ev) ∧
      Head ctx ev.pid ev.uid ev.comm ∧ cstr ev.filename.toList = captureStr ctx.mem (ctx.args 0) 255 ∧
      ev.args.map (fun slot => cstr slot.toList) = argSlots ctx.mem (ctx.args 1) 4 0 := by
  have hsize : (List.replicate (structSize event) (0 : UInt8)).length = 536 := List.length_replicate
  have hzero : ∀ off n, off + n ≤ 536 →
      load off n (List.replicate (structSize event) (0 : UInt8)) = List.replicate n 0 :=
    fun off n h => load_replicate h 0
  have hoff : offsetOf event 3 = 24 := rfl
  simp only [handleExecve, Option.map_some, Option.some.injEq, hoff]
  generalize List.replicate (structSize event) (0 : UInt8) = e at *
  obtain ⟨l₁, hpid, huid, hcomm, h₁⟩ := fillTask_spec ctx.task (show Headed event by decide)
    (show 24 ≤ e.length by omega)
  generalize fillTask event ctx.task e = e₁ at *
  obtain ⟨l₂, hname, h₂⟩ := fillStr_spec hr ctx.mem (ctx.args 0) (show 24 + 256 ≤ e₁.length by omega)
  generalize fillStr readStr ctx.mem (ctx.args 0) 24 256 e₁ = e₂ at *
  obtain ⟨l₃, h₃, hslots⟩ := fillArgs_spec hr ctx.mem (ctx.args 1) (show 280 + 64 * (0 + 4) ≤ e₂.length by omega)
  generalize fillArgs readStr ctx.mem (ctx.args 1) 4 0 e₂ = e₃ at *
  obtain ⟨ev, hev, rpid, ruid, rcomm, rname, rargs⟩ := readExec_load (show 536 ≤ e₃.length by omega)
  refine ⟨e₃, ev, rfl, by rw [readRecord, hev]; rfl, ?_, ?_, ?_⟩
  · rw [rpid, ruid]
    refine head_of_kept (fun off n h => ?_) hpid huid hcomm rcomm
    rw [h₃ _ _ (by omega), h₂ _ _ (.inl h)]
  · rw [rname, h₃ _ _ (by omega), hname]
    exact cstr_readStr hr _ _ (length_load (by omega))
  · rw [← hslots fun k _ hk => ?_, ← List.range_eq_range']
    · have hmap : (ev.args.map fun slot => cstr slot.toList) = (ev.args.map (·.toList)).map cstr := by
        rw [List.map_map]
        rfl
      rw [hmap, rargs, List.map_map]
      rfl
    · rw [h₂ _ _ (.inr (by omega)), h₁ _ _ (by omega), hzero _ _ (by omega), cstr_zeroes]

/-- An `openat` record is read as it was filled, whatever the buffer held. -/
theorem decode_openat (hr : ReadsStr readStr) (ctx : Ctx) {prior : Bytes}
    (hp : prior.length = structSize openEvent) :
    ∃ raw ev, handleOpenat readStr ctx (some prior) = some raw ∧ readRecord .openat raw = some (.openat ev) ∧
      Head ctx ev.pid ev.uid ev.comm ∧ cstr ev.filename.toList = captureStr ctx.mem (ctx.args 1) 255 := by
  have hsize : prior.length = 280 := hp
  have hoff : offsetOf openEvent 3 = 24 := rfl
  simp only [handleOpenat, Option.map_some, Option.some.injEq, hoff]
  obtain ⟨l₁, hpid, huid, hcomm, h₁⟩ := fillTask_spec ctx.task (show Headed openEvent by decide)
    (show 24 ≤ prior.length by omega)
  generalize fillTask openEvent ctx.task prior = e₁ at *
  obtain ⟨l₂, hname, h₂⟩ := fillStr_spec hr ctx.mem (ctx.args 1) (show 24 + 256 ≤ e₁.length by omega)
  generalize fillStr readStr ctx.mem (ctx.args 1) 24 256 e₁ = e₂ at *
  obtain ⟨ev, hev, rpid, ruid, rcomm, rname⟩ := readOpen_load (show 280 ≤ e₂.length by omega)
  refine ⟨e₂, ev, rfl, by rw [readRecord, hev]; rfl, ?_, ?_⟩
  · rw [rpid, ruid]
    exact head_of_kept (fun off n h => h₂ off n (.inl h)) hpid huid hcomm rcomm
  · rw [rname, hname]
    exact cstr_readStr hr _ _ (length_load (by omega))

/-! ## Socket addresses -/

/-- A socket address that `connect` is called with. -/
inductive SockAddr
  | inet (port : UInt16) (addr : UInt8 × UInt8 × UInt8 × UInt8) (zero : Vector UInt8 8)
  | inet6 (port : UInt16) (flowinfo : Vector UInt8 4) (addr : Vector UInt8 16) (scopeId : Vector UInt8 4)

namespace SockAddr

/-- Network byte order. -/
def portBytes (port : UInt16) : Bytes := [UInt8.ofNat (port.toNat / 256), UInt8.ofNat (port.toNat % 256)]

/-- The address in memory. -/
def bytes : SockAddr → Bytes
  | inet port (a, b, c, d) zero => le 2 2 ++ portBytes port ++ [a, b, c, d] ++ zero.toList
  | inet6 port flowinfo addr scopeId =>
    le 2 10 ++ portBytes port ++ flowinfo.toList ++ addr.toList ++ scopeId.toList

def port : SockAddr → UInt16
  | inet port _ _ | inet6 port _ _ _ => port

def addr : SockAddr → Addr
  | inet _ addr _ => .v4 addr
  | inet6 _ _ addr _ => .v6 addr

end SockAddr

theorem readUser_take {mem : UserMem} : ∀ {n : Nat} {p : UInt64} {bs : Bytes}, readUser mem p n = some bs →
    ∀ {k}, k ≤ n → readUser mem p k = some (bs.take k)
  | n, p, bs, _, 0, _ => by rw [List.take_zero]; rfl
  | n + 1, p, bs, h, k + 1, hk => by
    obtain ⟨b, hb, h⟩ := Option.bind_eq_some_iff.1 h
    obtain ⟨t, ht, rfl⟩ := Option.map_eq_some_iff.1 h
    rw [readUser, hb, Option.bind_some, readUser_take ht (by omega), Option.map_some, List.take_succ_cons]

/-- The port comes out in host byte order. -/
theorem bswap16_loadU16 {off : Nat} {s : Bytes} {port : UInt16} (h : load off 2 s = SockAddr.portBytes port) :
    bswap16 (loadU16 off s) = port := by
  have hp := port.toNat_lt
  have hhi : (UInt8.ofNat (port.toNat / 256)).toNat = port.toNat / 256 := by
    rw [UInt8.toNat_ofNat']
    omega
  have hlo : (UInt8.ofNat (port.toNat % 256)).toNat = port.toNat % 256 := by
    rw [UInt8.toNat_ofNat']
    omega
  have hread : (port.toNat / 256 + 256 * (port.toNat % 256 + 256 * 0)) % 2 ^ 16 =
      port.toNat / 256 + 256 * (port.toNat % 256) := Nat.mod_eq_of_lt (by omega)
  have hmod : (port.toNat / 256 + 256 * (port.toNat % 256)) % 256 = port.toNat / 256 := by omega
  have hdiv : (port.toNat / 256 + 256 * (port.toNat % 256)) / 256 = port.toNat % 256 := by omega
  rw [loadU16, h, SockAddr.portBytes, ofLE, ofLE, ofLE, hhi, hlo, bswap16, ← UInt16.toNat_inj,
    UInt16.toNat_ofNat', UInt16.toNat_ofNat', hread, hmod, hdiv]
  omega

theorem loadU16_le {off : Nat} {s : Bytes} {x : UInt16} (h : load off 2 s = le 2 x.toNat) : loadU16 off s = x := by
  have hx := x.toNat_lt
  rw [loadU16, h, ofLE_le, Nat.mod_eq_of_lt (by omega), UInt16.ofNat_toNat]

theorem le_loadU32 {off : Nat} {s : Bytes} {a b c d : UInt8} (h : load off 4 s = [a, b, c, d]) :
    le 4 (loadU32 off s).toNat = [a, b, c, d] := by
  have ha := a.toNat_lt
  have hb := b.toNat_lt
  have hc := c.toNat_lt
  have hd := d.toNat_lt
  rw [loadU32, h, UInt32.toNat_ofNat', Nat.mod_eq_of_lt (by simp only [ofLE]; omega)]
  exact le_ofLE [a, b, c, d]

/-- The octets of an IPv4 address come out in network order. -/
theorem putUint32_loadU32 {off : Nat} {s : Bytes} {a b c d : UInt8} (h : load off 4 s = [a, b, c, d]) :
    putUint32 (loadU32 off s) = (a, b, c, d) := by
  have ha := a.toNat_lt
  have hb := b.toNat_lt
  have hc := c.toNat_lt
  have hd := d.toNat_lt
  simp only [putUint32, loadU32, h, ofLE, Prod.mk.injEq, ← UInt8.toNat_inj, UInt8.toNat_ofNat', UInt32.toNat_ofNat']
  omega

section Connect

variable {port : UInt16}

theorem handleConnect_inet {a b c d : UInt8} {zero : Vector UInt8 8}
    (hsa : readUser ctx.mem (ctx.args 1) 16 = some (SockAddr.inet port (a, b, c, d) zero).bytes) :
    handleConnect ctx (some prior) = some (store 48 (le 2 port.toNat) (store 44 [a, b, c, d]
      (store 24 [0] (fillTask connectEvent ctx.task (List.replicate 52 0))))) := by
  have hfamily : probeReadUser ctx.mem (ctx.args 1) 2 = [2, 0] := by
    rw [probeReadUser, readUser_take hsa (by decide)]
    rfl
  have haddr : probeReadUser ctx.mem (ctx.args 1) (structSize sockaddrIn) = _ := congrArg (Option.getD · _) hsa
  have hport : bswap16 (loadU16 (offsetOf sockaddrIn 1) (SockAddr.inet port (a, b, c, d) zero).bytes) = port :=
    bswap16_loadU16 rfl
  have hdst : le 4 (loadU32 (offsetOf sockaddrIn 2) (SockAddr.inet port (a, b, c, d) zero).bytes).toNat =
      [a, b, c, d] := le_loadU32 rfl
  simp only [handleConnect, hfamily, haddr, Option.getD_some]
  rw [if_neg (by decide), Option.map_some, if_pos (by decide), hport, hdst]
  rfl

theorem handleConnect_inet6 {flowinfo : Vector UInt8 4} {addr : Vector UInt8 16} {scopeId : Vector UInt8 4}
    (hsa : readUser ctx.mem (ctx.args 1) 28 = some (SockAddr.inet6 port flowinfo addr scopeId).bytes) :
    handleConnect ctx (some prior) = some (store 48 (le 2 port.toNat) (store 25 addr.toList
      (store 24 [1] (fillTask connectEvent ctx.task (List.replicate 52 0))))) := by
  have hfamily : probeReadUser ctx.mem (ctx.args 1) 2 = [10, 0] := by
    rw [probeReadUser, readUser_take hsa (by decide)]
    rfl
  have haddr : probeReadUser ctx.mem (ctx.args 1) (structSize sockaddrIn6) = _ := congrArg (Option.getD · _) hsa
  have hport : bswap16 (loadU16 (offsetOf sockaddrIn6 1) (SockAddr.inet6 port flowinfo addr scopeId).bytes) = port :=
    bswap16_loadU16 rfl
  have hload : load (offsetOf sockaddrIn6 3) 16 (SockAddr.inet6 port flowinfo addr scopeId).bytes = addr.toList := by
    show load 8 16 _ = _
    simp [SockAddr.bytes, load, le, SockAddr.portBytes]
  simp only [handleConnect, hfamily, haddr, Option.getD_some]
  rw [if_neg (by decide), Option.map_some, if_neg (by decide), hport, hload]
  rfl

/-- The members that only connect records have, stored behind the others. -/
theorem stores_spec (flag : UInt8) {e bs p : Bytes} {off n : Nat} (he : e.length = 52) (hbs : bs.length = n)
    (hp : p.length = 2) (hlo : 25 ≤ off) (hhi : off + n ≤ 48) :
    let r := store 48 p (store off bs (store 24 [flag] e))
    r.length = 52 ∧ (∀ off' n', off' + n' ≤ 24 → load off' n' r = load off' n' e) ∧ load 24 1 r = [flag] ∧
      load off n r = bs ∧ load 48 2 r = p := by
  intro r
  have hflag : [flag].length = 1 := rfl
  have l₁ : (store 24 [flag] e).length = 52 := (length_store (by omega)).trans he
  have l₂ : (store off bs (store 24 [flag] e)).length = 52 := (length_store (by omega)).trans l₁
  have l₃ : r.length = 52 := (length_store (by omega)).trans l₂
  refine ⟨l₃, fun off' n' h => ?_, ?_, ?_, load_store hp (by omega)⟩
  · rw [load_store_of_disjoint (by omega) (by omega), load_store_of_disjoint (by omega) (by omega),
      load_store_of_disjoint (by omega) (by omega)]
  · rw [load_store_of_disjoint (by omega) (by omega), load_store_of_disjoint (by omega) (by omega),
      load_store hflag (by omega)]
  · rw [load_store_of_disjoint (by omega) (by omega), load_store hbs (by omega)]

end Connect

/-- A `connect` record is read as the socket address it was filled from. -/
theorem decode_connect (ctx : Ctx) (prior : Bytes) {sa : SockAddr}
    (hsa : readUser ctx.mem (ctx.args 1) sa.bytes.length = some sa.bytes) :
    ∃ raw ev, handleConnect ctx (some prior) = some raw ∧ readRecord .connect raw = some (.connect ev) ∧
      Head ctx ev.pid ev.uid ev.comm ∧ ev.addr = sa.addr ∧ ev.dstPort = sa.port := by
  have hsize : (List.replicate 52 (0 : UInt8)).length = 52 := List.length_replicate
  obtain ⟨l₁, hpid, huid, hcomm, -⟩ := fillTask_spec ctx.task (show Headed connectEvent by decide)
    (show 24 ≤ (List.replicate 52 (0 : UInt8)).length by omega)
  rw [hsize] at l₁
  cases sa with
  | inet port addr zero =>
    obtain ⟨a, b, c, d⟩ := addr
    have hlen : (SockAddr.inet port (a, b, c, d) zero).bytes.length = 16 := by
      simp [SockAddr.bytes, SockAddr.portBytes]
    obtain ⟨hr, hhead, hflag, haddr, hport⟩ := stores_spec 0 l₁ (show [a, b, c, d].length = 4 from rfl)
      (length_le 2 port.toNat) (show 25 ≤ 44 by omega) (by omega)
    rw [handleConnect_inet (hlen ▸ hsa)]
    generalize store 48 _ _ = raw at *
    obtain ⟨ev, hev, rpid, ruid, rcomm, ris, -, rdst, rport⟩ := readConnect_load (show 50 ≤ raw.length by omega)
    refine ⟨raw, ev, rfl, by rw [readRecord, hev]; rfl, ?_, ?_, ?_⟩
    · rw [rpid, ruid]
      exact head_of_kept hhead hpid huid hcomm rcomm
    · have hv4 : ev.isIPv6 = 0 := List.singleton_inj.1 (ris.trans hflag)
      rw [ConnectEvent.addr, hv4, if_neg (by decide), rdst, putUint32_loadU32 haddr]
      rfl
    · rw [rport, loadU16_le hport]
      rfl
  | inet6 port flowinfo addr scopeId =>
    have hlen : (SockAddr.inet6 port flowinfo addr scopeId).bytes.length = 28 := by
      simp [SockAddr.bytes, SockAddr.portBytes]
    obtain ⟨hr, hhead, hflag, haddr, hport⟩ := stores_spec 1 l₁ (show addr.toList.length = 16 by simp)
      (length_le 2 port.toNat) (show 25 ≤ 25 by omega) (by omega)
    rw [handleConnect_inet6 (hlen ▸ hsa)]
    generalize store 48 _ _ = raw at *
    obtain ⟨ev, hev, rpid, ruid, rcomm, ris, rip, -, rport⟩ := readConnect_load (show 50 ≤ raw.length by omega)
    refine ⟨raw, ev, rfl, by rw [readRecord, hev]; rfl, ?_, ?_, ?_⟩
    · rw [rpid, ruid]
      exact head_of_kept hhead hpid huid hcomm rcomm
    · have hv6 : ev.isIPv6 = 1 := List.singleton_inj.1 (ris.trans hflag)
      rw [ConnectEvent.addr, if_pos hv6, Vector.toList_inj.1 (rip.trans haddr)]
      rfl
    · rw [rport, loadU16_le hport]
      rfl

/-! ## From the system call to the read loop -/

/-- The size of the records of a probe. -/
def recordSize : Label → Nat
  | .exec => structSize event
  | .openat => structSize openEvent
  | .connect => structSize connectEvent

/-- The record of a system call, laid out in reserved bytes and read; `none` if nothing is submitted. -/
def capture (readStr : ReadStr) (label : Label) (ctx : Ctx) (prior : Bytes) : Option KernelRecord :=
  match label with
  | .exec => (handleExecve readStr ctx (some prior)).bind (readRecord .exec)
  | .openat => (handleOpenat readStr ctx (some prior)).bind (readRecord .openat)
  | .connect => (handleConnect ctx (some prior)).bind (readRecord .connect)

theorem capture_execve (hr : ReadsStr readStr) (ctx : Ctx) (prior : Bytes) :
    ∃ ev, capture readStr .exec ctx prior = some (.exec ev) ∧ Head ctx ev.pid ev.uid ev.comm ∧
      cstr ev.filename.toList = captureStr ctx.mem (ctx.args 0) 255 ∧
      ev.args.map (fun slot => cstr slot.toList) = argSlots ctx.mem (ctx.args 1) 4 0 := by
  obtain ⟨raw, ev, hraw, hev, h⟩ := decode_execve hr ctx prior
  exact ⟨ev, by rw [capture, hraw, Option.bind_some, hev], h⟩

theorem capture_openat (hr : ReadsStr readStr) (ctx : Ctx) (hp : prior.length = recordSize .openat) :
    ∃ ev, capture readStr .openat ctx prior = some (.openat ev) ∧ Head ctx ev.pid ev.uid ev.comm ∧
      cstr ev.filename.toList = captureStr ctx.mem (ctx.args 1) 255 := by
  obtain ⟨raw, ev, hraw, hev, h⟩ := decode_openat hr ctx hp
  exact ⟨ev, by rw [capture, hraw, Option.bind_some, hev], h⟩

theorem capture_connect (readStr : ReadStr) (ctx : Ctx) (prior : Bytes) {sa : SockAddr}
    (hsa : readUser ctx.mem (ctx.args 1) sa.bytes.length = some sa.bytes) :
    ∃ ev, capture readStr .connect ctx prior = some (.connect ev) ∧ Head ctx ev.pid ev.uid ev.comm ∧
      ev.addr = sa.addr ∧ ev.dstPort = sa.port := by
  obtain ⟨raw, ev, hraw, hev, h⟩ := decode_connect ctx prior hsa
  exact ⟨ev, by rw [capture, hraw, Option.bind_some, hev], h⟩

theorem length_readUser {mem : UserMem} : ∀ {n : Nat} {p : UInt64} {bs : Bytes}, readUser mem p n = some bs →
    bs.length = n
  | 0, p, bs, h => by cases h; rfl
  | n + 1, p, bs, h => by
    obtain ⟨b, -, h⟩ := Option.bind_eq_some_iff.1 h
    obtain ⟨t, ht, rfl⟩ := Option.map_eq_some_iff.1 h
    rw [List.length_cons, length_readUser ht]

theorem length_probeReadUser (mem : UserMem) (p : UInt64) (n : Nat) : (probeReadUser mem p n).length = n := by
  unfold probeReadUser
  cases h : readUser mem p n with
  | none => exact List.length_replicate
  | some bs => exact length_readUser h

/-- A connect record begins like the others, whatever is at the address. -/
theorem load_handleConnect (h : handleConnect ctx (some prior) = some raw) :
    raw.length = 52 ∧ ∀ off n, off + n ≤ 24 →
      load off n raw = load off n (fillTask connectEvent ctx.task (List.replicate 52 0)) := by
  have hsize : (List.replicate 52 (0 : UInt8)).length = 52 := List.length_replicate
  have l₁ := (fillTask_spec ctx.task (show Headed connectEvent by decide)
    (show 24 ≤ (List.replicate 52 (0 : UInt8)).length by omega)).1.trans hsize
  simp only [handleConnect, Option.map_some] at h
  split at h
  · cases h
  · split at h
    · cases h
      obtain ⟨hlen, hhead, -⟩ := stores_spec 0 l₁ (length_le 4 _) (length_le 2 _) (show 25 ≤ 44 by omega) (by omega)
      exact ⟨hlen, hhead⟩
    · cases h
      have haddr : (load 8 16 (probeReadUser ctx.mem (ctx.args 1) (structSize sockaddrIn6))).length = 16 :=
        length_load (by rw [length_probeReadUser]; decide)
      obtain ⟨hlen, hhead, -⟩ := stores_spec 1 l₁ haddr (length_le 2 _) (show 25 ≤ 25 by omega) (by omega)
      exact ⟨hlen, hhead⟩

/-- Whatever the arguments of the system call, its record names the task that made it. -/
theorem event_of_capture (hr : ReadsStr readStr) {label : Label} (hp : prior.length = recordSize label)
    {r : KernelRecord} (h : capture readStr label ctx prior = some r) :
    r.event.label = label ∧ r.event.pid = ctx.task.pid ∧ r.event.comm = ctx.task.comm.name := by
  cases label with
  | exec =>
    obtain ⟨ev, hev, hhead, -⟩ := capture_execve hr ctx prior
    obtain rfl := Option.some.inj (hev.symm.trans h)
    exact ⟨rfl, hhead.pid, hhead.comm⟩
  | openat =>
    obtain ⟨ev, hev, hhead, -⟩ := capture_openat hr ctx hp
    obtain rfl := Option.some.inj (hev.symm.trans h)
    exact ⟨rfl, hhead.pid, hhead.comm⟩
  | connect =>
    obtain ⟨raw, hraw, h⟩ := Option.bind_eq_some_iff.1 h
    obtain ⟨hlen, hsame⟩ := load_handleConnect hraw
    obtain ⟨-, hpid, huid, hcomm, -⟩ := fillTask_spec ctx.task (show Headed connectEvent by decide)
      (show 24 ≤ (List.replicate 52 (0 : UInt8)).length by rw [List.length_replicate]; omega)
    obtain ⟨ev, hev, rpid, ruid, rcomm, -⟩ := readConnect_load (show 50 ≤ raw.length by omega)
    obtain rfl : KernelRecord.connect ev = r := by
      rw [readRecord, hev] at h
      exact Option.some.inj h
    have hhead : Head ctx (loadU32 0 raw) (loadU32 4 raw) ev.comm :=
      head_of_kept hsame hpid huid hcomm rcomm
    exact ⟨rfl, rpid.trans hhead.pid, hhead.comm⟩

/-- What was in the buffer does not show, although `handle_openat` leaves it behind the NUL. -/
theorem event_capture_eq (hr : ReadsStr readStr) (label : Label) (ctx : Ctx) {prior prior' : Bytes}
    (hp : prior.length = recordSize label) (hp' : prior'.length = recordSize label) :
    (capture readStr label ctx prior).map (·.event) = (capture readStr label ctx prior').map (·.event) := by
  cases label with
  | exec | connect => rfl
  | openat =>
    obtain ⟨ev, hev, hhead, hname⟩ := capture_openat hr ctx hp
    obtain ⟨ev', hev', hhead', hname'⟩ := capture_openat hr ctx hp'
    rw [hev, hev']
    simp only [Option.map_some, KernelRecord.event, hhead.pid, hhead.uid, hhead.comm, hhead'.pid, hhead'.uid,
      hhead'.comm, hname, hname']

/-- From slot `i` on, the memory has the arguments `strs` behind `argv`. -/
def HoldsArgs (mem : UserMem) (argv : UInt64) : Nat → List Bytes → Prop
  | i, [] => argPtr mem argv i = 0
  | i, s :: strs => argPtr mem argv i ≠ 0 ∧ HoldsStr mem (argPtr mem argv i) s ∧ HoldsArgs mem argv (i + 1) strs

theorem argSlots_of_holds {mem : UserMem} {argv : UInt64} : ∀ {strs : List Bytes} {n i : Nat},
    HoldsArgs mem argv i strs →
    argSlots mem argv n i = (strs.map (List.take 63) ++ List.replicate n []).take n
  | _, 0, _, _ => rfl
  | [], n + 1, i, h => by
    have hnull : argPtr mem argv i = 0 := h
    rw [argSlots, if_pos hnull, List.map_nil, List.nil_append,
      List.take_of_length_le (by rw [List.length_replicate])]
  | s :: strs, n + 1, i, ⟨hp, hs, h⟩ => by
    have hlen : n ≤ (strs.map (List.take 63) ++ List.replicate n []).length := by
      rw [List.length_append, List.length_replicate]
      exact Nat.le_add_left _ _
    rw [argSlots, if_neg hp, captureStr_of_holds hs, argSlots_of_holds h, List.map_cons, List.cons_append,
      List.take_succ_cons, List.replicate_succ', ← List.append_assoc, List.take_append_of_le_length hlen]

/-- Encoder and decoder agree. Whatever the reserved bytes held, the read loop gets the pid, the uid and
the command name of the task that made the call, its strings as far as they fit, and the address and the
port it connects to. -/
theorem capture_faithful (hr : ReadsStr readStr) (ctx : Ctx) :
    (∀ prior, prior.length = recordSize .exec → ∃ ev, capture readStr .exec ctx prior = some (.exec ev) ∧
      Head ctx ev.pid ev.uid ev.comm ∧ cstr ev.filename.toList = captureStr ctx.mem (ctx.args 0) 255 ∧
      ev.args.map (fun slot => cstr slot.toList) = argSlots ctx.mem (ctx.args 1) 4 0) ∧
    (∀ prior, prior.length = recordSize .openat → ∃ ev, capture readStr .openat ctx prior = some (.openat ev) ∧
      Head ctx ev.pid ev.uid ev.comm ∧ cstr ev.filename.toList = captureStr ctx.mem (ctx.args 1) 255) ∧
    (∀ prior (sa : SockAddr), prior.length = recordSize .connect →
      readUser ctx.mem (ctx.args 1) sa.bytes.length = some sa.bytes →
      ∃ ev, capture readStr .connect ctx prior = some (.connect ev) ∧ Head ctx ev.pid ev.uid ev.comm ∧
        ev.addr = sa.addr ∧ ev.dstPort = sa.port) ∧
    (∀ label prior prior', prior.length = recordSize label → prior'.length = recordSize label →
      (capture readStr label ctx prior).map (·.event) = (capture readStr label ctx prior').map (·.event)) ∧
    (∀ p s cap, HoldsStr ctx.mem p s → captureStr ctx.mem p cap = s.take cap) ∧
    ∀ argv strs, HoldsArgs ctx.mem argv 0 strs →
      argSlots ctx.mem argv 4 0 = (strs.map (List.take 63) ++ List.replicate 4 []).take 4 := by
  refine ⟨fun prior _ => capture_execve hr ctx prior, fun _ => capture_openat hr ctx,
    fun prior _ _ => capture_connect readStr ctx prior, fun label _ _ => event_capture_eq hr label ctx,
    fun _ _ cap h => captureStr_of_holds h cap, fun _ _ => argSlots_of_holds⟩

/-- A task that connects to `93.184.216.34:443`, the address being all that it has in memory. -/
def httpsCtx : Ctx where
  args := ![3, 0x1000, 16, 0, 0, 0]
  task := { pidTgid := 0x000012D700001300, uidGid := 0x000003E8000003E9, comm := Comm.of (lit "curl") }
  mem p := (SockAddr.inet 443 (93, 184, 216, 34) (Vector.replicate 8 0)).bytes[(p - 0x1000).toNat]?

theorem capture_faithful_https : ∃ ev,
    capture probeReadUserStr .connect httpsCtx (List.replicate 52 0xAA) = some (.connect ev) ∧
      Head httpsCtx ev.pid ev.uid ev.comm ∧ ev.addr = .v4 (93, 184, 216, 34) ∧ ev.dstPort = 443 :=
  (capture_faithful readsStr_probeReadUserStr httpsCtx).2.2.1 _
    (.inet 443 (93, 184, 216, 34) (Vector.replicate 8 0)) (by decide) (by decide)

end WatchBPF.Agent
