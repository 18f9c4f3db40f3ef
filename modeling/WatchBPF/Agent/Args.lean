/-
The arguments of an `execve` record. The loop begins at `argv[1]`, so that it stops at the end of the array
when there is an `argv[0]`; of an empty array it reads on behind the end, where the environment is.
-/
import WatchBPF.Agent.Decode

namespace WatchBPF.Agent

open WatchBPF.CStruct WatchBPF.Kernel

/-! ## What the loop reads -/

/-- `fillArgs` with the indices of the elements of `argv` that it reads. -/
def fillArgsReading (readStr : ReadStr) (mem : UserMem) (argv : UInt64) : Nat → Nat → Bytes → Bytes × List Nat
  | 0, _, e => (e, [])
  | n + 1, i, e =>
    if argPtr mem argv i = 0 then (e, [i + 1])
    else
      let (e, reads) := fillArgsReading readStr mem argv n (i + 1)
        (fillStr readStr mem (argPtr mem argv i) (offsetOf event 4 + 64 * i) 64 e)
      (e, (i + 1) :: reads)

theorem fillArgsReading_fst (readStr : ReadStr) (mem : UserMem) (argv : UInt64) : ∀ (n i : Nat) (e : Bytes),
    (fillArgsReading readStr mem argv n i e).1 = fillArgs readStr mem argv n i e
  | 0, _, _ => rfl
  | n + 1, i, e => by
    rw [fillArgsReading, fillArgs]
    split
    · rfl
    · exact fillArgsReading_fst readStr mem argv n (i + 1) _

/-! ## The array -/

/-- The memory has the array of the pointers at `argv`, with `NULL` behind it. -/
structure HoldsArgv (mem : UserMem) (argv : UInt64) (ptrs : List UInt64) : Prop where
  element : ∀ i < ptrs.length, readUser mem (argv + UInt64.ofNat (8 * i)) 8 = ptrs[i]?.map fun p => le 8 p.toNat
  terminated : readUser mem (argv + UInt64.ofNat (8 * ptrs.length)) 8 = some (le 8 0)
  nonnull : ∀ p ∈ ptrs, p ≠ 0

variable {mem : UserMem} {argv : UInt64} {ptrs : List UInt64}

theorem argPtr_of_readUser {i : Nat} {p : UInt64}
    (h : readUser mem (argv + UInt64.ofNat (8 * (i + 1))) 8 = some (le 8 p.toNat)) : argPtr mem argv i = p := by
  have hp := p.toNat_lt
  rw [argPtr, probeReadUser, h, Option.getD_some, ofLE_le, Nat.mod_eq_of_lt (by omega), UInt64.ofNat_toNat]

/-- Up to its end the loop finds the array. -/
theorem argPtr_of_holds (h : HoldsArgv mem argv ptrs) {i : Nat} :
    (∀ p, ptrs[i + 1]? = some p → argPtr mem argv i = p ∧ p ≠ 0) ∧
      (ptrs.length = i + 1 → argPtr mem argv i = 0) := by
  constructor
  · intro p hp
    have hread := h.element (i + 1) (List.getElem?_eq_some_iff.1 hp).1
    rw [hp] at hread
    exact ⟨argPtr_of_readUser hread, h.nonnull p (List.mem_of_getElem? hp)⟩
  · intro hlen
    exact argPtr_of_readUser (p := 0) (hlen ▸ h.terminated)

theorem argSlots_of_argv (h : HoldsArgv mem argv ptrs) : ∀ {n i : Nat}, i + 1 ≤ ptrs.length →
    argSlots mem argv n i =
      ((ptrs.drop (i + 1)).map (fun p => captureStr mem p 63) ++ List.replicate n []).take n
  | 0, _, _ => rfl
  | n + 1, i, hi => by
    obtain ⟨hsome, hend⟩ := argPtr_of_holds h (i := i)
    rw [argSlots]
    rcases Nat.eq_or_lt_of_le hi with hlen | hlt
    · rw [if_pos (hend hlen.symm), List.drop_eq_nil_of_le hlen.ge, List.map_nil, List.nil_append,
        List.take_of_length_le (by rw [List.length_replicate])]
    · obtain ⟨hp, hne⟩ := hsome _ (List.getElem?_eq_getElem hlt)
      have hroom : n ≤ ((ptrs.drop (i + 1 + 1)).map (fun p => captureStr mem p 63) ++ List.replicate n []).length := by
        rw [List.length_append, List.length_replicate]
        exact Nat.le_add_left _ _
      rw [hp, if_neg hne, argSlots_of_argv h hlt, List.drop_eq_getElem_cons hlt, List.map_cons, List.cons_append,
        List.take_succ_cons, List.replicate_succ', ← List.append_assoc, List.take_append_of_le_length hroom]

theorem reads_of_argv (h : HoldsArgv mem argv ptrs) (readStr : ReadStr) : ∀ {n i : Nat} {e : Bytes},
    i + 1 ≤ ptrs.length → ∀ k ∈ (fillArgsReading readStr mem argv n i e).2, k ≤ ptrs.length
  | 0, _, _, _ => nofun
  | n + 1, i, e, hi => by
    obtain ⟨-, hend⟩ := argPtr_of_holds h (i := i)
    rw [fillArgsReading]
    split
    · intro k hk
      rw [List.mem_singleton.1 hk]
      exact hi
    · rename_i hne
      intro k hk
      have hlt : i + 1 + 1 ≤ ptrs.length := Nat.lt_of_le_of_ne hi fun hlen => hne (hend hlen.symm)
      rcases List.mem_cons.1 hk with rfl | hk
      · exact hi
      · exact reads_of_argv h readStr hlt k hk

/-! ## The arguments -/

/-- The slots hold `argv[1]` to `argv[4]` as far as there are any, and nothing behind the array is read. -/
def ExactArgs (readStr : ReadStr) (mem : UserMem) (argv : UInt64) (ptrs : List UInt64) (ev : ExecEvent) : Prop :=
  ev.args.map (fun slot => cstr slot.toList) =
      (ptrs.tail.map (fun p => captureStr mem p 63) ++ List.replicate 4 []).take 4 ∧
    ∀ e, ∀ k ∈ (fillArgsReading readStr mem argv 4 0 e).2, k ≤ ptrs.length

/-- The record has exactly the arguments if and only if there is an `argv[0]`. A string that can be read is cut
to 63 bytes. -/
theorem capture_exactArgs {readStr : ReadStr} (hr : ReadsStr readStr) (ctx : Ctx) (prior : Bytes) {ptrs : List UInt64}
    (h : HoldsArgv ctx.mem (ctx.args 1) ptrs) :
    ∃ ev, capture readStr .exec ctx prior = some (.exec ev) ∧
      (ExactArgs readStr ctx.mem (ctx.args 1) ptrs ev ↔ ptrs ≠ []) ∧
      ∀ p s, HoldsStr ctx.mem p s → captureStr ctx.mem p 63 = s.take 63 := by
  obtain ⟨ev, hev, -, -, hargs⟩ := capture_execve hr ctx prior
  refine ⟨ev, hev, ?_, fun p s hs => captureStr_of_holds hs 63⟩
  constructor
  · rintro ⟨-, hreads⟩ rfl
    -- the first element that is read is already behind the array
    have hfirst : 1 ∈ (fillArgsReading readStr ctx.mem (ctx.args 1) 4 0 []).2 := by
      rw [fillArgsReading]
      split <;> exact List.mem_cons_self
    exact absurd (hreads [] 1 hfirst) (by decide)
  · intro hne
    have hpos : 0 + 1 ≤ ptrs.length := List.length_pos_of_ne_nil hne
    refine ⟨?_, fun e => reads_of_argv h readStr hpos⟩
    rw [hargs, argSlots_of_argv h hpos, Nat.zero_add, List.drop_one]

/-- The memory that has these bytes, and nothing else, at `0x1000`. -/
def memOf (bytes : Bytes) : UserMem := fun p => bytes[(p - 0x1000).toNat]?

/-- A task that calls `execve` with the array at the beginning of these bytes. -/
def execCtx (bytes : Bytes) : Ctx where
  args := ![0x1000, 0x1000, 0, 0, 0, 0]
  task := { pidTgid := 0x000012D7000012D7, uidGid := 0x000003E8000003E8, comm := Comm.of (lit "bash") }
  mem := memOf bytes

theorem capture_exactArgs_ls :
    let bytes := le 8 0x1018 ++ le 8 0x101B ++ le 8 0 ++ lit "ls" ++ [0] ++ lit "-l" ++ [0]
    ∃ ev, capture probeReadUserStr .exec (execCtx bytes) [] = some (.exec ev) ∧
      ExactArgs probeReadUserStr (execCtx bytes).mem ((execCtx bytes).args 1) [0x1018, 0x101B] ev := by
  intro bytes
  have h : HoldsArgv (execCtx bytes).mem ((execCtx bytes).args 1) [0x1018, 0x101B] :=
    ⟨by decide, by decide, forall_of_all (by decide)⟩
  obtain ⟨ev, hev, hiff, -⟩ := capture_exactArgs readsStr_probeReadUserStr (execCtx bytes) [] h
  exact ⟨ev, hev, hiff.2 (by decide)⟩

/-- Called with an empty array, the environment is taken for the arguments. -/
theorem capture_environment :
    let bytes := le 8 0 ++ le 8 0x1018 ++ le 8 0 ++ lit "TOKEN=1" ++ [0]
    HoldsArgv (execCtx bytes).mem ((execCtx bytes).args 1) [] ∧
      (∃ ev, capture probeReadUserStr .exec (execCtx bytes) [] = some (.exec ev) ∧
        ev.args.map (fun slot => cstr slot.toList) = [lit "TOKEN=1", [], [], []] ∧
        ¬ ExactArgs probeReadUserStr (execCtx bytes).mem ((execCtx bytes).args 1) [] ev) ∧
      (fillArgsReading probeReadUserStr (execCtx bytes).mem ((execCtx bytes).args 1) 4 0 []).2 = [1, 2] := by
  intro bytes
  refine ⟨⟨by decide, by decide, nofun⟩, ?_, by decide⟩
  obtain ⟨ev, hev, -, -, hargs⟩ := capture_execve readsStr_probeReadUserStr (execCtx bytes) []
  have hslots : ev.args.map (fun slot => cstr slot.toList) = [lit "TOKEN=1", [], [], []] := by
    rw [hargs]; decide
  exact ⟨ev, hev, hslots, fun hexact => absurd (hexact.1.symm.trans hslots) (by decide)⟩

end WatchBPF.Agent
