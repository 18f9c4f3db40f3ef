/-
The processes of the host. At any moment one may be spawned with a pid that is not in use, change its
command name by `execve`, or exit and leave its pid to another. The changes are kept in order, so that
what was seen of a process at one moment can be compared with what has become of it since.
-/
import WatchBPF.Kernel.Probes

namespace WatchBPF.Kernel

/-! ## The process table -/

/-- A task, with the pid and the command name that it has now. -/
structure Process where
  /-- never used again, unlike the pid -/
  id : Nat
  pid : UInt32
  comm : Comm
  deriving DecidableEq

/-- What can happen to the process table. -/
inductive Change
  | spawned (id : Nat) (pid : UInt32) (comm : Comm)
  | execed (id : Nat) (comm : Comm)
  | exited (id : Nat)
  deriving DecidableEq

/-- The processes there are, how many there have been, and all changes so far. -/
structure Table where
  procs : List Process
  born : Nat
  past : List Change
  numbered : ∀ p ∈ procs, p.id < born
  unique : ∀ p ∈ procs, ∀ q ∈ procs, p.id = q.id ∨ p.pid = q.pid → p = q

namespace Table

def empty : Table where
  procs := []
  born := 0
  past := []
  numbered := nofun
  unique := nofun

/-- The process that holds a pid. -/
def holder (t : Table) (pid : UInt32) : Option Process := t.procs.find? fun p => p.pid == pid

/-- `execve` of one process. -/
def execed (id : Nat) (comm : Comm) (p : Process) : Process := if p.id = id then { p with comm } else p

@[simp] theorem execed_id (id : Nat) (comm : Comm) (p : Process) : (execed id comm p).id = p.id := by
  unfold execed
  split <;> rfl

@[simp] theorem execed_pid (id : Nat) (comm : Comm) (p : Process) : (execed id comm p).pid = p.pid := by
  unfold execed
  split <;> rfl

/-- A change; `none` where it cannot happen. -/
def next (c : Change) (t : Table) : Option Table :=
  match c with
  | .spawned id pid comm =>
    if h : id = t.born ∧ ∀ p ∈ t.procs, p.pid ≠ pid then some {
      procs := t.procs ++ [⟨id, pid, comm⟩]
      born := t.born + 1
      past := t.past ++ [c]
      numbered := by
        intro p hp
        rcases List.mem_append.1 hp with hp | hp
        · exact Nat.lt_succ_of_lt (t.numbered p hp)
        · rw [List.mem_singleton.1 hp, h.1]
          exact Nat.lt_succ_self _
      unique := by
        -- the new process differs from the others in number and pid
        have hnew : ∀ p ∈ t.procs, p.id ≠ id ∧ p.pid ≠ pid := fun p hp =>
          ⟨h.1 ▸ Nat.ne_of_lt (t.numbered p hp), h.2 p hp⟩
        intro p hp q hq heq
        rcases List.mem_append.1 hp with hp | hp <;> rcases List.mem_append.1 hq with hq | hq
        · exact t.unique p hp q hq heq
        · cases List.mem_singleton.1 hq
          exact (heq.elim (hnew p hp).1 (hnew p hp).2).elim
        · cases List.mem_singleton.1 hp
          exact (heq.elim (fun h => (hnew q hq).1 h.symm) fun h => (hnew q hq).2 h.symm).elim
        · exact (List.mem_singleton.1 hp).trans (List.mem_singleton.1 hq).symm }
    else none
  | .execed id comm =>
    if t.procs.any fun p => p.id == id then some {
      procs := t.procs.map (execed id comm)
      born := t.born
      past := t.past ++ [c]
      numbered := by
        intro p' hp'
        obtain ⟨p, hp, rfl⟩ := List.mem_map.1 hp'
        rw [execed_id]
        exact t.numbered p hp
      unique := by
        intro p' hp' q' hq' heq
        obtain ⟨p, hp, rfl⟩ := List.mem_map.1 hp'
        obtain ⟨q, hq, rfl⟩ := List.mem_map.1 hq'
        rw [execed_id, execed_id, execed_pid, execed_pid] at heq
        rw [t.unique p hp q hq heq] }
    else none
  | .exited id =>
    if t.procs.any fun p => p.id == id then some {
      procs := t.procs.filter fun p => p.id ≠ id
      born := t.born
      past := t.past ++ [c]
      numbered := fun p hp => t.numbered p (List.mem_of_mem_filter hp)
      unique := fun p hp q hq => t.unique p (List.mem_of_mem_filter hp) q (List.mem_of_mem_filter hq) }
    else none

theorem mem_of_holder {t : Table} {pid : UInt32} {p : Process} (h : t.holder pid = some p) :
    p ∈ t.procs ∧ p.pid = pid := by
  have hpid := List.find?_some h
  exact ⟨List.mem_of_find?_eq_some h, beq_iff_eq.1 hpid⟩

/-- What a change can be. -/
theorem next_cases {c : Change} {t t' : Table} (h : next c t = some t') :
    t'.past = t.past ++ [c] ∧ ((∃ pid comm, c = .spawned t.born pid comm ∧ (∀ p ∈ t.procs, p.pid ≠ pid) ∧
        t'.procs = t.procs ++ [⟨t.born, pid, comm⟩] ∧ t'.born = t.born + 1) ∨
      (∃ id comm, c = .execed id comm ∧ t'.procs = t.procs.map (execed id comm) ∧ t'.born = t.born) ∨
      ∃ id, c = .exited id ∧ t'.procs = t.procs.filter (fun p => p.id ≠ id) ∧ t'.born = t.born) := by
  unfold next at h
  split at h
  · split at h
    · rename_i hnew
      cases h
      obtain ⟨rfl, hpid⟩ := hnew
      exact ⟨rfl, .inl ⟨_, _, rfl, hpid, rfl, rfl⟩⟩
    · cases h
  · split at h
    · cases h
      exact ⟨rfl, .inr (.inl ⟨_, _, rfl, rfl, rfl⟩)⟩
    · cases h
  · split at h
    · cases h
      exact ⟨rfl, .inr (.inr ⟨_, rfl, rfl, rfl⟩)⟩
    · cases h

end Table

/-! ## What has become of a process -/

/-- The pid has been given to a new process. -/
def reused (pid : UInt32) (cs : List Change) : Bool :=
  cs.any fun
    | .spawned _ pid' _ => pid' == pid
    | _ => false

/-- The name that the last `execve` of the process gave it. -/
def renamed (id : Nat) (cs : List Change) : Option Comm :=
  (cs.filterMap fun
    | .execed id' comm => if id' = id then some comm else none
    | _ => none).getLast?

@[simp] theorem reused_append_spawned (pid : UInt32) (cs : List Change) (id : Nat) (pid' : UInt32) (comm : Comm) :
    reused pid (cs ++ [.spawned id pid' comm]) = (reused pid cs || pid' == pid) := by
  simp [reused]

@[simp] theorem reused_append_execed (pid : UInt32) (cs : List Change) (id : Nat) (comm : Comm) :
    reused pid (cs ++ [.execed id comm]) = reused pid cs := by
  simp [reused]

@[simp] theorem reused_append_exited (pid : UInt32) (cs : List Change) (id : Nat) :
    reused pid (cs ++ [.exited id]) = reused pid cs := by
  simp [reused]

@[simp] theorem renamed_append_spawned (id : Nat) (cs : List Change) (id' : Nat) (pid : UInt32) (comm : Comm) :
    renamed id (cs ++ [.spawned id' pid comm]) = renamed id cs := by
  simp [renamed]

@[simp] theorem renamed_append_execed (id : Nat) (cs : List Change) (id' : Nat) (comm : Comm) :
    renamed id (cs ++ [.execed id' comm]) = if id' = id then some comm else renamed id cs := by
  unfold renamed
  split <;> simp [*]

@[simp] theorem renamed_append_exited (id : Nat) (cs : List Change) (id' : Nat) :
    renamed id (cs ++ [.exited id']) = renamed id cs := by
  simp [renamed]

/-- A process as it was when `since` changes had happened. -/
structure Sighting where
  id : Nat
  pid : UInt32
  comm : Comm
  since : Nat
  deriving DecidableEq

def Table.sight (t : Table) (p : Process) : Sighting := ⟨p.id, p.pid, p.comm, t.past.length⟩

/-- The changes after a sighting. -/
def Table.meanwhile (t : Table) (s : Sighting) : List Change := t.past.drop s.since

/-- The changes since a sighting tell what is left of it. -/
structure Follows (t : Table) (s : Sighting) : Prop where
  born : s.id < t.born
  since : s.since ≤ t.past.length
  /-- The process, if it is still there, has its pid, and the name of its last `execve`. -/
  own : ∀ p ∈ t.procs, p.id = s.id →
    p.pid = s.pid ∧ reused s.pid (t.meanwhile s) = false ∧ p.comm = (renamed s.id (t.meanwhile s)).getD s.comm
  /-- Another process has the pid only if it was given the pid. -/
  other : ∀ p ∈ t.procs, p.pid = s.pid → reused s.pid (t.meanwhile s) = false → p.id = s.id

theorem follows_sight {t : Table} {p : Process} (hp : p ∈ t.procs) : Follows t (t.sight p) := by
  have hnone : t.meanwhile (t.sight p) = [] := List.drop_length
  refine ⟨t.numbered p hp, le_rfl, fun q hq heq => ?_, fun q hq heq _ => ?_⟩
  · obtain rfl := t.unique q hq p hp (.inl heq)
    rw [hnone]
    exact ⟨rfl, rfl, rfl⟩
  · rw [t.unique q hq p hp (.inr heq)]
    rfl

/-- Every change leaves the account of a sighting true. -/
theorem Follows.next {t t' : Table} {s : Sighting} {c : Change} (hs : Follows t s) (h : t.next c = some t') :
    Follows t' s := by
  obtain ⟨hpast, hcases⟩ := Table.next_cases h
  have hmean : t'.meanwhile s = t.meanwhile s ++ [c] := by
    rw [Table.meanwhile, hpast, List.drop_append_of_le_length hs.since]
    rfl
  have hsince : s.since ≤ t'.past.length := by
    rw [hpast, List.length_append]
    exact Nat.le_add_right_of_le hs.since
  rcases hcases with ⟨pid, comm, rfl, hpid, hprocs, hborn⟩ | ⟨id, comm, rfl, hprocs, hborn⟩ |
    ⟨id, rfl, hprocs, hborn⟩
  · refine ⟨by rw [hborn]; exact Nat.lt_succ_of_lt hs.born, hsince, ?_, ?_⟩
    · intro p hp heq
      rw [hmean, reused_append_spawned, renamed_append_spawned]
      rw [hprocs] at hp
      rcases List.mem_append.1 hp with hp | hp
      · obtain ⟨hown, hused, hcomm⟩ := hs.own p hp heq
        -- while the process is there, nothing else can be given its pid
        have hne : pid ≠ s.pid := fun h => hpid p hp (hown.trans h.symm)
        exact ⟨hown, by rw [hused, beq_eq_false_iff_ne.2 hne]; rfl, hcomm⟩
      · -- the new process is none that has been seen
        rw [List.mem_singleton.1 hp] at heq
        exact absurd hs.born (heq ▸ Nat.lt_irrefl _)
    · intro p hp heq
      rw [hmean, reused_append_spawned]
      intro hfree
      obtain ⟨hfree, hne⟩ := Bool.or_eq_false_iff.1 hfree
      rw [hprocs] at hp
      rcases List.mem_append.1 hp with hp | hp
      · exact hs.other p hp heq hfree
      · rw [List.mem_singleton.1 hp] at heq
        exact absurd heq (beq_eq_false_iff_ne.1 hne)
  · refine ⟨hborn ▸ hs.born, hsince, ?_, ?_⟩
    · intro p hp heq
      rw [hprocs] at hp
      obtain ⟨q, hq, rfl⟩ := List.mem_map.1 hp
      rw [Table.execed_id] at heq
      obtain ⟨hown, hused, hcomm⟩ := hs.own q hq heq
      rw [hmean, reused_append_execed, renamed_append_execed, Table.execed_pid]
      refine ⟨hown, hused, ?_⟩
      -- the name changes in the table as it does in the account
      rw [Table.execed, heq]
      by_cases hid : s.id = id
      · rw [if_pos hid, if_pos hid.symm]
        rfl
      · rw [if_neg hid, if_neg (Ne.symm hid)]
        exact hcomm
    · intro p hp heq
      rw [hprocs] at hp
      obtain ⟨q, hq, rfl⟩ := List.mem_map.1 hp
      rw [hmean, reused_append_execed, Table.execed_id]
      rw [Table.execed_pid] at heq
      exact hs.other q hq heq
  · refine ⟨hborn ▸ hs.born, hsince, ?_, ?_⟩
    · intro p hp
      rw [hmean, reused_append_exited, renamed_append_exited]
      exact hs.own p (List.mem_of_mem_filter (hprocs ▸ hp))
    · intro p hp
      rw [hmean, reused_append_exited]
      exact hs.other p (List.mem_of_mem_filter (hprocs ▸ hp))

end WatchBPF.Kernel
