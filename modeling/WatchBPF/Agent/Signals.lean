/-
Who gets the signals. The agent runs on a host whose processes come, change their names and go while
records wait in the ring buffers and jobs wait for the LLM. A signal goes to the process that holds the
pid at that moment; the protected list was asked for the name that the record had.
-/
import WatchBPF.Agent.Decode
import WatchBPF.Agent.Enforce
import WatchBPF.Kernel.Processes
import WatchBPF.Lib.Runs

namespace WatchBPF.Agent

open WatchBPF.Kernel WatchBPF.Numeral

/-! ## Package `enforce` -/

/-- `syscall.Kill` by root: the process that gets the signal, or `ESRCH`. -/
def syscallKill (t : Table) (pid : UInt32) : Except Bytes Process :=
  match t.holder pid with
  | some p => .ok p
  | none => .error (lit "no such process")

/-- What `KillProcess` and `PauseProcess` do, with the words of their errors. -/
def signalProcess (verb sig : Bytes) (t : Table) (pid : UInt32) : Except Bytes Process :=
  if pid = 0 ∨ pid = 1 then
    .error (lit "refusing to " ++ verb ++ lit " PID " ++ itoa pid.toNat ++ lit " (init/invalid)")
  else
    match syscallKill t pid with
    | .ok p => .ok p
    | .error err => .error (sig ++ lit " failed for pid " ++ itoa pid.toNat ++ lit ": " ++ err)

/-- `KillProcess`: SIGKILL -/
def killProcess : Table → UInt32 → Except Bytes Process := signalProcess (lit "kill") (lit "SIGKILL")

/-- `PauseProcess`: SIGSTOP -/
def pauseProcess : Table → UInt32 → Except Bytes Process := signalProcess (lit "pause") (lit "SIGSTOP")

/-- A signal goes to the process that holds the pid. -/
theorem holder_of_signalProcess {verb sig : Bytes} {t : Table} {pid : UInt32} {p : Process}
    (h : signalProcess verb sig t pid = .ok p) : t.holder pid = some p ∧ pid ≠ 0 ∧ pid ≠ 1 := by
  unfold signalProcess syscallKill at h
  split at h
  · cases h
  · rename_i hpid
    rw [not_or] at hpid
    split at h
    · rename_i hkill
      cases h
      split at hkill
      · cases hkill
        exact ⟨‹_›, hpid⟩
      · cases hkill
    · cases h

/-! ## The host -/

/-- A record as its reader will get it, and the process that made the call. -/
structure Captured where
  record : KernelRecord
  origin : Sighting

/-- A signal that was sent. -/
structure Signal where
  origin : Sighting
  /-- the changes between the system call and the signal -/
  meanwhile : List Change
  target : Process

/-- The processes of a host, and the agent that watches them. -/
structure Host where
  table : Table := .empty
  /-- what is in the ring buffers -/
  ring : Label → List Captured := fun _ => []
  agent : World
  /-- where the records of the jobs come from -/
  origins : List Sighting := []
  signals : List Signal := []

namespace Host

inductive Event
  /-- A process comes, changes its name or goes. -/
  | change (c : Change)
  /-- A process enters a system call, and a record is laid out in these bytes. -/
  | capture (label : Label) (ctx : Ctx) (prior : Bytes)
  /-- A reader takes the next record. -/
  | read (l : Label)
  /-- A job goes on. -/
  | act (k : Nat) (i : Input)

/-- The process that gets a signal by an action. -/
def signalled (t : Table) : Action → Option Process
  | .kill pid => (killProcess t pid).toOption
  | .pause pid => (pauseProcess t pid).toOption
  | _ => none

def next (cfg : Config) (readStr : ReadStr) (e : Event) (h : Host) : Option Host :=
  match e with
  | .change c => (h.table.next c).map fun table => { h with table }
  | .capture label ctx prior =>
    match h.table.holder ctx.task.pid with
    | none => none
    | some p =>
      if p.comm = ctx.task.comm ∧ prior.length = recordSize label then
        (Agent.capture readStr label ctx prior).map fun record =>
          { h with ring := Function.update h.ring label (h.ring label ++ [⟨record, h.table.sight p⟩]) }
      else none
  | .read l =>
    match h.ring l with
    | [] => none
    | c :: rest =>
      if (program cfg).admits h.agent.tasks { record := c.record } then
        some { h with
          ring := Function.update h.ring l rest
          agent := { h.agent with tasks := h.agent.tasks ++ [{ record := c.record }] }
          origins := h.origins ++ [c.origin] }
      else none
  | .act k i =>
    match h.agent.tasks[k]?, h.origins[k]? with
    | some j, some origin =>
      ((program cfg).next i h.agent.shared j).map fun (a, shared, j') => { h with
        agent := { shared, tasks := h.agent.tasks.set k j', trace := h.agent.trace ++ [(k, a)] }
        signals := h.signals ++
          ((signalled h.table a).map fun target => ⟨origin, h.table.meanwhile origin, target⟩).toList }
    | _, _ => none

/-! ## Where a record comes from -/

/-- The record is of the process that was seen, and the sighting is still accounted for. -/
structure Tracks (t : Table) (r : KernelRecord) (s : Sighting) : Prop where
  pid : r.event.pid = s.pid
  comm : r.event.comm = s.comm.name
  follows : Follows t s

theorem Tracks.next {t t' : Table} {r : KernelRecord} {s : Sighting} {c : Change} (hr : Tracks t r s)
    (h : t.next c = some t') : Tracks t' r s := ⟨hr.pid, hr.comm, hr.follows.next h⟩

/-- The signal went to the process that the event is about, and that has no protected name. -/
structure Justified (cfg : Config) (sig : Signal) : Prop where
  same : sig.target.id = sig.origin.id
  unprotected : sig.target.comm.name ∉ cfg.policy.protectedComms

/-- Until the signal the pid was not given to another process, and no `execve` left the process of the
event with a protected name. -/
structure Undisturbed (cfg : Config) (sig : Signal) : Prop where
  kept : reused sig.origin.pid sig.meanwhile = false
  unlisted : ∀ comm, renamed sig.origin.id sig.meanwhile = some comm → comm.name ∉ cfg.policy.protectedComms

theorem justified_iff {cfg : Config} {t : Table} {s : Sighting} {p : Process} (hs : Follows t s)
    (hp : t.holder s.pid = some p) (hname : s.comm.name ∉ cfg.policy.protectedComms) :
    Justified cfg ⟨s, t.meanwhile s, p⟩ ↔ Undisturbed cfg ⟨s, t.meanwhile s, p⟩ := by
  obtain ⟨hmem, hpid⟩ := Table.mem_of_holder hp
  constructor
  · rintro ⟨hsame, hun⟩
    obtain ⟨-, hkept, hcomm⟩ := hs.own p hmem hsame
    refine ⟨hkept, fun comm hren => ?_⟩
    rw [show p.comm = comm by rw [hcomm, show renamed s.id (t.meanwhile s) = some comm from hren]; rfl] at hun
    exact hun
  · rintro ⟨hkept, hun⟩
    have hsame := hs.other p hmem hpid hkept
    obtain ⟨-, -, hcomm⟩ := hs.own p hmem hsame
    refine ⟨hsame, ?_⟩
    show p.comm.name ∉ _
    rw [hcomm]
    cases hren : renamed s.id (t.meanwhile s) with
    | none => exact hname
    | some comm => exact hun comm hren

/-- The agent signals the pid of a record whose name is not protected. -/
theorem holder_of_signalled {cfg : Config} {s₀ : Shared} {w : World} (hw : Tasks.Reachable (program cfg) s₀ w)
    {k : Nat} {j j' : Job} {i : Input} {a : Action} {shared : Shared} {t : Table} {p : Process}
    (hj : w.tasks[k]? = some j) (hnext : (program cfg).next i w.shared j = some (a, shared, j'))
    (hp : signalled t a = some p) :
    t.holder j.event.pid = some p ∧ j.event.comm ∉ cfg.policy.protectedComms := by
  have hwarrant := warrant_of_acts (past_of_reachable hw hj) (acts_of_next hnext).2
  have hholder : ∀ {verb sig : Bytes} {pid : UInt32}, (signalProcess verb sig t pid).toOption = some p →
      t.holder pid = some p := by
    intro verb sig pid h
    cases hsig : signalProcess verb sig t pid with
    | error err => rw [hsig] at h; cases h
    | ok q =>
      rw [hsig] at h
      cases h
      exact (holder_of_signalProcess hsig).1
  unfold signalled at hp
  split at hp
  · obtain ⟨c, hc⟩ := hwarrant rfl
    rw [← hc.calledFor.1]
    exact ⟨hholder hp, hc.unprotected⟩
  · obtain ⟨c, hc⟩ := hwarrant rfl
    rw [← hc.calledFor.1]
    exact ⟨hholder hp, hc.unprotected⟩
  · cases hp

/-! ## Runs -/

section Pairs

variable {α β : Type} {R : α → β → Prop} {xs : List α} {ys : List β}

theorem forall₂_get (h : List.Forall₂ R xs ys) : ∀ {k : Nat} {x : α} {y : β},
    xs[k]? = some x → ys[k]? = some y → R x y := by
  induction h with
  | nil => intro k x y hx; simp at hx
  | cons hxy _ ih =>
    intro k x y hx hy
    cases k with
    | zero => cases hx; cases hy; exact hxy
    | succ k => exact ih hx hy

theorem forall₂_set (h : List.Forall₂ R xs ys) : ∀ {k : Nat} {x : α},
    (∀ y, ys[k]? = some y → R x y) → List.Forall₂ R (xs.set k x) ys := by
  induction h with
  | nil => intro k x _; exact .nil
  | cons hxy hrest ih =>
    intro k x hx
    cases k with
    | zero => exact .cons (hx _ rfl) hrest
    | succ k => exact .cons hxy (ih hx)

end Pairs

/-- What holds at every moment of a run. -/
structure Inv (cfg : Config) (s₀ : Shared) (h : Host) : Prop where
  agent : Tasks.Reachable (program cfg) s₀ h.agent
  ring : ∀ l, ∀ c ∈ h.ring l, Tracks h.table c.record c.origin
  jobs : List.Forall₂ (fun j s => Tracks h.table j.record s) h.agent.tasks h.origins
  signals : ∀ sig ∈ h.signals, Justified cfg sig ↔ Undisturbed cfg sig

variable {cfg : Config} {readStr : ReadStr} {s₀ : Shared}

theorem inv_next (hr : ReadsStr readStr) (e : Event) (h h' : Host) (hinv : Inv cfg s₀ h)
    (hnext : next cfg readStr e h = some h') : Inv cfg s₀ h' := by
  cases e with
  | change c =>
    obtain ⟨t, ht, rfl⟩ := Option.map_eq_some_iff.1 hnext
    exact ⟨hinv.agent, fun l d hd => (hinv.ring l d hd).next ht, hinv.jobs.imp fun _ _ hj => hj.next ht,
      hinv.signals⟩
  | capture label ctx prior =>
    simp only [next] at hnext
    split at hnext
    · cases hnext
    · rename_i p hp
      obtain ⟨hmem, hpid⟩ := Table.mem_of_holder hp
      split at hnext
      · rename_i hctx
        obtain ⟨r, hcap, rfl⟩ := Option.map_eq_some_iff.1 hnext
        obtain ⟨-, rpid, rcomm⟩ := event_of_capture hr hctx.2 hcap
        -- the record is of the process that is sighted now
        have hnew : Tracks h.table r (h.table.sight p) :=
          ⟨rpid.trans hpid.symm, rcomm.trans (congrArg Comm.name hctx.1.symm), follows_sight hmem⟩
        refine ⟨hinv.agent, fun l d hd => ?_, hinv.jobs, hinv.signals⟩
        by_cases hl : l = label
        · subst hl
          simp only [Function.update_self] at hd
          rcases List.mem_append.1 hd with hd | hd
          · exact hinv.ring l d hd
          · rw [List.mem_singleton.1 hd]
            exact hnew
        · simp only [Function.update_of_ne hl] at hd
          exact hinv.ring l d hd
      · cases hnext
  | read l =>
    simp only [next] at hnext
    split at hnext
    · cases hnext
    · rename_i c rest hring
      split at hnext
      · rename_i hadm
        cases hnext
        -- what is left in the buffer, and the record that becomes a job, were in it
        have hmem : ∀ d ∈ c :: rest, Tracks h.table d.record d.origin := fun d hd => hinv.ring l d (hring ▸ hd)
        refine ⟨hinv.agent.tail (.start _ _ hadm), fun l' d hd => ?_, ?_, hinv.signals⟩
        · by_cases hl : l' = l
          · subst hl
            simp only [Function.update_self] at hd
            exact hmem d (List.mem_cons_of_mem _ hd)
          · simp only [Function.update_of_ne hl] at hd
            exact hinv.ring l' d hd
        · exact List.rel_append hinv.jobs (.cons (hmem c List.mem_cons_self) .nil)
      · cases hnext
  | act k i =>
    simp only [next] at hnext
    split at hnext
    · rename_i j origin hj ho
      obtain ⟨⟨a, shared, j'⟩, hact, rfl⟩ := Option.map_eq_some_iff.1 hnext
      have htracks := forall₂_get hinv.jobs hj ho
      refine ⟨hinv.agent.tail (.act _ k j i a shared j' hj hact), hinv.ring, ?_, fun sig hsig => ?_⟩
      · refine forall₂_set hinv.jobs fun s hs => ?_
        obtain rfl := Option.some.inj (ho.symm.trans hs)
        rw [(acts_of_next hact).1]
        exact htracks
      · rcases List.mem_append.1 hsig with hsig | hsig
        · exact hinv.signals sig hsig
        · -- the signal is sent by this action, at this moment
          obtain ⟨p, hp, rfl⟩ := Option.map_eq_some_iff.1 (Option.mem_toList.1 hsig)
          obtain ⟨hholder, hname⟩ := holder_of_signalled hinv.agent hj hact hp
          exact justified_iff htracks.follows (htracks.pid ▸ hholder) (htracks.comm ▸ hname)
    · cases hnext

/-- In every run, whatever the processes do meanwhile, a signal goes to the process that the event is
about, under no protected name, exactly when until then the pid was not given to another process and no
`execve` left the process with a protected name. -/
theorem justified_iff_undisturbed (hr : ReadsStr readStr) {h : Host}
    (hrun : Runs.Reachable (next cfg readStr) { agent := { shared := s₀ } } h) :
    ∀ sig ∈ h.signals, Justified cfg sig ↔ Undisturbed cfg sig := by
  have hinv : Inv cfg s₀ h := hrun.invariant ⟨.refl, nofun, .nil, nofun⟩ fun e s s' hs _ => inv_next hr e s s' hs
  exact hinv.signals

/-- From the record to the signal, with an answer of score 95. -/
def toSignal (l : Label) : List Event :=
  .read l :: List.replicate 9
    (.act 0 {
      elapsed := 10 ^ 6
      answer := some (lit "\x7b\"threat_score\":95,\"recommended_action\":\"kill\"\x7d") })

theorem signal_of_run (es : List Event) (check : Signal → Bool)
    (hrun : ((start liveConfig none none 0).any fun s =>
      (Runs.run (next liveConfig probeReadUserStr) es { agent := { shared := s } }).any fun h =>
        h.signals.any check) = true) :
    ∃ s h sig, start liveConfig none none 0 = some s ∧
      Runs.Reachable (next liveConfig probeReadUserStr) { agent := { shared := s } } h ∧ sig ∈ h.signals ∧
      check sig = true := by
  obtain ⟨s, h, hs, hreach, hh⟩ := Runs.exists_of_run hrun
  obtain ⟨sig, hsig, hcheck⟩ := List.any_eq_true.1 hh
  exact ⟨s, h, sig, hs, hreach, hsig, hcheck⟩

/-- `curl` connects and is killed, while another process is spawned. -/
theorem justified_iff_undisturbed_curl : ∃ s h sig, start liveConfig none none 0 = some s ∧
    Runs.Reachable (next liveConfig probeReadUserStr) { agent := { shared := s } } h ∧ sig ∈ h.signals ∧
    sig.target.pid = 4823 ∧ Justified liveConfig sig := by
  obtain ⟨s, h, sig, hs, hrun, hsig, hcheck⟩ := signal_of_run
    ([.change (.spawned 0 4823 (Comm.of (lit "curl"))), .capture .connect httpsCtx (List.replicate 52 0xAA),
      .change (.spawned 1 4824 (Comm.of (lit "sshd")))] ++ toSignal .connect)
    (fun sig => sig.target.pid == 4823 && !reused sig.origin.pid sig.meanwhile &&
      (renamed sig.origin.id sig.meanwhile).isNone) (by decide +kernel)
  simp only [Bool.and_eq_true, Bool.not_eq_true', beq_iff_eq, Option.isNone_iff_eq_none] at hcheck
  obtain ⟨⟨hpid, hkept⟩, hnone⟩ := hcheck
  refine ⟨s, h, sig, hs, hrun, hsig, hpid,
    (justified_iff_undisturbed readsStr_probeReadUserStr hrun sig hsig).2 ⟨hkept, fun comm hren => ?_⟩⟩
  rw [hnone] at hren
  cases hren

/-- `bash` on its way to become `sshd`; it has but the path in memory. -/
def sshdCtx : Ctx where
  args := ![0x1000, 0, 0, 0, 0, 0]
  task := { pidTgid := 0x0000109200001092, uidGid := 0, comm := Comm.of (lit "bash") }
  mem p := (lit "/usr/sbin/sshd" ++ [0])[(p - 0x1000).toNat]?

/-- The event has the name from before the `execve`; the signal hits `sshd`. -/
theorem sshd_signalled : ∃ s h sig, start liveConfig none none 0 = some s ∧
    Runs.Reachable (next liveConfig probeReadUserStr) { agent := { shared := s } } h ∧ sig ∈ h.signals ∧
    sig.target.comm.name = lit "sshd" ∧ lit "sshd" ∈ liveConfig.policy.protectedComms ∧
    ¬ Justified liveConfig sig := by
  have hlisted : lit "sshd" ∈ liveConfig.policy.protectedComms := by decide
  obtain ⟨s, h, sig, hs, hrun, hsig, hcheck⟩ := signal_of_run
    ([.change (.spawned 0 4242 (Comm.of (lit "bash"))), .capture .exec sshdCtx (List.replicate 536 0),
      .change (.execed 0 (Comm.of (lit "sshd")))] ++ toSignal .exec)
    (fun sig => sig.target.comm.name == lit "sshd") (by decide +kernel)
  have hname := beq_iff_eq.1 hcheck
  exact ⟨s, h, sig, hs, hrun, hsig, hname, hlisted, fun hj => hj.unprotected (hname ▸ hlisted)⟩

end Host

end WatchBPF.Agent
