/-
What lies behind an action, from end to end. A process is killed or paused for a system call of its own that found
room in its ring buffer, at most once for each, and an address is blocked that the system call had in memory.
-/
import WatchBPF.Agent.Isolate
import WatchBPF.Agent.Pipeline
import WatchBPF.Lib.Accounts

namespace WatchBPF.Agent

open WatchBPF.Kernel WatchBPF.Net WatchBPF.RingBuf WatchBPF.Tasks

namespace Pipeline

variable {cfg : Config} {readStr : ReadStr} {s₀ : Shared} {label : Label} {ctx : Ctx} {ev : Agent.Event}

/-! ## The call behind an event -/

/-- An event is of the task that made the call. -/
theorem task_of_yields (hr : ReadsStr readStr) (h : Yields readStr label ctx ev) :
    ev.label = label ∧ ev.pid = ctx.task.pid ∧ ev.comm = ctx.task.comm.name := by
  have hsize : (List.replicate (recordSize label) (0 : UInt8)).length = recordSize label := List.length_replicate
  obtain ⟨r, hcap, rfl⟩ := Option.map_eq_some_iff.1 (h _ hsize)
  exact event_of_capture hr hsize hcap

/-- What is cut out of the detail of a connection to an IPv4 address. -/
theorem isolatedIP_of_yields (h : Yields readStr .connect ctx ev) {port : UInt16} {a b c d : UInt8}
    {zero : Vector UInt8 8}
    (hmem : readUser ctx.mem (ctx.args 1) (SockAddr.inet port (a, b, c, d) zero).bytes.length =
      some (SockAddr.inet port (a, b, c, d) zero).bytes) : isolatedIP ev.detail = string4 a b c d := by
  have hsize : (List.replicate (recordSize .connect) (0 : UInt8)).length = recordSize .connect :=
    List.length_replicate
  obtain ⟨r, hcap, rfl⟩ := Option.map_eq_some_iff.1 (h _ hsize)
  obtain ⟨rec, hrec, -, haddr, -⟩ := capture_connect readStr ctx (List.replicate (recordSize .connect) 0) hmem
  obtain rfl := Option.some.inj (hcap.symm.trans hrec)
  show isolatedIP (rec.addr.text ++ lit ":" ++ _) = _
  rw [haddr]
  exact isolatedIP_append (colon_not_mem_string4 a b c d) _

/-- Every job is about a call that found room. -/
theorem call_of_job {p : Pipeline} (hinv : Inv cfg readStr s₀ p) {j : Job}
    (hj : j ∈ p.agent.tasks) :
    ∃ ctx ∈ admitted j.event.label (p.channel j.event.label).calls, Yields readStr j.event.label ctx j.event := by
  exact (hinv.feeds j.event.label).delivers.exists_reserved
    (List.mem_filter.2 ⟨List.mem_map_of_mem hj, decide_eq_true rfl⟩)

/-! ## Signals and calls -/

/-- An attempt to signal the process. -/
def signals (pid : UInt32) : Action → Bool
  | .kill p | .pause p => p == pid
  | _ => false

/-- The calls of the process for which there was room. -/
def callsOf (pid : UInt32) (p : Pipeline) (label : Label) : Nat :=
  (admitted label (p.channel label).calls).countP fun ctx => ctx.task.pid == pid

/-- The events of a process, by the probes they come from. -/
theorem countP_handed (q : Agent.Event → Bool) (w : World) : w.tasks.countP (fun j => q j.event) =
    (handed .exec w).countP q + (handed .openat w).countP q + (handed .connect w).countP q := by
  have hsplit : ∀ evs : List Agent.Event, evs.countP q = (evs.filter (·.label = .exec)).countP q +
      (evs.filter (·.label = .openat)).countP q + (evs.filter (·.label = .connect)).countP q := by
    intro evs
    induction evs with
    | nil => rfl
    | cons ev evs ih =>
      rw [List.countP_cons, ih]
      cases hl : ev.label <;>
        simp only [List.filter_cons, hl, reduceCtorEq, decide_true, decide_false, if_true, Bool.false_eq_true,
          if_false, List.countP_cons] <;>
        omega
  have hmap := hsplit (w.tasks.map Job.event)
  rwa [List.countP_map] at hmap

/-- An action that signals is one that a job takes for the process of its own event. -/
theorem signals_of_acts {s s' : Shared} {stage stage' : Stage} {a : Action} {pid : UInt32}
    (h : Acts cfg ev s stage a s' stage') (hsig : signals pid a = true) : ev.pid = pid ∧ a.attempts = true := by
  have hquiet : ∀ call io, signals pid (auditWith call io s).1 = false := by
    intro call io
    rcases auditWith_cases call io s with ⟨-, h⟩ | ⟨l, -, h⟩ <;> (rw [h]; rfl)
  cases h with
  | kill | pause => exact ⟨beq_iff_eq.1 hsig, rfl⟩
  | auditLimited | auditDecision =>
    rw [hquiet] at hsig
    cases hsig
  | _ => cases hsig

/-- A job signals the process of its event at most once, and no other. -/
theorem countP_signals_le {w : World} (h : Reachable (program cfg) s₀ w) {k : Nat} {j : Job}
    (hj : w.tasks[k]? = some j) (pid : UInt32) :
    (history k w.trace).countP (signals pid) ≤ (j.event.pid == pid).toNat := by
  have hown : (∀ a ∈ history k w.trace, signals pid a = true → j.event.pid = pid ∧ a.attempts = true) := by
    refine history_induction (I := fun ev _ as => ∀ a ∈ as, signals pid a = true → ev.pid = pid ∧ a.attempts = true)
      (fun _ => nofun) ?_ h hj
    intro ev s s' stage stage' a as _ hall hacts b hb hsig
    rcases List.mem_append.1 hb with hb | hb
    · exact hall b hb hsig
    · obtain rfl := List.mem_singleton.1 hb
      exact signals_of_acts hacts hsig
  by_cases hpid : j.event.pid = pid
  · rw [beq_iff_eq.2 hpid]
    obtain ⟨hle, hone, -⟩ := attempts_le_granted (past_of_reachable h hj)
    exact (List.countP_mono_left fun a ha hsig => (hown a ha hsig).2).trans (hle.trans hone)
  · rw [beq_eq_false_iff_ne.2 hpid, Bool.toNat_false, Nat.le_zero, List.countP_eq_zero]
    exact fun a ha hsig => hpid (hown a ha hsig).1

/-- Signals to a process are no more than its calls. -/
theorem signals_le_calls (hr : ReadsStr readStr) {p : Pipeline} (hinv : Inv cfg readStr s₀ p) (pid : UInt32) :
    p.agent.trace.countP (fun x => signals pid x.2) ≤
      callsOf pid p .exec + callsOf pid p .openat + callsOf pid p .connect := by
  have hjobs := countP_le_of_tasks (fun x hx => lt_of_mem_trace hinv.agent hx)
    fun k j hj => countP_signals_le hinv.agent hj pid
  have hcalls : ∀ label, (handed label p.agent).countP (fun ev => ev.pid == pid) ≤ callsOf pid p label := by
    intro label
    refine (hinv.feeds label).delivers.countP_le fun ctx ev hyields hpid => ?_
    rw [← (task_of_yields hr hyields).2.1]
    exact hpid
  refine hjobs.trans ((countP_handed (fun ev => ev.pid == pid) p.agent).trans_le ?_)
  exact Nat.add_le_add (Nat.add_le_add (hcalls _) (hcalls _)) (hcalls _)

/-- A system call that an action is due to: it found room, its event is the job's, and what the action names is the
call's. -/
structure Cause (cfg : Config) (readStr : ReadStr) (p : Pipeline) (ev : Agent.Event) (a : Action) (ctx : Ctx) :
    Prop where
  admitted : ctx ∈ Pipeline.admitted ev.label (p.channel ev.label).calls
  yields : Yields readStr ev.label ctx ev
  pid : ctx.task.pid = ev.pid
  comm : ctx.task.comm.name = ev.comm
  signalled : ∀ pid, a = .kill pid ∨ a = .pause pid → pid = ctx.task.pid
  isolated : ∀ ip port b₀ b₁ b₂ b₃ zero, a = .isolate ip → readUser ctx.mem (ctx.args 1)
    (SockAddr.inet port (b₀, b₁, b₂, b₃) zero).bytes.length = some (SockAddr.inet port (b₀, b₁, b₂, b₃) zero).bytes →
    ip = string4 b₀ b₁ b₂ b₃

/-- In every run of the agent with its probes: an action has a system call for its cause, of a task of that pid and of
a name that is neither protected nor excluded, with a course behind it that calls for it; an address that is blocked
is, for IPv4, the one that the call had in memory; and a process is signalled at most once for each of its calls. -/
theorem cause_of_action (hr : ReadsStr readStr) {p : Pipeline}
    (h : Runs.Reachable (next cfg readStr) { agent := { shared := s₀ } } p) :
    (∀ pre k a post, p.agent.trace = pre ++ (k, a) :: post → a.enforces = true →
      ∃ j c ctx, p.agent.tasks[k]? = some j ∧ Warrant cfg j.event (history k pre) a c ∧
        Cause cfg readStr p j.event a ctx) ∧
    ∀ pid, p.agent.trace.countP (fun x => signals pid x.2) ≤
      callsOf pid p .exec + callsOf pid p .openat + callsOf pid p .connect := by
  have hinv := inv_of_reachable hr h
  refine ⟨fun pre k a post htrace henforces => ?_, signals_le_calls hr hinv⟩
  obtain ⟨j, hj, hwarrant⟩ := action_of_reachable
    (R := fun ev as a => a.enforces = true → ∃ c, Warrant cfg ev as a c)
    (fun _ _ _ _ _ _ _ hpast hacts => warrant_of_acts hpast hacts) hinv.agent htrace
  obtain ⟨c, hc⟩ := hwarrant henforces
  obtain ⟨ctx, hctx, hyields⟩ := call_of_job hinv (List.mem_of_getElem? hj)
  obtain ⟨-, hpid, hcomm⟩ := task_of_yields hr hyields
  have hcalled := hc.calledFor
  refine ⟨j, c, ctx, hj, hc, hctx, hyields, hpid.symm, hcomm.symm, ?_, ?_⟩
  · rintro pid (rfl | rfl)
    · exact hcalled.1.trans hpid
    · exact hcalled.1.trans hpid
  · rintro ip port b₀ b₁ b₂ b₃ zero rfl hmem
    obtain ⟨hip, hlabel, -⟩ := hcalled
    rw [hlabel] at hyields
    exact hip.trans (isolatedIP_of_yields hyields hmem)

/-- `curl` is killed for its connection, and the address is blocked. -/
theorem cause_of_action_curl : ∃ (p : Pipeline) (a : Action) (j : Job) (ctx : Ctx), p.agent.trace[8]? = some (0, a) ∧
    a.enforces = true ∧ p.agent.tasks[0]? = some j ∧ Cause liveConfig probeReadUserStr p j.event a ctx := by
  have hrun : ((start liveConfig none none 0).any fun s =>
      (Runs.run (next liveConfig probeReadUserStr)
        ([.enter .connect httpsCtx (List.replicate 52 0), .submit .connect 0, .read .connect] ++ List.replicate 11
          (.act 0 { elapsed := 10 ^ 6,
                    answer := some (lit "\x7b\"threat_score\":95,\"recommended_action\":\"kill\"\x7d") }))
        { agent := { shared := s } }).any fun p => p.agent.trace[8]?.any fun x => x.1 == 0 && x.2.enforces) = true := by
    decide +kernel
  obtain ⟨s, p, -, hp, hcheck⟩ := Runs.exists_of_run hrun
  obtain ⟨⟨k, a⟩, hget, hka⟩ := (Option.any_eq_true _ _).1 hcheck
  simp only [Bool.and_eq_true, beq_iff_eq] at hka
  obtain ⟨rfl, he⟩ := hka
  obtain ⟨hlt, hcell⟩ := List.getElem?_eq_some_iff.1 hget
  have htrace : p.agent.trace = p.agent.trace.take 8 ++ (0, a) :: p.agent.trace.drop 9 := by
    rw [← hcell, List.cons_getElem_drop_succ, List.take_append_drop]
  obtain ⟨j, -, ctx, hj, -, hcause⟩ := (cause_of_action readsStr_probeReadUserStr hp).1 _ _ _ _ htrace he
  exact ⟨p, a, j, ctx, hget, he, hj, hcause⟩

end Pipeline

end WatchBPF.Agent
