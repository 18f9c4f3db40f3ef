/-
From the system calls to `handleEvent`. The eBPF programs run on any number of processors at once; each reserves a
piece of its ring buffer, and gives up when there is no room, fills it and submits it. A reader takes the records in
the order in which they were reserved. No event is lost but for want of room, and none comes twice or out of order.
-/
import WatchBPF.Agent.Decode
import WatchBPF.Agent.Ledger
import WatchBPF.Lib.RingBuf
import WatchBPF.Lib.Runs

namespace WatchBPF.Agent

open WatchBPF.CStruct WatchBPF.Kernel WatchBPF.RingBuf

/-! ## Room -/

/-- `max_entries` of `rb`, `rb_open` and `rb_connect`. -/
def maxEntries : Nat := 256 * 1024

/-- What a record takes up: a header of `BPF_RINGBUF_HDR_SZ` bytes and itself, rounded up to a multiple of eight. -/
def footprint (label : Label) : Nat := (recordSize label + 8 + 7) / 8 * 8

/-- `bpf_ringbuf_reserve` with `waiting` records in the buffer: the positions of the producers and of the consumer
may not be further apart than the mask, which is one less than the size. -/
def hasRoom (label : Label) (waiting : Nat) : Bool := decide ((waiting + 1) * footprint label ≤ maxEntries - 1)

/-- How many records there is room for. -/
def capacity : Label → Nat
  | .exec => 481
  | .openat => 910
  | .connect => 4095

theorem hasRoom_iff {label : Label} {waiting : Nat} : hasRoom label waiting = true ↔ waiting < capacity label := by
  have hexec : footprint .exec = 544 := by decide
  have hopen : footprint .openat = 288 := by decide
  have hconnect : footprint .connect = 64 := by decide
  unfold hasRoom
  rw [decide_eq_true_iff]
  cases label with
  | exec =>
    rw [hexec, maxEntries, capacity]
    omega
  | openat =>
    rw [hopen, maxEntries, capacity]
    omega
  | connect =>
    rw [hconnect, maxEntries, capacity]
    omega

/-! ## The system -/

/-- The program of a probe, given what `bpf_ringbuf_reserve` returns; what it submits. -/
def probe (readStr : ReadStr) (label : Label) (ctx : Ctx) (reserved : Option Bytes) : Option Bytes :=
  match label with
  | .exec => handleExecve readStr ctx reserved
  | .openat => handleOpenat readStr ctx reserved
  | .connect => handleConnect ctx reserved

/-- A system call that its probe reports, and how many records were waiting when it asked for room. -/
structure Syscall where
  ctx : Ctx
  waiting : Nat

/-- A probe's ring buffer. -/
structure Channel where
  slots : List (Slot Ctx Bytes) := []
  /-- the calls so far, in the order in which they asked for room -/
  calls : List Syscall := []

/-- One more call, whether there is room or not. -/
def Channel.call (c : Channel) (ctx : Ctx) : Channel :=
  { c with calls := c.calls ++ [{ ctx, waiting := c.slots.length }] }

/-- The ring buffers of the three probes, and the agent that reads them. -/
structure Pipeline where
  channel : Label → Channel := fun _ => {}
  agent : World

namespace Pipeline

inductive Event
  /-- A task enters a system call; `prior` is what the buffer holds where the record goes. -/
  | enter (label : Label) (ctx : Ctx) (prior : Bytes)
  /-- The program that has the `n`-th slot from the front fills it and submits it. -/
  | submit (label : Label) (n : Nat)
  /-- A reader takes the first record. -/
  | read (label : Label)
  /-- A job goes on. -/
  | act (k : Nat) (i : Input)

/-- The reader is inside `handleEvent`. -/
def Busy (w : World) (label : Label) : Prop :=
  ∃ j ∈ w.tasks, j.event.label = label ∧ j.stage.inHandler = true

instance (w : World) (label : Label) : Decidable (Busy w label) :=
  inferInstanceAs (Decidable (∃ j ∈ w.tasks, _ ∧ _))

/-- What `readLoop` does with a sample; one that `binary.Read` refuses is passed over. -/
def receive (label : Label) (raw : Bytes) (w : World) : World :=
  match readRecord label raw with
  | none => w
  | some record => { w with tasks := w.tasks ++ [{ record }] }

def next (cfg : Config) (readStr : ReadStr) (e : Event) (p : Pipeline) : Option Pipeline :=
  match e with
  | .enter label ctx prior =>
    if prior.length = recordSize label then
      -- a call that is none of the probe's business
      if (probe readStr label ctx (some prior)).isNone then some p
      else
        let c := (p.channel label).call ctx
        let slots := if hasRoom label c.slots.length then c.slots ++ [{ owner := ctx, sample := prior }] else c.slots
        some { p with channel := Function.update p.channel label { c with slots } }
    else none
  | .submit label n =>
    let c := p.channel label
    match c.slots[n]? with
    | none => none
    | some s =>
      if s.busy then
        (probe readStr label s.owner (some s.sample)).map fun sample => { p with
          channel := Function.update p.channel label { c with slots := c.slots.set n { s with sample, busy := false } } }
      else none
  | .read label =>
    let c := p.channel label
    match c.slots with
    | [] => none
    | s :: slots =>
      if s.busy ∨ Busy p.agent label then none
      else some { channel := Function.update p.channel label { c with slots }, agent := receive label s.sample p.agent }
  | .act k i =>
    match p.agent.tasks[k]? with
    | none => none
    | some j => ((program cfg).next i p.agent.shared j).map fun (a, shared, j') =>
        { p with agent := { shared, tasks := p.agent.tasks.set k j', trace := p.agent.trace ++ [(k, a)] } }

/-! ## What one event can do -/

variable {cfg : Config} {readStr : ReadStr} {s₀ : Shared}

/-- The events, each with what must hold for it. -/
inductive Steps (cfg : Config) (readStr : ReadStr) (p : Pipeline) : Event → Pipeline → Prop
  | other (label : Label) (ctx : Ctx) (prior : Bytes) : Steps cfg readStr p (.enter label ctx prior) p
  | reserve (label : Label) (ctx : Ctx) (prior : Bytes) (slots : List (Slot Ctx Bytes))
      (size : prior.length = recordSize label) (reports : (probe readStr label ctx (some prior)).isSome = true)
      (now : (p.channel label).slots = slots) (room : slots.length < capacity label) :
      Steps cfg readStr p (.enter label ctx prior)
        { p with
          channel := Function.update p.channel label
            { (p.channel label).call ctx with slots := slots ++ [{ owner := ctx, sample := prior }] } }
  | giveUp (label : Label) (ctx : Ctx) (prior : Bytes) (full : capacity label ≤ (p.channel label).slots.length) :
      Steps cfg readStr p (.enter label ctx prior)
        { p with channel := Function.update p.channel label ((p.channel label).call ctx) }
  | submit (label : Label) (n : Nat) (s : Slot Ctx Bytes) (raw : Bytes) (here : (p.channel label).slots[n]? = some s)
      (busy : s.busy = true) (filled : probe readStr label s.owner (some s.sample) = some raw) :
      Steps cfg readStr p (.submit label n)
        { p with
          channel := Function.update p.channel label
            { p.channel label with slots := (p.channel label).slots.set n { s with sample := raw, busy := false } } }
  | read (label : Label) (s : Slot Ctx Bytes) (slots : List (Slot Ctx Bytes))
      (first : (p.channel label).slots = s :: slots) (submitted : s.busy = false) (idle : ¬ Busy p.agent label) :
      Steps cfg readStr p (.read label)
        { channel := Function.update p.channel label { p.channel label with slots },
          agent := receive label s.sample p.agent }
  | act (k : Nat) (i : Input) (j : Job) (a : Action) (shared : Shared) (j' : Job)
      (here : p.agent.tasks[k]? = some j) (acts : (program cfg).next i p.agent.shared j = some (a, shared, j')) :
      Steps cfg readStr p (.act k i)
        { p with agent := { shared, tasks := p.agent.tasks.set k j', trace := p.agent.trace ++ [(k, a)] } }

theorem steps_of_next {e : Event} {p p' : Pipeline} (h : next cfg readStr e p = some p') :
    Steps cfg readStr p e p' := by
  cases e with
  | enter label ctx prior =>
    simp only [next] at h
    split at h
    · rename_i hsize
      split at h
      · cases h
        exact .other label ctx prior
      · rename_i hreports
        have hreports : (probe readStr label ctx (some prior)).isSome = true := by
          rwa [Option.isNone_iff_eq_none, ← Ne, ← Option.isSome_iff_ne_none] at hreports
        split at h
        · rename_i hroom
          cases h
          exact .reserve label ctx prior _ hsize hreports rfl (hasRoom_iff.1 hroom)
        · rename_i hroom
          cases h
          exact .giveUp label ctx prior (Nat.le_of_not_lt fun hlt => hroom (hasRoom_iff.2 hlt))
    · cases h
  | submit label n =>
    simp only [next] at h
    split at h
    · cases h
    · rename_i s hs
      split at h
      · rename_i hbusy
        obtain ⟨raw, hraw, rfl⟩ := Option.map_eq_some_iff.1 h
        exact .submit label n s raw hs hbusy hraw
      · cases h
  | read label =>
    simp only [next] at h
    split at h
    · cases h
    · rename_i s slots hslots
      split at h
      · cases h
      · rename_i hidle
        rw [not_or] at hidle
        cases h
        exact .read label s slots hslots (Bool.not_eq_true _ ▸ hidle.1) hidle.2
  | act k i =>
    simp only [next] at h
    split at h
    · cases h
    · rename_i j hj
      obtain ⟨⟨a, shared, j'⟩, hact, rfl⟩ := Option.map_eq_some_iff.1 h
      exact .act k i j a shared j' hj hact

/-! ## In order and without loss -/

theorem capture_eq (readStr : ReadStr) (label : Label) (ctx : Ctx) (prior : Bytes) :
    capture readStr label ctx prior = (probe readStr label ctx (some prior)).bind (readRecord label) := by
  cases label <;> rfl

/-- `binary.Read` takes whatever a program submits. -/
theorem readRecord_of_probe (hr : ReadsStr readStr) {label : Label} {ctx : Ctx} {prior raw : Bytes}
    (hp : prior.length = recordSize label) (h : probe readStr label ctx (some prior) = some raw) :
    ∃ r, readRecord label raw = some r := by
  have hcap : capture readStr label ctx prior = readRecord label raw := by rw [capture_eq, h, Option.bind_some]
  cases label with
  | exec =>
    obtain ⟨ev, hev, -⟩ := capture_execve hr ctx prior
    exact ⟨_, hcap.symm.trans hev⟩
  | openat =>
    obtain ⟨ev, hev, -⟩ := capture_openat hr ctx hp
    exact ⟨_, hcap.symm.trans hev⟩
  | connect =>
    obtain ⟨hlen, -⟩ := load_handleConnect h
    obtain ⟨ev, hev, -⟩ := readConnect_load (show 50 ≤ raw.length by omega)
    exact ⟨.connect ev, by rw [readRecord, hev, Option.map_some]⟩

/-- The event that the agent makes of a system call, whatever was in the buffer. -/
def Yields (readStr : ReadStr) (label : Label) (ctx : Ctx) (ev : Agent.Event) : Prop :=
  ∀ prior, prior.length = recordSize label → (capture readStr label ctx prior).map (·.event) = some ev

/-- What is in a slot: room for a record of the call's, and once submitted that record. -/
def Holds (readStr : ReadStr) (label : Label) (busy : Bool) (ctx : Ctx) (sample : Bytes) : Prop :=
  ∃ prior, prior.length = recordSize label ∧ (probe readStr label ctx (some prior)).isSome = true ∧
    if busy then sample = prior else probe readStr label ctx (some prior) = some sample

theorem yields_of_holds (hr : ReadsStr readStr) {label : Label} {ctx : Ctx} {raw : Bytes}
    (h : Holds readStr label false ctx raw) :
    ∃ r, readRecord label raw = some r ∧ r.event.label = label ∧ Yields readStr label ctx r.event := by
  obtain ⟨prior, hp, -, hraw⟩ := h
  obtain ⟨r, hr'⟩ := readRecord_of_probe hr hp hraw
  have hcap : capture readStr label ctx prior = some r := by
    rw [capture_eq, show probe readStr label ctx (some prior) = some raw from hraw, Option.bind_some, hr']
  refine ⟨r, hr', (event_of_capture hr hp hcap).1, fun prior' hp' => ?_⟩
  rw [event_capture_eq hr label ctx hp' hp, hcap, Option.map_some]

/-- The calls for which there was room. -/
def admitted (label : Label) (calls : List Syscall) : List Ctx :=
  (calls.filter fun c => c.waiting < capacity label).map (·.ctx)

/-- The events of a label that were handed to `handleEvent`. -/
def handed (label : Label) (w : World) : List Agent.Event := (w.tasks.map Job.event).filter (·.label = label)

/-- A job keeps its event. -/
theorem map_event_act {i : Input} {s s' : Shared} {js : List Job} {k : Nat} {j j' : Job} {a : Action}
    (here : js[k]? = some j) (h : (program cfg).next i s j = some (a, s', j')) :
    (js.set k j').map Job.event = js.map Job.event := by
  obtain ⟨hlt, rfl⟩ := List.getElem?_eq_some_iff.1 here
  have hevent : j'.event = (js[k]).event := congrArg KernelRecord.event (acts_of_next h).1
  rw [List.map_set, hevent]
  simp only [← List.getElem_map Job.event (h := by rwa [List.length_map]), List.set_getElem_self]

theorem receive_eq {label : Label} {raw : Bytes} {r : KernelRecord} (h : readRecord label raw = some r) (w : World) :
    receive label raw w = { w with tasks := w.tasks ++ [{ record := r }] } := by
  unfold receive
  rw [h]

theorem handed_start (label : Label) (w : World) (r : KernelRecord) :
    handed label { w with tasks := w.tasks ++ [{ record := r }] } =
      handed label w ++ if r.event.label = label then [r.event] else [] := by
  unfold handed
  rw [List.map_append, List.filter_append]
  by_cases hl : r.event.label = label
  · rw [if_pos hl]
    exact congrArg _ (List.filter_cons_of_pos (decide_eq_true hl))
  · rw [if_neg hl]
    exact congrArg _ (List.filter_cons_of_neg (by rwa [decide_eq_true_iff]))

/-- A ring buffer in order: the calls that found room are those whose events were handed over, and then those in the
slots, of which there are not too many. -/
structure Feeds (readStr : ReadStr) (label : Label) (c : Channel) (events : List Agent.Event) : Prop where
  delivers : Delivers (Holds readStr label) (Yields readStr label) (admitted label c.calls) c.slots events
  fits : c.slots.length ≤ capacity label

namespace Feeds

variable {label : Label} {c : Channel} {events : List Agent.Event} {ctx : Ctx}

theorem reserve (h : Feeds readStr label c events) {prior : Bytes} (size : prior.length = recordSize label)
    (reports : (probe readStr label ctx (some prior)).isSome = true) (room : c.slots.length < capacity label) :
    Feeds readStr label { c.call ctx with slots := c.slots ++ [{ owner := ctx, sample := prior }] } events := by
  refine ⟨?_, ?_⟩
  · have hadmitted : admitted label (c.call ctx).calls = admitted label c.calls ++ [ctx] := by
      unfold admitted Channel.call
      have hroom : [(⟨ctx, c.slots.length⟩ : Syscall)].filter (fun c => c.waiting < capacity label) =
          [⟨ctx, c.slots.length⟩] := List.filter_cons_of_pos (decide_eq_true room)
      rw [List.filter_append, List.map_append, hroom]
      rfl
    show Delivers _ _ (admitted label (c.call ctx).calls) _ _
    rw [hadmitted]
    exact h.delivers.reserve ⟨prior, size, reports, rfl⟩
  · rw [List.length_append, List.length_singleton]
    exact room

theorem giveUp (h : Feeds readStr label c events) (full : capacity label ≤ c.slots.length) :
    Feeds readStr label (c.call ctx) events := by
  refine ⟨?_, h.fits⟩
  have hadmitted : admitted label (c.call ctx).calls = admitted label c.calls := by
    unfold admitted Channel.call
    rw [List.filter_append, List.map_append, List.filter_cons_of_neg (by simpa using full)]
    exact List.append_nil _
  rw [hadmitted]
  exact h.delivers

theorem submit (h : Feeds readStr label c events) {n : Nat} {s : Slot Ctx Bytes} {raw : Bytes}
    (here : c.slots[n]? = some s) (busy : s.busy = true)
    (filled : probe readStr label s.owner (some s.sample) = some raw) :
    Feeds readStr label { c with slots := c.slots.set n { s with sample := raw, busy := false } } events := by
  obtain ⟨prior, size, reports, hsample⟩ := h.delivers.holds s (List.mem_of_getElem? here)
  rw [if_pos busy] at hsample
  subst hsample
  refine ⟨h.delivers.submit here ⟨s.sample, size, reports, filled⟩, ?_⟩
  rw [List.length_set]
  exact h.fits

/-- The first record, submitted, is that of the first call. -/
theorem read (hr : ReadsStr readStr) (h : Feeds readStr label c events) {s : Slot Ctx Bytes}
    {slots : List (Slot Ctx Bytes)} (first : c.slots = s :: slots) (submitted : s.busy = false) :
    ∃ r, readRecord label s.sample = some r ∧ r.event.label = label ∧
      Feeds readStr label { c with slots } (events ++ [r.event]) := by
  obtain ⟨hdelivers, hfits⟩ := h
  rw [first] at hdelivers hfits
  have hholds := hdelivers.holds s List.mem_cons_self
  rw [submitted] at hholds
  obtain ⟨r, hread, hlabel, hyields⟩ := yields_of_holds hr hholds
  exact ⟨r, hread, hlabel, hdelivers.take hyields, Nat.le_of_succ_le hfits⟩

end Feeds

/-- What holds at every moment of a run. -/
structure Inv (cfg : Config) (readStr : ReadStr) (s₀ : Shared) (p : Pipeline) : Prop where
  agent : Tasks.Reachable (program cfg) s₀ p.agent
  feeds : ∀ label, Feeds readStr label (p.channel label) (handed label p.agent)

theorem inv_next (hr : ReadsStr readStr) (e : Event) (p p' : Pipeline) (hinv : Inv cfg readStr s₀ p)
    (h : next cfg readStr e p = some p') : Inv cfg readStr s₀ p' := by
  have hupdate : ∀ {label : Label} {c : Channel}, Feeds readStr label c (handed label p.agent) →
      ∀ l, Feeds readStr l (Function.update p.channel label c l) (handed l p.agent) := fun hc =>
    (Function.forall_update_iff _ fun l c => Feeds readStr l c (handed l p.agent)).2 ⟨hc, fun l _ => hinv.feeds l⟩
  cases steps_of_next h with
  | other => exact hinv
  | reserve label ctx prior slots size reports now room =>
    subst now
    exact ⟨hinv.agent, hupdate ((hinv.feeds label).reserve size reports room)⟩
  | giveUp label ctx prior full => exact ⟨hinv.agent, hupdate ((hinv.feeds label).giveUp full)⟩
  | submit label n s raw here busy filled =>
    exact ⟨hinv.agent, hupdate ((hinv.feeds label).submit here busy filled)⟩
  | read label s slots first submitted idle =>
    obtain ⟨r, hread, hlabel, hfeeds⟩ := (hinv.feeds label).read hr first submitted
    rw [receive_eq hread]
    refine ⟨hinv.agent.tail (.start _ _ ⟨rfl, fun j hj hsame => ?_⟩), ?_⟩
    · rw [← Bool.not_eq_true]
      exact fun hin => idle ⟨j, hj, hsame.trans hlabel, hin⟩
    · refine (Function.forall_update_iff _ fun l c => Feeds readStr l c (handed l _)).2 ⟨?_, fun l hl => ?_⟩
      · rw [handed_start, if_pos hlabel]
        exact hfeeds
      · rw [handed_start, if_neg fun heq => hl (heq.symm.trans hlabel), List.append_nil]
        exact hinv.feeds l
  | act k i j a shared j' here acts =>
    refine ⟨hinv.agent.tail (.act _ k j i a shared j' here acts), fun l => ?_⟩
    unfold handed
    rw [map_event_act here acts]
    exact hinv.feeds l

theorem inv_of_reachable (hr : ReadsStr readStr) {p : Pipeline}
    (h : Runs.Reachable (next cfg readStr) { agent := { shared := s₀ } } p) : Inv cfg readStr s₀ p :=
  h.invariant ⟨.refl, fun _ => ⟨.empty, Nat.zero_le _⟩⟩ fun e p p' hinv _ hnext => inv_next hr e p p' hinv hnext

/-- In every run, for each probe: the events that were handed to `handleEvent`, and behind them those in the buffer,
are those of the calls that found room, one for one and in the order of the calls; there was no room only where as
many records were waiting as the buffer holds. -/
theorem handed_in_order (hr : ReadsStr readStr) {p : Pipeline}
    (h : Runs.Reachable (next cfg readStr) { agent := { shared := s₀ } } p) (label : Label) :
    Tasks.Reachable (program cfg) s₀ p.agent ∧
    (∃ served, admitted label (p.channel label).calls = served ++ (p.channel label).slots.map Slot.owner ∧
      List.Forall₂ (Yields readStr label) served (handed label p.agent)) ∧
    (p.channel label).slots.length ≤ capacity label := by
  have hinv := inv_of_reachable hr h
  exact ⟨hinv.agent, (hinv.feeds label).delivers.order, (hinv.feeds label).fits⟩

/-- Two connections at once; the program of the second is done first, and the first is read. -/
def overtaking : List Event :=
  [.enter .connect httpsCtx (List.replicate 52 0xAA), .enter .connect httpsCtx (List.replicate 52 0x55),
    .submit .connect 1, .submit .connect 0, .read .connect]

theorem handed_in_order_overtaking : ∃ p : Pipeline, p.agent.tasks.length = 1 ∧ (p.channel .connect).slots.length = 1 ∧
    (∃ served, admitted .connect (p.channel .connect).calls = served ++ (p.channel .connect).slots.map Slot.owner ∧
      List.Forall₂ (Yields probeReadUserStr .connect) served (handed .connect p.agent)) := by
  have hrun : ((start liveConfig none none 0).any fun s =>
      (Runs.run (next liveConfig probeReadUserStr) overtaking { agent := { shared := s } }).any fun p =>
        p.agent.tasks.length == 1 && (p.channel .connect).slots.length == 1) = true := by
    decide +kernel
  obtain ⟨s, p, -, hp, hcheck⟩ := Runs.exists_of_run hrun
  rw [Bool.and_eq_true, beq_iff_eq, beq_iff_eq] at hcheck
  exact ⟨p, hcheck.1, hcheck.2, (handed_in_order readsStr_probeReadUserStr hp .connect).2.1⟩

end Pipeline

end WatchBPF.Agent
