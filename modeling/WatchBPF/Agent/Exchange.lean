/-
The agent with its LLM backend. What an assessment gets is no longer any text but what the client reads out of
the reply to its request. An event is asked about once, and what is done about it is what the server said.
-/
import WatchBPF.Agent.OffSchema
import WatchBPF.Agent.Ledger
import WatchBPF.LLM.Envelope
import WatchBPF.Lib.Inputs

namespace WatchBPF.Agent

open WatchBPF.Audit WatchBPF.Baseline WatchBPF.LLM WatchBPF.Policy WatchBPF.Tasks WatchBPF.Utf8

/-! ## Requests -/

/-- The `EventStory` of `processLLM`. -/
def Event.story (ev : Event) : EventStory :=
  { eventType := ev.label.text, comm := ev.comm, detail := ev.detail, pid := ev.pid, uid := ev.uid }

theorem plain_story (r : KernelRecord) : r.event.story.Plain where
  ascii := by
    show ∀ b ∈ r.event.label.text, b.toNat < 0x80
    cases r.event.label <;> exact forall_of_all (by decide)
  line := by
    show (0x0A : UInt8) ∉ r.event.label.text
    cases r.event.label <;> decide
  short := by
    have hcstr : ∀ v : Vector UInt8 16, (cstr v.toList).length ≤ 16 := by
      intro v
      have := (List.takeWhile_sublist (· ≠ 0) (l := v.toList)).length_le
      rwa [Vector.length_toList] at this
    cases r <;> exact hcstr _

/-- Two records whose requests a server reads alike have events of the same type, process and user, whose command
name and detail are the same as UTF-8; and such events make requests that are read alike. -/
theorem parse_request_iff (env : Env) (r₁ r₂ : KernelRecord) :
    Json.parse ((newClient env).request r₁.event.story).body = Json.parse ((newClient env).request r₂.event.story).body ↔
      r₁.event.label = r₂.event.label ∧ coerce r₁.event.comm = coerce r₂.event.comm ∧
        coerce r₁.event.detail = coerce r₂.event.detail ∧ r₁.event.pid = r₂.event.pid ∧
        r₁.event.uid = r₂.event.uid := by
  rw [parse_request_inj, prompt_newClient, coerce_fullPrompt_inj (plain_story r₁) (plain_story r₂)]
  simp only [EventStory.coerced, Event.story, EventStory.mk.injEq]
  exact and_congr_left fun _ => ⟨fun h => label_text_injective h, congrArg Label.text⟩

/-! ## Runs with a backend -/

/-- What an action is given when the text of an answer comes out of a reply. -/
def replied (c : Client) (p : Input × Reply) : Input := { p.1 with answer := (c.read p.2).toOption }

/-- The agent with its client. -/
def wired (c : Client) (cfg : Config) : Program Shared Job (Action × Input × Reply) (Input × Reply) :=
  (program cfg).fed (replied c)

instance (c : Client) (cfg : Config) (js : List Job) (j : Job) : Decidable ((wired c cfg).admits js j) :=
  inferInstanceAs (Decidable ((program cfg).admits js j))

variable {cfg : Config} {ev : Event} {logged : Bool}

/-- What `processLLM` makes of `Assess`. -/
theorem advance_assess (c : Client) (i : Input) (send : Request → Reply) (s : Shared) :
    advance cfg ev (replied c (i, send (c.request ev.story))) s .running =
      some (.assess (c.read (send (c.request ev.story))).toOption, s,
        match c.assess send ev.story with
        | .ok ta => .assessed ta
        | .error _ => .leaving) := by
  unfold advance replied Client.assess
  cases c.read (send (c.request ev.story)) with
  | error e => rfl
  | ok text =>
    simp only [Except.toOption]
    cases parseAssessment text with
    | error e => rfl
    | ok ta => rfl

/-- The answer of an assessment is what the client read. -/
theorem answer_of_advance {c : Client} {p : Input × Reply} {s s' : Shared} {stage stage' : Stage}
    {answer : Option Bytes} (h : advance cfg ev (replied c p) s stage = some (.assess answer, s', stage')) :
    answer = (c.read p.2).toOption := by
  have hacts := acts_of_advance h
  generalize hb : Action.assess answer = b at hacts
  cases stage with
  | running =>
    unfold advance replied at h
    simp only at h
    split at h
    · rename_i hnone
      cases h
      exact hnone.symm
    · rename_i text hsome
      split at h <;>
        cases h <;>
        exact hsome.symm
  | limited =>
    cases hacts with
    | auditLimited => exact absurd hb.symm (auditWith_ne_assess _ _ _ _)
  | decided =>
    cases hacts with
    | auditDecision => exact absurd hb.symm (auditWith_ne_assess _ _ _ _)
  | _ => cases hacts <;> cases hb

/-- The job has been answered, or will not be. -/
def Stage.asked : Stage → Bool
  | assessed _ | decided _ _ | acting _ | isolating | leaving | returned => true
  | _ => false

/-- A job makes one request at most. -/
theorem countP_assesses_le {s₀ : Shared} {w : World} (h : Reachable (program cfg) s₀ w) {k : Nat} {j : Job}
    (hj : w.tasks[k]? = some j) : (history k w.trace).countP Action.assesses ≤ 1 := by
  refine (history_induction (I := fun _ stage as => as.countP Action.assesses ≤ 1 ∧
    (stage.asked = false → as.countP Action.assesses = 0)) (fun _ => ⟨Nat.zero_le _, fun _ => rfl⟩) ?_ h hj).1
  intro ev s s' stage stage' a as _ hcount hacts
  have hquiet : ∀ call io, (auditWith call io s).1.assesses = false := by
    intro call io
    rcases auditWith_cases call io s with ⟨-, h⟩ | ⟨l, -, h⟩ <;> (rw [h]; rfl)
  rw [List.countP_append, List.countP_singleton]
  cases hacts with
  | reject | accept =>
    rw [hcount.2 rfl]
    exact ⟨le_rfl, nofun⟩
  | auditLimited | auditDecision =>
    rw [hquiet]
    exact ⟨hcount.1, nofun⟩
  | kill =>
    refine ⟨hcount.1, ?_⟩
    split <;> nofun
  | lookup | escalate | guard | limit | dispatch | acquire => exact ⟨hcount.1, fun _ => hcount.2 rfl⟩
  | _ => exact ⟨hcount.1, nofun⟩

/-! ## What is acted upon -/

/-- In every run with a backend, an event that is acted upon had one exchange with the server before. Its reply has a
text that is an assessment where the backend has its answers, and what is done is what the score of that assessment
calls for. -/
theorem heard_of_enforced {env : Env} {s₀ : Shared} {w : Tasks.World Shared Job (Action × Input × Reply)}
    (h : Reachable (wired (newClient env) cfg) s₀ w) {pre post : List (Nat × Action × Input × Reply)} {k : Nat}
    {a : Action} {p : Input × Reply} (ha : w.trace = pre ++ (k, a, p) :: post) (he : a.enforces = true) :
    ∃ j text ta i reply, w.tasks[k]? = some j ∧ (k, .assess (some text), i, reply) ∈ pre ∧
      (history k w.trace).countP (·.1.assesses) = 1 ∧ (newClient env).Heard reply text ∧
      parseAssessment text = .ok ta ∧ CalledFor cfg j.event ta.threatScore.toInt a := by
  have hrun : Reachable (program cfg) s₀ w.unfed := reachable_unfed h
  have htrace : w.unfed.trace = pre.map (fun p => (p.1, p.2.1)) ++ (k, a) :: post.map fun p => (p.1, p.2.1) := by
    unfold World.unfed
    rw [ha, List.map_append]
    rfl
  obtain ⟨j, hj, hwarrant⟩ := action_of_reachable
    (R := fun ev as a => a.enforces = true → ∃ c, Warrant cfg ev as a c)
    (fun _ _ _ _ _ _ _ hpast hacts => warrant_of_acts hpast hacts) hrun htrace
  obtain ⟨c, hc⟩ := hwarrant he
  have hasked : ∃ x, (k, Action.assess (some c.text), x) ∈ pre := by
    have hpast : Action.assess (some c.text) ∈ c.actions cfg j.event := by simp [Course.actions]
    obtain ⟨⟨k', a', x⟩, hpre, heq⟩ := List.mem_map.1 (mem_history.1 (hc.course.subset hpast))
    cases heq
    exact ⟨x, hpre⟩
  obtain ⟨⟨i, reply⟩, hpre⟩ := hasked
  have hanswer : (k, Action.assess (some c.text), i, reply) ∈ w.trace := by
    rw [ha]
    exact List.mem_append_left _ hpre
  have hmem : (k, Action.assess (some c.text)) ∈ w.unfed.trace := mem_unfed.2 ⟨_, hanswer⟩
  have hread : some c.text = ((newClient env).read reply).toOption := by
    refine forall_mem_trace (R := fun a p => ∀ answer, a = .assess answer → answer = ((newClient env).read p.2).toOption)
      ?_ h k _ _ hanswer _ rfl
    rintro p s t a s' t' hnext answer rfl
    obtain ⟨⟨a, s', stage⟩, hadvance, heq⟩ := Option.map_eq_some_iff.1 hnext
    cases heq
    exact answer_of_advance hadvance
  have hok : (newClient env).read reply = .ok c.text := by
    cases hr : (newClient env).read reply with
    | error e =>
      rw [hr] at hread
      cases hread
    | ok text =>
      rw [hr] at hread
      cases hread
      rfl
  have hcount : (history k w.trace).countP (·.1.assesses) = 1 := by
    have hle := countP_assesses_le hrun hj
    have hpos : 0 < (history k w.unfed.trace).countP Action.assesses :=
      List.countP_pos_iff.2 ⟨_, mem_history.2 hmem, rfl⟩
    rw [history_unfed, List.countP_map] at hle hpos
    exact le_antisymm hle hpos
  exact ⟨j, c.text, c.ta, i, reply, hj, hpre, hcount, Client.heard_of_read hok hc.accepted, hc.accepted, hc.calledFor⟩

/-- A server that has the beacon killed. -/
def killReply : Reply :=
  .response 200 (lit
    "\x7b\"done\":true,\"response\":\"\x7b\\\"threat_score\\\":95,\\\"recommended_action\\\":\\\"kill\\\"\x7d\"\x7d")

/-- The beacon assessed by it. -/
def wiredMoves : List (Move Job (Input × Reply)) :=
  .start { record := beacon } :: List.replicate 11 (.act 0 ({ elapsed := 10 ^ 6 }, killReply))

/-- The ninth action was a call into `enforce`. -/
def beaconHeard (w : Tasks.World Shared Job (Action × Input × Reply)) : Bool :=
  w.trace[8]?.any fun p => p.1 == 0 && p.2.1.enforces

theorem heard_of_enforced_beacon : ∃ (w : Tasks.World Shared Job (Action × Input × Reply)) (a : Action)
    (p : Input × Reply), w.trace[8]? = some (0, a, p) ∧ a.enforces = true ∧
    ∃ j text ta i reply, w.tasks[0]? = some j ∧ (0, .assess (some text), i, reply) ∈ w.trace.take 8 ∧
      (history 0 w.trace).countP (·.1.assesses) = 1 ∧ (newClient {}).Heard reply text ∧
      parseAssessment text = .ok ta ∧ CalledFor liveConfig j.event ta.threatScore.toInt a := by
  have hrun : ((start liveConfig none none 0).any fun s =>
      (exec (wired (newClient {}) liveConfig) { shared := s } wiredMoves).any beaconHeard) = true := by decide +kernel
  obtain ⟨s₀, w, -, h, hw⟩ := reachable_of_exec hrun
  obtain ⟨⟨k, a, p⟩, hget, hka⟩ := (Option.any_eq_true _ _).1 hw
  simp only [Bool.and_eq_true, beq_iff_eq] at hka
  obtain ⟨rfl, he⟩ := hka
  obtain ⟨hlt, hcell⟩ := List.getElem?_eq_some_iff.1 hget
  have htr : w.trace = w.trace.take 8 ++ (0, a, p) :: w.trace.drop 9 := by
    rw [← hcell, List.cons_getElem_drop_succ, List.take_append_drop]
  exact ⟨w, a, p, hget, he, heard_of_enforced h htr he⟩

end WatchBPF.Agent
