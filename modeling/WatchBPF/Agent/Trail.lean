/-
The audit trail of a run. The calls a run makes describe its events, and while no write fails they
extend the file as a run of `Log` calls does; the records verify exactly when the command names and
details they were given are valid UTF-8.
-/
import WatchBPF.Agent.Fate
import WatchBPF.Audit.Tamper

namespace WatchBPF.Agent

open WatchBPF.Audit WatchBPF.HashChain WatchBPF.Policy WatchBPF.Sha256 WatchBPF.Tasks WatchBPF.Utf8

variable {cfg : Config} {ev : Event} {logged : Bool}

/-! ## The calls of a run -/

/-- The audit calls that can be made for an event. -/
inductive Reports (cfg : Config) (ev : Event) : LogCall → Prop
  | limited (now : Instant) : Reports cfg ev (limitedCall ev now)
  | decided (now : Instant) (score : Int64) (t n : Int) (stamps : Timestamps) :
      Reports cfg ev (decisionCall ev now score (evaluate cfg.policy t ev.comm n stamps).1)

/-- All that is logged but the command name and the detail is valid UTF-8. -/
theorem Reports.valid_strings {call : LogCall} (h : Reports cfg ev call) :
    (∀ s ∈ call.strings, valid s = true) ↔ valid ev.comm = true ∧ valid ev.detail = true := by
  have hlabel : valid ev.label.text = true := by cases ev.label <;> decide
  cases h with
  | limited now =>
    have htier : valid (lit "rate_limited") = true := by decide
    have hreason : valid (lit "escalation storm — LLM call skipped") = true := by decide
    simp [LogCall.strings, limitedCall, hlabel, htier, hreason]
  | decided now score t n stamps => simp [LogCall.strings, decisionCall, hlabel, valid_tier_text, valid_reason]

def Action.logCall : Action → Option LogCall
  | audit call _ => some call
  | _ => none

/-- The audit calls of a trace, in order. -/
def logCalls (trace : List (Nat × Action)) : List LogCall := trace.filterMap fun p => p.2.logCall

/-- Every audit call of a trace returned nil. -/
def AllWritten (trace : List (Nat × Action)) : Prop := ∀ k call err, (k, Action.audit call err) ∈ trace → err = none

theorem allWritten_of_all {trace : List (Nat × Action)} (h : (trace.all fun p => !p.2.failed) = true) :
    AllWritten trace := by
  intro k call err hm
  have := List.all_eq_true.1 h _ hm
  cases err with
  | none => rfl
  | some _ => simp [Action.failed] at this

theorem reports_of_acts {s s' : Shared} {stage stage' : Stage} {a : Action} {as : List Action}
    (h : Past cfg ev logged stage as) (ha : Acts cfg ev s stage a s' stage') :
    ∀ call err, a = .audit call err → Reports cfg ev call := by
  have haudit : ∀ {c call : LogCall} {io err}, (auditWith c io s).1 = .audit call err → call = c := by
    intro c call io err heq
    rcases auditWith_cases c io s with ⟨-, h⟩ | ⟨l, -, h⟩ <;> rw [h] at heq
    · cases heq
    · exact (Action.audit.inj heq).1.symm
  rintro call err heq
  cases ha with
  | auditLimited now io => exact haudit heq ▸ .limited now
  | auditDecision ta d now io =>
    obtain ⟨c, rfl, -, rfl, rfl⟩ := h
    exact haudit heq ▸ .decided now _ _ _ _
  | _ => cases heq

/-- An action is a call of `Log`, or leaves the logger alone. -/
theorem acts_log {s s' : Shared} {stage stage' : Stage} {a : Action} (ha : Acts cfg ev s stage a s' stage') :
    (∃ call io l, s.auditLogger = some l ∧ a = .audit call (log call io l).1 ∧
      s'.auditLogger = some (log call io l).2) ∨ a.logCall = none ∧ s'.auditLogger = s.auditLogger := by
  have haudit : ∀ call io, (∃ call' io' l, s.auditLogger = some l ∧
      (auditWith call io s).1 = .audit call' (log call' io' l).1 ∧
      (auditWith call io s).2.auditLogger = some (log call' io' l).2) ∨
      (auditWith call io s).1.logCall = none ∧ (auditWith call io s).2.auditLogger = s.auditLogger := by
    intro call io
    rcases auditWith_cases call io s with ⟨-, h⟩ | ⟨l, hl, h⟩ <;> rw [h]
    · exact .inr ⟨rfl, rfl⟩
    · exact .inl ⟨call, io, l, hl, rfl, rfl⟩
  cases ha with
  | auditLimited | auditDecision => exact haudit _ _
  | _ => exact .inr ⟨rfl, rfl⟩

/-- While no write fails, the log grows by the calls of the run. -/
theorem runInv_of_run {f : Option Bytes} (hf : Started f) {s₀ : Shared} (hl : s₀.auditLogger = some (newLogger f))
    {w : World} (h : Reachable (program cfg) s₀ w) (hw : AllWritten w.trace) :
    ∃ l, w.shared.auditLogger = some l ∧ RunInv f (logCalls w.trace) l := by
  induction h with
  | refl => exact ⟨_, hl, runInv_start hf⟩
  | tail _ hstep ih =>
    cases hstep with
    | start => exact ih hw
    | act k j i a s' j' _ hnext =>
      obtain ⟨l, hlog, hinv⟩ := ih fun k call err hm => hw k call err (List.mem_append_left _ hm)
      have hcalls : ∀ tr : List (Nat × Action), logCalls (tr ++ [(k, a)]) = logCalls tr ++ a.logCall.toList := by
        intro tr
        cases ha : a.logCall <;> simp [logCalls, ha]
      show ∃ l, s'.auditLogger = some l ∧ RunInv f (logCalls (_ ++ [(k, a)])) l
      rw [hcalls]
      rcases acts_log (acts_of_next hnext).2 with ⟨call, io, l', hl', rfl, hs'⟩ | ⟨hnone, hs'⟩
      · obtain rfl : l = l' := Option.some.inj (hlog.symm.trans hl')
        obtain rfl : io = .ok := (log_err call io l).1 (hw k call _ (List.mem_append_right _ List.mem_cons_self))
        exact ⟨_, hs', hinv.log call⟩
      · rw [hnone, Option.toList_none, List.append_nil]
        exact ⟨l, hs'.trans hlog, hinv⟩

/-! ## Verification -/

/-- The entry read back from the line that `Log` writes has the hash that is stored in it. -/
def Checks (e : Entry) : Prop := ∃ d, unmarshal (marshal e) = some d ∧ computeHash d = d.hash

theorem checks_iff {e : Entry} (hd : Digest e.hash) : Checks e ↔ computeHash e.coerce = e.hash := by
  unfold Checks
  rw [unmarshal_marshal]
  simp only [Option.some.injEq, exists_eq_left']
  rw [show e.coerce.hash = e.hash from hd.coerce]

/-- The strings hashed by `Log` and by verification. -/
def hashedTwice (es : List Entry) : List Bytes := es.map hashInput ++ es.map fun e => hashInput e.coerce

theorem hashedTwice_mono {es fs : List Entry} (h : es ⊆ fs) : hashedTwice es ⊆ hashedTwice fs :=
  List.append_subset.2 ⟨List.subset_append_of_subset_left _ (List.map_subset _ h),
    List.subset_append_of_subset_right _ (List.map_subset _ h)⟩

theorem checks_of_valid {g : Bytes} (hg : Link g) {c : LogCall} (hv : ∀ s ∈ c.strings, valid s = true) :
    Checks (newEntry g c) := by
  rw [checks_iff (newEntry_digest g c), computeHash_coerce ((newEntry_hashed_valid hg.valid c).2 hv)]
  rfl

/-- Unless two strings collide, a record checks only if what was logged is valid UTF-8. -/
theorem valid_of_checks {g : Bytes} (hg : Link g) {c : LogCall} (hc : NoCollision (hashedTwice [newEntry g c]))
    (h : Checks (newEntry g c)) : ∀ s ∈ c.strings, valid s = true := by
  rw [checks_iff (newEntry_digest g c), newEntry_hash, computeHash_eq_iff] at h
  have heq := hc _ (by simp [hashedTwice]) _ (by simp [hashedTwice]) h
  rw [hashInput_coerce] at heq
  rw [← newEntry_hashed_valid hg.valid, ← valid_hashInput, ← heq]
  exact valid_coerce _

/-- Each entry of a chain is the new one of a call behind some link. -/
theorem new_of_mem_chainEntries {cs : List LogCall} {e : Entry} : ∀ {g : Bytes}, Link g → e ∈ chainEntries g cs →
    ∃ g', Link g' ∧ ∃ c ∈ cs, e = newEntry g' c := by
  induction cs with
  | nil => intro g _ he; simp [chainEntries] at he
  | cons c cs ih =>
    intro g hg he
    rcases List.mem_cons.1 he with rfl | he
    · exact ⟨g, hg, c, List.mem_cons_self, rfl⟩
    · obtain ⟨g', hg', d, hd, rfl⟩ := ih (.inr (newEntry_digest _ c)) he
      exact ⟨g', hg', d, List.mem_cons_of_mem _ hd, rfl⟩

/-- Each call has its new entry in the chain. -/
theorem exists_new_mem_chainEntries {cs : List LogCall} {c : LogCall} (hc : c ∈ cs) : ∀ {g : Bytes}, Link g →
    ∃ g', Link g' ∧ newEntry g' c ∈ chainEntries g cs := by
  induction cs with
  | nil => simp at hc
  | cons d cs ih =>
    intro g hg
    rcases List.mem_cons.1 hc with rfl | hc
    · exact ⟨g, hg, List.mem_cons_self⟩
    · obtain ⟨g', hg', he⟩ := ih hc (.inr (newEntry_digest _ d))
      exact ⟨g', hg', List.mem_cons_of_mem _ he⟩

/-- Every event that was logged has a command name and a detail in valid UTF-8. -/
def ValidTrail (w : World) : Prop :=
  ∀ k j call err, w.tasks[k]? = some j → (k, Action.audit call err) ∈ w.trace →
    valid j.event.comm = true ∧ valid j.event.detail = true

/-- The entries of the calls check, and verification does not report a mismatch. -/
structure Untampered (f : Option Bytes) (calls : List LogCall) (file : Option Bytes) : Prop where
  checks : ∀ e ∈ chainEntries (startHash f) calls, Checks e
  verifies : ∀ k, (verifyChain file).2.2 ≠ some (.mismatch k)

theorem mem_logCalls {c : LogCall} {trace : List (Nat × Action)} :
    c ∈ logCalls trace ↔ ∃ k err, (k, Action.audit c err) ∈ trace := by
  simp only [logCalls, List.mem_filterMap]
  constructor
  · rintro ⟨⟨k, a⟩, hm, ha⟩
    cases a with
    | audit call err => cases ha; exact ⟨k, err, hm⟩
    | _ => cases ha
  · rintro ⟨k, err, hm⟩
    exact ⟨_, hm, rfl⟩

theorem reports_of_reachable {s₀ : Shared} {w : World} (h : Reachable (program cfg) s₀ w) {k : Nat} {call : LogCall}
    {err : Option LogError} (hm : (k, Action.audit call err) ∈ w.trace) :
    ∃ j, w.tasks[k]? = some j ∧ Reports cfg j.event call := by
  obtain ⟨pre, post, htr⟩ := List.append_of_mem hm
  obtain ⟨j, hj, hr⟩ := action_of_reachable
    (R := fun ev _ a => ∀ call err, a = .audit call err → Reports cfg ev call)
    (fun _ _ _ _ _ _ _ hpast hacts => reports_of_acts hpast hacts) h htr
  exact ⟨j, hj, hr call err rfl⟩

/-- A trail is valid when all that was logged is. -/
theorem validTrail_iff {s₀ : Shared} {w : World} (h : Reachable (program cfg) s₀ w) :
    ValidTrail w ↔ ∀ c ∈ logCalls w.trace, ∀ s ∈ c.strings, valid s = true := by
  constructor
  · intro hv c hc
    obtain ⟨k, err, hm⟩ := mem_logCalls.1 hc
    obtain ⟨j, hj, hr⟩ := reports_of_reachable h hm
    exact hr.valid_strings.2 (hv k j c err hj hm)
  · intro hv k j call err hj hm
    obtain ⟨j', hj', hr⟩ := reports_of_reachable h hm
    obtain rfl : j = j' := Option.some.inj (hj.symm.trans hj')
    exact hr.valid_strings.1 (hv call (mem_logCalls.2 ⟨k, err, hm⟩))

theorem untampered_of_valid {f : Option Bytes} (hf : Started f) {calls : List LogCall} {l : Logger}
    (hl : RunInv f calls l) (hv : ∀ c ∈ calls, ∀ s ∈ c.strings, valid s = true) : Untampered f calls l.file := by
  constructor
  · intro e he
    obtain ⟨g, hg, c, hc, rfl⟩ := new_of_mem_chainEntries hf.startHash_link he
    exact checks_of_valid hg (hv c hc)
  · intro k
    cases hfile : l.file with
    | none => simp [verifyChain]
    | some data =>
      have hcontent := hl.content
      rw [hfile, Option.getD_some] at hcontent
      rw [hcontent, verifyChain_of_accepted (accepted_written hf hv)]
      simp

theorem valid_of_untampered {f : Option Bytes} (hf : Started f) {calls : List LogCall} {file : Option Bytes}
    (hc : NoCollision (hashedTwice (chainEntries (startHash f) calls))) (h : Untampered f calls file) :
    ∀ c ∈ calls, ∀ s ∈ c.strings, valid s = true := by
  intro c hmem
  obtain ⟨g, hg, he⟩ := exists_new_mem_chainEntries hmem hf.startHash_link
  exact valid_of_checks hg (hc.mono (hashedTwice_mono (by simpa using he))) (h.checks _ he)

/-- In every run of the agent whose audit writes succeed, the log it wrote is not reported as tampered with
exactly when every logged command name and detail is valid UTF-8. -/
theorem untampered_iff_valid {baseline f : Option Bytes} {n : Nat} (hf : StartFile f n) {clock : Int} {s₀ : Shared}
    (h₀ : start cfg baseline (some (newLogger f)) clock = some s₀) {w : World} (h : Reachable (program cfg) s₀ w)
    (hw : AllWritten w.trace) :
    ∃ l, w.shared.auditLogger = some l ∧ (ValidTrail w → Untampered f (logCalls w.trace) l.file) ∧
      (NoCollision (hashedTwice (chainEntries (startHash f) (logCalls w.trace))) →
        Untampered f (logCalls w.trace) l.file → ValidTrail w) := by
  have hlogger : s₀.auditLogger = some (newLogger f) := auditLogger_of_start h₀
  obtain ⟨l, hl, hinv⟩ := runInv_of_run hf.started.1 hlogger h hw
  refine ⟨l, hl, fun hv => ?_, fun hc hu => ?_⟩
  · exact untampered_of_valid hf.started.1 hinv ((validTrail_iff h).1 hv)
  · exact (validTrail_iff h).2 (valid_of_untampered hf.started.1 hc hu)

/-- The default configuration. -/
def dryConfig : Config :=
  { mode := lit "filter", selfPID := 900,
    policy := { enforceMode := lit "dry-run", protectedComms := [lit "systemd", lit "sshd"], maxActionsPerWindow := 50,
                thresholdAlert := 40, thresholdSoft := 70, thresholdHard := 90, isPrint := fun _ => false } }

/-- A process opens `/` and is assessed with a score of 35. -/
def openMoves (comm : Vector UInt8 16) : List (Move Job Input) :=
  .start { record := .openat ⟨4242, 0, comm, (Vector.replicate 256 0).set 0 0x2F⟩ } :: List.replicate 10
    (.act 0 { answer := some (lit "\x7b\"threat_score\":35,\"recommended_action\":\"log\"\x7d") })

/-- What a test sees of the run of one process with a new log. -/
def afterOpen (comm : Vector UInt8 16) (test : World → Bool) : Bool :=
  (start dryConfig none (some (newLogger none)) 0).any fun s =>
    (exec (program dryConfig) { shared := s } (openMoves comm)).any fun w =>
      (w.trace.all fun p => !p.2.failed) && (logCalls w.trace).length == 1 && test w

theorem run_of_afterOpen {comm : Vector UInt8 16} {test : World → Bool} (h : afterOpen comm test = true) :
    ∃ s₀ w, start dryConfig none (some (newLogger none)) 0 = some s₀ ∧ Reachable (program dryConfig) s₀ w ∧
      AllWritten w.trace ∧ (logCalls w.trace).length = 1 ∧ test w = true := by
  obtain ⟨s₀, w, h₀, hw, h⟩ := reachable_of_exec h
  simp only [Bool.and_eq_true, beq_iff_eq] at h
  exact ⟨s₀, w, h₀, hw, allWritten_of_all h.1.1, h.1.2, h.2⟩

theorem untampered_iff_valid_ls : ∃ (w : World) (l : Logger), (logCalls w.trace).length = 1 ∧
    w.shared.auditLogger = some l ∧ Untampered none (logCalls w.trace) l.file := by
  have hrun : afterOpen #v[0x6C, 0x73, 0, 0, 0, 0, 0, 0, 0, 0, 0, 0, 0, 0, 0, 0]
      (fun w => w.tasks.all fun j => valid j.event.comm && valid j.event.detail) = true := by decide +kernel
  obtain ⟨s₀, w, h₀, h, hw, hlen, hv⟩ := run_of_afterOpen hrun
  obtain ⟨l, hl, hvalid, -⟩ := untampered_iff_valid (.inl ⟨rfl, rfl⟩) h₀ h hw
  refine ⟨w, l, hlen, hl, hvalid fun k j call err hj _ => ?_⟩
  exact Bool.and_eq_true_iff.1 (List.all_eq_true.1 hv j (List.mem_of_getElem? hj))

/-- A name of eight `é` is cut after fifteen bytes, in the middle of the last: the log that the run wrote,
one line by one call of `Log`, is reported as tampered with. -/
theorem mismatch_of_cut_comm : ∃ (s₀ : Shared) (w : World) (l : Logger),
    start dryConfig none (some (newLogger none)) 0 = some s₀ ∧ Reachable (program dryConfig) s₀ w ∧
    AllWritten w.trace ∧ (logCalls w.trace).length = 1 ∧ w.shared.auditLogger = some l ∧
    verifyChain l.file = (false, 0, some (.mismatch 1)) := by
  have hrun : afterOpen #v[0xC3, 0xA9, 0xC3, 0xA9, 0xC3, 0xA9, 0xC3, 0xA9, 0xC3, 0xA9, 0xC3, 0xA9, 0xC3, 0xA9, 0xC3, 0]
      (fun w => w.shared.auditLogger.any fun l => verifyChain l.file == (false, 0, some (.mismatch 1))) = true := by
    decide +kernel
  obtain ⟨s₀, w, h₀, h, hw, hlen, ht⟩ := run_of_afterOpen hrun
  obtain ⟨l, hl, hmis⟩ := (Option.any_eq_true _ _).1 ht
  exact ⟨s₀, w, l, h₀, h, hw, hlen, hl, beq_iff_eq.1 hmis⟩

end WatchBPF.Agent
