/-
The configured rate limit and the guard before the LLM. `main` hands the limit to the policy engine, where it
bounds actions; the guard counts to fifty whatever it is.
-/
import WatchBPF.Agent.Escalation
import WatchBPF.Agent.Enforce
import WatchBPF.Config.Load

namespace WatchBPF.Agent

open WatchBPF.Audit WatchBPF.FixedWindow WatchBPF.Policy WatchBPF.Tasks

/-! ## Settings -/

/-- The flags that `main` works by, besides the config file. -/
structure Flags where
  mode : Bytes
  enforceMode : Bytes

/-- What `main` makes of its flags and of the loaded settings. -/
def settings (flags : Flags) (selfPID : UInt32) (isPrint : Nat → Bool) (c : Config.Config) : Agent.Config where
  mode := flags.mode
  selfPID := selfPID
  policy :=
    { enforceMode := flags.enforceMode, protectedComms := c.protectedProcesses,
      maxActionsPerWindow := c.rateLimit.maxPerMinute, thresholdAlert := c.thresholds.alert,
      thresholdSoft := c.thresholds.soft, thresholdHard := c.thresholds.hard, isPrint }

/-- `main` up to the read loops: the loaded settings, and what the loops start from; `none` where it ends with an
error. -/
def boot (unmarshal : Config.Unmarshal) (file : Config.ReadFile) (flags : Flags) (selfPID : UInt32)
    (isPrint : Nat → Bool) (baseline : Option Bytes) (logger : Option Logger) (clock : Int) :
    Option (Config.Config × Shared) :=
  (Config.load unmarshal file).bind fun c =>
    (start (settings flags selfPID isPrint c) baseline logger clock).map fun s => (c, s)

theorem boot_eq_some {unmarshal : Config.Unmarshal} {file : Config.ReadFile} {flags : Flags} {selfPID : UInt32}
    {isPrint : Nat → Bool} {baseline : Option Bytes} {logger : Option Logger} {clock : Int} {c : Config.Config}
    {s : Shared} : boot unmarshal file flags selfPID isPrint baseline logger clock = some (c, s) ↔
      Config.load unmarshal file = some c ∧
        start (settings flags selfPID isPrint c) baseline logger clock = some s := by
  simp only [boot, Option.bind_eq_some_iff, Option.map_eq_some_iff, Prod.mk.injEq]
  constructor
  · rintro ⟨c, hload, s, hs, rfl, rfl⟩
    exact ⟨hload, hs⟩
  · rintro ⟨hload, hs⟩
    exact ⟨c, hload, s, hs, rfl, rfl⟩

/-! ## Counting windows -/

/-- A job's passage through the guard, with the two clock readings. -/
def passage (p : Nat × Action) : Option (Nat × Int × Int) :=
  match p.2 with
  | .guard now now' _ => some (p.1, now, now')
  | _ => none

def passages (trace : List (Nat × Action)) : List (Nat × Int × Int) := trace.filterMap passage

/-- The jobs that came to the guard between two resets, in the order in which they came; `window` is when it was
first set. -/
def guardWindows (window : Int) (trace : List (Nat × Action)) : List (List Nat) :=
  allGroups minute window (passages trace)

/-- A job is in a window once it has come to the guard. -/
theorem mem_guardWindows {window : Int} {trace : List (Nat × Action)} {k : Nat} :
    (∃ ks ∈ guardWindows window trace, k ∈ ks) ↔ ∃ now now' count, .guard now now' count ∈ history k trace := by
  rw [← List.mem_flatten, guardWindows, flatten_allGroups, passages, List.map_filterMap, List.mem_filterMap]
  constructor
  · rintro ⟨⟨k', a⟩, htr, hk⟩
    obtain ⟨⟨_, now, now'⟩, hpass, rfl⟩ := Option.map_eq_some_iff.1 hk
    unfold passage at hpass
    split at hpass
    · rename_i count ha
      cases hpass
      cases ha
      exact ⟨_, _, count, mem_history.2 htr⟩
    · cases hpass
  · rintro ⟨now, now', count, hmem⟩
    exact ⟨(k, .guard now now' count), mem_history.1 hmem, rfl⟩

/-- The count that a job got from the guard. -/
def tally (p : Nat × Action) : Option (Nat × Nat) :=
  match p.2 with
  | .guard _ _ count => some (p.1, count)
  | _ => none

variable {cfg : Config} {baseline : Option Bytes} {logger : Option Logger} {clock : Int} {s₀ : Shared} {w : World}

theorem filterMap_snoc {α β : Type} (f : α → Option β) (l : List α) (a : α) :
    (l ++ [a]).filterMap f = l.filterMap f ++ (f a).toList := by
  rw [List.filterMap_append]
  cases ha : f a <;> simp [ha]

theorem passages_readings (trace : List (Nat × Action)) :
    (passages trace).map (·.2) = (readings trace).map fun r => (r.1, r.2.1) := by
  rw [passages, readings, List.map_filterMap, List.map_filterMap]
  congr 1
  funext p
  rw [passage]
  cases p.2 <;> rfl

/-- In a run, the counts are those of the counting windows. -/
theorem counted_of_reachable (h₀ : start cfg baseline logger clock = some s₀) (h : Reachable (program cfg) s₀ w) :
    w.trace.filterMap tally = counted minute 0 clock (passages w.trace) := by
  induction h with
  | refl => rfl
  | @tail w _ hw hstep ih =>
    have hstate := (passed_of_reachable h₀ hw).state
    rw [← passages_readings] at hstate
    cases hstep with
    | start => exact ih
    | act k j i a s' j' _ hnext =>
      show (w.trace ++ [(k, a)]).filterMap tally = counted minute 0 clock ((w.trace ++ [(k, a)]).filterMap passage)
      rw [filterMap_snoc, filterMap_snoc, ih]
      rcases acts_guard (acts_of_next hnext).2 with ⟨now, now', count, window, rfl, -, -, -, htick, -, -⟩ | ⟨hnone, -⟩
      · show _ ++ [(k, count)] = counted minute 0 clock (passages w.trace ++ [(k, now, now')])
        rw [counted_snoc, hstate, ← countEscalation_eq_tick, htick]
      · have hno : tally (k, a) = none ∧ passage (k, a) = none := by
          unfold tally passage
          cases a with
          | guard => cases hnone
          | _ => exact ⟨rfl, rfl⟩
        rw [hno.1, hno.2, Option.toList_none, List.append_nil, Option.toList_none, List.append_nil, passages]

/-- The place of a job in its window is the count that it got. -/
theorem guard_of_window (h₀ : start cfg baseline logger clock = some s₀) (h : Reachable (program cfg) s₀ w)
    {ks : List Nat} (hks : ks ∈ guardWindows clock w.trace) {i k : Nat} (hk : ks[i]? = some k) :
    ∃ now now', .guard now now' (i + 1) ∈ history k w.trace := by
  have hmem := mem_counted hks hk
  rw [← counted_of_reachable h₀ h] at hmem
  obtain ⟨⟨k', a⟩, htr, htally⟩ := List.mem_filterMap.1 hmem
  unfold tally at htally
  split at htally
  · rename_i now now' count ha
    cases htally
    cases ha
    exact ⟨now, now', mem_history.2 htr⟩
  · cases htally

/-! ## What becomes of an event that was counted -/

/-- The event is recorded as rate limited: the entry was written. -/
def RecordedLimited (ev : Event) (as : List Action) : Prop := ∃ now, .audit (limitedCall ev now) none ∈ as

/-- What `handleEvent` has done with an event that got this count. -/
structure Guarded (logged : Bool) (ev : Event) (count : Nat) (as : List Action) : Prop where
  within : count ≤ 50 → .dispatch ∈ as
  beyond : 50 < count → .dispatch ∉ as ∧ (RecordedLimited ev as ↔ logged = true ∧ ∀ a ∈ as, a.failed = false)

theorem guarded_of_dispatchedIn {ev : Event} {logged : Bool} {as : List Action} (h : DispatchedIn cfg ev as)
    {now now' : Int} {count : Nat} (hguard : .guard now now' count ∈ as) : Guarded logged ev count as := by
  obtain ⟨n, rest, rfl, hn, hrest⟩ := h
  have hcount : count = n.count := by
    simp only [Intake.counted, List.cons_append, List.nil_append, List.mem_cons, hrest now now' count, reduceCtorEq,
      false_or, or_false, Action.guard.injEq] at hguard
    exact hguard.2.2
  subst hcount
  constructor
  · intro _
    simp
  · intro hlt
    exact absurd hn.within (not_le.2 hlt)

/-- What was counted beyond fifty is recorded if there is an audit log and the write goes well. -/
theorem guarded_of_limited {ev : Event} {logged : Bool} {n : Intake} {record : Action} (hover : 50 < n.count)
    (hrecorded : Recorded logged (limitedCall ev) record) {now now' : Int} {count : Nat}
    (hguard : .guard now now' count ∈ n.counted ++ [.limit, record]) :
    Guarded logged ev count (n.counted ++ [.limit, record]) := by
  have hcount : count = n.count := by
    simp only [Intake.counted, List.cons_append, List.nil_append, List.mem_cons, List.not_mem_nil,
      hrecorded.ne_guard now now' count, reduceCtorEq, false_or, or_false, Action.guard.injEq] at hguard
    exact hguard.2.2
  subst hcount
  constructor
  · intro hle
    exact absurd hle (not_le.2 hover)
  · intro _
    cases logged with
    | true =>
      obtain ⟨now, err, rfl⟩ := hrecorded
      refine ⟨by simp [Intake.counted], ?_⟩
      cases err with
      | none => exact iff_of_true ⟨now, by simp⟩ ⟨rfl, by simp [Intake.counted, Action.failed]⟩
      | some e =>
        refine iff_of_false (by simp [RecordedLimited, Intake.counted]) ?_
        rintro ⟨-, hok⟩
        have := hok (.audit (limitedCall ev now) (some e)) (by simp)
        cases this
    | false =>
      obtain rfl : record = .pass := hrecorded
      exact ⟨by simp [Intake.counted], iff_of_false (by simp [RecordedLimited, Intake.counted]) (by simp)⟩

/-- Once `handleEvent` is through with an event, it is dispatched if it was counted up to fifty, and not if it was
counted beyond. -/
theorem guarded_of_past {ev : Event} {logged : Bool} {stage : Stage} {as : List Action}
    (h : Past cfg ev logged stage as) (hclient : cfg.llmClient = true) (hout : stage.inHandler = false)
    {now now' : Int} {count : Nat} (hguard : .guard now now' count ∈ as) : Guarded logged ev count as := by
  rcases dispatchedIn_or_fate h hout with hdispatched | hfate
  · exact guarded_of_dispatchedIn hdispatched hguard
  · cases hfate with
    | ignored | known | learned => simp at hguard
    | limited n record novel exceeded recorded => exact guarded_of_limited exceeded recorded hguard
    | noClient n novel within client =>
      rw [client] at hclient
      cases hclient
    | ended hended => exact guarded_of_dispatchedIn (dispatchedIn_released hended) hguard

/-! ## What the configured limit promises -/

/-- The limit decides about the event at place `i` of its window, counted from zero. -/
structure Governed (limit : Int) (ev : Event) (i : Nat) (as : List Action) : Prop where
  within : (i : Int) < limit → .dispatch ∈ as
  beyond : limit ≤ i → .dispatch ∉ as ∧ RecordedLimited ev as

/-- In every window the first events, as many as the limit, are dispatched, and all others recorded as rate
limited, as far as `handleEvent` is through with them. -/
def RateLimited (limit clock : Int) (w : World) : Prop :=
  ∀ ks ∈ guardWindows clock w.trace, ∀ i k j, ks[i]? = some k → w.tasks[k]? = some j → j.stage.inHandler = false →
    Governed limit j.event i (history k w.trace)

/-- There is an audit log, and no write to it fails for an event beyond the fiftieth of its window. -/
def Writable (logger : Option Logger) (clock : Int) (w : World) : Prop :=
  logger.isSome = true ∧ ∀ ks ∈ guardWindows clock w.trace, ∀ i k, ks[i]? = some k → 50 ≤ i →
    ∀ a ∈ history k w.trace, a.failed = false

theorem Guarded.governed_iff_of_lt {logged : Bool} {ev : Event} {i : Nat} {as : List Action} {limit : Int}
    (h : Guarded logged ev (i + 1) as) (hi : i < 50) : Governed limit ev i as ↔ (i : Int) < limit := by
  have hmem := h.within hi
  constructor
  · intro hg
    by_contra hle
    exact (hg.beyond (not_lt.1 hle)).1 hmem
  · intro hlt
    constructor
    · intro _
      exact hmem
    · intro hle
      exact absurd hlt (not_lt.2 hle)

theorem Guarded.governed_iff_of_le {logged : Bool} {ev : Event} {i : Nat} {as : List Action} {limit : Int}
    (h : Guarded logged ev (i + 1) as) (hi : 50 ≤ i) :
    Governed limit ev i as ↔ limit ≤ i ∧ logged = true ∧ ∀ a ∈ as, a.failed = false := by
  obtain ⟨hno, hrec⟩ := h.beyond (Nat.lt_succ_of_le hi)
  constructor
  · intro hg
    have hle : limit ≤ i := by
      by_contra hlt
      exact hno (hg.within (not_le.1 hlt))
    exact ⟨hle, hrec.1 (hg.beyond hle).2⟩
  · rintro ⟨hle, hok⟩
    constructor
    · intro hlt
      exact absurd hle (not_le.2 hlt)
    · intro _
      exact ⟨hno, hrec.2 hok⟩

/-- In every run of a filtering agent an event out of its handler is treated by its place in its window. -/
theorem guarded_of_window (h₀ : start cfg baseline logger clock = some s₀) (h : Reachable (program cfg) s₀ w)
    (hclient : cfg.llmClient = true) {ks : List Nat} (hks : ks ∈ guardWindows clock w.trace) {i k : Nat} {j : Job}
    (hk : ks[i]? = some k) (hj : w.tasks[k]? = some j) (hout : j.stage.inHandler = false) :
    Guarded logger.isSome j.event (i + 1) (history k w.trace) := by
  obtain ⟨now, now', hguard⟩ := guard_of_window h₀ h hks hk
  have hpast := past_of_reachable h hj
  rw [auditLogger_of_start h₀] at hpast
  exact guarded_of_past hpast hclient hout hguard

/-- What is in a window is a job of the run. -/
theorem job_of_window (h : Reachable (program cfg) s₀ w) {ks : List Nat} (hks : ks ∈ guardWindows clock w.trace)
    {i k : Nat} (hk : ks[i]? = some k) : ∃ j, w.tasks[k]? = some j := by
  obtain ⟨now, now', count, hguard⟩ := mem_guardWindows.1 ⟨ks, hks, List.mem_of_getElem? hk⟩
  exact ⟨_, List.getElem?_eq_getElem (lt_of_mem_trace h (mem_history.1 hguard))⟩

/-- The limit and the guard's fifty come to the same: they are equal and the audit log takes what is recorded, or no
window gets more events than either. -/
def Agree (limit : Int) (logger : Option Logger) (clock : Int) (w : World) : Prop :=
  limit = 50 ∧ Writable logger clock w ∨ ∀ ks ∈ guardWindows clock w.trace, (ks.length : Int) ≤ min limit 50

theorem Agree.rateLimited {limit : Int} (hagree : Agree limit logger clock w)
    (h₀ : start cfg baseline logger clock = some s₀) (h : Reachable (program cfg) s₀ w)
    (hclient : cfg.llmClient = true) : RateLimited limit clock w := by
  intro ks hks i k j hk hj hout
  have hguarded := guarded_of_window h₀ h hclient hks hk hj hout
  obtain ⟨hlen, -⟩ := List.getElem?_eq_some_iff.1 hk
  rcases hagree with ⟨rfl, hlog, hok⟩ | hshort
  · by_cases hi : i < 50
    · exact (hguarded.governed_iff_of_lt hi).2 (by omega)
    · exact (hguarded.governed_iff_of_le (not_lt.1 hi)).2 ⟨by omega, hlog, hok ks hks i k hk (not_lt.1 hi)⟩
  · have := hshort ks hks
    exact (hguarded.governed_iff_of_lt (by omega)).2 (by omega)

theorem agree_of_rateLimited {limit : Int} (hpos : 0 < limit) (hlimited : RateLimited limit clock w)
    (h₀ : start cfg baseline logger clock = some s₀) (h : Reachable (program cfg) s₀ w)
    (hclient : cfg.llmClient = true) (hdone : ∀ j ∈ w.tasks, j.stage.inHandler = false) :
    Agree limit logger clock w := by
  -- what the place of an event tells about the limit
  have hplace : ∀ ks ∈ guardWindows clock w.trace, ∀ (i k : Nat), ks[i]? = some k → (i < 50 → (i : Int) < limit) ∧
      (50 ≤ i → limit ≤ i ∧ logger.isSome = true ∧ ∀ a ∈ history k w.trace, a.failed = false) := by
    intro ks hks i k hk
    obtain ⟨j, hj⟩ := job_of_window h hks hk
    have hout := hdone j (List.mem_of_getElem? hj)
    have hguarded := guarded_of_window h₀ h hclient hks hk hj hout
    have hgoverned := hlimited ks hks i k j hk hj hout
    exact ⟨fun hi => (hguarded.governed_iff_of_lt hi).1 hgoverned,
      fun hi => (hguarded.governed_iff_of_le hi).1 hgoverned⟩
  by_cases hshort : ∀ ks ∈ guardWindows clock w.trace, (ks.length : Int) ≤ min limit 50
  · exact .inr hshort
  · push Not at hshort
    obtain ⟨ks, hks, hlong⟩ := hshort
    have hfirst : (min limit 50).toNat < ks.length := by omega
    obtain ⟨hwithin, hbeyond⟩ := hplace ks hks _ _ (List.getElem?_eq_getElem hfirst)
    -- the two treat the first event beyond the smaller one alike only if they are the same
    obtain rfl : limit = 50 := by
      rcases lt_trichotomy limit 50 with hlt | heq | hgt
      · have := hwithin (by omega)
        omega
      · exact heq
      · have := (hbeyond (by omega)).1
        omega
    exact .inl ⟨rfl, (hbeyond (by omega)).2.1, fun ks hks i k hk hi => ((hplace ks hks i k hk).2 hi).2.2⟩

/-- In every run of the filtering agent the configured limit governs the escalations where it agrees with the
guard's fifty; and where no event is in its handler, only there. -/
theorem limit_governs {unmarshal : Config.Unmarshal} {file : Config.ReadFile} {flags : Flags} {selfPID : UInt32}
    {isPrint : Nat → Bool} {c : Config.Config}
    (hboot : boot unmarshal file flags selfPID isPrint baseline logger clock = some (c, s₀))
    (hmode : flags.mode = lit "filter") (hpos : 0 < c.rateLimit.maxPerMinute)
    (h : Reachable (program (settings flags selfPID isPrint c)) s₀ w) :
    (Agree c.rateLimit.maxPerMinute logger clock w → RateLimited c.rateLimit.maxPerMinute clock w) ∧
    ((∀ j ∈ w.tasks, j.stage.inHandler = false) → RateLimited c.rateLimit.maxPerMinute clock w →
      Agree c.rateLimit.maxPerMinute logger clock w) := by
  obtain ⟨-, h₀⟩ := boot_eq_some.1 hboot
  have hclient : (settings flags selfPID isPrint c).llmClient = true := beq_iff_eq.2 hmode
  constructor
  · intro hagree
    exact hagree.rateLimited h₀ h hclient
  · intro hdone hlimited
    exact agree_of_rateLimited hpos hlimited h₀ h hclient hdone

/-- Flags for a run of the filter. -/
def filterFlags : Flags := { mode := lit "filter", enforceMode := lit "dry-run" }

/-- A number of beacons, each handled before the next one comes. -/
def stormMoves (n : Nat) : List (Move Job Input) :=
  (List.range n).flatMap fun k => .start { record := beacon } :: List.replicate 4 (.act k {})

/-- All beacons came in one window, no event is in its handler, and all writes went well. -/
def stormed (n : Nat) (w : World) : Bool :=
  guardWindows 0 w.trace == [List.range n] && w.tasks.all (fun j => !j.stage.inHandler) &&
    w.trace.all fun p => !p.2.failed

theorem stormed_spec {n : Nat} {w : World} (h : stormed n w = true) : guardWindows 0 w.trace = [List.range n] ∧
    (∀ j ∈ w.tasks, j.stage.inHandler = false) ∧ ∀ k, ∀ a ∈ history k w.trace, a.failed = false := by
  simp only [stormed, Bool.and_eq_true, beq_iff_eq, List.all_eq_true, Bool.not_eq_true'] at h
  exact ⟨h.1.1, h.1.2, fun k a ha => h.2 (k, a) (mem_history.1 ha)⟩

/-- Without a config file fifty events of a storm are dispatched; the next is not, and is recorded. -/
theorem limit_governs_storm : ∃ (c : Config.Config) (s₀ : Shared) (w : World),
    boot (fun _ => some) .notExist filterFlags 900 (fun _ => false) none (some (newLogger none)) 0 = some (c, s₀) ∧
    Reachable (program (settings filterFlags 900 (fun _ => false) c)) s₀ w ∧
    guardWindows 0 w.trace = [List.range 51] ∧ (∀ j ∈ w.tasks, j.stage.inHandler = false) ∧
    RateLimited c.rateLimit.maxPerMinute 0 w := by
  have hrun : ((start (settings filterFlags 900 (fun _ => false) Config.default) none (some (newLogger none)) 0).any
      fun s => (exec (program (settings filterFlags 900 (fun _ => false) Config.default)) { shared := s }
        (stormMoves 51 ++ [.act 50 {}])).any (stormed 51)) = true := by decide +kernel
  obtain ⟨s₀, w, h₀, h, hw⟩ := reachable_of_exec hrun
  obtain ⟨hwindows, hdone, hok⟩ := stormed_spec hw
  have hboot : boot (fun _ => some) .notExist filterFlags 900 (fun _ => false) none (some (newLogger none)) 0 =
      some (Config.default, s₀) := boot_eq_some.2 ⟨rfl, h₀⟩
  refine ⟨Config.default, s₀, w, hboot, h, hwindows, hdone, ?_⟩
  exact (limit_governs hboot rfl (by decide) h).1 (.inl ⟨rfl, rfl, fun _ _ _ k _ _ => hok k⟩)

/-- A config file that allows one escalation a minute. -/
def strictYAML : Bytes := lit "rate_limit:\n  max_per_minute: 1\n"

def strict : Config.Config := { Config.default with rateLimit := { maxPerMinute := 1 } }

/-- How that file is decoded over the defaults. -/
def unmarshalStrict : Config.Unmarshal := fun bytes c =>
  if bytes = strictYAML then some { c with rateLimit := { maxPerMinute := 1 } } else none

/-- With a limit of one, two beacons of one window are both dispatched. -/
theorem limit_ignored : ∃ (c : Config.Config) (s₀ : Shared) (w : World),
    boot unmarshalStrict (.data strictYAML) filterFlags 900 (fun _ => false) none (some (newLogger none)) 0 =
      some (c, s₀) ∧
    Reachable (program (settings filterFlags 900 (fun _ => false) c)) s₀ w ∧ c.rateLimit.maxPerMinute = 1 ∧
    guardWindows 0 w.trace = [[0, 1]] ∧ .dispatch ∈ history 1 w.trace ∧
    ¬ RateLimited c.rateLimit.maxPerMinute 0 w := by
  have hrun : ((start (settings filterFlags 900 (fun _ => false) strict) none (some (newLogger none)) 0).any
      fun s => (exec (program (settings filterFlags 900 (fun _ => false) strict)) { shared := s }
        (stormMoves 2)).any (stormed 2)) = true := by decide +kernel
  obtain ⟨s₀, w, h₀, h, hw⟩ := reachable_of_exec hrun
  obtain ⟨hwindows, hdone, -⟩ := stormed_spec hw
  have hks : [0, 1] ∈ guardWindows 0 w.trace := by
    rw [hwindows]
    exact List.mem_singleton_self _
  have hsecond : .dispatch ∈ history 1 w.trace := by
    obtain ⟨j, hj⟩ := job_of_window h hks (i := 1) rfl
    exact (guarded_of_window h₀ h rfl hks (i := 1) rfl hj (hdone j (List.mem_of_getElem? hj))).within (by decide)
  have hload : Config.load unmarshalStrict (.data strictYAML) = some strict := by
    rw [Config.load, unmarshalStrict, if_pos rfl, strict]
  refine ⟨strict, s₀, w, boot_eq_some.2 ⟨hload, h₀⟩, h, rfl, hwindows, hsecond, fun hlimited => ?_⟩
  rcases agree_of_rateLimited (by decide) hlimited h₀ h rfl hdone with ⟨heq, -⟩ | hshort
  · cases heq
  · exact absurd (hshort _ hks) (by decide)

end WatchBPF.Agent
