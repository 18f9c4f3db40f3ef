/-
The agent's budget for actions. The goroutines share one policy engine, and read the clock for it inside its lock:
its answers in a run are those to one sequence of calls at non-decreasing times. So what a minute has of grants, in
any interleaving, is bounded by the configured limit, and with it what can be killed or paused on their account; and
within that bound no other choice of the calls would have made for more.
-/
import WatchBPF.Agent.Ledger
import WatchBPF.Agent.RateLimit
import WatchBPF.Policy.Grants

namespace WatchBPF.Agent

open WatchBPF.Audit WatchBPF.Policy WatchBPF.Tasks WatchBPF.Window

variable {cfg : Config} {ev : Event}

/-! ## The calls of a run -/

def comms (w : World) : List Bytes := w.tasks.map fun j => j.event.comm

/-- A call of `Evaluate`, with what it decided. -/
def consultation (comms : List Bytes) (p : Nat × Action) : Option (Call × Decision) :=
  match p.2, comms[p.1]? with
  | .evaluate now score _ d, some comm => some (⟨now, comm, score⟩, d)
  | _, _ => none

/-- The calls of a run in the order in which the engine took them. -/
def consultations (w : World) : List (Call × Decision) := w.trace.filterMap (consultation (comms w))

def grantTime (cfg : Config) (comms : List Bytes) (p : Nat × Action) : Option Int :=
  match p.2, comms[p.1]? with
  | .evaluate now score stamps _, some comm => if Policy.grants cfg.policy now comm score stamps then some now else none
  | _, _ => none

/-- What the engine has been asked in a run, and what it is left with. -/
structure Consulted (cfg : Config) (w : World) (calls : List Call) : Prop where
  asked : (consultations w).map (·.1) = calls
  sorted : (calls.map Call.now).Pairwise (· ≤ ·)
  last : ∀ c ∈ calls, c.now ≤ w.shared.clock
  stamps : w.shared.stamps = engineAfter cfg.policy [] calls
  decided : (consultations w).map (·.2) = (evaluations cfg.policy [] calls).map (·.decision)
  granted : w.trace.filterMap (grantTime cfg (comms w)) = grantTimes cfg.policy [] calls

/-- An action calls the engine at a time not before the last clock reading, or leaves it alone. -/
theorem acts_engine {s s' : Shared} {stage stage' : Stage} {a : Action} (h : Acts cfg ev s stage a s' stage') :
    (∃ now score d, a = .evaluate now score s.stamps d ∧ s.clock ≤ now ∧ s'.clock = now ∧
      Policy.evaluate cfg.policy now ev.comm score s.stamps = (d, s'.stamps)) ∨
    ((∀ now score stamps d, a ≠ .evaluate now score stamps d) ∧ s.clock ≤ s'.clock ∧ s'.stamps = s.stamps) := by
  have haudit : ∀ call io, (∀ now score stamps d, (auditWith call io s).1 ≠ .evaluate now score stamps d) ∧
      s.clock ≤ (auditWith call io s).2.clock ∧ (auditWith call io s).2.stamps = s.stamps := by
    intro call io
    rcases auditWith_cases call io s with ⟨-, h⟩ | ⟨l, -, h⟩ <;> (rw [h]; exact ⟨nofun, le_rfl, rfl⟩)
  cases h with
  | evaluate ta now d stamps since decides => exact .inl ⟨now, _, d, rfl, since, rfl, decides⟩
  | guard now now' count window since later => exact .inr ⟨nofun, since.trans later, rfl⟩
  | auditLimited | auditDecision => exact .inr (haudit _ _)
  | _ => exact .inr ⟨nofun, le_rfl, rfl⟩

theorem consultation_of_ne (cfg : Config) (comms : List Bytes) (k : Nat) {a : Action}
    (h : ∀ now score stamps d, a ≠ .evaluate now score stamps d) :
    consultation comms (k, a) = none ∧ grantTime cfg comms (k, a) = none := by
  cases a with
  | evaluate now score stamps d => exact absurd rfl (h now score stamps d)
  | _ => exact ⟨rfl, rfl⟩

theorem comms_set {w : World} {k : Nat} {j j' : Job} (hj : w.tasks[k]? = some j) (hr : j'.record = j.record) :
    (w.tasks.set k j').map (fun j => j.event.comm) = comms w := by
  have hcomm : j'.event.comm = j.event.comm := congrArg (fun r => r.event.comm) hr
  refine List.ext_getElem? fun i => ?_
  rw [comms, List.getElem?_map, List.getElem?_map, List.getElem?_set]
  split
  · rename_i hik
    subst hik
    rw [hj, if_pos (List.getElem?_eq_some_iff.1 hj).1]
    exact congrArg some hcomm
  · rfl

/-- A new job has done nothing yet. -/
theorem consulted_start {s₀ : Shared} {w : World} {calls : List Call} (hw : Reachable (program cfg) s₀ w)
    (h : Consulted cfg w calls) (j : Job) : Consulted cfg { w with tasks := w.tasks ++ [j] } calls := by
  have hget : ∀ p ∈ w.trace, (comms { w with tasks := w.tasks ++ [j] })[p.1]? = (comms w)[p.1]? := by
    intro p hp
    rw [comms, comms, List.map_append, List.getElem?_append_left]
    rw [List.length_map]
    exact lt_of_mem_trace hw hp
  have hcalls : consultations { w with tasks := w.tasks ++ [j] } = consultations w := by
    refine List.filterMap_congr fun p hp => ?_
    unfold consultation
    rw [hget p hp]
  have hgrants : w.trace.filterMap (grantTime cfg (comms { w with tasks := w.tasks ++ [j] })) =
      w.trace.filterMap (grantTime cfg (comms w)) := by
    refine List.filterMap_congr fun p hp => ?_
    unfold grantTime
    rw [hget p hp]
  obtain ⟨asked, sorted, last, stamps, decided, granted⟩ := h
  exact ⟨by rw [hcalls, asked], sorted, last, stamps, by rw [hcalls, decided], hgrants.trans granted⟩

theorem consulted_act {w : World} {calls : List Call} (h : Consulted cfg w calls) {k : Nat} {j j' : Job} {i : Input}
    {a : Action} {s : Shared} (hj : w.tasks[k]? = some j) (hnext : (program cfg).next i w.shared j = some (a, s, j')) :
    ∃ calls', Consulted cfg { shared := s, tasks := w.tasks.set k j', trace := w.trace ++ [(k, a)] } calls' := by
  obtain ⟨hrec, hacts⟩ := acts_of_next hnext
  obtain ⟨asked, sorted, last, stamps, decided, granted⟩ := h
  have hcomms : comms { shared := s, tasks := w.tasks.set k j', trace := w.trace ++ [(k, a)] } = comms w :=
    comms_set hj hrec
  have hk : (comms w)[k]? = some j.event.comm := by rw [comms, List.getElem?_map, hj]; rfl
  have hcalls : consultations { shared := s, tasks := w.tasks.set k j', trace := w.trace ++ [(k, a)] } =
      consultations w ++ (consultation (comms w) (k, a)).toList := by
    rw [consultations, hcomms, filterMap_snoc]
    rfl
  have hgrants : (w.trace ++ [(k, a)]).filterMap (grantTime cfg (comms w)) =
      w.trace.filterMap (grantTime cfg (comms w)) ++ (grantTime cfg (comms w) (k, a)).toList := filterMap_snoc ..
  rcases acts_engine hacts with ⟨now, score, d, rfl, since, hclock, hdecides⟩ | ⟨hother, hclock, hstamps⟩
  · -- one more call, at the time of the last clock reading
    have hcall : consultation (comms w) (k, .evaluate now score w.shared.stamps d) =
        some (⟨now, j.event.comm, score⟩, d) := by simp [consultation, hk]
    rw [hcall, Option.toList_some] at hcalls
    refine ⟨calls ++ [⟨now, j.event.comm, score⟩], ?_, ?_, ?_, ?_, ?_, ?_⟩
    · rw [hcalls, List.map_append, asked]
      rfl
    · rw [List.map_append, List.pairwise_append]
      refine ⟨sorted, List.pairwise_singleton _ _, fun t ht t' ht' => ?_⟩
      obtain ⟨c, hc, rfl⟩ := List.mem_map.1 ht
      rw [List.map_cons, List.map_nil, List.mem_singleton] at ht'
      rw [ht']
      exact (last c hc).trans since
    · intro c hc
      show c.now ≤ s.clock
      rw [hclock]
      rcases List.mem_append.1 hc with hc | hc
      · exact (last c hc).trans since
      · rw [List.mem_singleton.1 hc]
    · rw [engineAfter_snoc, ← stamps, hdecides]
    · rw [hcalls, List.map_append, decided, evaluations_snoc, List.map_append, ← stamps, hdecides]
      rfl
    · rw [hcomms, hgrants, granted, grantTimes_snoc, ← stamps]
      congr 1
      simp only [grantTime, hk]
      split <;> rfl
  · obtain ⟨hcall, hgrant⟩ := consultation_of_ne cfg (comms w) k hother
    rw [hcall, Option.toList_none, List.append_nil] at hcalls
    rw [hgrant, Option.toList_none, List.append_nil] at hgrants
    refine ⟨calls, by rw [hcalls, asked], sorted, fun c hc => (last c hc).trans hclock, hstamps.trans stamps,
      by rw [hcalls, decided], ?_⟩
    rw [hcomms, hgrants, granted]

/-- A run on an engine that has taken no grant yet. -/
theorem exists_consulted {s₀ : Shared} {w : World} (hnew : s₀.stamps = []) (h : Reachable (program cfg) s₀ w) :
    ∃ calls, Consulted cfg w calls := by
  induction h with
  | refl => exact ⟨[], rfl, List.Pairwise.nil, nofun, hnew, rfl, rfl⟩
  | @tail w _ hw hstep ih =>
    obtain ⟨calls, hc⟩ := ih
    cases hstep with
    | start j => exact ⟨calls, consulted_start hw hc j⟩
    | act k j i a s j' hj hnext => exact consulted_act hc hj hnext

/-- In every run the engine answers as to one sequence of calls, whose times do not decrease. -/
theorem consulted_of_reachable {baseline : Option Bytes} {logger : Option Logger} {clock : Int} {s₀ : Shared}
    {w : World} (h₀ : start cfg baseline logger clock = some s₀) (h : Reachable (program cfg) s₀ w) :
    ∃ calls, Consulted cfg w calls :=
  exists_consulted (by rw [eq_of_start h₀]) h

theorem consulted_of_reachable_beacon : ∃ (w : World) (calls : List Call), calls.map Call.score = [95] ∧
    Consulted liveConfig w calls := by
  have hrun : ((start liveConfig none (some (newLogger none)) 0).any fun s =>
      (exec (program liveConfig) { shared := s } beaconMoves).any fun w =>
        (consultations w).map (·.1.score) == [95]) = true := by decide +kernel
  obtain ⟨s₀, w, h₀, h, hw⟩ := reachable_of_exec hrun
  obtain ⟨calls, hc⟩ := consulted_of_reachable h₀ h
  refine ⟨w, calls, ?_, hc⟩
  rw [← hc.asked, List.map_map]
  exact beq_iff_eq.1 hw

/-! ## What the budget is spent on -/

/-- The job has a grant, taken in the minute up to `T`. -/
def GrantedIn (cfg : Config) (w : World) (T : ℝ) (k : Nat) : Prop :=
  ∃ a now, a ∈ history k w.trace ∧ grantTime cfg (comms w) (k, a) = some now ∧ T - actionWindow < now ∧ now ≤ T

theorem exists_grant {w : World} {k : Nat} {j : Job} (hj : w.tasks[k]? = some j)
    (h : 0 < granted cfg j.event (history k w.trace)) : ∃ T, GrantedIn cfg w T k := by
  obtain ⟨a, ha, hgrants⟩ := List.countP_pos_iff.1 h
  have hk : (comms w)[k]? = some j.event.comm := by rw [comms, List.getElem?_map, hj]; rfl
  unfold Action.grants at hgrants
  split at hgrants
  · rename_i now score stamps d
    refine ⟨now, _, now, ha, ?_, ?_, le_rfl⟩
    · simp only [grantTime, hk]
      rw [if_pos hgrants]
    · exact sub_lt_self _ (by norm_num [actionWindow])
  · cases hgrants

open Classical in
/-- In every run, a kill or pause attempt is made on a grant, and no minute has given the grants for more of them
than the configured limit. -/
theorem actions_within_budget {baseline : Option Bytes} {logger : Option Logger} {clock : Int} {s₀ : Shared}
    {w : World} (h₀ : start cfg baseline logger clock = some s₀) (h : Reachable (program cfg) s₀ w) :
    (∀ k a, (k, a) ∈ w.trace → a.attempts = true → ∃ T, GrantedIn cfg w T k) ∧
    ∀ T : ℝ, (w.trace.countP fun p => p.2.attempts && (GrantedIn cfg w T p.1 : Bool) : Nat) ≤
      max cfg.policy.maxActionsPerWindow 0 := by
  have hjustified : ∀ k j, w.tasks[k]? = some j →
      attempts (history k w.trace) ≤ granted cfg j.event (history k w.trace) ∧
        granted cfg j.event (history k w.trace) ≤ 1 := by
    intro k j hj
    obtain ⟨hle, hone, -⟩ := attempts_le_granted (past_of_reachable h hj)
    exact ⟨hle, hone⟩
  refine ⟨fun k a hmem hattempt => ?_, fun T => ?_⟩
  · have hj := List.getElem?_eq_getElem (lt_of_mem_trace h hmem)
    have hpos : 0 < attempts (history k w.trace) :=
      List.countP_pos_iff.2 ⟨a, mem_history.2 hmem, hattempt⟩
    exact exists_grant hj (hpos.trans_le (hjustified k _ hj).1)
  · -- of each job, the attempt is paid for by its grant
    have hjobs : ∀ k, (history k w.trace).countP (fun a => a.attempts && (GrantedIn cfg w T k : Bool)) ≤
        (history k w.trace).countP fun a => ((grantTime cfg (comms w) (k, a)).map fun t : Int =>
          ((T - actionWindow < t ∧ t ≤ T : Prop) : Bool)).getD false := by
      intro k
      by_cases hk : k < w.tasks.length
      · obtain ⟨hle, hone⟩ := hjustified k _ (List.getElem?_eq_getElem hk)
        by_cases hin : GrantedIn cfg w T k
        · have hattempts : (history k w.trace).countP (fun a => a.attempts && (GrantedIn cfg w T k : Bool)) ≤ 1 := by
            simp only [hin, decide_true, Bool.and_true]
            exact hle.trans hone
          obtain ⟨a, now, ha, hgrant, hlo, hhi⟩ := hin
          refine hattempts.trans (List.countP_pos_iff.2 ⟨a, ha, ?_⟩)
          simp [hgrant, hlo, hhi]
        · simp [hin]
      · rw [history_of_le h (not_lt.1 hk)]
        exact le_rfl
    obtain ⟨calls, hc⟩ := exists_consulted (by rw [eq_of_start h₀]) h
    have hgrants := countP_grantTimes_le cfg.policy hc.sorted T
    rw [← hc.granted, List.countP_filterMap] at hgrants
    exact (Int.ofNat_le.2 (countP_le_of_histories hjobs)).trans hgrants

open Classical in
/-- The beacon is killed on the grant of a minute that gives no more than the limit. -/
theorem actions_within_budget_beacon : ∃ (w : World) (a : Action) (T : ℝ), (0, a) ∈ w.trace ∧ a.attempts = true ∧
    GrantedIn liveConfig w T 0 ∧
    (w.trace.countP fun p => p.2.attempts && (GrantedIn liveConfig w T p.1 : Bool) : Nat) ≤ (50 : Int) := by
  have hrun : ((start liveConfig none (some (newLogger none)) 0).any fun s =>
      (exec (program liveConfig) { shared := s } beaconMoves).any fun w =>
        (history 0 w.trace).any Action.attempts) = true := by decide +kernel
  obtain ⟨s₀, w, h₀, h, hw⟩ := reachable_of_exec hrun
  obtain ⟨a, ha, hattempt⟩ := List.any_eq_true.1 hw
  obtain ⟨hgranted, hbound⟩ := actions_within_budget h₀ h
  obtain ⟨T, hT⟩ := hgranted 0 a (mem_history.1 ha) hattempt
  exact ⟨w, a, T, mem_history.1 ha, hattempt, hT, hbound T⟩

/-! ## What the budget allows -/

/-- When a call of `Evaluate` came to the limiter. -/
def askTime (cfg : Config) (comms : List Bytes) (p : Nat × Action) : Option Int :=
  (consultation comms p).bind fun c => if asks cfg.policy c.1.comm c.1.score then some c.1.now else none

/-- A decision to act. -/
def Action.resolves : Action → Bool
  | evaluate _ _ _ d => d.live
  | _ => false

/-- A decision to act has been made, and nothing is done about it yet. -/
def Stage.actionDue : Stage → Bool
  | decided _ d | acting d => d.live
  | _ => false

theorem Consulted.asked_at {w : World} {calls : List Call} (h : Consulted cfg w calls) :
    w.trace.filterMap (askTime cfg (comms w)) = askTimes cfg.policy calls := by
  rw [← h.asked, askTimes_eq_filterMap, consultations, List.filterMap_map, List.filterMap_filterMap]
  rfl

theorem accounts_actionDue : Accounts (program cfg) (fun _ => True) (fun j => j.stage.actionDue) Action.resolves
    Action.attempts := by
  refine accounts_of_acts (p := Stage.actionDue) rfl fun ev s s' stage stage' a _ ha => ?_
  cases ha with
  | auditLimited | auditDecision =>
    rcases auditWith_cases _ _ s with ⟨-, h⟩ | ⟨l, -, h⟩ <;> (rw [h]; rfl)
  | kill d hard live =>
    have hlive := live_of_acts (by rw [hard]; rfl) live
    split <;> simp [Stage.actionDue, Action.attempts, Action.resolves, hlive]
  | pause d soft live =>
    have hlive := live_of_acts (by rw [soft]; rfl) live
    simp [Stage.actionDue, Action.attempts, Action.resolves, hlive]
  | spare d dead => simp [Stage.actionDue, Action.attempts, Action.resolves, dead]
  | evaluate => exact (Nat.zero_add _).symm
  | _ => rfl

theorem decision_of_acts {s s' : Shared} {stage stage' : Stage} {now score : Int} {stamps : Timestamps} {d : Decision}
    (h : Acts cfg ev s stage (.evaluate now score stamps d) s' stage') :
    d = (evaluate cfg.policy now ev.comm score stamps).1 := by
  rcases acts_engine h with ⟨now', score', d', heq, -, -, hdecides⟩ | ⟨hother, -⟩
  · cases heq
    rw [hdecides]
  · exact absurd rfl (hother now score stamps d)

/-- Each grant is a decision to act. -/
theorem length_granted {s₀ : Shared} {w : World} (h : Reachable (program cfg) s₀ w) :
    (w.trace.filterMap (grantTime cfg (comms w))).length = w.trace.countP fun p => p.2.resolves := by
  rw [List.length_filterMap_eq_countP]
  refine List.countP_congr fun p hmem => ?_
  obtain ⟨k, a⟩ := p
  obtain ⟨pre, post, htrace⟩ := List.append_of_mem hmem
  obtain ⟨j, hj, hd⟩ := action_of_reachable
    (R := fun ev _ a => ∀ now score stamps d, a = .evaluate now score stamps d →
      d = (evaluate cfg.policy now ev.comm score stamps).1)
    (fun ev s s' stage stage' a as _ hacts now score stamps d heq => decision_of_acts (heq ▸ hacts)) h htrace
  have hk : (comms w)[k]? = some j.event.comm := by rw [comms, List.getElem?_map, hj]; rfl
  cases a with
  | evaluate now score stamps d =>
    have hlive := (live_evaluate cfg.policy now j.event.comm score stamps).1
    rw [← hd _ _ _ _ rfl] at hlive
    simp only [grantTime, hk, Action.resolves, hlive]
    split <;> simp [*]
  | _ => exact Iff.rfl

/-- In every run the budget is put to full use: of the evaluations that ask for an action, no choice within the budget
has more than there are kill and pause attempts, made or due. -/
theorem attempts_are_most {baseline : Option Bytes} {logger : Option Logger} {clock : Int} {s₀ : Shared} {w : World}
    (h₀ : start cfg baseline logger clock = some s₀) (h : Reachable (program cfg) s₀ w) {chosen : List Int}
    (hs : chosen.Sublist (w.trace.filterMap (askTime cfg (comms w))))
    (hb : Budgeted actionWindow cfg.policy.maxActionsPerWindow chosen) :
    chosen.length ≤ w.trace.countP (fun p => p.2.attempts) + w.tasks.countP fun j => j.stage.actionDue := by
  obtain ⟨calls, hc⟩ := exists_consulted (by rw [eq_of_start h₀]) h
  have hmost := length_le_grantTimes cfg.policy hc.sorted (hc.asked_at ▸ hs) hb
  have hbooks := accounts_actionDue.reachable keeps_true trivial h
  rw [← hc.granted, length_granted h, ← hbooks] at hmost
  exact hmost.trans_eq (Nat.add_comm _ _)

/-- Two beacons within a minute, and one action allowed: the second one could have been taken instead of the first,
not as well. -/
theorem attempts_are_most_two : ∃ (cfg : Config) (w : World) (t t' : Int),
    w.trace.filterMap (askTime cfg (comms w)) = [t, t'] ∧ w.trace.countP (fun p => p.2.attempts) = 1 ∧
      [t'].length ≤ w.trace.countP (fun p => p.2.attempts) + w.tasks.countP fun j => j.stage.actionDue := by
  let cfg : Config := { liveConfig with policy := { liveConfig.policy with maxActionsPerWindow := 1 } }
  have hrun : ((start cfg none none 0).any fun s =>
      (exec (program cfg) { shared := s } (beaconMoves ++ .start { record := beacon } :: List.replicate 10
        (.act 1 { elapsed := 10 ^ 6,
                  answer := some (lit "\x7b\"threat_score\":95,\"recommended_action\":\"kill\"\x7d") }))).any fun w =>
        (w.trace.filterMap (askTime cfg (comms w))).length == 2 && w.trace.countP (fun p => p.2.attempts) == 1) = true := by
    decide +kernel
  obtain ⟨s₀, w, h₀, h, hw⟩ := reachable_of_exec hrun
  rw [Bool.and_eq_true, beq_iff_eq, beq_iff_eq] at hw
  obtain ⟨t, t', hasked⟩ := List.length_eq_two.1 hw.1
  refine ⟨cfg, w, t, t', hasked, hw.2, attempts_are_most h₀ h ?_ fun T => ?_⟩
  · rw [hasked]
    exact List.sublist_cons_self t [t']
  · exact Int.ofNat_le.2 List.countP_le_length

end WatchBPF.Agent
