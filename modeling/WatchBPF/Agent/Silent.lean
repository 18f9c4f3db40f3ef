/-
Events that leave no mark. The agent's own events, those of the excluded processes and those that the baseline
knows can be taken out of any run: the other events meet with the same fate, with the same clock, budget and audit
log. One more of them can come whenever its reader waits for a record.
-/
import WatchBPF.Agent.Enforce
import WatchBPF.Agent.Lifecycle
import WatchBPF.Lib.Erase

namespace WatchBPF.Agent

open WatchBPF.Audit WatchBPF.Baseline WatchBPF.Tasks

/-- Neither the agent's own, nor excluded, nor known. -/
def heard (cfg : Config) (store : Store) (j : Job) : Bool :=
  !(j.event.pid == cfg.selfPID || excludedComms.contains j.event.comm || store.isKnown j.event.combination)

theorem heard_eq_false {cfg : Config} {store : Store} {j : Job} : heard cfg store j = false ↔
    (j.event.pid = cfg.selfPID ∨ j.event.comm ∈ excludedComms) ∨ store.isKnown j.event.combination = true := by
  rw [heard, Bool.not_eq_false', Bool.or_eq_true, Bool.or_eq_true, beq_iff_eq, List.contains_iff_mem]

/-- Where the handling of an event that leaves no mark can stand. -/
def Stage.early : Stage → Prop
  | received | looked true | returned => True
  | _ => False

/-- The baseline grows, if anything. -/
theorem keeps_known (cfg : Config) (store : Store) :
    Keeps (program cfg) fun s => store.known ⊆ s.store.known := by
  intro i s j a s' j' hs h
  rcases Lifecycle.store_of_acts (acts_of_next h).2 with ⟨-, hstore⟩ | ⟨-, hstore⟩
  · rw [hstore]
    exact hs.trans (Finset.subset_insert _ _)
  · rwa [hstore]

/-- What is done with such an event changes nothing. -/
theorem still_of_acts {cfg : Config} {ev : Event} {store : Store} {s s' : Shared} {stage stage' : Stage} {a : Action}
    (h : Acts cfg ev s stage a s' stage') (hs : store.known ⊆ s.store.known)
    (hquiet : (ev.pid = cfg.selfPID ∨ ev.comm ∈ excludedComms) ∨ store.isKnown ev.combination = true)
    (hearly : stage.early) : s' = s ∧ stage'.early := by
  cases h with
  | ignore => exact ⟨rfl, trivial⟩
  | lookup pid comm =>
    have hknown : s.store.isKnown ev.combination = true := by
      rcases hquiet with hown | hknown
      · exact absurd hown (not_or.2 ⟨pid, comm⟩)
      · rw [Store.isKnown, decide_eq_true_iff] at hknown ⊢
        exact hs hknown
    rw [hknown]
    exact ⟨rfl, trivial⟩
  | known => exact ⟨rfl, trivial⟩
  | _ => cases hearly

theorem unheard (cfg : Config) (store : Store) :
    Unheard (program cfg) (fun s => store.known ⊆ s.store.known) (heard cfg store) fun j => j.stage.early where
  keeps i s j a s' j' h := by
    have hev : j'.event = j.event := congrArg KernelRecord.event (acts_of_next h).1
    rw [heard, heard, hev]
  starts := by
    rintro js j ⟨hreceived, hfree⟩
    refine ⟨⟨hreceived, fun j' hj' => hfree j' (List.mem_filter.1 hj').1⟩, fun _ => ?_⟩
    rw [hreceived]
    trivial
  still i s j a s' j' hs hquiet hearly h :=
    still_of_acts (acts_of_next h).2 hs (heard_eq_false.1 hquiet) hearly

/-- An event that leaves no mark is dealt with at once. -/
theorem dealt_with {cfg : Config} {s₀ : Shared} {w : World} (h : Reachable (program cfg) s₀ w) {r : KernelRecord}
    (hquiet : heard cfg s₀.store { record := r } = false) (hidle : (program cfg).admits w.tasks { record := r }) :
    ∃ w' : World, Reachable (program cfg) s₀ w' ∧ w'.shared = w.shared ∧
      w'.tasks = w.tasks ++ [{ record := r, stage := .returned }] ∧
      erase (heard cfg s₀.store) w' = erase (heard cfg s₀.store) w := by
  have hu := unheard cfg s₀.store
  have hk := keeps_known cfg s₀.store
  have hJ : s₀.store.known ⊆ s₀.store.known := Finset.Subset.rfl
  -- the job is the last one, and its actions leave what is shared
  have hact : ∀ {w₁ : World} {stage stage' : Stage} {a : Action}, Reachable (program cfg) s₀ w₁ →
      w₁.shared = w.shared → w₁.tasks = w.tasks ++ [{ record := r, stage }] →
      erase (heard cfg s₀.store) w₁ = erase (heard cfg s₀.store) w →
      advance cfg r.event {} w.shared stage = some (a, w.shared, stage') →
      ∃ w₂ : World, Reachable (program cfg) s₀ w₂ ∧ w₂.shared = w.shared ∧
        w₂.tasks = w.tasks ++ [{ record := r, stage := stage' }] ∧
        erase (heard cfg s₀.store) w₂ = erase (heard cfg s₀.store) w := by
    intro w₁ stage stage' a h₁ hshared htasks herase hadvance
    have here : w₁.tasks[w.tasks.length]? = some { record := r, stage } := by
      rw [htasks]
      exact List.getElem?_concat_length
    have hnext : (program cfg).next {} w₁.shared { record := r, stage } =
        some (a, w.shared, { record := r, stage := stage' }) := by
      rw [hshared]
      show (advance cfg r.event {} w.shared stage).map _ = _
      rw [hadvance]
      rfl
    refine ⟨_, h₁.tail (.act _ _ _ _ a _ _ here hnext), rfl, ?_, ?_⟩
    · show w₁.tasks.set _ _ = _
      rw [htasks, List.set_append_right _ _ le_rfl, Nat.sub_self]
      rfl
    · exact (hu.erase_act hk hJ h₁ here hnext hquiet).trans herase
  have hreach : Reachable (program cfg) s₀ { w with tasks := w.tasks ++ [{ record := r }] } :=
    h.tail (.start w _ hidle)
  have herase := Unheard.erase_start h hquiet
  by_cases hown : r.event.pid = cfg.selfPID ∨ r.event.comm ∈ excludedComms
  · exact hact (a := .ignore) hreach rfl rfl herase (by simp only [advance, if_pos hown])
  · have hknown : w.shared.store.isKnown r.event.combination = true := by
      have hmem := (heard_eq_false.1 hquiet).resolve_left hown
      rw [Store.isKnown, decide_eq_true_iff] at hmem ⊢
      exact shared_of_reachable hk hJ h hmem
    have hlook : advance cfg r.event {} w.shared .received =
        some (.lookup w.shared.store true, w.shared, .looked true) := by
      simp only [advance, if_neg hown, hknown]
    obtain ⟨w₁, h₁, hshared, htasks, herase₁⟩ := hact hreach rfl rfl herase hlook
    refine hact (a := .pass) h₁ hshared htasks herase₁ ?_
    simp only [advance, if_true, ite_self]

/-- The runs of the agent without the events that leave no mark are just the runs in which there are none; what is
shared is the same in both, and so is what was done for each of the other events. In every state of every run one more
such event can be dealt with, if its reader waits for a record, and nothing else changes. -/
theorem silent_events (cfg : Config) (s₀ : Shared) :
    erase (heard cfg s₀.store) '' {w | Reachable (program cfg) s₀ w} =
      {w | Reachable (program cfg) s₀ w ∧ ∀ j ∈ w.tasks, heard cfg s₀.store j = true} ∧
    ∀ w : World, Reachable (program cfg) s₀ w →
      (erase (heard cfg s₀.store) w).shared = w.shared ∧
      (∀ k j, w.tasks[k]? = some j → heard cfg s₀.store j = true →
        ∃ k', (erase (heard cfg s₀.store) w).tasks[k']? = some j ∧
          history k' (erase (heard cfg s₀.store) w).trace = history k w.trace) ∧
      ∀ r : KernelRecord, heard cfg s₀.store { record := r } = false →
        (∀ j ∈ w.tasks, j.event.label = r.event.label → j.stage.inHandler = false) →
        ∃ w' : World, Reachable (program cfg) s₀ w' ∧ w'.shared = w.shared ∧
          w'.tasks = w.tasks ++ [{ record := r, stage := .returned }] ∧
          erase (heard cfg s₀.store) w' = erase (heard cfg s₀.store) w := by
  refine ⟨(unheard cfg s₀.store).image_erase (keeps_known cfg s₀.store) Finset.Subset.rfl,
    fun w hw => ⟨rfl, ?_, fun r hquiet hidle => dealt_with hw hquiet ⟨rfl, hidle⟩⟩⟩
  intro k j hj hheard
  refine ⟨_, getElem?_filter_of hj hheard, history_rename ?_ w.trace⟩
  rw [List.getElem?_map, hj, Option.map_some, hheard]

/-- A connection of the agent itself comes before the beacon; without it the beacon is looked up all the same. -/
theorem silent_events_own : ∃ (own : KernelRecord) (w v : World), own.event.pid = liveConfig.selfPID ∧
    w.tasks = [{ record := own, stage := .returned }, { record := beacon, stage := .looked false }] ∧
    v.tasks = [{ record := beacon, stage := .looked false }] ∧ history 0 v.trace = history 1 w.trace := by
  let own : KernelRecord :=
    .connect { pid := 900, uid := 0, comm := .replicate 16 0, isIPv6 := 0, ipv6Addr := .replicate 16 0,
               dstAddr := 0x0100007F, dstPort := 11434 }
  have hrun : ((start liveConfig none (some (newLogger none)) 0).any fun s =>
      (exec (program liveConfig) { shared := s }
        [.start { record := own }, .act 0 {}, .start { record := beacon }, .act 1 {}]).any fun w =>
          decide (w.tasks = [{ record := own, stage := .returned }, { record := beacon, stage := .looked false }]) &&
            w.tasks.map (heard liveConfig s.store) == [false, true]) = true := by decide +kernel
  obtain ⟨s₀, h₀, hrun⟩ := (Option.any_eq_true _ _).1 hrun
  obtain ⟨w, hexec, hw⟩ := (Option.any_eq_true _ _).1 hrun
  rw [Bool.and_eq_true, decide_eq_true_iff, beq_iff_eq] at hw
  obtain ⟨htasks, hheard⟩ := hw
  have hbeacon : heard liveConfig s₀.store { record := beacon, stage := .looked false } = true := by
    rw [htasks] at hheard
    exact (List.cons.inj (List.cons.inj hheard).2).1
  have hown : heard liveConfig s₀.store { record := own, stage := .returned } = false := by
    rw [htasks] at hheard
    exact (List.cons.inj hheard).1
  obtain ⟨-, hsame⟩ := silent_events liveConfig s₀
  obtain ⟨-, hhist, -⟩ := hsame w (steps_of_exec hexec)
  obtain ⟨k, hk, hk'⟩ := hhist 1 { record := beacon, stage := .looked false } (by rw [htasks]; rfl) hbeacon
  have hv : (erase (heard liveConfig s₀.store) w).tasks = [{ record := beacon, stage := .looked false }] := by
    show w.tasks.filter _ = _
    rw [htasks, List.filter_cons_of_neg (by simp [hown]), List.filter_cons_of_pos hbeacon, List.filter_nil]
  refine ⟨own, w, _, rfl, htasks, hv, ?_⟩
  rw [hv] at hk
  obtain ⟨hlt, -⟩ := List.getElem?_eq_some_iff.1 hk
  obtain rfl : k = 0 := Nat.lt_one_iff.1 hlt
  exact hk'

end WatchBPF.Agent
