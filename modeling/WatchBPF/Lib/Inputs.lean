/-
Programs that take their inputs from something else, and keep it in the trace. Without what is kept, their runs
are runs of the program, and every action in the trace is one that its input leads to.
-/
import WatchBPF.Lib.Tasks

namespace WatchBPF.Tasks

variable {σ τ α ι κ : Type}

/-- The program with its inputs made by `f`. -/
def Program.fed (P : Program σ τ α ι) (f : κ → ι) : Program σ τ (α × κ) κ where
  admits := P.admits
  next i s t := (P.next (f i) s t).map fun (a, s, t) => ((a, i), s, t)

instance (P : Program σ τ α ι) [∀ ts t, Decidable (P.admits ts t)] (f : κ → ι) (ts : List τ) (t : τ) :
    Decidable ((P.fed f).admits ts t) := inferInstanceAs (Decidable (P.admits ts t))

def World.unfed (w : World σ τ (α × κ)) : World σ τ α where
  shared := w.shared
  tasks := w.tasks
  trace := w.trace.map fun p => (p.1, p.2.1)

variable {P : Program σ τ α ι} {f : κ → ι}

theorem next_of_fed {i : κ} {s s' : σ} {t t' : τ} {p : α × κ} (h : (P.fed f).next i s t = some (p, s', t')) :
    P.next (f i) s t = some (p.1, s', t') ∧ p.2 = i := by
  obtain ⟨⟨a, s', t'⟩, hnext, heq⟩ := Option.map_eq_some_iff.1 h
  cases heq
  exact ⟨hnext, rfl⟩

theorem reachable_unfed {start : σ} {w : World σ τ (α × κ)} (h : Reachable (P.fed f) start w) :
    Reachable P start w.unfed := by
  induction h with
  | refl => exact .refl
  | @tail w w' _ hstep ih =>
    refine ih.tail ?_
    cases hstep with
    | start t hadm => exact .start w.unfed t hadm
    | act k t i p s t' here hnext =>
      have hact := Step.act w.unfed k t (f i) p.1 s t' here (next_of_fed hnext).1
      unfold World.unfed at hact ⊢
      rwa [List.map_append]

/-- What holds of actions and the inputs that lead to them holds along the trace. -/
theorem forall_mem_trace {R : α → κ → Prop} (hR : ∀ i s t a s' t', P.next (f i) s t = some (a, s', t') → R a i)
    {start : σ} {w : World σ τ (α × κ)} (h : Reachable (P.fed f) start w) : ∀ k a i, (k, a, i) ∈ w.trace → R a i := by
  induction h with
  | refl => nofun
  | @tail w w' _ hstep ih =>
    cases hstep with
    | start => exact ih
    | act k t i p s t' here hnext =>
      intro k' a i' hmem
      rcases List.mem_append.1 hmem with hmem | hmem
      · exact ih k' a i' hmem
      · obtain ⟨hnext, hi⟩ := next_of_fed hnext
        cases List.mem_singleton.1 hmem
        cases hi
        exact hR _ _ _ _ _ _ hnext

theorem mem_unfed {w : World σ τ (α × κ)} {k : Nat} {a : α} :
    (k, a) ∈ w.unfed.trace ↔ ∃ i, (k, a, i) ∈ w.trace := by
  unfold World.unfed
  rw [List.mem_map]
  constructor
  · rintro ⟨⟨k, a, i⟩, hmem, heq⟩
    cases heq
    exact ⟨i, hmem⟩
  · rintro ⟨i, hmem⟩
    exact ⟨_, hmem, rfl⟩

theorem history_unfed (w : World σ τ (α × κ)) (k : Nat) :
    history k w.unfed.trace = (history k w.trace).map (·.1) := by
  unfold history World.unfed
  rw [List.filter_map, List.map_map, List.map_map]
  rfl

end WatchBPF.Tasks
