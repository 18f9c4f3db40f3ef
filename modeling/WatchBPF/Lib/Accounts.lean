/-
Book-keeping over the runs of tasks. Tasks that are in some condition are those that entered it by one
kind of action and have not left it by another; a counter in the shared state that moves along with them
is their number; and what a task can still do is bounded by a potential that its actions use up.
-/
import WatchBPF.Lib.Tasks

namespace WatchBPF.Tasks

variable {σ τ α ι : Type} {P : Program σ τ α ι} {J : σ → Prop} {start : σ} {w : World σ τ α}

theorem ite_eq_toNat (b : Bool) : (if b = true then 1 else 0) = b.toNat := by cases b <;> rfl

theorem countP_set_of {l : List τ} {k : Nat} {t : τ} (h : l[k]? = some t) (p : τ → Bool) (t' : τ) :
    (l.set k t').countP p + (p t).toNat = l.countP p + (p t').toNat := by
  obtain ⟨hlt, rfl⟩ := List.getElem?_eq_some_iff.1 h
  have hle : (if p l[k] = true then 1 else 0) ≤ l.countP p := List.boole_getElem_le_countP hlt
  rw [List.countP_set hlt, ite_eq_toNat (p t')]
  rw [ite_eq_toNat] at hle ⊢
  omega

theorem countP_split {p q r : α → Bool} (h : ∀ a, (p a).toNat = (q a).toNat + (r a).toNat) :
    ∀ l : List α, l.countP p = l.countP q + l.countP r
  | [] => rfl
  | a :: l => by
    have ha := h a
    simp only [List.countP_cons, ite_eq_toNat, countP_split h l]
    omega

/-- A trace is made up of the histories in it. -/
theorem countP_eq_sum {l : List (Nat × α)} {n : Nat} (h : ∀ x ∈ l, x.1 < n) (p : Nat → α → Bool) :
    l.countP (fun x => p x.1 x.2) = ∑ k ∈ Finset.range n, (history k l).countP (p k) := by
  induction l with
  | nil => simp
  | cons x l ih =>
    obtain ⟨hx, hl⟩ := List.forall_mem_cons.1 h
    have hone : ∀ k, (history k (x :: l)).countP (p k) =
        (history k l).countP (p k) + if x.1 = k then (p k x.2).toNat else 0 := by
      intro k
      rw [← List.singleton_append, history_append, List.countP_append, Nat.add_comm]
      split
      · rename_i hk
        subst hk
        rw [show history x.1 [x] = [x.2] from history_singleton_self _ _, List.countP_singleton, ite_eq_toNat]
      · rename_i hk
        rw [show history k [x] = [] from history_singleton_ne hk _, List.countP_nil]
    rw [List.countP_cons, ite_eq_toNat, ih hl, Finset.sum_congr rfl fun k _ => hone k, Finset.sum_add_distrib,
      Finset.sum_ite_eq, if_pos (Finset.mem_range.2 hx)]

/-- What is counted for every task is counted in all. -/
theorem countP_le_of_histories {l : List (Nat × α)} {p q : Nat → α → Bool}
    (h : ∀ k, (history k l).countP (p k) ≤ (history k l).countP (q k)) :
    l.countP (fun x => p x.1 x.2) ≤ l.countP fun x => q x.1 x.2 := by
  have hlt : ∀ x ∈ l, x.1 < (l.map (·.1)).sum + 1 := fun x hx =>
    Nat.lt_succ_of_le (List.le_sum_of_mem (List.mem_map_of_mem hx))
  rw [countP_eq_sum hlt, countP_eq_sum hlt]
  exact Finset.sum_le_sum fun k _ => h k

theorem countP_eq_sum_range (ts : List τ) (q : τ → Bool) :
    ts.countP q = ∑ k ∈ Finset.range ts.length, (ts[k]?.any q).toNat := by
  induction ts with
  | nil => rfl
  | cons t ts ih =>
    rw [List.countP_cons, ite_eq_toNat, ih, List.length_cons, Finset.sum_range_succ']
    rfl

/-- What tasks of one kind do once, and other tasks never, is not done more often than there are such tasks. -/
theorem countP_le_of_tasks {l : List (Nat × α)} {ts : List τ} (hlt : ∀ x ∈ l, x.1 < ts.length) {p : α → Bool}
    {q : τ → Bool} (h : ∀ k t, ts[k]? = some t → (history k l).countP p ≤ (q t).toNat) :
    l.countP (fun x => p x.2) ≤ ts.countP q := by
  rw [countP_eq_sum hlt fun _ => p, countP_eq_sum_range]
  refine Finset.sum_le_sum fun k hk => ?_
  have hget := List.getElem?_eq_getElem (Finset.mem_range.1 hk)
  rw [hget]
  exact h k _ hget

/-! ## Entering and leaving -/

/-- Tasks get into the condition `p` by the actions `enters` and out of it by `leaves`, one at a time. -/
structure Accounts (P : Program σ τ α ι) (J : σ → Prop) (p : τ → Bool) (enters leaves : α → Bool) : Prop where
  init : ∀ ts t, P.admits ts t → p t = false
  step : ∀ i s t a s' t', J s → P.next i s t = some (a, s', t') →
    (p t').toNat + (leaves a).toNat = (p t).toNat + (enters a).toNat

namespace Accounts

variable {p : τ → Bool} {enters leaves : α → Bool}

/-- The books of one task. -/
theorem script (hp : Accounts P J p enters leaves) {t₀ t : τ} {as : List α} (h₀ : p t₀ = false)
    (h : Script P J t₀ as t) : (p t).toNat + as.countP leaves = as.countP enters := by
  induction h with
  | nil => rw [h₀]; rfl
  | snoc i s a s' t' _ hs hnext ih =>
    have hstep := hp.step _ _ _ _ _ _ hs hnext
    simp only [List.countP_append, List.countP_singleton, ite_eq_toNat]
    omega

theorem history_of_reachable (hp : Accounts P J p enters leaves) (hk : Keeps P J) (hJ : J start)
    (h : Reachable P start w) {k : Nat} {t : τ} (ht : w.tasks[k]? = some t) :
    (p t).toNat + (history k w.trace).countP leaves = (history k w.trace).countP enters := by
  obtain ⟨ts, t₀, hadm, hs⟩ := script_of_reachable hk hJ h ht
  exact hp.script (hp.init _ _ hadm) hs

/-- The books of a run. -/
theorem reachable (hp : Accounts P J p enters leaves) (hk : Keeps P J) (hJ : J start) (h : Reachable P start w) :
    w.tasks.countP p + w.trace.countP (fun q => leaves q.2) = w.trace.countP fun q => enters q.2 := by
  induction h with
  | refl => rfl
  | @tail w _ hw hstep ih =>
    cases hstep with
    | start t hadm =>
      rw [List.countP_append, List.countP_singleton, hp.init _ _ hadm]
      exact ih
    | act k t i a s t' here hnext =>
      have hstep := hp.step _ _ _ _ _ _ (shared_of_reachable hk hJ hw) hnext
      have hset := countP_set_of here p t'
      simp only [List.countP_append, List.countP_singleton, ite_eq_toNat]
      omega

/-- The books of the tasks of one kind. -/
theorem reachable_of (hp : Accounts P J p enters leaves) (hk : Keeps P J) (hJ : J start) (h : Reachable P start w)
    (q : τ → Bool) :
    w.tasks.countP (fun t => q t && p t) + w.trace.countP (fun x => w.tasks[x.1]?.any q && leaves x.2) =
      w.trace.countP fun x => w.tasks[x.1]?.any q && enters x.2 := by
  have hlt : ∀ x ∈ w.trace, x.1 < w.tasks.length := fun x hx => lt_of_mem_trace h hx
  rw [countP_eq_sum_range, countP_eq_sum hlt fun k a => w.tasks[k]?.any q && leaves a,
    countP_eq_sum hlt fun k a => w.tasks[k]?.any q && enters a, ← Finset.sum_add_distrib]
  refine Finset.sum_congr rfl fun k hmem => ?_
  obtain ⟨t, ht⟩ : ∃ t, w.tasks[k]? = some t := ⟨_, List.getElem?_eq_getElem (Finset.mem_range.1 hmem)⟩
  have hbooks := hp.history_of_reachable hk hJ h ht
  simp only [ht, Option.any_some]
  cases q t with
  | true => simpa using hbooks
  | false => simp

end Accounts

/-! ## Counters -/

/-- The counter goes up when a task gets into the condition `p` and down when it gets out. -/
structure Counts (P : Program σ τ α ι) (c : σ → Nat) (p : τ → Bool) : Prop where
  init : ∀ ts t, P.admits ts t → p t = false
  step : ∀ i s t a s' t', P.next i s t = some (a, s', t') → (p t = true → 0 < c s) →
    c s' + (p t).toNat = c s + (p t').toNat

/-- The counter is the number of those tasks. -/
theorem Counts.reachable {c : σ → Nat} {p : τ → Bool} (hc : Counts P c p) (h₀ : c start = 0)
    (h : Reachable P start w) : c w.shared = w.tasks.countP p := by
  induction h with
  | refl => exact h₀
  | @tail w _ _ hstep ih =>
    cases hstep with
    | start t hadm => simpa [hc.init _ _ hadm] using ih
    | act k t i a s t' here hnext =>
      have hset := countP_set_of here p t'
      -- the task itself is among those that are counted
      have hpos : p t = true → 0 < c w.shared := fun hp => by
        rw [ih]
        exact List.countP_pos_iff.2 ⟨t, List.mem_of_getElem? here, hp⟩
      have hstep := hc.step _ _ _ _ _ _ hnext hpos
      show c s = (w.tasks.set k t').countP p
      omega

/-! ## Potentials -/

/-- What a task does of one kind is paid for by its potential. -/
theorem countP_of_script (q : α → Bool) (potential : τ → Nat)
    (step : ∀ i s t a s' t', J s → P.next i s t = some (a, s', t') → potential t' + (q a).toNat ≤ potential t)
    {t₀ t : τ} {as : List α} (h : Script P J t₀ as t) : potential t + as.countP q ≤ potential t₀ := by
  induction h with
  | nil => rfl
  | snoc i s a s' t' _ hs hnext ih =>
    have hstep := step _ _ _ _ _ _ hs hnext
    rw [List.countP_append, List.countP_singleton, ite_eq_toNat]
    omega

end WatchBPF.Tasks
