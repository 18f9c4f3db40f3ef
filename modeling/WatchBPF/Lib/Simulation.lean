/-
Simulation between programs for tasks, with stuttering on both sides. If one task's action is answered by any
number of actions of the task that corresponds to it, then whole runs are answered by whole runs, and their traces
fall into chunks that correspond.
-/
import WatchBPF.Lib.Tasks

namespace WatchBPF.Tasks

variable {σ τ α ι σ' τ' α' ι' : Type}

/-! ## Chunks -/

/-- The lists can be cut into chunks that correspond. -/
inductive Chunked (C : List α → List α' → Prop) : List α → List α' → Prop
  | nil : Chunked C [] []
  | snoc {l : List α} {l' : List α'} {c : List α} {c' : List α'} : Chunked C l l' → C c c' →
      Chunked C (l ++ c) (l' ++ c')

namespace Chunked

variable {C : List α → List α' → Prop} {l m : List α} {l' m' : List α'}

theorem single (h : C l l') : Chunked C l l' := by
  have := Chunked.nil.snoc h
  rwa [List.nil_append, List.nil_append] at this

theorem append (h : Chunked C l l') (hm : Chunked C m m') : Chunked C (l ++ m) (l' ++ m') := by
  induction hm with
  | nil => rwa [List.append_nil, List.append_nil]
  | snoc _ hc ih =>
    rw [← List.append_assoc, ← List.append_assoc]
    exact ih.snoc hc

theorem flip (h : Chunked C l l') : Chunked (fun c' c => C c c') l' l := by
  induction h with
  | nil => exact .nil
  | snoc _ hc ih => exact ih.snoc hc

theorem mono {D : List α → List α' → Prop} (hCD : ∀ c c', C c c' → D c c') (h : Chunked C l l') : Chunked D l l' := by
  induction h with
  | nil => exact .nil
  | snoc _ hc ih => exact ih.snoc (hCD _ _ hc)

/-- What holds of the right sides of all chunks holds along the right list. -/
theorem forall_right {p : α' → Prop} (h : Chunked C l l') (hp : ∀ c c', C c c' → ∀ a ∈ c', p a) : ∀ a ∈ l', p a := by
  induction h with
  | nil => nofun
  | snoc _ hc ih =>
    intro a ha
    exact (List.mem_append.1 ha).elim (ih a) (hp _ _ hc a)

end Chunked

/-- Chunks of one task. -/
def Numbered (C : List α → List α' → Prop) (l : List (Nat × α)) (l' : List (Nat × α')) : Prop :=
  ∃ k c c', l = c.map (k, ·) ∧ l' = c'.map (k, ·) ∧ C c c'

variable {C : List α → List α' → Prop}

theorem Chunked.numbered {l : List α} {l' : List α'} (h : Chunked C l l') (k : Nat) :
    Chunked (Numbered C) (l.map (k, ·)) (l'.map (k, ·)) := by
  induction h with
  | nil => exact .nil
  | snoc _ hc ih =>
    rw [List.map_append, List.map_append]
    exact ih.snoc ⟨k, _, _, rfl, rfl, hc⟩

theorem history_map_self (k : Nat) (l : List α) : history k (l.map (k, ·)) = l := by
  simp [history, List.filter_map, Function.comp_def]

theorem history_map_ne {k j : Nat} (h : j ≠ k) (l : List α) : history k (l.map (j, ·)) = [] := by
  simp [history, List.filter_map, Function.comp_def, h]

/-- The chunks of all tasks are chunks of each. -/
theorem Chunked.history {tr : List (Nat × α)} {tr' : List (Nat × α')} (h : Chunked (Numbered C) tr tr') (k : Nat) :
    Chunked C (history k tr) (history k tr') := by
  induction h with
  | nil => exact .nil
  | snoc _ hc ih =>
    obtain ⟨j, c, c', rfl, rfl, hc⟩ := hc
    rw [history_append, history_append]
    refine ih.append ?_
    by_cases hj : j = k
    · subst hj
      rw [history_map_self, history_map_self]
      exact .single hc
    · rw [history_map_ne hj, history_map_ne hj]
      exact .nil

/-! ## Bursts -/

/-- What a task does with nothing of others in between. -/
inductive Burst (P : Program σ τ α ι) : σ → τ → List α → σ → τ → Prop
  | nil (s : σ) (t : τ) : Burst P s t [] s t
  | cons {s s₁ s₂ : σ} {t t₁ t₂ : τ} {a : α} {as : List α} (i : ι) (h : P.next i s t = some (a, s₁, t₁))
      (rest : Burst P s₁ t₁ as s₂ t₂) : Burst P s t (a :: as) s₂ t₂

variable {P : Program σ τ α ι} {Q : Program σ' τ' α' ι'}

theorem Burst.single {s s' : σ} {t t' : τ} {a : α} (i : ι) (h : P.next i s t = some (a, s', t')) :
    Burst P s t [a] s' t' := .cons i h (.nil _ _)

theorem steps_of_burst {s s' : σ} {t t' : τ} {as : List α} (h : Burst P s t as s' t') {w : World σ τ α}
    (hs : w.shared = s) {k : Nat} (here : w.tasks[k]? = some t) : Relation.ReflTransGen (Step P) w
      { shared := s', tasks := w.tasks.set k t', trace := w.trace ++ as.map (k, ·) } := by
  induction h generalizing w with
  | nil s t =>
    obtain ⟨hlt, hget⟩ := List.getElem?_eq_some_iff.1 here
    subst hs hget
    rw [List.set_getElem_self, List.map_nil, List.append_nil]
  | @cons s s₁ s₂ t t₁ t₂ a as i hnext _ ih =>
    subst hs
    have hlt := (List.getElem?_eq_some_iff.1 here).1
    refine .head (.act w k t i a s₁ t₁ here hnext) ?_
    have hrest := ih (w := { shared := s₁, tasks := w.tasks.set k t₁, trace := w.trace ++ [(k, a)] }) rfl
      (List.getElem?_set_self hlt)
    rw [List.set_set, List.append_assoc] at hrest
    exact hrest

/-! ## Simulation -/

/-- Every action of a task of `P` is answered by the corresponding task of `Q`. -/
structure Simulates (P : Program σ τ α ι) (Q : Program σ' τ' α' ι') (S : σ → σ' → Prop) (T : τ → τ' → Prop)
    (C : List α → List α' → Prop) : Prop where
  start : ∀ ts ts' t, List.Forall₂ T ts ts' → P.admits ts t → ∃ t', Q.admits ts' t' ∧ T t t'
  next : ∀ i s s' t t' a s₁ t₁, S s s' → T t t' → P.next i s t = some (a, s₁, t₁) →
    ∃ as s₁' t₁', Burst Q s' t' as s₁' t₁' ∧ S s₁ s₁' ∧ T t₁ t₁' ∧ Chunked C [a] as

/-- The runs have come to states that correspond, by traces that do. -/
structure Alike (S : σ → σ' → Prop) (T : τ → τ' → Prop) (C : List α → List α' → Prop) (w : World σ τ α)
    (w' : World σ' τ' α') : Prop where
  shared : S w.shared w'.shared
  tasks : List.Forall₂ T w.tasks w'.tasks
  trace : Chunked (Numbered C) w.trace w'.trace

variable {S : σ → σ' → Prop} {T : τ → τ' → Prop}

theorem forall₂_getElem? {l : List τ} {l' : List τ'} (h : List.Forall₂ T l l') {k : Nat} {t : τ} (ht : l[k]? = some t) :
    ∃ t', l'[k]? = some t' ∧ T t t' := by
  induction h generalizing k with
  | nil => cases ht
  | cons hhead _ ih =>
    cases k with
    | zero =>
      cases ht
      exact ⟨_, rfl, hhead⟩
    | succ k => exact ih ht

theorem forall₂_set {l : List τ} {l' : List τ'} (h : List.Forall₂ T l l') {t : τ} {t' : τ'} (ht : T t t') (k : Nat) :
    List.Forall₂ T (l.set k t) (l'.set k t') := by
  induction h generalizing k with
  | nil => exact .nil
  | cons hhead htail ih =>
    cases k with
    | zero => exact .cons ht htail
    | succ k => exact .cons hhead (ih k)

/-- What can be answered action by action can be answered run by run. -/
theorem Simulates.run (h : Simulates P Q S T C) {start : σ} {start' : σ'} (h₀ : S start start') {w : World σ τ α}
    (hw : Reachable P start w) : ∃ w', Reachable Q start' w' ∧ Alike S T C w w' := by
  induction hw with
  | refl => exact ⟨_, .refl, h₀, .nil, .nil⟩
  | tail _ hstep ih =>
    obtain ⟨w', hw', hshared, htasks, htrace⟩ := ih
    cases hstep with
    | start t hadm =>
      obtain ⟨t', hadm', ht⟩ := h.start _ _ t htasks hadm
      exact ⟨_, hw'.tail (.start w' t' hadm'), hshared, List.rel_append htasks (.cons ht .nil), htrace⟩
    | act k t i a s t₁ here hnext =>
      obtain ⟨t', here', ht⟩ := forall₂_getElem? htasks here
      obtain ⟨as, s₁', t₁', hburst, hs₁, ht₁, hchunks⟩ := h.next _ _ _ _ _ _ _ _ hshared ht hnext
      exact ⟨_, hw'.trans (steps_of_burst hburst rfl here'), hs₁, forall₂_set htasks ht₁ k,
        htrace.append (hchunks.numbered k)⟩

/-- Seen from the other side. -/
theorem Alike.flip {w : World σ τ α} {w' : World σ' τ' α'}
    (h : Alike (fun s s' => S s' s) (fun t t' => T t' t) (fun c c' => C c' c) w' w) : Alike S T C w w' where
  shared := h.shared
  tasks := h.tasks.flip
  trace := by
    refine h.trace.flip.mono ?_
    rintro c c' ⟨k, l, l', rfl, rfl, hc⟩
    exact ⟨k, l', l, rfl, rfl, hc⟩

end WatchBPF.Tasks
