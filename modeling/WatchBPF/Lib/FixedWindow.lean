/-
A counter that is reset by the first event that comes more than `w` after the last reset, and that
lets an event pass while it is at most `cap`. Between two resets at most `cap` events pass; the events
of two counting windows with another between them are more than `w` apart.
-/
import Mathlib.Algebra.Order.Group.Defs
import Mathlib.Tactic

namespace WatchBPF.FixedWindow

variable {τ : Type} [AddCommGroup τ] [LinearOrder τ] {w : τ} {cap : Nat}

/-- One event: the clock is read at `now`, and once more at `now'` for a reset. -/
def tick (w now now' : τ) (count : Nat) (window : τ) : Nat × τ :=
  let (count, window) := if now - window > w then (0, now') else (count, window)
  (count + 1, window)

/-- The times of the events that pass. -/
def passing (w : τ) (cap : Nat) : Nat → τ → List (τ × τ) → List τ
  | _, _, [] => []
  | count, window, (now, now') :: events =>
    let (count, window) := tick w now now' count window
    if count ≤ cap then now :: passing w cap count window events else passing w cap count window events

/-- The times of the events by counting windows, the one that is open first. -/
def windows (w : τ) : τ → List (τ × τ) → List τ × List (List τ)
  | _, [] => ([], [])
  | window, (now, now') :: events =>
    if now - window > w then
      let (first, later) := windows w now' events
      ([], (now :: first) :: later)
    else
      let (first, later) := windows w window events
      (now :: first, later)

def allWindows (w window : τ) (events : List (τ × τ)) : List (List τ) :=
  (windows w window events).1 :: (windows w window events).2

/-- The clock readings follow each other. -/
def Clocked (start : τ) : List (τ × τ) → Prop
  | [] => True
  | (now, now') :: events => start ≤ now ∧ now ≤ now' ∧ Clocked now' events

instance decidableClocked : ∀ (start : τ) (events : List (τ × τ)), Decidable (Clocked start events)
  | _, [] => inferInstanceAs (Decidable True)
  | start, (now, now') :: events =>
    have := decidableClocked now' events
    inferInstanceAs (Decidable (start ≤ now ∧ now ≤ now' ∧ Clocked now' events))

omit [AddCommGroup τ] in
theorem Clocked.snoc : ∀ {start now now' : τ} {events : List (τ × τ)}, Clocked start events → start ≤ now →
    (∀ e ∈ events, e.2 ≤ now) → now ≤ now' → Clocked start (events ++ [(now, now')])
  | _, _, _, [], _, hs, _, h => ⟨hs, h, trivial⟩
  | _, _, _, (_, _) :: _, ⟨h₁, h₂, h₃⟩, _, hl, h =>
    ⟨h₁, h₂, h₃.snoc (hl _ List.mem_cons_self) (fun e he => hl e (List.mem_cons_of_mem _ he)) h⟩

/-- The counter after events. -/
def ticks (w : τ) (events : List (τ × τ)) (start : Nat × τ) : Nat × τ :=
  events.foldl (fun s e => tick w e.1 e.2 s.1 s.2) start

theorem ticks_snoc (events : List (τ × τ)) (e : τ × τ) (start : Nat × τ) :
    ticks w (events ++ [e]) start = tick w e.1 e.2 (ticks w events start).1 (ticks w events start).2 := by
  simp [ticks]

theorem passing_cons (n : Nat) (window : τ) (e : τ × τ) (events : List (τ × τ)) :
    passing w cap n window (e :: events) = (if (tick w e.1 e.2 n window).1 ≤ cap then [e.1] else []) ++
      passing w cap (tick w e.1 e.2 n window).1 (tick w e.1 e.2 n window).2 events := by
  show (if (tick w e.1 e.2 n window).1 ≤ cap then _ else _) = _
  split <;> rfl

theorem passing_snoc (e : τ × τ) : ∀ (n : Nat) (window : τ) (events : List (τ × τ)),
    passing w cap n window (events ++ [e]) = passing w cap n window events ++
      if (tick w e.1 e.2 (ticks w events (n, window)).1 (ticks w events (n, window)).2).1 ≤ cap then [e.1] else []
  | n, window, [] => by
    rw [List.nil_append, passing_cons, passing, passing, List.append_nil]
    rfl
  | n, window, e' :: events => by
    rw [List.cons_append, passing_cons, passing_snoc, passing_cons, List.append_assoc]
    rfl

/-- The first `cap` events of every window pass. -/
theorem passing_eq : ∀ {count : Nat} {window : τ} {events : List (τ × τ)}, passing w cap count window events =
    (windows w window events).1.take (cap - count) ++ (windows w window events).2.flatMap (·.take cap)
  | _, _, [] => by simp [passing, windows]
  | count, window, (now, now') :: events => by
    by_cases h : now - window > w
    · simp only [passing, windows, tick, if_pos h, List.take_nil, List.nil_append, List.flatMap_cons]
      rw [passing_eq]
      cases cap with
      | zero => simp
      | succ cap => simp
    · simp only [passing, windows, tick, if_neg h]
      rw [passing_eq]
      split
      · rw [show cap - count = cap - (count + 1) + 1 by omega, List.take_succ_cons, List.cons_append]
      · rw [show cap - count = 0 by omega, show cap - (count + 1) = 0 by omega]
        rfl

theorem passing_zero (window : τ) (events : List (τ × τ)) :
    passing w cap 0 window events = ((allWindows w window events).map (·.take cap)).flatten := by
  rw [passing_eq, allWindows, List.map_cons, List.flatten_cons, List.flatMap_def, Nat.sub_zero]

/-! ## Who is counted -/

section Counted

variable {β : Type}

/-- The counts that events get, each with what the event is about. -/
def counted (w : τ) : Nat → τ → List (β × τ × τ) → List (β × Nat)
  | _, _, [] => []
  | count, window, (b, now, now') :: events =>
    let (count, window) := tick w now now' count window
    (b, count) :: counted w count window events

/-- What the events of each counting window are about, the window that is open first. -/
def groups (w : τ) : τ → List (β × τ × τ) → List β × List (List β)
  | _, [] => ([], [])
  | window, (b, now, now') :: events =>
    if now - window > w then
      let (first, later) := groups w now' events
      ([], (b :: first) :: later)
    else
      let (first, later) := groups w window events
      (b :: first, later)

def allGroups (w window : τ) (events : List (β × τ × τ)) : List (List β) :=
  (groups w window events).1 :: (groups w window events).2

/-- Every event is in one window, and their order is kept. -/
theorem flatten_allGroups (window : τ) (events : List (β × τ × τ)) :
    (allGroups w window events).flatten = events.map (·.1) := by
  induction events generalizing window with
  | nil => rfl
  | cons e events ih =>
    obtain ⟨b, now, now'⟩ := e
    rw [List.map_cons]
    by_cases h : now - window > w
    · rw [← ih now']
      simp only [allGroups, groups, if_pos h, List.flatten_cons, List.nil_append, List.cons_append]
    · rw [← ih window]
      simp only [allGroups, groups, if_neg h, List.flatten_cons, List.cons_append]

theorem counted_cons (n : Nat) (window : τ) (e : β × τ × τ) (events : List (β × τ × τ)) :
    counted w n window (e :: events) = (e.1, (tick w e.2.1 e.2.2 n window).1) ::
      counted w (tick w e.2.1 e.2.2 n window).1 (tick w e.2.1 e.2.2 n window).2 events := rfl

theorem counted_snoc (e : β × τ × τ) : ∀ (n : Nat) (window : τ) (events : List (β × τ × τ)),
    counted w n window (events ++ [e]) = counted w n window events ++
      [(e.1, (tick w e.2.1 e.2.2 (ticks w (events.map (·.2)) (n, window)).1
        (ticks w (events.map (·.2)) (n, window)).2).1)]
  | _, _, [] => rfl
  | n, window, e' :: events => by
    rw [List.cons_append, counted_cons, counted_snoc, counted_cons]
    rfl

/-- In every window the events are counted from one on. -/
theorem counted_eq : ∀ {count : Nat} {window : τ} {events : List (β × τ × τ)}, counted w count window events =
    (groups w window events).1.zipIdx (count + 1) ++ (groups w window events).2.flatMap (·.zipIdx 1)
  | _, _, [] => rfl
  | count, window, (b, now, now') :: events => by
    by_cases h : now - window > w
    · simp only [counted, groups, tick, if_pos h, List.zipIdx_nil, List.nil_append, List.flatMap_cons,
        List.zipIdx_cons, List.cons_append]
      rw [counted_eq]
    · simp only [counted, groups, tick, if_neg h, List.zipIdx_cons, List.cons_append]
      rw [counted_eq]

/-- An event's place in its window is its count. -/
theorem mem_counted {window : τ} {events : List (β × τ × τ)} {g : List β} (hg : g ∈ allGroups w window events)
    {i : Nat} {b : β} (hb : g[i]? = some b) : (b, i + 1) ∈ counted w 0 window events := by
  have hzip : (b, i + 1) ∈ g.zipIdx 1 := List.mem_zipIdx_iff_le_and_getElem?_sub.2 ⟨by omega, by simpa using hb⟩
  rw [counted_eq]
  rcases List.mem_cons.1 hg with rfl | hg
  · exact List.mem_append_left _ hzip
  · exact List.mem_append_right _ (List.mem_flatMap.2 ⟨g, hg, hzip⟩)

end Counted

/-! ## Windows are spaced -/

/-- What comes two windows later comes more than `w` later. -/
def Spaced (w : τ) : List (List τ) → Prop
  | a :: b :: rest => (∀ s ∈ a, ∀ c ∈ rest, ∀ t ∈ c, w < t - s) ∧ Spaced w (b :: rest)
  | _ => True

theorem Spaced.tail {a : List τ} : ∀ {ws : List (List τ)}, Spaced w (a :: ws) → Spaced w ws
  | [], _ => trivial
  | _ :: _, h => h.2

theorem Spaced.take (n : Nat) : ∀ {ws : List (List τ)}, Spaced w ws → Spaced w (ws.map (·.take n))
  | [], _ => trivial
  | [_], _ => trivial
  | a :: b :: rest, h => by
    refine ⟨fun s hs c hc t ht => ?_, Spaced.take n h.2⟩
    obtain ⟨d, hd, rfl⟩ := List.mem_map.1 hc
    exact h.1 s (List.mem_of_mem_take hs) d hd t (List.mem_of_mem_take ht)

theorem le_of_mem_windows {start : τ} : ∀ {window : τ} {events : List (τ × τ)}, Clocked start events →
    ∀ a ∈ allWindows w window events, ∀ t ∈ a, start ≤ t
  | _, [], _, a, ha, t, ht => by
    rw [List.mem_singleton.1 ha] at ht
    cases ht
  | window, (now, now') :: events, ⟨h₁, h₂, h₃⟩, a, ha, t, ht => by
    have hnow := h₁.trans h₂
    rw [allWindows, windows] at ha
    split at ha
    · -- a reset: the event is the first of the next window
      have ih : ∀ a ∈ allWindows w now' events, ∀ t ∈ a, now' ≤ t := le_of_mem_windows h₃
      rcases List.mem_cons.1 ha with rfl | ha
      · cases ht
      · rcases List.mem_cons.1 ha with rfl | ha
        · rcases List.mem_cons.1 ht with rfl | ht
          · exact h₁
          · exact hnow.trans (ih _ List.mem_cons_self t ht)
        · exact hnow.trans (ih a (List.mem_cons_of_mem _ ha) t ht)
    · have ih : ∀ a ∈ allWindows w window events, ∀ t ∈ a, now' ≤ t := le_of_mem_windows h₃
      rcases List.mem_cons.1 ha with rfl | ha
      · rcases List.mem_cons.1 ht with rfl | ht
        · exact h₁
        · exact hnow.trans (ih _ List.mem_cons_self t ht)
      · exact hnow.trans (ih a (List.mem_cons_of_mem _ ha) t ht)

variable [IsOrderedAddMonoid τ]

/-- The events after a reset come more than `w` after the last one. -/
theorem lt_of_mem_later {start : τ} : ∀ {window : τ} {events : List (τ × τ)}, Clocked start events →
    ∀ a ∈ (windows w window events).2, ∀ t ∈ a, w < t - window
  | _, [], _, a, ha, _, _ => by cases ha
  | window, (now, now') :: events, ⟨_, h₂, h₃⟩, a, ha, t, ht => by
    by_cases h : now - window > w
    · -- the reset comes more than `w` after the window began, the rest after the reset
      simp only [windows, if_pos h] at ha
      have hle : now ≤ t := by
        rcases List.mem_cons.1 ha with rfl | ha
        · rcases List.mem_cons.1 ht with rfl | ht
          · exact le_rfl
          · exact h₂.trans (le_of_mem_windows h₃ _ List.mem_cons_self t ht)
        · exact h₂.trans (le_of_mem_windows h₃ a (List.mem_cons_of_mem _ ha) t ht)
      exact h.trans_le (sub_le_sub_right hle _)
    · simp only [windows, if_neg h] at ha
      exact lt_of_mem_later h₃ a ha t ht

/-- After two resets all is more than `w` later than the start. -/
theorem lt_of_mem_tail {start : τ} : ∀ {window : τ} {events : List (τ × τ)}, Clocked start events →
    ∀ a ∈ (windows w window events).2.tail, ∀ t ∈ a, w < t - start
  | _, [], _, a, ha, _, _ => by cases ha
  | window, (now, now') :: events, ⟨h₁, h₂, h₃⟩, a, ha, t, ht => by
    have hle := sub_le_sub_left (h₁.trans h₂) t
    by_cases h : now - window > w
    · simp only [windows, if_pos h, List.tail_cons] at ha
      exact (lt_of_mem_later h₃ a ha t ht).trans_le hle
    · simp only [windows, if_neg h] at ha
      exact (lt_of_mem_tail h₃ a ha t ht).trans_le hle

omit [IsOrderedAddMonoid τ] in
theorem spaced_cons {a : List τ} {ws : List (List τ)} (ha : ∀ s ∈ a, ∀ c ∈ ws.tail, ∀ t ∈ c, w < t - s)
    (hws : Spaced w ws) : Spaced w (a :: ws) := by
  cases ws with
  | nil => trivial
  | cons b rest => exact ⟨ha, hws⟩

theorem spaced_allWindows {start : τ} : ∀ {window : τ} {events : List (τ × τ)}, Clocked start events →
    Spaced w (allWindows w window events)
  | _, [], _ => trivial
  | window, (now, now') :: events, ⟨_, h₂, h₃⟩ => by
    -- the event joins the window that was open, after it or before it was reset
    have hjoin : ∀ {window' : τ} (h : ∀ c ∈ (windows w window' events).2.tail, ∀ t ∈ c, w < t - now),
        Spaced w ((now :: (windows w window' events).1) :: (windows w window' events).2) := by
      intro window' h
      have ih : Spaced w (allWindows w window' events) := spaced_allWindows h₃
      refine spaced_cons (fun s hs => ?_) ih.tail
      rcases List.mem_cons.1 hs with rfl | hs
      · exact h
      · cases hlater : (windows w window' events).2 with
        | nil => intro c hc; cases hc
        | cons b rest =>
          rw [allWindows, hlater] at ih
          exact ih.1 s hs
    have htail : ∀ {window' : τ}, ∀ c ∈ (windows w window' events).2.tail, ∀ t ∈ c, w < t - now :=
      fun c hc t ht => (lt_of_mem_tail h₃ c hc t ht).trans_le (sub_le_sub_left h₂ t)
    by_cases h : now - window > w
    · simp only [allWindows, windows, if_pos h]
      exact spaced_cons (fun s hs => by cases hs) (hjoin htail)
    · simp only [allWindows, windows, if_neg h]
      exact hjoin htail

/-! ## Counting in an interval -/

omit [IsOrderedAddMonoid τ] in
/-- An interval no longer than `w` meets at most two windows, one after the other. -/
theorem countP_flatten_le {P : τ → Bool} (hP : ∀ s t, P s = true → P t = true → t - s ≤ w) {bound : Nat} :
    ∀ {ws : List (List τ)}, Spaced w ws → (∀ a ∈ ws, a.countP P ≤ bound) →
      ws.IsChain (fun a b => a.countP P + b.countP P ≤ bound) → ws.flatten.countP P ≤ bound
  | [], _, _, _ => Nat.zero_le _
  | [a], _, hone, _ => by simpa using hone a (by simp)
  | a :: b :: rest, hs, hone, htwo => by
    rw [List.isChain_cons_cons] at htwo
    have ih := countP_flatten_le hP hs.2 (fun c hc => hone c (List.mem_cons_of_mem _ hc)) htwo.2
    rw [List.flatten_cons, List.countP_append]
    rcases Nat.eq_zero_or_pos (a.countP P) with h0 | hpos
    · omega
    · -- an event of the first window is in the interval, so none after the second is
      obtain ⟨s, hsa, hsP⟩ := List.countP_pos_iff.1 hpos
      have hrest : rest.flatten.countP P = 0 := by
        rw [List.countP_eq_zero]
        intro t ht htP
        obtain ⟨c, hc, ht⟩ := List.mem_flatten.1 ht
        exact absurd (hs.1 s hsa c hc t ht) (not_lt.2 (hP s t hsP htP))
      rw [List.flatten_cons, List.countP_append, hrest]
      omega

omit [AddCommGroup τ] [LinearOrder τ] [IsOrderedAddMonoid τ] in
theorem isChain_of_flatten {P : τ → Bool} {bound : Nat} : ∀ {ws : List (List τ)}, ws.flatten.countP P ≤ bound →
    ws.IsChain (fun a b => a.countP P + b.countP P ≤ bound)
  | [], _ => .nil
  | [_], _ => .singleton _
  | a :: b :: rest, h => by
    rw [List.flatten_cons, List.countP_append] at h
    have hrest := h
    rw [List.flatten_cons, List.countP_append] at hrest
    refine List.isChain_cons_cons.2 ⟨by omega, isChain_of_flatten (by omega)⟩

/-- Within an interval no longer than `w` at most `cap` events pass, exactly when that is so of the events
that pass in two windows one after the other. -/
theorem countP_passing_le_iff {start window : τ} {events : List (τ × τ)} (h : Clocked start events) {P : τ → Bool}
    (hP : ∀ s t, P s = true → P t = true → t - s ≤ w) :
    (passing w cap 0 window events).countP P ≤ cap ↔
      (allWindows w window events).IsChain fun a b => (a.take cap).countP P + (b.take cap).countP P ≤ cap := by
  have hmap : ((allWindows w window events).map (·.take cap)).IsChain
      (fun a b => a.countP P + b.countP P ≤ cap) ↔ _ := List.isChain_map _
  rw [passing_zero, ← hmap]
  refine ⟨isChain_of_flatten, countP_flatten_le hP ((spaced_allWindows h).take cap) fun a ha => ?_⟩
  obtain ⟨b, -, rfl⟩ := List.mem_map.1 ha
  exact List.countP_le_length.trans (List.length_take_le _ _)

/-- At most twice `cap` events pass in any case. -/
theorem countP_passing_le {start window : τ} {events : List (τ × τ)} (h : Clocked start events) {P : τ → Bool}
    (hP : ∀ s t, P s = true → P t = true → t - s ≤ w) : (passing w cap 0 window events).countP P ≤ 2 * cap := by
  have hone : ∀ a ∈ (allWindows w window events).map (·.take cap), a.countP P ≤ cap := by
    intro a ha
    obtain ⟨b, -, rfl⟩ := List.mem_map.1 ha
    exact List.countP_le_length.trans (List.length_take_le _ _)
  rw [passing_zero]
  refine countP_flatten_le hP ((spaced_allWindows h).take cap) (fun a ha => (hone a ha).trans (by omega)) ?_
  refine (List.pairwise_of_forall_mem_list fun a ha b hb => ?_).isChain
  have hsum := Nat.add_le_add (hone a ha) (hone b hb)
  omega

/-! ## Longer intervals -/

/-- Every window starts with its first event, and what comes after the window comes after all of it, and more than `w`
after its start. -/
def Paced (w : τ) : List (List τ) → Prop
  | [] => True
  | a :: rest => (∃ h ∈ a, (∀ s ∈ a, h ≤ s) ∧ ∀ c ∈ rest, ∀ t ∈ c, w < t - h) ∧
      (∀ s ∈ a, ∀ c ∈ rest, ∀ t ∈ c, s ≤ t) ∧ Paced w rest

theorem paced_windows {start : τ} : ∀ {window : τ} {events : List (τ × τ)}, Clocked start events →
    Paced w (windows w window events).2 ∧
      ∀ s ∈ (windows w window events).1, ∀ c ∈ (windows w window events).2, ∀ t ∈ c, s ≤ t
  | _, [], _ => ⟨trivial, nofun⟩
  | window, (now, now') :: events, ⟨_, h₂, h₃⟩ => by
    -- the event comes before all that follow
    have hle : ∀ {window' : τ}, ∀ c ∈ allWindows w window' events, ∀ t ∈ c, now ≤ t :=
      fun c hc t ht => h₂.trans (le_of_mem_windows h₃ c hc t ht)
    have hjoin : ∀ {window' : τ}, ∀ s ∈ now :: (windows w window' events).1, ∀ c ∈ (windows w window' events).2,
        ∀ t ∈ c, s ≤ t := by
      intro window' s hs c hc t ht
      rcases List.mem_cons.1 hs with rfl | hs
      · exact hle c (List.mem_cons_of_mem _ hc) t ht
      · exact (paced_windows h₃).2 s hs c hc t ht
    by_cases h : now - window > w
    · simp only [windows, if_pos h]
      refine ⟨⟨⟨now, List.mem_cons_self, fun s hs => ?_, fun c hc t ht => ?_⟩, hjoin, (paced_windows h₃).1⟩, nofun⟩
      · rcases List.mem_cons.1 hs with rfl | hs
        · exact le_rfl
        · exact hle _ List.mem_cons_self s hs
      · exact (lt_of_mem_later h₃ c hc t ht).trans_le (sub_le_sub_left h₂ t)
    · simp only [windows, if_neg h]
      exact ⟨(paced_windows h₃).1, hjoin⟩

/-- Windows whose events all come after `u`, with an interval that ends `n * w` after it. -/
theorem countP_paced_le {P : τ → Bool} : ∀ {n : Nat} {u : τ} {ws : List (List τ)}, Paced w ws →
    (∀ c ∈ ws, ∀ t ∈ c, u < t) → (∀ t, P t = true → t - u ≤ n • w) →
    ((ws.map (·.take cap)).flatten).countP P ≤ n * cap
  | _, _, [], _, _, _ => Nat.zero_le _
  | 0, u, c :: rest, _, hu, hP => by
    rw [Nat.zero_mul, Nat.le_zero, List.countP_eq_zero]
    intro t ht htP
    obtain ⟨d, hd, ht⟩ := List.mem_flatten.1 ht
    obtain ⟨c', hc', rfl⟩ := List.mem_map.1 hd
    have hle := hP t htP
    rw [zero_nsmul, sub_nonpos] at hle
    exact absurd (hu c' hc' t (List.mem_of_mem_take ht)) (not_lt.2 hle)
  | n + 1, u, c :: rest, ⟨⟨h, hmem, _, hlater⟩, _, hrest⟩, hu, hP => by
    have hstart : u < h := hu c List.mem_cons_self h hmem
    have ih : ((rest.map (·.take cap)).flatten).countP P ≤ n * cap := by
      refine countP_paced_le hrest (u := h + w) (fun d hd t ht => ?_) fun t ht => ?_
      · exact lt_sub_iff_add_lt'.1 (hlater d hd t ht)
      · have hle := hP t ht
        rw [succ_nsmul] at hle
        rw [← sub_sub, sub_le_iff_le_add]
        exact (sub_le_sub_left hstart.le t).trans hle
    have hone : (c.take cap).countP P ≤ cap := List.countP_le_length.trans (List.length_take_le _ _)
    rw [List.map_cons, List.flatten_cons, List.countP_append, Nat.succ_mul]
    omega

/-- An interval no longer than `n * w` meets at most `n + 1` windows. -/
theorem countP_meets_le {P : τ → Bool} {n : Nat} (hP : ∀ s t, P s = true → P t = true → t - s ≤ (n + 1) • w) :
    ∀ {b : List τ} {ws : List (List τ)}, Paced w ws → (∀ s ∈ b, ∀ c ∈ ws, ∀ t ∈ c, s ≤ t) →
    (((b :: ws).map (·.take cap)).flatten).countP P ≤ (n + 2) * cap
  | b, [], _, _ => by
    have hone : (b.take cap).countP P ≤ cap := List.countP_le_length.trans (List.length_take_le _ _)
    simp only [List.map_cons, List.map_nil, List.flatten_cons, List.flatten_nil, List.append_nil]
    exact hone.trans (Nat.le_mul_of_pos_left _ (Nat.succ_pos _))
  | b, c :: rest, ⟨⟨h, hmem, hfirst, hlater⟩, hafter, hrest⟩, hb => by
    have hone : ∀ d : List τ, (d.take cap).countP P ≤ cap := fun d =>
      List.countP_le_length.trans (List.length_take_le _ _)
    rw [List.map_cons, List.flatten_cons, List.countP_append]
    rcases Nat.eq_zero_or_pos ((b.take cap).countP P) with h0 | hpos
    · rw [h0, Nat.zero_add]
      exact countP_meets_le hP hrest hafter
    · -- the window has an event of the interval; the next one starts no earlier, and the others are paced
      obtain ⟨s, hsb, hsP⟩ := List.countP_pos_iff.1 hpos
      have hsh : s ≤ h := hb s (List.mem_of_mem_take hsb) c List.mem_cons_self h hmem
      have hothers : ((rest.map (·.take cap)).flatten).countP P ≤ n * cap := by
        refine countP_paced_le hrest (u := h + w) (fun d hd t ht => ?_) fun t ht => ?_
        · exact lt_sub_iff_add_lt'.1 (hlater d hd t ht)
        · have hle := hP s t hsP ht
          rw [succ_nsmul] at hle
          rw [← sub_sub, sub_le_iff_le_add]
          exact (sub_le_sub_left hsh t).trans hle
      have hfew := hone b
      have hnext := hone c
      rw [List.map_cons, List.flatten_cons, List.countP_append, Nat.add_mul, Nat.two_mul]
      omega

/-- At most `cap` events for each length `w` that the interval has, and as many again, pass within it. -/
theorem countP_passing_interval_le {start window : τ} {events : List (τ × τ)} (h : Clocked start events) {P : τ → Bool}
    {n : Nat} (hP : ∀ s t, P s = true → P t = true → t - s ≤ (n + 1) • w) :
    (passing w cap 0 window events).countP P ≤ (n + 2) * cap := by
  rw [passing_zero]
  exact countP_meets_le hP (paced_windows h).1 (paced_windows h).2

end WatchBPF.FixedWindow
