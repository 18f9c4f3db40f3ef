/-
Gaps between arrivals, for the counter that the first event after its window resets: the events that
pass stay within the bound in every interval of length `w` exactly when, wherever the count starts
anew, the arrivals before and after are far enough apart. The windows are sorted, and two of them one
after the other keep the bound when the event `cap` later is always more than `w` later.
-/
import WatchBPF.Lib.FixedWindow

namespace WatchBPF.FixedWindow

variable {τ : Type} [AddCommGroup τ] [LinearOrder τ] {w : τ} {cap : Nat}

/-- When arrivals are counted anew: at the start, and with the first arrival that comes more than `w` after the count
was last started; `later` are the arrivals from there on. -/
inductive Opened (w : τ) : τ → List (τ × τ) → τ → List (τ × τ) → Prop
  | start {u : τ} {events : List (τ × τ)} : Opened w u events u events
  | next {u v : τ} {early rest later : List (τ × τ)} {e : τ × τ} (within : ∀ a ∈ early, a.1 - u ≤ w)
      (after : w < e.1 - u) (opened : Opened w e.2 (e :: rest) v later) : Opened w u (early ++ e :: rest) v later

/-- Wherever the count starts anew after arrivals `early`: the first `cap` of these come more than `w` before the
arrivals that are `cap` later, or later by as many as there are in `early` if that is more. -/
def Gapped (w : τ) (cap : Nat) (start : τ) (events : List (τ × τ)) : Prop :=
  ∀ v early e rest, Opened w start events v (early ++ e :: rest) → (∀ a ∈ early, a.1 - v ≤ w) → w < e.1 - v →
    ∀ k < cap, ∀ s ∈ early[k]?, ∀ t ∈ (early ++ e :: rest)[max cap early.length + k]?, w < t.1 - s.1

/-! ## Arrivals by windows -/

variable [IsOrderedAddMonoid τ]

omit [IsOrderedAddMonoid τ] in
theorem windows_append {u : τ} {events : List (τ × τ)} : ∀ {early : List (τ × τ)}, (∀ a ∈ early, a.1 - u ≤ w) →
    windows w u (early ++ events) = (early.map (·.1) ++ (windows w u events).1, (windows w u events).2)
  | [], _ => rfl
  | (now, now') :: early, h => by
    rw [List.cons_append, windows, if_neg (not_lt.2 (h _ List.mem_cons_self)),
      windows_append fun a ha => h a (List.mem_cons_of_mem _ ha)]
    rfl

/-- An arrival after the window is the first of the next one. -/
theorem windows_cons {u : τ} {e : τ × τ} {rest : List (τ × τ)} (hw : 0 ≤ w) (he : e.1 ≤ e.2) (h : w < e.1 - u) :
    windows w u (e :: rest) = ([], allWindows w e.2 (e :: rest)) := by
  have hin : ¬e.1 - e.2 > w := not_lt.2 ((sub_nonpos.2 he).trans hw)
  rw [allWindows, windows, if_pos h, windows, if_neg hin]

theorem allWindows_append {u : τ} {early rest : List (τ × τ)} {e : τ × τ} (hw : 0 ≤ w) (he : e.1 ≤ e.2)
    (hearly : ∀ a ∈ early, a.1 - u ≤ w) (h : w < e.1 - u) :
    allWindows w u (early ++ e :: rest) = early.map (·.1) :: allWindows w e.2 (e :: rest) := by
  rw [allWindows, windows_append hearly, windows_cons hw he h, List.append_nil]

omit [IsOrderedAddMonoid τ] in
theorem allWindows_within {u : τ} {events : List (τ × τ)} (h : ∀ a ∈ events, a.1 - u ≤ w) :
    allWindows w u events = [events.map (·.1)] := by
  have hw : windows w u (events ++ []) = (events.map (·.1) ++ (windows w u []).1, (windows w u []).2) :=
    windows_append h
  rw [List.append_nil] at hw
  rw [allWindows, hw, windows, List.append_nil]

omit [IsOrderedAddMonoid τ] in
/-- Either all arrivals are counted from `u` on, or one of them starts the count anew. -/
theorem within_or_next (w u : τ) : ∀ events : List (τ × τ), (∀ a ∈ events, a.1 - u ≤ w) ∨
    ∃ early e rest, events = early ++ e :: rest ∧ (∀ a ∈ early, a.1 - u ≤ w) ∧ w < e.1 - u
  | [] => .inl nofun
  | e :: events => by
    rcases le_or_gt (e.1 - u) w with he | he
    · rcases within_or_next w u events with h | ⟨early, e', rest, rfl, h, he'⟩
      · exact .inl (List.forall_mem_cons.2 ⟨he, h⟩)
      · exact .inr ⟨e :: early, e', rest, rfl, List.forall_mem_cons.2 ⟨he, h⟩, he'⟩
    · exact .inr ⟨[], e, events, rfl, nofun, he⟩

omit [AddCommGroup τ] [IsOrderedAddMonoid τ] in
theorem Clocked.of_append {e : τ × τ} {rest : List (τ × τ)} : ∀ {start : τ} {early : List (τ × τ)},
    Clocked start (early ++ e :: rest) → e.1 ≤ e.2 ∧ Clocked e.1 (e :: rest)
  | _, [], ⟨_, h₂, h₃⟩ => ⟨h₂, le_rfl, h₂, h₃⟩
  | _, _ :: _, ⟨_, _, h₃⟩ => h₃.of_append

omit [AddCommGroup τ] [IsOrderedAddMonoid τ] in
theorem Clocked.le_of_mem : ∀ {start : τ} {events : List (τ × τ)}, Clocked start events → ∀ e ∈ events, start ≤ e.1
  | _, _ :: _, ⟨h₁, h₂, h₃⟩, e, he => by
    rcases List.mem_cons.1 he with rfl | he
    · exact h₁
    · exact (h₁.trans h₂).trans (h₃.le_of_mem e he)

omit [AddCommGroup τ] [IsOrderedAddMonoid τ] in
theorem Clocked.pairwise : ∀ {start : τ} {events : List (τ × τ)}, Clocked start events →
    (events.map (·.1)).Pairwise (· ≤ ·)
  | _, [], _ => .nil
  | _, (_, _) :: _, ⟨_, h₂, h₃⟩ => by
    refine List.pairwise_cons.2 ⟨fun t ht => ?_, h₃.pairwise⟩
    obtain ⟨e, he, rfl⟩ := List.mem_map.1 ht
    exact h₂.trans (h₃.le_of_mem e he)

omit [IsOrderedAddMonoid τ] in
theorem flatten_allWindows (u : τ) (events : List (τ × τ)) : (allWindows w u events).flatten = events.map (·.1) := by
  induction events generalizing u with
  | nil => rfl
  | cons e events ih =>
    obtain ⟨now, now'⟩ := e
    rw [List.map_cons]
    by_cases h : now - u > w
    · rw [← ih now']
      simp only [allWindows, windows, if_pos h, List.flatten_cons, List.nil_append, List.cons_append]
    · rw [← ih u]
      simp only [allWindows, windows, if_neg h, List.flatten_cons, List.cons_append]

/-- The first `cap` of a window come more than `w` before the passing events of the next one that are `cap` later. -/
def Apart (w : τ) (cap : Nat) (a b : List τ) : Prop :=
  ∀ k < cap, ∀ s ∈ a[k]?, ∀ t ∈ b[cap - a.length + k]?, w < t - s

/-- The gaps between arrivals are gaps between windows: what is later than the next window is `w` later anyway. -/
theorem apart_iff {start u : τ} {early rest : List (τ × τ)} {e : τ × τ} {b : List τ} {ws : List (List τ)} (hw : 0 ≤ w)
    (h : Clocked start (early ++ e :: rest)) (hearly : ∀ a ∈ early, a.1 - u ≤ w) (hafter : w < e.1 - u)
    (hb : allWindows w e.2 (e :: rest) = b :: ws) :
    Apart w cap (early.map (·.1)) b ↔
      ∀ k < cap, ∀ s ∈ early[k]?, ∀ t ∈ (early ++ e :: rest)[max cap early.length + k]?, w < t.1 - s.1 := by
  have hspaced : Spaced w (early.map (·.1) :: b :: ws) := by
    rw [← hb, ← allWindows_append hw h.of_append.1 hearly hafter]
    exact spaced_allWindows h
  have hflat : (e :: rest).map (·.1) = b ++ ws.flatten := by rw [← flatten_allWindows, hb, List.flatten_cons]
  have hget : ∀ k, ((early ++ e :: rest)[max cap early.length + k]?).map (·.1) =
      (b ++ ws.flatten)[cap - early.length + k]? := by
    intro k
    rw [List.getElem?_append_right (by omega), ← List.getElem?_map, hflat]
    congr 1
    omega
  constructor
  · intro hapart k hk s hs t ht
    have ht' : (b ++ ws.flatten)[cap - early.length + k]? = some t.1 := by rw [← hget, ht]; rfl
    have hs' : (early.map (·.1))[k]? = some s.1 := by rw [List.getElem?_map, hs]; rfl
    by_cases hlt : cap - early.length + k < b.length
    · rw [List.getElem?_append_left hlt] at ht'
      exact hapart k hk s.1 hs' t.1 (by rw [List.length_map]; exact ht')
    · rw [List.getElem?_append_right (not_lt.1 hlt)] at ht'
      obtain ⟨c, hc, htc⟩ := List.mem_flatten.1 (List.mem_of_getElem? ht')
      exact hspaced.1 s.1 (List.mem_of_getElem? hs') c hc t.1 htc
  · intro hgap k hk s hs t ht
    rw [List.length_map] at ht
    obtain ⟨hlt, -⟩ := List.getElem?_eq_some_iff.1 ht
    have hleft : (b ++ ws.flatten)[cap - early.length + k]? = b[cap - early.length + k]? :=
      List.getElem?_append_left hlt
    rw [Option.mem_def, ← hleft, ← hget] at ht
    obtain ⟨t', ht', rfl⟩ := Option.map_eq_some_iff.1 ht
    rw [Option.mem_def, List.getElem?_map] at hs
    obtain ⟨s', hs', rfl⟩ := Option.map_eq_some_iff.1 hs
    exact hgap k hk s' hs' t' ht'

omit [IsOrderedAddMonoid τ] in
theorem Opened.length_le {u v : τ} {events later : List (τ × τ)} (ho : Opened w u events v later) :
    later.length ≤ events.length := by
  induction ho with
  | start => exact le_rfl
  | next _ _ _ ih =>
    rw [List.length_append]
    omega

/-- What is counted from an opening on are the windows from there on. -/
theorem Opened.isSuffix {u v : τ} {events later : List (τ × τ)} (ho : Opened w u events v later) (hw : 0 ≤ w)
    {start : τ} (h : Clocked start events) : allWindows w v later <:+ allWindows w u events := by
  induction ho generalizing start with
  | start => exact List.suffix_rfl
  | next within after _ ih =>
    rw [allWindows_append hw h.of_append.1 within after]
    exact (ih h.of_append.2).trans (List.suffix_cons _ _)

omit [IsOrderedAddMonoid τ] in
theorem Opened.clocked {u v : τ} {events later : List (τ × τ)} (ho : Opened w u events v later) {start : τ}
    (h : Clocked start events) : ∃ start', Clocked start' later := by
  induction ho generalizing start with
  | start => exact ⟨start, h⟩
  | next _ _ _ ih => exact ih h.of_append.2

theorem isChain_of_gapped (hw : 0 ≤ w) : ∀ {ws : List (List τ)} {start u : τ} {events : List (τ × τ)},
    allWindows w u events = ws → Clocked start events → Gapped w cap u events → ws.IsChain (Apart w cap)
  | [], _, _, _, _, _, _ => .nil
  | [_], _, _, _, _, _, _ => .singleton _
  | a :: b :: ws, _, u, events, heq, h, hgap => by
    rcases within_or_next w u events with hin | ⟨early, e, rest, rfl, hearly, hafter⟩
    · rw [allWindows_within hin] at heq
      cases heq
    · rw [allWindows_append hw h.of_append.1 hearly hafter, List.cons.injEq] at heq
      obtain ⟨rfl, heq⟩ := heq
      refine List.isChain_cons_cons.2 ⟨(apart_iff hw h hearly hafter heq).2 (hgap _ _ _ _ .start hearly hafter), ?_⟩
      exact isChain_of_gapped hw heq h.of_append.2 fun v early' e' rest' ho =>
        hgap v early' e' rest' (.next hearly hafter ho)

/-- The gaps between arrivals, by the windows that they make. -/
theorem gapped_iff {start u : τ} {events : List (τ × τ)} (hw : 0 ≤ w) (h : Clocked start events) :
    Gapped w cap u events ↔ (allWindows w u events).IsChain (Apart w cap) := by
  refine ⟨isChain_of_gapped hw rfl h, fun hchain v early e rest ho hearly hafter => ?_⟩
  obtain ⟨start', h'⟩ := ho.clocked h
  have hsuffix := ho.isSuffix hw h
  rw [allWindows_append hw h'.of_append.1 hearly hafter] at hsuffix
  cases hb : allWindows w e.2 (e :: rest) with
  | nil => cases hb
  | cons b ws =>
    rw [hb] at hsuffix
    exact (apart_iff hw h' hearly hafter hb).1 (hchain.suffix hsuffix).rel

/-! ## Gaps and intervals -/

omit [IsOrderedAddMonoid τ] [AddCommGroup τ] in
/-- What lies between an event and the one `cap` later is more than `cap` events. -/
theorem lt_countP_of_between {P : τ → Bool} {d : List τ} (hd : d.Pairwise (· ≤ ·)) {n : Nat} {s t : τ}
    (hs : d[n]? = some s) (ht : d[n + cap]? = some t) (hP : ∀ x, s ≤ x → x ≤ t → P x = true) : cap < d.countP P := by
  have hbetween : ∀ x ∈ (d.drop n).take (cap + 1), P x = true := by
    intro x hx
    obtain ⟨hlt, rfl⟩ := List.getElem?_eq_some_iff.1 hs
    obtain ⟨hlt', rfl⟩ := List.getElem?_eq_some_iff.1 ht
    obtain ⟨i, hi, rfl⟩ := List.mem_take_iff_getElem.1 hx
    rw [List.getElem_drop]
    have hle : ∀ {i j : Nat} (hi : i < d.length) (hj : j < d.length), i ≤ j → d[i] ≤ d[j] := by
      intro i j hi hj hij
      rcases hij.lt_or_eq with hlt | rfl
      · exact List.pairwise_iff_getElem.1 hd i j hi hj hlt
      · exact le_rfl
    exact hP _ (hle _ _ (by omega)) (hle _ _ (by omega))
  have hlength : ((d.drop n).take (cap + 1)).length = cap + 1 := by
    obtain ⟨hlt, -⟩ := List.getElem?_eq_some_iff.1 ht
    rw [List.length_take, List.length_drop]
    omega
  have hsub : ((d.drop n).take (cap + 1)).Sublist d := (List.take_sublist _ _).trans (List.drop_sublist _ _)
  have hle := hsub.countP_le (p := P)
  rw [List.countP_eq_length.2 hbetween, hlength] at hle
  exact hle

/-- Where the event `cap` later is more than `w` later, no interval of length `w` has more than `cap` events. -/
theorem countP_le_of_gaps {P : τ → Bool} (hP : ∀ s t, P s = true → P t = true → t - s ≤ w) :
    ∀ {d : List τ}, d.Pairwise (· ≤ ·) → (∀ n, ∀ s ∈ d[n]?, ∀ t ∈ d[n + cap]?, w < t - s) → d.countP P ≤ cap
  | [], _, _ => Nat.zero_le _
  | s :: d, hd, hgap => by
    by_cases hs : P s = true
    · -- an event of the interval: from the one `cap` later on all are after it
      have hlate : ((s :: d).drop cap).countP P = 0 := by
        rw [List.countP_eq_zero]
        intro t ht htP
        cases hdrop : (s :: d).drop cap with
        | nil => rw [hdrop] at ht; cases ht
        | cons x rest =>
          have hx : (s :: d)[0 + cap]? = some x := by rw [Nat.zero_add, ← List.head?_drop, hdrop]; rfl
          have hsorted : (x :: rest).Pairwise (· ≤ ·) := hdrop ▸ hd.sublist (List.drop_sublist _ _)
          have hxt : x ≤ t := by
            rw [hdrop] at ht
            rcases List.mem_cons.1 ht with rfl | ht
            · exact le_rfl
            · exact List.rel_of_pairwise_cons hsorted ht
          exact absurd (hP s t hs htP) (not_le.2 ((hgap 0 s rfl x hx).trans_le (sub_le_sub_right hxt s)))
      rw [← List.take_append_drop cap (s :: d), List.countP_append, hlate]
      exact List.countP_le_length.trans (List.length_take_le _ _)
    · rw [List.countP_cons_of_neg hs]
      refine countP_le_of_gaps hP (List.pairwise_cons.1 hd).2 fun n s hs t ht => hgap (n + 1) s hs t ?_
      rwa [Nat.add_right_comm, List.getElem?_cons_succ]

omit [IsOrderedAddMonoid τ] in
/-- Of the events that two windows let pass, those `cap` apart are an early one and a late one. -/
theorem apart_iff_gaps {a b : List τ} : Apart w cap a b ↔
    ∀ n, ∀ s ∈ (a.take cap ++ b.take cap)[n]?, ∀ t ∈ (a.take cap ++ b.take cap)[n + cap]?, w < t - s := by
  have hearly : ∀ n, n < cap → n < a.length → (a.take cap ++ b.take cap)[n]? = a[n]? := by
    intro n hcap hn
    rw [List.getElem?_append_left (by rw [List.length_take]; omega), List.getElem?_take_of_lt hcap]
  have hlate : ∀ n, n < cap → n < a.length → (a.take cap ++ b.take cap)[n + cap]? = b[cap - a.length + n]? := by
    intro n hcap hn
    rw [List.getElem?_append_right (by rw [List.length_take]; omega), List.length_take,
      List.getElem?_take_of_lt (by omega)]
    congr 1
    omega
  constructor
  · intro h n s hs t ht
    obtain ⟨hlt, -⟩ := List.getElem?_eq_some_iff.1 ht
    rw [List.length_append, List.length_take, List.length_take] at hlt
    have hcap : n < cap := by omega
    have hn : n < a.length := by omega
    rw [hearly n hcap hn] at hs
    rw [hlate n hcap hn] at ht
    exact h n hcap s hs t ht
  · intro h k hk s hs t ht
    obtain ⟨hlt, -⟩ := List.getElem?_eq_some_iff.1 hs
    rw [← hearly k hk hlt] at hs
    rw [← hlate k hk hlt] at ht
    exact h k s hs t ht

/-- Two windows together have at most `cap` events in each interval exactly when they are apart. -/
theorem countP_take_le_iff {ι : Type} {P : ι → τ → Bool} (hP : ∀ i s t, P i s = true → P i t = true → t - s ≤ w)
    (hI : ∀ s t, t - s ≤ w → ∃ i, ∀ x, s ≤ x → x ≤ t → P i x = true) {a b : List τ} (hd : (a ++ b).Pairwise (· ≤ ·)) :
    (∀ i, (a.take cap).countP (P i) + (b.take cap).countP (P i) ≤ cap) ↔ Apart w cap a b := by
  have hsorted : (a.take cap ++ b.take cap).Pairwise (· ≤ ·) :=
    hd.sublist ((List.take_sublist _ _).append (List.take_sublist _ _))
  simp only [← List.countP_append]
  rw [apart_iff_gaps]
  refine ⟨fun h n s hs t ht => ?_, fun h i => countP_le_of_gaps (hP i) hsorted h⟩
  by_contra hle
  obtain ⟨i, hi⟩ := hI s t (not_lt.1 hle)
  exact absurd (h i) (not_le.2 (lt_countP_of_between hsorted hs ht hi))

theorem isChain_apart_iff {ι : Type} {P : ι → τ → Bool} (hP : ∀ i s t, P i s = true → P i t = true → t - s ≤ w)
    (hI : ∀ s t, t - s ≤ w → ∃ i, ∀ x, s ≤ x → x ≤ t → P i x = true) :
    ∀ {ws : List (List τ)}, ws.flatten.Pairwise (· ≤ ·) →
      ((∀ i, ws.IsChain fun a b => (a.take cap).countP (P i) + (b.take cap).countP (P i) ≤ cap) ↔
        ws.IsChain (Apart w cap))
  | [], _ => iff_of_true (fun _ => .nil) .nil
  | [_], _ => iff_of_true (fun _ => .singleton _) (.singleton _)
  | a :: b :: ws, hd => by
    have hpair : (a ++ b).Pairwise (· ≤ ·) := by
      rw [List.flatten_cons, List.flatten_cons, ← List.append_assoc] at hd
      exact (List.pairwise_append.1 hd).1
    have hrest : (b :: ws).flatten.Pairwise (· ≤ ·) := by
      rw [List.flatten_cons] at hd
      exact (List.pairwise_append.1 hd).2.1
    simp only [List.isChain_cons_cons, forall_and]
    rw [countP_take_le_iff hP hI hpair, isChain_apart_iff hP hI hrest]

/-- In none of the intervals of length `w` more than `cap` events pass, exactly when the arrivals have the gaps. -/
theorem countP_passing_le_iff_gapped {ι : Type} {P : ι → τ → Bool} (hw : 0 ≤ w)
    (hP : ∀ i s t, P i s = true → P i t = true → t - s ≤ w)
    (hI : ∀ s t, t - s ≤ w → ∃ i, ∀ x, s ≤ x → x ≤ t → P i x = true) {start window : τ} {events : List (τ × τ)}
    (h : Clocked start events) :
    (∀ i, (passing w cap 0 window events).countP (P i) ≤ cap) ↔ Gapped w cap window events := by
  rw [gapped_iff hw h, ← isChain_apart_iff hP hI (by rw [flatten_allWindows]; exact h.pairwise)]
  exact forall_congr' fun i => countP_passing_le_iff h (hP i)

end WatchBPF.FixedWindow
