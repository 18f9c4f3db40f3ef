/-
A limiter that grants a request while fewer than `m` of the grants made lie within the last `w` units
of time. It keeps only those grants, and over requests at non-decreasing times it answers as if it
kept them all.
-/
import Mathlib.Algebra.Order.Group.Defs
import Mathlib.Tactic

namespace WatchBPF.Window

variable {τ : Type} [AddCommGroup τ] [LinearOrder τ] [IsOrderedAddMonoid τ] {w : τ} {m : Int}

/-- The times after `now - w`. -/
def recent (w now : τ) (ts : List τ) : List τ := ts.filter fun t => now - w < t

/-- One request: whether it is granted, and the grants kept after it. -/
def request (w : τ) (m : Int) (now : τ) (kept : List τ) : Bool × List τ :=
  if ((recent w now kept).length : Int) < m then (true, recent w now kept ++ [now]) else (false, recent w now kept)

/-- The requests answered so far, with the grants kept. -/
abbrev History (τ : Type) := List (τ × Bool) × List τ

def History.request (w : τ) (m : Int) (h : History τ) (now : τ) : History τ :=
  (h.1 ++ [(now, (Window.request w m now h.2).1)], (Window.request w m now h.2).2)

/-- Requests in order, from a limiter that has granted nothing. -/
def requests (w : τ) (m : Int) (nows : List τ) : History τ := nows.foldl (History.request w m) ([], [])

/-- The times of the requests that were granted. -/
def grants (answers : List (τ × Bool)) : List τ := (answers.filter (·.2)).map (·.1)

omit [AddCommGroup τ] [LinearOrder τ] [IsOrderedAddMonoid τ] in
@[simp] theorem grants_append (l l' : List (τ × Bool)) : grants (l ++ l') = grants l ++ grants l' := by
  simp [grants]

omit [IsOrderedAddMonoid τ] in
theorem recent_append (now : τ) (l l' : List τ) : recent w now (l ++ l') = recent w now l ++ recent w now l' :=
  List.filter_append ..

omit [IsOrderedAddMonoid τ] in
theorem requests_snoc (nows : List τ) (now : τ) :
    requests w m (nows ++ [now]) = (requests w m nows).request w m now := by
  simp [requests]

/-- Pruning at one time does not change what is recent later. -/
theorem recent_recent {now later : τ} (h : now ≤ later) (ts : List τ) :
    recent w later (recent w now ts) = recent w later ts := by
  unfold recent
  rw [List.filter_filter]
  refine List.filter_congr fun t _ => ?_
  rw [Bool.eq_iff_iff]
  simp only [Bool.and_eq_true, decide_eq_true_eq, and_iff_left_iff_imp]
  exact fun ht => (sub_le_sub_right h w).trans_lt ht

/-! ## What denied requests leave behind -/

/-- The same grants are recent, now and at any later time. -/
def Alike (w now : τ) (ts ts' : List τ) : Prop := ∀ later, now ≤ later → recent w later ts = recent w later ts'

omit [IsOrderedAddMonoid τ] in
theorem Alike.refl (now : τ) (ts : List τ) : Alike w now ts ts := fun _ _ => rfl

omit [IsOrderedAddMonoid τ] in
theorem Alike.symm {now : τ} {ts ts' : List τ} (h : Alike w now ts ts') : Alike w now ts' ts :=
  fun later hl => (h later hl).symm

omit [IsOrderedAddMonoid τ] in
theorem Alike.trans {now : τ} {ts ts' ts'' : List τ} (h : Alike w now ts ts') (h' : Alike w now ts' ts'') :
    Alike w now ts ts'' :=
  fun later hl => (h later hl).trans (h' later hl)

omit [IsOrderedAddMonoid τ] in
theorem Alike.later {now later : τ} {ts ts' : List τ} (h : Alike w now ts ts') (hl : now ≤ later) :
    Alike w later ts ts' :=
  fun _ hl' => h _ (hl.trans hl')

omit [IsOrderedAddMonoid τ] in
/-- Limiters that agree on what is recent answer alike, and go on agreeing. -/
theorem Alike.request {now : τ} {ts ts' : List τ} (h : Alike w now ts ts') :
    (Window.request w m now ts).1 = (Window.request w m now ts').1 ∧
      Alike w now (Window.request w m now ts).2 (Window.request w m now ts').2 := by
  unfold Window.request
  rw [h now le_rfl]
  split
  · exact ⟨rfl, Alike.refl now _⟩
  · exact ⟨rfl, Alike.refl now _⟩

/-- A request that is denied prunes, and that shows at no later time. -/
theorem alike_of_denied {now : τ} {ts : List τ} (h : (request w m now ts).1 = false) :
    Alike w now (request w m now ts).2 ts := by
  unfold request at h ⊢
  split at h
  · cases h
  · rename_i hfull
    rw [if_neg hfull]
    exact fun later hl => recent_recent hl ts

/-! ## Pruning and the full history -/

/-- What is kept agrees with the grants made on all that is recent, at any later time. -/
theorem recent_kept {nows : List τ} (h : nows.Pairwise (· ≤ ·)) {later : τ} (hl : ∀ t ∈ nows, t ≤ later) :
    recent w later (requests w m nows).2 = recent w later (grants (requests w m nows).1) := by
  induction nows using List.reverseRecOn generalizing later with
  | nil => rfl
  | append_singleton nows now ih =>
    obtain ⟨hs, -, hle⟩ := List.pairwise_append.1 h
    have hnow : now ≤ later := hl now (by simp)
    have hkept := ih hs fun t ht => hl t (List.mem_append_left _ ht)
    -- the request prunes what will not be recent later either
    rw [requests_snoc, History.request, grants_append, recent_append, ← hkept]
    unfold request
    split
    · rw [recent_append, recent_recent hnow]
      rfl
    · rw [recent_recent hnow]
      exact (List.append_nil _).symm

/-- A request is granted if and only if fewer than `m` earlier grants are recent. -/
theorem granted_iff {nows : List τ} (h : nows.Pairwise (· ≤ ·)) {pre post : List (τ × Bool)} {now : τ} {ok : Bool}
    (hc : (requests w m nows).1 = pre ++ (now, ok) :: post) :
    ok = true ↔ ((recent w now (grants pre)).length : Int) < m := by
  induction nows using List.reverseRecOn generalizing post with
  | nil => simp [requests] at hc
  | append_singleton nows last ih =>
    obtain ⟨hs, -, hle⟩ := List.pairwise_append.1 h
    rw [requests_snoc, History.request] at hc
    rcases List.eq_nil_or_concat post with rfl | ⟨post, c, rfl⟩
    · -- the request is the last one
      obtain ⟨rfl, hlast⟩ := List.append_inj' hc rfl
      obtain ⟨rfl, rfl⟩ := Prod.mk.inj (List.singleton_inj.1 hlast)
      rw [← recent_kept hs fun t ht => hle t ht last (by simp)]
      unfold request
      split <;> simp [*]
    · rw [List.concat_eq_append, ← List.cons_append, ← List.append_assoc] at hc
      exact ih hs (List.append_inj' hc rfl).1

omit [IsOrderedAddMonoid τ] in
/-- The times of the requests are as they were made. -/
theorem requests_times (nows : List τ) : (requests w m nows).1.map (·.1) = nows := by
  induction nows using List.reverseRecOn with
  | nil => rfl
  | append_singleton nows now ih => rw [requests_snoc, History.request, List.map_append, ih]; rfl

/-! ## Bounds -/

/-- Grants that lie within one window are at most `m`. -/
theorem length_le_of_within {nows : List τ} (h : nows.Pairwise (· ≤ ·)) {l : List τ}
    (hl : l.Sublist (grants (requests w m nows).1)) (hw : ∀ s ∈ l, ∀ t ∈ l, t - w < s) :
    (l.length : Int) ≤ max m 0 := by
  induction nows using List.reverseRecOn generalizing l with
  | nil => rw [List.sublist_nil.1 hl]; simp
  | append_singleton nows now ih =>
    obtain ⟨hs, -, hle⟩ := List.pairwise_append.1 h
    rw [requests_snoc, History.request, grants_append] at hl
    obtain ⟨l₁, l₂, rfl, h₁, h₂⟩ := List.sublist_append_iff.1 hl
    have hih := ih hs h₁ fun s hs t ht => hw s (List.mem_append_left _ hs) t (List.mem_append_left _ ht)
    rcases List.eq_nil_or_concat l₂ with rfl | ⟨l₃, t, rfl⟩
    · simpa using hih
    · -- the last request was granted, so fewer than `m` of the others are within `w` of it
      have hok : (request w m now (requests w m nows).2).1 = true := by
        by_contra hno
        rw [show grants [(now, (request w m now (requests w m nows).2).1)] = [] by simp [grants, hno]] at h₂
        simpa using h₂.length_le
      have hone : grants [(now, (request w m now (requests w m nows).2).1)] = [now] := by simp [grants, hok]
      rw [hone] at h₂
      have hnil : l₃ = [] := List.length_eq_zero_iff.1 (by simpa using h₂.length_le)
      subst hnil
      obtain rfl : t = now := by simpa using h₂.subset
      have hfew : ((recent w t (requests w m nows).2).length : Int) < m := by
        unfold request at hok
        split at hok
        · assumption
        · cases hok
      rw [recent_kept hs fun s hs => hle s hs t (by simp)] at hfew
      have hsub : l₁.Sublist (recent w t (grants (requests w m nows).1)) := by
        have hall : l₁.filter (fun s => t - w < s) = l₁ := List.filter_eq_self.2 fun s hs =>
          decide_eq_true (hw s (List.mem_append_left _ hs) t (by simp))
        rw [← hall]
        exact h₁.filter _
      have hlen := hsub.length_le
      simp only [List.concat_eq_append, List.nil_append, List.length_append, List.length_singleton]
      omega

omit [IsOrderedAddMonoid τ] in
/-- No more than `m` grants are ever kept. -/
theorem length_kept_le (nows : List τ) : ((requests w m nows).2.length : Int) ≤ max m 0 := by
  induction nows using List.reverseRecOn with
  | nil => simp [requests]
  | append_singleton nows now ih =>
    rw [requests_snoc, History.request]
    have hle : ((recent w now (requests w m nows).2).length : Int) ≤ max m 0 :=
      (Int.ofNat_le.2 (List.length_filter_le _ _)).trans ih
    unfold request
    split
    · rw [List.length_append, List.length_singleton]
      omega
    · exact hle

/-- What is kept after a request are the grants that are then recent. -/
theorem kept_eq {nows : List τ} {now : τ} (hw : 0 < w) (h : (nows ++ [now]).Pairwise (· ≤ ·)) :
    (requests w m (nows ++ [now])).2 = recent w now (grants (requests w m (nows ++ [now])).1) := by
  obtain ⟨-, -, hle⟩ := List.pairwise_append.1 h
  have hlast : ∀ t ∈ nows ++ [now], t ≤ now := by
    intro t ht
    rcases List.mem_append.1 ht with ht | ht
    · exact hle t ht now (by simp)
    · exact (List.mem_singleton.1 ht).le
  rw [← recent_kept h hlast, requests_snoc, History.request]
  have hnow : recent w now [now] = [now] := List.filter_eq_self.2 (by simpa using sub_lt_self now hw)
  unfold request
  split
  · rw [recent_append, recent_recent le_rfl, hnow]
  · rw [recent_recent le_rfl]

/-! ## The most that can be granted -/

/-- No window of length `w` has more than `m` of the times. -/
def Budgeted (w : τ) (m : Int) (times : List τ) : Prop :=
  ∀ T, (times.countP fun t => T - w < t ∧ t ≤ T : Nat) ≤ max m 0

omit [IsOrderedAddMonoid τ] in
theorem Budgeted.sublist {l l' : List τ} (h : Budgeted w m l) (hs : l'.Sublist l) : Budgeted w m l' :=
  fun T => (Int.ofNat_le.2 hs.countP_le).trans (h T)

omit [IsOrderedAddMonoid τ] in
/-- Further requests leave the answers as they are. -/
theorem requests_append (nows nows' : List τ) : ∃ rest : List (τ × Bool),
    (requests w m (nows ++ nows')).1 = (requests w m nows).1 ++ rest := by
  induction nows' using List.reverseRecOn with
  | nil => exact ⟨[], by rw [List.append_nil, List.append_nil]⟩
  | append_singleton nows' now ih =>
    obtain ⟨rest, hrest⟩ := ih
    rw [← List.append_assoc, requests_snoc, History.request, hrest, List.append_assoc]
    exact ⟨_, rfl⟩

omit [IsOrderedAddMonoid τ] in
theorem mem_of_mem_grants {nows : List τ} {t : τ} (h : t ∈ grants (requests w m nows).1) : t ∈ nows := by
  obtain ⟨a, ha, rfl⟩ := List.mem_map.1 h
  rw [← requests_times (w := w) (m := m) nows]
  exact List.mem_map_of_mem (List.mem_filter.1 ha).1

omit [AddCommGroup τ] [IsOrderedAddMonoid τ] in
/-- What is not after a time comes first. -/
theorem append_of_sorted {l : List τ} (h : l.Pairwise (· ≤ ·)) (c : τ) :
    l.filter (· ≤ c) ++ l.filter (c < ·) = l := by
  induction l with
  | nil => rfl
  | cons t l ih =>
    obtain ⟨hle, hs⟩ := List.pairwise_cons.1 h
    by_cases ht : t ≤ c
    · rw [List.filter_cons_of_pos (by simpa using ht), List.filter_cons_of_neg (by simpa using ht), List.cons_append,
        ih hs]
    · have hnone : l.filter (· ≤ c) = [] := List.filter_eq_nil_iff.2 fun u hu => by
        simpa using (not_le.1 ht).trans_le (hle u hu)
      have hrest := ih hs
      rw [hnone, List.nil_append] at hrest
      rw [List.filter_cons_of_neg (by simpa using ht), List.filter_cons_of_pos (by simpa using ht), hnone, hrest,
        List.nil_append]

omit [IsOrderedAddMonoid τ] in
/-- The requests that are out of the window have had their grants, and the recent ones come on top. -/
theorem length_past_add_recent {nows : List τ} (h : nows.Pairwise (· ≤ ·)) (now : τ) :
    (grants (requests w m (nows.filter (· ≤ now - w))).1).length +
      (recent w now (grants (requests w m nows).1)).length ≤ (grants (requests w m nows).1).length := by
  obtain ⟨rest, hrest⟩ := requests_append (w := w) (m := m) (nows.filter (· ≤ now - w)) (nows.filter (now - w < ·))
  rw [append_of_sorted h] at hrest
  have hgone : recent w now (grants (requests w m (nows.filter (· ≤ now - w))).1) = [] := by
    refine List.filter_eq_nil_iff.2 fun t ht => ?_
    have hpast := (List.mem_filter.1 (mem_of_mem_grants ht)).2
    simpa using hpast
  rw [hrest, grants_append, recent_append, hgone, List.nil_append, List.length_append]
  exact Nat.add_le_add_left (List.length_filter_le _ _) _

/-- Times up to now are out of the window or in it. -/
theorem length_le_past_add_window (hw : 0 < w) {now : τ} {times last : List τ} (hle : ∀ t ∈ times, t ≤ now)
    (hlast : ∀ t ∈ last, t = now) : (times ++ last).length ≤
      (times.filter (· ≤ now - w)).length + (times ++ last).countP fun t => now - w < t ∧ t ≤ now := by
  have hparts := List.length_eq_countP_add_countP (fun t => decide (t ≤ now - w)) (l := times)
  have hin : (times.countP fun t => ¬ decide (t ≤ now - w) = true) = times.countP fun t => now - w < t ∧ t ≤ now := by
    refine List.countP_congr fun t ht => ?_
    simp [hle t ht]
  have hall : (last.countP fun t => now - w < t ∧ t ≤ now) = last.length := by
    refine List.countP_eq_length.2 fun t ht => ?_
    rw [hlast t ht]
    simpa using hw
  rw [List.countP_eq_length_filter, hin] at hparts
  rw [List.length_append, List.countP_append, hall]
  omega

/-- The limiter wastes nothing: of requests chosen from those it got, within the same budget, there are no more than
it granted. -/
theorem length_le_grants (hw : 0 < w) {nows chosen : List τ} (h : nows.Pairwise (· ≤ ·))
    (hs : chosen.Sublist nows) (hb : Budgeted w m chosen) :
    chosen.length ≤ (grants (requests w m nows).1).length := by
  induction hn : nows.length using Nat.strong_induction_on generalizing nows chosen with
  | _ n ih =>
    subst hn
    rcases List.eq_nil_or_concat nows with rfl | ⟨front, now, rfl⟩
    · rw [List.sublist_nil.1 hs]
      exact Nat.zero_le _
    · rw [List.concat_eq_append] at h hs ih ⊢
      obtain ⟨hsorted, -, hle⟩ := List.pairwise_append.1 h
      have hnow : ∀ t ∈ front, t ≤ now := fun t ht => hle t ht now List.mem_cons_self
      have hfront : front.length < (front ++ [now]).length := by simp
      obtain ⟨before, last, rfl, hbefore, hlast⟩ := List.sublist_append_iff.1 hs
      rw [requests_snoc, History.request, grants_append]
      by_cases hroom : ((recent w now (requests w m front).2).length : Int) < m
      · have hgranted : grants [(now, (request w m now (requests w m front).2).1)] = [now] := by
          rw [request, if_pos hroom]
          rfl
        have hih := ih _ hfront hsorted hbefore (hb.sublist (List.sublist_append_left _ _)) rfl
        rw [hgranted, List.length_append, List.length_append]
        exact Nat.add_le_add hih hlast.length_le
      · -- the window up to this request is full; what is out of it are requests of a shorter run
        rw [recent_kept hsorted hnow] at hroom
        have hih := ih _ ((List.length_filter_le _ _).trans_lt hfront) (hsorted.sublist List.filter_sublist)
          (hbefore.filter (· ≤ now - w))
          (hb.sublist (List.filter_sublist.trans (List.sublist_append_left _ _))) rfl
        have hgrants := length_past_add_recent (w := w) (m := m) hsorted now
        have hchosen := length_le_past_add_window hw (fun t ht => hnow t (hbefore.subset ht))
          fun t ht => List.mem_singleton.1 (hlast.subset ht)
        have hwindow := hb now
        refine le_trans ?_ (List.sublist_append_left _ _).length_le
        omega

end WatchBPF.Window
