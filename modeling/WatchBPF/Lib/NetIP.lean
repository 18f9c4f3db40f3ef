/-
The text of an IP address as `net.IP.String` renders it: dotted decimal for four bytes and for the
IPv4 addresses mapped into IPv6, else colon-separated hexadecimal groups with the leftmost longest
run of zero groups left out. The text determines the address.
-/
import WatchBPF.Lib.Numeral
import Mathlib.Data.List.TakeWhile

namespace WatchBPF.Net

open WatchBPF.Numeral

/-! ## Rendering -/

/-- `string4` -/
def string4 (a b c d : UInt8) : Bytes :=
  [0x2E].intercalate [itoa a.toNat, itoa b.toNat, itoa c.toNat, itoa d.toNat]

/-- `appendHex` -/
def hexGroup (g : Nat) : Bytes := numeral 16 g

/-- The 16-bit groups, `v6u16(i)`. -/
def groups : Bytes → List Nat
  | hi :: lo :: s => (hi.toNat * 256 + lo.toNat) :: groups s
  | _ => []

/-- How many groups from `i` on are zero. -/
def zerosAt (zeros : List Bool) (i : Nat) : Nat := ((zeros.drop i).takeWhile id).length

/-- The run of zero groups that `appendTo6` leaves out, from and to; `(255, 255)` if there is none. -/
def zeroRun (zeros : List Bool) : Nat × Nat :=
  (List.range 8).foldl (fun run i =>
    let l := zerosAt zeros i
    if 2 ≤ l ∧ run.2 - run.1 < l then (i, i + l) else run) (255, 255)

/-- The second loop of `appendTo6`, from group `i` on. -/
def appendGroups (gs : List Nat) (zeroStart zeroEnd : Nat) : Nat → Nat → Bytes
  | 0, _ => []
  | fuel + 1, i =>
    if 8 ≤ i then []
    else if i = zeroStart then
      lit "::" ++
        (if 8 ≤ zeroEnd then []
         else hexGroup (gs[zeroEnd]?.getD 0) ++ appendGroups gs zeroStart zeroEnd fuel (zeroEnd + 1))
    else
      (if 0 < i then lit ":" else []) ++ hexGroup (gs[i]?.getD 0) ++ appendGroups gs zeroStart zeroEnd fuel (i + 1)

/-- `appendTo6` -/
def string6 (gs : List Nat) : Bytes :=
  let run := zeroRun (gs.map (· == 0))
  appendGroups gs run.1 run.2 8 0

/-- `To4` on sixteen bytes. -/
def to4 (ip : Bytes) : Option (UInt8 × UInt8 × UInt8 × UInt8) :=
  if (ip.take 10).all (· == 0) && ip[10]? == some 0xFF && ip[11]? == some 0xFF then
    match ip.drop 12 with
    | [a, b, c, d] => some (a, b, c, d)
    | _ => none
  else none

/-- `net.IP.String` on sixteen bytes. -/
def string16 (ip : Bytes) : Bytes :=
  match to4 ip with
  | some (a, b, c, d) => string4 a b c d
  | none => string6 (groups ip)

/-! ## The groups shown -/

/-- A run of zero groups, or no run. -/
theorem zeroRun_spec : ∀ a b c d e f g h : Bool,
    let zeros := [a, b, c, d, e, f, g, h]
    zeroRun zeros = (255, 255) ∨ ((zeroRun zeros).1 < (zeroRun zeros).2 ∧ (zeroRun zeros).2 ≤ 8 ∧
      ((zeros.take (zeroRun zeros).2).drop (zeroRun zeros).1).all id = true) := by
  decide +kernel

/-- A zero group that is shown does not decide on the run. -/
theorem zeroRun_set : ∀ a b c d e f g h : Bool, ∀ k < 8,
    let zeros := [a, b, c, d, e, f, g, h]
    zeros[k]? = some true → (k < (zeroRun zeros).1 ∨ (zeroRun zeros).2 ≤ k) →
      zeroRun (zeros.set k false) = zeroRun zeros := by
  decide +kernel

theorem zeroRun_set_groups {gs : List Nat} (hgs : gs.length = 8) {k g' : Nat} (hk : k < 8) (hg' : g' ≠ 0)
    (hrun : k < (zeroRun (gs.map (· == 0))).1 ∨ (zeroRun (gs.map (· == 0))).2 ≤ k) :
    zeroRun ((gs.set k g').map (· == 0)) = zeroRun (gs.map (· == 0)) := by
  rw [List.map_set, beq_false_of_ne hg']
  have hlen : k < (gs.map (· == 0)).length := by rwa [List.length_map, hgs]
  cases hzero : (gs.map (· == 0))[k] with
  | false => rw [← hzero, List.set_getElem_self]
  | true =>
    obtain ⟨a, b, c, d, e, f, g, h, rfl⟩ : ∃ a b c d e f g h, gs = [a, b, c, d, e, f, g, h] := by
      simpa [List.length_eq_succ_iff, eq_comm] using hgs
    exact zeroRun_set _ _ _ _ _ _ _ _ k hk (List.getElem?_eq_some_iff.2 ⟨hlen, hzero⟩) hrun

theorem hexGroup_mem {g : Nat} {c : UInt8} (hc : c ∈ hexGroup g) : ∃ d < 16, c = digit d :=
  mem_numeral (by decide) hc

theorem hexGroup_ne_nil (g : Nat) : hexGroup g ≠ [] := numeral_ne_nil 16 g

theorem hexGroup_injective {g h : Nat} (he : hexGroup g = hexGroup h) : g = h :=
  numeral_injective (by decide) le_rfl he

/-- Hexadecimal digits are no punctuation. -/
theorem digit_ne_colon : ∀ d < 16, digit d ≠ 0x3A ∧ digit d ≠ 0x2E := by decide

theorem colon_not_mem_hexGroup (g : Nat) : (0x3A : UInt8) ∉ hexGroup g := fun h => by
  obtain ⟨d, hd, he⟩ := hexGroup_mem h
  exact (digit_ne_colon d hd).1 he.symm

/-- The groups as they stand between the colons, an empty one for each edge of the run left out. -/
def shown (gs : List Nat) : List Bytes :=
  let run := zeroRun (gs.map (· == 0))
  if run.1 = 255 then gs.map hexGroup
  else (if run.1 = 0 then [[]] else (gs.take run.1).map hexGroup) ++
    [] :: (if 8 ≤ run.2 then [[]] else (gs.drop run.2).map hexGroup)

/-- Texts of the groups with those of a run left out. -/
def leaveOut (run : Nat × Nat) (ws : List Bytes) : List Bytes :=
  if run.1 = 255 then ws
  else (if run.1 = 0 then [[]] else ws.take run.1) ++ [] :: (if 8 ≤ run.2 then [[]] else ws.drop run.2)

/-- A map that keeps the empty text acts on the texts of the groups. -/
theorem map_shown {f : Bytes → Bytes} (hf : f [] = []) (gs : List Nat) :
    (shown gs).map f = leaveOut (zeroRun (gs.map (· == 0))) (gs.map (f ∘ hexGroup)) := by
  simp only [shown, leaveOut]
  split_ifs <;> simp [List.map_take, List.map_drop, hf]

theorem intercalate_cons (sep : UInt8) (s : Bytes) (ss : List Bytes) :
    [sep].intercalate (s :: ss) = s ++ ss.flatMap (sep :: ·) := by
  induction ss generalizing s with
  | nil => simp
  | cons t ss ih => rw [List.intercalate_cons_cons, ih]; simp

section Groups

variable {gs : List Nat} (hgs : gs.length = 8) {zeroStart zeroEnd : Nat}
include hgs

/-- Past the run every group follows a colon. -/
theorem appendGroups_tail : ∀ {fuel i : Nat}, (zeroStart < i ∨ 8 ≤ zeroStart) → 0 < i → 8 - i ≤ fuel →
    appendGroups gs zeroStart zeroEnd fuel i = (gs.drop i).flatMap fun g => 0x3A :: hexGroup g
  | 0, i, _, _, hf => by rw [List.drop_eq_nil_of_le (by omega)]; rfl
  | fuel + 1, i, hz, hi, hf => by
    rw [appendGroups]
    split
    · rw [List.drop_eq_nil_of_le (by omega)]; rfl
    · have hlt : i < gs.length := by omega
      have hne : ¬ i = zeroStart := by omega
      rw [if_neg hne, appendGroups_tail (by omega) (by omega) (by omega),
        List.drop_eq_getElem_cons hlt, List.flatMap_cons, List.getElem?_eq_getElem hlt]
      rfl

/-- Up to the run every group but the first follows a colon. -/
theorem appendGroups_head : ∀ {n fuel i : Nat}, i + n = zeroStart → zeroStart < 8 → 0 < i → n ≤ fuel →
    appendGroups gs zeroStart zeroEnd fuel i =
      (((gs.drop i).take n).flatMap fun g => 0x3A :: hexGroup g) ++
        appendGroups gs zeroStart zeroEnd (fuel - n) zeroStart
  | 0, fuel, i, hn, _, _, _ => by simp [← hn]
  | n + 1, 0, _, _, _, _, hf => by omega
  | n + 1, fuel + 1, i, hn, h8, hi, hf => by
    have hlt : i < gs.length := by omega
    have hne : ¬ i = zeroStart := by omega
    have hlit : lit ":" = [0x3A] := by decide
    rw [appendGroups, if_neg (by omega), if_neg hne, if_pos hi,
      appendGroups_head (n := n) (by omega) h8 (by omega) (by omega), List.drop_eq_getElem_cons hlt,
      List.take_succ_cons, List.flatMap_cons, List.getElem?_eq_getElem hlt, Nat.add_sub_add_right, hlit]
    simp

theorem appendGroups_run {fuel : Nat} (h8 : zeroStart < 8) (hse : zeroStart < zeroEnd) (hf : 8 - zeroStart ≤ fuel) :
    appendGroups gs zeroStart zeroEnd fuel zeroStart =
      0x3A :: 0x3A :: [0x3A].intercalate (if 8 ≤ zeroEnd then [[]] else (gs.drop zeroEnd).map hexGroup) := by
  obtain ⟨fuel, rfl⟩ : ∃ k, fuel = k + 1 := ⟨fuel - 1, by omega⟩
  rw [appendGroups, if_neg (by omega), if_pos rfl]
  have hlit : lit "::" = [0x3A, 0x3A] := by decide
  split
  · simp [hlit]
  · have hlt : zeroEnd < gs.length := by omega
    rw [appendGroups_tail hgs (by omega) (by omega) (by omega), List.drop_eq_getElem_cons hlt, List.map_cons,
      intercalate_cons, List.getElem?_eq_getElem hlt, List.flatMap_map, hlit]
    rfl

/-- Where the run left out lies. -/
theorem zeroRun_cases : (zeroRun (gs.map (· == 0)) = (255, 255)) ∨
    ∃ s t, zeroRun (gs.map (· == 0)) = (s, t) ∧ s < t ∧ t ≤ 8 ∧ ((gs.take t).drop s).all (· == 0) = true := by
  match gs, hgs with
  | [a, b, c, d, e, f, g, h], _ =>
    have hrun := zeroRun_spec (a == 0) (b == 0) (c == 0) (d == 0) (e == 0) (f == 0) (g == 0) (h == 0)
    have hzs : [a, b, c, d, e, f, g, h].map (· == 0) =
      [a == 0, b == 0, c == 0, d == 0, e == 0, f == 0, g == 0, h == 0] := rfl
    simp only [← hzs] at hrun
    refine hrun.imp id fun ⟨hlt, hle, hall⟩ => ⟨_, _, rfl, hlt, hle, ?_⟩
    rwa [← List.map_take, ← List.map_drop, List.all_map] at hall

/-- The text is the shown groups between colons. -/
theorem string6_eq : string6 gs = [0x3A].intercalate (shown gs) := by
  obtain ⟨g, rest, hcons⟩ : ∃ g rest, gs = g :: rest := by
    cases gs with
    | nil => simp at hgs
    | cons g rest => exact ⟨g, rest, rfl⟩
  have hd1 : gs.drop 1 = rest := by rw [hcons]; rfl
  have h0 : gs[0]?.getD 0 = g := by rw [hcons]; rfl
  rw [string6, shown]
  rcases zeroRun_cases hgs with hrun | ⟨s, t, hrun, hst, ht, -⟩
  · rw [hrun, if_pos rfl, appendGroups, if_neg (by decide), if_neg (by decide), if_neg (by decide),
      appendGroups_tail hgs (by omega) (by omega) (by omega), hd1, h0, hcons, List.map_cons, intercalate_cons,
      List.flatMap_map]
    rfl
  · obtain ⟨w, ws, hright⟩ : ∃ w ws, (if 8 ≤ t then [[]] else (gs.drop t).map hexGroup) = w :: ws := by
      split
      · exact ⟨[], [], rfl⟩
      · exact List.exists_cons_of_ne_nil (by simp; omega)
    have hcolons : ∀ fuel, 8 - s ≤ fuel →
        appendGroups gs s t fuel s = 0x3A :: 0x3A :: (w ++ ws.flatMap (0x3A :: ·)) := fun fuel hf => by
      rw [appendGroups_run hgs (by omega) hst hf, hright, intercalate_cons]
    rw [hrun]
    show appendGroups gs s t 8 0 = [0x3A].intercalate (if s = 255 then _ else (if s = 0 then _ else _) ++ [] ::
      (if 8 ≤ t then [[]] else (gs.drop t).map hexGroup))
    rw [if_neg (by omega), hright]
    rcases Nat.eq_zero_or_pos s with rfl | hs
    · rw [hcolons 8 (by omega), if_pos rfl, List.singleton_append, intercalate_cons]
      simp
    · have hs0 : ¬ 0 = s := by omega
      rw [appendGroups, if_neg (by decide), if_neg hs0, if_neg (by decide), h0,
        appendGroups_head (n := s - 1) hgs (by omega) (by omega) (by omega) (by omega), hcolons _ (by omega), hd1,
        if_neg (by omega), hcons, show s = s - 1 + 1 by omega, List.take_succ_cons, List.map_cons, List.cons_append,
        intercalate_cons]
      simp [-List.map_take, List.flatMap_map]

end Groups

/-! ## Reading the text back -/

/-- The groups of a text: what is left out between empty pieces is zero. -/
def expand (ws : List Bytes) : List Bytes :=
  let left := ws.takeWhile (· ≠ [])
  let right := (ws.reverse.takeWhile (· ≠ [])).reverse
  if left.length = ws.length then ws
  else left ++ List.replicate (8 - left.length - right.length) (hexGroup 0) ++ right

/-- The pieces on one side of a run left out: at the edge of the text there is an empty one. -/
def edge (ws : List Bytes) : List Bytes := if ws = [] then [[]] else ws

/-- What stands before an empty piece. -/
theorem takeWhile_edge {left : List Bytes} (hleft : ∀ w ∈ left, w ≠ []) (rest : List Bytes) :
    (edge left ++ [] :: rest).takeWhile (· ≠ []) = left := by
  unfold edge
  split
  · rename_i h
    rw [h]
    rfl
  · refine takeWhile_append_other (fun w hw => decide_eq_true (hleft w hw)) ?_
    rintro w ⟨⟩
    rfl

/-- The pieces beside a run left out can be told from those for its edges. -/
theorem edges_spec {left right : List Bytes} (hleft : ∀ w ∈ left, w ≠ []) (hright : ∀ w ∈ right, w ≠ []) :
    (edge left ++ [] :: edge right).takeWhile (· ≠ []) = left ∧
      ((edge left ++ [] :: edge right).reverse.takeWhile (· ≠ [])).reverse = right ∧
      left.length < (edge left ++ [] :: edge right).length := by
  have hrev : (edge right).reverse = edge right.reverse := by
    unfold edge
    split
    · rename_i h
      rw [h]
      rfl
    · rw [if_neg (mt List.reverse_eq_nil_iff.1 ‹_›)]
  refine ⟨takeWhile_edge hleft _, ?_, ?_⟩
  · rw [List.reverse_append, List.reverse_cons, List.append_assoc, List.singleton_append, hrev,
      takeWhile_edge fun w hw => hright w (List.mem_reverse.1 hw), List.reverse_reverse]
  · rw [List.length_append, List.length_cons, edge]
    split
    · rename_i h
      rw [h]
      exact Nat.succ_pos _
    · omega

/-- Either all groups are shown, or a run of zero groups is left out. -/
theorem shown_cases {gs : List Nat} (hgs : gs.length = 8) : shown gs = gs.map hexGroup ∨
    ∃ left n right, gs = left ++ List.replicate n 0 ++ right ∧ 0 < n ∧
      shown gs = edge (left.map hexGroup) ++ [] :: edge (right.map hexGroup) := by
  rw [shown]
  rcases zeroRun_cases hgs with hrun | ⟨s, t, hrun, hst, ht, hall⟩
  · rw [hrun]
    exact .inl rfl
  · have hmid : (gs.take t).drop s = List.replicate (t - s) 0 := by
      refine List.eq_replicate_iff.2 ⟨by simp; omega, fun g hg => ?_⟩
      simpa using List.all_eq_true.1 hall g hg
    have hsplit : gs = gs.take s ++ List.replicate (t - s) 0 ++ gs.drop t := by
      conv_lhs => rw [← List.take_append_drop t gs, ← List.take_append_drop s (gs.take t), List.take_take,
        Nat.min_eq_left (by omega : s ≤ t), hmid]
    refine .inr ⟨gs.take s, t - s, gs.drop t, hsplit, by omega, ?_⟩
    rw [hrun]
    show (if s = 255 then _ else (if s = 0 then _ else (gs.take s).map hexGroup) ++ [] ::
      (if 8 ≤ t then [[]] else (gs.drop t).map hexGroup)) = _
    have hleft : (gs.take s).map hexGroup = [] ↔ s = 0 := by
      rw [List.map_eq_nil_iff, List.take_eq_nil_iff, ← List.length_eq_zero_iff]
      omega
    have hright : (gs.drop t).map hexGroup = [] ↔ 8 ≤ t := by
      rw [List.map_eq_nil_iff, List.drop_eq_nil_iff, hgs]
    rw [if_neg (by omega), edge, edge]
    simp only [hleft, hright]

theorem hexGroups_ne_nil (gs : List Nat) : ∀ w ∈ gs.map hexGroup, w ≠ [] := by
  intro w hw
  obtain ⟨g, -, rfl⟩ := List.mem_map.1 hw
  exact hexGroup_ne_nil g

theorem expand_shown {gs : List Nat} (hgs : gs.length = 8) : expand (shown gs) = gs.map hexGroup := by
  rw [expand]
  rcases shown_cases hgs with h | ⟨left, n, right, hsplit, -, h⟩
  · have hall : (gs.map hexGroup).takeWhile (· ≠ []) = gs.map hexGroup :=
      List.takeWhile_eq_self_iff.2 fun w hw => decide_eq_true (hexGroups_ne_nil gs w hw)
    simp only [h, hall, if_true]
  · obtain ⟨hleft, hright, hlt⟩ := edges_spec (hexGroups_ne_nil left) (hexGroups_ne_nil right)
    have hn : 8 - left.length - right.length = n := by
      have hlen := congrArg List.length hsplit
      simp only [hgs, List.length_append, List.length_replicate] at hlen
      omega
    simp only [h, hleft, hright]
    rw [if_neg hlt.ne, List.length_map, List.length_map, hn, hsplit, List.map_append, List.map_append,
      List.map_replicate]

theorem shown_ne_nil {gs : List Nat} (hgs : gs.length = 8) : shown gs ≠ [] := by
  intro h
  have := congrArg List.length (expand_shown hgs)
  simp [h, expand, hgs] at this

/-- What stands between the colons: nothing, or a group outside the run left out. -/
theorem mem_shown {gs : List Nat} (hgs : gs.length = 8) {w : Bytes} (hw : w ∈ shown gs) : w = [] ∨
    ∃ k g, gs[k]? = some g ∧ (k < (zeroRun (gs.map (· == 0))).1 ∨ (zeroRun (gs.map (· == 0))).2 ≤ k) ∧
      w = hexGroup g := by
  rw [shown] at hw
  generalize zeroRun (gs.map (· == 0)) = run at hw
  split at hw
  · obtain ⟨g, hg, rfl⟩ := List.mem_map.1 hw
    obtain ⟨k, hk⟩ := List.getElem?_of_mem hg
    have hlt := (List.getElem?_eq_some_iff.1 hk).1
    exact .inr ⟨k, g, hk, .inl (by omega), rfl⟩
  · rcases List.mem_append.1 hw with hw | hw
    · split at hw
      · exact .inl (List.mem_singleton.1 hw)
      · obtain ⟨g, hg, rfl⟩ := List.mem_map.1 hw
        obtain ⟨k, hk⟩ := List.getElem?_of_mem hg
        have hlt := (List.getElem?_eq_some_iff.1 hk).1
        rw [List.length_take] at hlt
        rw [List.getElem?_take_of_lt (by omega)] at hk
        exact .inr ⟨k, g, hk, .inl (by omega), rfl⟩
    · rcases List.mem_cons.1 hw with hw | hw
      · exact .inl hw
      · split at hw
        · exact .inl (List.mem_singleton.1 hw)
        · obtain ⟨g, hg, rfl⟩ := List.mem_map.1 hw
          obtain ⟨k, hk⟩ := List.getElem?_of_mem hg
          rw [List.getElem?_drop] at hk
          exact .inr ⟨_, g, hk, .inr (by omega), rfl⟩

theorem colon_not_mem_shown {gs : List Nat} (hgs : gs.length = 8) : ∀ w ∈ shown gs, (0x3A : UInt8) ∉ w := by
  intro w hw
  rcases mem_shown hgs hw with rfl | ⟨_, g, -, -, rfl⟩
  · simp
  · exact colon_not_mem_hexGroup g

/-- The text determines the groups. -/
theorem string6_injective {gs hs : List Nat} (hg : gs.length = 8) (hh : hs.length = 8)
    (h : string6 gs = string6 hs) : gs = hs := by
  rw [string6_eq hg, string6_eq hh] at h
  have := intercalate_inj_of_not_mem (shown_ne_nil hg) (shown_ne_nil hh)
    (colon_not_mem_shown hg) (colon_not_mem_shown hh) h
  rw [← (List.map_injective_iff.2 fun _ _ => hexGroup_injective).eq_iff, ← expand_shown hg, ← expand_shown hh, this]

theorem string4_injective {a b c d a' b' c' d' : UInt8} (h : string4 a b c d = string4 a' b' c' d') :
    a = a' ∧ b = b' ∧ c = c' ∧ d = d' := by
  have hdot : ∀ n : Nat, (0x2E : UInt8) ∉ itoa n := fun n hm => by
    obtain ⟨d, hd, he⟩ := mem_numeral (by decide) hm
    exact (digit_ne_colon d (by omega)).2 he.symm
  have hi : ∀ {x y : UInt8}, itoa x.toNat = itoa y.toNat → x = y := fun hxy =>
    UInt8.toNat_inj.1 (numeral_injective (by decide) (by decide) hxy)
  have := intercalate_inj_of_not_mem (by simp) (by simp) (by simp [hdot]) (by simp [hdot]) h
  simp only [List.cons.injEq, and_true] at this
  exact ⟨hi this.1, hi this.2.1, hi this.2.2.1, hi this.2.2.2⟩

/-- Dotted text is digits and dots. -/
theorem string4_mem {a b c d x : UInt8} (h : x ∈ string4 a b c d) : x = 0x2E ∨ isDigit x = true := by
  have hdig : ∀ n : Nat, x ∈ itoa n → isDigit x = true := fun n hm => by
    obtain ⟨d, hd, rfl⟩ := mem_numeral (by decide) hm
    exact isDigit_digit hd
  simp only [string4, List.intercalate_cons_cons, List.intercalate_singleton, List.mem_append,
    List.mem_singleton] at h
  rcases h with (h | h) | (h | h) | (h | h) | h
  all_goals first | exact .inl h | exact .inr (hdig _ h)

theorem dot_mem_string4 (a b c d : UInt8) : (0x2E : UInt8) ∈ string4 a b c d := by
  simp [string4]

/-- IPv6 text is hexadecimal digits and colons. -/
theorem string6_mem {gs : List Nat} (hgs : gs.length = 8) {x : UInt8} (h : x ∈ string6 gs) :
    x = 0x3A ∨ ∃ d < 16, x = digit d := by
  rw [string6_eq hgs] at h
  obtain ⟨w, ws, hw⟩ := List.exists_cons_of_ne_nil (shown_ne_nil hgs)
  have hmem : ∀ w ∈ shown gs, x ∈ w → ∃ d < 16, x = digit d := by
    intro w hw hx
    rcases mem_shown hgs hw with rfl | ⟨_, g, -, -, rfl⟩
    · simp at hx
    · exact hexGroup_mem hx
  rw [hw, intercalate_cons, List.mem_append, List.mem_flatMap] at h
  rcases h with h | ⟨v, hv, h⟩
  · exact .inr (hmem w (by simp [hw]) h)
  · rcases List.mem_cons.1 h with h | h
    · exact .inl h
    · exact .inr (hmem v (by simp [hw, hv]) h)

/-! ## Sixteen bytes -/

/-- The bytes of groups. -/
def ungroup (gs : List Nat) : Bytes := gs.flatMap fun g => [UInt8.ofNat (g / 256), UInt8.ofNat (g % 256)]

theorem groups_ungroup : ∀ {gs : List Nat}, (∀ g ∈ gs, g < 65536) → groups (ungroup gs) = gs
  | [], _ => rfl
  | g :: gs, h => by
    have hg := h g (by simp)
    have ih : groups (ungroup gs) = gs := groups_ungroup fun x hx => h x (by simp [hx])
    simp only [ungroup, List.flatMap_cons, List.cons_append, List.nil_append, groups] at ih ⊢
    rw [ih, UInt8.toNat_ofNat', UInt8.toNat_ofNat']
    congr 1
    omega

theorem ungroup_groups : ∀ {ip : Bytes}, 2 ∣ ip.length → ungroup (groups ip) = ip
  | [], _ => rfl
  | [b], h => by simp at h
  | hi :: lo :: ip, h => by
    have hlo := lo.toNat_lt
    have ih : ungroup (groups ip) = ip := ungroup_groups (by simpa [Nat.dvd_add_self_right] using h)
    simp only [groups, ungroup, List.flatMap_cons, List.cons_append, List.nil_append] at ih ⊢
    rw [ih, show (hi.toNat * 256 + lo.toNat) / 256 = hi.toNat by omega,
      show (hi.toNat * 256 + lo.toNat) % 256 = lo.toNat by omega, UInt8.ofNat_toNat, UInt8.ofNat_toNat]

theorem groups_lt : ∀ (ip : Bytes), ∀ g ∈ groups ip, g < 65536
  | [], g, hg => by simp [groups] at hg
  | [b], g, hg => by simp [groups] at hg
  | hi :: lo :: ip, g, hg => by
    have hhi := hi.toNat_lt
    have hlo := lo.toNat_lt
    rcases List.mem_cons.1 hg with rfl | hg
    · omega
    · exact groups_lt ip g hg

theorem length_groups : ∀ (ip : Bytes), (groups ip).length = ip.length / 2
  | [] => rfl
  | [_] => by simp [groups]
  | _ :: _ :: ip => by
    rw [groups, List.length_cons, length_groups ip, List.length_cons, List.length_cons]
    omega

/-- Which addresses are mapped, by their bytes and by their groups. -/
theorem to4_spec {ip : Bytes} (hl : ip.length = 16) :
    (∃ a b c d, to4 ip = some (a, b, c, d) ∧ ip = List.replicate 10 0 ++ [0xFF, 0xFF, a, b, c, d]) ∨
      (to4 ip = none ∧ ¬ ((groups ip).take 5 = [0, 0, 0, 0, 0] ∧ (groups ip)[5]? = some 65535)) := by
  match ip, hl with
  | [b0, b1, b2, b3, b4, b5, b6, b7, b8, b9, b10, b11, b12, b13, b14, b15], _ =>
    rw [to4]
    split
    · rename_i h
      simp only [List.take, List.all_cons, List.all_nil, Bool.and_true, Bool.and_eq_true, beq_iff_eq,
        List.getElem?_cons_succ, List.getElem?_cons_zero, Option.some.injEq] at h
      obtain ⟨⟨⟨rfl, rfl, rfl, rfl, rfl, rfl, rfl, rfl, rfl, rfl⟩, rfl⟩, rfl⟩ := h
      exact .inl ⟨b12, b13, b14, b15, rfl, rfl⟩
    · rename_i h
      refine .inr ⟨rfl, fun ⟨hz, hff⟩ => h ?_⟩
      have h10 := b10.toNat_lt
      have h11 := b11.toNat_lt
      simp only [groups, List.take, List.cons.injEq, and_true, List.getElem?_cons_succ, List.getElem?_cons_zero,
        Option.some.injEq] at hz hff
      have hzero : ∀ {b : UInt8}, b.toNat = 0 → b = 0 := fun hb => UInt8.toNat_inj.1 hb
      have hones : ∀ {b : UInt8}, b.toNat = 255 → b = 0xFF := fun hb => UInt8.toNat_inj.1 hb
      rw [hzero (b := b0) (by omega), hzero (b := b1) (by omega), hzero (b := b2) (by omega),
        hzero (b := b3) (by omega), hzero (b := b4) (by omega), hzero (b := b5) (by omega),
        hzero (b := b6) (by omega), hzero (b := b7) (by omega), hzero (b := b8) (by omega),
        hzero (b := b9) (by omega), hones (b := b10) (by omega), hones (b := b11) (by omega)]
      rfl

theorem length_groups_of {ip : Bytes} (hl : ip.length = 16) : (groups ip).length = 8 := by
  rw [length_groups, hl]

/-- The text determines the address. -/
theorem string16_injective {ip ip' : Bytes} (hl : ip.length = 16) (hl' : ip'.length = 16)
    (h : string16 ip = string16 ip') : ip = ip' := by
  have hdot : ∀ {a b c d : UInt8} {gs : List Nat}, gs.length = 8 → string4 a b c d ≠ string6 gs := by
    intro a b c d gs hgs he
    rcases string6_mem hgs (he ▸ dot_mem_string4 a b c d) with hc | ⟨d, hd, hc⟩
    · exact absurd hc (by decide)
    · exact (digit_ne_colon d hd).2 hc.symm
  rw [string16, string16] at h
  rcases to4_spec hl with ⟨a, b, c, d, ht, hip⟩ | ⟨ht, -⟩ <;>
    rcases to4_spec hl' with ⟨a', b', c', d', ht', hip'⟩ | ⟨ht', -⟩ <;> rw [ht, ht'] at h
  · obtain ⟨rfl, rfl, rfl, rfl⟩ := string4_injective h
    rw [hip, hip']
  · exact absurd h (hdot (length_groups_of hl'))
  · exact absurd h.symm (hdot (length_groups_of hl))
  · have hg := string6_injective (length_groups_of hl) (length_groups_of hl') h
    have hip : ungroup (groups ip) = ip := ungroup_groups (by rw [hl]; decide)
    rw [← hip, hg, ungroup_groups (by rw [hl']; decide)]

end WatchBPF.Net
