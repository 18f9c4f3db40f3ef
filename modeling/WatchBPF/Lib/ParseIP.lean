/-
Which address a text stands for: a dotted quad, or hexadecimal groups between colons, where two colons in
a row leave out groups that are zero and the last two groups may be a dotted quad. Reading a rendered
address gives the address back.
-/
import WatchBPF.Lib.NetIP

namespace WatchBPF.Net

open WatchBPF.Numeral

/-! ## Reading -/

/-- A decimal octet, without leading zeros. -/
def parseOctet (w : Bytes) : Option UInt8 :=
  (parseUint 255 w).bind fun n => if itoa n = w then some (UInt8.ofNat n) else none

/-- A dotted quad. -/
def parse4 (s : Bytes) : Option (UInt8 × UInt8 × UInt8 × UInt8) :=
  match (s.splitOn 0x2E).mapM parseOctet with
  | some [a, b, c, d] => some (a, b, c, d)
  | _ => none

/-- The value of a hexadecimal digit of either case. -/
def hexValue (c : UInt8) : Option Nat :=
  if 0x30 ≤ c ∧ c ≤ 0x39 then some (c.toNat - 0x30)
  else if 0x61 ≤ c ∧ c ≤ 0x66 then some (c.toNat - 0x57)
  else if 0x41 ≤ c ∧ c ≤ 0x46 then some (c.toNat - 0x37)
  else none

/-- One to four hexadecimal digits. -/
def parseGroup (w : Bytes) : Option Nat :=
  if w ≠ [] ∧ w.length ≤ 4 then w.foldlM (fun n c => (hexValue c).map (16 * n + ·)) 0 else none

/-- The pieces between the colons, with a dotted quad at the end as two groups. -/
def undotted (ws : List Bytes) : List Bytes :=
  match ws.getLast?.bind parse4 with
  | some (a, b, c, d) =>
    ws.dropLast ++ [hexGroup (a.toNat * 256 + b.toNat), hexGroup (c.toNat * 256 + d.toNat)]
  | none => ws

/-- The groups that pieces between colons stand for. -/
def parsePieces (ws : List Bytes) : Option (List Nat) :=
  let left := ws.takeWhile (· ≠ [])
  let right := (ws.reverse.takeWhile (· ≠ [])).reverse
  if left.length = ws.length then if ws.length = 8 then ws.mapM parseGroup else none
  else if ws = edge left ++ [] :: edge right ∧ left.length + right.length < 8 then do
    let l ← left.mapM parseGroup
    let r ← right.mapM parseGroup
    some (l ++ List.replicate (8 - l.length - r.length) 0 ++ r)
  else none

def parse6 (s : Bytes) : Option (List Nat) := parsePieces (undotted (s.splitOn 0x3A))

/-- An IPv4 address mapped into IPv6. -/
def mapped : UInt8 × UInt8 × UInt8 × UInt8 → Bytes
  | (a, b, c, d) => List.replicate 10 0 ++ [0xFF, 0xFF, a, b, c, d]

/-- The sixteen bytes of the address that a text stands for. -/
def parseIP (s : Bytes) : Option Bytes :=
  match parse4 s with
  | some octets => some (mapped octets)
  | none => (parse6 s).map ungroup

/-! ## Texts of addresses -/

theorem mem_of_mapM {α β : Type} {f : α → Option β} : ∀ {l : List α} {r : List β}, l.mapM f = some r →
    ∀ a ∈ l, ∃ b, f a = some b
  | a :: l, r, h, x, hx => by
    rw [List.mapM_cons] at h
    obtain ⟨b, hb, h⟩ := Option.bind_eq_some_iff.1 h
    obtain ⟨bs, hbs, -⟩ := Option.bind_eq_some_iff.1 h
    rcases List.mem_cons.1 hx with rfl | hx
    · exact ⟨b, hb⟩
    · exact mem_of_mapM hbs x hx

theorem mapM_of_map {α β : Type} {f : α → Option β} {g : β → α} : ∀ {l : List β}, (∀ b ∈ l, f (g b) = some b) →
    (l.map g).mapM f = some l
  | [], _ => rfl
  | b :: l, h => by
    have hrest := mapM_of_map fun x hx => h x (List.mem_cons_of_mem _ hx)
    rw [List.map_cons, List.mapM_cons, h b List.mem_cons_self, hrest]
    rfl

/-- A byte that can stand in the text of an address. -/
def IPByte (c : UInt8) : Prop := c = 0x2E ∨ c = 0x3A ∨ (hexValue c).isSome = true

theorem ipByte_digit : ∀ d < 16, IPByte (digit d) := by
  intro d hd
  refine .inr (.inr ?_)
  interval_cases d <;> decide

theorem ipByte_of_parse4 {s : Bytes} {octets} (h : parse4 s = some octets) : ∀ c ∈ s, IPByte c := by
  intro c hc
  unfold parse4 at h
  split at h
  · rename_i hparse
    rw [show s = [0x2E].intercalate (s.splitOn 0x2E) from (List.intercalate_splitOn _).symm] at hc
    rcases mem_intercalate hc with hc | ⟨w, hw, hcw⟩
    · exact .inl (List.mem_singleton.1 hc)
    · obtain ⟨b, hb⟩ := mem_of_mapM hparse w hw
      obtain ⟨n, -, hn⟩ := Option.bind_eq_some_iff.1 hb
      split at hn
      · rename_i hw
        obtain ⟨d, hd, rfl⟩ := mem_numeral (by decide) (show c ∈ itoa n by rwa [hw])
        exact ipByte_digit d (by omega)
      · cases hn
  · cases h

theorem ipByte_of_foldlM : ∀ {w : Bytes} {n m : Nat},
    w.foldlM (fun n c => (hexValue c).map (16 * n + ·)) n = some m →
    ∀ c ∈ w, IPByte c
  | b :: w, n, m, h, c, hc => by
    rw [List.foldlM_cons] at h
    obtain ⟨k, hk, h⟩ := Option.bind_eq_some_iff.1 h
    obtain ⟨v, hv, -⟩ := Option.map_eq_some_iff.1 hk
    rcases List.mem_cons.1 hc with rfl | hc
    · exact .inr (.inr (by rw [hv]; rfl))
    · exact ipByte_of_foldlM h c hc

theorem ipByte_of_parseGroup {w : Bytes} {g : Nat} (h : parseGroup w = some g) : ∀ c ∈ w, IPByte c := by
  unfold parseGroup at h
  split at h
  · exact ipByte_of_foldlM h
  · cases h

theorem ipByte_of_parsePieces {ws : List Bytes} {gs : List Nat} (h : parsePieces ws = some gs) :
    ∀ w ∈ ws, ∀ c ∈ w, IPByte c := by
  intro w hw c hc
  unfold parsePieces at h
  simp only at h
  split at h
  · split at h
    · obtain ⟨g, hg⟩ := mem_of_mapM h w hw
      exact ipByte_of_parseGroup hg c hc
    · cases h
  · split at h
    · rename_i hws
      obtain ⟨l, hl, h⟩ := Option.bind_eq_some_iff.1 h
      obtain ⟨r, hr, -⟩ := Option.bind_eq_some_iff.1 h
      have hedge : ∀ {vs : List Bytes}, w ∈ edge vs → w ∈ vs := fun {vs} hv => by
        unfold edge at hv
        split at hv
        · rw [List.mem_singleton.1 hv] at hc
          cases hc
        · exact hv
      rw [hws.1] at hw
      rcases List.mem_append.1 hw with hw | hw
      · obtain ⟨g, hg⟩ := mem_of_mapM hl w (hedge hw)
        exact ipByte_of_parseGroup hg c hc
      · rcases List.mem_cons.1 hw with rfl | hw
        · cases hc
        · obtain ⟨g, hg⟩ := mem_of_mapM hr w (hedge hw)
          exact ipByte_of_parseGroup hg c hc
    · cases h

theorem mem_undotted {ws : List Bytes} {w : Bytes} (hw : w ∈ ws) :
    w ∈ undotted ws ∨ ∃ octets, parse4 w = some octets := by
  unfold undotted
  split
  · rename_i hlast
    obtain ⟨v, hv, hquad⟩ := Option.bind_eq_some_iff.1 hlast
    rw [← List.dropLast_append_getLast? v hv] at hw
    rcases List.mem_append.1 hw with hw | hw
    · exact .inl (List.mem_append_left _ hw)
    · rw [List.mem_singleton.1 hw]
      exact .inr ⟨_, hquad⟩
  · exact .inl hw

/-- Texts of addresses are hexadecimal digits, dots and colons. -/
theorem ipByte_of_parseIP {s ip : Bytes} (h : parseIP s = some ip) : ∀ c ∈ s, IPByte c := by
  unfold parseIP at h
  split at h
  · exact ipByte_of_parse4 ‹_›
  · obtain ⟨gs, hgs, -⟩ := Option.map_eq_some_iff.1 h
    intro c hc
    rw [show s = [0x3A].intercalate (s.splitOn 0x3A) from (List.intercalate_splitOn _).symm] at hc
    rcases mem_intercalate hc with hc | ⟨w, hw, hcw⟩
    · exact .inr (.inl (List.mem_singleton.1 hc))
    · rcases mem_undotted hw with hw | ⟨octets, hquad⟩
      · exact ipByte_of_parsePieces hgs w hw c hcw
      · exact ipByte_of_parse4 hquad c hcw

/-! ## Reading what was rendered -/

theorem dot_not_mem_itoa (n : Nat) : (0x2E : UInt8) ∉ itoa n := fun hm => by
  obtain ⟨d, hd, he⟩ := mem_numeral (by decide) hm
  exact (digit_ne_colon d (by omega)).2 he.symm

theorem parseOctet_itoa (a : UInt8) : parseOctet (itoa a.toNat) = some a := by
  have ha := a.toNat_lt
  rw [parseOctet, parseUint_itoa (by omega), Option.bind_some, if_pos rfl, UInt8.ofNat_toNat]

theorem parse4_string4 (a b c d : UInt8) : parse4 (string4 a b c d) = some (a, b, c, d) := by
  have hsplit : (string4 a b c d).splitOn 0x2E = [a, b, c, d].map fun o => itoa o.toNat :=
    List.splitOn_intercalate 0x2E (by simp [dot_not_mem_itoa]) (by simp)
  rw [parse4, hsplit, mapM_of_map fun o _ => parseOctet_itoa o]

theorem hexValue_digit : ∀ d < 16, hexValue (digit d) = some d := by decide

theorem foldlM_hex (ds : List Nat) (h : ∀ d ∈ ds, d < 16) (n : Nat) :
    (ds.map digit).foldlM (fun n c => (hexValue c).map (16 * n + ·)) n =
      some (ds.foldl (fun n d => 16 * n + d) n) := by
  induction ds generalizing n with
  | nil => rfl
  | cons d ds ih =>
    rw [List.map_cons, List.foldlM_cons, hexValue_digit d (h d List.mem_cons_self)]
    exact ih (fun d' hd' => h d' (List.mem_cons_of_mem _ hd')) _

theorem parseGroup_hexGroup {g : Nat} (hg : g < 65536) : parseGroup (hexGroup g) = some g := by
  have hlen : (hexGroup g).length ≤ 4 := by
    rw [hexGroup, numeral, List.length_map]
    split
    · decide
    · rw [List.length_reverse]
      exact (Nat.digits_length_le_iff (by decide) g).2 hg
  rw [parseGroup, if_pos ⟨hexGroup_ne_nil g, hlen⟩, hexGroup, numeral]
  split
  · subst_vars; rfl
  · have hd : ∀ d ∈ (Nat.digits 16 g).reverse, d < 16 := fun d hd =>
      Nat.digits_lt_base (by decide) (List.mem_reverse.1 hd)
    have hf : (Nat.digits 16 g).foldr (fun d n => 16 * n + d) 0 = g := by
      conv_rhs => rw [← Nat.ofDigits_digits 16 g, Nat.ofDigits_eq_foldr]
      simp [Nat.add_comm]
    rw [foldlM_hex _ hd, List.foldl_reverse, hf]

theorem parse4_eq_none {w : Bytes} (h : (0x2E : UInt8) ∉ w) : parse4 w = none := by
  unfold parse4
  rw [List.splitOn_eq_singleton h]
  cases hw : parseOctet w with
  | none => simp [hw]
  | some b => simp [hw]

section Groups

variable {gs : List Nat} (hgs : gs.length = 8) (hlt : ∀ g ∈ gs, g < 65536)
include hgs

theorem dot_not_mem_shown : ∀ w ∈ shown gs, (0x2E : UInt8) ∉ w := by
  intro w hw hdot
  rcases mem_shown hgs hw with rfl | ⟨_, g, -, -, rfl⟩
  · cases hdot
  · obtain ⟨d, hd, he⟩ := hexGroup_mem hdot
    exact (digit_ne_colon d hd).2 he.symm

theorem undotted_shown : undotted (shown gs) = shown gs := by
  have hlast : (shown gs).getLast?.bind parse4 = none := by
    rw [Option.bind_eq_none_iff]
    exact fun w hw => parse4_eq_none (dot_not_mem_shown hgs w (List.mem_of_getLast? hw))
  unfold undotted
  rw [hlast]

include hlt

theorem parsePieces_shown : parsePieces (shown gs) = some gs := by
  rw [parsePieces]
  rcases shown_cases hgs with h | ⟨left, n, right, hsplit, hn, h⟩
  · have hall : (gs.map hexGroup).takeWhile (· ≠ []) = gs.map hexGroup :=
      List.takeWhile_eq_self_iff.2 fun w hw => decide_eq_true (hexGroups_ne_nil gs w hw)
    simp only [h, hall, if_true, List.length_map, hgs]
    exact mapM_of_map fun g hg => parseGroup_hexGroup (hlt g hg)
  · obtain ⟨hleft, hright, hlt'⟩ := edges_spec (hexGroups_ne_nil left) (hexGroups_ne_nil right)
    have hlen := congrArg List.length hsplit
    simp only [hgs, List.length_append, List.length_replicate] at hlen
    have hl : (left.map hexGroup).mapM parseGroup = some left :=
      mapM_of_map fun g hg => parseGroup_hexGroup (hlt g (by rw [hsplit]; simp [hg]))
    have hr : (right.map hexGroup).mapM parseGroup = some right :=
      mapM_of_map fun g hg => parseGroup_hexGroup (hlt g (by rw [hsplit]; simp [hg]))
    simp only [h, hleft, hright]
    rw [if_neg hlt'.ne, if_pos ⟨trivial, by simp only [List.length_map]; omega⟩, hl, hr, hsplit]
    simp only [Option.bind_eq_bind, Option.bind_some]
    rw [show 8 - left.length - right.length = n by omega]

theorem parse6_string6 : parse6 (string6 gs) = some gs := by
  rw [parse6, string6_eq hgs, List.splitOn_intercalate 0x3A (colon_not_mem_shown hgs) (shown_ne_nil hgs),
    undotted_shown hgs, parsePieces_shown hgs hlt]

end Groups

theorem parseIP_string4 (a b c d : UInt8) : parseIP (string4 a b c d) = some (mapped (a, b, c, d)) := by
  rw [parseIP, parse4_string4]

/-- Every address is read back from its text. -/
theorem parseIP_string16 {ip : Bytes} (hl : ip.length = 16) : parseIP (string16 ip) = some ip := by
  rw [string16]
  rcases to4_spec hl with ⟨a, b, c, d, ht, hip⟩ | ⟨ht, -⟩
  · rw [ht, hip]
    exact parseIP_string4 a b c d
  · have hgs := length_groups_of hl
    have hdot : (0x2E : UInt8) ∉ string6 (groups ip) := fun h => by
      rcases string6_mem hgs h with hc | ⟨d, hd, hc⟩
      · exact absurd hc (by decide)
      · exact (digit_ne_colon d hd).2 hc.symm
    rw [ht, parseIP, parse4_eq_none hdot]
    show (parse6 (string6 (groups ip))).map ungroup = some ip
    rw [parse6_string6 hgs (groups_lt ip), Option.map_some, ungroup_groups (by rw [hl]; decide)]

end WatchBPF.Net
