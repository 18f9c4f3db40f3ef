/-
Which destinations the baseline tells apart. A key holds the rendered address after normalisation,
which replaces every all-digit group by one token: all of an IPv4 address, and of an IPv6 address
each group that happens to have no letter.
-/
import WatchBPF.Agent.Events

namespace WatchBPF.Agent

open WatchBPF.Net WatchBPF.Numeral WatchBPF.Baseline

/-! ## What normalisation does to text -/

theorem flatten_tokens (s : Bytes) : (tokens s).flatten = s := by
  induction s using chop_induction tokenStep_length with
  | nil => rfl
  | cons b s ih =>
    rw [tokens_cons, List.flatten_cons, ih, tokenStep]
    split
    · rw [List.cons_append, List.takeWhile_append_dropWhile]
    · rfl

theorem mem_normalize {s : Bytes} {b : UInt8} (h : b ∈ Baseline.normalize s) : b ∈ s ∨ b ∈ lit "<NUM>" := by
  rw [normalize_tokens] at h
  obtain ⟨t, ht, hb⟩ := List.mem_flatMap.1 h
  rw [replaceToken] at hb
  split at hb
  · exact .inr hb
  · exact .inl (by rw [← flatten_tokens s]; exact List.mem_flatten.2 ⟨t, ht, hb⟩)

/-- Text that normalisation changes shows a `<`. -/
theorem normalize_eq_self {s : Bytes} (h : (0x3C : UInt8) ∉ Baseline.normalize s) : Baseline.normalize s = s := by
  have hid : ∀ t ∈ tokens s, replaceToken t = t := by
    intro t ht
    rw [replaceToken]
    refine if_neg fun hall => h ?_
    rw [normalize_tokens]
    exact List.mem_flatMap.2 ⟨t, ht, by rw [replaceToken, if_pos hall]; decide⟩
  rw [normalize_tokens, List.flatMap_congr hid, List.flatMap_id', flatten_tokens]

theorem isWord_digit : ∀ d < 16, isWord (digit d) = true := by decide

theorem normalize_numeral {b n : Nat} (hb : 1 < b) (hb' : b ≤ 16) :
    Baseline.normalize (numeral b n) = replaceToken (numeral b n) := by
  refine normalize_word (numeral_ne_nil b n) fun c hc => ?_
  obtain ⟨d, hd, rfl⟩ := mem_numeral hb hc
  exact isWord_digit d (by omega)

theorem normalize_itoa (n : Nat) : Baseline.normalize (itoa n) = lit "<NUM>" := by
  rw [itoa, normalize_numeral (by decide) (by decide), replaceToken, if_pos]
  refine List.all_eq_true.2 fun c hc => ?_
  obtain ⟨d, hd, rfl⟩ := mem_numeral (by decide) hc
  exact isDigit_digit hd

theorem normalize_hexGroup (g : Nat) : Baseline.normalize (hexGroup g) = replaceToken (hexGroup g) :=
  normalize_numeral (by decide) le_rfl

/-- Every IPv4 address is normalised to the same text. -/
theorem normalize_string4 (a b c d : UInt8) : Baseline.normalize (string4 a b c d) =
    [0x2E].intercalate [lit "<NUM>", lit "<NUM>", lit "<NUM>", lit "<NUM>"] := by
  rw [string4, normalize_intercalate (by decide)]
  simp only [List.map_cons, List.map_nil, normalize_itoa]

theorem normalize_string6 {gs : List Nat} (hgs : gs.length = 8) :
    Baseline.normalize (string6 gs) = [0x3A].intercalate ((shown gs).map Baseline.normalize) := by
  rw [string6_eq hgs, normalize_intercalate (by decide)]

theorem normalize_brackets (t : Bytes) :
    Baseline.normalize (lit "[" ++ t ++ lit "]") = lit "[" ++ Baseline.normalize t ++ lit "]" := by
  have hl : lit "[" = [0x5B] := by decide
  have hr : lit "]" = [0x5D] := by decide
  have hsep : lit "[" ++ t ++ lit "]" = [] ++ 0x5B :: (t ++ 0x5D :: []) := by simp [hl, hr]
  rw [hsep, normalize_append_sep (by decide), normalize_append_sep (by decide), normalize_nil]
  simp [hl, hr]

theorem normalize_detail (ev : ConnectEvent) :
    Baseline.normalize ev.detail = Baseline.normalize ev.addr.text ++ 0x3A :: lit "<NUM>" := by
  rw [ConnectEvent.detail, show lit ":" = [0x3A] by decide, List.append_assoc, List.singleton_append,
    normalize_append_sep (by decide), normalize_itoa]

/-! ## Addresses that survive -/

/-- The address is no IPv4 address, mapped or not, and every group its text shows has a letter. -/
def Addr.Lettered : Addr → Prop
  | v4 _ => False
  | v6 ip => to4 ip.toList = none ∧ ∀ w ∈ shown (groups ip.toList), w = [] ∨ ∃ b ∈ w, isDigit b = false

theorem addr_text_mem {a : Addr} {b : UInt8} (h : b ∈ a.text) :
    b = 0x5B ∨ b = 0x5D ∨ b = 0x2E ∨ b = 0x3A ∨ ∃ d < 16, b = digit d := by
  have h4 : ∀ {p q r s : UInt8}, b ∈ string4 p q r s → b = 0x2E ∨ ∃ d < 16, b = digit d := by
    intro p q r s hb
    simp only [string4, List.intercalate_cons_cons, List.intercalate_singleton, List.mem_append,
      List.mem_singleton] at hb
    have hi : ∀ n : Nat, b ∈ itoa n → ∃ d < 16, b = digit d := fun n hm => by
      obtain ⟨d, hd, he⟩ := mem_numeral (by decide) hm
      exact ⟨d, by omega, he⟩
    rcases hb with (hb | hb) | (hb | hb) | (hb | hb) | hb
    all_goals first | exact .inl hb | exact .inr (hi _ hb)
  cases a with
  | v4 o => rcases h4 h with h | h <;> tauto
  | v6 ip =>
    have h1 : lit "[" = [0x5B] := by decide
    have h2 : lit "]" = [0x5D] := by decide
    simp only [Addr.text, h1, h2, List.mem_append, List.mem_singleton] at h
    rcases h with (h | h) | h
    · exact .inl h
    · rw [string16] at h
      split at h
      · rcases h4 h with h | h <;> tauto
      · rcases string6_mem (length_groups_of (by simp)) h with h | h <;> tauto
    · exact .inr (.inl h)

theorem lt_not_mem_text (a : Addr) : (0x3C : UInt8) ∉ a.text := fun h => by
  have : ∀ d < 16, digit d ≠ 0x3C := by decide
  rcases addr_text_mem h with h | h | h | h | ⟨d, hd, h⟩
  all_goals first | exact absurd h (by decide) | exact this d hd h.symm

theorem bar_not_mem_normalize_detail (ev : ConnectEvent) : (0x7C : UInt8) ∉ Baseline.normalize ev.detail := fun h => by
  have hd : ∀ d < 16, digit d ≠ 0x7C := by decide
  rw [normalize_detail, List.mem_append] at h
  rcases h with h | h
  · rcases mem_normalize h with h | h
    · rcases addr_text_mem h with h | h | h | h | ⟨d, hlt, h⟩
      all_goals first | exact absurd h (by decide) | exact hd d hlt h.symm
    · exact absurd h (by decide)
  · exact absurd h (by decide)

/-- The shown groups of an address that is not lettered include a number. -/
theorem normalize_text_of_lettered {a : Addr} (h : a.Lettered) : Baseline.normalize a.text = a.text := by
  cases a with
  | v4 o => exact h.elim
  | v6 ip =>
    obtain ⟨h4, hw⟩ := h
    have hgs : (groups ip.toList).length = 8 := length_groups_of (by simp)
    rw [Addr.text, normalize_brackets, string16, h4]
    simp only
    rw [normalize_string6 hgs]
    have hid : (shown (groups ip.toList)).map Baseline.normalize = shown (groups ip.toList) := by
      refine (List.map_congr_left fun w hm => ?_).trans (List.map_id _)
      rcases mem_shown hgs hm with rfl | ⟨_, g, -, -, rfl⟩
      · rfl
      · rw [normalize_hexGroup, replaceToken, if_neg]
        · rfl
        · rcases hw _ hm with h0 | ⟨b, hb, hd⟩
          · exact absurd h0 (hexGroup_ne_nil g)
          · exact fun hall => by simp [List.all_eq_true.1 hall b hb] at hd
    rw [hid, string6_eq hgs]

/-! ## Addresses that do not -/

/-- A group shown as a number can be exchanged for another without a trace. -/
theorem exists_shown_eq {gs : List Nat} (hgs : gs.length = 8) {w : Bytes} (hw : w ∈ shown gs) (hne : w ≠ [])
    (hall : w.all isDigit = true) : ∃ k g', (g' = 1 ∨ g' = 2) ∧ k < 8 ∧ gs[k]? ≠ some g' ∧
      (shown (gs.set k g')).map Baseline.normalize = (shown gs).map Baseline.normalize := by
  -- the group stands outside the run left out
  obtain ⟨k, g, hk, hrun, rfl⟩ := (mem_shown hgs hw).resolve_left hne
  have hk8 : k < 8 := hgs ▸ (List.getElem?_eq_some_iff.1 hk).1
  obtain ⟨g', hg', hne'⟩ : ∃ g', (g' = 1 ∨ g' = 2) ∧ g' ≠ g := by
    by_cases h1 : g = 1
    · exact ⟨2, .inr rfl, by omega⟩
    · exact ⟨1, .inl rfl, fun h => h1 h.symm⟩
  refine ⟨k, g', hg', hk8, by rw [hk]; exact fun h => hne' (Option.some.inj h).symm, ?_⟩
  have hnum : Baseline.normalize (hexGroup g') = Baseline.normalize (hexGroup g) := by
    have h1 : Baseline.normalize (hexGroup g) = lit "<NUM>" := by rw [normalize_hexGroup, replaceToken, if_pos hall]
    rw [h1]
    rcases hg' with rfl | rfl <;> decide
  have hmap : (gs.set k g').map (Baseline.normalize ∘ hexGroup) = gs.map (Baseline.normalize ∘ hexGroup) := by
    rw [List.map_set]
    refine List.ext_getElem? fun i => ?_
    rw [List.getElem?_set]
    split
    · rename_i hi
      subst hi
      rw [if_pos (by simpa [hgs] using hk8), List.getElem?_map, hk, Option.map_some, Function.comp_apply,
        Function.comp_apply, hnum]
    · rfl
  rw [map_shown rfl, map_shown rfl, zeroRun_set_groups hgs hk8 (by omega) hrun, hmap]

/-- Another address with the same normalised text. -/
theorem exists_ip_of_not_lettered {ip : Vector UInt8 16} (h : ¬ (Addr.v6 ip).Lettered) :
    ∃ ip' : Vector UInt8 16, ip' ≠ ip ∧
      Baseline.normalize (string16 ip'.toList) = Baseline.normalize (string16 ip.toList) := by
  have hl : ip.toList.length = 16 := by simp
  have hgs := length_groups_of hl
  rcases to4_spec hl with ⟨a, b, c, d, ht, hip⟩ | ⟨ht, hnot⟩
  · have ht' : to4 (List.replicate 10 0 ++ [0xFF, 0xFF, a, b, c, d + 1]) = some (a, b, c, d + 1) := rfl
    refine ⟨⟨(List.replicate 10 0 ++ [0xFF, 0xFF, a, b, c, d + 1]).toArray, by simp⟩, fun he => ?_, ?_⟩
    · rw [← he] at hip
      simp at hip
    · show Baseline.normalize (string16 (List.replicate 10 0 ++ [0xFF, 0xFF, a, b, c, d + 1])) = _
      rw [string16, string16, ht, ht', normalize_string4, normalize_string4]
  · obtain ⟨w, hw, hne, hall⟩ : ∃ w ∈ shown (groups ip.toList), w ≠ [] ∧ w.all isDigit = true := by
      by_contra hno
      refine h ⟨ht, fun w hw => ?_⟩
      by_contra hcon
      refine hno ⟨w, hw, fun h0 => hcon (.inl h0), List.all_eq_true.2 fun b hb => ?_⟩
      by_contra hd
      exact hcon (.inr ⟨b, hb, by simpa using hd⟩)
    obtain ⟨k, g', hg', hk8, hgk, hsame⟩ := exists_shown_eq hgs hw hne hall
    set gs' := (groups ip.toList).set k g' with hgs'
    have hl8 : gs'.length = 8 := by simpa [hgs'] using hgs
    have hlt : ∀ g ∈ gs', g < 65536 := by
      intro g hg
      rcases List.mem_or_eq_of_mem_set hg with hg | rfl
      · exact groups_lt _ g hg
      · rcases hg' with rfl | rfl <;> decide
    have hlen : (ungroup gs').length = 16 := by
      simp [ungroup, List.length_flatMap, hl8]
    have hgroups : groups (ungroup gs') = gs' := groups_ungroup hlt
    refine ⟨⟨(ungroup gs').toArray, by simpa using hlen⟩, fun he => hgk ?_, ?_⟩
    · rw [← he]
      show (groups (ungroup gs'))[k]? = some g'
      rw [hgroups, hgs', List.getElem?_set_self (by omega)]
    · show Baseline.normalize (string16 (ungroup gs')) = _
      have ht' : to4 (ungroup gs') = none := by
        rcases to4_spec hlen with ⟨a, b, c, d, -, hip⟩ | ⟨ht', -⟩
        · -- the exchanged group is none of those that make an address mapped
          exfalso
          have hm : gs' = [0, 0, 0, 0, 0, 65535, a.toNat * 256 + b.toNat, c.toNat * 256 + d.toNat] := by
            rw [← hgroups, hip]; rfl
          have hget : ∀ i < 6, i ≠ k → (groups ip.toList)[i]? = gs'[i]? := fun i _ hik => by
            rw [hgs', List.getElem?_set_ne (Ne.symm hik)]
          have hkk : gs'[k]? = some g' := by rw [hgs', List.getElem?_set_self (by omega)]
          have hk6 : 6 ≤ k := by
            by_contra hlt
            rw [hm] at hkk
            have : k = 0 ∨ k = 1 ∨ k = 2 ∨ k = 3 ∨ k = 4 ∨ k = 5 := by omega
            rcases this with rfl | rfl | rfl | rfl | rfl | rfl <;> simp at hkk <;> omega
          refine hnot ⟨?_, ?_⟩
          · refine List.ext_getElem? fun i => ?_
            rcases lt_or_ge i 5 with hi | hi
            · rw [List.getElem?_take_of_lt hi, hget i (by omega) (by omega), hm]
              have : i = 0 ∨ i = 1 ∨ i = 2 ∨ i = 3 ∨ i = 4 := by omega
              rcases this with rfl | rfl | rfl | rfl | rfl <;> rfl
            · rw [List.getElem?_eq_none (by simp; omega), List.getElem?_eq_none (by simpa using hi)]
          · rw [hget 5 (by omega) (by omega), hm]; rfl
        · exact ht'
      rw [string16, string16, ht, ht', hgroups]
      simp only
      rw [normalize_string6 hl8, normalize_string6 hgs, hsame]

theorem exists_event_of_not_lettered {q : ConnectEvent} (h : ¬ q.addr.Lettered) :
    ∃ e : ConnectEvent, e.comm = q.comm ∧ e.addr ≠ q.addr ∧
      Baseline.normalize e.addr.text = Baseline.normalize q.addr.text := by
  by_cases h6 : q.isIPv6 = 1
  · have ha : q.addr = .v6 q.ipv6Addr := if_pos h6
    rw [ha] at h ⊢
    obtain ⟨ip', hne, hnorm⟩ := exists_ip_of_not_lettered h
    refine ⟨{ q with ipv6Addr := ip' }, rfl, ?_, ?_⟩
    · rw [show ({ q with ipv6Addr := ip' } : ConnectEvent).addr = .v6 ip' from if_pos h6]
      exact fun he => hne (Addr.v6.inj he)
    · rw [show ({ q with ipv6Addr := ip' } : ConnectEvent).addr = .v6 ip' from if_pos h6, Addr.text, Addr.text,
        normalize_brackets, normalize_brackets, hnorm]
  · have ha : ∀ x, ({ q with dstAddr := x } : ConnectEvent).addr = .v4 (putUint32 x) := fun x => if_neg h6
    refine ⟨{ q with dstAddr := q.dstAddr + 1 }, rfl, ?_, ?_⟩
    · rw [ha, show q.addr = _ from ha q.dstAddr]
      intro he
      have := putUint32_injective (Addr.v4.inj he)
      simp at this
    · rw [ha, show q.addr = _ from ha q.dstAddr]
      show Baseline.normalize (string4 _ _ _ _) = Baseline.normalize (string4 _ _ _ _)
      rw [normalize_string4, normalize_string4]

/-! ## Novelty -/

/-- What makes a connect event known: a learned one of the same command, up to normalisation. -/
theorem known_connect_iff {learned : List KernelRecord} {q : ConnectEvent} :
    ((⟨∅⟩ : Store).learnAll (learned.map fun r => r.event.combination)).isKnown
        (KernelRecord.connect q).event.combination = true ↔
      ∃ e, .connect e ∈ learned ∧ cstr e.comm.toList = cstr q.comm.toList ∧
        Baseline.normalize e.addr.text = Baseline.normalize q.addr.text := by
  rw [isKnown_learnAll]
  simp only [Finset.notMem_empty, false_or, List.mem_map, exists_exists_and_eq_and, key_eq, List.intercalate_cons_cons,
    List.intercalate_singleton, List.append_assoc, List.singleton_append]
  constructor
  · rintro ⟨r, hr, h⟩
    have hcount : ∀ r : KernelRecord, r.event.combination.eventType.count 0x7C = 0 := fun r =>
      List.count_eq_zero_of_not_mem (bar_not_mem_label _)
    obtain ⟨hlabel, h⟩ := append_sep_inj h (by rw [hcount, hcount])
    have hlabel : r.event.label = .connect := label_text_injective hlabel
    cases r with
    | exec ev | openat ev => cases hlabel
    | connect e =>
      obtain ⟨hcomm, hdetail⟩ := append_sep_inj_right h (bar_not_mem_normalize_detail e)
        (bar_not_mem_normalize_detail q)
      refine ⟨e, hr, hcomm, ?_⟩
      rw [show (KernelRecord.connect e).event.combination.path = e.detail from rfl,
        show (KernelRecord.connect q).event.combination.path = q.detail from rfl,
        normalize_detail, normalize_detail] at hdetail
      exact List.append_cancel_right hdetail
  · rintro ⟨e, he, hcomm, hnorm⟩
    refine ⟨.connect e, he, ?_⟩
    show _ ++ 0x7C :: (cstr e.comm.toList ++ 0x7C :: Baseline.normalize e.detail) =
      _ ++ 0x7C :: (cstr q.comm.toList ++ 0x7C :: Baseline.normalize q.detail)
    rw [hcomm, normalize_detail, normalize_detail, hnorm]
    rfl

/-- A connect event is known only by its own address exactly when that address shows a letter in
every group. -/
theorem known_only_by_addr_iff (q : ConnectEvent) :
    (∀ learned : List KernelRecord,
      ((⟨∅⟩ : Store).learnAll (learned.map fun r => r.event.combination)).isKnown
        (KernelRecord.connect q).event.combination = true →
      ∃ e, .connect e ∈ learned ∧ cstr e.comm.toList = cstr q.comm.toList ∧ e.addr = q.addr) ↔
      q.addr.Lettered := by
  simp only [known_connect_iff]
  constructor
  · intro h
    by_contra hl
    obtain ⟨e, hcomm, hne, hnorm⟩ := exists_event_of_not_lettered hl
    obtain ⟨e', he', -, haddr⟩ := h [.connect e] ⟨e, by simp, by rw [hcomm], hnorm⟩
    obtain rfl : e' = e := by simpa using he'
    exact hne haddr
  · rintro hl learned ⟨e, he, hcomm, hnorm⟩
    refine ⟨e, he, hcomm, addr_text_injective ?_⟩
    have hq := normalize_text_of_lettered hl
    have hself : Baseline.normalize e.addr.text = e.addr.text :=
      normalize_eq_self (by rw [hnorm, hq]; exact lt_not_mem_text _)
    rw [← hself, hnorm, hq]

/-- After one connection of `curl`, to 1.2.3.4, its connections to 5.6.7.8 are known. -/
theorem known_other_addr :
    let curl : Vector UInt8 16 := #v[0x63, 0x75, 0x72, 0x6C, 0, 0, 0, 0, 0, 0, 0, 0, 0, 0, 0, 0]
    let old : ConnectEvent := ⟨7, 0, curl, 0, Vector.replicate 16 0, 0x04030201, 443⟩
    let new : ConnectEvent := ⟨8, 0, curl, 0, Vector.replicate 16 0, 0x08070605, 80⟩
    (KernelRecord.connect old).event.detail = lit "1.2.3.4:443" ∧
      (KernelRecord.connect new).event.detail = lit "5.6.7.8:80" ∧ old.addr ≠ new.addr ∧
      ((⟨∅⟩ : Store).learnAll [(KernelRecord.connect old).event.combination]).isKnown
        (KernelRecord.connect new).event.combination = true := by
  refine ⟨by decide, by decide, by decide, by decide⟩

end WatchBPF.Agent
