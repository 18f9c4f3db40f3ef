/-
Hash chains over any type of entries and links: an entry names the link before it and carries its
own, which its content must call for. What a chain commits to, why its links differ, and which
rearrangements of its entries are chains, each under the assumption that contents with one digest
name the same link before them.
-/
import Mathlib.Tactic

namespace WatchBPF

/-! ## Common prefixes -/

/-- The longest common prefix. -/
def commonPrefix {α : Type} [DecidableEq α] : List α → List α → List α
  | a :: as, b :: bs => if a = b then a :: commonPrefix as bs else []
  | _, _ => []

section CommonPrefix

variable {α β : Type} [DecidableEq α] [DecidableEq β]

/-- The common prefix is the greatest of the prefixes both lists have. -/
theorem prefix_commonPrefix_iff : ∀ {c as bs : List α},
    c <+: commonPrefix as bs ↔ c <+: as ∧ c <+: bs
  | [], _, _ => by simp
  | x :: c, [], bs => by simp [commonPrefix]
  | x :: c, _ :: _, [] => by simp [commonPrefix]
  | x :: c, a :: as, b :: bs => by
    unfold commonPrefix
    split
    · subst_vars
      simp only [List.cons_prefix_cons, prefix_commonPrefix_iff (c := c)]
      tauto
    · rename_i h
      simp only [List.prefix_nil, reduceCtorEq, List.cons_prefix_cons, false_iff]
      rintro ⟨⟨rfl, -⟩, rfl, -⟩
      exact h rfl

theorem commonPrefix_eq_left_iff {as bs : List α} : commonPrefix as bs = as ↔ as <+: bs := by
  constructor
  · intro h
    have : as <+: commonPrefix as bs := by rw [h]
    exact (prefix_commonPrefix_iff.1 this).2
  · intro h
    have h1 : as <+: commonPrefix as bs := prefix_commonPrefix_iff.2 ⟨List.prefix_refl _, h⟩
    have h2 : commonPrefix as bs <+: as := (prefix_commonPrefix_iff.1 (List.prefix_refl _)).1
    exact h2.eq_of_length_le h1.length_le

theorem commonPrefix_append (cs as bs : List α) : commonPrefix (cs ++ as) (cs ++ bs) = cs ++ commonPrefix as bs := by
  induction cs with
  | nil => rfl
  | cons c cs ih => rw [List.cons_append, List.cons_append, commonPrefix, if_pos rfl, ih, List.cons_append]

/-- A map that keeps the two lists' elements apart keeps their common prefix. -/
theorem commonPrefix_map {f : α → β} : ∀ {as bs : List α},
    (∀ a ∈ as, ∀ b ∈ bs, f a = f b → a = b) →
    commonPrefix (as.map f) (bs.map f) = (commonPrefix as bs).map f
  | [], _, _ => by simp [commonPrefix]
  | _ :: _, [], _ => by simp [commonPrefix]
  | a :: as, b :: bs, h => by
    have ih : commonPrefix (as.map f) (bs.map f) = (commonPrefix as bs).map f :=
      commonPrefix_map fun x hx y hy => h x (by simp [hx]) y (by simp [hy])
    simp only [List.map_cons, commonPrefix, ih]
    by_cases hab : a = b
    · simp [hab]
    · have : f a ≠ f b := fun he => hab (h a (by simp) b (by simp) he)
      simp [hab, this]

end CommonPrefix

namespace HashChain

/-- How entries are chained. -/
structure Scheme (ε δ : Type) where
  genesis : δ
  /-- the link an entry names as the one before it -/
  prev : ε → δ
  /-- the link an entry carries -/
  link : ε → δ
  /-- the link its content calls for -/
  digest : ε → δ

variable {ε δ : Type} (S : Scheme ε δ)

/-- The link at the end of a chain that starts at `g`. -/
def tip : δ → List ε → δ
  | g, [] => g
  | _, e :: es => tip (S.link e) es

/-- Every entry names the link before it. -/
def Linked : δ → List ε → Prop
  | _, [] => True
  | g, e :: es => S.prev e = g ∧ Linked (S.link e) es

/-- Every entry carries the link its content calls for. -/
def Sealed (es : List ε) : Prop := ∀ e ∈ es, S.digest e = S.link e

/-- Contents with one digest name the same link before them. -/
def Determined (es fs : List ε) : Prop :=
  ∀ a ∈ es, ∀ b ∈ fs, S.digest a = S.digest b → S.prev a = S.prev b

/-- No content calls for the link chains start at. -/
def Fresh (es : List ε) : Prop := ∀ e ∈ es, S.digest e ≠ S.genesis

variable {S}

@[simp] theorem tip_append (g : δ) (es fs : List ε) : tip S g (es ++ fs) = tip S (tip S g es) fs := by
  induction es generalizing g with
  | nil => rfl
  | cons e es ih => exact ih _

theorem linked_append (g : δ) (es fs : List ε) :
    Linked S g (es ++ fs) ↔ Linked S g es ∧ Linked S (tip S g es) fs := by
  induction es generalizing g with
  | nil => simp [Linked, tip]
  | cons e es ih => simp [Linked, tip, ih, and_assoc]

theorem tip_eq_getLast? (g : δ) (es : List ε) : tip S g es = (es.getLast?.map S.link).getD g := by
  induction es using List.reverseRecOn with
  | nil => rfl
  | append_singleton es e _ => simp [tip]

theorem linked_get_zero {g : δ} {es : List ε} (h : Linked S g es) {a : ε} (ha : es[0]? = some a) :
    S.prev a = g := by
  cases es with
  | nil => simp at ha
  | cons e es => simp only [List.getElem?_cons_zero, Option.some.injEq] at ha; exact ha ▸ h.1

theorem linked_get_succ : ∀ {g : δ} {es : List ε}, Linked S g es → ∀ {j : Nat} {b : ε},
    es[j + 1]? = some b → ∃ c ∈ es, es[j]? = some c ∧ S.prev b = S.link c
  | _, [], _, j, b, hb => by simp at hb
  | g, e :: es, h, 0, b, hb => by
    simp only [List.getElem?_cons_succ] at hb
    exact ⟨e, by simp, by simp, linked_get_zero h.2 hb⟩
  | g, e :: es, h, j + 1, b, hb => by
    simp only [List.getElem?_cons_succ] at hb
    obtain ⟨c, hc, hj, hp⟩ := linked_get_succ h.2 hb
    exact ⟨c, by simp [hc], by simpa using hj, hp⟩

/-! ## The links of a chain differ -/

/-- Two entries with one link would have a common ancestor at different depths. -/
theorem link_ne_of_lt {es : List ε} (hl : Linked S S.genesis es) (hs : Sealed S es)
    (hd : Determined S es es) (hf : Fresh S es) :
    ∀ {i j : Nat} {a b : ε}, i < j → es[i]? = some a → es[j]? = some b → S.link a ≠ S.link b
  | i, j + 1, a, b, hij, ha, hb, he => by
    have ma := List.mem_of_getElem? ha
    have mb := List.mem_of_getElem? hb
    have hp := hd a ma b mb (by rw [hs a ma, hs b mb, he])
    obtain ⟨c, mc, hc, hbc⟩ := linked_get_succ hl hb
    cases i with
    | zero => exact hf c mc (by rw [hs c mc, ← hbc, ← hp, linked_get_zero hl ha])
    | succ i =>
      obtain ⟨d, -, hd', had⟩ := linked_get_succ hl ha
      exact link_ne_of_lt hl hs hd hf (by omega : i < j) hd' hc (by rw [← had, ← hbc, hp])

/-- An entry's link tells its place in the chain. -/
theorem index_eq_of_link {es : List ε} (hl : Linked S S.genesis es) (hs : Sealed S es)
    (hd : Determined S es es) (hf : Fresh S es) {i j : Nat} {a b : ε} (ha : es[i]? = some a)
    (hb : es[j]? = some b) (he : S.link a = S.link b) : i = j := by
  rcases lt_trichotomy i j with h | h | h
  · exact absurd he (link_ne_of_lt hl hs hd hf h ha hb)
  · exact h
  · exact absurd he.symm (link_ne_of_lt hl hs hd hf h hb ha)

/-- A new entry moves the tip. -/
theorem link_ne_tip {es : List ε} {e : ε} (hl : Linked S S.genesis (es ++ [e])) (hs : Sealed S (es ++ [e]))
    (hd : Determined S (es ++ [e]) (es ++ [e])) (hf : Fresh S (es ++ [e])) : S.link e ≠ tip S S.genesis es := by
  rcases List.eq_nil_or_concat es with rfl | ⟨es, d, rfl⟩
  · rw [tip, ← hs e (by simp)]
    exact hf e (by simp)
  · rw [List.concat_eq_append] at *
    have hlt : es.length < (es ++ [d]).length := by simp
    have := link_ne_of_lt hl hs hd hf hlt (a := d) (b := e) (by simp) (by simp)
    simpa [tip] using this.symm

/-! ## A chain commits to its entries -/

/-- Chains with one tip have equally many entries, with pairwise equal digests. -/
theorem forall₂_digest_of_tip {es fs : List ε} (he : Linked S S.genesis es) (hes : Sealed S es)
    (hf : Linked S S.genesis fs) (hfs : Sealed S fs) (hd : Determined S es fs) (hfe : Fresh S es)
    (hff : Fresh S fs) (ht : tip S S.genesis es = tip S S.genesis fs) :
    List.Forall₂ (fun a b => S.digest a = S.digest b) es fs := by
  induction es using List.reverseRecOn generalizing fs with
  | nil =>
    rcases List.eq_nil_or_concat fs with rfl | ⟨fs, b, rfl⟩
    · exact .nil
    · exact absurd (by simpa [tip, hfs b (by simp)] using ht.symm) (hff b (by simp))
  | append_singleton es a ih =>
    rcases List.eq_nil_or_concat fs with rfl | ⟨fs, b, rfl⟩
    · exact absurd (by simpa [tip, hes a (by simp)] using ht) (hfe a (by simp))
    · rw [List.concat_eq_append] at *
      have hab : S.digest a = S.digest b := by
        rw [hes a (by simp), hfs b (by simp)]; simpa [tip] using ht
      obtain ⟨hle, hpa, -⟩ := (linked_append _ es [a]).1 he
      obtain ⟨hlf, hpb, -⟩ := (linked_append _ fs [b]).1 hf
      have hprev := hd a (by simp) b (by simp) hab
      have ih := ih hle (fun e h => hes e (by simp [h])) hlf (fun e h => hfs e (by simp [h]))
        (fun x hx y hy => hd x (by simp [hx]) y (by simp [hy])) (fun e h => hfe e (by simp [h]))
        (fun e h => hff e (by simp [h])) (by rw [← hpa, ← hpb, hprev])
      exact List.rel_append ih (.cons hab .nil)

/-! ## Rearrangements -/

section Accepted

variable [DecidableEq δ]

variable (S) in
/-- How many entries a verifier passes before the first it refuses. -/
def accepted : δ → List ε → Nat
  | _, [] => 0
  | g, e :: es => if S.prev e = g ∧ S.digest e = S.link e then accepted (S.link e) es + 1 else 0

/-- A list of entries of a chain is accepted exactly as far as it agrees with the chain. -/
theorem accepted_eq_commonPrefix [DecidableEq ε] {es ms : List ε} (hl : Linked S S.genesis es)
    (hs : Sealed S es) (hd : Determined S es es) (hf : Fresh S es) (hm : ∀ m ∈ ms, m ∈ es) :
    accepted S S.genesis ms = (commonPrefix ms es).length := by
  -- along the agreement the verifier stands at the tip of the part `done` already passed
  have go : ∀ (ms rest done : List ε), es = done ++ rest → (∀ m ∈ ms, m ∈ es) →
      accepted S (tip S S.genesis done) ms = (commonPrefix ms rest).length := by
    intro ms
    induction ms with
    | nil => intros; simp [accepted, commonPrefix]
    | cons m ms ih =>
      intro rest done hes hm
      have hmem := hm m (by simp)
      obtain ⟨i, hi⟩ := List.getElem?_of_mem hmem
      -- `m` continues at `done` only from its own place
      have place : S.prev m = tip S S.genesis done → i = done.length := by
        intro hp
        rcases List.eq_nil_or_concat done with rfl | ⟨done, c, rfl⟩
        · cases i with
          | zero => rfl
          | succ i =>
            obtain ⟨d, hd', -, hpd⟩ := linked_get_succ hl hi
            exact absurd (by rw [hs d hd', ← hpd, hp]; rfl) (hf d hd')
        · rw [List.concat_eq_append] at hp hes ⊢
          simp only [tip_append, tip] at hp
          have hc : es[done.length]? = some c := by simp [hes]
          cases i with
          | zero =>
            have := linked_get_zero hl hi
            exact absurd (by rw [hs c (by simp [hes]), ← hp, this]) (hf c (by simp [hes]))
          | succ i =>
            obtain ⟨d, -, hd', hpd⟩ := linked_get_succ hl hi
            have := index_eq_of_link hl hs hd hf hd' hc (by rw [← hpd, hp])
            simp [this]
      by_cases hp : S.prev m = tip S S.genesis done
      · have hidx := place hp
        obtain ⟨r, hr⟩ : ∃ r, rest = m :: r := by
          cases rest with
          | nil => simp [hes, hidx] at hi
          | cons x r => simp [hes, hidx] at hi; exact ⟨r, by rw [hi]⟩
        have ih := ih r (done ++ [m]) (by simp [hes, hr]) fun x hx => hm x (by simp [hx])
        simp only [tip_append, tip] at ih
        simp [accepted, hp, hs m hmem, ih, hr, commonPrefix]
      · have hne : ∀ r, rest ≠ m :: r := by
          rintro r rfl
          rw [hes] at hl
          exact hp ((linked_append _ _ _).1 hl).2.1
        have hc : commonPrefix (m :: ms) rest = [] := by
          cases rest with
          | nil => rfl
          | cons x r =>
            have : m ≠ x := by rintro rfl; exact hne r rfl
            simp [commonPrefix, this]
        simp [accepted, hp, hc]
  exact go ms es [] rfl hm

/-- A chain that lacks an entry and goes on is accepted up to the gap. -/
theorem accepted_of_gap [DecidableEq ε] {as bs ms : List ε} {lost : ε}
    (hl : Linked S S.genesis (as ++ lost :: bs)) (hs : Sealed S (as ++ lost :: bs))
    (hd : Determined S (as ++ lost :: bs) (as ++ lost :: bs)) (hf : Fresh S (as ++ lost :: bs))
    (hm : ∀ m ∈ ms, m ∈ bs) : accepted S S.genesis (as ++ ms) = as.length := by
  have hmem : ∀ m ∈ as ++ ms, m ∈ as ++ lost :: bs := by
    intro m hmem
    rcases List.mem_append.1 hmem with hmem | hmem
    · exact List.mem_append_left _ hmem
    · exact List.mem_append_right _ (List.mem_cons_of_mem _ (hm m hmem))
  rw [accepted_eq_commonPrefix hl hs hd hf hmem, commonPrefix_append, List.length_append]
  cases ms with
  | nil => rfl
  | cons m ms =>
    -- an entry behind the gap is another than the one that is lost
    have hne : m ≠ lost := by
      rintro rfl
      obtain ⟨j, hj⟩ := List.getElem?_of_mem (hm m List.mem_cons_self)
      refine link_ne_of_lt hl hs hd hf (show as.length < as.length + 1 + j by omega) (a := m) (b := m) ?_ ?_ rfl
      · rw [List.getElem?_append_right le_rfl, Nat.sub_self, List.getElem?_cons_zero]
      · rw [List.getElem?_append_right (by omega), show as.length + 1 + j - as.length = j + 1 by omega,
          List.getElem?_cons_succ, hj]
    rw [commonPrefix, if_neg hne]
    rfl

end Accepted

end HashChain

end WatchBPF
