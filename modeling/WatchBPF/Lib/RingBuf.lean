/-
A buffer with several writers and one reader. A writer reserves a slot at the end, fills it in its own time and
submits it; the reader takes the first slot, and waits for it as long as it is busy. Whatever the writers' order,
what the reader got and what is still in the buffer is what was reserved, in that order.
-/
import Mathlib.Tactic

namespace WatchBPF.RingBuf

/-- A slot that was reserved and not yet taken; it is busy until it is submitted. -/
structure Slot (κ β : Type) where
  owner : κ
  sample : β
  busy : Bool := true

variable {κ β γ : Type}

/-- The reservations are accounted for: `delivered` is what the reader made of those whose slots are gone, and what
the other slots hold is known. -/
structure Delivers (Holds : Bool → κ → β → Prop) (Serves : κ → γ → Prop) (reserved : List κ)
    (slots : List (Slot κ β)) (delivered : List γ) : Prop where
  order : ∃ served, reserved = served ++ slots.map Slot.owner ∧ List.Forall₂ Serves served delivered
  holds : ∀ s ∈ slots, Holds s.busy s.owner s.sample

namespace Delivers

variable {Holds : Bool → κ → β → Prop} {Serves : κ → γ → Prop} {reserved : List κ} {slots : List (Slot κ β)}
  {delivered : List γ}

theorem empty : Delivers Holds Serves [] [] [] := ⟨⟨[], rfl, .nil⟩, nofun⟩

theorem reserve (h : Delivers Holds Serves reserved slots delivered) {k : κ} {b : β} (hb : Holds true k b) :
    Delivers Holds Serves (reserved ++ [k]) (slots ++ [{ owner := k, sample := b }]) delivered := by
  obtain ⟨served, hreserved, hserved⟩ := h.order
  refine ⟨⟨served, ?_, hserved⟩, fun s hs => ?_⟩
  · rw [hreserved, List.map_append, List.append_assoc]
    rfl
  · rcases List.mem_append.1 hs with hs | hs
    · exact h.holds s hs
    · rw [List.mem_singleton.1 hs]
      exact hb

/-- Any slot may be submitted, the last one before the first. -/
theorem submit (h : Delivers Holds Serves reserved slots delivered) {n : Nat} {s : Slot κ β} {b : β}
    (hn : slots[n]? = some s) (hb : Holds false s.owner b) :
    Delivers Holds Serves reserved (slots.set n { s with sample := b, busy := false }) delivered := by
  have howners : (slots.set n { s with sample := b, busy := false }).map Slot.owner = slots.map Slot.owner := by
    obtain ⟨hlt, rfl⟩ := List.getElem?_eq_some_iff.1 hn
    rw [List.map_set]
    simp only [← List.getElem_map Slot.owner (h := by rwa [List.length_map]), List.set_getElem_self]
  refine ⟨howners ▸ h.order, fun t ht => ?_⟩
  rcases List.mem_or_eq_of_mem_set ht with ht | rfl
  · exact h.holds t ht
  · exact hb

theorem take {s : Slot κ β} (h : Delivers Holds Serves reserved (s :: slots) delivered) {c : γ}
    (hc : Serves s.owner c) : Delivers Holds Serves reserved slots (delivered ++ [c]) := by
  obtain ⟨served, hreserved, hserved⟩ := h.order
  refine ⟨⟨served ++ [s.owner], ?_, List.rel_append hserved (.cons hc .nil)⟩,
    fun t ht => h.holds t (List.mem_cons_of_mem s ht)⟩
  rw [hreserved, List.map_cons, List.append_assoc]
  rfl

/-- What was delivered was reserved. -/
theorem exists_reserved (h : Delivers Holds Serves reserved slots delivered) {c : γ} (hc : c ∈ delivered) :
    ∃ k ∈ reserved, Serves k c := by
  obtain ⟨served, hreserved, hserved⟩ := h.order
  have hmem : ∃ k ∈ served, Serves k c := by
    clear hreserved h
    induction hserved with
    | nil => cases hc
    | @cons k c' served delivered hk _ ih =>
      rcases List.mem_cons.1 hc with rfl | hc
      · exact ⟨k, List.mem_cons_self, hk⟩
      · obtain ⟨k', hk', hserves⟩ := ih hc
        exact ⟨k', List.mem_cons_of_mem _ hk', hserves⟩
  obtain ⟨k, hk, hserves⟩ := hmem
  exact ⟨k, hreserved ▸ List.mem_append_left _ hk, hserves⟩

/-- Nothing is delivered more often than reserved. -/
theorem countP_le (h : Delivers Holds Serves reserved slots delivered) {p : γ → Bool} {q : κ → Bool}
    (hpq : ∀ k c, Serves k c → p c = true → q k = true) : delivered.countP p ≤ reserved.countP q := by
  obtain ⟨served, hreserved, hserved⟩ := h.order
  have hle : delivered.countP p ≤ served.countP q := by
    clear hreserved h
    induction hserved with
    | nil => exact le_rfl
    | @cons k c served delivered hk _ ih =>
      rw [List.countP_cons, List.countP_cons]
      by_cases hp : p c = true
      · rw [if_pos hp, if_pos (hpq k c hk hp)]
        exact Nat.succ_le_succ ih
      · rw [if_neg hp]
        exact ih.trans (Nat.le_add_right _ _)
  rw [hreserved, List.countP_append]
  exact hle.trans (Nat.le_add_right _ _)

end Delivers

end WatchBPF.RingBuf
