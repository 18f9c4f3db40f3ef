/-
Code fences around an answer. Whatever white space stands around the fences and inside of them,
`parseAssessment` takes the answer as it would take it bare, for no trim reaches into an object's text.
-/
import WatchBPF.LLM.Assessment
import WatchBPF.Lib.Json.Append

namespace WatchBPF.LLM

open WatchBPF.Utf8 WatchBPF.Numeral

/-! ## Trimming -/

/-- White space of JSON. -/
def Blank (w : Bytes) : Prop := ∀ b ∈ w, Json.isSpace b = true

theorem Blank.ascii {w : Bytes} (hw : Blank w) {b : UInt8} (hb : b ∈ w) :
    b.toNat < 0x80 ∧ isSpace (.one b) = true := by
  have := hw b hb
  simp only [Json.isSpace, Bool.or_eq_true, beq_iff_eq] at this
  rcases this with ((rfl | rfl) | rfl) | rfl <;> decide

/-- A character that is trimmed from no end. -/
def Solid (b : UInt8) : Prop := b.toNat < 0x80 ∧ isSpace (.one b) = false

instance (b : UInt8) : Decidable (Solid b) := inferInstanceAs (Decidable (_ ∧ _))

theorem runes_ascii_append : ∀ {w : Bytes}, (∀ b ∈ w, b.toNat < 0x80) → ∀ s : Bytes,
    runes (w ++ s) = w.map .one ++ runes s
  | [], _, _ => rfl
  | b :: w, h, s => by
    rw [List.cons_append, runes_cons_ascii _ (h b (by simp)), runes_ascii_append fun c hc => h c (by simp [hc])]
    rfl

theorem runes_append_ascii_all (s : Bytes) {w : Bytes} (h : ∀ b ∈ w, b.toNat < 0x80) :
    runes (s ++ w) = runes s ++ w.map .one := by
  cases w with
  | nil => rw [List.append_nil, List.map_nil, List.append_nil]
  | cons b w =>
    have := runes_ascii_append h []
    rw [List.append_nil, runes_nil, List.append_nil] at this
    rw [runes_append_ascii _ _ (h b (by simp)), ← runes_cons_ascii _ (h b (by simp)), this]

/-- Trimming takes away what is of the class at both ends. -/
theorem reverse_dropWhile_append {α : Type} {p : α → Bool} {a r b : List α} (ha : ∀ x ∈ a, p x = true)
    (hb : ∀ x ∈ b, p x = true) (hne : r ≠ []) (hfirst : ∀ x ∈ r.head?, p x = false)
    (hlast : ∀ x ∈ r.getLast?, p x = false) : (((a ++ (r ++ b)).dropWhile p).reverse.dropWhile p).reverse = r := by
  have hhead : ∀ x ∈ (r ++ b).head?, p x = false := by
    rw [List.head?_append_of_ne_nil r hne]
    exact hfirst
  rw [dropWhile_append_other ha hhead, List.reverse_append,
    dropWhile_append_other (fun x hx => hb x (List.mem_reverse.1 hx)) (by rwa [List.head?_reverse]),
    List.reverse_reverse]

theorem trimSpace_append {w w' s : Bytes} (hw : Blank w) (hw' : Blank w') {b c : UInt8} (hb : Solid b) (hc : Solid c)
    (hfirst : s.head? = some b) (hlast : s.getLast? = some c) : trimSpace (w ++ (s ++ w')) = s := by
  have hspace : ∀ {w : Bytes}, Blank w → ∀ r ∈ w.map Rune.one, isSpace r = true := by
    intro w hw r hr
    obtain ⟨b, hb, rfl⟩ := List.mem_map.1 hr
    exact (hw.ascii hb).2
  obtain ⟨t, rfl⟩ := List.head?_eq_some_iff.1 hfirst
  have hrunes : (runes (b :: t)).head? = some (.one b) := by rw [runes_cons_ascii _ hb.1]; rfl
  have hrunes' : (runes (b :: t)).getLast? = some (.one c) := by
    obtain ⟨u, hu⟩ := List.getLast?_eq_some_iff.1 hlast
    rw [hu, runes_append_ascii_all u (w := [c]) (by simpa using hc.1)]
    simp
  rw [trimSpace, runes_ascii_append (fun b hb => (hw.ascii hb).1), runes_append_ascii_all _ fun b hb => (hw'.ascii hb).1,
    reverse_dropWhile_append (hspace hw) (hspace hw') (by rw [runes_cons_ascii _ hb.1]; exact List.cons_ne_nil _ _),
    flatMap_enc_runes]
  · rw [hrunes]
    rintro _ ⟨⟩
    exact hb.2
  · rw [hrunes']
    rintro _ ⟨⟩
    exact hc.2

theorem trimPrefix_append (pre s : Bytes) : trimPrefix (pre ++ s) pre = s := by
  rw [trimPrefix, if_pos (List.isPrefixOf_iff_prefix.2 (List.prefix_append pre s)), List.drop_left]

theorem trimPrefix_of_not {pre s : Bytes} (h : ¬ pre <+: s) : trimPrefix s pre = s :=
  if_neg fun h' => h (List.isPrefixOf_iff_prefix.1 h')

theorem trimSuffix_append (s suf : Bytes) : trimSuffix (s ++ suf) suf = s := by
  rw [trimSuffix, if_pos (List.isSuffixOf_iff_suffix.2 (List.suffix_append s suf)), List.length_append,
    Nat.add_sub_cancel, List.take_left]

theorem trimSuffix_of_not {suf s : Bytes} (h : ¬ suf <:+ s) : trimSuffix s suf = s :=
  if_neg fun h' => h (List.isSuffixOf_iff_suffix.1 h')

/-! ## Fences -/

/-- What an answer comes in. -/
inductive Fence
  | bare
  | plain
  | json
  deriving DecidableEq

/-- The text in its fence. -/
def Fence.wrap (s : Bytes) : Fence → Bytes
  | bare => s
  | plain => lit "```" ++ (s ++ lit "```")
  | json => lit "```json" ++ (s ++ lit "```")

/-- The text begins and ends as that of an object. -/
structure Braced (j : Bytes) : Prop where
  first : j.head? = some 0x7B
  last : j.getLast? = some 0x7D

theorem not_prefix_of_head {pre s : Bytes} {b c : UInt8} (hpre : pre.head? = some b) (hs : s.head? = some c)
    (h : b ≠ c) : ¬ pre <+: s := by
  rintro ⟨r, rfl⟩
  obtain ⟨t, rfl⟩ := List.head?_eq_some_iff.1 hpre
  exact h (Option.some.inj hs)

theorem not_suffix_of_getLast {suf s : Bytes} {b c : UInt8} (hsuf : suf.getLast? = some b)
    (hs : s.getLast? = some c) (h : b ≠ c) : ¬ suf <:+ s := by
  rintro ⟨r, rfl⟩
  obtain ⟨t, rfl⟩ := List.getLast?_eq_some_iff.1 hsuf
  rw [← List.append_assoc, List.getLast?_append_of_ne_nil _ (by simp)] at hs
  exact h (Option.some.inj hs)

/-- Inside of a fence stands white space or a brace first. -/
theorem head_body {j w : Bytes} (hj : Braced j) (hw : Blank w) (r : Bytes) :
    ∃ c, (w ++ (j ++ r)).head? = some c ∧ (Json.isSpace c = true ∨ c = 0x7B) := by
  cases w with
  | nil =>
    obtain ⟨t, rfl⟩ := List.head?_eq_some_iff.1 hj.first
    exact ⟨0x7B, rfl, .inr rfl⟩
  | cons b w => exact ⟨b, rfl, .inl (hw b List.mem_cons_self)⟩

theorem not_prefix_body {j w pre : Bytes} {b : UInt8} (hj : Braced j) (hw : Blank w) (hpre : pre.head? = some b)
    (hb : Json.isSpace b = false ∧ b ≠ 0x7B) (r : Bytes) : ¬ pre <+: w ++ (j ++ r) := by
  obtain ⟨c, hc, hor⟩ := head_body hj hw r
  refine not_prefix_of_head hpre hc ?_
  rintro rfl
  rcases hor with hspace | hbrace
  · rw [hb.1] at hspace
    cases hspace
  · exact hb.2 hbrace

theorem getLast?_fence (s t : Bytes) : (s ++ (t ++ lit "```")).getLast? = some 0x60 := by
  have hne : lit "```" ≠ [] := by decide
  rw [List.getLast?_append_of_ne_nil _ (by simp [hne]), List.getLast?_append_of_ne_nil _ hne]
  decide

section Wrap

variable {j w₁ w₂ w₃ w₄ : Bytes} (hj : Braced j)
include hj

theorem clean_bare (h₁ : Blank w₁) (h₂ : Blank w₂) : clean (w₁ ++ (j ++ w₂)) = j := by
  have hpre : ∀ {pre : Bytes}, pre.head? = some 0x60 → ¬ pre <+: j := fun h =>
    not_prefix_of_head h hj.first (by decide)
  rw [clean, trimSpace_append h₁ h₂ (by decide) (by decide) hj.first hj.last, trimPrefix_of_not (hpre (by decide)),
    trimPrefix_of_not (hpre (by decide)),
    trimSuffix_of_not (not_suffix_of_getLast (b := 0x60) (by decide) hj.last (by decide))]

/-- The trims take a fence off, and leave the white space inside of it. -/
theorem clean_fenced (h₁ : Blank w₁) (h₂ : Blank w₂) (h₄ : Blank w₄) {f : Fence} (hf : f ≠ .bare) :
    clean (w₁ ++ (f.wrap (w₂ ++ (j ++ w₃)) ++ w₄)) = w₂ ++ (j ++ w₃) := by
  have htick : Solid 0x60 := by decide
  have hassoc : w₂ ++ (j ++ w₃) ++ lit "```" = w₂ ++ (j ++ (w₃ ++ lit "```")) := by simp only [List.append_assoc]
  rw [clean]
  cases f with
  | bare => exact absurd rfl hf
  | plain =>
    have hjson : ¬ lit "```json" <+: lit "```" ++ (w₂ ++ (j ++ w₃) ++ lit "```") := by
      have hsplit : lit "```json" = lit "```" ++ lit "json" := by decide
      rw [hsplit, List.prefix_append_right_inj, hassoc]
      exact not_prefix_body hj h₂ (b := 0x6A) (by decide) (by decide) _
    rw [Fence.wrap, trimSpace_append h₁ h₄ htick htick rfl (getLast?_fence _ _), trimPrefix_of_not hjson,
      trimPrefix_append, trimSuffix_append]
  | json =>
    have hplain : ¬ lit "```" <+: w₂ ++ (j ++ w₃) ++ lit "```" := by
      rw [hassoc]
      exact not_prefix_body hj h₂ (b := 0x60) (by decide) (by decide) _
    rw [Fence.wrap, trimSpace_append h₁ h₄ htick htick rfl (getLast?_fence _ _), trimPrefix_append,
      trimPrefix_of_not hplain, trimSuffix_append]

end Wrap

/-! ## Assessments -/

theorem unmarshal_blank {w w' : Bytes} (hw : Blank w) (hw' : Blank w') (j : Bytes) :
    Json.unmarshalStruct assessmentFields {} (w ++ (j ++ w')) = Json.unmarshalStruct assessmentFields {} j := by
  rw [Json.unmarshalStruct, Json.parse_space_append hw, Json.parse_space hw', Json.unmarshalStruct]

/-- Texts that decode alike once they are cleaned are accepted alike. -/
theorem parseAssessment_congr {s t : Bytes} (h : Json.unmarshalStruct assessmentFields {} (clean s) =
    Json.unmarshalStruct assessmentFields {} (clean t)) (ta : ThreatAssessment) :
    parseAssessment s = .ok ta ↔ parseAssessment t = .ok ta := by
  unfold parseAssessment
  simp only [h]
  cases Json.unmarshalStruct assessmentFields {} (clean t) with
  | none => exact ⟨nofun, nofun⟩
  | some ta => exact Iff.rfl

/-- An answer in whatever fence and white space is accepted exactly when it is on its own, as the same
assessment. -/
theorem parseAssessment_wrap {j w₁ w₂ w₃ w₄ : Bytes} (hj : Braced j) (h₁ : Blank w₁) (h₂ : Blank w₂) (h₃ : Blank w₃)
    (h₄ : Blank w₄) (f : Fence) (ta : ThreatAssessment) :
    parseAssessment (w₁ ++ (f.wrap (w₂ ++ (j ++ w₃)) ++ w₄)) = .ok ta ↔ parseAssessment j = .ok ta := by
  have hnil : Blank [] := nofun
  have hbare := clean_bare hj hnil hnil
  rw [List.nil_append, List.append_nil] at hbare
  refine parseAssessment_congr ?_ ta
  rw [hbare]
  by_cases hf : f = .bare
  · have happend : ∀ {u v : Bytes}, Blank u → Blank v → Blank (u ++ v) := fun hu hv b hb =>
      (List.mem_append.1 hb).elim (hu b) (hv b)
    have htext : w₁ ++ (w₂ ++ (j ++ w₃) ++ w₄) = (w₁ ++ w₂) ++ (j ++ (w₃ ++ w₄)) := by
      simp only [List.append_assoc]
    subst hf
    rw [Fence.wrap, htext, clean_bare hj (happend h₁ h₂) (happend h₃ h₄)]
  · rw [clean_fenced hj h₁ h₂ h₄ hf, unmarshal_blank h₂ h₃]

theorem parseAssessment_wrap_kill :
    let j := lit "\x7b\"threat_score\": 95, \"recommended_action\": \"kill\", \"rationale\": \"runs ```json\"\x7d"
    parseAssessment (lit " " ++ (Fence.json.wrap (lit "\n" ++ (j ++ lit "\n")) ++ lit "\n")) =
      .ok { threatScore := 95, action := lit "kill", rationale := lit "runs ```json" } := by
  intro j
  exact (parseAssessment_wrap ⟨by decide, by decide⟩ (forall_of_all (by decide)) (forall_of_all (by decide))
    (forall_of_all (by decide)) (forall_of_all (by decide)) .json _).2 (by decide +kernel)

end WatchBPF.LLM
