/-
The schema that the prompt asks the model to answer by, and what `parseAssessment` demands of an answer
instead: that it decodes, that the score is in range, and that the action is one of four.
-/
import WatchBPF.LLM.Assessment

namespace WatchBPF.LLM

open WatchBPF.Numeral

/-! ## The schema of the prompt -/

/-- The object has the member, with admissible values only. -/
def carries (ms : List (Bytes × Json.Value)) (name : Bytes) (admissible : Json.Value → Bool) : Bool :=
  (ms.any fun m => m.1 == name) && ms.all fun m => m.1 != name || admissible m.2

/-- `<0-100 integer>` -/
def isPercentage : Json.Value → Bool
  | .num t => (parseInt t).any fun n => 0 ≤ n && n ≤ 100
  | _ => false

def isText : Json.Value → Bool
  | .str _ => true
  | _ => false

def isOneOf (texts : List Bytes) : Json.Value → Bool
  | .str s => texts.contains s
  | _ => false

/-- An object with every field of the schema. -/
def onSchema : Json.Value → Bool
  | .obj ms =>
    carries ms (lit "threat_score") isPercentage &&
      carries ms (lit "label") (isOneOf [lit "benign", lit "suspicious", lit "malicious"]) &&
      carries ms (lit "mitre_tactic") isText &&
      carries ms (lit "confidence") isPercentage &&
      carries ms (lit "recommended_action") (isOneOf [lit "log", lit "alert", lit "isolate", lit "kill"]) &&
      carries ms (lit "rationale") isText
  | _ => false

/-- The text is JSON that follows the schema, code fences aside. -/
def OnSchema (text : Bytes) : Prop := (Json.parse (clean text)).any onSchema = true

instance (text : Bytes) : Decidable (OnSchema text) := inferInstanceAs (Decidable (_ = _))

/-! ## The checks of `parseAssessment` -/

/-- The text does not decode, or to a score out of range or another action. -/
def FailsChecks (text : Bytes) : Prop :=
  ∀ ta, Json.unmarshalStruct assessmentFields {} (clean text) = some ta →
    ¬ (0 ≤ ta.threatScore.toInt ∧ ta.threatScore.toInt ≤ 100 ∧ ta.action ∈ validActions)

/-- What passes the checks is accepted as it decodes. -/
theorem failsChecks_or_ok (text : Bytes) : FailsChecks text ∨ ∃ ta, parseAssessment text = .ok ta := by
  by_cases h : FailsChecks text
  · exact .inl h
  · unfold FailsChecks at h
    push Not at h
    obtain ⟨ta, hta, hlo, hhi, haction⟩ := h
    refine .inr ⟨ta, ?_⟩
    have hscore : ¬ (ta.threatScore < 0 ∨ 100 < ta.threatScore) := by
      rw [not_or, Int64.not_lt, Int64.not_lt, Int64.le_iff_toInt_le, Int64.le_iff_toInt_le]
      exact ⟨hlo, hhi⟩
    unfold parseAssessment
    simp only [hta]
    rw [if_neg hscore, if_neg (not_not.2 haction)]

theorem not_failsChecks {text : Bytes} {ta : ThreatAssessment} (h : parseAssessment text = .ok ta) :
    ¬ FailsChecks text := by
  intro hf
  obtain ⟨hlo, hhi, haction⟩ := checked_of_parseAssessment h
  unfold parseAssessment at h
  simp only at h
  split at h
  · cases h
  · rename_i ta' hta
    split at h
    · cases h
    · split at h
      · cases h
      · cases h
        exact hf _ hta ⟨hlo, hhi, haction⟩

/-- Two members of the six. -/
def bareAnswer : Bytes := lit "\x7b\"threat_score\":95,\"recommended_action\":\"kill\"\x7d"

example : ¬ OnSchema bareAnswer := by decide +kernel

end WatchBPF.LLM
