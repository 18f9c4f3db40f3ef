/-
`parseAssessment`: the text of a model becomes a threat assessment, or an error. Code fences are
stripped, the rest is decoded as Go decodes JSON into a struct, and two of the fields are checked.
-/
import WatchBPF.Lib.Json.Struct
import WatchBPF.Lib.Strconv

namespace WatchBPF.LLM

open WatchBPF.Utf8 WatchBPF.Numeral WatchBPF.Strconv

/-- `ThreatAssessment` -/
structure ThreatAssessment where
  threatScore : Int64 := 0
  label : Bytes := []
  mitreTactic : Bytes := []
  confidence : Int64 := 0
  action : Bytes := []
  rationale : Bytes := []
  deriving DecidableEq

/-- The struct tags of `ThreatAssessment`. -/
def assessmentFields : List (Json.Field ThreatAssessment) := [
  { name := lit "threat_score", kind := .int (·.threatScore) fun v t => { t with threatScore := v } },
  { name := lit "label", kind := .string (·.label) fun v t => { t with label := v } },
  { name := lit "mitre_tactic", kind := .string (·.mitreTactic) fun v t => { t with mitreTactic := v } },
  { name := lit "confidence", kind := .int (·.confidence) fun v t => { t with confidence := v } },
  { name := lit "recommended_action", kind := .string (·.action) fun v t => { t with action := v } },
  { name := lit "rationale", kind := .string (·.rationale) fun v t => { t with rationale := v } }]

/-! ## Cleaning -/

/-- `unicode.IsSpace` -/
def isSpace (r : Rune) : Bool :=
  let n := r.value
  (0x09 ≤ n && n ≤ 0x0D) || n == 0x20 || n == 0x85 || n == 0xA0 || n == 0x1680 || (0x2000 ≤ n && n ≤ 0x200A) ||
    n == 0x2028 || n == 0x2029 || n == 0x202F || n == 0x205F || n == 0x3000

/-- `strings.TrimSpace` -/
def trimSpace (s : Bytes) : Bytes :=
  ((((runes s).dropWhile isSpace).reverse.dropWhile isSpace).reverse).flatMap Rune.enc

/-- `strings.TrimPrefix` -/
def trimPrefix (s pre : Bytes) : Bytes := if pre.isPrefixOf s then s.drop pre.length else s

/-- `strings.TrimSuffix` -/
def trimSuffix (s suf : Bytes) : Bytes := if suf.isSuffixOf s then s.take (s.length - suf.length) else s

/-- `cleaned` in `parseAssessment`. -/
def clean (raw : Bytes) : Bytes :=
  let cleaned := trimSpace raw
  let cleaned := trimPrefix cleaned (lit "```json")
  let cleaned := trimPrefix cleaned (lit "```")
  trimSuffix cleaned (lit "```")

/-! ## Checking -/

/-- Why a text is no assessment. -/
inductive AssessError
  | schema (cleaned : Bytes)
  | threatScore (n : Int64)
  | action (a : Bytes)
  deriving DecidableEq

/-- The text of the error; `cause` is that of the error of `encoding/json`. -/
def AssessError.text (isPrint : Nat → Bool) (cause : Bytes) : AssessError → Bytes
  | schema cleaned => lit "LLM response not valid JSON schema: " ++ cause ++ lit " (raw: " ++ cleaned ++ lit ")"
  | threatScore n => lit "invalid threat_score: " ++ formatInt n.toInt
  | action a => lit "invalid recommended_action: " ++ quote isPrint a

/-- The actions that `recommended_action` may name. -/
def validActions : List Bytes := [lit "log", lit "alert", lit "isolate", lit "kill"]

/-- `parseAssessment`: the fence goes, the JSON is decoded, score and action are checked. -/
def parseAssessment (raw : Bytes) : Except AssessError ThreatAssessment :=
  let cleaned := clean raw
  match Json.unmarshalStruct assessmentFields {} cleaned with
  | none => .error (.schema cleaned)
  | some ta =>
    if ta.threatScore < 0 ∨ 100 < ta.threatScore then .error (.threatScore ta.threatScore)
    else if ta.action ∉ validActions then .error (.action ta.action)
    else .ok ta

/-- What the checks leave: a score of 0 to 100 and one of the four actions. -/
theorem checked_of_parseAssessment {raw : Bytes} {ta : ThreatAssessment} (h : parseAssessment raw = .ok ta) :
    0 ≤ ta.threatScore.toInt ∧ ta.threatScore.toInt ≤ 100 ∧ ta.action ∈ validActions := by
  unfold parseAssessment at h
  simp only at h
  split at h
  · cases h
  · split at h
    · cases h
    · rename_i hscore
      split at h
      · cases h
      · cases h
        rw [not_or, Int64.not_lt, Int64.not_lt, Int64.le_iff_toInt_le, Int64.le_iff_toInt_le] at hscore
        exact ⟨hscore.1, hscore.2, not_not.1 ‹_›⟩

example : parseAssessment (lit "```json\n\x7b\"threat_score\": 95, \"recommended_action\": \"kill\"\x7d\n``` ") =
    .ok { threatScore := 95, action := lit "kill" } := by
  decide +kernel

end WatchBPF.LLM
