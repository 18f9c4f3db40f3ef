/-
What a client reads out of the envelope around an answer. The text is found whatever else the envelope holds, so
that an assessment comes through as it was made; and it always stands in its place in the envelope, so that nothing
else is ever assessed.
-/
import WatchBPF.LLM.Client
import WatchBPF.Lib.Json.Valid

namespace WatchBPF.LLM

open WatchBPF.Utf8 WatchBPF.Json

/-! ## Envelopes -/

/-- An object with one member among others. -/
structure Wrapper where
  pre : List (Bytes × Doc) := []
  post : List (Bytes × Doc) := []

def Wrapper.wrap (w : Wrapper) (name : Bytes) (d : Doc) : Doc := .obj (w.pre ++ (name, d) :: w.post)

/-- No field takes what stands around the member. -/
def Wrapper.Clear {σ : Type} (fs : List (Member σ)) (w : Wrapper) : Prop := Foreign fs w.pre ∧ Foreign fs w.post

/-- A response of Gemini: the first part of the first candidate, further ones behind, and members that the client
does not know anywhere around. -/
structure GeminiEnvelope where
  reply : Wrapper := {}
  candidate : Wrapper := {}
  content : Wrapper := {}
  part : Wrapper := {}
  candidates : List Doc := []
  parts : List Doc := []

def GeminiEnvelope.doc (e : GeminiEnvelope) (text : Bytes) : Doc :=
  e.reply.wrap (lit "candidates") (.arr (e.candidate.wrap (lit "content") (e.content.wrap (lit "parts")
    (.arr (e.part.wrap (lit "text") (.str text) :: e.parts))) :: e.candidates))

/-- The further members are unknown to the client, and the further elements of the types that it expects. -/
structure GeminiEnvelope.Ok (e : GeminiEnvelope) : Prop where
  reply : e.reply.Clear responseFields
  candidate : e.candidate.Clear candidateFields
  content : e.content.Clear contentFields
  part : e.part.Clear partFields
  candidates : (decodeElems (decodeObject candidateFields) {} (elemsValue e.candidates) []).isSome = true
  parts : (decodeElems (decodeObject partFields) {} (elemsValue e.parts) []).isSome = true

theorem findMember_of {σ α : Type} (name : Bytes) (get : σ → α) (put : α → σ → σ) (dec : Decoder α)
    (h : coerce name = name) :
    findMember [Member.of name get put dec] (coerce name) = some (Member.of name get put dec) := by
  rw [h]
  simp [findMember, Member.of]

theorem GeminiClient.read_doc (c : GeminiClient) {e : GeminiEnvelope} (h : e.Ok) {text : Bytes}
    (hdepth : (e.doc text).depth ≤ maxDepth) : c.read (.response 200 (e.doc text).text) = .ok (coerce text) := by
  have hpart : decodeObject partFields (e.part.wrap (lit "text") (.str text)).value {} =
      some { text := coerce text } := by
    rw [Wrapper.wrap, decodeObject_around h.part.1 h.part.2 (findMember_of _ _ _ _ (by decide)), Doc.value]
    rfl
  obtain ⟨parts, hparts, hfirst⟩ := decodeSlice_cons hpart h.parts
  have hcontent : decodeObject contentFields (e.content.wrap (lit "parts")
      (.arr (e.part.wrap (lit "text") (.str text) :: e.parts))).value {} = some { parts } := by
    rw [Wrapper.wrap, decodeObject_around h.content.1 h.content.2 (findMember_of _ _ _ _ (by decide))]
    show (decodeSlice _ _ _ _).map _ = _
    rw [hparts]
    rfl
  have hcandidate : decodeObject candidateFields (e.candidate.wrap (lit "content") (e.content.wrap (lit "parts")
      (.arr (e.part.wrap (lit "text") (.str text) :: e.parts)))).value {} = some { content := { parts } } := by
    rw [Wrapper.wrap, decodeObject_around h.candidate.1 h.candidate.2 (findMember_of _ _ _ _ (by decide))]
    show (decodeObject contentFields _ _).map _ = _
    rw [hcontent]
    rfl
  obtain ⟨candidates, hcandidates, hhead⟩ := decodeSlice_cons hcandidate h.candidates
  have hreply : decodeObject responseFields (e.doc text).value {} = some { candidates } := by
    rw [GeminiEnvelope.doc, Wrapper.wrap,
      decodeObject_around h.reply.1 h.reply.2 (findMember_of _ _ _ _ (by decide))]
    show (decodeSlice _ _ _ _).map _ = _
    rw [hcandidates]
    rfl
  have hunmarshal : unmarshal (decodeObject responseFields) {} (e.doc text).text = some { candidates } := by
    rw [unmarshal, parse_text _ hdepth, Option.bind_some, hreply]
  unfold GeminiClient.read
  simp only [hunmarshal, hhead, hfirst, ne_eq, not_true_eq_false, if_false]

theorem OllamaClient.read_doc (c : OllamaClient) {w : Wrapper} (h : w.Clear (ollamaFields.map Json.Field.member)) (status : Nat)
    {text : Bytes} (hdepth : (w.wrap (lit "response") (.str text)).depth ≤ maxDepth) :
    c.read (.response status (w.wrap (lit "response") (.str text)).text) = .ok (coerce text) := by
  have hfield : findMember (ollamaFields.map Json.Field.member) (coerce (lit "response")) =
      some (Json.Field.member { name := lit "response", kind := .string (·.response) fun v r => { r with response := v } }) := by
    rw [coerce_of_valid (by decide), findMember_map]
    rfl
  have hreply : decodeObject (ollamaFields.map Json.Field.member) (w.wrap (lit "response") (.str text)).value {} =
      some { response := coerce text } := by
    rw [Wrapper.wrap, decodeObject_around h.1 h.2 hfield, Doc.value]
    rfl
  have hunmarshal : unmarshalStruct ollamaFields {} (w.wrap (lit "response") (.str text)).text =
      some { response := coerce text } := by
    rw [← unmarshal_map, unmarshal, parse_text _ hdepth, Option.bind_some, hreply]
  unfold OllamaClient.read
  simp only [hunmarshal]

/-! ## Assessments -/

/-- The strings as UTF-8. -/
def ThreatAssessment.coerced (ta : ThreatAssessment) : ThreatAssessment :=
  { ta with label := coerce ta.label, mitreTactic := coerce ta.mitreTactic, rationale := coerce ta.rationale }

/-- An assessment as JSON, in a fence and with white space around both. -/
structure Wording where
  fence : Fence := .bare
  before : Bytes := []
  left : Bytes := []
  right : Bytes := []
  after : Bytes := []

def Wording.text (p : Wording) (ta : ThreatAssessment) : Bytes :=
  p.before ++ (p.fence.wrap (p.left ++ (marshalStruct assessmentFields ta ++ p.right)) ++ p.after)

structure Wording.Ok (p : Wording) : Prop where
  before : Blank p.before
  left : Blank p.left
  right : Blank p.right
  after : Blank p.after

variable {p : Wording} {ta : ThreatAssessment}

theorem braced_marshalStruct (ta : ThreatAssessment) : Braced (marshalStruct assessmentFields ta) where
  first := rfl
  last := by
    rw [marshalStruct, marshalObject, ← List.cons_append, List.getLast?_append_of_ne_nil _ (by simp)]
    rfl

theorem valid_blank {w : Bytes} (h : Blank w) : valid w = true := valid_ascii fun _ hb => (h.ascii hb).1

theorem valid_text (h : p.Ok) (ta : ThreatAssessment) : valid (p.text ta) = true := by
  have hbody : valid (p.left ++ (marshalStruct assessmentFields ta ++ p.right)) = true :=
    valid_append (valid_blank h.left) (valid_append (valid_marshalObject _) (valid_blank h.right))
  refine valid_append (valid_blank h.before) (valid_append ?_ (valid_blank h.after))
  cases p.fence with
  | bare => exact hbody
  | plain => exact valid_append (by decide) (valid_append hbody (by decide))
  | json => exact valid_append (by decide) (valid_append hbody (by decide))

/-- What is decoded of it is the assessment. -/
theorem unmarshal_text (h : p.Ok) (hta : ta.action ∈ validActions) :
    unmarshalStruct assessmentFields {} (clean (p.text ta)) = some ta.coerced := by
  have haction : coerce ta.action = ta.action := by
    refine coerce_of_valid ?_
    simp only [validActions, List.mem_cons, List.not_mem_nil, or_false] at hta
    rcases hta with h | h | h | h <;> (rw [h]; decide)
  have hdecode : unmarshalStruct assessmentFields {} (marshalStruct assessmentFields ta) = some ta.coerced := by
    rw [unmarshalStruct_marshalStruct ⟨by decide, by decide⟩]
    show some ({ ta with label := coerce ta.label, mitreTactic := coerce ta.mitreTactic, action := coerce ta.action,
                         rationale := coerce ta.rationale } : ThreatAssessment) = _
    rw [haction]
    rfl
  have hj := braced_marshalStruct ta
  rw [← hdecode, Wording.text]
  by_cases hf : p.fence = .bare
  · have hblank : ∀ {u v : Bytes}, Blank u → Blank v → Blank (u ++ v) := fun hu hv b hb =>
      (List.mem_append.1 hb).elim (hu b) (hv b)
    have htext : p.before ++ (p.left ++ (marshalStruct assessmentFields ta ++ p.right) ++ p.after) =
        (p.before ++ p.left) ++ (marshalStruct assessmentFields ta ++ (p.right ++ p.after)) := by
      simp only [List.append_assoc]
    rw [hf, Fence.wrap, htext, clean_bare hj (hblank h.before h.left) (hblank h.right h.after)]
  · rw [clean_fenced hj h.before h.left h.after hf, unmarshal_blank h.left h.right]

theorem parseAssessment_text (h : p.Ok) (hlo : 0 ≤ ta.threatScore.toInt) (hhi : ta.threatScore.toInt ≤ 100)
    (hta : ta.action ∈ validActions) : parseAssessment (p.text ta) = .ok ta.coerced := by
  have hscore : ¬ (ta.coerced.threatScore < 0 ∨ 100 < ta.coerced.threatScore) := by
    rw [not_or, Int64.not_lt, Int64.not_lt, Int64.le_iff_toInt_le, Int64.le_iff_toInt_le]
    exact ⟨hlo, hhi⟩
  have haction : ta.coerced.action ∈ validActions := hta
  unfold parseAssessment
  simp only [unmarshal_text h hta]
  rw [if_neg hscore, if_neg (not_not.2 haction)]

/-- An assessment that the server makes comes out of `Assess` as it was made, whatever fence it stands in, and
whatever the envelope has besides. -/
theorem assess_of_envelope (h : p.Ok) (hlo : 0 ≤ ta.threatScore.toInt) (hhi : ta.threatScore.toInt ≤ 100)
    (hta : ta.action ∈ validActions) (story : EventStory) :
    (∀ (c : GeminiClient) (e : GeminiEnvelope), e.Ok → (e.doc (p.text ta)).depth ≤ maxDepth →
      (Client.gemini c).assess (fun _ => .response 200 (e.doc (p.text ta)).text) story = .ok ta.coerced) ∧
    ∀ (c : OllamaClient) (w : Wrapper) (status : Nat), w.Clear (ollamaFields.map Json.Field.member) →
      (w.wrap (lit "response") (.str (p.text ta))).depth ≤ maxDepth →
      (Client.ollama c).assess (fun _ => .response status (w.wrap (lit "response") (.str (p.text ta))).text) story =
        .ok ta.coerced := by
  have hparse := parseAssessment_text h hlo hhi hta
  have hcoerce : coerce (p.text ta) = p.text ta := coerce_of_valid (valid_text h ta)
  constructor
  · intro c e he hdepth
    have hread := c.read_doc he hdepth
    rw [hcoerce] at hread
    unfold Client.assess Client.read
    simp only [hread, hparse]
  · intro c w status hw hdepth
    have hread := c.read_doc hw status hdepth
    rw [hcoerce] at hread
    unfold Client.assess Client.read
    simp only [hread, hparse]

/-- A reply with what Gemini usually adds. -/
def usualEnvelope : GeminiEnvelope where
  reply := { post := [(lit "modelVersion", .str (lit "gemini-flash-latest"))] }
  candidate := { post := [(lit "finishReason", .str (lit "STOP")), (lit "index", .int 0)] }
  content := { post := [(lit "role", .str (lit "model"))] }

theorem assess_of_envelope_usual :
    let ta : ThreatAssessment := { threatScore := 95, label := lit "malicious", action := lit "kill" }
    let p : Wording := { fence := .json, left := lit "\n", right := lit "\n", after := lit "\n" }
    let c : GeminiClient := { apiKey := lit "key", model := lit "gemini-flash-latest", prompt := promptV1 }
    let story : EventStory :=
      { eventType := lit "CONNECT", comm := lit "nc", detail := lit "203.0.113.7:4444", pid := 4242, uid := 0 }
    (Client.gemini c).assess (fun _ => .response 200 (usualEnvelope.doc (p.text ta)).text) story = .ok ta := by
  intro ta p c story
  have hp : p.Ok := ⟨nofun, forall_of_all (by decide), forall_of_all (by decide), forall_of_all (by decide)⟩
  have hok : usualEnvelope.Ok := by
    refine ⟨⟨nofun, ?_⟩, ⟨nofun, ?_⟩, ⟨nofun, ?_⟩, ⟨nofun, nofun⟩, ?_, ?_⟩
    · exact List.forall_mem_singleton.2 (by decide)
    · exact List.forall_mem_cons.2 ⟨by decide, List.forall_mem_singleton.2 (by decide)⟩
    · exact List.forall_mem_singleton.2 (by decide)
    · rw [usualEnvelope, elemsValue]
      rfl
    · rw [usualEnvelope, elemsValue]
      rfl
  have hdepth : (usualEnvelope.doc (p.text ta)).depth ≤ maxDepth := by
    simp [GeminiEnvelope.doc, usualEnvelope, Wrapper.wrap, Doc.depth, elemsDepth, membersDepth, maxDepth]
  exact (assess_of_envelope hp (by decide) (by decide) (by decide) story).1 c usualEnvelope hok hdepth

/-! ## Where the text comes from -/

def GeminiContent.holds (c : GeminiContent) (t : Bytes) : Prop := ∃ p ∈ {} :: c.parts.array, p.text = t

def GeminiResponse.holds (r : GeminiResponse) (t : Bytes) : Prop := ∃ k ∈ {} :: r.candidates.array, k.content.holds t

theorem honest_part : Honest (fun p t => p.text = t) [lit "text"] (decodeObject partFields) :=
  honest_object <| List.forall_mem_singleton.2 <| .inl
    ⟨rfl, honest_of honest_string _ (fun _ _ h => h) fun _ _ _ h => .inl h⟩

theorem honest_content : Honest GeminiContent.holds [lit "parts", lit "text"] (decodeObject contentFields) :=
  honest_object <| List.forall_mem_singleton.2 <| .inl
    ⟨rfl, honest_of (honest_slice honest_part) _ (fun _ _ h => h) fun _ _ _ h => .inl h⟩

theorem honest_candidate : Honest (fun k t => k.content.holds t) [lit "content", lit "parts", lit "text"]
    (decodeObject candidateFields) :=
  honest_object <| List.forall_mem_singleton.2 <| .inl
    ⟨rfl, honest_of honest_content _ (fun _ _ h => h) fun _ _ _ h => .inl h⟩

theorem honest_response : Honest GeminiResponse.holds [lit "candidates", lit "content", lit "parts", lit "text"]
    (decodeObject responseFields) :=
  honest_object <| List.forall_mem_singleton.2 <| .inl
    ⟨rfl, honest_of (honest_slice honest_candidate) _ (fun _ _ h => h) fun _ _ _ h => .inl h⟩

theorem honest_ollama : Honest (fun r t => r.response = t) [lit "response"]
    (decodeObject (ollamaFields.map Json.Field.member)) := by
  refine honest_object <| List.forall_mem_singleton.2 <| .inl ⟨rfl, ?_⟩
  have h : Honest (fun (r : OllamaResponse) t => r.response = t) []
      (Json.Member.of (lit "response") (·.response) (fun v r => { r with response := v }) decodeString).decode :=
    honest_of honest_string _ (fun _ _ h => h) fun _ _ _ h => .inl h
  intro v s s' t hs
  refine h v s s' t ?_
  rw [← hs]
  cases v <;> rfl

/-- The first element is one of the backing array. -/
theorem mem_array_of_head {α : Type} {s : Slice α} {a : α} (h : s.elems.head? = some a) : a ∈ s.array :=
  List.mem_of_mem_take (List.mem_of_mem_head? h)

/-- What a new response holds is empty. -/
theorem eq_nil_of_holds {t : Bytes} (h : GeminiResponse.holds {} t) : t = [] := by
  obtain ⟨k, hk, p, hp, rfl⟩ := h
  obtain rfl := List.mem_singleton.1 hk
  obtain rfl := List.mem_singleton.1 hp
  rfl

/-- Where a backend has its text. -/
def Client.path : Client → List Bytes
  | gemini _ => [lit "candidates", lit "content", lit "parts", lit "text"]
  | ollama _ => [lit "response"]

/-- The server's answer has the text in its place, and is one that the client takes. -/
def Client.Heard (c : Client) (r : Reply) (text : Bytes) : Prop :=
  ∃ status body v, r = .response status body ∧ Json.parse body = some v ∧ v.Says text c.path ∧
    ∀ g, c = .gemini g → status = 200

theorem GeminiClient.says_of_read {c : GeminiClient} {r : Reply} {text : Bytes} (h : c.read r = .ok text) :
    text = [] ∨ (Client.gemini c).Heard r text := by
  cases r with
  | unbuilt | unanswered | unread => cases h
  | response status body =>
    unfold GeminiClient.read at h
    simp only at h
    split at h
    · cases h
    · rename_i hstatus
      split at h
      · cases h
      · rename_i gr hgr
        split at h
        · cases h
        · rename_i candidate hcandidate
          split at h
          · cases h
          · rename_i part hpart
            cases h
            have hholds : gr.holds part.text :=
              ⟨candidate, List.mem_cons_of_mem _ (mem_array_of_head hcandidate), part,
                List.mem_cons_of_mem _ (mem_array_of_head hpart), rfl⟩
            refine (says_of_unmarshal honest_response hgr hholds).imp eq_nil_of_holds ?_
            rintro ⟨v, hv, hsays⟩
            exact ⟨status, body, v, rfl, hv, hsays, fun _ _ => not_not.1 hstatus⟩

theorem OllamaClient.says_of_read {c : OllamaClient} {r : Reply} {text : Bytes} (h : c.read r = .ok text) :
    text = [] ∨ (Client.ollama c).Heard r text := by
  cases r with
  | unbuilt | unanswered | unread => cases h
  | response status body =>
    unfold OllamaClient.read at h
    simp only at h
    split at h
    · cases h
    · rename_i reply hreply
      cases h
      rw [← unmarshal_map] at hreply
      refine (says_of_unmarshal honest_ollama hreply rfl).imp Eq.symm ?_
      rintro ⟨v, hv, hsays⟩
      exact ⟨status, body, v, rfl, hv, hsays, nofun⟩

/-- A text that is accepted as an assessment was in the server's answer. -/
theorem Client.heard_of_read {c : Client} {r : Reply} {text : Bytes} {ta : ThreatAssessment} (h : c.read r = .ok text)
    (hta : parseAssessment text = .ok ta) : c.Heard r text := by
  have hempty : parseAssessment [] = .error (.schema []) := by decide
  have hor : text = [] ∨ c.Heard r text := by
    cases c with
    | gemini c => exact c.says_of_read h
    | ollama c => exact c.says_of_read h
  rcases hor with rfl | hheard
  · rw [hempty] at hta
    cases hta
  · exact hheard

end WatchBPF.LLM
