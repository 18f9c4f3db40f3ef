/-
The two backends of `Client`. Each puts the prompt into a request of its API and takes the text of the answer out
of the envelope that comes back; anything else is an error. What a server reads of a request says which event it is
about.
-/
import WatchBPF.LLM.Prompt
import WatchBPF.Lib.Json.Nested

namespace WatchBPF.LLM

open WatchBPF.Utf8 WatchBPF.Numeral WatchBPF.Fmt WatchBPF.Json

/-! ## Exchanges -/

/-- The request that a client sends. -/
structure Request where
  method : Bytes
  url : Bytes
  contentType : Bytes
  body : Bytes

/-- What becomes of a request. -/
inductive Reply
  /-- an error of `http.NewRequestWithContext` -/
  | unbuilt (cause : Bytes)
  /-- an error of `Do`; the timeout of the context is one -/
  | unanswered (cause : Bytes)
  /-- an error of `io.ReadAll` -/
  | unread (cause : Bytes)
  | response (status : Nat) (body : Bytes)
  deriving DecidableEq

/-- The errors of `Assess`. -/
inductive Failure
  | bare (cause : Bytes)
  | request (context cause : Bytes)
  | status (code : Nat) (body : Bytes)
  | envelope (context : Bytes)
  | noCandidates
  | assessment (e : AssessError)
  deriving DecidableEq

/-- The text of the error; `cause` is that of the error of `encoding/json`. -/
def Failure.text (isPrint : Nat → Bool) (cause : Bytes) : Failure → Bytes
  | bare e => e
  | request context e => context ++ lit ": " ++ e
  | status code body => lit "gemini API error (status " ++ itoa code ++ lit "): " ++ body
  | envelope context => context ++ lit ": " ++ cause
  | noCandidates => lit "gemini returned no candidates"
  | assessment e => e.text isPrint cause

/-! ## Gemini -/

structure GeminiClient where
  apiKey : Bytes
  model : Bytes
  prompt : Bytes

structure GeminiPart where
  text : Bytes := []

structure GeminiContent where
  parts : Slice GeminiPart := .nil

/-- The element type of `geminiResponse.Candidates`. -/
structure GeminiCandidate where
  content : GeminiContent := {}

structure GeminiResponse where
  candidates : Slice GeminiCandidate := .nil

def partFields : List (Member GeminiPart) :=
  [Member.of (lit "text") (·.text) (fun v p => { p with text := v }) decodeString]

def contentFields : List (Member GeminiContent) :=
  [Member.of (lit "parts") (·.parts) (fun v c => { c with parts := v }) (decodeSlice (decodeObject partFields) {})]

def candidateFields : List (Member GeminiCandidate) :=
  [Member.of (lit "content") (·.content) (fun v c => { c with content := v }) (decodeObject contentFields)]

def responseFields : List (Member GeminiResponse) :=
  [Member.of (lit "candidates") (·.candidates) (fun v r => { r with candidates := v })
    (decodeSlice (decodeObject candidateFields) {})]

/-- The `geminiRequest` of a prompt. -/
def geminiRequest (text : Bytes) : Doc :=
  .obj [(lit "contents", .arr [.obj [(lit "parts", .arr [.obj [(lit "text", .str text)]])]])]

def GeminiClient.request (c : GeminiClient) (story : EventStory) : Request where
  method := lit "POST"
  url := sprintf (lit "https://generativelanguage.googleapis.com/v1beta/models/%s:generateContent?key=%s")
    [.string c.model, .string c.apiKey]
  contentType := lit "application/json"
  body := (geminiRequest (fullPrompt c.prompt story)).text

/-- The text that `Assess` hands to `parseAssessment`. -/
def GeminiClient.read (_ : GeminiClient) : Reply → Except Failure Bytes
  | .unbuilt cause => .error (.bare cause)
  | .unanswered cause => .error (.request (lit "gemini request failed") cause)
  | .unread cause => .error (.bare cause)
  | .response status body =>
    if status ≠ 200 then .error (.status status body)
    else
      match unmarshal (decodeObject responseFields) {} body with
      | none => .error (.envelope (lit "parsing gemini envelope"))
      | some gr =>
        match gr.candidates.elems.head? with
        | none => .error .noCandidates
        | some candidate =>
          match candidate.content.parts.elems.head? with
          | none => .error .noCandidates
          | some part => .ok part.text

/-! ## Ollama -/

structure OllamaClient where
  baseURL : Bytes
  model : Bytes
  prompt : Bytes

structure OllamaResponse where
  response : Bytes := []

def ollamaFields : List (Json.Field OllamaResponse) :=
  [{ name := lit "response", kind := .string (·.response) fun v r => { r with response := v } }]

/-- The `ollamaRequest` of a prompt. -/
def ollamaRequest (model prompt : Bytes) : Doc :=
  .obj [(lit "model", .str model), (lit "prompt", .str prompt), (lit "stream", .bool false), (lit "format", .str (lit "json"))]

def OllamaClient.request (c : OllamaClient) (story : EventStory) : Request where
  method := lit "POST"
  url := c.baseURL ++ lit "/api/generate"
  contentType := lit "application/json"
  body := (ollamaRequest c.model (fullPrompt c.prompt story)).text

/-- The status is not looked at. -/
def OllamaClient.read (_ : OllamaClient) : Reply → Except Failure Bytes
  | .unbuilt cause => .error (.bare cause)
  | .unanswered cause => .error (.request (lit "ollama request failed (is ollama running? try: ollama serve)") cause)
  | .unread cause => .error (.bare cause)
  | .response _ body =>
    match unmarshalStruct ollamaFields {} body with
    | none => .error (.envelope (lit "parsing ollama envelope"))
    | some r => .ok r.response

/-! ## The interface -/

/-- The backend that `main` has chosen. -/
inductive Client
  | gemini (c : GeminiClient)
  | ollama (c : OllamaClient)

namespace Client

def name : Client → Bytes
  | gemini c => lit "gemini:" ++ c.model
  | ollama c => lit "ollama:" ++ c.model

def prompt : Client → Bytes
  | gemini c => c.prompt
  | ollama c => c.prompt

def request : Client → EventStory → Request
  | gemini c, story => c.request story
  | ollama c, story => c.request story

def read : Client → Reply → Except Failure Bytes
  | gemini c, r => c.read r
  | ollama c, r => c.read r

/-- `Assess`, with `send` for the HTTP client. -/
def assess (c : Client) (send : Request → Reply) (story : EventStory) : Except Failure ThreatAssessment :=
  match c.read (send (c.request story)) with
  | .error e => .error e
  | .ok text =>
    match parseAssessment text with
    | .error e => .error (.assessment e)
    | .ok ta => .ok ta

end Client

/-! ## Which backend -/

/-- The environment variables that choose a backend, empty if unset, and the key file. -/
structure Env where
  geminiKey : Bytes := []
  keyFile : Option Bytes := none
  ollamaURL : Bytes := []
  ollamaModel : Bytes := []

/-- `NewGeminiClient` -/
def newGeminiClient (env : Env) (promptTemplate : Bytes) : Option GeminiClient :=
  let key := if env.geminiKey = [] then (env.keyFile.map trimSpace).getD [] else env.geminiKey
  if key = [] then none
  else some { apiKey := key, model := lit "gemini-flash-latest", prompt := promptTemplate }

/-- `NewOllamaClient` -/
def newOllamaClient (env : Env) (promptTemplate : Bytes) : OllamaClient where
  baseURL := if env.ollamaURL = [] then lit "http://localhost:11434" else env.ollamaURL
  model := if env.ollamaModel = [] then lit "llama3.1:8b" else env.ollamaModel
  prompt := promptTemplate

/-- The `llmClient` that `main` sets in filter mode. -/
def newClient (env : Env) : Client :=
  match newGeminiClient env promptV1 with
  | some c => .gemini c
  | none => .ollama (newOllamaClient env promptV1)

theorem prompt_of_newGeminiClient {env : Env} {promptTemplate : Bytes} {c : GeminiClient}
    (h : newGeminiClient env promptTemplate = some c) : c.prompt = promptTemplate := by
  unfold newGeminiClient at h
  generalize (if env.geminiKey = [] then (env.keyFile.map trimSpace).getD [] else env.geminiKey) = key at h
  simp only at h
  split at h
  · cases h
  · cases h
    rfl

theorem prompt_newClient (env : Env) : (newClient env).prompt = promptV1 := by
  unfold newClient
  split
  · exact prompt_of_newGeminiClient ‹_›
  · rfl

/-! ## Requests -/

theorem parse_geminiRequest (text : Bytes) : parse (geminiRequest text).text = some (geminiRequest text).value := by
  refine parse_text _ ?_
  simp only [geminiRequest, Doc.depth, elemsDepth, membersDepth, maxDepth]
  decide

theorem parse_ollamaRequest (model prompt : Bytes) :
    parse (ollamaRequest model prompt).text = some (ollamaRequest model prompt).value := by
  refine parse_text _ ?_
  simp only [ollamaRequest, Doc.depth, membersDepth, maxDepth]
  decide

/-- What a server reads of a request says which prompt was sent, as UTF-8. -/
theorem parse_request_inj (c : Client) (s t : EventStory) : parse (c.request s).body = parse (c.request t).body ↔
    coerce (fullPrompt c.prompt s) = coerce (fullPrompt c.prompt t) := by
  cases c with
  | gemini c =>
    simp only [Client.request, GeminiClient.request, Client.prompt, parse_geminiRequest]
    simp [geminiRequest, Doc.value, elemsValue, membersValue]
  | ollama c =>
    simp only [Client.request, OllamaClient.request, Client.prompt, parse_ollamaRequest]
    simp [ollamaRequest, Doc.value, membersValue]

end WatchBPF.LLM
