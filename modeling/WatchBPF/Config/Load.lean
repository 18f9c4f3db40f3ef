/-
The settings of the config file. `Load` reads the file over the defaults, so that what it leaves out keeps its
default; how YAML is decoded into the settings is a parameter.
-/
import WatchBPF.Lib.Bytes

namespace WatchBPF.Config

/-- The scores from which on an event is an alert, or calls for an action. -/
structure Thresholds where
  alert : Int
  soft : Int
  hard : Int
  deriving DecidableEq

/-- How many actions a minute may have. -/
structure RateLimit where
  maxPerMinute : Int
  deriving DecidableEq

/-- Which Ollama to ask; read from the file, and not used. -/
structure LLM where
  ollamaModel : Bytes
  ollamaURL : Bytes
  deriving DecidableEq

set_option linter.dupNamespace false in
/-- The settings of the agent, from the config file and the defaults. -/
structure Config where
  mode : Bytes
  enforce : Bytes
  state : Bytes
  thresholds : Thresholds
  protectedProcesses : List Bytes
  rateLimit : RateLimit
  llm : LLM
  deriving DecidableEq

/-- `Default` -/
def default : Config where
  mode := lit "learn"
  enforce := lit "dry-run"
  state := lit "baseline.json"
  thresholds := { alert := 40, soft := 70, hard := 90 }
  protectedProcesses :=
    [lit "systemd", lit "sshd", lit "init", lit "kubelet", lit "containerd", lit "dockerd", lit "watchbpf-agent",
      lit "NetworkManager"]
  rateLimit := { maxPerMinute := 50 }
  llm := { ollamaModel := lit "llama3.1:8b", ollamaURL := lit "http://localhost:11434" }

/-- What `os.ReadFile` finds. -/
inductive ReadFile
  | data (bytes : Bytes)
  | notExist
  | failed

/-- `yaml.Unmarshal` into settings that are already there; `none` where it returns an error. -/
abbrev Unmarshal := Bytes → Config → Option Config

/-- `Load` -/
def load (unmarshal : Unmarshal) : ReadFile → Option Config
  | .data bytes => unmarshal bytes default
  | .notExist => some default
  | .failed => none

end WatchBPF.Config
