import WatchBPF.Lib.Sha256
import WatchBPF.Lib.Json.Valid
import WatchBPF.Lib.HashChain
import WatchBPF.Lib.Mutex
import WatchBPF.Audit.Entry
import WatchBPF.Audit.Run
import WatchBPF.Audit.Failure
import WatchBPF.Audit.Crash
import WatchBPF.Baseline.Store
import WatchBPF.Baseline.Entries
import WatchBPF.Baseline.Torn
import WatchBPF.Agent.Novelty
import WatchBPF.Policy.Engine
import WatchBPF.Policy.Limiter
import WatchBPF.Policy.Harmless
import WatchBPF.LLM.Fences
import WatchBPF.Lib.Tasks
import WatchBPF.Agent.Handle
import WatchBPF.Agent.Enforce
import WatchBPF.Agent.Trail
import WatchBPF.Agent.Escalation
import WatchBPF.Agent.Protected
import WatchBPF.Agent.Isolate
import WatchBPF.Agent.OffSchema
import WatchBPF.Agent.Ledger
import WatchBPF.Agent.Shutdown
import WatchBPF.Agent.Persist
import WatchBPF.Agent.Signals
import WatchBPF.Agent.Args
import WatchBPF.Agent.Learning
import WatchBPF.Agent.RateLimit
import WatchBPF.Agent.Drain
import WatchBPF.Agent.Silent
import WatchBPF.Agent.Budget
import WatchBPF.Agent.Storm
import WatchBPF.Agent.Restarts
import WatchBPF.Lib.Json.Nested
import WatchBPF.LLM.Prompt
import WatchBPF.LLM.Client
import WatchBPF.LLM.Envelope
import WatchBPF.Lib.Inputs
import WatchBPF.Agent.Exchange
import WatchBPF.Lib.Simulation
import WatchBPF.Agent.Preview
import WatchBPF.Agent.Pipeline
import WatchBPF.Agent.Readers
import WatchBPF.Audit.Evidence
import WatchBPF.Agent.Causes
import WatchBPF.Agent.Account
