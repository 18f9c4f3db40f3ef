/-
The protected list against the names that the kernel reports. A name counts as far as it fits into a
`comm` field, so that an entry of more than fifteen bytes protects nothing, unless what is left of it is
an entry too.
-/
import WatchBPF.Agent.Decode
import WatchBPF.Policy.Engine

namespace WatchBPF.Policy

/-- Whatever the mode, the score and the limiter, `Evaluate` returns `log` or `alert` for the name. -/
def Spared (cfg : Config) (comm : Bytes) : Prop :=
  ∀ (mode : Bytes) (now score : Int) (stamps : Timestamps),
    (evaluate { cfg with enforceMode := mode } now comm score stamps).1.tier = .log ∨
      (evaluate { cfg with enforceMode := mode } now comm score stamps).1.tier = .alert

theorem spared_iff {cfg : Config} {comm : Bytes} : Spared cfg comm ↔ comm ∈ cfg.protectedComms := by
  constructor
  · -- in a dry run a score at the upper threshold is `hard` for every other name
    intro h
    by_contra hc
    have htier : scoreTier { cfg with enforceMode := lit "dry-run" } cfg.thresholdHard = .hard :=
      scoreTier_hard.2 le_rfl
    have hdry : (evaluate { cfg with enforceMode := lit "dry-run" } 0 comm cfg.thresholdHard []).1.tier = .hard := by
      unfold evaluate
      simp only [htier]
      rw [if_neg (fun hp => hc hp.1), if_pos ⟨by decide, rfl⟩]
    rcases h (lit "dry-run") 0 cfg.thresholdHard [] with h | h
    · rw [hdry] at h; cases h
    · rw [hdry] at h; cases h
  · intro hc mode now score stamps
    unfold evaluate
    cases hacts : (scoreTier { cfg with enforceMode := mode } score).acts with
    | true =>
      simp only [hacts]
      rw [if_pos ⟨hc, trivial⟩]
      exact .inr rfl
    | false =>
      simp only [hacts, Bool.false_eq_true, and_false, if_false]
      cases htier : scoreTier { cfg with enforceMode := mode } score with
      | log => exact .inl rfl
      | alert => exact .inr rfl
      | soft | hard => rw [htier] at hacts; cases hacts

end WatchBPF.Policy

namespace WatchBPF.Agent

open WatchBPF.Kernel WatchBPF.Policy

def KernelRecord.comm : KernelRecord → Vector UInt8 16
  | exec ev => ev.comm
  | openat ev => ev.comm
  | connect ev => ev.comm

theorem comm_event (r : KernelRecord) : r.event.comm = cstr r.comm.toList := by cases r <;> rfl

/-- A record of a process named `n`. -/
def KernelRecord.Of (r : KernelRecord) (n : Bytes) : Prop := r.comm = (Comm.of n).field

theorem comm_of {r : KernelRecord} {n : Bytes} (h : r.Of n) : r.event.comm = cstr (n.take 15) := by
  rw [comm_event, show r.comm = _ from h, cstr_field]
  rfl

/-- A name that a command name can hold is reported as it is. -/
theorem cstr_take {n : Bytes} (hlen : n.length ≤ 15) (h0 : 0 ∉ n) : cstr (n.take 15) = n := by
  rw [List.take_of_length_le hlen, cstr, List.takeWhile_eq_self_iff]
  exact fun b hb => decide_eq_true fun hz => h0 (hz ▸ hb)

/-- A listed name protects the processes of that name exactly when it fits into a command name, or when
what is left of it there is listed. -/
theorem protects_iff {cfg : Policy.Config} {n : Bytes} (hn : n ∈ cfg.protectedComms) :
    (∀ r : KernelRecord, r.Of n → Spared cfg r.event.comm) ↔
      (n.length ≤ 15 ∧ 0 ∉ n) ∨ cstr (n.take 15) ∈ cfg.protectedComms := by
  have hlisted : (∀ r : KernelRecord, r.Of n → Spared cfg r.event.comm) ↔ cstr (n.take 15) ∈ cfg.protectedComms := by
    rw [← spared_iff]
    constructor
    · intro h
      have hof : (KernelRecord.openat ⟨0, 0, (Comm.of n).field, Vector.replicate 256 0⟩).Of n := rfl
      exact comm_of hof ▸ h _ hof
    · intro h r hr
      rwa [comm_of hr]
  rw [hlisted]
  constructor
  · exact .inr
  · rintro (⟨hlen, h0⟩ | h)
    · rwa [cstr_take hlen h0]
    · exact h

/-- What `config.Default` sets for the engine, with more names on the list. -/
def defaultPolicy (enforceMode : Bytes) (more : List Bytes) : Policy.Config where
  enforceMode
  protectedComms := [lit "systemd", lit "sshd", lit "init", lit "kubelet", lit "containerd", lit "dockerd",
    lit "watchbpf-agent", lit "NetworkManager"] ++ more
  maxActionsPerWindow := 50
  thresholdAlert := 40
  thresholdSoft := 70
  thresholdHard := 90
  isPrint n := 0x20 ≤ n && n < 0x7F

theorem protects_iff_sshd :
    (∀ r : KernelRecord, r.Of (lit "sshd") → Spared (defaultPolicy (lit "live") []) r.event.comm) ↔
      ((lit "sshd").length ≤ 15 ∧ 0 ∉ lit "sshd") ∨
        cstr ((lit "sshd").take 15) ∈ (defaultPolicy (lit "live") []).protectedComms :=
  protects_iff (by decide)

/-- The journal's daemon opens a file, under the name that the kernel keeps of its own. -/
def journald : KernelRecord := .openat {
  pid := 614
  uid := 0
  comm := #v[0x73, 0x79, 0x73, 0x74, 0x65, 0x6D, 0x64, 0x2D, 0x6A, 0x6F, 0x75, 0x72, 0x6E, 0x61, 0x6C, 0]
  filename := Vector.replicate 256 0 }

/-- `systemd-journald` is listed, and decided upon like any other process. -/
theorem journald_unprotected :
    lit "systemd-journald" ∈ (defaultPolicy (lit "live") [lit "systemd-journald"]).protectedComms ∧
      journald.Of (lit "systemd-journald") ∧
      (evaluate (defaultPolicy (lit "live") [lit "systemd-journald"]) 0 journald.event.comm 95 []).1 =
        ⟨.hard, thresholdReason⟩ := by
  refine ⟨by decide, ?_, by decide⟩
  unfold KernelRecord.Of
  decide

end WatchBPF.Agent
