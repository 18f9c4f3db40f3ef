/-
Runs in which calls of `Log` fail. The hash kept in memory is advanced before the file is written, so
it follows the calls and not the file: a call that fails moves it, and the chain stays as it was
exactly when none does.
-/
import WatchBPF.Audit.Tamper

namespace WatchBPF.Audit

open WatchBPF.HashChain WatchBPF.Utf8 WatchBPF.Mutex WatchBPF.Sha256

/-! ## Runs with failures -/

/-- A run of calls, each with what becomes of its write. -/
def runLog (l : Logger) (ops : List (LogCall × WriteResult)) : Logger :=
  ops.foldl (fun l op => (log op.1 op.2 l).2) l

theorem runLog_append (l : Logger) (ops ops' : List (LogCall × WriteResult)) :
    runLog l (ops ++ ops') = runLog (runLog l ops) ops' := List.foldl_append

/-- The hash in memory is that of the last call, failed or not. -/
theorem runLog_lastHash (l : Logger) (ops : List (LogCall × WriteResult)) :
    (runLog l ops).lastHash = tip chain l.lastHash (chainEntries l.lastHash (ops.map Prod.fst)) := by
  induction ops generalizing l with
  | nil => rfl
  | cons op ops ih =>
    show (runLog (log op.1 op.2 l).2 ops).lastHash = _
    rw [ih, log_lastHash]
    rfl

/-- Without a failure the run is one of successful calls. -/
theorem runInv_runLog {f : Option Bytes} (hf : Started f) {ops : List (LogCall × WriteResult)}
    (hok : ∀ op ∈ ops, op.2 = .ok) : RunInv f (ops.map Prod.fst) (runLog (newLogger f) ops) := by
  induction ops using List.reverseRecOn with
  | nil => exact runInv_start hf
  | append_singleton ops op ih =>
    have ih := (ih fun o ho => hok o (by simp [ho])).log op.1
    rw [runLog_append, List.map_append]
    rwa [← hok op (by simp)] at ih

/-- The calls that returned nil. -/
def succeeded (ops : List (LogCall × WriteResult)) : List LogCall :=
  (ops.filter fun op => op.2 == .ok).map Prod.fst

/-- Failing calls leave the hash and the entries as they were; the file gains the entries of the other
calls and verifies. -/
structure Intact (f : Option Bytes) (n : Nat) (ops : List (LogCall × WriteResult)) : Prop where
  unchanged : ∀ before op after, ops = before ++ op :: after → op.2 ≠ .ok →
    (runLog (newLogger f) (before ++ [op])).lastHash = (runLog (newLogger f) before).lastHash ∧
      fileEntries (runLog (newLogger f) (before ++ [op])).file = fileEntries (runLog (newLogger f) before).file
  holds : ∀ data, (runLog (newLogger f) ops).file = some data → ∃ es, List.Forall₂ Records es (succeeded ops) ∧
    entries data = fileEntries f ++ es ∧ verifyChain (some data) = (true, n + es.length, none)

theorem intact_of_ok {f : Option Bytes} {n : Nat} (hf : StartFile f n) {ops : List (LogCall × WriteResult)}
    (hv : ∀ op ∈ ops, ∀ s ∈ op.1.strings, valid s = true) (hok : ∀ op ∈ ops, op.2 = .ok) : Intact f n ops := by
  obtain ⟨hs, hn⟩ := hf.started
  constructor
  · rintro before op after rfl hop
    exact absurd (hok op (by simp)) hop
  · intro data hdata
    have hinv := runInv_runLog hs hok
    have hcontent := hinv.content
    rw [hdata, Option.getD_some] at hcontent
    have hall : succeeded ops = ops.map Prod.fst := by
      rw [succeeded, List.filter_eq_self.2 fun op hop => by simp [hok op hop]]
    have hacc : Accepted data _ := hcontent ▸ accepted_written hs fun c hc => by
      obtain ⟨op, hop, rfl⟩ := List.mem_map.1 hc
      exact hv op hop
    refine ⟨chainEntries (startHash f) (ops.map Prod.fst), hall ▸ chainEntries_records _ _, hacc.decode.entries, ?_⟩
    rw [verifyChain_of_accepted hacc, List.length_append, hn]

/-- The strings hashed in a run: those of the file's entries and those of every call. -/
def hashedStrings (f : Option Bytes) (ops : List (LogCall × WriteResult)) : List Bytes :=
  (fileEntries f ++ chainEntries (startHash f) (ops.map Prod.fst)).map hashInput

/-- A call changes the hash, since no later entry of a chain carries the hash of an earlier one. -/
theorem tip_ne_of_call {f : Option Bytes} (hf : Started f) (calls : List LogCall) (c : LogCall)
    (hc : NoCollision ((fileEntries f ++ chainEntries (startHash f) (calls ++ [c])).map hashInput)) :
    tip chain (startHash f) (chainEntries (startHash f) (calls ++ [c])) ≠
      tip chain (startHash f) (chainEntries (startHash f) calls) := by
  have hl := hf.linked (calls ++ [c])
  have hs := hf.sealed (calls ++ [c])
  have hd := hc.determined_self (linked_prev (sealed_digest hs) (.inl rfl) hl)
  rw [chainEntries_append, ← List.append_assoc] at hl hs hd
  have hne := link_ne_tip hl hs hd (sealed_fresh _)
  rw [chain_genesis, tip_append] at hne
  rw [chainEntries_append, tip_append]
  exact hne

theorem runLog_newLogger_lastHash {f : Option Bytes} (hf : Started f) (ops : List (LogCall × WriteResult)) :
    (runLog (newLogger f) ops).lastHash =
      tip chain (startHash f) (chainEntries (startHash f) (ops.map Prod.fst)) := by
  have h0 : (newLogger f).lastHash = startHash f := (runInv_start hf).lastHash
  rw [runLog_lastHash, h0]

theorem ok_of_intact {f : Option Bytes} {n : Nat} (hf : Started f) {ops : List (LogCall × WriteResult)}
    (hc : NoCollision (hashedStrings f ops)) (hi : Intact f n ops) : ∀ op ∈ ops, op.2 = .ok := by
  intro op hop
  by_contra hne
  obtain ⟨before, after, hops⟩ := List.append_of_mem hop
  have hlast := (hi.unchanged before op after hops hne).1
  rw [runLog_newLogger_lastHash hf, runLog_newLogger_lastHash hf, List.map_append] at hlast
  refine tip_ne_of_call hf (before.map Prod.fst) op.1 (hc.mono ?_) hlast
  have hsplit : ops.map Prod.fst = (before.map Prod.fst ++ [op.1]) ++ after.map Prod.fst := by simp [hops]
  rw [hashedStrings, hsplit, chainEntries_append _ (before.map Prod.fst ++ [op.1])]
  intro s hs
  simp only [List.map_append, List.mem_append] at hs ⊢
  tauto

/-- In any schedule of calls on one logger the chain stays intact exactly when no call fails. -/
theorem intact_iff_ok {f : Option Bytes} {n : Nat} (hf : StartFile f n) {c : Config Logger (LogCall × WriteResult)}
    (h : Reachable (fun op => logSection op.1 op.2) (fun _ _ => False) (newLogger f) c) (free : c.holder = none)
    (hv : ∀ op ∈ c.order, ∀ s ∈ op.1.strings, valid s = true) :
    c.shared = runLog (newLogger f) c.order ∧ ((∀ op ∈ c.order, op.2 = .ok) → Intact f n c.order) ∧
      (NoCollision (hashedStrings f c.order) → Intact f n c.order → ∀ op ∈ c.order, op.2 = .ok) := by
  refine ⟨?_, intact_of_ok hf hv, ok_of_intact hf.started.1⟩
  rw [← settled_of_free free, settled_eq_foldl h]
  simp only [logSection_run]
  rfl

/-- What a new log holds after one open that failed does not verify. -/
theorem verifyChain_after_openFailed (c d : LogCall) :
    (verifyChain (runLog (newLogger none) [(c, .openFailed), (d, .ok)]).file).1 = false := by
  set h := (newEntry genesis c).hash with hh
  have hd : Digest h := newEntry_digest genesis c
  have hp : (newEntry h d).coerce.prevHash ≠ genesis := by
    show Utf8.coerce h ≠ genesis
    rw [hd.coerce]; exact hd.ne_genesis
  have hlines : recordLines (marshal (newEntry h d) ++ [0x0A]) = [marshal (newEntry h d)] := by
    simpa [unlines] using @recordLines_append_marshal [] (.inl rfl) [newEntry h d]
  show (verifyChain (some ([] ++ marshal (newEntry h d) ++ [0x0A]))).1 = false
  rw [List.nil_append, verifyChain_eq, hlines, verifyLines_cons (marshal_ne_nil _) (unmarshal_marshal _), if_pos hp]

/-- One open that fails on a new log. -/
theorem not_intact_of_openFailed :
    let ops := [(execCall (lit "curl") (lit "/usr/bin/curl -s"), WriteResult.openFailed),
                (execCall (lit "ls") (lit "/bin/ls"), WriteResult.ok)]
    ¬ Intact none 0 ops ∧ (verifyChain (runLog (newLogger none) ops).file).1 = false := by
  generalize execCall (lit "curl") (lit "/usr/bin/curl -s") = c
  generalize execCall (lit "ls") (lit "/bin/ls") = d
  refine ⟨fun h => ?_, verifyChain_after_openFailed c d⟩
  have hlast := (h.unchanged [] (c, .openFailed) [(d, .ok)] rfl (by simp)).1
  exact (newEntry_digest genesis c).ne_genesis hlast

theorem intact_iff_ok_single :
    Intact none 0 [(execCall (lit "ls") (lit "/bin/ls"), .ok)] ∧
      ¬ Intact none 0 [(execCall (lit "ls") (lit "/bin/ls"), .openFailed)] := by
  have hv : ∀ io : WriteResult, ∀ op ∈ [(execCall (lit "ls") (lit "/bin/ls"), io)],
      ∀ s ∈ op.1.strings, valid s = true := by
    intro io op hop
    obtain rfl := List.mem_singleton.1 hop
    show ∀ s ∈ (execCall (lit "ls") (lit "/bin/ls")).strings, valid s = true
    decide
  have hc : ∀ io, NoCollision (hashedStrings none [(execCall (lit "ls") (lit "/bin/ls"), io)]) := fun io =>
    fun a ha b hb _ => (List.mem_singleton.1 ha).trans (List.mem_singleton.1 hb).symm
  refine ⟨?_, fun h => ?_⟩
  · exact (intact_iff_ok (.inl ⟨rfl, rfl⟩) (reachable_calls (newLogger none) _) rfl (hv .ok)).2.1 (by simp)
  · have := (intact_iff_ok (.inl ⟨rfl, rfl⟩) (reachable_calls (newLogger none) _) rfl (hv .openFailed)).2.2
      (hc .openFailed) h
    simp at this

end WatchBPF.Audit
