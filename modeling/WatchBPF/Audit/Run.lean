/-
Whole runs of `Log`: any number of goroutines on one logger, with restarts while none of them is
logging. The invariant ties the head of the chain kept in memory to the last entry of the file.
-/
import WatchBPF.Audit.Logger

namespace WatchBPF.Audit

open WatchBPF.HashChain WatchBPF.Utf8 WatchBPF.Mutex

/-! ## Starting files -/

/-- The files a run starts from: none, or complete lines that verify, `n` of them entries. -/
def StartFile (f : Option Bytes) (n : Nat) : Prop :=
  (f = none ∧ n = 0) ∨ ∃ data, f = some data ∧ Terminated data ∧ verifyChain f = (true, n, none)

/-- The entries a file has, none if there is no file. -/
def fileEntries (f : Option Bytes) : List Entry := entries (f.getD [])

/-- The hash a run continues from. -/
def startHash (f : Option Bytes) : Bytes := tip chain genesis (fileEntries f)

/-- A file that a run may start from, with its entries. -/
structure Started (f : Option Bytes) : Prop where
  terminated : Terminated (f.getD [])
  accepted : Accepted (f.getD []) (fileEntries f)

theorem accepted_nil : Accepted [] [] := ⟨rfl, trivial, by simp [Sealed]⟩

theorem StartFile.started {f : Option Bytes} {n : Nat} (h : StartFile f n) :
    Started f ∧ (fileEntries f).length = n := by
  rcases h with ⟨rfl, rfl⟩ | ⟨data, rfl, ht, hv⟩
  · exact ⟨⟨.inl rfl, accepted_nil⟩, rfl⟩
  · have ha : Accepted data (entries data) := accepted_of_verifyChain (by rw [hv])
    refine ⟨⟨ht, ha⟩, ?_⟩
    have := verifyChain_of_accepted ha
    rw [hv] at this
    exact (congrArg (·.2.1) this).symm

namespace Started

variable {f : Option Bytes} (h : Started f)
include h

theorem digests : ∀ e ∈ fileEntries f, Digest e.hash := sealed_digest h.accepted.sealed

theorem startHash_link : Link (startHash f) := tip_link h.digests (.inl rfl)

/-- The entries of the file and those of a run are one chain. -/
theorem linked (cs : List LogCall) : Linked chain genesis (fileEntries f ++ chainEntries (startHash f) cs) :=
  (linked_append _ _ _).2 ⟨h.accepted.linked, linked_chainEntries _ _⟩

theorem sealed (cs : List LogCall) : Sealed chain (fileEntries f ++ chainEntries (startHash f) cs) := by
  intro e he
  rcases List.mem_append.1 he with he | he
  · exact h.accepted.sealed e he
  · exact sealed_chainEntries _ _ e he

end Started

/-! ## The file of a run -/

/-- The entries that `calls` append, read back. -/
def writtenEntries (f : Option Bytes) (calls : List LogCall) : List Entry :=
  (chainEntries (startHash f) calls).map Entry.coerce

/-- Where a run that wrote the entries of `calls` stands. -/
structure RunInv (f : Option Bytes) (calls : List LogCall) (l : Logger) : Prop where
  lastHash : l.lastHash = tip chain (startHash f) (chainEntries (startHash f) calls)
  content : l.file.getD [] = f.getD [] ++ unlines ((chainEntries (startHash f) calls).map marshal)
  created : calls ≠ [] → l.file ≠ none

theorem chainEntries_digest (g : Bytes) (cs : List LogCall) : ∀ e ∈ chainEntries g cs, Digest e.hash :=
  sealed_digest (sealed_chainEntries g cs)

theorem decode_written {f : Option Bytes} (hf : Started f) (calls : List LogCall) :
    Decode (recordLines (f.getD [] ++ unlines ((chainEntries (startHash f) calls).map marshal)))
      (fileEntries f ++ writtenEntries f calls) := by
  rw [recordLines_append_marshal hf.terminated]
  exact hf.accepted.decode.append (decode_marshal _)

theorem writtenEntries_digest (f : Option Bytes) (calls : List LogCall) :
    ∀ e ∈ writtenEntries f calls, Digest e.hash := by
  intro e he
  obtain ⟨d, hd, rfl⟩ := List.mem_map.1 he
  have hdig := chainEntries_digest _ _ d hd
  rwa [show d.coerce.hash = d.hash from hdig.coerce]

/-- A restart finds the head of the chain. -/
theorem loadLastHash_written {f : Option Bytes} (hf : Started f) {calls : List LogCall} {file : Option Bytes}
    (hc : file.getD [] = f.getD [] ++ unlines ((chainEntries (startHash f) calls).map marshal)) :
    loadLastHash file = tip chain (startHash f) (chainEntries (startHash f) calls) := by
  have hdec := decode_written hf calls
  rw [← hc] at hdec
  have hne : ∀ e ∈ fileEntries f ++ writtenEntries f calls, e.hash ≠ [] := by
    intro e he
    rcases List.mem_append.1 he with he | he
    · exact (hf.digests e he).ne_nil
    · exact (writtenEntries_digest f calls e he).ne_nil
  have htip : tip chain genesis (fileEntries f ++ writtenEntries f calls) =
      tip chain (startHash f) (chainEntries (startHash f) calls) := by
    rw [tip_append, writtenEntries, tip_coerce (chainEntries_digest _ _)]; rfl
  rw [← htip]
  cases file with
  | some data => exact loadLastHash_of_decode hdec hne
  | none =>
    have hnil : fileEntries f ++ writtenEntries f calls = [] := List.map_eq_nil_iff.1 hdec.symm
    rw [hnil]; rfl

/-- `NewLogger` on the file of the process before. -/
def restart (l l' : Logger) : Prop := l' = newLogger l.file

theorem runInv_start {f : Option Bytes} (hf : Started f) : RunInv f [] (newLogger f) where
  lastHash := @loadLastHash_written f hf [] f (by simp [chainEntries, unlines])
  content := by simp [chainEntries, unlines, newLogger]
  created := by simp

theorem RunInv.restart {f : Option Bytes} (hf : Started f) {calls : List LogCall} {l l' : Logger}
    (h : RunInv f calls l) (hr : restart l l') : RunInv f calls l' := by
  obtain rfl : l' = newLogger l.file := hr
  exact ⟨loadLastHash_written hf h.content, h.content, h.created⟩

/-- A successful call appends its entry. -/
theorem RunInv.log {f : Option Bytes} {calls : List LogCall} {l : Logger} (h : RunInv f calls l) (c : LogCall) :
    RunInv f (calls ++ [c]) (log c .ok l).2 := by
  have hes : chainEntries (startHash f) (calls ++ [c]) =
      chainEntries (startHash f) calls ++ [newEntry l.lastHash c] := by
    rw [chainEntries_append, h.lastHash]; rfl
  refine ⟨?_, ?_, by simp [Audit.log]⟩
  · rw [log_lastHash, hes, tip_append]; rfl
  · rw [hes, List.map_append, unlines_append]
    simp [Audit.log, h.content, unlines]

theorem runInv_of_reachable {f : Option Bytes} (hf : Started f) {c : Config Logger LogCall}
    (h : Reachable (fun k => logSection k .ok) Audit.restart (newLogger f) c) : RunInv f c.order c.settled :=
  settled_induction (I := RunInv f) (runInv_start hf)
    (fun _ k _ hl => by rw [logSection_run]; exact hl.log k) (fun _ _ _ hl hr => hl.restart hf hr) h

/-! ## What verification says of a run -/

/-- The strings a call passes. -/
def LogCall.strings (c : LogCall) : List Bytes :=
  [c.eventType, c.comm, c.detail, c.tier, c.reason, c.actionTaken]

theorem newEntry_hashed_valid {g : Bytes} (hg : valid g = true) (c : LogCall) :
    (∀ s ∈ (newEntry g c).hashed, valid s = true) ↔ ∀ s ∈ c.strings, valid s = true := by
  simp [Entry.hashed, newEntry, LogCall.strings, valid_rfc3339, hg]

/-- Valid strings are hashed alike by `Log` and by verification. -/
theorem newEntry_coerce {g : Bytes} (hg : Link g) {c : LogCall} (hc : ∀ s ∈ c.strings, valid s = true) :
    (newEntry g c).coerce = newEntry g c := by
  simp only [LogCall.strings, List.forall_mem_cons, List.not_mem_nil, false_implies, implies_true, and_true] at hc
  obtain ⟨h1, h2, h3, h4, h5, h6⟩ := hc
  have hh : Utf8.coerce (newEntry g c).hash = (newEntry g c).hash := (newEntry_digest g c).coerce
  simp only [Entry.coerce, hh]
  simp [newEntry, coerce_of_valid, valid_rfc3339, hg.valid, h1, h2, h3, h4, h5, h6]

theorem chainEntries_coerce {cs : List LogCall} (hc : ∀ c ∈ cs, ∀ s ∈ c.strings, valid s = true) :
    ∀ {g : Bytes}, Link g → (chainEntries g cs).map Entry.coerce = chainEntries g cs := by
  induction cs with
  | nil => intros; rfl
  | cons c cs ih =>
    intro g hg
    rw [chainEntries, List.map_cons, newEntry_coerce hg (hc c (by simp)),
      ih (fun d hd => hc d (by simp [hd])) (.inr (newEntry_digest g c))]

/-- The entries of the file after a run are linked, whatever they say. -/
theorem linked_written {f : Option Bytes} (hf : Started f) (calls : List LogCall) :
    Linked chain genesis (fileEntries f ++ writtenEntries f calls) :=
  (linked_append _ _ _).2 ⟨hf.accepted.linked,
    linked_coerce (chainEntries_digest _ _) hf.startHash_link (linked_chainEntries _ _)⟩

theorem accepted_written {f : Option Bytes} (hf : Started f) {calls : List LogCall}
    (hv : ∀ c ∈ calls, ∀ s ∈ c.strings, valid s = true) :
    Accepted (f.getD [] ++ unlines ((chainEntries (startHash f) calls).map marshal))
      (fileEntries f ++ chainEntries (startHash f) calls) := by
  have hw : writtenEntries f calls = chainEntries (startHash f) calls := chainEntries_coerce hv hf.startHash_link
  exact ⟨hw ▸ decode_written hf calls, hf.linked calls, hf.sealed calls⟩

/-- A log of calls on a new file verifies. -/
theorem accepted_new {calls : List LogCall} (hv : ∀ c ∈ calls, ∀ s ∈ c.strings, valid s = true) :
    Accepted (unlines ((chainEntries genesis calls).map marshal)) (chainEntries genesis calls) :=
  accepted_written (f := none) ⟨.inl rfl, accepted_nil⟩ hv

/-- A first link to genesis is the first entry of the file. -/
theorem genesis_only_first {f : Option Bytes} (hf : Started f) {calls : List LogCall} {e : Entry}
    (he : e ∈ chainEntries (startHash f) calls) (hg : e.prevHash = genesis) :
    fileEntries f = [] ∧ (chainEntries (startHash f) calls).head? = some e := by
  have hl := hf.linked calls
  have hs := hf.sealed calls
  obtain ⟨i, hi⟩ := List.getElem?_of_mem (List.mem_append_right (fileEntries f) he)
  cases i with
  | zero =>
    cases hfe : fileEntries f with
    | nil => rw [hfe] at hi; exact ⟨rfl, by rw [← hi, List.nil_append, List.head?_eq_getElem?]⟩
    | cons d ds =>
      -- the entry would be the file's first one too
      obtain ⟨j, hj⟩ := List.getElem?_of_mem he
      have hj' : (fileEntries f ++ chainEntries (startHash f) calls)[(fileEntries f).length + j]? = some e := by
        rw [List.getElem?_append_right (by omega)]; simpa using hj
      rw [hfe, List.length_cons, show ds.length + 1 + j = ds.length + j + 1 by omega, ← hfe] at hj'
      obtain ⟨d', hd', -, hp⟩ := linked_get_succ hl hj'
      exact absurd (hp.symm.trans hg) (sealed_digest hs d' hd').ne_genesis
  | succ i =>
    obtain ⟨d, hd, -, hp⟩ := linked_get_succ hl hi
    exact absurd (hp.symm.trans hg) (sealed_digest hs d hd).ne_genesis

/-- After any schedule of calls and restarts the file is the old one with one line for each call, in
lock order; its links hold, and it verifies when the logged strings are valid UTF-8. -/
theorem log_schedule {f : Option Bytes} {n : Nat} (hf : StartFile f n) {c : Config Logger LogCall}
    (h : Reachable (fun k => logSection k .ok) Audit.restart (newLogger f) c) (free : c.holder = none)
    (done : c.waiting = []) (hne : c.called ≠ []) :
    c.order.Perm c.called ∧ ∃ data es, c.shared.file = some data ∧
      data = f.getD [] ++ unlines (es.map marshal) ∧ List.Forall₂ Records es c.order ∧
      entries data = fileEntries f ++ es.map Entry.coerce ∧ Linked chain genesis (entries data) ∧
      (∀ e ∈ es, e.prevHash = genesis → n = 0 ∧ es.head? = some e) ∧
      ((verifyChain (some data)).2.2 = none ∨ ∃ k, (verifyChain (some data)).2.2 = some (.mismatch k)) ∧
      ((∀ k ∈ c.called, ∀ s ∈ k.strings, valid s = true) →
        verifyChain (some data) = (true, n + c.called.length, none)) := by
  obtain ⟨hs, hn⟩ := hf.started
  have hperm := order_perm_called h done
  have hinv := runInv_of_reachable hs h
  rw [settled_of_free free] at hinv
  have hord : c.order ≠ [] := fun h0 => hne (by simpa [h0] using hperm.symm)
  obtain ⟨data, hdata⟩ := Option.ne_none_iff_exists'.1 (hinv.created hord)
  have hcontent := hinv.content
  rw [hdata, Option.getD_some] at hcontent
  have hent : entries data = fileEntries f ++ writtenEntries f c.order := by
    rw [hcontent]; exact (decode_written hs _).entries
  refine ⟨hperm, data, chainEntries (startHash f) c.order, hdata, hcontent, chainEntries_records _ _,
    hent, hent ▸ linked_written hs _, fun e he hg => ?_, ?_, fun hv => ?_⟩
  · obtain ⟨h0, h1⟩ := genesis_only_first hs he hg
    exact ⟨by rw [← hn, h0]; rfl, h1⟩
  · rw [verifyChain_eq, hcontent]
    exact verifyLines_linked (nil_not_mem_recordLines _) (decode_written hs _) (linked_written hs _) _
  · rw [hcontent, verifyChain_of_accepted (accepted_written hs fun k hk => hv k (hperm.subset hk)),
      List.length_append, hn, length_chainEntries, hperm.length_eq]

/-- A call as the agent makes them. -/
def execCall (comm detail : Bytes) : LogCall :=
  { now := ⟨2025, 1, 31, 9, 30, 0⟩, eventType := lit "EXEC", comm, detail, pid := 4242, threatScore := 35,
    tier := lit "log", reason := lit "threshold-based decision", actionTaken := [] }

theorem log_schedule_twice : ∃ data,
    (log (execCall (lit "ls") (lit "/bin/ls")) .ok
      (log (execCall (lit "curl") (lit "/usr/bin/curl -s")) .ok (newLogger none)).2).2.file = some data ∧
    verifyChain (some data) = (true, 2, none) := by
  have hv : ∀ k ∈ [execCall (lit "curl") (lit "/usr/bin/curl -s"), execCall (lit "ls") (lit "/bin/ls")],
      ∀ s ∈ k.strings, valid s = true := by decide
  obtain ⟨-, data, -, hfile, -, -, -, -, -, -, hok⟩ :=
    log_schedule (.inl ⟨rfl, rfl⟩) (reachable_calls (newLogger none)
      [execCall (lit "curl") (lit "/usr/bin/curl -s"), execCall (lit "ls") (lit "/bin/ls")]) rfl rfl (by simp)
  exact ⟨data, hfile, hok hv⟩

end WatchBPF.Audit
