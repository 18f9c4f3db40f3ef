/-
Restarts on a torn file. An append that was cut short leaves a tail without its newline; the next
entry continues the chain on a line of its own exactly when there is no such tail.
-/
import WatchBPF.Audit.Run

namespace WatchBPF.Audit

open WatchBPF.HashChain WatchBPF.Mutex

/-! ## Continuing a file -/

/-- The hash of the last entry of a file that is complete. -/
def lastEntryHash (data : Bytes) : Bytes := ((entries data).getLast?.map Entry.hash).getD genesis

/-- After a restart on the file the next entry stands on a line of its own and names the hash of the
last complete entry. -/
structure Continues (data : Bytes) (c : LogCall) : Prop where
  ownLine : ∀ data', (log c .ok (newLogger (some data))).2.file = some data' →
    splitLines data' = splitLines data ++ [marshal (newEntry (newLogger (some data)).lastHash c)]
  prevHash : (newEntry (newLogger (some data)).lastHash c).prevHash = lastEntryHash data

theorem log_file (c : LogCall) (data : Bytes) : (log c .ok (newLogger (some data))).2.file =
    some (data ++ marshal (newEntry (newLogger (some data)).lastHash c) ++ [0x0A]) := rfl

/-- Complete lines that decode, each with a hash, are continued. -/
theorem continues_of_decode {data : Bytes} (ht : Terminated data) {es : List Entry}
    (hd : Decode (recordLines data) es) (hne : ∀ e ∈ es, e.hash ≠ []) (c : LogCall) : Continues data c where
  ownLine data' h := by
    rw [log_file, Option.some.injEq] at h
    rw [← h, splitLines_append_line ht (newline_not_mem_marshal _)]
  prevHash := by
    rw [newEntry_prevHash, lastEntryHash, hd.entries]
    exact (loadLastHash_of_decode hd hne).trans (tip_eq_getLast? genesis es)

/-- The entry is glued to a torn tail. -/
theorem not_continues_of_torn {data : Bytes} (ht : ¬ Terminated data) (c : LogCall) : ¬ Continues data c := by
  intro h
  have hl := h.ownLine _ (log_file c data)
  generalize hm : newEntry (newLogger (some data)).lastHash c = e at hl
  obtain ⟨body, tail, rfl, hbody, htail⟩ := exists_tail data
  have hne : tail ≠ [] := fun h0 => ht ((terminated_iff_tail hbody htail).2 h0)
  have hsplit : splitLines (body ++ tail) = splitLines body ++ [tail] := by
    rw [splitLines_append hbody, splitLines, splitLines, splitLinesFrom_tail _ htail, List.nil_append, if_neg hne]
  rw [splitLines_append_glued hbody htail (newline_not_mem_marshal e), hsplit] at hl
  simpa using congrArg List.length hl

/-! ## Prefixes of a log -/

/-- The complete lines at the front of a file decode to its first entries. -/
theorem Decode.of_prefix {data data' : Bytes} {es : List Entry} (h : Decode (recordLines data) es)
    (hp : data' <+: data) (ht : Terminated data') : ∃ es', es' <+: es ∧ Decode (recordLines data') es' := by
  obtain ⟨rest, rfl⟩ := hp
  rw [recordLines_append ht] at h
  refine ⟨es.take (recordLines data').length, List.take_prefix _ _, ?_⟩
  have := congrArg (List.take (recordLines data').length) h
  rwa [List.map_append, List.take_left' (by simp), ← List.map_take] at this

/-- After a crash that leaves any leading bytes of a log, the chain continues exactly when nothing
follows the last newline. -/
theorem continues_iff_terminated {f : Option Bytes} {n : Nat} (hf : StartFile f n) {c : Config Logger LogCall}
    (h : Reachable (fun k => logSection k .ok) Audit.restart (newLogger f) c) (free : c.holder = none)
    {data data' : Bytes} (hdata : c.shared.file = some data) (hp : data' <+: data) (call : LogCall) :
    Continues data' call ↔ Terminated data' := by
  refine ⟨fun hc => by_contra fun ht => not_continues_of_torn ht call hc, fun ht => ?_⟩
  have hs := hf.started.1
  have hinv := runInv_of_reachable hs h
  rw [settled_of_free free] at hinv
  have hdec := decode_written hs c.order
  rw [← hinv.content, hdata, Option.getD_some] at hdec
  obtain ⟨es', hpre, hdec'⟩ := hdec.of_prefix hp ht
  refine continues_of_decode ht hdec' (fun e he => ?_) call
  rcases List.mem_append.1 (hpre.subset he) with he | he
  · exact (hs.digests e he).ne_nil
  · exact (writtenEntries_digest f c.order e he).ne_nil

/-- A log of one entry, cut just before its newline. -/
theorem not_continues_of_cut :
    let entry := newEntry genesis (execCall (lit "ls") (lit "/bin/ls"))
    marshal entry <+: unlines [marshal entry] ∧ ¬ Continues (marshal entry) (execCall (lit "cat") (lit "/bin/cat")) := by
  generalize newEntry genesis (execCall (lit "ls") (lit "/bin/ls")) = entry
  refine ⟨by simp [unlines], not_continues_of_torn (fun ht => ?_) _⟩
  rcases ht with ht | ht
  · exact marshal_ne_nil entry ht
  · exact newline_not_mem_marshal entry (List.mem_of_getLast? ht)

theorem continues_after_restart :
    Continues (unlines [marshal (newEntry genesis (execCall (lit "ls") (lit "/bin/ls")))])
      (execCall (lit "cat") (lit "/bin/cat")) := by
  have hfile : ((logSection (execCall (lit "ls") (lit "/bin/ls")) .ok).run (newLogger none)).file =
      some (unlines [marshal (newEntry genesis (execCall (lit "ls") (lit "/bin/ls")))]) := by
    rw [logSection_run]
    simp [log, newLogger, loadLastHash, unlines]
  have ht := @terminated_append_unlines [] (.inl rfl)
    [marshal (newEntry genesis (execCall (lit "ls") (lit "/bin/ls")))]
  refine (continues_iff_terminated (.inl ⟨rfl, rfl⟩) (reachable_calls (newLogger none)
    [execCall (lit "ls") (lit "/bin/ls")]) rfl hfile (List.prefix_refl _) _).2 ?_
  simpa using ht

end WatchBPF.Audit
