/-
What verification says of a log lasts. Entries are only ever appended, so a refusal stays what it is, line and error,
however long the agent goes on and however often it starts again, and what once verified is never refused. A call
that could not open the file shows exactly when its logger writes another entry before the next restart.
-/
import WatchBPF.Audit.Failure

namespace WatchBPF.Audit

open WatchBPF.HashChain WatchBPF.Utf8 WatchBPF.Mutex

/-! ## Verification line by line -/

/-- What one line does to the walk, whatever follows it: a blank one nothing, any other ends it or is counted. -/
theorem verifyLines_cons_cases (g : Bytes) (n : Nat) (line : Bytes) :
    (∀ lines, verifyLines g n (line :: lines) = verifyLines g n lines) ∨
    (∃ err, ∀ lines, verifyLines g n (line :: lines) = (false, n, some err)) ∨
    ∃ g', ∀ lines, verifyLines g n (line :: lines) = verifyLines g' (n + 1) lines := by
  by_cases hblank : line = []
  · exact .inl fun lines => by rw [verifyLines, if_pos hblank]
  · cases hread : unmarshal line with
    | none => exact .inr (.inl ⟨.malformed (n + 1), fun lines => by rw [verifyLines, if_neg hblank, hread]⟩)
    | some e =>
      by_cases hprev : e.prevHash = g
      · by_cases hhash : computeHash e = e.hash
        · refine .inr (.inr ⟨e.hash, fun lines => ?_⟩)
          rw [verifyLines_cons hblank hread, if_neg (not_not_intro hprev), if_neg (not_not_intro hhash)]
        · refine .inr (.inl ⟨.mismatch (n + 1), fun lines => ?_⟩)
          rw [verifyLines_cons hblank hread, if_neg (not_not_intro hprev), if_pos hhash]
      · refine .inr (.inl ⟨.broken (n + 1) g e.prevHash, fun lines => ?_⟩)
        rw [verifyLines_cons hblank hread, if_pos hprev]

theorem le_verifyLines : ∀ (lines : List Bytes) (g : Bytes) (n : Nat), n ≤ (verifyLines g n lines).2.1
  | [], _, _ => le_rfl
  | line :: lines, g, n => by
    obtain hblank | ⟨err, hends⟩ | ⟨g', hcounted⟩ := verifyLines_cons_cases g n line
    · rw [hblank]
      exact le_verifyLines lines g n
    · rw [hends]
    · rw [hcounted]
      exact (Nat.le_succ n).trans (le_verifyLines lines g' (n + 1))

/-- Lines behind one that is refused are not looked at. -/
theorem verifyLines_append_refused : ∀ {ls : List Bytes} {g : Bytes} {n : Nat},
    (verifyLines g n ls).1 = false → ∀ ms, verifyLines g n (ls ++ ms) = verifyLines g n ls
  | [], _, _, h, _ => by cases h
  | line :: ls, g, n, h, ms => by
    obtain hblank | ⟨err, hends⟩ | ⟨g', hcounted⟩ := verifyLines_cons_cases g n line
    · rw [hblank] at h
      rw [List.cons_append, hblank, hblank]
      exact verifyLines_append_refused h ms
    · rw [List.cons_append, hends, hends]
    · rw [hcounted] at h
      rw [List.cons_append, hcounted, hcounted]
      exact verifyLines_append_refused h ms

/-- Lines that are accepted are gone over. -/
theorem verifyLines_append_accepted : ∀ {ls : List Bytes} {g : Bytes} {n : Nat}, (verifyLines g n ls).1 = true →
    ∀ ms, ∃ g', verifyLines g n (ls ++ ms) = verifyLines g' (verifyLines g n ls).2.1 ms
  | [], g, _, _, _ => ⟨g, rfl⟩
  | line :: ls, g, n, h, ms => by
    obtain hblank | ⟨err, hends⟩ | ⟨g', hcounted⟩ := verifyLines_cons_cases g n line
    · rw [hblank] at h
      rw [List.cons_append, hblank, hblank]
      exact verifyLines_append_accepted h ms
    · rw [hends] at h
      cases h
    · rw [hcounted] at h
      rw [List.cons_append, hcounted, hcounted]
      exact verifyLines_append_accepted h ms

/-- Entries that carry their own hashes are refused only for the hash before them. -/
theorem verifyLines_sealed : ∀ {lines : List Bytes} {es : List Entry}, [] ∉ lines → Decode lines es →
    Sealed chain es → ∀ {g : Bytes} {n : Nat} {err : VerifyError}, (verifyLines g n lines).2.2 = some err →
      ∃ k expected got, err = .broken k expected got
  | [], _, _, _, _, _, _, _, h => by cases h
  | _ :: _, [], _, hd, _, _, _, _, _ => by simp [Decode] at hd
  | line :: lines, e :: es, hne, hd, hs, g, n, err, h => by
    simp only [Decode, List.map_cons, List.cons.injEq] at hd
    rw [List.mem_cons, not_or] at hne
    have hhash : computeHash e = e.hash := hs e List.mem_cons_self
    rw [verifyLines_cons (Ne.symm hne.1) hd.1, if_neg (not_not_intro hhash)] at h
    split at h
    · cases h
      exact ⟨_, _, _, rfl⟩
    · exact verifyLines_sealed hne.2 hd.2 (fun e' he' => hs e' (List.mem_cons_of_mem _ he')) h

/-- What verification says of complete lines it says of every file that begins with them. -/
structure Kept (body data : Bytes) : Prop where
  refused : (verifyChain (some body)).1 = false → verifyChain (some data) = verifyChain (some body)
  accepted : (verifyChain (some body)).1 = true →
    (verifyChain (some body)).2.1 ≤ (verifyChain (some data)).2.1 ∧
      ∀ err, (verifyChain (some data)).2.2 = some err → (verifyChain (some body)).2.1 < err.line

theorem kept_of_beginning {body data : Bytes} (ht : Terminated body) (hp : body <+: data) : Kept body data := by
  obtain ⟨rest, rfl⟩ := hp
  constructor
  · intro h
    rw [verifyChain_eq] at h
    rw [verifyChain_eq, verifyChain_eq, recordLines_append ht]
    exact verifyLines_append_refused h _
  · intro h
    rw [verifyChain_eq] at h
    rw [verifyChain_eq, verifyChain_eq, recordLines_append ht]
    obtain ⟨g', hg'⟩ := verifyLines_append_accepted h (recordLines rest)
    rw [hg']
    have hle := le_verifyLines (recordLines rest) g' (verifyLines genesis 0 (recordLines body)).2.1
    exact ⟨hle, fun err herr => verifyLines_line herr ▸ Nat.lt_succ_of_le hle⟩

/-! ## The file only grows -/

/-- The file keeps what it has. -/
def Grows (l l' : Logger) : Prop := ∀ data, l.file = some data → ∃ rest, l'.file = some (data ++ rest)

theorem Grows.refl (l : Logger) : Grows l l := fun data h => ⟨[], by rw [h, List.append_nil]⟩

theorem Grows.trans {l l' l'' : Logger} (h : Grows l l') (h' : Grows l' l'') : Grows l l'' := by
  intro data hdata
  obtain ⟨rest, hrest⟩ := h data hdata
  obtain ⟨rest', hrest'⟩ := h' _ hrest
  exact ⟨rest ++ rest', by rw [hrest', List.append_assoc]⟩

theorem grows_append (l : Logger) (bytes : Bytes) : Grows l { l with file := some (l.file.getD [] ++ bytes) } :=
  fun data h => ⟨bytes, by rw [h, Option.getD_some]⟩

theorem within_logSection (c : LogCall) (io : WriteResult) : (logSection c io).Within Grows := by
  have hopen : ∀ l : Logger, Grows l { l with file := some (l.file.getD []) } := fun l => by
    have happend := grows_append l []
    rwa [List.append_nil] at happend
  have hhash : ∀ l : Logger, Grows l { l with lastHash := (newEntry l.lastHash c).hash } := fun l data h =>
    ⟨[], by rw [List.append_nil]; exact h⟩
  refine ⟨hhash, fun l => ?_⟩
  cases io with
  | openFailed => trivial
  | writeFailed n => exact ⟨hopen, fun _ => ⟨fun l => grows_append l _, fun _ => trivial⟩⟩
  | ok =>
    refine ⟨hopen, fun _ => ⟨fun l' => ?_, fun _ => trivial⟩⟩
    have happend := grows_append l' (marshal (newEntry l.lastHash c) ++ [0x0A])
    rwa [← List.append_assoc] at happend

theorem grows_restart {l l' : Logger} (h : Audit.restart l l') : Grows l l' := by
  have hfile : l'.file = (newLogger l.file).file := congrArg Logger.file (show l' = newLogger l.file from h)
  exact fun data hdata => ⟨[], by rw [List.append_nil, hfile, newLogger, hdata]⟩

theorem grows_of_reachable {l : Logger} {c : Mutex.Config Logger (LogCall × WriteResult)}
    (h : Reachable (fun op => logSection op.1 op.2) Audit.restart l c) : Grows l c.shared := by
  have hsections : ∀ op : LogCall × WriteResult,
      ((fun op : LogCall × WriteResult => logSection op.1 op.2) op).Within Grows := by
    intro op
    exact within_logSection op.1 op.2
  have hbetween : ∀ l l', Audit.restart l l' → Grows l l' := fun l l' hrestart => grows_restart hrestart
  exact within_of_reachable Grows.refl (fun _ _ _ => Grows.trans) hsections hbetween h

/-- Whatever was done to the file before, and whatever hash the logger has in memory: throughout every schedule of
further calls, with writes that fail or are torn and with restarts, a refusal of its complete lines is the refusal of
the whole file, and of the lines that verified none is refused. -/
theorem evidence_lasts {l : Logger} {body tail : Bytes} (hl : l.file = some (body ++ tail)) (ht : Terminated body)
    {c : Mutex.Config Logger (LogCall × WriteResult)}
    (h : Reachable (fun op => logSection op.1 op.2) Audit.restart l c) :
    ∃ data, c.shared.file = some data ∧ body ++ tail <+: data ∧ Kept body data := by
  obtain ⟨rest, hrest⟩ := grows_of_reachable h _ hl
  refine ⟨_, hrest, List.prefix_append _ _, kept_of_beginning ht ?_⟩
  rw [List.append_assoc]
  exact List.prefix_append _ _

/-- One call on a file that another program has written to. -/
theorem evidence_lasts_foreign :
    let l : Logger := { lastHash := genesis, file := some [0x78, 0x0A] }
    let op := (execCall (lit "ls") (lit "/bin/ls"), WriteResult.ok)
    ∃ data, (log op.1 op.2 l).2.file = some data ∧ verifyChain (some data) = (false, 0, some (.malformed 1)) := by
  generalize execCall (lit "ls") (lit "/bin/ls") = call
  intro l op
  have hrefused : verifyChain (some [0x78, 0x0A]) = (false, 0, some (.malformed 1)) := by decide +kernel
  have hrun := @reachable_calls Logger (LogCall × WriteResult) (fun op => logSection op.1 op.2) Audit.restart l [op]
  obtain ⟨data, hdata, -, hkept⟩ := @evidence_lasts l [0x78, 0x0A] [] rfl (.inr rfl) _ hrun
  rw [List.foldl_cons, List.foldl_nil, logSection_run] at hdata
  exact ⟨data, hdata, (hkept.refused (by rw [hrefused])).trans hrefused⟩

/-! ## Sessions -/

/-- A call, and whether it could open the file. -/
abbrev Attempt := LogCall × Bool

def Attempt.op (a : Attempt) : LogCall × WriteResult := (a.1, if a.2 then .ok else .openFailed)

/-- The entries that a logger writes, from the hash it has in memory. -/
def keptEntries (g : Bytes) : List Attempt → List Entry
  | [] => []
  | a :: session =>
    let e := newEntry g a.1
    if a.2 then e :: keptEntries e.hash session else keptEntries e.hash session

/-- The file after sessions of one logger each, their calls in the order of the lock. -/
def runSessions (f : Option Bytes) : List (List Attempt) → Option Bytes
  | [] => f
  | session :: sessions => runSessions (runLog (newLogger f) (session.map Attempt.op)).file sessions

/-- Once a call could not open the file, no other writes to it. -/
def gapless (session : List Attempt) : Bool := (session.dropWhile (·.2)).all (!·.2)

/-- How many entries are in front of the first gap. -/
def beforeGap : List (List Attempt) → Nat
  | [] => 0
  | session :: sessions =>
    (session.takeWhile (·.2)).length + if gapless session then beforeGap sessions else 0

theorem runLog_file (session : List Attempt) : ∀ l : Logger, (runLog l (session.map Attempt.op)).file.getD [] =
    l.file.getD [] ++ unlines ((keptEntries l.lastHash session).map marshal) := by
  induction session with
  | nil => exact fun l => (List.append_nil _).symm
  | cons a session ih =>
    intro l
    show (runLog (log a.1 a.op.2 l).2 (session.map Attempt.op)).file.getD [] = _
    rw [ih, log_lastHash, keptEntries]
    cases hopen : a.2 with
    | true =>
      have hop : a.op.2 = .ok := if_pos hopen
      rw [hop, if_pos rfl, List.map_cons, unlines, unlines, List.flatMap_cons]
      simp only [log, Option.getD_some, List.append_assoc]
    | false =>
      have hop : a.op.2 = .openFailed := if_neg (by rw [hopen]; exact Bool.false_ne_true)
      rw [hop, if_neg Bool.false_ne_true]
      rfl

/-- Calls that all open the file. -/
theorem keptEntries_takeWhile (session rest : List Attempt) : ∀ g : Bytes,
    keptEntries g (session.takeWhile (·.2) ++ rest) =
      chainEntries g ((session.takeWhile (·.2)).map Prod.fst) ++
        keptEntries (tip chain g (chainEntries g ((session.takeWhile (·.2)).map Prod.fst))) rest := by
  induction session with
  | nil => exact fun _ => rfl
  | cons a session ih =>
    intro g
    cases hopen : a.2 with
    | true =>
      rw [List.takeWhile_cons_of_pos hopen, List.cons_append, keptEntries, if_pos hopen, ih]
      rfl
    | false =>
      rw [List.takeWhile_cons_of_neg (by rw [hopen]; exact Bool.false_ne_true)]
      rfl

theorem keptEntries_subset (session : List Attempt) : ∀ g : Bytes,
    ∀ e ∈ keptEntries g session, e ∈ chainEntries g (session.map Prod.fst) := by
  induction session with
  | nil => exact fun _ _ h => h
  | cons a session ih =>
    intro g e he
    rw [keptEntries] at he
    rw [List.map_cons, chainEntries, List.mem_cons]
    split at he
    · exact (List.mem_cons.1 he).imp_right (ih _ e)
    · exact .inr (ih _ e he)

theorem keptEntries_eq_nil {session : List Attempt} : ∀ {g : Bytes},
    keptEntries g session = [] ↔ session.all (!·.2) = true := by
  induction session with
  | nil => exact fun {_} => ⟨fun _ => rfl, fun _ => rfl⟩
  | cons a session ih =>
    intro g
    rw [keptEntries, List.all_cons]
    cases a.2 with
    | true => simp
    | false => simpa using ih

/-! ## The verdict -/

/-- The strings that are hashed in the sessions: those of the file each finds, and those of its calls. -/
def sessionStrings (f : Option Bytes) : List (List Attempt) → List Bytes
  | [] => []
  | session :: sessions => hashedStrings f (session.map Attempt.op) ++
      sessionStrings (runLog (newLogger f) (session.map Attempt.op)).file sessions

theorem calls_valid {session : List Attempt} (hv : ∀ a ∈ session, ∀ s ∈ a.1.strings, valid s = true) :
    ∀ c ∈ session.map Prod.fst, ∀ s ∈ c.strings, valid s = true := by
  intro c hc
  obtain ⟨a, ha, rfl⟩ := List.mem_map.1 hc
  exact hv a ha

theorem gap_of_not_gapless {session : List Attempt} (h : gapless session = false) :
    ∃ lost rest, session = session.takeWhile (·.2) ++ (lost, false) :: rest ∧ rest.all (!·.2) = false := by
  have hsplit := List.takeWhile_append_dropWhile (p := fun a : Attempt => a.2) (l := session)
  have hhead := List.head?_dropWhile_not (fun a : Attempt => a.2) session
  unfold gapless at h
  cases hdrop : session.dropWhile (·.2) with
  | nil =>
    rw [hdrop] at h
    cases h
  | cons a rest =>
    rw [hdrop] at h hhead hsplit
    have hlost : a.2 = false := hhead
    refine ⟨a.1, rest, ?_, ?_⟩
    · rw [← hlost]
      exact hsplit.symm
    · rwa [List.all_cons, hlost, Bool.not_false, Bool.true_and] at h

section Session

variable {f : Option Bytes} (hf : Started f) {session : List Attempt}
  (hv : ∀ a ∈ session, ∀ s ∈ a.1.strings, valid s = true)
include hf hv

/-- What the session leaves is complete lines, which decode to what the file had and what was written. -/
theorem decode_session :
    let data := (runLog (newLogger f) (session.map Attempt.op)).file.getD []
    Terminated data ∧ Decode (recordLines data) (fileEntries f ++ keptEntries (startHash f) session) := by
  intro data
  have hdata : data = f.getD [] ++ unlines ((keptEntries (startHash f) session).map marshal) := by
    have hstart : (newLogger f).lastHash = startHash f := (runInv_start hf).lastHash
    exact hstart ▸ runLog_file session (newLogger f)
  have hcoerce : (keptEntries (startHash f) session).map Entry.coerce = keptEntries (startHash f) session := by
    have hchain := chainEntries_coerce (calls_valid hv) hf.startHash_link
    rw [← List.map_id (chainEntries _ _), List.map_map, List.map_inj_left] at hchain
    exact List.map_congr_left (fun e he => hchain e (keptEntries_subset session _ e he)) |>.trans (List.map_id _)
  have hwritten := decode_marshal (keptEntries (startHash f) session)
  rw [hcoerce] at hwritten
  rw [hdata]
  refine ⟨terminated_append_unlines hf.terminated _, ?_⟩
  rw [recordLines_append_marshal hf.terminated]
  exact hf.accepted.decode.append hwritten

/-- Without a gap the next session starts from a chain. -/
theorem started_session (hg : gapless session = true) :
    let f' := (runLog (newLogger f) (session.map Attempt.op)).file
    Started f' ∧ (fileEntries f').length = (fileEntries f).length + (session.takeWhile (·.2)).length := by
  intro f'
  obtain ⟨hterminated, hdecode⟩ := decode_session hf hv
  have hkept : keptEntries (startHash f) session =
      chainEntries (startHash f) ((session.takeWhile (·.2)).map Prod.fst) := by
    have hall : keptEntries (tip chain (startHash f) (chainEntries (startHash f)
        ((session.takeWhile (·.2)).map Prod.fst))) (session.dropWhile (·.2)) = [] := keptEntries_eq_nil.2 hg
    have hsplit := keptEntries_takeWhile session (session.dropWhile (·.2)) (startHash f)
    rwa [List.takeWhile_append_dropWhile, hall, List.append_nil] at hsplit
  rw [hkept] at hdecode
  have hentries : fileEntries f' = fileEntries f ++ chainEntries (startHash f) ((session.takeWhile (·.2)).map Prod.fst) :=
    hdecode.entries
  refine ⟨⟨hterminated, ?_⟩, ?_⟩
  · rw [hentries]
    exact ⟨hdecode, hf.linked _, hf.sealed _⟩
  · rw [hentries, List.length_append, length_chainEntries, List.length_map]

/-- A gap is where verification stops. -/
theorem refused_session (hg : gapless session = false)
    (hc : NoCollision (hashedStrings f (session.map Attempt.op))) :
    let data := (runLog (newLogger f) (session.map Attempt.op)).file.getD []
    Terminated data ∧ (verifyChain (some data)).1 = false ∧
      (verifyChain (some data)).2.1 = (fileEntries f).length + (session.takeWhile (·.2)).length ∧
      ∀ err, (verifyChain (some data)).2.2 = some err → ∃ k expected got, err = .broken k expected got := by
  intro data
  obtain ⟨hterminated, hdecode⟩ := decode_session hf hv
  have hbroken : ∀ err, (verifyChain (some data)).2.2 = some err → ∃ k expected got, err = .broken k expected got := by
    intro err herr
    rw [verifyChain_eq] at herr
    refine verifyLines_sealed (nil_not_mem_recordLines data) hdecode (fun e he => ?_) herr
    rcases List.mem_append.1 he with he | he
    · exact hf.accepted.sealed e he
    · exact sealed_chainEntries _ _ e (keptEntries_subset session _ e he)
  obtain ⟨lost, rest, hsession, hrest⟩ := gap_of_not_gapless hg
  generalize hoks : session.takeWhile (·.2) = oks at *
  have hops : (session.map Attempt.op).map Prod.fst = session.map Prod.fst := by rw [List.map_map]; rfl
  -- the chain that the hashes in memory make, the lost entry included
  let as := fileEntries f ++ chainEntries (startHash f) (oks.map Prod.fst)
  let g := tip chain (startHash f) (chainEntries (startHash f) (oks.map Prod.fst))
  have hall : fileEntries f ++ chainEntries (startHash f) (session.map Prod.fst) =
      as ++ newEntry g lost :: chainEntries (newEntry g lost).hash (rest.map Prod.fst) := by
    rw [hsession, List.map_append, chainEntries_append, List.map_cons, chainEntries, ← List.append_assoc]
  have hkept : keptEntries (startHash f) session =
      chainEntries (startHash f) (oks.map Prod.fst) ++ keptEntries (newEntry g lost).hash rest := by
    have hsplit := keptEntries_takeWhile session ((lost, false) :: rest) (startHash f)
    rw [hoks, ← hsession] at hsplit
    exact hsplit
  have hlinked := hf.linked (session.map Prod.fst)
  have hsealed := hf.sealed (session.map Prod.fst)
  have hdet : Determined chain (fileEntries f ++ chainEntries (startHash f) (session.map Prod.fst))
      (fileEntries f ++ chainEntries (startHash f) (session.map Prod.fst)) := by
    rw [hashedStrings, hops] at hc
    exact hc.determined_self (linked_prev (sealed_digest hsealed) (.inl rfl) hlinked)
  rw [hall] at hlinked hsealed hdet
  have haccepted := accepted_of_gap hlinked hsealed hdet (sealed_fresh _) (keptEntries_subset rest (newEntry g lost).hash)
  obtain ⟨hcount, hok⟩ := verifyLines_spec (nil_not_mem_recordLines data) hdecode genesis 0
  rw [hkept, ← List.append_assoc] at hcount hok
  rw [show accepted chain genesis (as ++ _) = as.length from haccepted] at hcount hok
  have hlength : as.length = (fileEntries f).length + oks.length := by
    rw [List.length_append, length_chainEntries, List.length_map]
  rw [← verifyChain_eq] at hcount hok
  refine ⟨hterminated, ?_, by rw [hcount, hlength, Nat.zero_add], hbroken⟩
  rw [← Bool.not_eq_true, hok]
  have hwritten : (keptEntries (newEntry g lost).hash rest).length ≠ 0 := by
    rw [Ne, List.length_eq_zero_iff, keptEntries_eq_nil, hrest]
    exact Bool.false_ne_true
  simp only [as, List.length_append]
  omega

end Session

theorem grows_runLog (ops : List (LogCall × WriteResult)) (l : Logger) : Grows l (runLog l ops) := by
  have hone : ∀ (op : LogCall × WriteResult) (l : Logger), Grows l (log op.1 op.2 l).2 := by
    rintro ⟨c, io⟩ l data hdata
    cases io with
    | ok => exact ⟨marshal (newEntry l.lastHash c) ++ [0x0A], by simp only [log, hdata, Option.getD_some,
        List.append_assoc]⟩
    | openFailed => exact ⟨[], by rw [List.append_nil]; exact hdata⟩
    | writeFailed n => exact ⟨_, by simp only [log, hdata, Option.getD_some]; rfl⟩
  induction ops generalizing l with
  | nil => exact Grows.refl l
  | cons op ops ih => exact (hone op l).trans (ih _)

theorem prefix_runSessions : ∀ (sessions : List (List Attempt)) {data data' : Bytes},
    runSessions (some data) sessions = some data' → data <+: data'
  | [], data, data', h => by
    cases h
    exact List.prefix_refl _
  | session :: sessions, data, data', h => by
    obtain ⟨rest, hrest⟩ := grows_runLog (session.map Attempt.op) (newLogger (some data)) data rfl
    rw [runSessions, hrest] at h
    exact (List.prefix_append _ _).trans (prefix_runSessions sessions h)

theorem verdict_of_started : ∀ {sessions : List (List Attempt)} {f : Option Bytes}, Started f →
    (∀ session ∈ sessions, ∀ a ∈ session, ∀ s ∈ a.1.strings, valid s = true) →
    NoCollision (sessionStrings f sessions) → ∀ {data : Bytes}, runSessions f sessions = some data →
      ((verifyChain (some data)).1 = true ↔ ∀ session ∈ sessions, gapless session = true) ∧
      (verifyChain (some data)).2.1 = (fileEntries f).length + beforeGap sessions ∧
      ∀ err, (verifyChain (some data)).2.2 = some err → ∃ k expected got, err = .broken k expected got
  | [], f, hf, _, _, data, hdata => by
    obtain rfl : f = some data := hdata
    have hverified : verifyChain (some data) = (true, (fileEntries (some data)).length, none) :=
      verifyChain_of_accepted hf.accepted
    rw [hverified]
    exact ⟨⟨fun _ => nofun, fun _ => rfl⟩, rfl, nofun⟩
  | session :: sessions, f, hf, hv, hc, data, hdata => by
    obtain ⟨hv, hvs⟩ := List.forall_mem_cons.1 hv
    have hcs : NoCollision (sessionStrings (runLog (newLogger f) (session.map Attempt.op)).file sessions) :=
      hc.mono (List.subset_append_right _ _)
    rw [List.forall_mem_cons, beforeGap]
    cases hg : gapless session with
    | true =>
      obtain ⟨hf', hlength⟩ := started_session hf hv hg
      obtain ⟨hok, hcount, herr⟩ := verdict_of_started hf' hvs hcs hdata
      refine ⟨hok.trans (and_iff_right rfl).symm, ?_, herr⟩
      rw [hcount, hlength, if_pos rfl, Nat.add_assoc]
    | false =>
      obtain ⟨hterminated, hrefused, hcount, herr⟩ := refused_session hf hv hg (hc.mono (List.subset_append_left _ _))
      -- the later sessions write behind the gap
      have hsame : verifyChain (some data) =
          verifyChain (some ((runLog (newLogger f) (session.map Attempt.op)).file.getD [])) := by
        refine (kept_of_beginning hterminated ?_).refused hrefused
        rw [runSessions] at hdata
        cases hfile : (runLog (newLogger f) (session.map Attempt.op)).file with
        | none => exact List.nil_prefix
        | some data' =>
          rw [hfile] at hdata
          exact prefix_runSessions sessions hdata
      rw [hsame, hrefused, hcount]
      refine ⟨⟨fun h => absurd h Bool.false_ne_true, fun h => absurd h.1 Bool.false_ne_true⟩, ?_, herr⟩
      rw [if_neg Bool.false_ne_true, Nat.add_zero]

/-- What verification says after any number of sessions in which some calls could not open the file. It accepts
exactly when in no session a call found the file again after one that did not; else it stops at the first entry that
was written after a gap, with the entries before it counted, for the hash that the entry names, however much was
written since. -/
theorem verdict_of_sessions {f : Option Bytes} {n : Nat} (hf : StartFile f n) {sessions : List (List Attempt)}
    (hv : ∀ session ∈ sessions, ∀ a ∈ session, ∀ s ∈ a.1.strings, valid s = true)
    (hc : NoCollision (sessionStrings f sessions)) {data : Bytes} (hdata : runSessions f sessions = some data) :
    ((verifyChain (some data)).1 = true ↔ ∀ session ∈ sessions, gapless session = true) ∧
    (verifyChain (some data)).2.1 = n + beforeGap sessions ∧
    ∀ err, (verifyChain (some data)).2.2 = some err →
      ∃ expected got, err = .broken (n + beforeGap sessions + 1) expected got := by
  obtain ⟨hstarted, rfl⟩ := hf.started
  obtain ⟨hok, hcount, herr⟩ := verdict_of_started hstarted hv hc hdata
  refine ⟨hok, hcount, fun err h => ?_⟩
  obtain ⟨k, expected, got, rfl⟩ := herr err h
  have hline : k = _ + 1 := verifyLines_line h
  refine ⟨expected, got, ?_⟩
  rw [hline]
  exact congrArg (fun m => VerifyError.broken (m + 1) expected got) hcount

/-- A call that could not open the file, and the same again after a restart. -/
theorem verdict_of_sessions_retried : ∃ data,
    runSessions none [[(execCall (lit "ls") (lit "/bin/ls"), false)], [(execCall (lit "ls") (lit "/bin/ls"), true)]] =
      some data ∧ (verifyChain (some data)).1 = true ∧ (verifyChain (some data)).2.1 = 1 := by
  have hvalid : ∀ s ∈ (execCall (lit "ls") (lit "/bin/ls")).strings, valid s = true := by decide
  generalize execCall (lit "ls") (lit "/bin/ls") = call at *
  have hdata : runSessions none [[(call, false)], [(call, true)]] =
      some ([] ++ marshal (newEntry genesis call) ++ [0x0A]) := rfl
  have hstrings : sessionStrings none [[(call, false)], [(call, true)]] =
      [hashInput (newEntry genesis call), hashInput (newEntry genesis call)] := rfl
  have hc : NoCollision (sessionStrings none [[(call, false)], [(call, true)]]) := by
    rw [hstrings]
    intro a ha b hb _
    simp only [List.mem_cons, List.not_mem_nil, or_false, or_self] at ha hb
    rw [ha, hb]
  have hv : ∀ session ∈ [[(call, false)], [(call, true)]], ∀ a ∈ session, ∀ s ∈ a.1.strings, valid s = true := by
    simp only [List.forall_mem_cons, List.not_mem_nil, false_implies, implies_true, and_true]
    exact ⟨hvalid, hvalid⟩
  obtain ⟨hok, hcount, -⟩ := verdict_of_sessions (.inl ⟨rfl, rfl⟩) hv hc hdata
  exact ⟨_, hdata, hok.2 (by simp [gapless]), hcount⟩

end WatchBPF.Audit
