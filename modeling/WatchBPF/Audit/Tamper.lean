/-
What the chain protects against. An accepted file commits to the hashed strings of its entries, hence
to the entries only as far as the separators in their fields are in the same places; and of its
whole lines only leading ones make an accepted file.
-/
import WatchBPF.Audit.Run

namespace WatchBPF.Audit

open WatchBPF.HashChain WatchBPF.Numeral WatchBPF.Sha256

/-- No two different strings of the list have one SHA-256 digest. -/
def NoCollision (ss : List Bytes) : Prop := ∀ a ∈ ss, ∀ b ∈ ss, sum256 a = sum256 b → a = b

theorem NoCollision.mono {ss ts : List Bytes} (h : NoCollision ts) (hs : ss ⊆ ts) : NoCollision ss :=
  fun a ha b hb => h a (hs ha) b (hs hb)

/-! ## Hashed strings -/

/-- What is hashed before the last operand. -/
def hashHead (e : Entry) : Bytes := [0x7C].intercalate (hashOperands e).dropLast

theorem hashInput_eq (e : Entry) : hashInput e = hashHead e ++ 0x7C :: e.prevHash := by
  simp [hashInput, hashHead, hashOperands]

/-- A hashed string tells the hash before it. -/
theorem prevHash_of_hashInput {e f : Entry} (he : Link e.prevHash) (hf : Link f.prevHash)
    (h : hashInput e = hashInput f) : e.prevHash = f.prevHash := by
  rw [hashInput_eq, hashInput_eq] at h
  exact (append_sep_inj_right h he.noBar hf.noBar).2

/-- Without collisions a hash determines the hash before it. -/
theorem NoCollision.determined {es fs : List Entry} (h : NoCollision ((es ++ fs).map hashInput))
    (he : ∀ e ∈ es, Link e.prevHash) (hf : ∀ f ∈ fs, Link f.prevHash) : Determined chain es fs := by
  intro a ha b hb hab
  refine prevHash_of_hashInput (he a ha) (hf b hb) (h _ ?_ _ ?_ (computeHash_eq_iff.1 hab))
  · exact List.mem_map_of_mem (List.mem_append_left _ ha)
  · exact List.mem_map_of_mem (List.mem_append_right _ hb)

theorem NoCollision.determined_self {es : List Entry} (h : NoCollision (es.map hashInput))
    (he : ∀ e ∈ es, Link e.prevHash) : Determined chain es es :=
  NoCollision.determined (h.mono (by simp)) he he

theorem Accepted.links {data : Bytes} {es : List Entry} (h : Accepted data es) : ∀ e ∈ es, Link e.prevHash :=
  linked_prev (sealed_digest h.sealed) (.inl rfl) h.linked

/-! ## Commitment -/

/-- The fields of an entry that are text. -/
def Entry.texts (e : Entry) : List Bytes :=
  [e.timestamp, e.eventType, e.comm, e.detail, e.tier, e.reason, e.actionTaken]

/-- Each text field of one has as many `|` as that of the other. -/
def SameBars (a b : Entry) : Prop := a.texts.map (List.count 0x7C) = b.texts.map (List.count 0x7C)

theorem itoa_inj {m n : Nat} (h : itoa m = itoa n) : m = n := by
  have hm : parseUint (max m n) (itoa m) = some m := parseUint_itoa (le_max_left m n)
  rw [h, parseUint_itoa (le_max_right m n)] at hm
  exact (Option.some.inj hm).symm

theorem formatInt_toInt_inj {m n : Int64} (h : formatInt m.toInt = formatInt n.toInt) : m = n := by
  have hm := parseInt_formatInt (Int64.le_toInt m) (Int64.toInt_lt m)
  rw [h, parseInt_formatInt (Int64.le_toInt n) (Int64.toInt_lt n)] at hm
  exact Int64.toInt_inj.1 (Option.some.inj hm).symm

theorem count_bar_formatInt (n : Int) : (formatInt n).count 0x7C = 0 :=
  List.count_eq_zero_of_not_mem (not_mem_formatInt_of_gt n (by decide))

theorem formatInt_natCast (n : Nat) : formatInt n = itoa n := by
  rw [formatInt, if_neg (by omega), Int.natAbs_natCast]

/-- One hashed string and equally many separators: the same entry, up to its own hash. -/
theorem eq_of_hashInput {a b : Entry} (ha : Link a.prevHash) (hb : Link b.prevHash) (hbars : SameBars a b)
    (h : hashInput a = hashInput b) (hh : a.hash = b.hash) : a = b := by
  have hi : ∀ n : Nat, (itoa n).count 0x7C = 0 := fun n => formatInt_natCast n ▸ count_bar_formatInt n
  have hops : hashOperands a = hashOperands b := by
    refine intercalate_inj ?_ h
    simp only [SameBars, Entry.texts, List.map_cons, List.map_nil, List.cons.injEq, and_true] at hbars
    obtain ⟨h1, h2, h3, h4, h5, h6, h7⟩ := hbars
    have hp : a.prevHash.count 0x7C = b.prevHash.count 0x7C := by
      rw [List.count_eq_zero_of_not_mem ha.noBar, List.count_eq_zero_of_not_mem hb.noBar]
    exact .cons h1 (.cons h2 (.cons h3 (.cons h4 (.cons (by rw [hi, hi]) (.cons (by
      rw [count_bar_formatInt, count_bar_formatInt]) (.cons h5 (.cons h6 (.cons h7 (.cons hp .nil)))))))))
  simp only [hashOperands, List.cons.injEq, and_true] at hops
  obtain ⟨h1, h2, h3, h4, h5, h6, h7, h8, h9, h10⟩ := hops
  have h5 : a.pid = b.pid := UInt32.toNat_inj.1 (itoa_inj h5)
  have h6 : a.threatScore = b.threatScore := formatInt_toInt_inj h6
  cases a; cases b
  simp_all

/-- Files with one last hash hash the same strings, entry by entry. -/
theorem forall₂_hashInput {d₁ d₂ : Bytes} {es fs : List Entry} (h₁ : Accepted d₁ es) (h₂ : Accepted d₂ fs)
    (hlast : es.getLast?.map Entry.hash = fs.getLast?.map Entry.hash)
    (hc : NoCollision ((es ++ fs).map hashInput)) :
    List.Forall₂ (fun a b => hashInput a = hashInput b ∧ a.hash = b.hash) es fs := by
  have htip : tip chain genesis es = tip chain genesis fs := by
    rw [tip_eq_getLast?, tip_eq_getLast?]
    exact congrArg (Option.getD · genesis) hlast
  have hdig := forall₂_digest_of_tip h₁.linked h₁.sealed h₂.linked h₂.sealed
    (hc.determined h₁.links h₂.links) (sealed_fresh es) (sealed_fresh fs) htip
  refine (List.forall₂_iff_get.2 ⟨hdig.length_eq, fun i hi hj => ?_⟩)
  have hab := (List.forall₂_iff_get.1 hdig).2 i hi hj
  have ma : es.get ⟨i, hi⟩ ∈ es := List.get_mem _ _
  have mb : fs.get ⟨i, hj⟩ ∈ fs := List.get_mem _ _
  refine ⟨hc _ ?_ _ ?_ (computeHash_eq_iff.1 hab), ?_⟩
  · exact List.mem_map_of_mem (List.mem_append_left _ ma)
  · exact List.mem_map_of_mem (List.mem_append_right _ mb)
  · have h1 := h₁.sealed _ ma
    have h2 := h₂.sealed _ mb
    rw [chain_link] at h1 h2
    rw [← h1, ← h2, hab]

/-- Two accepted files with one last hash have the same entries exactly when, entry by entry, their
text fields have equally many separators. -/
theorem entries_eq_iff_sameBars {d₁ d₂ : Bytes} (h₁ : (verifyChain (some d₁)).1 = true)
    (h₂ : (verifyChain (some d₂)).1 = true)
    (hlast : (entries d₁).getLast?.map Entry.hash = (entries d₂).getLast?.map Entry.hash)
    (hc : NoCollision ((entries d₁ ++ entries d₂).map hashInput)) :
    entries d₁ = entries d₂ ↔
      ∀ (i : Nat) (a b : Entry), (entries d₁)[i]? = some a → (entries d₂)[i]? = some b → SameBars a b := by
  have a₁ := accepted_of_verifyChain h₁
  have a₂ := accepted_of_verifyChain h₂
  constructor
  · intro h i a b ha hb
    rw [h, hb] at ha
    obtain rfl : b = a := by simpa using ha
    rfl
  · intro hbars
    have hall := forall₂_hashInput a₁ a₂ hlast hc
    refine List.ext_getElem? fun i => ?_
    rcases lt_or_ge i (entries d₁).length with hi | hi
    · have hj : i < (entries d₂).length := hall.length_eq ▸ hi
      obtain ⟨h, hh⟩ := (List.forall₂_iff_get.1 hall).2 i hi hj
      have ha : (entries d₁)[i]? = some ((entries d₁).get ⟨i, hi⟩) := by simp [hi]
      have hb : (entries d₂)[i]? = some ((entries d₂).get ⟨i, hj⟩) := by simp [hj]
      rw [ha, hb, eq_of_hashInput (a₁.links _ (List.get_mem _ _)) (a₂.links _ (List.get_mem _ _))
        (hbars i _ _ ha hb) h hh]
    · rw [List.getElem?_eq_none hi, List.getElem?_eq_none (hall.length_eq ▸ hi)]

/-- The file of two calls, the first on a process of that name. -/
def twoCalls (comm detail : Bytes) : Bytes :=
  unlines ((chainEntries genesis [execCall comm detail, execCall (lit "ls") (lit "/bin/ls")]).map marshal)

theorem accepted_twoCalls {comm detail : Bytes} (hc : Utf8.valid comm = true) (hd : Utf8.valid detail = true) :
    Accepted (twoCalls comm detail)
      (chainEntries genesis [execCall comm detail, execCall (lit "ls") (lit "/bin/ls")]) := by
  refine accepted_new fun c hm => ?_
  rcases List.mem_pair.1 hm with rfl | rfl
  · have h1 : ∀ s ∈ [lit "EXEC", lit "log", lit "threshold-based decision"], Utf8.valid s = true := by decide
    simp_all [LogCall.strings, execCall]
  · decide

/-- The bar in the command stands for the separator. -/
theorem hashInput_shifted : hashInput (newEntry genesis (execCall (lit "a|b") (lit "c"))) =
    hashInput (newEntry genesis (execCall (lit "a") (lit "b|c"))) := by
  decide +kernel

theorem sum256_ne_shifted :
    sum256 (hashInput (newEntry genesis (execCall (lit "a") (lit "b|c")))) ≠
      sum256 (hashInput (newEntry (newEntry genesis (execCall (lit "a") (lit "b|c"))).hash
        (execCall (lit "ls") (lit "/bin/ls")))) := by
  decide +kernel

/-- Moving the bar to the next field changes the first entry's text, not its hash. -/
theorem chainEntries_shifted :
    chainEntries genesis [execCall (lit "a|b") (lit "c"), execCall (lit "ls") (lit "/bin/ls")] =
      newEntry genesis (execCall (lit "a|b") (lit "c")) ::
        (chainEntries genesis [execCall (lit "a") (lit "b|c"), execCall (lit "ls") (lit "/bin/ls")]).tail := by
  have hh : (newEntry genesis (execCall (lit "a|b") (lit "c"))).hash =
      (newEntry genesis (execCall (lit "a") (lit "b|c"))).hash := computeHash_congr hashInput_shifted
  simp only [chainEntries, hh, List.tail_cons]

theorem noCollision_shifted : NoCollision ((entries (twoCalls (lit "a|b") (lit "c")) ++
    entries (twoCalls (lit "a") (lit "b|c"))).map hashInput) := by
  have hne := sum256_ne_shifted
  rw [(accepted_twoCalls (by decide) (by decide)).decode.entries,
    (accepted_twoCalls (by decide) (by decide)).decode.entries, chainEntries_shifted]
  simp only [NoCollision, chainEntries, List.tail_cons, List.cons_append, List.nil_append, List.map_cons,
    List.map_nil, hashInput_shifted, List.forall_mem_cons, List.not_mem_nil, false_implies, implies_true, and_true]
  simp [hne, hne.symm]

theorem last_shifted : (entries (twoCalls (lit "a|b") (lit "c"))).getLast?.map Entry.hash =
    (entries (twoCalls (lit "a") (lit "b|c"))).getLast?.map Entry.hash := by
  rw [(accepted_twoCalls (by decide) (by decide)).decode.entries,
    (accepted_twoCalls (by decide) (by decide)).decode.entries, chainEntries_shifted]
  rfl

theorem verifyChain_twoCalls {comm detail : Bytes} (hc : Utf8.valid comm = true) (hd : Utf8.valid detail = true) :
    verifyChain (some (twoCalls comm detail)) = (true, 2, none) :=
  verifyChain_of_accepted (accepted_twoCalls hc hd)

/-- Two files with other first entries and the same later line, both accepted. -/
theorem shifted_accepted :
    verifyChain (some (twoCalls (lit "a|b") (lit "c"))) = (true, 2, none) ∧
    verifyChain (some (twoCalls (lit "a") (lit "b|c"))) = (true, 2, none) ∧
    (entries (twoCalls (lit "a|b") (lit "c"))).getLast?.map Entry.hash =
      (entries (twoCalls (lit "a") (lit "b|c"))).getLast?.map Entry.hash ∧
    NoCollision ((entries (twoCalls (lit "a|b") (lit "c")) ++ entries (twoCalls (lit "a") (lit "b|c"))).map hashInput) ∧
    (entries (twoCalls (lit "a|b") (lit "c"))).tail = (entries (twoCalls (lit "a") (lit "b|c"))).tail ∧
    entries (twoCalls (lit "a|b") (lit "c")) ≠ entries (twoCalls (lit "a") (lit "b|c")) := by
  refine ⟨verifyChain_twoCalls (by decide) (by decide), verifyChain_twoCalls (by decide) (by decide),
    last_shifted, noCollision_shifted, ?_, ?_⟩
  · rw [(accepted_twoCalls (by decide) (by decide)).decode.entries,
      (accepted_twoCalls (by decide) (by decide)).decode.entries, chainEntries_shifted, List.tail_cons]
  · rw [(accepted_twoCalls (by decide) (by decide)).decode.entries,
      (accepted_twoCalls (by decide) (by decide)).decode.entries]
    intro h
    have hcomm : lit "a|b" = lit "a" := congrArg Entry.comm (List.cons.inj h).1
    exact absurd hcomm (by decide)

theorem entries_eq_iff_sameBars_shifted :
    entries (twoCalls (lit "a|b") (lit "c")) = entries (twoCalls (lit "a") (lit "b|c")) ↔
      ∀ (i : Nat) (a b : Entry), (entries (twoCalls (lit "a|b") (lit "c")))[i]? = some a →
        (entries (twoCalls (lit "a") (lit "b|c")))[i]? = some b → SameBars a b :=
  entries_eq_iff_sameBars (by rw [verifyChain_twoCalls (by decide) (by decide)])
    (by rw [verifyChain_twoCalls (by decide) (by decide)]) last_shifted noCollision_shifted

/-! ## Rearranged lines -/

/-- Without collisions the lines of an accepted file decode to different entries. -/
theorem Decode.inj {lines : List Bytes} {es : List Entry} (hd : Decode lines es) (hn : es.Nodup) :
    ∀ a ∈ lines, ∀ b ∈ lines, unmarshal a = unmarshal b → a = b := by
  have hmap : (lines.map unmarshal).Nodup := by
    rw [hd]; exact hn.map fun _ _ h => Option.some.inj h
  intro a ha b hb h
  exact List.inj_on_of_nodup_map hmap ha hb h

theorem Accepted.nodup {data : Bytes} {es : List Entry} (h : Accepted data es)
    (hc : NoCollision (es.map hashInput)) : es.Nodup := by
  rw [List.nodup_iff_getElem?_ne_getElem?]
  intro i j hij hj he
  obtain ⟨b, hb⟩ : ∃ b, es[j]? = some b := ⟨_, List.getElem?_eq_getElem hj⟩
  exact link_ne_of_lt h.linked h.sealed (hc.determined_self h.links) (sealed_fresh es) hij (he.trans hb) hb rfl

/-- Whole lines of an accepted file, in any order and number, are accepted exactly when they are its
leading lines; the count returned is that of the leading lines they agree with. -/
theorem verifyChain_rearranged {data : Bytes} (h : (verifyChain (some data)).1 = true)
    (hc : NoCollision ((entries data).map hashInput)) {data' : Bytes}
    (hm : ∀ l ∈ recordLines data', l ∈ recordLines data) :
    ((verifyChain (some data')).1 = true ↔ recordLines data' <+: recordLines data) ∧
      (verifyChain (some data')).2.1 = (commonPrefix (recordLines data') (recordLines data)).length := by
  have ha := accepted_of_verifyChain h
  have hinj := ha.decode.inj (ha.nodup hc)
  -- every line of the new file decodes to an entry of the old one
  have hmem : ∀ l ∈ recordLines data', ∃ e ∈ entries data, unmarshal l = some e := by
    intro l hl
    have : unmarshal l ∈ (entries data).map some := ha.decode ▸ List.mem_map_of_mem (hm l hl)
    obtain ⟨e, he, heq⟩ := List.mem_map.1 this
    exact ⟨e, he, heq.symm⟩
  have hdec : Decode (recordLines data') (entries data') := by
    rw [Decode, entries, List.map_filterMap_some_eq_filter_map_isSome]
    refine (List.filter_eq_self.2 fun o ho => ?_).symm
    obtain ⟨l, hl, rfl⟩ := List.mem_map.1 ho
    obtain ⟨e, -, he⟩ := hmem l hl
    rw [he]; rfl
  have hmem' : ∀ m ∈ entries data', m ∈ entries data := by
    intro m hm'
    obtain ⟨l, hl, he⟩ := List.mem_filterMap.1 hm'
    obtain ⟨e, hee, he'⟩ := hmem l hl
    rw [he] at he'
    exact Option.some.inj he' ▸ hee
  obtain ⟨hcount, hok⟩ := verifyLines_spec (nil_not_mem_recordLines data') hdec genesis 0
  have hacc := accepted_eq_commonPrefix ha.linked ha.sealed (hc.determined_self ha.links) (sealed_fresh _) hmem'
  have hlen : (commonPrefix (entries data') (entries data)).length =
      (commonPrefix (recordLines data') (recordLines data)).length := by
    have h1 : commonPrefix ((entries data').map some) ((entries data).map some) =
        (commonPrefix (entries data') (entries data)).map some :=
      commonPrefix_map fun _ _ _ _ he => Option.some.inj he
    have h2 : commonPrefix ((recordLines data').map unmarshal) ((recordLines data).map unmarshal) =
        (commonPrefix (recordLines data') (recordLines data)).map unmarshal :=
      commonPrefix_map fun a ha' b hb => hinj a (hm a ha') b hb
    rw [← hdec, ← ha.decode, h2] at h1
    simpa using (congrArg List.length h1).symm
  rw [chain_genesis, hlen] at hacc
  rw [hacc] at hcount hok
  rw [verifyChain_eq]
  refine ⟨?_, by rw [hcount, Nat.zero_add]⟩
  have hl : (entries data').length = (recordLines data').length := by simpa using (congrArg List.length hdec).symm
  rw [hok, hl, ← commonPrefix_eq_left_iff]
  refine ⟨fun he => ?_, fun he => by rw [he]⟩
  exact (prefix_commonPrefix_iff.1 (List.prefix_refl _)).1.eq_of_length he

/-- A line given twice is refused where it repeats. -/
theorem verifyChain_repeated :
    let line := marshal (newEntry genesis (execCall (lit "ls") (lit "/bin/ls")))
    (verifyChain (some (unlines [line, line]))).1 = false ∧ (verifyChain (some (unlines [line, line]))).2.1 = 1 := by
  intro line
  have hacc : Accepted (unlines [line]) [newEntry genesis (execCall (lit "ls") (lit "/bin/ls"))] :=
    @accepted_new [execCall (lit "ls") (lit "/bin/ls")] (by decide)
  have hnl : (0x0A : UInt8) ∉ line := newline_not_mem_marshal _
  have hne : line ≠ [] := marshal_ne_nil _
  clear_value line
  have hlines : ∀ ls : List Bytes, (∀ l ∈ ls, l = line) → recordLines (unlines ls) = ls := fun ls hl =>
    @recordLines_append_unlines [] (.inl rfl) ls (fun l hm => hl l hm ▸ hnl) fun l hm => hl l hm ▸ hne
  have hc : NoCollision ((entries (unlines [line])).map hashInput) := by
    rw [hacc.decode.entries]
    simp [NoCollision]
  have h1 := hlines [line] (by simp)
  have h2 := hlines [line, line] (by simp)
  obtain ⟨hok, hcount⟩ := @verifyChain_rearranged _ (by rw [verifyChain_of_accepted hacc]) hc
    (unlines [line, line]) (by rw [h1, h2]; simp)
  rw [h1, h2] at hok hcount
  refine ⟨?_, by rw [hcount]; simp [commonPrefix]⟩
  rw [← Bool.not_eq_true, hok]
  simp

end WatchBPF.Audit
