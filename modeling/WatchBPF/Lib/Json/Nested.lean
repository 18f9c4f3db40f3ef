/-
`json.Unmarshal` into nested Go values, by a decoder for each type: strings, structs, and slices, whose elements
are decoded over what the backing array already holds. Members that no field names are skipped, and a string that
comes out of a decoder came in with the JSON value.
-/
import WatchBPF.Lib.Json.Doc
import WatchBPF.Lib.Json.Struct
import WatchBPF.Lib.Slice

namespace WatchBPF.Json

open WatchBPF.Utf8

/-! ## Decoders -/

/-- A value decoded into a variable, given what it holds; `none` on a type error. -/
abbrev Decoder (α : Type) := Value → α → Option α

def decodeString : Decoder Bytes
  | .str s, _ => some s
  | .null, s => some s
  | _, _ => none

/-- A field of a struct, by its name. -/
structure Member (σ : Type) where
  name : Bytes
  decode : Decoder σ

variable {σ α : Type}

/-- A field with its accessors and the decoder of its type. -/
def Member.of (name : Bytes) (get : σ → α) (put : α → σ → σ) (dec : Decoder α) : Member σ where
  name := name
  decode v s := (dec v (get s)).map (put · s)

/-- The field a key names: exactly, or else up to case. -/
def findMember (fs : List (Member σ)) (k : Bytes) : Option (Member σ) :=
  (fs.find? fun f => f.name == k).or (fs.find? fun f => foldName f.name == foldName k)

def decodeMember (fs : List (Member σ)) (s : σ) (m : Bytes × Value) : Option σ :=
  match findMember fs m.1 with
  | some f => f.decode m.2 s
  | none => some s

def decodeObject (fs : List (Member σ)) : Decoder σ
  | .null, s => some s
  | .obj ms, s => ms.foldlM (decodeMember fs) s
  | _, _ => none

/-- The elements, each decoded over what the backing array holds at its place. -/
def decodeElems (dec : Decoder α) (zero : α) : List Value → List α → Option (List α)
  | [], array => some array
  | v :: vs, array => do
    let a ← dec v (array.headD zero)
    let array ← decodeElems dec zero vs array.tail
    some (a :: array)

theorem length_decodeElems {dec : Decoder α} {zero : α} : ∀ {vs : List Value} {array array' : List α},
    decodeElems dec zero vs array = some array' → vs.length ≤ array'.length
  | [], _, _, _ => Nat.zero_le _
  | v :: vs, array, array', h => by
    simp only [decodeElems, Option.bind_eq_bind, Option.bind_eq_some_iff, Option.some.injEq] at h
    obtain ⟨a, -, rest, hrest, rfl⟩ := h
    exact Nat.succ_le_succ (length_decodeElems hrest)

/-- A slice keeps its backing array, except that `null` and `[]` leave an empty one. -/
def decodeSlice (dec : Decoder α) (zero : α) : Decoder (Slice α)
  | .null, _ => some .nil
  | .arr [], _ => some .nil
  | .arr (v :: vs), s =>
    match h : decodeElems dec zero (v :: vs) s.array with
    | none => none
    | some array => some ⟨array, (v :: vs).length, length_decodeElems h⟩
  | _, _ => none

/-- `json.Unmarshal` into a variable that holds `zero`; `none` where it returns an error. -/
def unmarshal (dec : Decoder α) (zero : α) (data : Bytes) : Option α := (parse data).bind fun v => dec v zero

/-! ## Flat structs -/

def Field.member (f : Field σ) : Member σ where
  name := f.name
  decode := f.kind.set

theorem findMember_map (fs : List (Field σ)) (k : Bytes) :
    findMember (fs.map Field.member) k = (findField fs k).map Field.member := by
  unfold findMember findField
  rw [List.find?_map, List.find?_map, Option.map_or]
  rfl

/-- The decoder of a flat struct. -/
theorem decodeObject_map (fs : List (Field σ)) (v : Value) (s : σ) :
    decodeObject (fs.map Field.member) v s = decodeStruct fs s v := by
  have hmember : decodeMember (fs.map Field.member) = setMember fs := by
    funext s m
    rw [decodeMember, setMember, findMember_map]
    cases findField fs m.1 with
    | none => rfl
    | some f => rfl
  cases v with
  | obj ms => rw [decodeObject, decodeStruct, hmember]
  | _ => rfl

theorem unmarshal_map (fs : List (Field σ)) (zero : σ) (data : Bytes) :
    unmarshal (decodeObject (fs.map Field.member)) zero data = unmarshalStruct fs zero data := by
  rw [unmarshal, unmarshalStruct]
  congr 1
  funext v
  exact decodeObject_map fs v zero

/-! ## Members of others -/

/-- No field takes any of the members. -/
def Foreign (fs : List (Member σ)) (ms : List (Bytes × Doc)) : Prop := ∀ m ∈ ms, findMember fs (coerce m.1) = none

instance (fs : List (Member σ)) (ms : List (Bytes × Doc)) : Decidable (Foreign fs ms) :=
  decidable_of_iff (∀ m ∈ ms, (findMember fs (coerce m.1)).isNone = true) (by simp [Foreign])

theorem foldlM_foreign {fs : List (Member σ)} : ∀ {ms : List (Bytes × Doc)}, Foreign fs ms → ∀ s : σ,
    (membersValue ms).foldlM (decodeMember fs) s = some s
  | [], _, s => by rw [membersValue]; rfl
  | (k, d) :: ms, h, s => by
    obtain ⟨hk, hms⟩ := List.forall_mem_cons.1 h
    have hskip : decodeMember fs s (coerce k, d.value) = some s := by
      unfold decodeMember
      rw [hk]
    rw [membersValue, List.foldlM_cons, hskip]
    exact foldlM_foreign hms s

theorem membersValue_append : ∀ ms ms' : List (Bytes × Doc),
    membersValue (ms ++ ms') = membersValue ms ++ membersValue ms'
  | [], _ => by rw [membersValue]; rfl
  | (k, d) :: ms, ms' => by
    rw [List.cons_append, membersValue, membersValue, membersValue_append ms ms', List.cons_append]

/-- One member of an object decides, whatever stands around it. -/
theorem decodeObject_around {fs : List (Member σ)} {f : Member σ} {pre post : List (Bytes × Doc)} {k : Bytes}
    (hpre : Foreign fs pre) (hpost : Foreign fs post) (hk : findMember fs (coerce k) = some f) (d : Doc) (s : σ) :
    decodeObject fs (Doc.obj (pre ++ (k, d) :: post)).value s = f.decode d.value s := by
  have hset : decodeMember fs s (coerce k, d.value) = f.decode d.value s := by
    unfold decodeMember
    rw [hk]
  rw [Doc.value, membersValue_append, membersValue, decodeObject, List.foldlM_append, foldlM_foreign hpre]
  show (decodeMember fs s (coerce k, d.value) >>= fun s => (membersValue post).foldlM (decodeMember fs) s) = _
  rw [hset]
  cases f.decode d.value s with
  | none => rfl
  | some s => exact foldlM_foreign hpost s

/-- The first element of a new slice is what the first value decodes to. -/
theorem decodeSlice_cons {dec : Decoder α} {zero a : α} {d : Doc} {ds : List Doc} (hd : dec d.value zero = some a)
    (hds : (decodeElems dec zero (elemsValue ds) []).isSome) :
    ∃ s, decodeSlice dec zero (Doc.arr (d :: ds)).value .nil = some s ∧ s.elems.head? = some a := by
  obtain ⟨array, harray⟩ := Option.isSome_iff_exists.1 hds
  have helems : decodeElems dec zero (d.value :: elemsValue ds) [] = some (a :: array) := by
    show (dec d.value zero >>= fun a => decodeElems dec zero (elemsValue ds) [] >>= fun array => some (a :: array)) = _
    rw [hd, harray]
    rfl
  rw [Doc.value, elemsValue]
  refine ⟨⟨a :: array, (d.value :: elemsValue ds).length, length_decodeElems helems⟩, ?_, rfl⟩
  unfold decodeSlice Slice.nil
  simp only
  split
  · rename_i hnone
    rw [helems] at hnone
    cases hnone
  · rename_i array' hsome
    rw [helems] at hsome
    cases hsome
    rfl

/-! ## Where strings come from -/

/-- The string stands in the value at the end of a path of members, whose names may be in another case; the
elements of an array are all looked into. -/
inductive Value.Says (t : Bytes) : List Bytes → Value → Prop
  | str : Value.Says t [] (.str t)
  | elem {path : List Bytes} {v : Value} {vs : List Value} : v ∈ vs → Value.Says t path v → Value.Says t path (.arr vs)
  | member {name : Bytes} {path : List Bytes} {k : Bytes} {v : Value} {ms : List (Bytes × Value)} : (k, v) ∈ ms →
      foldName k = foldName name → Value.Says t path v → Value.Says t (name :: path) (.obj ms)

/-- What a decoder leaves in a variable was there before, or stands in the value at the path. -/
def Honest (holds : α → Bytes → Prop) (path : List Bytes) (dec : Decoder α) : Prop :=
  ∀ v a a' t, dec v a = some a' → holds a' t → holds a t ∨ v.Says t path

/-- A decoder that puts nothing there. -/
def Idle (holds : α → Bytes → Prop) (dec : Decoder α) : Prop := ∀ v a a' t, dec v a = some a' → holds a' t → holds a t

theorem honest_string : Honest (fun s t => s = t) [] decodeString := by
  intro v s s' t h ht
  cases v with
  | str b =>
    cases h
    cases ht
    exact .inr .str
  | null =>
    cases h
    exact .inl ht
  | bool | num | arr | obj => cases h

theorem honest_of {holds : α → Bytes → Prop} {holds' : σ → Bytes → Prop} {path : List Bytes} {dec : Decoder α}
    (h : Honest holds path dec) (name : Bytes) {get : σ → α} {put : α → σ → σ}
    (hget : ∀ s t, holds (get s) t → holds' s t) (hput : ∀ a s t, holds' (put a s) t → holds a t ∨ holds' s t) :
    Honest holds' path (Member.of name get put dec).decode := by
  intro v s s' t hs ht
  obtain ⟨a, ha, rfl⟩ := Option.map_eq_some_iff.1 hs
  rcases hput a s t ht with ht | ht
  · exact (h v _ a t ha ht).imp_left (hget s t)
  · exact .inl ht

theorem foldName_of_findMember {fs : List (Member σ)} {k : Bytes} {f : Member σ} (h : findMember fs k = some f) :
    f ∈ fs ∧ foldName k = foldName f.name := by
  rcases Option.or_eq_some_iff.1 h with hexact | ⟨-, hfold⟩
  · have hname : f.name = k := by simpa using List.find?_some hexact
    exact ⟨List.mem_of_find?_eq_some hexact, congrArg foldName hname.symm⟩
  · have hname : foldName f.name = foldName k := by simpa using List.find?_some hfold
    exact ⟨List.mem_of_find?_eq_some hfold, hname.symm⟩

theorem honest_object {holds : σ → Bytes → Prop} {fs : List (Member σ)} {name : Bytes} {path : List Bytes}
    (h : ∀ f ∈ fs, f.name = name ∧ Honest holds path f.decode ∨ Idle holds f.decode) :
    Honest holds (name :: path) (decodeObject fs) := by
  have hmember : ∀ m s s' t, decodeMember fs s m = some s' → holds s' t →
      holds s t ∨ foldName m.1 = foldName name ∧ m.2.Says t path := by
    intro m s s' t hs ht
    unfold decodeMember at hs
    cases hf : findMember fs m.1 with
    | none =>
      rw [hf] at hs
      cases hs
      exact .inl ht
    | some f =>
      rw [hf] at hs
      obtain ⟨hmem, hname⟩ := foldName_of_findMember hf
      rcases h f hmem with ⟨rfl, hhonest⟩ | hidle
      · exact (hhonest _ _ _ t hs ht).imp_right fun ht => ⟨hname, ht⟩
      · exact .inl (hidle _ _ _ t hs ht)
  have hmembers : ∀ (ms : List (Bytes × Value)) (s s' : σ) (t : Bytes), ms.foldlM (decodeMember fs) s = some s' →
      holds s' t → holds s t ∨ ∃ m ∈ ms, foldName m.1 = foldName name ∧ m.2.Says t path := by
    intro ms
    induction ms with
    | nil =>
      intro s s' t hs ht
      cases hs
      exact .inl ht
    | cons m ms ih =>
      intro s s' t hs ht
      rw [List.foldlM_cons, Option.bind_eq_bind, Option.bind_eq_some_iff] at hs
      obtain ⟨s₁, h₁, hs⟩ := hs
      rcases ih s₁ s' t hs ht with ht | ⟨m', hm', ht⟩
      · exact (hmember m s s₁ t h₁ ht).imp_right fun ht => ⟨m, List.mem_cons_self, ht⟩
      · exact .inr ⟨m', List.mem_cons_of_mem _ hm', ht⟩
  intro v s s' t hs ht
  cases v with
  | null =>
    cases hs
    exact .inl ht
  | obj ms =>
    refine (hmembers ms s s' t hs ht).imp_right ?_
    rintro ⟨⟨k, v⟩, hm, hname, ht⟩
    exact .member hm hname ht
  | bool | num | str | arr => cases hs

theorem honest_slice {holds : α → Bytes → Prop} {path : List Bytes} {dec : Decoder α} {zero : α}
    (h : Honest holds path dec) :
    Honest (fun (s : Slice α) t => ∃ a ∈ zero :: s.array, holds a t) path (decodeSlice dec zero) := by
  have helems : ∀ (vs : List Value) (array array' : List α) (t : Bytes), decodeElems dec zero vs array = some array' →
      (∃ a ∈ zero :: array', holds a t) → (∃ a ∈ zero :: array, holds a t) ∨ ∃ v ∈ vs, v.Says t path := by
    intro vs
    induction vs with
    | nil =>
      intro array array' t hs ht
      cases hs
      exact .inl ht
    | cons v vs ih =>
      intro array array' t hs ht
      simp only [decodeElems, Option.bind_eq_bind, Option.bind_eq_some_iff, Option.some.injEq] at hs
      obtain ⟨a, ha, rest, hrest, rfl⟩ := hs
      have hhead : array.headD zero ∈ zero :: array := by
        cases array with
        | nil => exact List.mem_cons_self
        | cons b array => exact List.mem_cons_of_mem _ List.mem_cons_self
      have hold : (∃ a ∈ zero :: rest, holds a t) →
          (∃ a ∈ zero :: array, holds a t) ∨ ∃ v' ∈ v :: vs, v'.Says t path := by
        intro ht
        rcases ih array.tail rest t hrest ht with ⟨b, hb, ht⟩ | ⟨v', hv', ht⟩
        · exact .inl ⟨b, List.cons_subset_cons _ (List.tail_subset _) hb, ht⟩
        · exact .inr ⟨v', List.mem_cons_of_mem _ hv', ht⟩
      obtain ⟨b, hb, ht⟩ := ht
      rcases List.mem_cons.1 hb with rfl | hb
      · exact .inl ⟨b, List.mem_cons_self, ht⟩
      · rcases List.mem_cons.1 hb with rfl | hb
        · rcases h v _ b t ha ht with ht | ht
          · exact .inl ⟨_, hhead, ht⟩
          · exact .inr ⟨v, List.mem_cons_self, ht⟩
        · exact hold ⟨b, List.mem_cons_of_mem _ hb, ht⟩
  have hnil : ∀ (s : Slice α) (t : Bytes), (∃ a ∈ zero :: (Slice.nil : Slice α).array, holds a t) →
      ∃ a ∈ zero :: s.array, holds a t := by
    rintro s t ⟨a, ha, ht⟩
    exact ⟨a, List.mem_cons.2 (.inl (List.mem_singleton.1 ha)), ht⟩
  intro v s s' t hs ht
  cases v with
  | null =>
    cases hs
    exact .inl (hnil s t ht)
  | arr vs =>
    cases vs with
    | nil =>
      cases hs
      exact .inl (hnil s t ht)
    | cons v vs =>
      simp only [decodeSlice] at hs
      split at hs
      · cases hs
      · rename_i array harray
        cases hs
        refine (helems _ _ _ t harray ht).imp_right ?_
        rintro ⟨v', hv', ht⟩
        exact .elem hv' ht
  | bool | num | str | obj => cases hs

/-- What comes out of `Unmarshal` was in the variable, or stands in the text at the path. -/
theorem says_of_unmarshal {holds : α → Bytes → Prop} {path : List Bytes} {dec : Decoder α} (h : Honest holds path dec)
    {zero a : α} {data t : Bytes} (ha : unmarshal dec zero data = some a) (ht : holds a t) :
    holds zero t ∨ ∃ v, parse data = some v ∧ v.Says t path := by
  obtain ⟨v, hv, ha⟩ := Option.bind_eq_some_iff.1 ha
  exact (h v zero a t ha ht).imp_right fun ht => ⟨v, hv, ht⟩

end WatchBPF.Json
