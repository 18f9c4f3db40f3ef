/-
`encoding/json` on a flat Go struct: one table of fields, as the struct tags give it, drives both
`Marshal` and `Unmarshal`, and decoding a marshalled struct restores it with its strings coerced to
UTF-8. Slices of strings likewise.
-/
import WatchBPF.Lib.Json.Marshal

namespace WatchBPF.Json

open WatchBPF.Utf8 WatchBPF.Numeral

/-! ## Fields -/

/-- The type of a field, with its accessors. -/
inductive Kind (σ : Type)
  | string (get : σ → Bytes) (put : Bytes → σ → σ)
  | int (get : σ → Int64) (put : Int64 → σ → σ)
  | uint32 (get : σ → UInt32) (put : UInt32 → σ → σ)

structure Field (σ : Type) where
  name : Bytes
  kind : Kind σ
  omitEmpty : Bool := false

variable {σ : Type}

/-- What `Marshal` writes for a field. -/
def Kind.scalar : Kind σ → σ → Scalar
  | string get _, s => .str (get s)
  | int get _, s => .int (get s).toInt
  | uint32 get _, s => .int (get s).toNat

/-- `isEmptyValue` -/
def Kind.isEmpty : Kind σ → σ → Bool
  | string get _, s => (get s).isEmpty
  | int get _, s => get s == 0
  | uint32 get _, s => get s == 0

/-- A member's value stored into the field; `none` on a type error. -/
def Kind.set : Kind σ → Value → σ → Option σ
  | _, .null, s => some s
  | string _ put, .str b, s => some (put b s)
  | int _ put, .num t, s => (parseInt t).map fun n => put (Int64.ofInt n) s
  | uint32 _ put, .num t, s => (parseUint (2 ^ 32 - 1) t).map fun n => put (UInt32.ofNat n) s
  | _, _, _ => none

/-- The field of `src` copied to `dst`, a string coerced. -/
def Kind.copy : Kind σ → σ → σ → σ
  | string get put, src, dst => put (coerce (get src)) dst
  | int get put, src, dst => put (get src) dst
  | uint32 get put, src, dst => put (get src) dst

/-- Storing what was written copies the field. -/
theorem Kind.set_scalar (k : Kind σ) (src dst : σ) : k.set (k.scalar src).value dst = some (k.copy src dst) := by
  cases k with
  | string get put => rfl
  | int get put =>
    show (parseInt (formatInt (get src).toInt)).map _ = _
    rw [parseInt_formatInt (Int64.le_toInt _) (Int64.toInt_lt _), Option.map_some, Int64.ofInt_toInt]
    rfl
  | uint32 get put =>
    have hlt := (get src).toNat_lt
    have hf : formatInt ((get src).toNat : Int) = itoa (get src).toNat := by
      rw [formatInt, if_neg (by omega), Int.natAbs_natCast]
    show (parseUint _ (formatInt ((get src).toNat : Int))).map _ = _
    rw [hf, parseUint_itoa (by omega), Option.map_some, UInt32.ofNat_toNat]
    rfl

/-! ## Marshal -/

/-- The members `Marshal` writes. -/
def members (fs : List (Field σ)) (s : σ) : List (Bytes × Scalar) :=
  (fs.filter fun f => !(f.omitEmpty && f.kind.isEmpty s)).map fun f => (f.name, f.kind.scalar s)

/-- `json.Marshal` of a struct. -/
def marshalStruct (fs : List (Field σ)) (s : σ) : Bytes := marshalObject (members fs s)

theorem marshalStruct_bytes (fs : List (Field σ)) (s : σ) : ∀ b ∈ marshalStruct fs s, 0x20 ≤ b.toNat :=
  marshalObject_bytes _

theorem marshalStruct_ne_nil (fs : List (Field σ)) (s : σ) : marshalStruct fs s ≠ [] := by
  simp [marshalStruct, marshalObject]

/-! ## Unmarshal -/

/-- `foldRune`: the least rune of the fold set, for the sets that hold an ASCII letter. -/
def foldRune : Rune → Rune
  | .one b => if 97 ≤ b.toNat && b.toNat ≤ 122 then .one (b - 32) else .one b
  | .two 0xC5 0xBF => .one 0x53
  | .three 0xE2 0x84 0xAA => .one 0x4B
  | r => r.coerce

/-- `foldName` -/
def foldName (s : Bytes) : List Rune := (runes s).map foldRune

/-- The field a key names: exactly, or else up to case. -/
def findField (fs : List (Field σ)) (k : Bytes) : Option (Field σ) :=
  (fs.find? fun f => f.name == k).or (fs.find? fun f => foldName f.name == foldName k)

def setMember (fs : List (Field σ)) (s : σ) (m : Bytes × Value) : Option σ :=
  match findField fs m.1 with
  | some f => f.kind.set m.2 s
  | none => some s

/-- A value decoded into a struct that holds `zero`; `none` on a type error. -/
def decodeStruct (fs : List (Field σ)) (zero : σ) : Value → Option σ
  | .null => some zero
  | .obj ms => ms.foldlM (setMember fs) zero
  | _ => none

/-- `json.Unmarshal` into a struct; `none` where it returns an error. -/
def unmarshalStruct (fs : List (Field σ)) (zero : σ) (data : Bytes) : Option σ :=
  (parse data).bind (decodeStruct fs zero)

/-- Field names as struct tags have them: distinct and valid UTF-8. -/
def WellNamed (fs : List (Field σ)) : Prop :=
  (fs.map (·.name)).Nodup ∧ ∀ f ∈ fs, valid f.name = true

theorem findField_of_mem {fs : List (Field σ)} (h : (fs.map (·.name)).Nodup) {f : Field σ} (hf : f ∈ fs) :
    findField fs f.name = some f := by
  have hfind : (fs.find? fun g => g.name == f.name) = some f := by
    cases hg : fs.find? fun g => g.name == f.name with
    | none => exact absurd (List.find?_eq_none.1 hg f hf) (by simp)
    | some g =>
      have hm := List.mem_of_find?_eq_some hg
      have hn : g.name = f.name := by simpa using List.find?_some hg
      rw [List.inj_on_of_nodup_map h hm hf hn]
  rw [findField, hfind]; rfl

/-- Decoding a marshalled struct copies every field it wrote. -/
theorem unmarshalStruct_marshalStruct {fs : List (Field σ)} (h : WellNamed fs) (zero s : σ) :
    unmarshalStruct fs zero (marshalStruct fs s) =
      some ((fs.filter fun f => !(f.omitEmpty && f.kind.isEmpty s)).foldl (fun d f => f.kind.copy s d) zero) := by
  have go : ∀ (gs : List (Field σ)) (d : σ), (∀ f ∈ gs, f ∈ fs) →
      ((gs.map fun f => (f.name, f.kind.scalar s)).map memberValue).foldlM (setMember fs) d =
        some (gs.foldl (fun d f => f.kind.copy s d) d) := by
    intro gs
    induction gs with
    | nil => intros; rfl
    | cons f gs ih =>
      intro d hg
      have hf := hg f (by simp)
      have hset : setMember fs d (memberValue (f.name, f.kind.scalar s)) = some (f.kind.copy s d) := by
        rw [setMember, memberValue, coerce_of_valid (h.2 f hf), findField_of_mem h.1 hf]
        exact f.kind.set_scalar s d
      simp only [List.map_cons, List.foldlM_cons, hset, Option.bind_eq_bind, Option.bind_some, List.foldl_cons]
      exact ih _ fun g hg' => hg g (by simp [hg'])
  rw [unmarshalStruct, marshalStruct, parse_marshalObject]
  exact go _ zero fun f hf => (List.mem_filter.1 hf).1

/-! ## Slices of strings -/

/-- An element of a new slice: `null` leaves the empty string it starts with. -/
def decodeElem : Value → Option Bytes
  | .str s => some s
  | .null => some []
  | _ => none

/-- `json.Unmarshal` into a `[]string`; `none` where it returns an error. -/
def unmarshalStrings (data : Bytes) : Option (List Bytes) :=
  (parse data).bind fun
    | .null => some []
    | .arr vs => vs.mapM decodeElem
    | _ => none

theorem unmarshalStrings_marshalStrings (ss : List Bytes) :
    unmarshalStrings (marshalStrings ss) = some (ss.map coerce) := by
  rw [unmarshalStrings, parse_marshalStrings, Option.bind_some]
  induction ss with
  | nil => rfl
  | cons s ss ih =>
    simp only [List.map_cons, List.mapM_cons, decodeElem, Option.pure_def, Option.bind_eq_bind,
      Option.bind_some] at ih ⊢
    rw [ih]; rfl

end WatchBPF.Json
