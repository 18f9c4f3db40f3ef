/-
`fmt.Sprintf` of strings and unsigned integers, for directives of a `%` and a verb, and when a text that is put
together from parts and separators determines the parts.
-/
import WatchBPF.Lib.Numeral

namespace WatchBPF.Fmt

open WatchBPF.Numeral

/-! ## `Sprintf` -/

inductive Arg
  | string (s : Bytes)
  | uint32 (n : UInt32)
  deriving DecidableEq

def Arg.text : Arg → Bytes
  | string s => s
  | uint32 n => itoa n.toNat

def Arg.type : Arg → Bytes
  | string _ => lit "string"
  | uint32 _ => lit "uint32"

/-- How an error speaks of an argument. -/
def Arg.described (a : Arg) : Bytes := a.type ++ lit "=" ++ a.text

/-- The verb prints the argument's text: `%s`, `%d` or `%v`. -/
def Arg.takes : Arg → UInt8 → Bool
  | string _, c => c == 0x73 || c == 0x76
  | uint32 _, c => c == 0x64 || c == 0x76

def Arg.print (c : UInt8) (a : Arg) : Bytes :=
  if a.takes c then a.text else lit "%!" ++ [c] ++ lit "(" ++ a.described ++ lit ")"

/-- What is printed of arguments that are left over. -/
def extra : List Arg → Bytes
  | [] => []
  | args => lit "%!(EXTRA " ++ (lit ", ").intercalate (args.map Arg.described) ++ lit ")"

/-- `fmt.Sprintf` -/
def sprintf : Bytes → List Arg → Bytes
  | [], args => extra args
  | b :: format, args =>
    if b ≠ 0x25 then b :: sprintf format args
    else
      match format, args with
      | [], args => lit "%!(NOVERB)" ++ extra args
      | c :: format, args =>
        if c = 0x25 then 0x25 :: sprintf format args
        else
          match args with
          | [] => lit "%!" ++ [c] ++ lit "(MISSING)" ++ sprintf format []
          | a :: args => a.print c ++ sprintf format args

/-- Text without directives is copied. -/
theorem sprintf_text : ∀ {s : Bytes}, (∀ b ∈ s, b ≠ 0x25) → ∀ (format : Bytes) (args : List Arg),
    sprintf (s ++ format) args = s ++ sprintf format args
  | [], _, _, _ => rfl
  | b :: s, h, format, args => by
    obtain ⟨hb, hs⟩ := List.forall_mem_cons.1 h
    rw [List.cons_append, sprintf.eq_def]
    simp only
    rw [if_pos hb, sprintf_text hs, List.cons_append]

/-- A directive prints the next argument. -/
theorem sprintf_verb {c : UInt8} {a : Arg} (h : a.takes c = true) (format : Bytes) (args : List Arg) :
    sprintf (0x25 :: c :: format) (a :: args) = a.text ++ sprintf format args := by
  have hc : c ≠ 0x25 := by
    rintro rfl
    cases a <;> cases h
  rw [sprintf.eq_def]
  simp only
  rw [if_neg (not_not.2 rfl), if_neg hc, Arg.print, if_pos h]

/-! ## What a text determines -/

variable {α : Type}

/-- A part that is shorter than the separator behind it is determined, if the separator has its first element
nowhere else. -/
theorem append_marker_inj {c : α} {w a b x y : List α} (hc : c ∉ w) (ha : a.length ≤ w.length)
    (hb : b.length ≤ w.length) (h : a ++ (c :: w ++ x) = b ++ (c :: w ++ y)) : a = b ∧ x = y := by
  -- if one part were the longer one, it would have the other's separator begin inside of it, and so its own
  -- separator inside of the other's
  have hno : ∀ {d x y : List α}, d ≠ [] → d.length ≤ w.length → c :: w ++ x ≠ d ++ (c :: w ++ y) := by
    intro d x y hne hlen heq
    obtain ⟨d₀, d, rfl⟩ := List.exists_cons_of_ne_nil hne
    rw [List.cons_append, List.cons_append, List.cons.injEq] at heq
    have hmem : (w ++ x)[d.length]? = some c := by
      rw [heq.2, List.getElem?_append_right le_rfl, Nat.sub_self]
      rfl
    rw [List.getElem?_append_left (by simpa using hlen)] at hmem
    exact hc (List.mem_of_getElem? hmem)
  rcases List.append_eq_append_iff.1 h with ⟨d, rfl, hd⟩ | ⟨d, rfl, hd⟩
  · by_cases hne : d = []
    · subst hne
      exact ⟨(List.append_nil _).symm, List.append_cancel_left hd⟩
    · exact absurd hd (hno hne ((by simp : d.length ≤ (a ++ d).length).trans hb))
  · by_cases hne : d = []
    · subst hne
      exact ⟨List.append_nil _, (List.append_cancel_left hd).symm⟩
    · exact absurd hd (hno hne ((by simp : d.length ≤ (b ++ d).length).trans ha))

end WatchBPF.Fmt
