/-
C data in little-endian memory: where the members of a struct lie when every member is aligned to its
size, words as bytes, and a buffer that is stored into and loaded from.
-/
import WatchBPF.Lib.Bytes

namespace WatchBPF.CStruct

/-! ## Layout -/

/-- The type of a member: an unsigned integer of so many bytes, or an array. -/
inductive CType
  | uint (bytes : Nat)
  | array (len : Nat) (elem : CType)

def CType.size : CType → Nat
  | uint bytes => bytes
  | array len elem => len * elem.size

def CType.align : CType → Nat
  | uint bytes => bytes
  | array _ elem => elem.align

/-- The next multiple of `a`. -/
def alignUp (n a : Nat) : Nat := (n + a - 1) / a * a

/-- Where the members begin that come after `n` bytes, and where the last of them ends. -/
def layoutFrom : Nat → List CType → List Nat × Nat
  | n, [] => ([], n)
  | n, t :: ts =>
    let start := alignUp n t.align
    let (offsets, stop) := layoutFrom (start + t.size) ts
    (start :: offsets, stop)

/-- `offsetof` the `i`-th member. -/
def offsetOf (ts : List CType) (i : Nat) : Nat := (layoutFrom 0 ts).1[i]?.getD 0

/-- `sizeof`, with the padding at the end. -/
def structSize (ts : List CType) : Nat := alignUp (layoutFrom 0 ts).2 ((ts.map CType.align).foldl max 1)

/-! ## Words -/

/-- The `n` low bytes of a number. -/
def le : Nat → Nat → Bytes
  | 0, _ => []
  | n + 1, x => UInt8.ofNat (x % 256) :: le n (x / 256)

/-- The number that bytes stand for. -/
def ofLE : Bytes → Nat
  | [] => 0
  | b :: s => b.toNat + 256 * ofLE s

@[simp] theorem length_le : ∀ n x, (le n x).length = n
  | 0, _ => rfl
  | n + 1, x => by rw [le, List.length_cons, length_le n]

theorem ofLE_le : ∀ n x, ofLE (le n x) = x % 256 ^ n
  | 0, x => by simp [le, ofLE, Nat.mod_one]
  | n + 1, x => by
    have hb : (UInt8.ofNat (x % 256)).toNat = x % 256 := by
      rw [UInt8.toNat_ofNat']
      omega
    rw [le, ofLE, hb, ofLE_le n, Nat.pow_succ, Nat.mul_comm (256 ^ n), Nat.mod_mul]

theorem le_ofLE : ∀ s : Bytes, le s.length (ofLE s) = s
  | [] => rfl
  | b :: s => by
    have hb := b.toNat_lt
    rw [List.length_cons, le, ofLE, Nat.add_mul_mod_self_left, Nat.mod_eq_of_lt hb, UInt8.ofNat_toNat,
      Nat.add_mul_div_left _ _ (by decide), Nat.div_eq_of_lt hb, Nat.zero_add, le_ofLE s]

/-! ## Buffers -/

/-- Bytes written into a buffer at an offset. -/
def store (off : Nat) (bs buf : Bytes) : Bytes := buf.take off ++ bs ++ buf.drop (off + bs.length)

/-- The `n` bytes of a buffer at an offset. -/
def load (off n : Nat) (buf : Bytes) : Bytes := (buf.drop off).take n

variable {off off' m n : Nat} {bs buf : Bytes}

theorem length_load (h : off + n ≤ buf.length) : (load off n buf).length = n := by
  rw [load, List.length_take, List.length_drop]
  omega

theorem length_store (h : off + bs.length ≤ buf.length) : (store off bs buf).length = buf.length := by
  simp only [store, List.length_append, List.length_take, List.length_drop]
  omega

/-- What was stored is loaded. -/
theorem load_store (hn : bs.length = n) (h : off + n ≤ buf.length) : load off n (store off bs buf) = bs := by
  have hlen : (buf.take off).length = off := by
    rw [List.length_take]
    omega
  rw [load, store, List.append_assoc, List.drop_append_of_le_length hlen.ge, List.drop_of_length_le hlen.le,
    List.nil_append, List.take_append_of_le_length hn.ge, List.take_of_length_le hn.le]

/-- What lies elsewhere stays. -/
theorem load_store_of_disjoint (h : off + bs.length ≤ buf.length) (hd : off' + n ≤ off ∨ off + bs.length ≤ off') :
    load off' n (store off bs buf) = load off' n buf := by
  refine List.ext_getElem? fun i => ?_
  rw [load, load, List.getElem?_take, List.getElem?_take]
  split
  · rw [List.getElem?_drop, List.getElem?_drop, store, List.getElem?_append, List.getElem?_append]
    simp only [List.length_append, List.length_take, List.getElem?_take, List.getElem?_drop]
    rcases hd with hd | hd
    · rw [if_pos (by omega), if_pos (by omega), if_pos (by omega)]
    · rw [if_neg (by omega)]
      congr 1
      omega
  · rfl

theorem load_replicate (h : off + n ≤ m) (b : UInt8) : load off n (List.replicate m b) = List.replicate n b := by
  rw [load, List.drop_replicate, List.take_replicate]
  congr 1
  omega

end WatchBPF.CStruct
