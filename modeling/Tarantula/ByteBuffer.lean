import Mathlib.Algebra.Order.Group.Nat
import Mathlib.Tactic.Ring

/-! Byte buffers of a fixed capacity with a big-endian codec. A buffer is filled by
`put`; what a flipped buffer still holds is a list of bytes, consumed from the front. -/

namespace Tarantula

abbrev Bytes := List UInt8

/-- The `w` bytes of `n`, most significant first. What does not fit is dropped. -/
def beBytes : Nat → Nat → Bytes
  | 0, _ => []
  | w + 1, n => beBytes w (n / 256) ++ [UInt8.ofNat n]

def beNat (bs : Bytes) : Nat := bs.foldl (fun n b => 256 * n + b.toNat) 0

@[simp] theorem length_beBytes (w n : Nat) : (beBytes w n).length = w := by
  induction w generalizing n with
  | zero => rfl
  | succ w ih => simp [beBytes, ih]

theorem beNat_beBytes (w n : Nat) : beNat (beBytes w n) = n % 256 ^ w := by
  induction w generalizing n with
  | zero => simp [beBytes, beNat, Nat.mod_one]
  | succ w ih =>
    have hlast : beNat (beBytes w (n / 256) ++ [UInt8.ofNat n]) =
        256 * beNat (beBytes w (n / 256)) + n % 256 := by
      simp [beNat, List.foldl_append]
    rw [beBytes, hlast, ih, Nat.pow_succ', Nat.mod_mul, Nat.add_comm]

theorem beBytes_inj {w n n' : Nat} (hn : n < 256 ^ w) (hn' : n' < 256 ^ w)
    (h : beBytes w n = beBytes w n') : n = n' := by
  have hx := congrArg beNat h
  rwa [beNat_beBytes, beNat_beBytes, Nat.mod_eq_of_lt hn, Nat.mod_eq_of_lt hn'] at hx

structure ByteBuffer where
  capacity : Nat
  bytes : Bytes
  fits : bytes.length ≤ capacity

namespace ByteBuffer

def new (capacity : Nat) : ByteBuffer := ⟨capacity, [], Nat.zero_le _⟩

/-- A write that overflows the buffer is refused and writes nothing. -/
def put (b : ByteBuffer) (x : Bytes) : Option ByteBuffer :=
  if h : (b.bytes ++ x).length ≤ b.capacity then some ⟨b.capacity, b.bytes ++ x, h⟩ else none

def writeUInt32 (b : ByteBuffer) (v : UInt32) : Option ByteBuffer := b.put (beBytes 4 v.toNat)
def writeUInt64 (b : ByteBuffer) (v : UInt64) : Option ByteBuffer := b.put (beBytes 8 v.toNat)
def writeInt32 (b : ByteBuffer) (v : Int32) : Option ByteBuffer := b.writeUInt32 v.toUInt32
def writeBool (b : ByteBuffer) (v : Bool) : Option ByteBuffer := b.put [if v then 1 else 0]

def writeString (b : ByteBuffer) (s : Bytes) : Option ByteBuffer := do
  let b ← b.writeInt32 (Int32.ofNat s.length)
  b.put s

theorem put_bind_put (b : ByteBuffer) (x y : Bytes) :
    ((b.put x).bind fun b => b.put y) = b.put (x ++ y) := by
  by_cases hx : (b.bytes ++ x).length ≤ b.capacity
  · simp only [put, dif_pos hx, Option.bind_some, List.append_assoc]
  · have hxy : ¬ (b.bytes ++ (x ++ y)).length ≤ b.capacity := by
      simp only [List.length_append] at hx ⊢
      omega
    simp only [put, dif_neg hx, dif_neg hxy, Option.bind_none]

def writeEach (b : ByteBuffer) (writes : List (ByteBuffer → Option ByteBuffer)) : ByteBuffer :=
  writes.foldl (fun b w => (w b).getD b) b

theorem bytes_writeEach (b : ByteBuffer) (xs : List Bytes)
    (h : (b.bytes ++ xs.flatten).length ≤ b.capacity) :
    (writeEach b (xs.map fun x b => b.put x)).bytes = b.bytes ++ xs.flatten := by
  induction xs generalizing b with
  | nil => simp [writeEach]
  | cons x xs ih =>
    have hx : (b.bytes ++ x).length ≤ b.capacity := by
      simp only [List.flatten_cons, List.length_append] at h ⊢
      omega
    have hput : b.put x = some ⟨b.capacity, b.bytes ++ x, hx⟩ := dif_pos hx
    have hrest := ih ⟨b.capacity, b.bytes ++ x, hx⟩ (by simpa using h)
    simp only [writeEach, List.map_cons, List.foldl_cons, hput, Option.getD_some] at hrest ⊢
    rw [hrest, List.flatten_cons, List.append_assoc]

theorem map_bytes_new_put (n : Nat) (x : Bytes) :
    ((new n).put x).map (·.bytes) = if x.length ≤ n then some x else none := by
  unfold put
  split
  · next hx => exact (if_pos hx).symm
  · next hx => exact (if_neg hx).symm

end ByteBuffer

/-- What stops a read: an error that is returned, or a panic. -/
inductive Fault
  | error | crash
  deriving DecidableEq, Repr

def getBytes (n : Nat) (r : Bytes) : Option (Bytes × Bytes) :=
  if n ≤ r.length then some (r.take n, r.drop n) else none

theorem getBytes_append {n : Nat} {x : Bytes} (h : x.length = n) (r : Bytes) :
    getBytes n (x ++ r) = some (x, r) := by
  simp [getBytes, ← h]

def readUInt32 (r : Bytes) : Option (UInt32 × Bytes) :=
  (getBytes 4 r).map fun p => (UInt32.ofNat (beNat p.1), p.2)

def readUInt64 (r : Bytes) : Option (UInt64 × Bytes) :=
  (getBytes 8 r).map fun p => (UInt64.ofNat (beNat p.1), p.2)

def readInt32 (r : Bytes) : Option (Int32 × Bytes) :=
  (readUInt32 r).map fun p => (p.1.toInt32, p.2)

def readBool (r : Bytes) : Option (Bool × Bytes) :=
  (getBytes 1 r).map fun p => (p.1 == [1], p.2)

/-- A negative length makes the allocation of the result panic. -/
def readString (r : Bytes) : Except Fault (Bytes × Bytes) :=
  match readInt32 r with
  | none => .error .error
  | some (n, r) =>
    if n < 0 then .error .crash
    else
      match getBytes n.toInt.toNat r with
      | none => .error .error
      | some p => .ok p

/-- `0`, or more than is left, reads everything. -/
def readSome (n : Int32) (r : Bytes) : Except Fault (Bytes × Bytes) :=
  if n = 0 ∨ (r.length : Int) ≤ n.toInt then .ok (r, [])
  else if n < 0 then .error .crash
  else .ok (r.take n.toInt.toNat, r.drop n.toInt.toNat)

theorem readUInt32_append (v : UInt32) (r : Bytes) :
    readUInt32 (beBytes 4 v.toNat ++ r) = some (v, r) := by
  rw [readUInt32, getBytes_append (length_beBytes 4 _), Option.map_some, beNat_beBytes,
    Nat.mod_eq_of_lt (show v.toNat < 256 ^ 4 from v.toNat_lt), UInt32.ofNat_toNat]

theorem readUInt64_append (v : UInt64) (r : Bytes) :
    readUInt64 (beBytes 8 v.toNat ++ r) = some (v, r) := by
  rw [readUInt64, getBytes_append (length_beBytes 8 _), Option.map_some, beNat_beBytes,
    Nat.mod_eq_of_lt (show v.toNat < 256 ^ 8 from v.toNat_lt), UInt64.ofNat_toNat]

theorem readInt32_append (v : Int32) (r : Bytes) :
    readInt32 (beBytes 4 v.toUInt32.toNat ++ r) = some (v, r) := by
  rw [readInt32, readUInt32_append]
  rfl

theorem readBool_append (v : Bool) (r : Bytes) :
    readBool ([if v then 1 else 0] ++ r) = some (v, r) := by
  have hb : getBytes 1 ([if v then 1 else 0] ++ r) = some ([if v then 1 else 0], r) :=
    getBytes_append (x := [if v then 1 else 0]) rfl r
  rw [readBool, hb]
  cases v <;> rfl

theorem readString_append {s : Bytes} (h : s.length < 2 ^ 31) (r : Bytes) :
    readString (beBytes 4 (Int32.ofNat s.length).toUInt32.toNat ++ (s ++ r)) = .ok (s, r) := by
  have hn : ¬ Int32.ofNat s.length < 0 := by
    rw [Int32.lt_iff_toInt_lt, Int32.toInt_ofNat_of_lt h]
    simp
  have hi : (Int32.ofNat s.length).toInt.toNat = s.length := by
    rw [Int32.toInt_ofNat_of_lt h, Int.toNat_natCast]
  simp only [readString, readInt32_append, hn, if_false, hi, getBytes_append]

theorem readSome_length {s : Bytes} (h : s.length < 2 ^ 31) :
    readSome (Int32.ofNat s.length) s = .ok (s, []) := by
  rw [readSome, Int32.toInt_ofNat_of_lt h, if_pos (.inr (Int.le_refl _))]

end Tarantula
