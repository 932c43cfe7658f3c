import SpmdArray.Element

/-!
# Elements as bytes

In transit an element is the little-endian byte string of its bit pattern.  A truth
value takes one byte, and every byte but zero reads as true.

## Main definitions

* `littleEndian`, `ofLittleEndian` — numbers as byte strings.
* `Elem.toBytes`, `Elem.ofBytes` — elements as byte strings.
* `Elem.decode` — the elements of a longer byte string.

## Main results

* `ofLittleEndian_littleEndian` — numbers are read back modulo the number of byte
  strings.
* `Elem.ofBytes_toBytes`, `Elem.decode_flatMap_toBytes` — elements, alone and one after
  another, are read back exactly.
-/

namespace SpmdArray

/-- The `n` low bytes of a number, least significant byte first. -/
def littleEndian : Nat → Nat → List UInt8
  | 0, _ => []
  | n + 1, v => UInt8.ofNat v :: littleEndian n (v / 256)

/-- The number of a byte string. -/
def ofLittleEndian : List UInt8 → Nat
  | [] => 0
  | b :: bs => b.toNat + 256 * ofLittleEndian bs

@[simp] theorem length_littleEndian (n v : Nat) : (littleEndian n v).length = n := by
  induction n generalizing v with
  | zero => rfl
  | succ n ih => simp [littleEndian, ih]

theorem ofLittleEndian_littleEndian (n v : Nat) :
    ofLittleEndian (littleEndian n v) = v % (1 <<< (8 * n)) := by
  induction n generalizing v with
  | zero => simp [littleEndian, ofLittleEndian, Nat.mod_one]
  | succ n ih =>
    have hb : (UInt8.ofNat v).toNat = v % 256 := by simp
    have hbase : 1 <<< (8 * (n + 1)) = 256 * 1 <<< (8 * n) := by
      rw [Nat.one_shiftLeft, Nat.one_shiftLeft, Nat.mul_succ, Nat.pow_add, Nat.mul_comm]
    rw [littleEndian, ofLittleEndian, ih, hb, hbase, Nat.mod_mul]

namespace Elem

/-- The bit pattern of an element, as a number. -/
def pattern : {d : DType} → Elem d → Nat
  | .bool, a => a.toNat
  | .int _, a => a.bits.toNat
  | .float _, a => a.bits.toNat

/-- The element with a given bit pattern. -/
def ofPattern : (d : DType) → Nat → Elem d
  | .bool, n => n ≠ 0
  | .int k, n => ⟨BitVec.ofNat k.width n⟩
  | .float f, n => ⟨BitVec.ofNat f.format.width n⟩

/-- The byte string of an element. -/
def toBytes {d : DType} (a : Elem d) : List UInt8 := littleEndian d.size a.pattern

/-- The element that a byte string holds. -/
def ofBytes (d : DType) (bs : List UInt8) : Elem d := ofPattern d (ofLittleEndian bs)

/-- The elements of the first `n` pieces of a byte string, in front of `acc` in
reverse. -/
def decodeFrom (d : DType) : Nat → List UInt8 → List (Elem d) → List (Elem d)
  | 0, _, acc => acc
  | n + 1, bs, acc => decodeFrom d n (bs.drop d.size) (ofBytes d (bs.take d.size) :: acc)

/-- The elements of a byte string, without the bytes of an incomplete last one. -/
def decode (d : DType) (bs : List UInt8) : List (Elem d) :=
  (decodeFrom d (bs.length / d.size) bs []).reverse

/-- A bit pattern fits into the bytes of its type. -/
theorem pattern_lt {d : DType} (a : Elem d) : a.pattern < 1 <<< (8 * d.size) := by
  rcases d with _ | k | f
  · cases a <;> decide
  · cases k <;> exact a.bits.isLt
  · cases f <;> exact a.bits.isLt

theorem ofPattern_pattern {d : DType} (a : Elem d) : ofPattern d a.pattern = a := by
  rcases d with _ | k | f
  · cases a <;> rfl
  · simp [ofPattern, pattern]
  · simp [ofPattern, pattern]

theorem ofBytes_toBytes {d : DType} (a : Elem d) : ofBytes d a.toBytes = a := by
  rw [ofBytes, toBytes, ofLittleEndian_littleEndian, Nat.mod_eq_of_lt a.pattern_lt,
    ofPattern_pattern]

@[simp] theorem length_toBytes {d : DType} (a : Elem d) : a.toBytes.length = d.size :=
  length_littleEndian _ _

theorem length_flatMap_toBytes {d : DType} (xs : List (Elem d)) :
    (xs.flatMap toBytes).length = xs.length * d.size := by
  induction xs with
  | nil => simp
  | cons x xs ih =>
    rw [List.flatMap_cons, List.length_append, ih, length_toBytes, List.length_cons,
      Nat.succ_mul, Nat.add_comm]

theorem decodeFrom_flatMap_toBytes {d : DType} (xs acc : List (Elem d)) :
    decodeFrom d xs.length (xs.flatMap toBytes) acc = xs.reverse ++ acc := by
  induction xs generalizing acc with
  | nil => rfl
  | cons x xs ih =>
    have hx : x.toBytes.length = d.size := length_toBytes x
    rw [List.flatMap_cons, List.length_cons, decodeFrom, List.drop_left' hx,
      List.take_left' hx, ofBytes_toBytes, ih]
    simp

theorem decode_flatMap_toBytes {d : DType} (xs : List (Elem d)) :
    decode d (xs.flatMap toBytes) = xs := by
  rw [decode, length_flatMap_toBytes, Nat.mul_div_cancel _ d.size_pos,
    decodeFrom_flatMap_toBytes, List.append_nil, List.reverse_reverse]

end Elem

end SpmdArray
