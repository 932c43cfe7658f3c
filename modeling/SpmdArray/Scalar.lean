import SpmdArray.Tensor

/-!
# Scalars

A bare value may stand next to a tensor.  It has an element type of its own, but takes
the type of the tensor where its kind of value and its magnitude allow that.

## Main definitions

* `Scalar` — bare values; `Scalar.ofNat` makes one from an unsigned number.
* `Scalar.dtype` — the type of a value on its own.
* `Scalar.fits` — whether a type holds the value.
* `Scalar.dtypeAlongside` — the type of a value next to a tensor.
* `Scalar.toTensor` — the value as a tensor of shape `[1]`.
-/

namespace SpmdArray

/-- Bare values. -/
inductive Scalar where
  /-- A truth value. -/
  | bool (b : Bool)
  /-- An integer. -/
  | int (i : Word .i64)
  /-- A float. -/
  | float (x : Double)
  deriving DecidableEq

namespace Scalar

/-- The integer scalar of an unsigned 64-bit number. -/
def ofNat (n : Nat) : Except Error Scalar :=
  if IntType.i64.Holds n then return int (.ofInt n) else throw (.scalarTooLarge n)

/-- The element type of the value on its own. -/
def dtype : Scalar → DType
  | bool _ => .bool
  | int _ => .defaultInt
  | float _ => .defaultFloat

/-- The greatest finite single precision number. -/
def maxSingle : Double :=
  (Ieee.Num.ofBody false (Ieee.Format.single.infinity - 1) : Ieee.Num .single).convert

/-- Whether the value becomes an element of type `d` without leaving its range. -/
def fits : Scalar → DType → Bool
  | bool _, _ => true
  | int i, .bool => i.toInt = 0 || i.toInt = 1
  | int i, .int k => k.Holds i.toInt
  | int _, .float _ => true
  | float x, .f32 => !x.isFinite || x.abs.key ≤ maxSingle.key
  | float _, .f64 => true
  | float _, _ => false

/-- The element type of the value next to a tensor of type `other`: that type, if the
kind of the value does not exceed the tensor's and the value fits; else the promoted
type, unless the value overflows even that. -/
def dtypeAlongside (s : Scalar) (other : DType) : DType :=
  if s.dtype.category ≤ other.category ∧ s.fits other then other
  else
    let promoted := DType.promote s.dtype other
    if s.fits promoted then promoted else .f64

/-- The value as a double. -/
def toDouble : Scalar → Double
  | bool b => Ieee.ofInt b.toNat
  | int i => Ieee.ofInt i.toInt
  | float x => x

/-- The value as a tensor of one element.  An integer does not pass through double
precision on its way to the type `i64`. -/
def toTensor (d : DType) : Scalar → Tensor
  | bool b => (Tensor.vector ⟨.bool, [b]⟩).cast d
  | int i => (Tensor.vector ⟨.i64, [i]⟩).cast d
  | float x => (Tensor.vector ⟨.f64, [x]⟩).cast d

end Scalar

end SpmdArray
