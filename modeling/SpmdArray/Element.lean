import SpmdArray.Function
import SpmdArray.Ieee.Power
import SpmdArray.Word

/-!
# Elements

The elements of a tensor are truth values, words or floats, as the element type says.
All of them share one total arithmetic, in which truth values add by "or", subtract by
"exclusive or" and multiply by "and".

## Main definitions

* `Elem d` — the elements of type `d`.
* `Elem.toDouble`, `Elem.ofDouble`, `Elem.cast` — conversions; every conversion between
  two types passes through double precision.
* `Elem.binary`, `Elem.unary`, `Elem.fold` — the functions that `BinaryFn`, `UnaryFn` and
  `Reducer` name.
* `Elem.identity` — the element that a reduction starts from.
-/

namespace SpmdArray

/-- The format of a float type. -/
def FloatType.format : FloatType → Ieee.Format
  | .f32 => .single
  | .f64 => .double

/-- Double precision numbers, in which conversions and functions of one element are
evaluated. -/
abbrev Double := Ieee.Num .double

/-- The elements of a type. -/
@[reducible] def Elem : DType → Type
  | .bool => Bool
  | .int k => Word k
  | .float f => Ieee.Num f.format

namespace Elem

instance instDecidableEq : (d : DType) → DecidableEq (Elem d)
  | .bool => inferInstanceAs (DecidableEq Bool)
  | .int k => inferInstanceAs (DecidableEq (Word k))
  | .float f => inferInstanceAs (DecidableEq (Ieee.Num f.format))

/-! ### Constants -/

/-- Zero; false for truth values. -/
def zero : (d : DType) → Elem d
  | .bool => false
  | .int _ => Word.ofInt 0
  | .float _ => Ieee.Num.zero false

/-- One; true for truth values. -/
def one : (d : DType) → Elem d
  | .bool => true
  | .int _ => Word.ofInt 1
  | .float _ => Ieee.Num.one

/-- The least element. -/
def lowest : (d : DType) → Elem d
  | .bool => false
  | .int k => Word.ofInt k.minValue
  | .float _ => Ieee.Num.infinity true

/-- The greatest element. -/
def highest : (d : DType) → Elem d
  | .bool => true
  | .int k => Word.ofInt k.maxValue
  | .float _ => Ieee.Num.infinity false

/-- The element with every bit set. -/
def allOnes : (d : DType) → Elem d
  | .bool => true
  | .int k => ⟨BitVec.allOnes k.width⟩
  | .float f => ⟨BitVec.allOnes f.format.width⟩

instance (d : DType) : Inhabited (Elem d) := ⟨zero d⟩

/-! ### Arithmetic -/

variable {d : DType}

/-- Sum. -/
def add : {d : DType} → Elem d → Elem d → Elem d
  | .bool, a, b => a || b
  | .int _, a, b => Word.add a b
  | .float _, a, b => Ieee.Num.add a b

/-- Difference. -/
def sub : {d : DType} → Elem d → Elem d → Elem d
  | .bool, a, b => a ^^ b
  | .int _, a, b => Word.sub a b
  | .float _, a, b => Ieee.Num.sub a b

/-- Product. -/
def mul : {d : DType} → Elem d → Elem d → Elem d
  | .bool, a, b => a && b
  | .int _, a, b => Word.mul a b
  | .float _, a, b => Ieee.Num.mul a b

/-- Quotient. -/
def div : {d : DType} → Elem d → Elem d → Elem d
  | .bool, a, b => a && b
  | .int _, a, b => Word.div a b
  | .float _, a, b => Ieee.Num.div a b

/-- Power.  Among truth values only false to the power of true is false. -/
def pow : {d : DType} → Elem d → Elem d → Elem d
  | .bool, a, b => a || !b
  | .int _, a, b => Word.pow a b
  | .float _, a, b => Ieee.Num.pow a b

/-- The bits set in both elements. -/
def bitAnd : {d : DType} → Elem d → Elem d → Elem d
  | .bool, a, b => a && b
  | .int _, a, b => Word.bitAnd a b
  | .float _, a, b => ⟨a.bits &&& b.bits⟩

/-- The bits set in one of the elements. -/
def bitOr : {d : DType} → Elem d → Elem d → Elem d
  | .bool, a, b => a || b
  | .int _, a, b => Word.bitOr a b
  | .float _, a, b => ⟨a.bits ||| b.bits⟩

/-- The order of two elements; none if one of them is no number. -/
def compare? : {d : DType} → Elem d → Elem d → Option Ordering
  | .bool, a, b => some (compare a.toNat b.toNat)
  | .int _, a, b => some (compare (Word.toInt a) (Word.toInt b))
  | .float _, a, b => Ieee.Num.compare? a b

/-- Whether an element has a place in the order. -/
def isNumber (a : Elem d) : Bool := (compare? a a).isSome

/-- The larger of two elements, the first of two equal ones, and an element that is no
number if there is one. -/
def maximum (a b : Elem d) : Elem d :=
  match compare? a b with
  | some .lt => b
  | some _ => a
  | none => if a.isNumber then b else a

/-- The smaller of two elements, the first of two equal ones, and an element that is no
number if there is one. -/
def minimum (a b : Elem d) : Elem d :=
  match compare? a b with
  | some .gt => b
  | some _ => a
  | none => if a.isNumber then b else a

/-! ### Conversions -/

/-- The double nearest to an element. -/
def toDouble : {d : DType} → Elem d → Double
  | .bool, a => Ieee.ofInt a.toNat
  | .int _, a => Ieee.ofInt (Word.toInt a)
  | .float _, a => Ieee.Num.convert a

/-- The element for a double.  Integers cut off the fraction and clamp to their range,
with zero for what is no number; a truth value is false for zeros only. -/
def ofDouble : (d : DType) → Double → Elem d
  | .bool, x => x.key ≠ 0
  | .int k, x =>
    match x.value with
    | .nan => Word.ofInt 0
    | .infinite neg => Word.ofInt (if neg then k.minValue else k.maxValue)
    | .finite _ _ _ => Word.saturate (x.truncate?.getD 0)
  | .float _, x => Ieee.Num.convert x

/-- The element of type `t` for an element of another type. -/
def cast (t : DType) (a : Elem d) : Elem t := ofDouble t a.toDouble

/-- Whether an element counts as true: all do but zeros. -/
def isTruthy (a : Elem d) : Bool := a.toDouble.key ≠ 0

/-- One for true and zero for false. -/
def ofBool (d : DType) (b : Bool) : Elem d := if b then one d else zero d

/-! ### Named functions -/

/-- The function of two elements with a given name. -/
def binary : BinaryFn → Elem d → Elem d → Elem d
  | .add => add
  | .sub => sub
  | .mul => mul
  | .div => div
  | .pow => pow
  | .maximum => maximum
  | .minimum => minimum

end Elem

/-- The function of one double with a given name. -/
def UnaryFn.apply : UnaryFn → Double → Double
  | .neg, x => x.neg
  | .abs, x => x.abs
  | .sqrt, x => x.sqrt
  | .exp, x => x.exp
  | .log, x => x.log
  | .sin, x => x.sin
  | .cos, x => x.cos
  | .tanh, x => x.tanh
  | .square, x => x.mul x
  | .floor, x => x.floor
  | .ceil, x => x.ceil
  | .round, x => x.round

namespace Elem

variable {d : DType}

/-- The function of one element with a given name, evaluated in double precision. -/
def unary (f : UnaryFn) (a : Elem d) : Elem d := ofDouble d (f.apply a.toDouble)

/-- Combine two elements. -/
def fold : Reducer → Elem d → Elem d → Elem d
  | .sum, a, b => add a b
  | .prod, a, b => mul a b
  | .min, a, b => minimum a b
  | .max, a, b => maximum a b
  | .all, a, b => ofBool d (a.isTruthy && b.isTruthy)
  | .any, a, b => ofBool d (a.isTruthy || b.isTruthy)
  | .bitAnd, a, b => bitAnd a b
  | .bitOr, a, b => bitOr a b

/-- The element that a reduction starts from, and its result over no elements. -/
def identity (d : DType) : Reducer → Elem d
  | .sum | .any | .bitOr => zero d
  | .prod | .all => one d
  | .min => highest d
  | .max => lowest d
  | .bitAnd => allOnes d

end Elem

end SpmdArray
