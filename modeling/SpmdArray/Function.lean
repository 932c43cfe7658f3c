/-!
# Names of the element functions

The functions that act on elements are named by values of three small types, so
that one kernel can be asked for any of them.

## Main definitions

* `UnaryFn` — functions of one element, evaluated in double precision.
* `BinaryFn` — functions of two elements of one type.
* `Reducer` — the functions that combine many elements into one, along an axis of a
  tensor or across the ranks of a group.
-/

namespace SpmdArray

/-- Functions of one element. -/
inductive UnaryFn where
  /-- The negative. -/
  | neg
  /-- The absolute value. -/
  | abs
  /-- The square root. -/
  | sqrt
  /-- The natural exponential. -/
  | exp
  /-- The natural logarithm. -/
  | log
  /-- The sine. -/
  | sin
  /-- The cosine. -/
  | cos
  /-- The hyperbolic tangent. -/
  | tanh
  /-- The square. -/
  | square
  /-- The largest integer that is not greater. -/
  | floor
  /-- The smallest integer that is not less. -/
  | ceil
  /-- The nearest integer, a half going away from zero. -/
  | round
  deriving DecidableEq, Repr

/-- Functions of two elements. -/
inductive BinaryFn where
  /-- The sum. -/
  | add
  /-- The difference. -/
  | sub
  /-- The product. -/
  | mul
  /-- The quotient. -/
  | div
  /-- The power. -/
  | pow
  /-- The larger element; a NaN prevails. -/
  | maximum
  /-- The smaller element; a NaN prevails. -/
  | minimum
  deriving DecidableEq, Repr

/-- Functions that combine many elements into one. -/
inductive Reducer where
  /-- The sum. -/
  | sum
  /-- The product. -/
  | prod
  /-- The least element. -/
  | min
  /-- The greatest element. -/
  | max
  /-- One if every element is non-zero. -/
  | all
  /-- One if some element is non-zero. -/
  | any
  /-- The bits set in every element. -/
  | bitAnd
  /-- The bits set in some element. -/
  | bitOr
  deriving DecidableEq, Repr

namespace Reducer

/-- Whether the combined result over a group of ranks is a truth value. -/
def isBoolean : Reducer → Bool
  | all | any | bitAnd | bitOr => true
  | sum | prod | min | max => false

/-- Whether the reducer works on bit patterns.  Such a reducer is not offered for
floats. -/
def isBitwise : Reducer → Bool
  | bitAnd | bitOr => true
  | sum | prod | min | max | all | any => false

/-- The name of the reducer in error texts. -/
def name : Reducer → String
  | sum => "sum"
  | prod => "prod"
  | min => "min"
  | max => "max"
  | all => "logical_and"
  | any => "logical_or"
  | bitAnd => "bitwise_and"
  | bitOr => "bitwise_or"

end Reducer

end SpmdArray
