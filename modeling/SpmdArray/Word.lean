import SpmdArray.DType

/-!
# Fixed-width integers

Integers of a tensor are words of their type's width.  Sums, differences and products
wrap around; a quotient is cut off towards zero and a division by zero gives zero.

## Main definitions

* `Word k` — the words of an integer type; `Word.toInt` reads one as a number.
* `Word.ofInt`, `Word.saturate` — the word of a number, modulo the width or clamped to
  the range.
* `Word.add`, `sub`, `mul`, `div`, `pow` — total arithmetic.

## Main results

* `Word.toInt_injective` — a word is known from its number.
* `Word.holds_toInt`, `Word.toInt_ofInt` — words stand for exactly the numbers in the
  range of their type.
* `Word.toInt_saturate` — clamping, on numbers.
-/

namespace SpmdArray

/-- A word of the integer type `k`. -/
structure Word (k : IntType) where
  /-- The bit pattern, in two's complement for signed types. -/
  bits : BitVec k.width
  deriving DecidableEq

namespace Word

variable {k : IntType}

/-- The number that a word stands for. -/
def toInt (x : Word k) : Int := if k.isSigned then x.bits.toInt else x.bits.toNat

/-- The word of a number, modulo the width. -/
def ofInt (i : Int) : Word k := ⟨BitVec.ofInt k.width i⟩

/-- The word nearest to a number. -/
def saturate (i : Int) : Word k := ofInt (max k.minValue (min i k.maxValue))

/-- Sum. -/
def add (x y : Word k) : Word k := ⟨x.bits + y.bits⟩

/-- Difference. -/
def sub (x y : Word k) : Word k := ⟨x.bits - y.bits⟩

/-- Product. -/
def mul (x y : Word k) : Word k := ⟨x.bits * y.bits⟩

/-- Quotient, cut off towards zero; zero if the divisor is zero.  The quotient of the
least number by -1 wraps to the least number. -/
def div (x y : Word k) : Word k := ofInt (x.toInt.tdiv y.toInt)

/-- The power of a pattern by squaring, for exponents below `2 ^ fuel`. -/
def powBits {w : Nat} : Nat → BitVec w → Nat → BitVec w
  | 0, _, _ => 1
  | fuel + 1, b, e =>
    let r := powBits fuel (b * b) (e / 2)
    if e % 2 = 1 then b * r else r

/-- The greatest exponent that a power uses; greater ones count as this one. -/
def maxExponent : Nat := (1 <<< 32) - 1

/-- Power.  The power with a negative exponent is cut off towards zero: it vanishes
unless the base is 1 or -1. -/
def pow (x y : Word k) : Word k :=
  if 0 ≤ y.toInt then ⟨powBits 32 x.bits (min y.toInt.toNat maxExponent)⟩
  else if x.toInt = 1 then ofInt 1
  else if x.toInt = -1 then (if y.toInt % 2 = 0 then ofInt 1 else x)
  else ofInt 0

/-- The bits set in both words. -/
def bitAnd (x y : Word k) : Word k := ⟨x.bits &&& y.bits⟩

/-- The bits set in one of the words. -/
def bitOr (x y : Word k) : Word k := ⟨x.bits ||| y.bits⟩

theorem toInt_injective {x y : Word k} (h : x.toInt = y.toInt) : x = y := by
  cases x with | mk x => cases y with | mk y =>
  unfold toInt at h
  congr 1
  split at h
  · exact BitVec.eq_of_toInt_eq h
  · exact BitVec.eq_of_toNat_eq (Int.ofNat.inj h)

/-- A word stands for a number in the range of its type. -/
theorem holds_toInt (x : Word k) : k.Holds x.toInt := by
  have hlt := x.bits.isLt
  have hnat := x.bits.toInt_eq_toNat_cond
  cases k <;>
    simp only [IntType.Holds, IntType.minValue, IntType.maxValue, IntType.isSigned,
      IntType.width, toInt, if_true, if_false, Bool.false_eq_true] at * <;>
    omega

/-- A number in the range of a type is the number of its word. -/
theorem toInt_ofInt {i : Int} (h : k.Holds i) : (ofInt i : Word k).toInt = i := by
  obtain ⟨hlo, hhi⟩ := h
  cases k <;>
    simp only [IntType.minValue, IntType.maxValue, IntType.isSigned, IntType.width, toInt,
      ofInt, BitVec.toInt_ofInt, BitVec.toNat_ofInt, if_true, if_false,
      Bool.false_eq_true] at *
  · omega
  all_goals rw [Int.bmod_eq_of_le] <;> omega

theorem ofInt_toInt (x : Word k) : ofInt x.toInt = x :=
  toInt_injective (toInt_ofInt x.holds_toInt)

theorem toInt_saturate (i : Int) :
    (saturate i : Word k).toInt = max k.minValue (min i k.maxValue) := by
  apply toInt_ofInt
  constructor
  · exact Int.le_max_left _ _
  · have hle : k.minValue ≤ k.maxValue := by cases k <;> decide
    omega

end Word

end SpmdArray
