/-!
# Binary floating point formats

A datum of a binary interchange format is a bit pattern: a sign bit, a biased exponent
and a fraction.  The pattern without its sign, read as a number, grows with the
absolute value of the datum; rounding works on these numbers, so that a carry out of
the fraction moves on into the exponent, and out of the finite data into infinity, by
itself.

## Main definitions

* `Ieee.Format` — the widths of exponent and fraction; `single` and `double`.
* `Ieee.Num F` — the data of a format, as bit patterns.
* `Ieee.Num.value` — what a datum stands for.
* `Ieee.ofDyadic` — the datum nearest to `± m · 2 ^ e`, ties to the even pattern.
* `Ieee.Num.compare?` — the order of numbers; a NaN has no place in it.
-/

namespace SpmdArray

namespace Ieee

/-- A binary interchange format. -/
structure Format where
  /-- Width of the biased exponent in bits. -/
  expBits : Nat
  /-- Width of the fraction in bits. -/
  fracBits : Nat
  deriving DecidableEq, Repr

namespace Format

/-- The 32-bit format. -/
def single : Format := ⟨8, 23⟩

/-- The 64-bit format. -/
def double : Format := ⟨11, 52⟩

/-- Width of a datum without its sign. -/
def bodyBits (F : Format) : Nat := F.expBits + F.fracBits

/-- Width of a datum. -/
def width (F : Format) : Nat := F.bodyBits + 1

/-- Exponent of the unit in the last place of the smallest data. -/
def minExp (F : Format) : Int := 2 - (1 <<< (F.expBits - 1) : Nat) - F.fracBits

/-- The pattern of infinity without its sign.  Smaller patterns are finite, greater ones
are no numbers. -/
def infinity (F : Format) : Nat := ((1 <<< F.expBits) - 1) <<< F.fracBits

end Format

/-- A datum of the format `F`. -/
structure Num (F : Format) where
  /-- The bit pattern: sign, biased exponent, fraction. -/
  bits : BitVec F.width
  deriving DecidableEq

/-- What a datum stands for. -/
inductive Value where
  /-- Not a number. -/
  | nan
  /-- An infinity, negative if the flag is set. -/
  | infinite (neg : Bool)
  /-- The number `± sig · 2 ^ exp`, negative if the flag is set; zeros are signed. -/
  | finite (neg : Bool) (sig : Nat) (exp : Int)
  deriving DecidableEq, Repr

variable {F : Format}

namespace Num

/-- The pattern without the sign. -/
def body (x : Num F) : Nat := x.bits.toNat % (1 <<< F.bodyBits)

/-- Whether the sign bit is set. -/
def isNeg (x : Num F) : Bool := 1 <<< F.bodyBits ≤ x.bits.toNat

/-- The datum with the given sign and pattern. -/
def ofBody (neg : Bool) (p : Nat) : Num F :=
  ⟨BitVec.ofNat F.width (if neg then (1 <<< F.bodyBits) + p else p)⟩

/-- Zero with a sign. -/
def zero (neg : Bool) : Num F := ofBody neg 0

/-- Infinity with a sign. -/
def infinity (neg : Bool) : Num F := ofBody neg F.infinity

/-- The datum that stands for an undefined result. -/
def nan : Num F := ofBody false (F.infinity + (1 <<< (F.fracBits - 1)))

/-- Whether the datum is no number. -/
def isNaN (x : Num F) : Bool := F.infinity < x.body

/-- Whether the datum is a finite number. -/
def isFinite (x : Num F) : Bool := x.body < F.infinity

/-- The significand and the exponent of a finite pattern: below `2 ^ fracBits` the
pattern is the significand, and each further exponent adds an implicit leading bit. -/
def split (F : Format) (p : Nat) : Nat × Int :=
  let e := p >>> F.fracBits
  if e = 0 then (p, F.minExp)
  else ((1 <<< F.fracBits) + p % (1 <<< F.fracBits), F.minExp + (e - 1 : Nat))

/-- What the datum stands for. -/
def value (x : Num F) : Value :=
  if x.isNaN then .nan
  else if x.isFinite then .finite x.isNeg (split F x.body).1 (split F x.body).2
  else .infinite x.isNeg

/-- The datum with the opposite sign. -/
def neg (x : Num F) : Num F := ofBody (!x.isNeg) x.body

/-- The datum without its sign. -/
def abs (x : Num F) : Num F := ofBody false x.body

/-- An integer that orders the numbers of the format: the pattern with its sign.  Both
zeros have the key 0. -/
def key (x : Num F) : Int := if x.isNeg then -(x.body : Int) else x.body

/-- The order of two data; none if one of them is no number. -/
def compare? (x y : Num F) : Option Ordering :=
  if x.isNaN || y.isNaN then none else some (compare x.key y.key)

end Num

/-! ### Rounding -/

/-- The integer nearest to `m / 2 ^ s`; a half goes to the even neighbour. -/
def shiftNearest (m s : Nat) : Nat :=
  if m.log2 + 1 < s then 0
  else
    let q := m >>> s
    let r := m - q <<< s
    if 1 <<< s < 2 * r ∨ (1 <<< s = 2 * r ∧ q % 2 = 1) then q + 1 else q

/-- The datum of `F` nearest to `± m · 2 ^ e`; of two equally near data, the one whose
pattern is even.  Numbers beyond the finite data become infinite. -/
def ofDyadic (neg : Bool) (m : Nat) (e : Int) : Num F :=
  if m = 0 then .zero neg
  else
    -- The exponent of the last place that the result keeps.
    let q := max (m.log2 + e - F.fracBits) F.minExp
    let sig := if q ≤ e then m <<< (e - q).toNat else shiftNearest m (q - e).toNat
    .ofBody neg (min (((q - F.minExp).toNat <<< F.fracBits) + sig) F.infinity)

/-- The datum nearest to an integer. -/
def ofInt (i : Int) : Num F := ofDyadic (i < 0) i.natAbs 0

/-- The datum of `G` nearest to a datum of another format. -/
def Num.convert {G : Format} (x : Num F) : Num G :=
  match x.value with
  | .nan => .nan
  | .infinite neg => .infinity neg
  | .finite neg m e => ofDyadic neg m e

end Ieee

end SpmdArray
