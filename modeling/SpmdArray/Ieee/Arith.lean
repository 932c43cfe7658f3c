import SpmdArray.Ieee.Format

/-!
# Exactly rounded arithmetic

Each operation computes its exact result, or enough bits of it together with a mark
that more follow, and rounds once.

## Main definitions

* `Ieee.Num.add`, `sub`, `mul`, `div`, `sqrt` — the arithmetic operations.
* `Ieee.Num.toIntegral` — rounding to an integral number, by a rule for the part that
  is cut off.
* `Ieee.Num.truncate?` — the integer part of a finite number.
-/

namespace SpmdArray

namespace Ieee

variable {F : Format}

/-- The integer `± m`. -/
def signed (neg : Bool) (m : Nat) : Int := if neg then -(m : Int) else m

/-- `mark q more` is twice `q`, plus one if more bits follow.  Rounding at a place above
the last one treats the result like the exact number. -/
def mark (q : Nat) (more : Bool) : Nat := 2 * q + more.toNat

namespace Num

/-- Sum of two data.  A sum of zero is negative only if both terms are. -/
def add (x y : Num F) : Num F :=
  match x.value, y.value with
  | .nan, _ | _, .nan => nan
  | .infinite s, .infinite t => if s = t then infinity s else nan
  | .infinite s, .finite _ _ _ => infinity s
  | .finite _ _ _, .infinite t => infinity t
  | .finite s m e, .finite t n d =>
    let q := min e d
    let sum := signed s (m <<< (e - q).toNat) + signed t (n <<< (d - q).toNat)
    if sum = 0 then zero (s && t) else ofDyadic (sum < 0) sum.natAbs q

/-- Difference of two data. -/
def sub (x y : Num F) : Num F := x.add y.neg

/-- Product of two data. -/
def mul (x y : Num F) : Num F :=
  match x.value, y.value with
  | .nan, _ | _, .nan => nan
  | .infinite s, .infinite t => infinity (s != t)
  | .infinite s, .finite t n _ => if n = 0 then nan else infinity (s != t)
  | .finite s m _, .infinite t => if m = 0 then nan else infinity (s != t)
  | .finite s m e, .finite t n d => ofDyadic (s != t) (m * n) (e + d)

/-- Quotient of two data. -/
def div (x y : Num F) : Num F :=
  match x.value, y.value with
  | .nan, _ | _, .nan => nan
  | .infinite _, .infinite _ => nan
  | .infinite s, .finite t _ _ => infinity (s != t)
  | .finite s _ _, .infinite t => zero (s != t)
  | .finite s m e, .finite t n d =>
    if n = 0 then (if m = 0 then nan else infinity (s != t))
    else
      -- Enough bits for the quotient to have three beyond the fraction.
      let k := F.fracBits + 3 + n.log2 - m.log2
      let q := m <<< k / n
      ofDyadic (s != t) (mark q (q * n != m <<< k)) (e - d - k - 1)

/-- Square root of a datum. -/
def sqrt (x : Num F) : Num F :=
  match x.value with
  | .nan => nan
  | .infinite neg => if neg then nan else infinity false
  | .finite neg m e =>
    if m = 0 then x
    else if neg then nan
    else
      -- An even exponent, and enough bits for the root to have three beyond the fraction.
      let k := 2 * F.fracBits + 6 - m.log2
      let k := if (e - k) % 2 = 0 then k else k + 1
      let n := m <<< k
      let r := n.sqrt
      ofDyadic false (mark r (r * r != n)) ((e - k) / 2 - 1)

/-- Round a datum to an integral number of the same sign.  `up neg frac half` tells
whether to go to the greater absolute value when a part is cut off whose double
compares to one like `half`. -/
def toIntegral (up : Bool → Ordering → Bool) (x : Num F) : Num F :=
  match x.value with
  | .nan => nan
  | .infinite neg => infinity neg
  | .finite neg m e =>
    if 0 ≤ e then x
    else
      let k := (-e).toNat
      let n := m >>> k
      let r := m - n <<< k
      ofDyadic neg (if r ≠ 0 ∧ up neg (compare (2 * r) (1 <<< k)) then n + 1 else n) 0

/-- The largest integral number that is not greater. -/
def floor (x : Num F) : Num F := x.toIntegral fun neg _ => neg

/-- The smallest integral number that is not less. -/
def ceil (x : Num F) : Num F := x.toIntegral fun neg _ => !neg

/-- The nearest integral number; a half goes away from zero. -/
def round (x : Num F) : Num F := x.toIntegral fun _ half => half != .lt

/-- The integer part of a finite number. -/
def truncate? (x : Num F) : Option Int :=
  match x.value with
  | .finite neg m e =>
    some (signed neg (if 0 ≤ e then m <<< e.toNat else m >>> (-e).toNat))
  | _ => none

end Num

end Ieee

end SpmdArray
