import SpmdArray.Ieee.Ball

/-!
# Elementary functions

The exponential, the logarithm, the sine, the cosine and the hyperbolic tangent,
correctly rounded: the result is the datum nearest to the exact value.  Except at the
arguments that are treated first, the exact values are transcendental, so a precision
at which their rounding can be told always exists.

## Main definitions

* `Ieee.Num.exp`, `log`, `sin`, `cos`, `tanh` — the functions on data.
-/

namespace SpmdArray

namespace Ieee

variable {F : Format}

/-- Whether `m · 2 ^ e` is so small that a function with derivative 1 and curvature 0 at
zero rounds to its argument. -/
def isTiny (F : Format) (m : Nat) (e : Int) : Bool :=
  m.log2 + e < -((F.fracBits / 2 + 2 : Nat) : Int)

namespace Num

/-- The datum nearest to one. -/
def one : Num F := ofInt 1

/-- Natural exponential. -/
def exp (x : Num F) : Num F :=
  match x.value with
  | .nan => nan
  | .infinite neg => if neg then zero false else infinity false
  | .finite neg m e =>
    if m = 0 then one
    else if F.expBits ≤ m.log2 + e then
      -- The exponent of the result exceeds those of the format.
      if neg then zero false else infinity false
    else
      refine (fun p =>
        let (s, n) := (Ball.ofDyadic p neg m e).exp p
        s.round? (n - p)) (firstPrecision F) 8

/-- Natural logarithm. -/
def log (x : Num F) : Num F :=
  match x.value with
  | .nan => nan
  | .infinite neg => if neg then nan else infinity false
  | .finite neg m e =>
    if m = 0 then infinity true
    else if neg then nan
    else if x = one then zero false
    else refine (fun p => (Ball.log p m e).round? (-p)) (firstPrecision F) 8

/-- The remainder of `± m · 2 ^ e` by a quarter turn, between minus and plus an eighth
of a turn, and the number of quarter turns that were taken off. -/
def quarterTurns (p : Nat) (neg : Bool) (m : Nat) (e : Int) : Ball × Int :=
  let x := Ball.ofDyadic p neg m e
  let quarter := (Ball.pi p).divNat 2
  let q := (2 * x.mid + quarter.mid) / (2 * quarter.mid)
  (x.sub (quarter.scale q), q)

/-- The sine, shifted by some quarter turns, of a non-zero number. -/
def circular (shift : Int) (neg : Bool) (m : Nat) (e : Int) : Num F :=
  refine (fun p =>
    -- A great argument needs as many more bits of the circle number.
    let p := p + (m.log2 + e + 2).toNat
    let (r, q) := quarterTurns p neg m e
    let q := (q + shift) % 4
    let s := if q % 2 = 0 then r.sin p else r.cos p
    (if q < 2 then s else s.neg).round? (-p)) (firstPrecision F) 8

/-- Sine. -/
def sin (x : Num F) : Num F :=
  match x.value with
  | .nan | .infinite _ => nan
  | .finite neg m e =>
    if m = 0 ∨ isTiny F m e then x else circular 0 neg m e

/-- Cosine. -/
def cos (x : Num F) : Num F :=
  match x.value with
  | .nan | .infinite _ => nan
  | .finite neg m e => if m = 0 then one else circular 1 neg m e

/-- Hyperbolic tangent. -/
def tanh (x : Num F) : Num F :=
  match x.value with
  | .nan => nan
  | .infinite neg => ofInt (signed neg 1)
  | .finite neg m e =>
    if m = 0 ∨ isTiny F m e then x
    else if (F.fracBits.log2 + 1 : Int) ≤ m.log2 + e then
      -- The result is closer to one than to any other datum.
      ofInt (signed neg 1)
    else
      refine (fun p =>
        -- With `w = exp (-2 |x|)`, the result is `(1 - w) / (1 + w)`.
        let (s, n) := (Ball.ofDyadic p true m (e + 1)).exp p
        let w := s.shift n
        let t := ((Ball.ofNat p 1).sub w).div p ((Ball.ofNat p 1).add w)
        (if neg then t.neg else t).round? (-p)) (firstPrecision F) 8

end Num

end Ieee

end SpmdArray
