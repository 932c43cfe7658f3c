import SpmdArray.Ieee.Arith

/-!
# Ball arithmetic

A real number that is known up to an error is kept as a ball: a midpoint and a
radius, both integers that count units of `2 ^ -p` for a working precision `p`.
Every operation returns a ball that contains each result of members of its arguments,
so a rounding that both ends of a ball share is the correct rounding of the number.

## Main definitions

* `Ieee.Ball` — midpoint and radius; its arithmetic.
* `Ieee.Ball.series` — power series whose terms at least halve.
* `Ieee.Ball.ln2`, `Ieee.Ball.pi` — constants.
* `Ieee.Ball.exp`, `Ieee.Ball.log`, `Ieee.Ball.sin`, `Ieee.Ball.cos` — functions.
* `Ieee.Ball.round?`, `Ieee.refine` — the common rounding of a ball, and the search
  for a precision at which it exists.
-/

namespace SpmdArray

namespace Ieee

/-- A real number within `rad` units of `mid` units. -/
structure Ball where
  /-- The midpoint. -/
  mid : Int
  /-- The radius. -/
  rad : Nat

namespace Ball

/-- The ball that a floor of an exact number leaves. -/
def floored (i : Int) : Ball := ⟨i, 1⟩

/-- The integer `n` at precision `p`. -/
def ofNat (p n : Nat) : Ball := ⟨n <<< p, 0⟩

/-- The number `± m · 2 ^ e` at precision `p`. -/
def ofDyadic (p : Nat) (neg : Bool) (m : Nat) (e : Int) : Ball :=
  let s := e + p
  if 0 ≤ s then ⟨signed neg (m <<< s.toNat), 0⟩
  else ⟨signed neg (m >>> (-s).toNat), 1⟩

/-- A ball with a greater radius. -/
def widen (a : Ball) (r : Nat) : Ball := ⟨a.mid, a.rad + r⟩

/-- Sum. -/
def add (a b : Ball) : Ball := ⟨a.mid + b.mid, a.rad + b.rad⟩

/-- Difference. -/
def sub (a b : Ball) : Ball := ⟨a.mid - b.mid, a.rad + b.rad⟩

/-- Opposite. -/
def neg (a : Ball) : Ball := ⟨-a.mid, a.rad⟩

/-- Product with an integer. -/
def scale (a : Ball) (i : Int) : Ball := ⟨a.mid * i, a.rad * i.natAbs⟩

/-- Quotient by a positive integer. -/
def divNat (a : Ball) (n : Nat) : Ball := ⟨a.mid / n, a.rad / n + 2⟩

/-- Product with a power of two. -/
def shift (a : Ball) (e : Int) : Ball :=
  if 0 ≤ e then ⟨a.mid <<< e.toNat, a.rad <<< e.toNat⟩
  else ⟨a.mid >>> (-e).toNat, a.rad >>> (-e).toNat + 2⟩

/-- Product. -/
def mul (p : Nat) (a b : Ball) : Ball :=
  ⟨(a.mid * b.mid) >>> p,
    (a.mid.natAbs * b.rad + b.mid.natAbs * a.rad + a.rad * b.rad) >>> p + 2⟩

/-- Quotient by a ball that is clearly positive. -/
def div (p : Nat) (a b : Ball) : Ball :=
  let q := (a.mid <<< p) / b.mid
  ⟨q, (a.rad <<< p + q.natAbs * b.rad) / (b.mid - b.rad).toNat + 2⟩

/-- The series with first term `term` in which term `k` is multiplied by `ratio` and
divided by `step k` to give the next one, and is divided by `weight k` before it is
added to `sum`.  Each term has to be at most half of the one before it, so that the
rest of the series is no greater than the term at which it is cut off. -/
def series (p : Nat) (ratio : Ball) (step weight : Nat → Nat) :
    Nat → Nat → Ball → Ball → Ball
  -- Not reached with enough steps; the radius makes the result useless.
  | 0, _, _, sum => sum.widen (1 <<< p)
  | fuel + 1, k, term, sum =>
    let sum := sum.add (term.divNat (weight k))
    if term.mid.natAbs ≤ 1 then sum.widen (2 * term.rad + 4)
    else series p ratio step weight fuel (k + 1) ((term.mul p ratio).divNat (step k)) sum

/-- The inverse hyperbolic tangent, or the inverse tangent if `alternate` holds, of
`1 / k` for `2 ≤ k`. -/
def arcInverse (p : Nat) (alternate : Bool) (k : Nat) : Ball :=
  let square := (ofNat p 1).divNat (k * k)
  series p (if alternate then square.neg else square) (fun _ => 1) (fun j => 2 * j + 1)
    (p + 8) 0 ((ofNat p 1).divNat k) ⟨0, 0⟩

/-- The natural logarithm of two. -/
def ln2 (p : Nat) : Ball := (arcInverse p false 3).scale 2

/-- The circle number. -/
def pi (p : Nat) : Ball :=
  ((arcInverse p true 5).scale 16).sub ((arcInverse p true 239).scale 4)

/-- The exponential, as a ball between 1 and 2 and a power of two. -/
def exp (p : Nat) (x : Ball) : Ball × Int :=
  let l := ln2 p
  let n := x.mid / l.mid
  let r := x.sub (l.scale n)
  (series p r (· + 1) (fun _ => 1) (p + 8) 0 (ofNat p 1) ⟨0, 0⟩, n)

/-- The natural logarithm of `m · 2 ^ e` for positive `m`. -/
def log (p m : Nat) (e : Int) : Ball :=
  -- `m / 2 ^ l` lies between 5/7 and 7/5, where the series below converges fast.
  let l := if 7 <<< m.log2 < 5 * m then m.log2 + 1 else m.log2
  let z := floored ((((m : Int) - (1 <<< l : Nat)) <<< p) / ((m + (1 <<< l) : Nat) : Int))
  let s := series p (z.mul p z) (fun _ => 1) (fun j => 2 * j + 1) (p + 8) 0 z ⟨0, 0⟩
  (s.scale 2).add ((ln2 p).scale (e + l))

/-- The sine of a ball between -1 and 1. -/
def sin (p : Nat) (x : Ball) : Ball :=
  series p (x.mul p x).neg (fun k => (2 * k + 2) * (2 * k + 3)) (fun _ => 1) (p + 8) 0 x
    ⟨0, 0⟩

/-- The cosine of a ball between -1 and 1. -/
def cos (p : Nat) (x : Ball) : Ball :=
  series p (x.mul p x).neg (fun k => (2 * k + 1) * (2 * k + 2)) (fun _ => 1) (p + 8) 0
    (ofNat p 1) ⟨0, 0⟩

/-- The rounding that all members of a ball of units of `2 ^ e` share, if they do and if
none of them is zero. -/
def round? {F : Format} (b : Ball) (e : Int) : Option (Num F) :=
  if b.rad < b.mid.natAbs then
    let neg : Bool := b.mid < 0
    let lo : Num F := Ieee.ofDyadic neg (b.mid.natAbs - b.rad) e
    let hi : Num F := Ieee.ofDyadic neg (b.mid.natAbs + b.rad) e
    if lo = hi then some lo else none
  else none

end Ball

/-- Ask for a rounding at the precision `p`, and at greater ones up to `rounds` times if
there is no answer.  The last precision exceeds what any argument is known to need. -/
def refine {F : Format} (attempt : Nat → Option (Num F)) (p : Nat) : Nat → Num F
  | 0 => .nan
  | rounds + 1 =>
    match attempt p with
    | some x => x
    | none => refine attempt (2 * p) rounds

/-- The precision at which a search for a rounding to `F` starts. -/
def firstPrecision (F : Format) : Nat := 2 * F.fracBits + 24

end Ieee

end SpmdArray
