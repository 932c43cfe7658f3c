import SpmdArray.Ieee.Elementary

/-!
# Powers

The power of two data, correctly rounded.  A power of dyadic numbers may be dyadic
itself, and may then lie half way between two data; such powers have few bits and are
computed exactly.

## Main definitions

* `Ieee.stripTwos` — a dyadic number with an odd significand.
* `Ieee.exactPower?` — the power, if it is dyadic and short.
* `Ieee.Num.pow` — the power of two data.
-/

namespace SpmdArray

namespace Ieee

variable {F : Format}

/-- Move factors of two from the significand of `m · 2 ^ e` to its exponent, at most
`fuel` of them. -/
def stripTwos : Nat → Nat → Int → Nat × Int
  | 0, m, e => (m, e)
  | fuel + 1, m, e => if m % 2 = 0 then stripTwos fuel (m / 2) (e + 1) else (m, e)

/-- The number `m · 2 ^ e` with an odd significand, for positive `m`. -/
def oddPart (m : Nat) (e : Int) : Nat × Int := stripTwos m.log2 m e

/-- Take square roots of `m · 2 ^ e`, one for each factor of two by which `f` is below
zero, as long as they are exact. -/
def exactRoots? : Nat → Nat → Int → Int → Option (Nat × Int × Nat)
  | 0, _, _, _ => none
  | fuel + 1, m, e, f =>
    if 0 ≤ f then some (m, e, f.toNat)
    else if e % 2 = 0 ∧ m.sqrt * m.sqrt = m then exactRoots? fuel m.sqrt (e / 2) (f + 1)
    else none

/-- The power `(m · 2 ^ e) ^ (± n · 2 ^ f)` for odd `m` and `n`, if it is a dyadic number
with not many more than `limit` bits. -/
def exactPower? (limit m : Nat) (e : Int) (neg : Bool) (n : Nat) (f : Int) :
    Option (Nat × Int) := do
  let (m, e, f) ← exactRoots? 64 m e f
  let y := n <<< f
  if m = 1 then some (1, e * signed neg y)
  else if neg ∨ limit < y then none
  else some (Nat.pow m y, e * y)

namespace Num

/-- Zero or infinity, as the limit of a power whose exponent is beyond the format. -/
def limit (neg grows : Bool) : Num F := if grows then infinity neg else zero neg

/-- The datum with sign `s` nearest to `(m · 2 ^ e) ^ (± n · 2 ^ f)` for odd `m` and `n`,
where the base is not one. -/
def powFinite (s : Bool) (m : Nat) (e : Int) (neg : Bool) (n : Nat) (f : Int) : Num F :=
  -- The base exceeds one if its leading bit does, as it is not one itself.
  let grows := decide (0 ≤ m.log2 + e) != neg
  if ((F.expBits + F.fracBits + 2 : Nat) : Int) ≤ n.log2 + f then limit s grows
  else
    match exactPower? (F.fracBits + 3) m e neg n f with
    | some (r, d) => ofDyadic s r d
    | none =>
      refine (fun p =>
        let p := p + (n.log2 + f + 2).toNat
        let t := ((Ball.log p m e).scale (signed neg n)).shift f
        if F.expBits ≤ (t.mid.natAbs.log2 : Int) - p then some (limit s grows)
        else
          let (r, d) := t.exp p
          (if s then r.neg else r).round? (d - p)) (firstPrecision F) 8

/-- Power.  Anything to the power of zero, and one to any power, is one. -/
def pow (x y : Num F) : Num F :=
  match x.value, y.value with
  | .finite s m e, .finite t n d =>
    if n = 0 then one
    else
      let (m, e) := oddPart m e
      let (n, d) := oddPart n d
      let odd := d = 0
      if m = 0 then limit (s && odd) t
      else if s ∧ d < 0 then nan
      else if m = 1 ∧ e = 0 then ofInt (signed (s && odd) 1)
      else powFinite (s && odd) m e t n d
  | .infinite s, .finite t n d =>
    if n = 0 then one else limit (s && (oddPart n d).2 = 0) (!t)
  | .finite _ m e, .infinite t =>
    if x.abs = one then one
    else limit false ((m ≠ 0 && 0 ≤ m.log2 + e) != t)
  | .infinite _, .infinite t => limit false (!t)
  | .nan, .finite _ n _ => if n = 0 then one else nan
  | .finite _ _ _, .nan => if x = one then one else nan
  | _, _ => nan

end Num

end Ieee

end SpmdArray
