import SpmdArray.Shape

/-!
# Broadcasting of shapes

Two shapes are aligned at their last axes and the shorter one is padded with
leading axes of extent 1.  They broadcast if each aligned pair of extents is equal
or contains a 1; the result then takes the extent that is not 1.

## Main definitions

* `Shape.broadcastExtent` — the rule for one pair of extents.
* `Shape.broadcastReversed` — the rule for shapes that are read from the last axis
  to the first.
* `Shape.broadcast` — the rule for shapes.
-/

namespace SpmdArray

namespace Shape

/-- The common extent of an aligned pair: a 0 against a 1 gives 0. -/
def broadcastExtent (a b : Nat) : Option Nat :=
  if a = b ∨ b = 1 then some a
  else if a = 1 then some b
  else none

@[simp] theorem broadcastExtent_self (a : Nat) : broadcastExtent a a = some a := by
  simp [broadcastExtent]

theorem broadcastExtent_comm (a b : Nat) : broadcastExtent a b = broadcastExtent b a := by
  unfold broadcastExtent
  grind

/-- Broadcasting of shapes that are read from the last axis to the first. -/
def broadcastReversed : List Nat → List Nat → Option (List Nat)
  | [], b => some b
  | a, [] => some a
  | x :: a, y :: b => do
    let z ← broadcastExtent x y
    let c ← broadcastReversed a b
    return z :: c

/-- The shape that `a` and `b` broadcast to, if there is one. -/
def broadcast (a b : Shape) : Option Shape :=
  (broadcastReversed a.reverse b.reverse).map List.reverse

end Shape

end SpmdArray
