import SpmdArray.Size

/-!
# Shapes

A shape is the list of extents of a tensor, outermost axis first.

## Main definitions

* `Shape.numel` — the number of elements, if a size holds it.
* `Shape.render` — the text of a list of sizes, as in `[2, 3]`.
* `Shape.withExtent?`, `Shape.dropAxes`, `Shape.flattenAxes` — shapes with some
  extents replaced or removed.
* `Shape.strides` — distances in row-major storage.
-/

namespace SpmdArray

/-- The extents of a tensor, outermost axis first. -/
abbrev Shape := List Nat

namespace Shape

/-- Number of elements: the product of the extents, from the first axis to the last. -/
def numelOn (o : Overflow) (s : Shape) : Except Fault Nat := Size.product o s

/-- Number of elements on a machine that checks it. -/
abbrev numel (s : Shape) : Except Fault Nat := numelOn .stops s

/-- Number of axes. -/
abbrev ndim (s : Shape) : Nat := s.length

/-- The text of a list of sizes: `[2, 3]`. -/
def render (s : List Nat) : String :=
  "[" ++ ", ".intercalate (s.map toString) ++ "]"

/-- The shape with the extent of `axis` replaced, if there is such an axis. -/
def withExtent? (s : Shape) (axis extent : Nat) : Option Shape :=
  if axis < s.length then some (s.set axis extent) else none

/-- The shape without the listed axes. -/
def dropAxes (s : Shape) (axes : List Nat) : Shape :=
  (s.zipIdx.filter fun p => p.2 ∉ axes).map (·.1)

/-- The shape with extent 1 at the listed axes. -/
def flattenAxes (s : Shape) (axes : List Nat) : Shape :=
  s.zipIdx.map fun p => if p.2 ∈ axes then 1 else p.1

@[simp] theorem length_flattenAxes (s : Shape) (axes : List Nat) :
    (s.flattenAxes axes).length = s.length := by
  simp [flattenAxes]

/-- The shape of a reduction over the listed axes: they keep extent 1 if `keepdim`
holds, and are dropped otherwise. -/
def reduced (s : Shape) (axes : List Nat) (keepdim : Bool) : Shape :=
  if keepdim then s.flattenAxes axes else s.dropAxes axes

/-- Distances between neighbours along each axis in row-major storage: the product of
the extents of the later axes, from the last axis to the first. -/
def stridesOn (o : Overflow) : Shape → Except Fault (List Nat)
  | [] => return []
  | [_] => return [1]
  | _ :: e :: s => do
    let ds ← stridesOn o (e :: s)
    return (← Size.store o (ds.headD 1 * e)) :: ds

/-- Distances between neighbours on a machine that checks them. -/
abbrev strides (s : Shape) : Except Fault (List Nat) := stridesOn .stops s

/-- The shape with axes of extent 1 put in front so that it has at least `n` axes. -/
def padTo (n : Nat) (s : Shape) : Shape :=
  List.replicate (n - s.length) 1 ++ s

theorem length_padTo {n : Nat} {s : Shape} (h : s.length ≤ n) : (s.padTo n).length = n := by
  simp [padTo, h]

@[simp] theorem padTo_length (s : Shape) : s.padTo s.length = s := by
  simp [padTo]

end Shape

end SpmdArray
