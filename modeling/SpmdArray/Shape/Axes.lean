import SpmdArray.Error

/-!
# Axis arguments

A reduction is asked for all elements, for one axis or for several; negative axes
count from the end.

## Main definitions

* `Axis` — the axis argument of a reduction.
* `Axis.normalize` — one entry as a position from the front.
* `Axis.resolve` — the whole argument as a list of distinct positions.
-/

namespace SpmdArray

/-- The axis argument of a reduction. -/
inductive Axis where
  /-- Every element. -/
  | all
  /-- One axis. -/
  | single (axis : Int)
  /-- Several axes. -/
  | many (axes : List Int)
  deriving DecidableEq, Repr

namespace Axis

/-- The axis at a position given as a machine size. -/
def ofSize (n : Nat) : Axis := single (Size.signed n)

/-- The axis, if there is one, and all elements otherwise. -/
def ofOption : Option Int → Axis
  | none => all
  | some a => single a

/-- The position from the front that the entry `a` names among `ndim` axes. -/
def normalize (ndim : Nat) (a : Int) : Except Error Nat :=
  if a < -(ndim : Int) ∨ (ndim : Int) ≤ a then throw (.invalidAxis a ndim)
  else return (if a < 0 then a + ndim else a).toNat

theorem normalize_of_invalid {ndim : Nat} {a : Int}
    (h : a < -(ndim : Int) ∨ (ndim : Int) ≤ a) :
    normalize ndim a = .error (.invalidAxis a ndim) := by
  rw [normalize, if_pos h]
  rfl

/-- Append the positions of the entries to `seen`, refusing the first entry that is out
of range or names a position seen before. -/
def resolveFrom (ndim : Nat) (seen : List Nat) : List Int → Except Error (List Nat)
  | [] => return seen
  | a :: as => do
    let p ← normalize ndim a
    if p ∈ seen then throw (.duplicateAxis p)
    resolveFrom ndim (seen ++ [p]) as

/-- An entry that names no axis is refused. -/
theorem resolveFrom_cons_of_error {ndim : Nat} {seen : List Nat} {a : Int} {e : Error}
    (h : normalize ndim a = .error e) (as : List Int) :
    resolveFrom ndim seen (a :: as) = .error e := by
  rw [resolveFrom, h]
  rfl

/-- An entry that names an axis is refused if the axis was named before, and kept otherwise. -/
theorem resolveFrom_cons_of_ok {ndim p : Nat} {seen : List Nat} {a : Int}
    (h : normalize ndim a = .ok p) (as : List Int) :
    resolveFrom ndim seen (a :: as)
      = if p ∈ seen then .error (.duplicateAxis p) else resolveFrom ndim (seen ++ [p]) as := by
  rw [resolveFrom, h]
  rfl

/-- The distinct positions that the argument names in a shape, in the order given;
`none` stands for all elements. -/
def resolve (s : Shape) : Axis → Except Error (Option (List Nat))
  | all => return none
  | single a => some <$> resolveFrom s.ndim [] [a]
  | many as => some <$> resolveFrom s.ndim [] as

end Axis

end SpmdArray
