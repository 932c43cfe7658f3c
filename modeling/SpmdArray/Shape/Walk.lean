import SpmdArray.Error

/-!
# Walks through storage

Every change of layout of a contiguous tensor copies elements: the destination is
visited in row-major order, and each of its coordinates names the source element to
copy.

## Main definitions

* `Shape.next` — the coordinate that follows another one, as an odometer counts.
* `Shape.offset` — the position in storage of a source coordinate.
* `Shape.gatherOffsets` — the source positions of a whole walk.
* `Shape.broadcastOffsets`, `Shape.repeatOffsets`, `Shape.narrowOffsets` — the walks
  of the three layout changes.
-/

namespace SpmdArray

namespace Shape

/-- The coordinate after `c` in row-major order, and whether the count started over:
the last axis moves first, and an axis that is through passes a carry to the one
before it. -/
def next : Shape → List Nat → List Nat × Bool
  | e :: s, i :: c =>
    match next s c with
    | (c', false) => (i :: c', false)
    | (c', true) => if i + 1 < e then ((i + 1) :: c', false) else (0 :: c', true)
  | _, _ => ([], true)

/-- The position in storage of a destination coordinate: each axis maps its entry to a
source entry, which counts as many elements as the stride says. -/
def offset : List (Nat → Nat) → List Nat → List Nat → Nat
  | f :: fs, d :: ds, i :: c => f i * d + offset fs ds c
  | _, _, _ => 0

/-- The positions of `n` coordinates from `c` on, put in front of `acc` in reverse.  The
sum of an offset is stored once: it is a size exactly if all sums and products on the way
are. -/
def walk (o : Overflow) (s : Shape) (sources : List (Nat → Nat)) (strides : List Nat) :
    Nat → List Nat → List Nat → Except Fault (List Nat)
  | 0, _, acc => return acc
  | n + 1, c, acc => do
    let i ← Size.store o (offset sources strides c)
    walk o s sources strides n (next s c).1 (i :: acc)

/-- The source positions of all coordinates of `s` in row-major order.  `sources` and
`strides` hold one entry for each axis of `s`. -/
def gatherOffsetsOn (o : Overflow) (s : Shape) (strides : List Nat)
    (sources : List (Nat → Nat)) : Except Fault (List Nat) := do
  let n ← s.numelOn o
  return (← walk o s sources strides n (s.map fun _ => 0) []).reverse

/-- The source positions on a machine that checks them. -/
abbrev gatherOffsets (s : Shape) (strides : List Nat) (sources : List (Nat → Nat)) :
    Except Fault (List Nat) := gatherOffsetsOn .stops s strides sources

/-- The source positions that broadcast a tensor of shape `src` to the shape `dst`: axes
of extent 1 stay at their only entry.  A source with more axes than the destination
cannot be padded. -/
def broadcastOffsets (src dst : Shape) : Except Fault (List Nat) := do
  if dst.length < src.length then throw .negativeLength
  let padded := src.padTo dst.length
  gatherOffsets dst (← padded.strides) (padded.map fun e i => if e = 1 then 0 else i)

/-- The extents of a tensor of shape `src` that is tiled. -/
def tiledOn (o : Overflow) (src : Shape) (multiples : List Nat) : Except Fault Shape :=
  (src.zip multiples).mapM fun (e, m) => Size.store o (e * m)

/-- The source positions that tile a tensor of shape `src` as often along each axis as
`multiples` says: entries start over at the extent. -/
def repeatOffsetsOn (o : Overflow) (src : Shape) (multiples : List Nat) :
    Except Fault (List Nat) := do
  let dst ← tiledOn o src multiples
  gatherOffsetsOn o dst (← src.stridesOn o) (src.map fun e i => i % e)

/-- The source positions of a tiled tensor on a machine that checks them. -/
abbrev repeatOffsets (src : Shape) (multiples : List Nat) : Except Fault (List Nat) :=
  repeatOffsetsOn .stops src multiples

/-- The source positions of the slice `start..start + len` along `dim`. -/
def narrowOffsets (s : Shape) (dim start len : Nat) : Except Fault (List Nat) := do
  match s.withExtent? dim len with
  | none => throw .outOfRange
  | some dst =>
    gatherOffsets dst (← s.strides) ((s.map fun _ i => i).set dim fun i => i + start)

end Shape

end SpmdArray
