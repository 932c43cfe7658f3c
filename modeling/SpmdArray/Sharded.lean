import SpmdArray.Device
import SpmdArray.Spmd.Collective
import SpmdArray.Tensor

/-!
# Sharded tensors

A sharded tensor is one rank's handle on a global tensor.  The global tensor is split
along at most one axis; the shard of a rank has the global extents except along the
split axis, where it holds some of the entries, possibly none.

## Main definitions

* `Sharded` — the handle; `Sharded.create` checks that its parts agree.
* `Sharded.ofGlobal` — the handle on a tensor that every rank holds in full.
* `Sharded.toGlobal` — the global tensor, put together on every rank.
* `Sharded.assign` — overwriting the shard.
-/

namespace SpmdArray

/-- One rank's handle on a global tensor. -/
structure Sharded where
  /-- The part of the tensor that this rank holds. -/
  shard : Tensor
  /-- The extents of the global tensor. -/
  gshape : Shape
  /-- The element type. -/
  dtype : DType
  /-- The axis along which the tensor is split, if it is. -/
  split : Option Nat
  /-- The device. -/
  device : Device
  /-- The group that holds the tensor. -/
  comm : Comm
  deriving DecidableEq

namespace Sharded

/-- Whether the extents of a shard agree with the global ones: they are no greater along
the split axis, and equal along the others. -/
def extentsAgree (split : Option Nat) (shard gshape : Shape) : Bool :=
  shard.length == gshape.length &&
    (shard.zip gshape).zipIdx.all fun ((l, g), axis) =>
      if split = some axis then l ≤ g else l = g

/-- The handle with the given parts. -/
def create (shard : Tensor) (gshape : Shape) (dtype : DType) (split : Option Nat)
    (device : Device) (comm : Comm) : Except Failure Sharded := do
  if let some s := split then
    if gshape.ndim ≤ s then Error.raise (.invalidAxis (Size.signed s) gshape.ndim)
  if shard.dtype ≠ dtype then Error.raise (.dtypeMismatch dtype shard.dtype)
  if !extentsAgree split shard.shape gshape then
    Error.raise (.shapeMismatch gshape shard.shape)
  return ⟨shard, gshape, dtype, split, device, comm⟩

/-- The handle on a tensor that every rank holds in full: each rank keeps its balanced
chunk of the split axis. -/
def ofGlobal (t : Tensor) (split : Option Nat) (comm : Comm) : Except Failure Sharded := do
  let shard ←
    match split.bind fun s => (t.shape[s]?).map (s, ·) with
    | some (s, extent) =>
      let c := comm.chunk extent
      t.narrow s c.start c.length
    | none => pure t
  create shard t.shape t.dtype split .cpu comm

/-- Number of axes. -/
def ndim (x : Sharded) : Nat := x.gshape.ndim

/-- Whether the tensor is split over more than one rank. -/
def isDistributed (x : Sharded) : Bool := x.split.isSome && x.comm.isDistributed

/-- Overwrite the shard with a tensor of its shape. -/
def assign (x : Sharded) (src : Tensor) : InPlace Sharded Unit :=
  let w := x.shard.assign src
  ⟨w.result, { x with shard := w.dest }⟩

/-- The diagnostic text of an optional axis. -/
def renderSplit : Option Nat → String
  | none => "None"
  | some s => "Some(" ++ toString s ++ ")"

/-- The diagnostic text of a handle. -/
def render (x : Sharded) : String :=
  "DistTensor \x7b gshape: " ++ Shape.render x.gshape ++ ", lshape: "
    ++ Shape.render x.shard.shape ++ ", split: " ++ renderSplit x.split ++ ", dtype: "
    ++ x.dtype.tag ++ ", device: Device \x7b id: " ++ toString x.device.id ++ " \x7d, comm: "
    ++ x.comm.render ++ " \x7d"

end Sharded

/-- The extent of an axis that should exist. -/
def Shape.extent (s : Shape) (axis : Nat) : Except Fault Nat :=
  match s[axis]? with
  | some e => return e
  | none => throw .outOfRange

namespace Sharded

/-- The checked sum of words, from the first to the last. -/
def total (ws : List (Word .i64)) : Except Fault Int :=
  ws.foldlM (fun sum w =>
    if IntType.i64.Holds (sum + w.toInt) then return sum + w.toInt else throw .overflow) 0

/-- The lengths that all ranks hold along the split axis, in rank order: each rank enters
its own length into a list of zeros, and the lists are added up. -/
def lengths (comm : Comm) (own : Nat) : Attempt (List (Word .i64)) := do
  let mine : List (Word .i64) :=
    (List.range comm.size).map fun r => .ofInt (if r = comm.rank then own else 0)
  let b ← Comm.leftBy (comm.allReduce .sum ⟨.i64, mine⟩)
  return b.values .i64

/-- The global tensor on every rank.  The shards are placed in rank order along the split
axis, each into zeros of the global shape, and the results are added up. -/
def toGlobal (x : Sharded) : Attempt Tensor := do
  match x.split with
  | none => return x.shard
  | some s =>
    if !x.comm.isDistributed then return x.shard
    let own ← x.shard.shape.extent s
    let lens ← lengths x.comm own
    let extent ← x.gshape.extent s
    let sum ← total lens
    if sum ≠ Size.signed extent then
      throw (.error (.incompleteShards s sum extent))
    let start := Size.unsigned (← total (lens.take x.comm.rank))
    let n ← x.gshape.numel
    let offsets ← x.gshape.narrowOffsets s start own
    let w := (Buffer.zeros x.dtype n).scatter offsets x.shard.buffer
    ExceptT.mk (pure w.result)
    let b ← Comm.leftBy (x.comm.allReduce .sum w.dest)
    ExceptT.mk (pure (Tensor.ofBuffer x.gshape b))

end Sharded

end SpmdArray
