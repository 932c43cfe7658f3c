import SpmdArray.Scalar
import SpmdArray.Sharded
import SpmdArray.Tensor.Compute

/-!
# Element-wise functions of two sharded tensors

The shards of the operands are brought into line before the function is applied to them:
positions along an axis always refer to the axes of the result, to which shorter shapes
are aligned at the end.

* Operands that are split along different axes are refused.
* An operand that is split along an axis of extent 1 is sent to all ranks by rank 0 and
  counts as unsplit from then on; the ranks make sure first that rank 0 holds it.
* An unsplit operand is cut down to the chunk of the split one.
* The result is split like the first operand, or else like the second.

## Main definitions

* `Operand` — a scalar or a sharded tensor.
* `Side` — an operand that is being brought into line.
* `Sharded.zipShards` — a function of two tensors, applied to the shards of two operands.
* `Sharded.binary` — the function of two operands with a given name.
-/

namespace SpmdArray

/-- An operand of a function of two operands. -/
inductive Operand where
  /-- A bare value, which counts as an unsplit tensor of shape `[1]`. -/
  | scalar (s : Scalar)
  /-- A sharded tensor. -/
  | tensor (x : Sharded)
  deriving DecidableEq

namespace Operand

/-- Whether the operand is a tensor. -/
def isTensor : Operand → Bool
  | scalar _ => false
  | tensor _ => true

/-- The element type of an operand on its own. -/
def dtype : Operand → DType
  | scalar s => s.dtype
  | tensor x => x.dtype

/-- The global shape of an operand. -/
def gshape : Operand → Shape
  | scalar _ => [1]
  | tensor x => x.gshape

/-- The element types that two operands take next to each other. -/
def dtypes : Operand → Operand → DType × DType
  | scalar a, scalar b =>
    let d := DType.promote (a.dtypeAlongside b.dtype) (b.dtypeAlongside a.dtype)
    (d, d)
  | scalar a, tensor y => (a.dtypeAlongside y.dtype, y.dtype)
  | tensor x, scalar b => (x.dtype, b.dtypeAlongside x.dtype)
  | tensor x, tensor y => (x.dtype, y.dtype)

end Operand

/-- An operand that is being brought into line. -/
structure Side where
  /-- What this rank holds of the operand. -/
  shard : Tensor
  /-- The axis of the result along which the operand is split. -/
  split : Option Nat
  /-- The number of axes of the result in front of those of the operand. -/
  offset : Nat
  /-- The operand, if it is a tensor. -/
  origin : Option Sharded

namespace Side

/-- An operand that takes element type `d` in a result with `ndim` axes. -/
def ofOperand (d : DType) (ndim : Nat) : Operand → Side
  | .scalar s => ⟨s.toTensor d, none, ndim - 1, none⟩
  | .tensor x =>
    let offset := ndim - x.ndim
    ⟨x.shard, x.split.map (· + offset), offset, some x⟩

/-- What this rank holds along an axis of the result. -/
def extent (s : Side) (axis : Nat) : Except Fault Nat :=
  s.shard.shape.extent (axis - s.offset)

/-- Whether this rank holds nothing of a split operand. -/
def isEmpty (s : Side) : Except Fault Bool :=
  match s.split with
  | none => return false
  | some axis => return (← s.extent axis) == 0

/-- Let rank 0 send an operand that is split along an axis of extent 1 to all ranks.
Whether this is done depends on the global shape alone, so that all ranks take part. -/
def replicate (s : Side) : Attempt Side := do
  let some x := s.origin | return s
  let some axis := x.split | return s
  let extent ← x.gshape.extent axis
  if extent ≠ 1 ∨ !x.comm.isDistributed then return s
  let note : Spmd Unit := Spmd.note .warning
  ExceptT.lift note
  -- Every rank has to hold as much as the chunk rule says, that is, rank 0 the only slice.
  let own ← x.shard.shape.extent axis
  let held : Buffer := ⟨.bool, [own == (x.comm.chunk 1).length]⟩
  let agreed ← Comm.leftBy (x.comm.allReduce .all held)
  if agreed ≠ ⟨.bool, [true]⟩ then throw (.error (.misplacedSlice axis))
  let mine ←
    if x.comm.rank = 0 then pure x.shard.buffer
    else (return .zeros x.dtype (← x.gshape.numel) : Except Fault Buffer)
  let b ← Comm.leftBy (x.comm.broadcast 0 mine)
  let shard ← ExceptT.mk (pure (Tensor.ofBuffer x.gshape b))
  return { s with shard, split := none }

/-- Cut an unsplit operand down to the chunk that this rank holds of the operand `other`,
which is split along `axis` of the result.  An extent of 1 stays, since it broadcasts
against the shard. -/
def narrowTo (s other : Side) (axis : Nat) : Except Failure Side := do
  let some x := other.origin | return s
  if axis < s.offset then return s
  let global ← x.gshape.extent (axis - other.offset)
  let own ← s.extent axis
  if own ≠ global then return s
  let chunk := x.comm.chunk global
  let held ← other.extent axis
  if held ≠ chunk.length then
    Error.raise (.unbalancedShard held axis chunk.start chunk.stop)
  return { s with shard := ← s.shard.narrow (axis - s.offset) chunk.start chunk.length }

end Side

namespace Sharded

/-- The operand from which a result takes its device and its group: the split one, or
else the first tensor. -/
def resultOrigin (lhs rhs : Side) : Option Sharded :=
  if lhs.split.isSome then lhs.origin
  else if rhs.split.isSome then rhs.origin
  else lhs.origin <|> rhs.origin

/-- Cut the unsplit one of two operands down to the chunk of the split one. -/
def align (lhs rhs : Side) : Except Failure (Side × Side) :=
  match lhs.split, rhs.split with
  | some axis, none => return (lhs, ← rhs.narrowTo lhs axis)
  | none, some axis => return (← lhs.narrowTo rhs axis, rhs)
  | _, _ => return (lhs, rhs)

/-- The shard of the result for operands that are in line.  The function is not asked for
an empty shard. -/
def combineShards (f : Tensor → Tensor → Except Failure Tensor) (d : DType)
    (lhs rhs : Side) : Except Failure Tensor := do
  let s ← Tensor.commonShape lhs.shard.shape rhs.shard.shape
  let isEmpty ← do
    if ← lhs.isEmpty then pure true else (rhs.isEmpty : Except Fault Bool)
  let t ←
    if isEmpty then (Tensor.zeros s d : Except Fault Tensor)
    else f (lhs.shard.cast d) (rhs.shard.cast d)
  if t.shape ≠ s then Error.raise (.shapeMismatch s t.shape)
  return t

/-- Apply a function of two tensors of one element type to the shards of two operands.
`world` is the group of the result if no operand has one. -/
def zipShards (f : Tensor → Tensor → Except Failure Tensor) (a b : Operand)
    (world : Comm) : Attempt Sharded := do
  let (da, db) := Operand.dtypes a b
  let ndim := max a.gshape.ndim b.gshape.ndim
  let lhs := Side.ofOperand da ndim a
  let rhs := Side.ofOperand db ndim b
  if let (some i, some j) := (lhs.split, rhs.split) then
    if i ≠ j then throw (.error (.differentSplits i j))
  let gshape ← (Tensor.commonShape a.gshape b.gshape : Except Failure Shape)
  let lhs ← lhs.replicate
  let rhs ← rhs.replicate
  let (lhs, rhs) ← (align lhs rhs : Except Failure (Side × Side))
  let t ← (combineShards f (DType.promote da db) lhs rhs : Except Failure Tensor)
  let (device, comm) :=
    match resultOrigin lhs rhs with
    | some x => (x.device, x.comm)
    | none => (.cpu, world)
  ExceptT.mk (pure (create t gshape t.dtype (lhs.split <|> rhs.split) device comm))

/-- The function of two tensors that stands for a name.  Division is true division: the
quotient of integers is a float. -/
def kernel : BinaryFn → Tensor → Tensor → Except Failure Tensor
  | .div, x, y =>
    let d := x.dtype.toFloat
    (x.cast d).binary .div (y.cast d)
  | f, x, y => x.binary f y

/-- The function of two operands with a given name. -/
def binary (f : BinaryFn) (a b : Operand) (world : Comm) : Attempt Sharded :=
  zipShards (kernel f) a b world

end Sharded

end SpmdArray
