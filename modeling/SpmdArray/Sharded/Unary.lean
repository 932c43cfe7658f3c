import SpmdArray.Sharded
import SpmdArray.Tensor.Compute

/-!
# Element-wise functions of one sharded tensor

The function is applied to the shard of each rank, in a float type.  Nothing is
exchanged.

## Main definitions

* `Sharded.mapShard` — a function of one tensor, applied to the shard.
* `Sharded.mapShardInto` — the same, with the result written over the shard of an output.
* `Sharded.unary`, `Sharded.unaryInto` — the function with a given name.
-/

namespace SpmdArray

namespace Tensor

/-- Repeat a tensor along the axes along which it is shorter than `target`. -/
def tileTo (t : Tensor) (target : Shape) : Except Failure Tensor :=
  t.tile (List.zipWith (fun e g => if e = g then 1 else g) (t.shape.padTo target.length)
    target)

end Tensor

namespace Sharded

/-- Apply a function of one tensor to the shard, as floats. -/
def mapShard (f : Tensor → Except Failure Tensor) (x : Sharded) : Except Failure Sharded := do
  let t ← f (x.shard.cast x.dtype.toFloat)
  create t x.gshape t.dtype x.split x.device x.comm

/-- The tensor that is to be written over the shard of `out`. -/
def shardFor (f : Tensor → Except Failure Tensor) (x out : Sharded) :
    Except Failure Tensor := do
  let d := x.dtype.toFloat
  if DType.promote d out.dtype ≠ out.dtype then
    Error.raise (.outputTooNarrow d out.dtype)
  let target ← Tensor.commonShape x.shard.shape out.shard.shape
  let t ← f (← (x.shard.cast d).tileTo target)
  if t.shape ≠ out.shard.shape then
    Error.raise (.shapeMismatch out.shard.shape t.shape)
  return t

/-- Apply a function of one tensor to the shard, as floats and after broadcasting it
against the shard of `out`, and write the result over that shard. -/
def mapShardInto (f : Tensor → Except Failure Tensor) (x out : Sharded) :
    InPlace Sharded Sharded :=
  match shardFor f x out with
  | .error e => ⟨.error e, out⟩
  | .ok t =>
    let w := out.assign t
    ⟨w.result.map fun _ => w.dest, w.dest⟩

/-- The function of a sharded tensor with a given name. -/
def unary (f : UnaryFn) (x : Sharded) : Except Failure Sharded :=
  x.mapShard fun t => .ok (t.unary f)

/-- The function with a given name, with the result written over the shard of `out`. -/
def unaryInto (f : UnaryFn) (x out : Sharded) : InPlace Sharded Sharded :=
  x.mapShardInto (fun t => .ok (t.unary f)) out

end Sharded

end SpmdArray
