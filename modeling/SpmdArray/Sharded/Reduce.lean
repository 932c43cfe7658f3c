import SpmdArray.Shape.Axes
import SpmdArray.Sharded
import SpmdArray.Tensor.Compute

/-!
# Reductions of sharded tensors

Each rank reduces its shard along the given axes, one after the other.  If the split
axis is among them, the partial results of all ranks are combined and the result is
unsplit; otherwise the result keeps the split.

## Main definitions

* `Plan` — what an axis argument means for a sharded tensor.
* `Sharded.reduceShards` — a reduction by a function of one tensor.
* `Sharded.reduceShardsInto` — the same, with the result put in the place of an output.
* `Statistic` — the named reductions; `Sharded.reduce`, `Sharded.reduceInto`.
-/

namespace SpmdArray

/-- What an axis argument means for a sharded tensor. -/
structure Plan where
  /-- The reduced axes in the order given, or none for all elements. -/
  axes : Option (List Nat)
  /-- Whether reduced axes stay with extent 1. -/
  keepdim : Bool

namespace Plan

/-- The global shape of the result. -/
def gshape (p : Plan) (s : Shape) : Shape :=
  match p.axes with
  | none => if p.keepdim then List.replicate s.length 1 else [1]
  | some axes => s.reduced axes p.keepdim

/-- Whether the split axis is reduced. -/
def reducesSplit (p : Plan) (split : Option Nat) : Bool :=
  match split, p.axes with
  | none, _ => false
  | some _, none => true
  | some s, some axes => s ∈ axes

/-- The split axis of the result: it moves to the front past dropped axes. -/
def split (p : Plan) (split : Option Nat) : Option Nat :=
  if p.reducesSplit split then none
  else
    split.map fun s =>
      match p.axes, p.keepdim with
      | some axes, false => s - (axes.filter (· < s)).length
      | _, _ => s

/-- Reduce a shard by a function that reduces one axis to extent 1, or all elements to
shape `[1]`. -/
def reduceShard (p : Plan) (f : Tensor → Option Nat → Except Failure Tensor) (t : Tensor)
    (gshape : Shape) : Except Failure Tensor := do
  match p.axes with
  | none => (← f t none).reshape gshape
  | some axes =>
    let r ← axes.foldlM (fun acc axis => f acc (some axis)) t
    if p.keepdim then return r else r.reshape (r.shape.dropAxes axes)

end Plan

namespace Sharded

/-- Combine the partial results of all ranks. -/
def combinePartials (comm : Comm) (combine : Reducer) (t : Tensor) : Attempt Tensor := do
  let b ← Comm.leftBy (comm.allReduce combine t.buffer)
  if b.length ≠ t.numel then throw (.error (.reducedLength b.length t.numel))
  ExceptT.mk (pure (Tensor.ofBuffer t.shape b))

/-- Reduce by a function `f` of one tensor, which is applied once for each axis, and
combine the partial results of the ranks if the split axis is reduced.  An output has to
have the global shape of the result. -/
def reduceFor (f : Tensor → Option Nat → Except Failure Tensor) (combine : Reducer)
    (x : Sharded) (axis : Axis) (keepdim : Bool) (out : Option Sharded) :
    Attempt Sharded := do
  let axes ← ((axis.resolve x.gshape).mapError .error : Except Failure _)
  let p : Plan := ⟨axes, keepdim⟩
  let gshape := p.gshape x.gshape
  if let some o := out then
    if o.gshape ≠ gshape then throw (.error (.shapeMismatch gshape o.gshape))
  let t ← (p.reduceShard f x.shard gshape : Except Failure Tensor)
  let t ←
    if p.reducesSplit x.split ∧ x.comm.isDistributed then combinePartials x.comm combine t
    else pure t
  let d := if combine.isBoolean then .bool else t.dtype
  ExceptT.mk (pure (create (t.cast d) gshape d (p.split x.split) x.device x.comm))

/-- Reduce by a function of one tensor. -/
def reduceShards (f : Tensor → Option Nat → Except Failure Tensor) (combine : Reducer)
    (x : Sharded) (axis : Axis) (keepdim : Bool) : Attempt Sharded :=
  reduceFor f combine x axis keepdim none

/-- Reduce by a function of one tensor and put the result in the place of `out`. -/
def reduceShardsInto (f : Tensor → Option Nat → Except Failure Tensor) (combine : Reducer)
    (x : Sharded) (axis : Axis) (keepdim : Bool) (out : Sharded) :
    Spmd (InPlace Sharded Sharded) := do
  match ← (reduceFor f combine x axis keepdim (some out)).run with
  | .ok r => return ⟨.ok r, r⟩
  | .error e => return ⟨.error e, out⟩

end Sharded

/-- The named reductions. -/
inductive Statistic where
  /-- The sum. -/
  | sum
  /-- The product. -/
  | prod
  /-- The least element. -/
  | min
  /-- The greatest element. -/
  | max
  /-- Whether every element is non-zero. -/
  | all
  /-- Whether some element is non-zero. -/
  | any
  deriving DecidableEq, Repr

namespace Statistic

/-- The reducer of a named reduction. -/
def reducer : Statistic → Reducer
  | sum => .sum
  | prod => .prod
  | min => .min
  | max => .max
  | all => .all
  | any => .any

/-- The element type in which elements of type `d` are reduced: sums and products of
truth values and integers use the widest integers, and truth is decided on truth
values. -/
def workType (d : DType) : Statistic → DType
  | sum | prod => if d.isBool || d.isInt then .defaultInt else d
  | min | max => d
  | all | any => .bool

/-- The reduction of one tensor, whose elements may be shared out among threads. -/
def reduceTensor (s : Statistic) (how : Grouping) (t : Tensor) (dim : Option Nat) :
    Except Failure Tensor :=
  (t.cast (s.workType t.dtype)).reduce how s.reducer dim

end Statistic

namespace Sharded

/-- The named reduction of a sharded tensor. -/
def reduce (how : Grouping) (s : Statistic) (x : Sharded) (axis : Axis) (keepdim : Bool) :
    Attempt Sharded :=
  reduceShards (s.reduceTensor how) s.reducer x axis keepdim

/-- The named reduction, with the result put in the place of `out`. -/
def reduceInto (how : Grouping) (s : Statistic) (x : Sharded) (axis : Axis) (keepdim : Bool)
    (out : Sharded) : Spmd (InPlace Sharded Sharded) :=
  reduceShardsInto (s.reduceTensor how) s.reducer x axis keepdim out

end Sharded

end SpmdArray
