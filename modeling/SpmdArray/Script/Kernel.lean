import SpmdArray.Tensor.Compute

/-!
# Kernels as data

The functions on shards that a caller passes to the element-wise functions and to the
reductions can be written down as lists of calls on tensors.

## Main definitions

* `KernelStep` — one call; `Kernel` — a list of calls, each on the result of the one
  before it.
* `Kernel.run` — the function that a kernel stands for.
-/

namespace SpmdArray

/-- A call on a tensor. -/
inductive KernelStep where
  /-- An element-wise function of the tensor and the second argument of the kernel. -/
  | binary (f : BinaryFn)
  /-- An element-wise function of the tensor. -/
  | unary (f : UnaryFn)
  /-- A conversion. -/
  | cast (d : DType)
  /-- A reduction along the axis that the kernel is asked for. -/
  | reduce (how : Grouping) (r : Reducer)
  /-- A change of shape. -/
  | reshape (s : Shape)
  /-- A repetition. -/
  | tile (multiples : List Nat)
  /-- A slice. -/
  | narrow (dim start len : Nat)
  /-- A call that always fails. -/
  | fail
  deriving DecidableEq, Repr

/-- Run one call on `t`, with the second argument and the axis of the kernel. -/
def KernelStep.run (second : Option Tensor) (dim : Option Nat) (t : Tensor) :
    KernelStep → Except Failure Tensor
  | binary f =>
    match second with
    | some u => t.binary f u
    | none => Error.raise .kernelFailed
  | unary f => return t.unary f
  | cast d => return t.cast d
  | reduce how r => t.reduce how r dim
  | reshape s => t.reshape s
  | tile ms => t.tile ms
  | narrow d i n => t.narrow d i n
  | fail => Error.raise .kernelFailed

/-- A function on tensors, as a list of calls. -/
abbrev Kernel := List KernelStep

namespace Kernel

/-- Run all calls of a kernel, starting from `t`. -/
def run (k : Kernel) (second : Option Tensor) (dim : Option Nat) (t : Tensor) :
    Except Failure Tensor :=
  k.foldlM (fun t step => step.run second dim t) t

/-- The kernel as a function of two tensors. -/
def binary (k : Kernel) (t u : Tensor) : Except Failure Tensor := k.run (some u) none t

/-- The kernel as a function of one tensor. -/
def unary (k : Kernel) (t : Tensor) : Except Failure Tensor := k.run none none t

/-- The kernel as a reduction of one tensor. -/
def partialReduce (k : Kernel) (t : Tensor) (dim : Option Nat) : Except Failure Tensor :=
  k.run none dim t

end Kernel

end SpmdArray
