import SpmdArray.Script.Bindings
import SpmdArray.Tensor.Compute

/-!
# Scripts on named tensors

A script is a list of operations on named tensors.  An operation may give its result a
name; if it reports an error, the name is forgotten.  An operation that needs a name
without a value is skipped.  A fault ends the script.

## Main definitions

* `TensorStep` — operations; `TensorAnswer` — answers.
* `TensorStep.run` — one operation, for given values of the names.
* `Tensor.runScript` — a whole script.
-/

namespace SpmdArray

/-- An operation on named tensors. -/
inductive TensorStep where
  /-- The tensor of a shape and a buffer. -/
  | ofBuffer (s : Shape) (b : Buffer)
  /-- The one-dimensional tensor of a buffer. -/
  | vector (b : Buffer)
  /-- Zeros. -/
  | zeros (s : Shape) (d : DType)
  /-- A conversion. -/
  | cast (x : String) (d : DType)
  /-- A change of shape. -/
  | reshape (x : String) (s : Shape)
  /-- A broadcast. -/
  | broadcastTo (x : String) (s : Shape)
  /-- A repetition. -/
  | tile (x : String) (multiples : List Nat)
  /-- A slice. -/
  | narrow (x : String) (dim start len : Nat)
  /-- An element-wise function of two tensors. -/
  | binary (f : BinaryFn) (a b : String)
  /-- An element-wise function of one tensor. -/
  | unary (f : UnaryFn) (x : String)
  /-- A reduction. -/
  | reduce (how : Grouping) (r : Reducer) (x : String) (dim : Option Nat)
  /-- The tensor itself. -/
  | copy (x : String)
  /-- Overwrite a tensor. -/
  | assign (dst src : String)
  /-- The converted elements. -/
  | values (x : String) (d : DType)
  /-- Numbers of axes and elements, and element type. -/
  | info (x : String)
  /-- Whether two tensors hold the same values. -/
  | same (a b : String)

/-- The answer to an operation on named tensors. -/
inductive TensorAnswer where
  /-- A tensor. -/
  | tensor (t : Tensor)
  /-- A buffer. -/
  | buffer (b : Buffer)
  /-- Numbers of axes and elements, and element type. -/
  | info (ndim numel : Nat) (d : DType)
  /-- A truth value. -/
  | flag (b : Bool)
  /-- An error, with the destination that it left if there is one. -/
  | failed (e : Error) (left : Option Tensor)
  /-- A name has no value. -/
  | skipped
  /-- A fault, with which the script ends. -/
  | lost (f : Fault)

namespace TensorAnswer

/-- The answer of an operation that gives a tensor or does not succeed, which comes with the
destination that it left if there is one. -/
def ofResult (left : Option Tensor) : Except Failure Tensor → TensorAnswer
  | .ok t => tensor t
  | .error (.error e) => failed e left
  | .error (.fault f) => lost f

/-- Whether the script ends with this answer. -/
def isLast : TensorAnswer → Bool
  | lost _ => true
  | _ => false

/-- The values of the names after an answer to an operation whose result is called
`name`. -/
def store (name : String) (b : Bindings Tensor) : TensorAnswer → Bindings Tensor
  | tensor t => b.put name t
  | failed _ _ => b.erase name
  | buffer _ | info _ _ _ | flag _ | skipped | lost _ => b

end TensorAnswer

namespace TensorStep

/-- Run an operation: the values of the names after it, and the answer. -/
def run (b : Bindings Tensor) (step : TensorStep) : Bindings Tensor × TensorAnswer :=
  let withOne (x : String) (f : Tensor → Bindings Tensor × TensorAnswer) :=
    match b.get? x with
    | some t => f t
    | none => (b, .skipped)
  let give (r : Except Failure Tensor) := (b, TensorAnswer.ofResult none r)
  match step with
  | ofBuffer s d => give (Tensor.ofBuffer s d)
  | vector d => give (.ok (.vector d))
  | zeros s d => give (Tensor.zeros s d : Except Fault Tensor)
  | cast x d => withOne x fun t => give (.ok (t.cast d))
  | reshape x s => withOne x fun t => give (t.reshape s)
  | broadcastTo x s => withOne x fun t => give (t.broadcastTo s)
  | tile x ms => withOne x fun t => give (t.tile ms)
  | narrow x d i n => withOne x fun t => give (t.narrow d i n)
  | binary f x y => withOne x fun t => withOne y fun u => give (t.binary f u)
  | unary f x => withOne x fun t => give (.ok (t.unary f))
  | reduce how r x d => withOne x fun t => give (t.reduce how r d)
  | copy x => withOne x fun t => give (.ok t)
  | assign x y =>
    withOne x fun t => withOne y fun u =>
      let w := t.assign u
      (b.put x w.dest, .ofResult (some w.dest) (w.result.map fun _ => w.dest))
  | values x d => withOne x fun t => (b, .buffer (t.buffer.cast d))
  | info x => withOne x fun t => (b, .info t.ndim t.numel t.dtype)
  | same x y => withOne x fun t => withOne y fun u => (b, .flag (t.sameValues u))

end TensorStep

/-- Run a script whose operations may have names for their results. -/
def Tensor.runScript (b : Bindings Tensor) :
    List (TensorStep × Option String) → List TensorAnswer
  | [] => []
  | (step, name) :: steps =>
    let (c, answer) := step.run b
    let c := match name with
      | some name => answer.store name c
      | none => c
    if answer.isLast then [answer] else answer :: Tensor.runScript c steps

end SpmdArray
