import SpmdArray.Tensor

/-!
# Computation on tensors of one rank

## Main definitions

* `Tensor.binary` — element-wise functions of two tensors that broadcast.
* `Tensor.unary` — element-wise functions of one tensor.
* `Grouping` — the ways to fold a list in blocks, which threads may share.
* `Buffer.reduceAll`, `Buffer.reduceAxis`, `Tensor.reduce` — reductions: left folds from
  the identity of the reducer, except that many elements are folded in blocks.
-/

namespace SpmdArray

/-- A way to fold a list in blocks: where it is cut, and which results are combined first. -/
inductive Grouping where
  /-- One block. -/
  | block
  /-- The first `n` elements, the other ones, and their results together. -/
  | join (n : Nat) (left right : Grouping)
  deriving DecidableEq, Repr

/-- Fold a list in blocks, each of them from `init`. -/
def Grouping.fold {α : Type} (f : α → α → α) (init : α) : Grouping → List α → α
  | block, xs => xs.foldl f init
  | join n l r, xs => f (l.fold f init (xs.take n)) (r.fold f init (xs.drop n))

namespace Buffer

/-- Combine the elements of two buffers of one type, pair by pair. -/
def binary (f : BinaryFn) (a b : Buffer) : Except Failure Buffer :=
  match b.as? a.dtype with
  | none => Error.raise (.dtypeMismatch a.dtype b.dtype)
  | some ys => return ⟨a.dtype, List.zipWith (Elem.binary f) a.data ys⟩

/-- Apply a function to each element. -/
def unary (f : UnaryFn) (b : Buffer) : Buffer := ⟨b.dtype, b.data.map (Elem.unary f)⟩

/-- The number of elements from which on a reduction of all of them is shared out among
threads. -/
def parallelThreshold : Nat := 1 <<< 15

/-- All elements combined into one.  `how` says how the threads share out many elements,
which is up to the machine. -/
def reduceAll (how : Grouping) (r : Reducer) (b : Buffer) : Elem b.dtype :=
  let init := Elem.identity b.dtype r
  if b.length < parallelThreshold then b.data.foldl (Elem.fold r) init
  else how.fold (Elem.fold r) init b.data

/-- Fold `n` consecutive slices of `inner` elements, from position `start` on, into the
list `acc` of as many results. -/
def foldSlices {α : Type} (f : α → α → α) (xs : Array α) (inner : Nat) :
    Nat → Nat → List α → Except Fault (List α)
  | 0, _, acc => pure acc
  | n + 1, start, acc => do
    let stop ← Size.add start inner
    if start ≤ stop ∧ stop ≤ xs.size then
      foldSlices f xs inner n stop (List.zipWith f acc (xs.extract start stop).toList)
    else throw .outOfRange

/-- The results of `n` rows of `reduce` slices each, from row `row` on, in front of `acc`
in reverse. -/
def foldRows {α : Type} (f : α → α → α) (init : α) (xs : Array α) (reduce inner : Nat) :
    Nat → Nat → List (List α) → Except Fault (List (List α))
  | 0, _, acc => pure acc
  | n + 1, row, acc => do
    let base ← Size.mul (← Size.mul row reduce) inner
    let rs ← foldSlices f xs inner reduce base (List.replicate inner init)
    foldRows f init xs reduce inner n (row + 1) (rs :: acc)

/-- Reduce the middle axis of storage that is viewed in the shape
`[outer, reduce, inner]`. -/
def reduceAxis (r : Reducer) (b : Buffer) (outer reduce inner : Nat) :
    Except Fault Buffer := do
  let rows ← foldRows (Elem.fold r) (Elem.identity b.dtype r) b.data.toArray reduce inner
    outer 0 []
  return ⟨b.dtype, rows.reverse.flatten⟩

end Buffer

namespace Tensor

/-- Element-wise function of two tensors of one element type, after broadcasting. -/
def binary (f : BinaryFn) (a b : Tensor) : Except Failure Tensor := do
  if a.dtype ≠ b.dtype then Error.raise (.dtypeMismatch a.dtype b.dtype)
  let s ← commonShape a.shape b.shape
  let x ← a.broadcastTo s
  let y ← b.broadcastTo s
  ofBuffer s (← x.buffer.binary f y.buffer)

/-- Element-wise function of one tensor. -/
def unary (f : UnaryFn) (t : Tensor) : Tensor := ⟨t.shape, t.buffer.unary f⟩

/-- Reduce along one axis, which keeps extent 1, or over all elements to shape `[1]`. -/
def reduce (how : Grouping) (r : Reducer) (t : Tensor) (dim : Option Nat) :
    Except Failure Tensor := do
  if !Buffer.supports r t.dtype then Error.raise (.unsupportedDType t.dtype r)
  match dim with
  | none => ofBuffer [1] ⟨t.buffer.dtype, [t.buffer.reduceAll how r]⟩
  | some d =>
    match t.shape[d]? with
    | none => Error.raise (.invalidAxis (Size.signed d) t.ndim)
    | some extent =>
      let outer ← Shape.numel (t.shape.take d)
      let inner ← Shape.numel (t.shape.drop (d + 1))
      let b ← t.buffer.reduceAxis r outer extent inner
      ofBuffer (t.shape.set d 1) b

end Tensor

end SpmdArray
