import SpmdArray.Buffer
import SpmdArray.Shape.Broadcast
import SpmdArray.Shape.Walk

/-!
# Tensors of one rank

A tensor is a shape and a buffer that holds its elements in row-major order.

## Main definitions

* `Tensor` — the type; `Tensor.ofBuffer` checks that the shape fits the buffer.
* `Tensor.reshape`, `Tensor.broadcastTo`, `Tensor.tile`, `Tensor.narrow` — changes of
  layout.
* `Tensor.assign` — overwriting all elements.
-/

namespace SpmdArray

/-- Elements in row-major order, arranged in a shape. -/
structure Tensor where
  /-- The extents. -/
  shape : Shape
  /-- The elements. -/
  buffer : Buffer
  deriving DecidableEq

namespace Tensor

/-- Element type. -/
def dtype (t : Tensor) : DType := t.buffer.dtype

/-- Number of axes. -/
def ndim (t : Tensor) : Nat := t.shape.ndim

/-- Number of stored elements. -/
def numel (t : Tensor) : Nat := t.buffer.length

/-- The tensor of a shape and a buffer of as many elements. -/
def ofBufferOn (o : Overflow) (s : Shape) (b : Buffer) : Except Failure Tensor := do
  let n ← s.numelOn o
  if n ≠ b.length then Error.raise (.shapeMismatch [n] [b.length])
  return ⟨s, b⟩

/-- The tensor of a shape and a buffer on a machine that checks the number of elements. -/
abbrev ofBuffer (s : Shape) (b : Buffer) : Except Failure Tensor := ofBufferOn .stops s b

theorem ofBuffer_of_numel {s : Shape} {b : Buffer} (h : s.numel = .ok b.length) :
    ofBuffer s b = .ok ⟨s, b⟩ := by
  simp only [ofBufferOn, h, lift_ok, ok_bind, ne_eq, not_true_eq_false, if_false]
  rfl

/-- The one-dimensional tensor of a buffer. -/
def vector (b : Buffer) : Tensor := ⟨[b.length], b⟩

/-- Zeros. -/
def zeros (s : Shape) (d : DType) : Except Fault Tensor := do
  return ⟨s, .zeros d (← s.numel)⟩

/-- The tensor with its elements converted to type `d`. -/
def cast (d : DType) (t : Tensor) : Tensor := ⟨t.shape, t.buffer.cast d⟩

@[simp] theorem dtype_cast (d : DType) (t : Tensor) : (t.cast d).dtype = d := rfl

@[simp] theorem numel_cast (d : DType) (t : Tensor) : (t.cast d).numel = t.numel :=
  Buffer.length_cast d t.buffer

/-- Whether two tensors have one shape and equal numbers. -/
def sameValues (a b : Tensor) : Bool := a.shape == b.shape && a.buffer.sameValues b.buffer

/-- The same elements in another shape. -/
def reshapeOn (o : Overflow) (t : Tensor) (s : Shape) : Except Failure Tensor := do
  let n ← s.numelOn o
  if n ≠ t.numel then Error.raise (.shapeMismatch [t.numel] [n])
  return ⟨s, t.buffer⟩

/-- The same elements in another shape on a machine that checks their number. -/
abbrev reshape (t : Tensor) (s : Shape) : Except Failure Tensor := t.reshapeOn .stops s

/-- The shape that two shapes broadcast to. -/
def commonShape (a b : Shape) : Except Failure Shape :=
  match a.broadcast b with
  | some s => return s
  | none => Error.raise (.cannotBroadcast a b)

/-- The tensor repeated along missing axes and axes of extent 1, so that it has shape
`s`. -/
def broadcastTo (t : Tensor) (s : Shape) : Except Failure Tensor := do
  let target ← commonShape t.shape s
  if target ≠ s then Error.raise (.cannotBroadcast t.shape s)
  if t.shape = s then return t
  let offsets ← Shape.broadcastOffsets t.shape s
  return ⟨target, ← t.buffer.gather offsets⟩

/-- The tensor repeated as often along each axis as `multiples` says, after padding with
leading axes of extent 1. -/
def tileOn (o : Overflow) (t : Tensor) (multiples : List Nat) : Except Failure Tensor := do
  if multiples.length < t.ndim then
    Error.raise (.tooFewMultiples t.ndim multiples.length)
  let padded := t.shape.padTo multiples.length
  if multiples.all (· == 1) then t.reshapeOn o padded
  else
    let shape ← Shape.tiledOn o padded multiples
    let offsets ← Shape.repeatOffsetsOn o padded multiples
    return ⟨shape, ← t.buffer.gather offsets⟩

/-- The tensor repeated on a machine that checks extents and offsets. -/
abbrev tile (t : Tensor) (multiples : List Nat) : Except Failure Tensor :=
  t.tileOn .stops multiples

/-- The slice `start..start + len` along `dim`. -/
def narrow (t : Tensor) (dim start len : Nat) : Except Failure Tensor := do
  match t.shape[dim]? with
  | none => Error.raise (.invalidAxis (Size.signed dim) t.ndim)
  | some extent =>
    let stop ← Size.add start len
    if extent < stop then Error.raise (.sliceTooLong start stop extent dim)
    if start = 0 ∧ len = extent then return t
    let offsets ← Shape.narrowOffsets t.shape dim start len
    return ⟨t.shape.set dim len, ← t.buffer.gather offsets⟩

/-- Overwrite the elements of `t` with those of a tensor of the same shape, converted to
the element type of `t`. -/
def assign (t src : Tensor) : InPlace Tensor Unit :=
  if t.shape ≠ src.shape then ⟨Error.raise (.shapeMismatch t.shape src.shape), t⟩
  else ⟨pure (), ⟨t.shape, src.buffer.cast t.dtype⟩⟩

theorem assign_of_shape_eq {t src : Tensor} (h : t.shape = src.shape) :
    t.assign src = ⟨.ok (), ⟨t.shape, src.buffer.cast t.dtype⟩⟩ := by
  rw [assign, if_neg (by simp [h])]
  rfl

end Tensor

end SpmdArray
