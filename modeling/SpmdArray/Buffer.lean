import SpmdArray.Element.Bytes
import SpmdArray.Error

/-!
# Buffers

A buffer is the contiguous storage of one shard: a list of elements whose type is known
at run time.

## Main definitions

* `InPlace` — what an operation leaves that works on a destination.
* `Buffer` — storage; `Buffer.values`, `Buffer.cast` convert its elements.
* `Buffer.gather`, `Buffer.scatter` — copying from and to given positions.
* `Buffer.combine` — folding another buffer into one, element by element.
* `Buffer.toBytes`, `Buffer.ofBytes` — the byte string of a buffer.

## Main results

* `Buffer.length_cast`, `Buffer.cast_self` — a conversion keeps the length, and a
  conversion to the own type keeps everything.
* `Buffer.ofBytes_toBytes` — a buffer is read back exactly from its byte string.
-/

namespace SpmdArray

/-- What an operation on a destination leaves: its outcome, and the destination after
it, whether it succeeds or not. -/
structure InPlace (σ α : Type) where
  /-- The outcome. -/
  result : Except Failure α
  /-- The destination after the operation. -/
  dest : σ

/-- Elements of a type that is known at run time. -/
structure Buffer where
  /-- The element type. -/
  dtype : DType
  /-- The elements. -/
  data : List (Elem dtype)
  deriving DecidableEq

namespace Buffer

/-- `n` zeros. -/
def zeros (d : DType) (n : Nat) : Buffer := ⟨d, List.replicate n (Elem.zero d)⟩

/-- Number of elements. -/
def length (b : Buffer) : Nat := b.data.length

/-- The elements, if they are of type `t`. -/
def as? (t : DType) (b : Buffer) : Option (List (Elem t)) :=
  if h : b.dtype = t then some (h ▸ b.data) else none

/-- The elements converted to type `t`. -/
def values (t : DType) (b : Buffer) : List (Elem t) :=
  match b.as? t with
  | some xs => xs
  | none => b.data.map (Elem.cast t)

/-- The buffer with its elements converted to type `t`. -/
def cast (t : DType) (b : Buffer) : Buffer := ⟨t, b.values t⟩

@[simp] theorem length_zeros (d : DType) (n : Nat) : (zeros d n).length = n :=
  List.length_replicate

@[simp] theorem as?_self (b : Buffer) : b.as? b.dtype = some b.data := by
  simp [as?]

theorem as?_of_ne {b : Buffer} {t : DType} (h : b.dtype ≠ t) : b.as? t = none := by
  simp [as?, h]

@[simp] theorem values_self (b : Buffer) : b.values b.dtype = b.data := by
  simp [values]

@[simp] theorem dtype_cast (t : DType) (b : Buffer) : (b.cast t).dtype = t := rfl

@[simp] theorem length_cast (t : DType) (b : Buffer) : (b.cast t).length = b.length := by
  show (b.values t).length = b.data.length
  by_cases h : b.dtype = t
  · subst h
    rw [values_self]
  · rw [values, as?_of_ne h]
    exact List.length_map _

@[simp] theorem cast_self (b : Buffer) : b.cast b.dtype = b := by
  rw [cast, values_self]

/-- Whether two buffers hold equal numbers of one type.  Zeros of either sign are equal,
and what is no number equals nothing. -/
def sameValues (a b : Buffer) : Bool :=
  match b.as? a.dtype with
  | some ys =>
    a.data.length == ys.length &&
      (List.zipWith (fun x y => Elem.compare? x y == some .eq) a.data ys).all id
  | none => false

/-! ### Copying -/

/-- The members of `xs` at the given positions. -/
def pick {α : Type} (xs : Array α) : List Nat → Except Fault (List α) :=
  List.mapM fun i =>
    match xs[i]? with
    | some x => pure x
    | none => throw .outOfRange

/-- The elements at the given positions, in order. -/
def gather (b : Buffer) (offsets : List Nat) : Except Fault Buffer :=
  (pick b.data.toArray offsets).map (Buffer.mk b.dtype)

/-- Write pairs of a position and a value until a position is out of range. -/
def put {α : Type} : Array α → List (Nat × α) → Except Fault Unit × Array α
  | xs, [] => (pure (), xs)
  | xs, (i, x) :: ws =>
    if i < xs.size then put (xs.setIfInBounds i x) ws else (throw .outOfRange, xs)

/-- Write the elements of `src` to the given positions of `b`, in order. -/
def scatter (b : Buffer) (offsets : List Nat) (src : Buffer) : InPlace Buffer Unit :=
  match src.as? b.dtype with
  | none => ⟨Error.raise (.dtypeMismatch b.dtype src.dtype), b⟩
  | some xs =>
    if xs.length ≠ offsets.length then
      ⟨Error.raise (.shapeMismatch [offsets.length] [xs.length]), b⟩
    else
      let (r, ys) := put b.data.toArray (offsets.zip xs)
      ⟨r.mapError .fault, ⟨b.dtype, ys.toList⟩⟩

/-! ### Combining -/

/-- Whether a reducer is offered for an element type: bit patterns of floats are not
combined. -/
def supports (r : Reducer) (d : DType) : Bool := !(r.isBitwise && d.isFloat)

/-- Fold the elements of `other` into those of `b`. -/
def combine (b other : Buffer) (r : Reducer) : InPlace Buffer Unit :=
  match other.as? b.dtype with
  | none => ⟨Error.raise (.dtypeMismatch b.dtype other.dtype), b⟩
  | some ys =>
    if b.length ≠ ys.length then
      ⟨Error.raise (.shapeMismatch [b.length] [ys.length]), b⟩
    else if !supports r b.dtype then
      ⟨Error.raise (.unsupportedDType b.dtype r), b⟩
    else ⟨pure (), ⟨b.dtype, List.zipWith (Elem.fold r) b.data ys⟩⟩

/-! ### Bytes -/

/-- The byte string of a buffer. -/
def toBytes (b : Buffer) : List UInt8 := b.data.flatMap Elem.toBytes

/-- The buffer of type `d` that a byte string holds. -/
def ofBytes (d : DType) (bs : List UInt8) : Except Error Buffer :=
  if bs.length % d.size ≠ 0 then throw (.partialElement bs.length d)
  else return ⟨d, Elem.decode d bs⟩

theorem length_toBytes (b : Buffer) : b.toBytes.length = b.length * b.dtype.size :=
  Elem.length_flatMap_toBytes b.data

theorem ofBytes_toBytes (b : Buffer) : ofBytes b.dtype b.toBytes = .ok b := by
  rw [ofBytes, length_toBytes, Nat.mul_mod_left, if_neg (by simp), toBytes,
    Elem.decode_flatMap_toBytes]
  rfl

end Buffer

end SpmdArray
