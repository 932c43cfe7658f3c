import SpmdArray.DType
import SpmdArray.Function
import SpmdArray.Shape

/-!
# Failures

An operation that does not succeed either *reports an error*, which its caller can
handle, or *runs into a fault*, which ends the program of the rank that hits it.

## Main definitions

* `Error` — the causes of reported errors, each with the data that explain it.
* `ErrorKind` — the ten classes into which callers sort errors; `Error.kind`.
* `Error.message` — the text of an error.
* `Failure` — an error or a fault; `Error.raise` reports an error.
-/

namespace SpmdArray

/-- The classes of errors. -/
inductive ErrorKind where
  /-- An operand or output has the wrong type of value. -/
  | invalidOperand
  /-- Two shapes do not broadcast. -/
  | broadcast
  /-- An axis does not exist. -/
  | invalidAxis
  /-- An axis is named twice. -/
  | duplicateAxis
  /-- A shape is not the required one. -/
  | shapeMismatch
  /-- Shards are laid out in a way that is not supported. -/
  | unsupportedLayout
  /-- Two element types differ. -/
  | dtypeMismatch
  /-- An element type does not support an operation. -/
  | unsupportedDType
  /-- An argument is out of its range. -/
  | invalidArgument
  /-- Ranks disagree about the data they exchange. -/
  | communication
  deriving DecidableEq, Repr

/-- Causes of reported errors. -/
inductive Error where
  /-- An unsigned value exceeds every integer type. -/
  | scalarTooLarge (value : Nat)
  /-- Results of type `result` cannot be kept in an output of type `out`. -/
  | outputTooNarrow (result out : DType)
  /-- A kernel that was supplied by the caller gave up. -/
  | kernelFailed
  /-- The shapes do not broadcast. -/
  | cannotBroadcast (lhs rhs : Shape)
  /-- The axis, as the caller gave it, is not one of `ndim` axes. -/
  | invalidAxis (axis : Int) (ndim : Nat)
  /-- The axis occurs twice in a list of axes. -/
  | duplicateAxis (axis : Nat)
  /-- A shape or length is not the one that the operation needs. -/
  | shapeMismatch (expected got : Shape)
  /-- The operands are split along different axes of the result. -/
  | differentSplits (lhs rhs : Nat)
  /-- The only slice along an axis of extent 1 is not where it belongs. -/
  | misplacedSlice (axis : Nat)
  /-- A shard of length `len` along `axis` is not the balanced chunk `start..stop`. -/
  | unbalancedShard (len axis start stop : Nat)
  /-- The shards of all ranks do not add up to the global extent. -/
  | incompleteShards (axis : Nat) (total : Int) (extent : Nat)
  /-- The element types should be equal. -/
  | dtypeMismatch (lhs rhs : DType)
  /-- The reducer is not offered for the element type. -/
  | unsupportedDType (dtype : DType) (reducer : Reducer)
  /-- A tensor with `ndim` axes needs as many repetition counts. -/
  | tooFewMultiples (ndim got : Nat)
  /-- The slice `start..stop` leaves the axis. -/
  | sliceTooLong (start stop extent axis : Nat)
  /-- The group of `size` ranks has no rank `root`. -/
  | noSuchRoot (root size : Nat)
  /-- A group was asked for without any rank. -/
  | emptyGroup
  /-- A rank has left its slot empty in an exchange. -/
  | noContribution
  /-- A rank sent elements of an unexpected type. -/
  | unexpectedDType (rank : Nat) (sent expected : DType)
  /-- The root sent an unexpected number of elements. -/
  | broadcastLength (root got expected : Nat)
  /-- A rank contributed a different number of elements than the ranks before it. -/
  | contributionLength (rank got expected : Nat)
  /-- The combined data do not fit into the buffer of this rank. -/
  | combinedLength (got expected : Nat)
  /-- The combined data do not fit the partial result of this rank. -/
  | reducedLength (got expected : Nat)
  /-- A byte string does not hold a whole number of elements. -/
  | partialElement (bytes : Nat) (dtype : DType)
  deriving DecidableEq, Repr

namespace Error

/-- The class of an error. -/
def kind : Error → ErrorKind
  | scalarTooLarge _ | outputTooNarrow _ _ | kernelFailed => .invalidOperand
  | cannotBroadcast _ _ => .broadcast
  | invalidAxis _ _ => .invalidAxis
  | duplicateAxis _ => .duplicateAxis
  | shapeMismatch _ _ => .shapeMismatch
  | differentSplits _ _ | misplacedSlice _ | unbalancedShard _ _ _ _
  | incompleteShards _ _ _ => .unsupportedLayout
  | dtypeMismatch _ _ => .dtypeMismatch
  | unsupportedDType _ _ => .unsupportedDType
  | tooFewMultiples _ _ | sliceTooLong _ _ _ _ | noSuchRoot _ _ | emptyGroup =>
    .invalidArgument
  | noContribution | unexpectedDType _ _ _ | broadcastLength _ _ _ | contributionLength _ _ _
  | combinedLength _ _ | reducedLength _ _ | partialElement _ _ => .communication

/-- Whether the error is about the axes of a reduction. -/
def isAxisError (e : Error) : Bool :=
  e.kind == .invalidAxis || e.kind == .duplicateAxis

/-- What an error says beside its class. -/
def detail : Error → String
  | scalarTooLarge v => s!"integer scalar {v} does not fit any supported dtype"
  | outputTooNarrow d o => s!"cannot store {d} results in an output of dtype {o}"
  | kernelFailed => "kernel failed"
  | cannotBroadcast a b => s!"Cannot broadcast shapes {Shape.render a} and {Shape.render b}"
  | invalidAxis a n => s!"Invalid axis {a} for tensor with {n} dimensions"
  | duplicateAxis a => s!"Duplicate axis {a} in reduction"
  | shapeMismatch e g =>
    s!"Shape mismatch: expected {Shape.render e}, got {Shape.render g}"
  | differentSplits a b => s!"operands are split along different axes ({a} and {b})"
  | misplacedSlice a => s!"axis {a} of extent 1 is not held by rank 0"
  | unbalancedShard l a i j =>
    s!"shard of length {l} along axis {a} does not match the balanced chunk {i}..{j}"
  | incompleteShards a t e =>
    s!"shards along axis {a} hold {t} elements, global extent is {e}"
  | dtypeMismatch a b => s!"DType mismatch: {a.tag} vs {b.tag}"
  | unsupportedDType d r => s!"Unsupported dtype {d.tag} for operation '{r.name}'"
  | tooFewMultiples n g => s!"expected at least {n} entries, got {g}"
  | sliceTooLong i j e a => s!"range {i}..{j} exceeds extent {e} of axis {a}"
  | noSuchRoot r n => s!"rank {r} does not exist in a group of {n}"
  | emptyGroup => "a group needs at least one rank"
  | noContribution => "a rank did not contribute"
  | unexpectedDType r s e => s!"rank {r} sent {s} data, expected {e}"
  | broadcastLength r g e => s!"broadcast from rank {r} carried {g} elements, expected {e}"
  | contributionLength r g e => s!"rank {r} contributed {g} elements, expected {e}"
  | combinedLength g e => s!"all_reduce produced {g} elements, expected {e}"
  | reducedLength g e => s!"all_reduce returned {g} elements, expected {e}"
  | partialElement n d => s!"{n} bytes is not a whole number of {d} elements"

/-- The argument that an error is about, if it is about one argument. -/
def argument : Error → String
  | tooFewMultiples _ _ => "multiples"
  | sliceTooLong _ _ _ _ => "len"
  | noSuchRoot _ _ => "root"
  | emptyGroup => "size"
  | _ => ""

/-- The text of an error. -/
def message (e : Error) : String :=
  match e.kind with
  | .invalidOperand => "Invalid operand: " ++ e.detail
  | .unsupportedLayout => "Unsupported distributed layout: " ++ e.detail
  | .invalidArgument => "Invalid argument '" ++ e.argument ++ "': " ++ e.detail
  | .communication => "Communication error: " ++ e.detail
  | _ => e.detail

end Error

/-- Ways not to succeed. -/
inductive Failure where
  /-- The operation reports an error. -/
  | error (e : Error)
  /-- The operation runs into a fault. -/
  | fault (f : Fault)
  deriving DecidableEq, Repr

/-- Report an error. -/
def Error.raise {α : Type} (e : Error) : Except Failure α := throw (.error e)

/-- Lift computations that can only fault. -/
instance : MonadLift (Except Fault) (Except Failure) := ⟨Except.mapError .fault⟩

@[simp] theorem lift_ok {α : Type} (a : α) :
    (liftM (Except.ok a : Except Fault α) : Except Failure α) = .ok a := rfl

@[simp] theorem lift_error {α : Type} (f : Fault) :
    (liftM (Except.error f : Except Fault α) : Except Failure α) = .error (.fault f) := rfl

theorem lift_eq_ok_iff {α : Type} {x : Except Fault α} {a : α} :
    (liftM x : Except Failure α) = .ok a ↔ x = .ok a := by
  cases x with
  | ok b => exact ⟨fun h => congrArg Except.ok (Except.ok.inj h), fun h => h ▸ rfl⟩
  | error f => exact ⟨fun h => (nomatch h), fun h => (nomatch h)⟩

@[simp] theorem raise_eq_error {α : Type} (e : Error) :
    (e.raise : Except Failure α) = .error (.error e) := rfl

end SpmdArray
