import SpmdArray.Sharded.Binary
import SpmdArray.Sharded.Reduce
import SpmdArray.Sharded.Unary

/-!
# Failures of a rank on its own

What a rank does without the others may fail, but it does not blame another rank for it: only
collectives report that the ranks disagree about the data that they exchange.

## Main definitions

* `Local x` — the outcome `x` is no failure of a collective.

## Main results

* `Sharded.local_create`, `Sharded.local_align`, `Sharded.local_combineShards`,
  `Sharded.local_mapShard`, `Sharded.local_mapShardInto`, `Plan.local_reduceShard` — the parts of
  the functions of sharded tensors that a rank does on its own.
-/

namespace SpmdArray

/-- `Local x` says that `x` does not report a disagreement about exchanged data. -/
def Local {α : Type} (x : Except Failure α) : Prop :=
  ∀ e : Error, x = .error (.error e) → e.kind ≠ .communication

namespace Local

variable {α β : Type} {x : Except Failure α}

theorem ok (a : α) : Local (.ok a) := fun _ h => nomatch h

theorem raise {e : Error} (h : e.kind ≠ .communication) :
    Local (Error.raise e : Except Failure α) :=
  fun _ he => Failure.error.inj (Except.error.inj he) ▸ h

theorem lift (x : Except Fault α) : Local (liftM x : Except Failure α) := by
  cases x with
  | ok a => exact ok a
  | error f => exact fun _ h => nomatch Except.error.inj h

theorem bind {f : α → Except Failure β} (hx : Local x) (hf : ∀ a, Local (f a)) :
    Local (x >>= f) := by
  cases x with
  | ok a => exact hf a
  | error e => exact fun e' h => hx e' (congrArg Except.error (Except.error.inj h))

theorem map (hx : Local x) (f : α → β) : Local (x.map f) := by
  cases x with
  | ok a => exact ok (f a)
  | error e => exact fun e' h => hx e' (congrArg Except.error (Except.error.inj h))

theorem ite {p : Prop} [Decidable p] {y : Except Failure α} (hx : Local x) (hy : Local y) :
    Local (if p then x else y) := by
  split
  · exact hx
  · exact hy

/-- A check that has to be passed first. -/
theorem check {p : Prop} [Decidable p] {e : Error} (h : e.kind ≠ .communication)
    (hx : Local x) :
    Local (do if p then Error.raise e
              x) :=
  ite (bind (raise h) fun _ => hx) hx

theorem foldlM {f : β → α → Except Failure β} (hf : ∀ b a, Local (f b a)) (xs : List α) (b : β) :
    Local (xs.foldlM f b) := by
  induction xs generalizing b with
  | nil => exact ok b
  | cons a xs ih => exact bind (hf b a) ih

end Local

namespace Tensor

theorem local_ofBuffer (s : Shape) (b : Buffer) : Local (ofBuffer s b) :=
  .bind (.lift _) fun _ => .check nofun (.ok _)

theorem local_reshape (t : Tensor) (s : Shape) : Local (t.reshape s) :=
  .bind (.lift _) fun _ => .check nofun (.ok _)

theorem local_commonShape (a b : Shape) : Local (commonShape a b) := by
  unfold commonShape
  split
  · exact .ok _
  · exact .raise nofun

theorem local_broadcastTo (t : Tensor) (s : Shape) : Local (t.broadcastTo s) := by
  refine .bind (local_commonShape _ _) fun target => .check nofun ?_
  refine .ite (.ok _) (.bind (.lift _) fun offsets => .bind (.lift _) fun b => .ok _)

theorem local_tile (t : Tensor) (multiples : List Nat) : Local (t.tile multiples) := by
  refine .check nofun ?_
  refine .ite (local_reshape _ _) (.bind (.lift _) fun shape => .bind (.lift _) fun offsets => ?_)
  exact .bind (.lift _) fun b => .ok _

theorem local_narrow (t : Tensor) (dim start len : Nat) : Local (t.narrow dim start len) := by
  unfold narrow
  split
  · exact .raise nofun
  · refine .bind (.lift _) fun stop => .check nofun (.ite (.ok _) ?_)
    exact .bind (.lift _) fun offsets => .bind (.lift _) fun b => .ok _

theorem local_binary (op : BinaryFn) (t u : Tensor) : Local (t.binary op u) := by
  refine .check nofun (.bind (local_commonShape _ _) fun s => ?_)
  refine .bind (local_broadcastTo _ _) fun x => .bind (local_broadcastTo _ _) fun y => ?_
  refine .bind ?_ fun b => local_ofBuffer _ _
  unfold Buffer.binary
  split
  · exact .raise nofun
  · exact .ok _

theorem local_reduce (how : Grouping) (op : Reducer) (t : Tensor) (dim : Option Nat) :
    Local (t.reduce how op dim) := by
  unfold reduce
  refine .check nofun ?_
  cases dim with
  | none => exact local_ofBuffer _ _
  | some d =>
    simp only
    split
    · exact .raise nofun
    · refine .bind (.lift _) fun outer => .bind (.lift _) fun inner => ?_
      exact .bind (.lift _) fun b => local_ofBuffer _ _

theorem local_assign (t src : Tensor) : Local (t.assign src).result := by
  unfold assign
  split
  · exact .raise nofun
  · exact .ok _

end Tensor

namespace Sharded

theorem local_create (t : Tensor) (g : Shape) (d : DType) (k : Option Nat) (dev : Device)
    (c : Comm) : Local (create t g d k dev c) := by
  unfold create
  cases k with
  | none =>
    exact .check nofun (.check nofun (.ok _))
  | some s =>
    exact .check nofun
      (.check nofun (.check nofun (.ok _)))

theorem local_narrowTo (lhs rhs : Side) (axis : Nat) : Local (lhs.narrowTo rhs axis) := by
  unfold Side.narrowTo
  split
  · refine .ite (.ok _) (.bind (.lift _) fun g => .bind (.lift _) fun own => .ite (.ok _) ?_)
    refine .bind (.lift _) fun held => .check nofun ?_
    exact .bind (Tensor.local_narrow _ _ _ _) fun t => .ok _
  · exact .ok _

theorem local_align (lhs rhs : Side) : Local (align lhs rhs) := by
  unfold align
  split
  · exact .bind (local_narrowTo _ _ _) fun s => .ok _
  · exact .bind (local_narrowTo _ _ _) fun s => .ok _
  · exact .ok _

theorem local_kernel (f : BinaryFn) (t u : Tensor) : Local (kernel f t u) := by
  unfold kernel
  split
  · exact Tensor.local_binary _ _ _
  · exact Tensor.local_binary _ _ _

theorem local_combineShards {f : Tensor → Tensor → Except Failure Tensor}
    (hf : ∀ t u, Local (f t u)) (d : DType) (lhs rhs : Side) :
    Local (combineShards f d lhs rhs) := by
  refine .bind (Tensor.local_commonShape _ _) fun s => .bind (.lift _) fun isEmpty => ?_
  have hlast : ∀ t : Tensor, Local (do
      if t.shape ≠ s then Error.raise (.shapeMismatch s t.shape)
      return t) := fun t => .check nofun (.ok _)
  have hrest : ∀ isEmpty : Bool, Local (do
      let t ←
        if isEmpty then (Tensor.zeros s d : Except Fault Tensor)
        else f (lhs.shard.cast d) (rhs.shard.cast d)
      if t.shape ≠ s then Error.raise (.shapeMismatch s t.shape)
      return t) := fun isEmpty => .ite (.bind (.lift _) hlast) (.bind (hf _ _) hlast)
  exact .ite (.bind (.ok _) hrest) (.bind (.lift _) hrest)

theorem local_mapShard {f : Tensor → Except Failure Tensor} (hf : ∀ t, Local (f t))
    (x : Sharded) : Local (x.mapShard f) :=
  .bind (hf _) fun _ => local_create _ _ _ _ _ _

theorem local_shardFor {f : Tensor → Except Failure Tensor} (hf : ∀ t, Local (f t))
    (x out : Sharded) : Local (shardFor f x out) := by
  refine .check nofun (.bind (Tensor.local_commonShape _ _) fun target => ?_)
  refine .bind (Tensor.local_tile _ _) fun u => .bind (hf u) fun t => ?_
  exact .check nofun (.ok _)

theorem local_mapShardInto {f : Tensor → Except Failure Tensor} (hf : ∀ t, Local (f t))
    (x out : Sharded) : Local (x.mapShardInto f out).result := by
  have hshard := local_shardFor hf x out
  unfold mapShardInto
  cases h : shardFor f x out with
  | error e =>
    rw [h] at hshard
    exact fun e' he => hshard e' (congrArg Except.error (Except.error.inj he))
  | ok t => exact (Tensor.local_assign _ _).map _

end Sharded

namespace Statistic

theorem local_reduceTensor (stat : Statistic) (how : Grouping) (t : Tensor) (dim : Option Nat) :
    Local (stat.reduceTensor how t dim) :=
  Tensor.local_reduce _ _ _ _

end Statistic

namespace Plan

theorem local_reduceShard {f : Tensor → Option Nat → Except Failure Tensor}
    (hf : ∀ t dim, Local (f t dim)) (p : Plan) (t : Tensor) (g : Shape) :
    Local (p.reduceShard f t g) := by
  unfold reduceShard
  split
  · exact .bind (hf _ _) fun u => Tensor.local_reshape _ _
  · exact .bind (.foldlM (fun u a => hf _ _) _ _) fun u =>
      .ite (.ok _) (Tensor.local_reshape _ _)

end Plan

end SpmdArray
