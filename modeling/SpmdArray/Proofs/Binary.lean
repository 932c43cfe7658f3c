import Mathlib.Algebra.BigOperators.Ring.List
import Mathlib.Algebra.Ring.Nat
import SpmdArray.Proofs.Handles

/-!
# Functions of two operands

A function of two operands that all ranks know in full is computed shard by shard: every
rank ends up with its part of the result that a single process would compute.

## Main definitions

* `Side.Holds` — an operand that has been sent around where that is needed.
* `Portion`, `Side.Fits` — the same for an operand of which only the extents are known.
* `Side.vacant` — a rank has nothing of a split operand.
* `Sharded.finish` — what the ranks do once the operands have been sent around.
* `Sharded.shardOf` — what a rank gets, which depends on whether the function was asked.
* `BinaryFn.resultType` — the element type of what the function makes.

## Main results

* `Side.narrowTo_eq` — an unsplit operand is cut down like the result.
* `Sharded.combine_cuts` — cutting down and broadcasting commute.
* `Sharded.finish_eq` — the parts of the operands make the part of the result.
-/

namespace SpmdArray

namespace Sharded

/-! ### The stages of a function of two operands -/

/-- What is left to do once the operands have been sent around.  The ranks do it on their
own. -/
def finish (f : Tensor → Tensor → Except Failure Tensor) (d : DType) (gshape : Shape)
    (world : Comm) (lhs rhs : Side) : Except Failure Sharded := do
  let (lhs, rhs) ← align lhs rhs
  let t ← combineShards f d lhs rhs
  let (device, comm) :=
    match resultOrigin lhs rhs with
    | some x => (x.device, x.comm)
    | none => (.cpu, world)
  create t gshape t.dtype (lhs.split <|> rhs.split) device comm

/-- The operands of a function that is applied to `a` and `b`. -/
def sides (a b : Operand) : Side × Side :=
  let ndim := max a.gshape.ndim b.gshape.ndim
  (.ofOperand (Operand.dtypes a b).1 ndim a, .ofOperand (Operand.dtypes a b).2 ndim b)

variable {f : Tensor → Tensor → Except Failure Tensor} {d : DType} {g : Shape} {lhs rhs : Side}
  {a b : Operand} {world : Comm}

theorem mk_finish :
    (ExceptT.mk (pure (finish f d g world lhs rhs)) : Attempt Sharded) = (do
      let (lhs, rhs) ← (align lhs rhs : Except Failure (Side × Side))
      let t ← (combineShards f d lhs rhs : Except Failure Tensor)
      let (device, comm) :=
        match resultOrigin lhs rhs with
        | some x => (x.device, x.comm)
        | none => (.cpu, world)
      ExceptT.mk (pure (create t g t.dtype (lhs.split <|> rhs.split) device comm))) := by
  unfold finish
  rw [Attempt.mk_bind]
  refine bind_congr fun p => ?_
  rw [Attempt.mk_bind]

/-- Operands that are not split along different axes are looked at further. -/
theorem zipShards_eq
    (hsplit : ∀ i j, (sides a b).1.split = some i → (sides a b).2.split = some j → i = j) :
    zipShards f a b world = (do
      let g ← (Tensor.commonShape a.gshape b.gshape : Except Failure Shape)
      let lhs ← (sides a b).1.replicate
      let rhs ← (sides a b).2.replicate
      ExceptT.mk (pure (finish f (DType.promote (Operand.dtypes a b).1 (Operand.dtypes a b).2)
        g world lhs rhs))) := by
  simp only [mk_finish]
  unfold zipShards
  unfold sides at hsplit ⊢
  simp only at hsplit ⊢
  split
  · next i j heq =>
    obtain ⟨hi, hj⟩ := Prod.mk.inj heq
    exact if_neg (fun hne => hne (hsplit i j hi hj))
  · rfl

theorem zipShards_of_ne {i j : Nat} (hi : (sides a b).1.split = some i)
    (hj : (sides a b).2.split = some j) (hne : i ≠ j) :
    zipShards f a b world = throw (.error (.differentSplits i j)) := by
  unfold zipShards
  unfold sides at hi hj
  simp only at hi hj
  simp only [hi, hj, if_pos hne]
  rfl

/-! ### The stages of a whole group -/

section

variable {n : Nat} {x y : Fin n → Operand} (world : Fin n → Comm)

/-- **Operands that are split along different axes are refused** by all ranks. -/
theorem zipShards_runs_of_ne {i j : Nat} (hi : ∀ r, (sides (x r) (y r)).1.split = some i)
    (hj : ∀ r, (sides (x r) (y r)).2.split = some j) (hne : i ≠ j) :
    Attempt.Runs (fun r => zipShards f (x r) (y r) (world r))
      fun _ => ([], .error (.error (.differentSplits i j))) := by
  have hprog : (fun r => zipShards f (x r) (y r) (world r))
      = fun _ => throw (.error (.differentSplits i j)) :=
    funext fun r => zipShards_of_ne (hi r) (hj r) hne
  rw [hprog]
  exact Attempt.Runs.ofExcept fun _ => .error (.error (.differentSplits i j))

variable {s : Shape}
  (hsplit : ∀ r i j, (sides (x r) (y r)).1.split = some i → (sides (x r) (y r)).2.split = some j →
    i = j)

include hsplit

/-- **Operands that do not broadcast are refused** by all ranks. -/
theorem zipShards_runs_of_none (hnone : ∀ r, (x r).gshape.broadcast (y r).gshape = none) :
    Attempt.Runs (fun r => zipShards f (x r) (y r) (world r))
      fun r => ([], .error (.error (.cannotBroadcast (x r).gshape (y r).gshape))) := by
  have hprog : (fun r => zipShards f (x r) (y r) (world r))
      = fun r => throw (.error (.cannotBroadcast (x r).gshape (y r).gshape)) := by
    funext r
    rw [zipShards_eq (hsplit r), Tensor.commonShape_of_eq_none (hnone r)]
    rfl
  rw [hprog]
  exact Attempt.Runs.ofExcept fun r => .error (.error (.cannotBroadcast (x r).gshape (y r).gshape))

variable (hs : ∀ r, (x r).gshape.broadcast (y r).gshape = some s)
  {ls rs : Fin n → Side} {ev ev' : Fin n → List Event} {e : Fin n → Failure}

include hs

theorem zipShards_eq_of_broadcast (r : Fin n) :
    zipShards f (x r) (y r) (world r) = (do
      let lhs ← (sides (x r) (y r)).1.replicate
      let rhs ← (sides (x r) (y r)).2.replicate
      ExceptT.mk (pure (finish f
        (DType.promote (Operand.dtypes (x r) (y r)).1 (Operand.dtypes (x r) (y r)).2) s (world r)
        lhs rhs))) := by
  rw [zipShards_eq (hsplit r), Tensor.commonShape_of_eq_some (hs r)]
  rfl

/-- **Both operands are sent around** before any rank looks at its own parts. -/
theorem zipShards_runs
    (hl : Attempt.Runs (fun r => (sides (x r) (y r)).1.replicate) fun r => (ev r, .ok (ls r)))
    (hr : Attempt.Runs (fun r => (sides (x r) (y r)).2.replicate) fun r => (ev' r, .ok (rs r))) :
    Attempt.Runs (fun r => zipShards f (x r) (y r) (world r)) fun r =>
      (ev r ++ ev' r, finish f
        (DType.promote (Operand.dtypes (x r) (y r)).1 (Operand.dtypes (x r) (y r)).2) s (world r)
        (ls r) (rs r)) := by
  let last (lhs rhs : Side) (r : Fin n) : Except Failure Sharded :=
    finish f (DType.promote (Operand.dtypes (x r) (y r)).1 (Operand.dtypes (x r) (y r)).2) s
      (world r) lhs rhs
  have hlast := hr.bind (k := fun r rhs => ExceptT.mk (pure (last (ls r) rhs r)))
    (Attempt.Runs.ofExcept fun r => last (ls r) (rs r) r)
  simp only [List.append_nil] at hlast
  simp only [zipShards_eq_of_broadcast world hsplit hs]
  exact hl.bind (k := fun r lhs => do
    let rhs ← (sides (x r) (y r)).2.replicate
    ExceptT.mk (pure (last lhs rhs r))) hlast

theorem zipShards_runs_of_left
    (hl : Attempt.Runs (fun r => (sides (x r) (y r)).1.replicate) fun r => (ev r, .error (e r))) :
    Attempt.Runs (fun r => zipShards f (x r) (y r) (world r)) fun r => (ev r, .error (e r)) := by
  simp only [zipShards_eq_of_broadcast world hsplit hs]
  exact Attempt.Runs.bind_error _ hl

theorem zipShards_runs_of_right
    (hl : Attempt.Runs (fun r => (sides (x r) (y r)).1.replicate) fun r => (ev r, .ok (ls r)))
    (hr : Attempt.Runs (fun r => (sides (x r) (y r)).2.replicate) fun r =>
      (ev' r, .error (e r))) :
    Attempt.Runs (fun r => zipShards f (x r) (y r) (world r)) fun r =>
      (ev r ++ ev' r, .error (e r)) := by
  simp only [zipShards_eq_of_broadcast world hsplit hs]
  exact hl.bind (k := fun r lhs => do
    let rhs ← (sides (x r) (y r)).2.replicate
    ExceptT.mk (pure (finish f
      (DType.promote (Operand.dtypes (x r) (y r)).1 (Operand.dtypes (x r) (y r)).2) s (world r)
      lhs rhs))) (Attempt.Runs.bind_error _ hr)

end

end Sharded

/-! ### Operands that have been sent around -/

/-- What a rank has of an operand that has been sent around if need be: everything, or `len`
entries along the axis `kept`. -/
structure Portion where
  /-- The extents of the operand. -/
  shape : Shape
  /-- The axis along which the operand stays split. -/
  kept : Option Nat
  /-- How many entries the rank has along that axis. -/
  len : Nat

namespace Side

/-- `Holds side t k ndim rank size` says that `side` is what a rank has of the tensor `t`,
which is split along `k` and aligned to `ndim` axes: the ranks have already sent `t` around if
`k` is one of its axes of extent 1. -/
structure Holds (side : Side) (t : Tensor) (k : Option Nat) (ndim rank size : Nat) : Prop where
  /-- The shard is the part of this rank. -/
  shard : side.shard = t.part k rank size
  /-- The split axis, counted in the result. -/
  split : side.split = k.map (· + (ndim - t.shape.length))
  /-- The axes of the result in front of those of the tensor. -/
  offset : side.offset = ndim - t.shape.length
  /-- A split operand is a tensor of the group. -/
  origin : ∀ j, k = some j → j < t.shape.length ∧ (size = 1 ∨ t.shape.getD j 1 ≠ 1) ∧
    ∃ x, side.origin = some x ∧ x.gshape = t.shape ∧ x.comm.rank = rank ∧ x.comm.size = size

variable {side other : Side} {t u : Tensor} {k : Option Nat} {s : Shape} {i j ndim rank size : Nat}

/-- The split axis is one of the tensor. -/
theorem Holds.split_lt (h : Holds side t k ndim rank size) (hi : side.split = some i) :
    i - side.offset < t.shape.length := by
  rw [h.split, Option.map_eq_some_iff] at hi
  obtain ⟨j, hj, rfl⟩ := hi
  rw [h.offset, Nat.add_sub_cancel]
  exact (h.origin j hj).1

/-- A split operand is not repeated along its split axis. -/
theorem Holds.covers (h : Holds side t (some j) s.length rank size)
    (hb : t.shape.BroadcastsTo s) (hi : i = j + (s.length - t.shape.length)) (hsize : size ≠ 1) :
    t.shape.Covers s i := by
  obtain ⟨hj, hone, -⟩ := h.origin j rfl
  exact Shape.covers_of_ne_one hb hj hi (hone.resolve_left hsize)

/-- The part of a split operand is the one that is needed. -/
theorem Holds.shard_eq_share (h : Holds side t (some j) s.length rank size) (ht : t.Exact)
    (hb : t.shape.BroadcastsTo s) (hr : rank < size)
    (hi : i = j + (s.length - t.shape.length)) : side.shard = t.share s i rank size := by
  rw [h.shard]
  by_cases hsize : size = 1
  · subst hsize
    obtain rfl : rank = 0 := by omega
    rw [ht.part_of_one, ht.share_of_one]
  · have hc := h.covers hb hi hsize
    have hext := Shape.getD_of_covers hc
    have hj : i - (s.length - t.shape.length) = j := by omega
    rw [hj] at hext
    simp only [Tensor.share, Tensor.cut, if_pos hc, hj, Tensor.part, hext]

/-- `Fits side p ndim rank size` says that `side` is what a rank has of an operand that is aligned
to `ndim` axes: the portion `p` of it.  The operand has been sent around if it was split along an
axis of extent 1. -/
structure Fits (side : Side) (p : Portion) (ndim rank size : Nat) : Prop where
  /-- The elements of the shard have been counted. -/
  stored : side.shard.Stored
  /-- The extents of the shard. -/
  shape : side.shard.shape = p.kept.elim p.shape (p.shape.set · p.len)
  /-- The split axis, counted in the result. -/
  split : side.split = p.kept.map (· + (ndim - p.shape.length))
  /-- The axes of the result in front of those of the operand. -/
  offset : side.offset = ndim - p.shape.length
  /-- A split operand is a tensor of the group, and a single rank has all of it. -/
  origin : ∀ j, p.kept = some j → j < p.shape.length ∧ (size = 1 ∨ p.shape.getD j 1 ≠ 1) ∧
    p.len ≤ p.shape.getD j 1 ∧ (size = 1 → p.len = p.shape.getD j 1) ∧
    ∃ x, side.origin = some x ∧ x.gshape = p.shape ∧ x.comm.rank = rank ∧ x.comm.size = size

/-- The part of a tensor is one of the portions that a rank may have. -/
theorem Holds.fits (h : Holds side t k ndim rank size) (ht : t.Exact) (hr : rank < size) :
    Fits side ⟨t.shape, k, (Chunk.balanced (t.shape.getD (k.getD 0) 1) rank size).length⟩ ndim rank
      size where
  stored := by
    rw [h.shard]
    exact (ht.part hr).stored
  shape := by
    rw [h.shard]
    cases k <;> rfl
  split := h.split
  offset := h.offset
  origin j hj := by
    obtain ⟨hlt, hone, hx⟩ := h.origin j hj
    obtain rfl : k = some j := hj
    refine ⟨hlt, hone, Chunk.length_balanced_le hr, ?_, hx⟩
    rintro rfl
    obtain rfl : rank = 0 := by omega
    exact congrArg Chunk.length (Chunk.balanced_of_one _)

/-- What cutting down an unsplit operand amounts to: nothing if it is repeated along the split
axis, and otherwise the rank has to hold the balanced chunk of the split operand. -/
theorem narrowTo_eq_ite {p q : Portion} (h : Fits side p ndim rank size) (hp : p.kept = none)
    (ho : Fits other q ndim rank size) (hq : q.kept = some j) (hb : p.shape.length ≤ ndim)
    (hbo : q.shape.length ≤ ndim) (hi : i = j + (ndim - q.shape.length)) :
    side.narrowTo other i =
      if ndim - p.shape.length ≤ i ∧
          p.shape.getD (i - (ndim - p.shape.length)) 1 = q.shape.getD j 1 then
        let c := Chunk.balanced (q.shape.getD j 1) rank size
        if q.len = c.length then do
          return { side with
            shard := ← side.shard.narrow (i - (ndim - p.shape.length)) c.start c.length }
        else Error.raise (.unbalancedShard q.len i c.start c.stop)
      else .ok side := by
  obtain ⟨hj, -, -, -, x, hx, hxshape, hxrank, hxsize⟩ := ho.origin j hq
  have hshape : side.shard.shape = p.shape := by rw [h.shape, hp, Option.elim_none]
  have haxis : i - (ndim - q.shape.length) = j := by omega
  have hglobal : x.gshape.extent (i - other.offset) = .ok (q.shape.getD j 1) := by
    rw [hxshape, ho.offset, haxis, Shape.extent_eq hj]
  have hheld : other.extent i = .ok q.len := by
    rw [Side.extent, ho.shape, ho.offset, haxis, hq, Option.elim_some,
      Shape.extent_eq (by rwa [List.length_set]), Shape.getD_set hj, if_pos rfl]
  unfold narrowTo
  simp only [hx, h.offset]
  by_cases hoff : ndim - p.shape.length ≤ i
  · have hown : side.extent i = .ok (p.shape.getD (i - (ndim - p.shape.length)) 1) := by
      rw [Side.extent, hshape, h.offset, Shape.extent_eq (by omega)]
    rw [if_neg (by omega)]
    simp only [hglobal, hown, hheld]
    by_cases hext : p.shape.getD (i - (ndim - p.shape.length)) 1 = q.shape.getD j 1
    · rw [if_pos ⟨hoff, hext⟩]
      simp only [Comm.chunk, hxrank, hxsize]
      show (if _ then _ else _) = _
      rw [if_neg (fun hne => hne hext)]
      by_cases hlen : q.len = (Chunk.balanced (q.shape.getD j 1) rank size).length
      · rw [if_pos hlen]
        show (if _ then _ else _) = _
        rw [if_neg (fun hne => hne hlen)]
      · rw [if_neg hlen]
        show (if _ then _ else _) = _
        rw [if_pos hlen]
        rfl
    · rw [if_neg (fun hc => hext hc.2)]
      show (if _ then _ else _) = _
      rw [if_pos hext]
      rfl
  · rw [if_pos (by omega), if_neg (by omega)]
    rfl

/-- **An unsplit operand is cut down to what is needed.** -/
theorem narrowTo_eq (h : Holds side t none s.length rank size)
    (ho : Holds other u (some j) s.length rank size) (ht : t.Exact) (hu : u.Exact)
    (hb : t.shape.BroadcastsTo s)
    (hbu : u.shape.BroadcastsTo s) (hr : rank < size)
    (hi : i = j + (s.length - u.shape.length)) :
    side.narrowTo other i = .ok { side with shard := t.share s i rank size } := by
  have hshard : side.shard = t := h.shard
  have hself : side = { side with shard := t } := by rw [← hshard]
  rw [narrowTo_eq_ite (h.fits ht hr) rfl (ho.fits hu hr) rfl hb.1 hbu.1 hi]
  simp only [Option.getD_some, if_true, hshard]
  have hwin (hc : s.length - t.shape.length ≤ i ∧
      t.shape.getD (i - (s.length - t.shape.length)) 1 = u.shape.getD j 1) :
      let c := Chunk.balanced (u.shape.getD j 1) rank size
      t.narrow (i - (s.length - t.shape.length)) c.start c.length
        = .ok (t.window (i - (s.length - t.shape.length)) c.start c.length) := by
    have hlen := hb.1
    have hj := (ho.origin j rfl).1
    have hlt := hbu.1
    refine ht.narrow_eq (show _ < t.shape.length by omega) ?_
    rw [hc.2]
    exact Chunk.start_add_length_le hr
  by_cases hsize : size = 1
  · subst hsize
    obtain rfl : rank = 0 := by omega
    split
    · next hc =>
      rw [hwin hc, ok_bind, ht.share_of_one, Chunk.balanced_of_one, ← hc.2]
      exact congrArg (fun v => Except.ok { side with shard := v }) ht.window_self
    · rw [ht.share_of_one, ← hself]
  · have hglobal := Shape.getD_of_covers (ho.covers hbu hi hsize)
    rw [show i - (s.length - u.shape.length) = j by omega] at hglobal
    rw [hglobal] at hwin ⊢
    rw [Tensor.share, Tensor.cut]
    by_cases hc : t.shape.Covers s i
    · have hmeet := And.intro hc.1 (Shape.getD_of_covers hc)
      rw [if_pos hmeet, hwin hmeet, if_pos hc]
      rfl
    · rw [if_neg hc, if_neg, ← hself]
      rintro ⟨hoff, hext⟩
      refine hc ⟨hoff, ?_⟩
      rw [Shape.extentAt_of_ge hoff]
      exact hext

/-- Whether this rank has nothing of a split operand. -/
def vacant (side : Side) : Bool :=
  match side.split with
  | none => false
  | some i => side.shard.shape.getD (i - side.offset) 1 == 0

theorem vacant_of_none (h : side.split = none) : side.vacant = false := by
  rw [vacant, h]

/-- Cutting down an unsplit operand does not make it one of which this rank has nothing. -/
theorem vacant_with (h : side.split = none) (x : Tensor) :
    ({ side with shard := x } : Side).vacant = side.vacant := by
  rw [vacant_of_none h]
  exact vacant_of_none h

theorem eq_with {x : Tensor} (h : side.shard = x) : side = { side with shard := x } := by
  subst h
  rfl

/-- Looking for an empty shard. -/
theorem isEmpty_eq (hk : ∀ i, side.split = some i → i - side.offset < side.shard.shape.length) :
    side.isEmpty = .ok side.vacant := by
  unfold isEmpty vacant
  cases hsplit : side.split with
  | none => rfl
  | some i =>
    simp only [Side.extent, Shape.extent_eq (hk i hsplit)]
    rfl

end Side

namespace Shape

/-- An operand without entries leaves none in the result. -/
theorem BroadcastsTo.prod_eq_zero {a s : Shape} (h : a.BroadcastsTo s) (h0 : 0 ∈ a) :
    s.prod = 0 := by
  obtain ⟨i, hi, he⟩ := List.getElem_of_mem h0
  have hlen := h.1
  have hj : i + (s.length - a.length) < s.length := by omega
  have hext := h.2 _ hj
  rw [extentAt_add, List.getD_eq_getElem _ _ hi, he, List.getD_eq_getElem _ _ hj] at hext
  have hmem : 0 ∈ s := by
    rw [hext.resolve_left (by decide)]
    exact List.getElem_mem hj
  exact List.prod_eq_zero hmem

end Shape

theorem Tensor.cast_self {v : Tensor} {d : DType} (h : v.dtype = d) : v.cast d = v := by
  subst h
  exact congrArg (Tensor.mk v.shape) v.buffer.cast_self

/-- There is one exact tensor of an empty shape. -/
theorem Tensor.Exact.eq_zeros {v : Tensor} (hv : v.Exact) (h : v.shape.prod = 0) :
    v = ⟨v.shape, .zeros v.dtype v.shape.prod⟩ := by
  have hdata : v.buffer.data = [] := List.eq_nil_of_length_eq_zero (hv.count.trans h)
  show (⟨v.shape, ⟨v.dtype, v.buffer.data⟩⟩ : Tensor) = ⟨v.shape, ⟨v.dtype, _⟩⟩
  rw [hdata, h]
  rfl

namespace Sharded

variable {lhs rhs : Side} {d : DType} {op : BinaryFn} {v : Tensor}

/-- What a rank gets whose part of the result is `v`: the function is not asked for it if the
rank has nothing of a split operand. -/
def shardOf (d : DType) (lhs rhs : Side) (v : Tensor) : Tensor :=
  if lhs.vacant || rhs.vacant then ⟨v.shape, .zeros d v.shape.prod⟩ else v

@[simp] theorem shape_shardOf : (shardOf d lhs rhs v).shape = v.shape := by
  unfold shardOf
  split <;> rfl

theorem combineShards_eq {f : Tensor → Tensor → Except Failure Tensor}
    (h : lhs.shard.shape.broadcast rhs.shard.shape = some v.shape)
    (hv : v.shape.numel = .ok v.shape.prod)
    (hl : ∀ i, lhs.split = some i → i - lhs.offset < lhs.shard.shape.length)
    (hr : ∀ i, rhs.split = some i → i - rhs.offset < rhs.shard.shape.length)
    (hf : f (lhs.shard.cast d) (rhs.shard.cast d) = .ok v) :
    combineShards f d lhs rhs = .ok (shardOf d lhs rhs v) := by
  have hend : ∀ w : Tensor, w.shape = v.shape →
      (if w.shape ≠ v.shape then (do
        Error.raise (.shapeMismatch v.shape w.shape)
        return w)
      else return w : Except Failure Tensor) = .ok w := fun w hw => if_neg fun hne => hne hw
  have hzeros : Tensor.zeros v.shape d = .ok ⟨v.shape, .zeros d v.shape.prod⟩ := by
    rw [Tensor.zeros, hv]
    rfl
  unfold combineShards shardOf
  simp only [Tensor.commonShape_of_eq_some h, Side.isEmpty_eq hl, Side.isEmpty_eq hr, lift_ok,
    ok_bind, pure_eq_ok]
  -- the function is not asked if one of the shards has nothing of a split operand
  cases lhs.vacant with
  | true =>
    simp only [hzeros, lift_ok, ok_bind, if_true, Bool.true_or]
    exact hend ⟨v.shape, .zeros d v.shape.prod⟩ rfl
  | false =>
    cases rhs.vacant with
    | true =>
      simp only [hzeros, lift_ok, ok_bind, if_true, Bool.or_true, Bool.false_eq_true, if_false]
      exact hend ⟨v.shape, .zeros d v.shape.prod⟩ rfl
    | false =>
      simp only [hf, ok_bind, Bool.or_self, Bool.false_eq_true, if_false]
      exact hend v rfl

end Sharded

/-- The element type of what a function makes of elements of type `d`. -/
def BinaryFn.resultType (op : BinaryFn) (d : DType) : DType :=
  if op = .div then d.toFloat else d

theorem BinaryFn.resultType_of_ne {op : BinaryFn} (h : op ≠ .div) (d : DType) :
    op.resultType d = d := if_neg h

namespace Sharded

variable {lhs rhs : Side} {d : DType} {op : BinaryFn} {v : Tensor}

theorem kernel_of_ne (hop : op ≠ .div) (x y : Tensor) : kernel op x y = x.binary op y := by
  cases op with
  | div => exact absurd rfl hop
  | _ => rfl

/-- Each function works on elements of the type of its result. -/
theorem kernel_cast (op : BinaryFn) (d : DType) (x y : Tensor) :
    kernel op (x.cast d) (y.cast d)
      = ((x.cast d).cast (op.resultType d)).binary op ((y.cast d).cast (op.resultType d)) := by
  by_cases hop : op = .div
  · subst hop
    rfl
  · have hself : ∀ z : Tensor, (z.cast d).cast d = z.cast d := fun z => Tensor.cast_self rfl
    rw [kernel_of_ne hop, BinaryFn.resultType_of_ne hop, hself, hself]

section

variable {t u : Tensor} {k₁ k₂ : Option Nat} {rank size : Nat}

/-- **Operands that are cut down make a slice of the result.** -/
theorem combine_cuts {i start len : Nat} (ht : t.Exact) (hu : u.Exact)
    (h : t.shape.broadcast u.shape = some v.shape) (hv : v.Exact)
    (hrun : kernel op (t.cast d) (u.cast d) = .ok v)
    (hi : i < v.shape.length) (hfit : start + len ≤ v.shape.getD i 1)
    (hlhs : lhs.shard = t.cut v.shape i start len) (hrhs : rhs.shard = u.cut v.shape i start len)
    (hl : ∀ j, lhs.split = some j → j - lhs.offset < t.shape.length)
    (hr : ∀ j, rhs.split = some j → j - rhs.offset < u.shape.length) :
    combineShards (kernel op) d lhs rhs
      = .ok (shardOf d lhs rhs (v.slice (some i) start len)) := by
  have ht' := (ht.cast d).cast (op.resultType d)
  have hu' := (hu.cast d).cast (op.resultType d)
  rw [kernel_cast] at hrun
  obtain ⟨w, hw, -, -, -, hwin⟩ := ht'.binary_cut op hu' rfl h hv.sized
  obtain rfl : w = v := Except.ok.inj (hw.symm.trans hrun)
  have hshape : ∀ x : Tensor, (x.cut w.shape i start len).shape = x.shape.cut w.shape i len := by
    intro x
    unfold Tensor.cut Shape.cut
    split <;> rfl
  have hlen : ∀ x : Tensor, (x.cut w.shape i start len).shape.length = x.shape.length := by
    intro x
    rw [hshape, Shape.length_cut]
  have hcast : ∀ x : Tensor, x.Exact →
      ((x.cut w.shape i start len).cast d).cast (op.resultType d)
        = ((x.cast d).cast (op.resultType d)).cut w.shape i start len := by
    intro x hx
    rw [Tensor.cast_cut hx hfit, Tensor.cast_cut (hx.cast d) hfit]
  have hslice : (w.slice (some i) start len).Exact := hv.window (by omega)
  refine combineShards_eq ?_ (Shape.numel_of_volume_lt hslice.sized) ?_ ?_ ?_
  · rw [hlhs, hrhs, hshape, hshape]
    exact Shape.broadcast_cut h hi
  · intro j hj
    rw [hlhs, hlen]
    exact hl j hj
  · intro j hj
    rw [hrhs, hlen]
    exact hr j hj
  · rw [hlhs, hrhs, kernel_cast, hcast t ht, hcast u hu]
    exact hwin i _ _ hi hfit

/-- The parts of the operands that are needed make the part of the result. -/
theorem combine_shares {i : Nat} (ht : t.Exact) (hu : u.Exact)
    (h : t.shape.broadcast u.shape = some v.shape) (hv : v.Exact)
    (hrun : kernel op (t.cast d) (u.cast d) = .ok v)
    (hi : i < v.shape.length) (hrank : rank < size)
    (hlhs : lhs.shard = t.share v.shape i rank size)
    (hrhs : rhs.shard = u.share v.shape i rank size)
    (hl : ∀ j, lhs.split = some j → j - lhs.offset < t.shape.length)
    (hr : ∀ j, rhs.split = some j → j - rhs.offset < u.shape.length) :
    combineShards (kernel op) d lhs rhs
      = .ok (shardOf d lhs rhs (v.part (some i) rank size)) :=
  combine_cuts ht hu h hv hrun hi
    (Chunk.start_add_length_le hrank) hlhs hrhs hl hr

/-- Shards whose shapes do not broadcast are refused. -/
theorem combineShards_of_none {f : Tensor → Tensor → Except Failure Tensor}
    (h : lhs.shard.shape.broadcast rhs.shard.shape = none) :
    combineShards f d lhs rhs
      = .error (.error (.cannotBroadcast lhs.shard.shape rhs.shard.shape)) := by
  unfold combineShards
  rw [Tensor.commonShape_of_eq_none h]
  rfl

/-- The split axis of the result. -/
def splitOf (lhs rhs : Side) : Option Nat := lhs.split <|> rhs.split

/-- The group of the result; `world` if no operand has one. -/
def commOf (world : Comm) (lhs rhs : Side) : Comm :=
  ((resultOrigin lhs rhs).map Sharded.comm).getD world

/-- The device of the result. -/
def deviceOf (lhs rhs : Side) : Device := ((resultOrigin lhs rhs).map Sharded.device).getD .cpu

theorem splitOf_of_some {i : Nat} (h : lhs.split = some i) : splitOf lhs rhs = some i := by
  rw [splitOf, h]
  rfl

theorem splitOf_of_none (h : lhs.split = none) : splitOf lhs rhs = rhs.split := by
  rw [splitOf, h]
  rfl

/-- Nothing is cut down if both operands are split, or neither is. -/
theorem align_of_isSome_eq (h : lhs.split.isSome = rhs.split.isSome) :
    align lhs rhs = .ok (lhs, rhs) := by
  unfold align
  cases hl : lhs.split <;> cases hr : rhs.split
  · rfl
  · rw [hl, hr] at h
    cases h
  · rw [hl, hr] at h
    cases h
  · rfl

theorem align_of_left {i : Nat} (hl : lhs.split = some i) (hr : rhs.split = none) :
    align lhs rhs = (do return (lhs, ← rhs.narrowTo lhs i)) := by
  rw [align, hl, hr]

theorem align_of_right {i : Nat} (hl : lhs.split = none) (hr : rhs.split = some i) :
    align lhs rhs = (do return (← lhs.narrowTo rhs i, rhs)) := by
  rw [align, hl, hr]

theorem finish_of_align {f : Tensor → Tensor → Except Failure Tensor} {g : Shape} {world : Comm}
    {x y w : Tensor}
    (halign : align lhs rhs = .ok ({ lhs with shard := x }, { rhs with shard := y }))
    (hcombine : combineShards f d { lhs with shard := x } { rhs with shard := y } = .ok w) :
    finish f d g world lhs rhs
      = create w g w.dtype (splitOf lhs rhs) (deviceOf lhs rhs) (commOf world lhs rhs) := by
  unfold finish
  rw [halign]
  show (do let t ← combineShards f d { lhs with shard := x } { rhs with shard := y }; _) = _
  rw [hcombine]
  unfold deviceOf commOf
  have horigin : resultOrigin { lhs with shard := x } { rhs with shard := y }
      = resultOrigin lhs rhs := rfl
  rw [← horigin]
  show create _ _ _ _ _ _ = _
  rcases resultOrigin { lhs with shard := x } { rhs with shard := y } with _ | o <;> rfl

/-- Operands that cannot be brought into line have no result. -/
theorem finish_of_align_error {f : Tensor → Tensor → Except Failure Tensor} {g : Shape}
    {world : Comm} {e : Failure} (halign : align lhs rhs = .error e) :
    finish f d g world lhs rhs = .error e := by
  unfold finish
  rw [halign]
  rfl

/-- Operands that cannot be combined have no result. -/
theorem finish_of_error {f : Tensor → Tensor → Except Failure Tensor} {g : Shape} {world : Comm}
    {x y : Side} {e : Failure} (halign : align lhs rhs = .ok (x, y))
    (hcombine : combineShards f d x y = .error e) : finish f d g world lhs rhs = .error e := by
  unfold finish
  rw [halign]
  show (do let t ← combineShards f d x y; _) = _
  rw [hcombine]
  rfl

variable (world : Comm) (ht : t.Exact) (hu : u.Exact)
  (h : t.shape.broadcast u.shape = some v.shape) (hv : v.Exact)
  (hrun : kernel op (t.cast d) (u.cast d) = .ok v) (hrank : rank < size)
  (hl : lhs.Holds t k₁ v.shape.length rank size) (hr : rhs.Holds u k₂ v.shape.length rank size)

include ht hu h hv hrun hrank hl hr

/-- A split result: both operands are cut down along its axis. -/
theorem finish_of_shares {i : Nat} (hi : splitOf lhs rhs = some i) (hlt : i < v.shape.length)
    (hvacant : ({ lhs with shard := t.share v.shape i rank size } : Side).vacant = lhs.vacant ∧
      ({ rhs with shard := u.share v.shape i rank size } : Side).vacant = rhs.vacant)
    (halign : align lhs rhs = .ok ({ lhs with shard := t.share v.shape i rank size },
      { rhs with shard := u.share v.shape i rank size })) :
    finish (kernel op) d v.shape world lhs rhs
      = let w := shardOf d lhs rhs (v.part (splitOf lhs rhs) rank size)
        create w v.shape w.dtype (splitOf lhs rhs) (deviceOf lhs rhs) (commOf world lhs rhs) := by
  let lhs' : Side := { lhs with shard := t.share v.shape i rank size }
  let rhs' : Side := { rhs with shard := u.share v.shape i rank size }
  have hcombine : combineShards (kernel op) d lhs' rhs'
      = .ok (shardOf d lhs' rhs' (v.part (some i) rank size)) :=
    combine_shares ht hu h hv hrun hlt hrank rfl rfl (fun _ => hl.split_lt) (fun _ => hr.split_lt)
  have hshard : shardOf d lhs' rhs' (v.part (some i) rank size)
      = shardOf d lhs rhs (v.part (some i) rank size) := by
    unfold shardOf
    rw [hvacant.1, hvacant.2]
  rw [hshard] at hcombine
  rw [finish_of_align halign hcombine, hi]

omit ht hu hrank in
/-- A result that no rank has only a part of. -/
theorem finish_of_wholes (hk₁ : k₁ = none) (hk₂ : k₂ = none) :
    finish (kernel op) d v.shape world lhs rhs
      = let w := shardOf d lhs rhs (v.part (splitOf lhs rhs) rank size)
        create w v.shape w.dtype (splitOf lhs rhs) (deviceOf lhs rhs) (commOf world lhs rhs) := by
  subst hk₁ hk₂
  have hl0 : lhs.split = none := hl.split
  have hr0 : rhs.split = none := hr.split
  have hlhs : lhs.shard = t := hl.shard
  have hrhs : rhs.shard = u := hr.shard
  have hk : splitOf lhs rhs = none := (splitOf_of_none hl0).trans hr0
  have halign : align lhs rhs = .ok (lhs, rhs) := align_of_isSome_eq (by rw [hl0, hr0])
  have hcombine : combineShards (kernel op) d lhs rhs = .ok (shardOf d lhs rhs v) := by
    refine combineShards_eq ?_ (Shape.numel_of_volume_lt hv.sized) ?_ ?_ ?_
    · rw [hlhs, hrhs]
      exact h
    · rw [hlhs]
      exact fun _ => hl.split_lt
    · rw [hrhs]
      exact fun _ => hr.split_lt
    · rw [hlhs, hrhs]
      exact hrun
  rw [finish_of_align halign hcombine, hk]
  rfl

/-- **The parts of the operands make the part of the result**, for the ranks that ask the
function. -/
theorem finish_eq (hagree : ∀ i j, lhs.split = some i → rhs.split = some j → i = j) :
    finish (kernel op) d v.shape world lhs rhs
      = let w := shardOf d lhs rhs (v.part (splitOf lhs rhs) rank size)
        create w v.shape w.dtype (splitOf lhs rhs) (deviceOf lhs rhs) (commOf world lhs rhs) := by
  have hbt := Shape.broadcastsTo_left h
  have hbu := Shape.broadcastsTo_right h
  -- the shard of a split operand is the share already; an unsplit one has to be cut down
  cases k₁ with
  | none =>
    have hl0 : lhs.split = none := hl.split
    cases k₂ with
    | none => exact finish_of_wholes world h hv hrun hl hr rfl rfl
    | some j =>
      have hr0 := hr.split
      rw [Option.map_some] at hr0
      have hj := (hr.origin j rfl).1
      have hshare := Side.eq_with (hr.shard_eq_share hu hbu hrank rfl)
      refine finish_of_shares world ht hu h hv hrun hrank hl hr
        ((splitOf_of_none hl0).trans hr0) (by have := hbu.1; omega)
        ⟨Side.vacant_with hl0 _, by rw [← hshare]⟩ ?_
      rw [← hshare, align_of_right hl0 hr0,
        Side.narrowTo_eq hl hr ht hu hbt hbu hrank rfl]
      rfl
  | some j =>
    have hl0 := hl.split
    rw [Option.map_some] at hl0
    have hj := (hl.origin j rfl).1
    have hshare := Side.eq_with (hl.shard_eq_share ht hbt hrank rfl)
    have hi : splitOf lhs rhs = some (j + (v.shape.length - t.shape.length)) :=
      splitOf_of_some hl0
    have hlt : j + (v.shape.length - t.shape.length) < v.shape.length := by
      have := hbt.1
      omega
    cases k₂ with
    | none =>
      have hr0 : rhs.split = none := hr.split
      refine finish_of_shares world ht hu h hv hrun hrank hl hr hi hlt
        ⟨by rw [← hshare], Side.vacant_with hr0 _⟩ ?_
      rw [← hshare, align_of_left hl0 hr0,
        Side.narrowTo_eq hr hl hu ht hbu hbt hrank rfl]
      rfl
    | some j' =>
      have hr0 := hr.split
      rw [Option.map_some] at hr0
      have hsame := hagree _ _ hl0 hr0
      have hshare' := Side.eq_with (hr.shard_eq_share hu hbu hrank hsame)
      refine finish_of_shares world ht hu h hv hrun hrank hl hr hi hlt
        ⟨by rw [← hshare], by rw [← hshare']⟩ ?_
      rw [← hshare, ← hshare']
      exact align_of_isSome_eq (by rw [hl0, hr0]; rfl)

end

end Sharded

end SpmdArray
