import SpmdArray.Proofs.Binary

/-!
# Operands that all ranks know in full

The ranks of a group scatter tensors that all of them know in full, and apply a function of
two operands to the handles.  They get what a single process would get, in parts.

## Main definitions

* `Source` — a scalar, or a tensor and the axis along which it is scattered.
* `Source.apply` — what a rank does: scatter two operands and apply a function to them.
* `Source.lacks` — a rank has nothing of an operand that stays split.
* `Source.outcome` — the handle that a rank gets.
* `Source.valueOn` — the tensor of which a rank gets its part.

## Main results

* `Source.replicate_runs` — the ranks send operands around where that is needed.
* `Source.outcome_eq` — every rank gets its part of a tensor.
* `Source.binary_runs_outcome` — what the ranks make of two operands.
* `Source.binary_runs` — the ranks compute their parts of the result.
-/

namespace SpmdArray

theorem Scalar.exact_toTensor (s : Scalar) (d : DType) : (s.toTensor d).Exact := by
  have hone : ∀ (e : DType) (x : Elem e), (Tensor.vector ⟨e, [x]⟩).Exact := fun e x =>
    ⟨rfl, (by decide : Shape.volume [1] < Size.modulus)⟩
  cases s with
  | bool b => exact (hone .bool b).cast d
  | int i => exact (hone .i64 i).cast d
  | float x => exact (hone .f64 x).cast d

/-- An operand that all ranks of a group know in full. -/
inductive Source (n : Nat) where
  /-- A bare value. -/
  | scalar (s : Scalar)
  /-- A tensor, the axis along which it is to be split, and the communicators of the ranks. -/
  | tensor (t : Tensor) (split : Option Nat) (comm : Fin n → Comm)

namespace Source

variable {n : Nat}

/-- A tensor can be scattered along its own axes, among the ranks of a group. -/
def Valid : Source n → Prop
  | scalar _ => True
  | tensor t k c => t.Exact ∧ (∀ i, k = some i → i < t.ndim) ∧ Comm.Spans c

/-- What rank `r` makes of the operand. -/
def scatter (a : Source n) (r : Fin n) : Except Failure Operand :=
  match a with
  | scalar s => return .scalar s
  | tensor t k c => return .tensor (← Sharded.ofGlobal t k (c r))

/-- The global shape. -/
def gshape : Source n → Shape
  | scalar _ => [1]
  | tensor t _ _ => t.shape

/-- The axis along which the operand is scattered. -/
def split : Source n → Option Nat
  | scalar _ => none
  | tensor _ k _ => k

/-- The tensor as a single process would have it, where a scalar takes type `d`. -/
def whole (d : DType) : Source n → Tensor
  | scalar s => s.toTensor d
  | tensor t _ _ => t

/-- The element types that two operands take next to each other. -/
def dtypes : Source n → Source n → DType × DType
  | scalar a, scalar b =>
    let d := DType.promote (a.dtypeAlongside b.dtype) (b.dtypeAlongside a.dtype)
    (d, d)
  | scalar a, tensor u _ _ => (a.dtypeAlongside u.dtype, u.dtype)
  | tensor t _ _, scalar b => (t.dtype, b.dtypeAlongside t.dtype)
  | tensor t _ _, tensor u _ _ => (t.dtype, u.dtype)

/-- The axis along which the operand stays split: an axis of extent 1 is not shared out among
several ranks. -/
def kept (a : Source n) : Option Nat :=
  a.split.filter fun i => n = 1 ∨ a.gshape.getD i 1 ≠ 1

/-- Number of axes of the result of a function of two operands. -/
def ndim (a b : Source n) : Nat := max a.gshape.length b.gshape.length

/-- An axis of the operand, counted in a result with `ndim` axes. -/
def axisIn (a : Source n) (ndim : Nat) (k : Option Nat) : Option Nat :=
  k.map (· + (ndim - a.gshape.length))

/-- What rank `r` does: scatter two operands and apply a function to them. -/
def apply (op : BinaryFn) (a b : Source n) (world : Fin n → Comm) (r : Fin n) :
    Attempt Sharded := do
  let x ← (a.scatter r : Except Failure Operand)
  let y ← (b.scatter r : Except Failure Operand)
  Sharded.binary op x y (world r)

/-! ### Scattering -/

/-- The handle of rank `r`. -/
def operand (a : Source n) (r : Fin n) : Operand :=
  match a with
  | scalar s => .scalar s
  | tensor t k c => .tensor (.ofWhole t k (c r))

variable {a b : Source n}

theorem scatter_eq (ha : a.Valid) (r : Fin n) : a.scatter r = .ok (a.operand r) := by
  cases a with
  | scalar s => rfl
  | tensor t k c =>
    obtain ⟨ht, hk, hc⟩ := ha
    rw [scatter, Sharded.ofGlobal_eq ht hk (by rw [hc.rank_eq, hc.size_eq]; exact r.isLt)]
    rfl

theorem exact_whole (ha : a.Valid) (d : DType) : (a.whole d).Exact := by
  cases a with
  | scalar s => exact Scalar.exact_toTensor s d
  | tensor t k c => exact ha.1

theorem shape_whole (d : DType) : (a.whole d).shape = a.gshape := by
  cases a with
  | scalar s => cases s <;> rfl
  | tensor t k c => rfl

theorem gshape_operand (r : Fin n) : (a.operand r).gshape = a.gshape := by
  cases a <;> rfl

theorem dtypes_operand (r : Fin n) :
    Operand.dtypes (a.operand r) (b.operand r) = dtypes a b := by
  cases a <;> cases b <;> rfl

theorem kept_eq_some_iff {i : Nat} :
    a.kept = some i ↔ a.split = some i ∧ (n = 1 ∨ a.gshape.getD i 1 ≠ 1) := by
  rw [kept, Option.filter_eq_some_iff, decide_eq_true_iff]

theorem split_lt (ha : a.Valid) {i : Nat} (h : a.split = some i) : i < a.gshape.length := by
  cases a with
  | scalar s => cases h
  | tensor t k c => exact ha.2.1 i h

/-! ### Sending operands around -/

/-- The handle of rank `r`, if the operand is a tensor. -/
def origin (a : Source n) (r : Fin n) : Option Sharded :=
  match a with
  | scalar _ => none
  | tensor t k c => some (.ofWhole t k (c r))

/-- What rank `r` has of the operand once it has been sent around. -/
def side (a : Source n) (d : DType) (ndim : Nat) (r : Fin n) : Side :=
  ⟨(a.whole d).part a.kept r n, a.axisIn ndim a.kept, ndim - a.gshape.length, a.origin r⟩

theorem holds_side (ha : a.Valid) (d : DType) (ndim : Nat) (r : Fin n) :
    (a.side d ndim r).Holds (a.whole d) a.kept ndim r n where
  shard := rfl
  split := by rw [shape_whole]; rfl
  offset := by rw [shape_whole]; rfl
  origin i hi := by
    rw [shape_whole]
    obtain ⟨hsplit, hone⟩ := kept_eq_some_iff.mp hi
    refine ⟨split_lt ha hsplit, hone, ?_⟩
    cases a with
    | scalar s => cases hsplit
    | tensor t k c => exact ⟨_, rfl, rfl, ha.2.2.rank_eq r, ha.2.2.size_eq r⟩

theorem part_of_spans {c : Fin n → Comm} (hc : Comm.Spans c) (t : Tensor) (k : Option Nat)
    (r : Fin n) : (Sharded.ofWhole t k (c r)).shard = t.part k r n := by
  rw [Sharded.ofWhole, hc.rank_eq, hc.size_eq]

/-- An operand that is not sent around. -/
theorem ofOperand_eq_side (ha : a.Valid) (hk : a.kept = a.split) (d : DType) (ndim : Nat)
    (r : Fin n) : Side.ofOperand d ndim (a.operand r) = a.side d ndim r := by
  rw [side, hk]
  cases a with
  | scalar s => rfl
  | tensor t k c =>
    rw [operand, Side.ofOperand, part_of_spans ha.2.2]
    rfl

theorem replicate_runs_of_kept (ha : a.Valid) (hk : a.kept = a.split) (d : DType) (ndim : Nat)
    (hpure : ∀ r, (a.side d ndim r).replicate = pure (a.side d ndim r)) :
    Attempt.Runs (fun r => (Side.ofOperand d ndim (a.operand r)).replicate)
      fun r => ([], .ok (a.side d ndim r)) := by
  simp only [ofOperand_eq_side ha hk, hpure]
  exact Attempt.Runs.pure _

/-- An operand that is sent around from rank 0, which holds all of it. -/
theorem replicate_runs_of_sent [NeZero n] {t : Tensor} {i : Nat} {c : Fin n → Comm}
    (ha : (tensor t (some i) c).Valid) (hn : 1 < n) (hone : t.shape.getD i 1 = 1) (d : DType)
    (ndim : Nat) :
    ∃ ev, Attempt.Runs
      (fun r => (Side.ofOperand d ndim ((tensor t (some i) c).operand r)).replicate)
      fun r => (ev, .ok ((tensor t (some i) c).side d ndim r)) := by
  obtain ⟨ht, hk, hc⟩ := ha
  have hi : i < t.shape.length := hk i rfl
  have hnone : (tensor t (some i) c).kept = none := by
    rw [kept, Option.filter_eq_none_iff]
    rintro j hj
    obtain rfl : i = j := Option.some.inj hj
    rw [decide_eq_true_iff, not_or, not_not]
    exact ⟨by omega, hone⟩
  obtain ⟨g, hg⟩ := hc.members hn
  have hheld : Side.HeldByFirst (fun r => Sharded.ofWhole t (some i) (c r)) i := by
    intro r
    rw [part_of_spans hc, t.getD_shape_part i hi, if_pos rfl, hone,
      Chunk.length_balanced_singleton hn]
  -- rank 0 has everything
  have hfirst : (Sharded.ofWhole t (some i) (c 0)).shard = t := by
    have hself : t.window i 0 (t.shape.getD i 1) = t := ht.window_self
    rw [hone] at hself
    rw [part_of_spans hc, show ((0 : Fin n) : Nat) = 0 from rfl, Tensor.part, hone,
      Chunk.balanced_singleton_first hn]
    exact hself
  have hrun := Side.replicate_runs
    (fun r => Side.ofOperand d ndim ((tensor t (some i) c).operand r))
    (fun r => rfl) (Sharded.agree_ofWhole ht hk hc) hone hg hn
  simp only [if_pos hheld] at hrun
  rw [hfirst] at hrun
  have hside : ∀ r, (tensor t (some i) c).side d ndim r
      = { Side.ofOperand d ndim ((tensor t (some i) c).operand r) with
          shard := ⟨t.shape, t.buffer⟩, split := none } := by
    intro r
    rw [side, hnone]
    rfl
  simp only [hside]
  exact ⟨_, hrun⟩

/-- **The ranks send an operand around where that is needed.** -/
theorem replicate_runs [NeZero n] (ha : a.Valid) (d : DType) (ndim : Nat) :
    ∃ ev, Attempt.Runs (fun r => (Side.ofOperand d ndim (a.operand r)).replicate)
      fun r => (ev, .ok (a.side d ndim r)) := by
  cases a with
  | scalar s =>
    exact ⟨[], replicate_runs_of_kept ha rfl d ndim fun r => Side.replicate_of_scalar rfl⟩
  | tensor t k c =>
    -- an operand that keeps its split is left alone; the others are split along an extent of 1
    by_cases hkept : (tensor t k c).kept = k
    · refine ⟨[], replicate_runs_of_kept ha hkept d ndim fun r => ?_⟩
      refine Side.replicate_of_ne rfl fun i hi => ⟨ha.2.1 i hi, ?_⟩
      have hone := (kept_eq_some_iff.mp (hkept.trans hi)).2
      show _ ∨ (c r).isDistributed = false
      rw [ha.2.2.isDistributed_eq, decide_eq_false_iff_not]
      rcases hone with rfl | hne
      · exact .inr (by omega)
      · exact .inl hne
    · cases k with
      | none => exact absurd rfl hkept
      | some i =>
        have hsent : ¬ (n = 1 ∨ t.shape.getD i 1 ≠ 1) := fun hone =>
          hkept (kept_eq_some_iff.mpr ⟨rfl, hone⟩)
        rw [not_or, not_not] at hsent
        have hn : 1 < n := by
          have := Nat.pos_of_neZero n
          omega
        exact replicate_runs_of_sent ha hn hsent.2 d ndim

/-! ### Functions of two operands -/

/-- The axis along which the result is split. -/
def resultSplit (a b : Source n) : Option Nat :=
  a.axisIn (ndim a b) a.kept <|> b.axisIn (ndim a b) b.kept

/-- The element type of the result. -/
def resultDType (a b : Source n) : DType := DType.promote (dtypes a b).1 (dtypes a b).2

/-- The tensor that an operand is converted to next to the other one. -/
def lifted (a b : Source n) : Tensor × Tensor :=
  ((a.whole (dtypes a b).1).cast (resultDType a b), (b.whole (dtypes a b).2).cast (resultDType a b))

theorem sides_operand (r : Fin n) :
    Sharded.sides (a.operand r) (b.operand r)
      = (.ofOperand (dtypes a b).1 (ndim a b) (a.operand r),
          .ofOperand (dtypes a b).2 (ndim a b) (b.operand r)) := by
  simp only [Sharded.sides, dtypes_operand, gshape_operand]
  rfl

theorem split_ofOperand (d : DType) (ndim : Nat) (r : Fin n) :
    (Side.ofOperand d ndim (a.operand r)).split = a.axisIn ndim a.split := by
  cases a <;> rfl

theorem sides_agree (hsplit : ∀ i j, a.axisIn (ndim a b) a.split = some i →
    b.axisIn (ndim a b) b.split = some j → i = j) (r : Fin n) (i j : Nat) :
    (Sharded.sides (a.operand r) (b.operand r)).1.split = some i →
      (Sharded.sides (a.operand r) (b.operand r)).2.split = some j → i = j := by
  rw [sides_operand, split_ofOperand, split_ofOperand]
  exact hsplit i j

/-- The handle of rank `r` on its part of the result `v`. -/
def result (a b : Source n) (v : Tensor) (world : Fin n → Comm) (r : Fin n) : Sharded :=
  let lhs := a.side (dtypes a b).1 (ndim a b) r
  let rhs := b.side (dtypes a b).2 (ndim a b) r
  ⟨v.part (resultSplit a b) r n, v.shape, v.dtype, resultSplit a b, Sharded.deviceOf lhs rhs,
    Sharded.commOf (world r) lhs rhs⟩

/-- The ranks keep at most the splits that they were told. -/
theorem axisIn_of_kept {ndim i : Nat} (h : a.axisIn ndim a.kept = some i) :
    a.axisIn ndim a.split = some i := by
  rw [axisIn, Option.map_eq_some_iff] at h
  obtain ⟨j, hj, rfl⟩ := h
  rw [axisIn, (kept_eq_some_iff.mp hj).1]
  rfl

theorem axisIn_lt (ha : a.Valid) {ndim i : Nat} (hle : a.gshape.length ≤ ndim)
    (h : a.axisIn ndim a.kept = some i) : i < ndim := by
  rw [axisIn, Option.map_eq_some_iff] at h
  obtain ⟨j, hj, rfl⟩ := h
  have := split_lt ha (kept_eq_some_iff.mp hj).1
  omega

theorem resultSplit_lt (ha : a.Valid) (hb : b.Valid) {i : Nat} (h : resultSplit a b = some i) :
    i < ndim a b := by
  rw [resultSplit, Option.orElse_eq_orElse, Option.orElse_eq_or, Option.or_eq_some_iff] at h
  rcases h with h | ⟨-, h⟩
  · exact axisIn_lt ha (Nat.le_max_left _ _) h
  · exact axisIn_lt hb (Nat.le_max_right _ _) h

/-! ### Ranks that have nothing of an operand -/

/-- Whether rank `r` has nothing of an operand that stays split. -/
def lacks (a : Source n) (r : Fin n) : Bool :=
  match a.kept with
  | none => false
  | some i => (Chunk.balanced (a.gshape.getD i 1) r n).length == 0

theorem vacant_side (ha : a.Valid) (d : DType) (ndim : Nat) (r : Fin n) :
    (a.side d ndim r).vacant = a.lacks r := by
  unfold Side.vacant lacks side axisIn
  cases hk : a.kept with
  | none => rfl
  | some i =>
    have hi : i < (a.whole d).ndim := by
      rw [Tensor.ndim, shape_whole]
      exact split_lt ha (kept_eq_some_iff.mp hk).1
    simp only [Option.map_some, Nat.add_sub_cancel]
    rw [(a.whole d).getD_shape_part i hi, if_pos rfl, shape_whole]

/-- A rank that has nothing of an operand has no part in the result. -/
theorem length_of_lacks {s : Shape} (hb : a.gshape.BroadcastsTo s) {r : Fin n}
    (hr : a.lacks r = true) : ∃ i, a.axisIn s.length a.kept = some i ∧
      (Chunk.balanced (s.getD i 1) r n).length = 0 := by
  unfold lacks at hr
  cases hk : a.kept with
  | none =>
    rw [hk] at hr
    cases hr
  | some j =>
    simp only [hk, beq_iff_eq] at hr
    refine ⟨j + (s.length - a.gshape.length), rfl, ?_⟩
    -- an entry of the source list that points beyond the axes is read as 1 on both sides
    by_cases hi : j + (s.length - a.gshape.length) < s.length
    · have hext := hb.2 _ hi
      rw [Shape.extentAt_add] at hext
      rcases hext with hone | heq
      · -- an axis of extent 1 stays split on a single rank only, which has its entry
        obtain rfl : n = 1 := (kept_eq_some_iff.mp hk).2.resolve_right fun hne => hne hone
        obtain rfl : r = 0 := Fin.fin_one_eq_zero r
        rw [hone] at hr
        exact absurd hr (by decide)
      · rw [← heq]
        exact hr
    · have hlen := hb.1
      have hout : a.gshape.length ≤ j := by omega
      rw [List.getD_eq_default _ _ hout] at hr
      rw [List.getD_eq_default _ _ (Nat.le_of_not_lt hi)]
      exact hr

theorem resultSplit_of_lacks {s : Shape} (h : a.gshape.broadcast b.gshape = some s)
    (hsplit : ∀ i j, a.axisIn (ndim a b) a.split = some i →
      b.axisIn (ndim a b) b.split = some j → i = j) {r : Fin n}
    (hr : a.lacks r = true ∨ b.lacks r = true) :
    ∃ i, resultSplit a b = some i ∧ (Chunk.balanced (s.getD i 1) r n).length = 0 := by
  have hlen : s.length = ndim a b := (Shape.broadcast_eq_some_iff.mp h).1
  rcases hr with hr | hr
  · obtain ⟨i, hi, hempty⟩ := length_of_lacks (Shape.broadcastsTo_left h) hr
    rw [hlen] at hi
    refine ⟨i, ?_, hempty⟩
    rw [resultSplit, hi]
    rfl
  · obtain ⟨i, hi, hempty⟩ := length_of_lacks (Shape.broadcastsTo_right h) hr
    rw [hlen] at hi
    refine ⟨i, ?_, hempty⟩
    cases hleft : a.axisIn (ndim a b) a.kept with
    | none =>
      rw [resultSplit, hleft, hi]
      rfl
    | some j =>
      obtain rfl := hsplit j i (axisIn_of_kept hleft) (axisIn_of_kept hi)
      rw [resultSplit, hleft]
      rfl

theorem prod_part_of_lacks (ha : a.Valid) (hb : b.Valid) {v : Tensor}
    (h : a.gshape.broadcast b.gshape = some v.shape)
    (hsplit : ∀ i j, a.axisIn (ndim a b) a.split = some i →
      b.axisIn (ndim a b) b.split = some j → i = j) {r : Fin n}
    (hr : a.lacks r = true ∨ b.lacks r = true) :
    (v.part (resultSplit a b) r n).shape.prod = 0 := by
  obtain ⟨i, hi, hempty⟩ := resultSplit_of_lacks h hsplit hr
  have hlt : i < v.shape.length := by
    rw [(Shape.broadcast_eq_some_iff.mp h).1]
    exact resultSplit_lt ha hb hi
  rw [hi]
  show List.prod (v.shape.set i (Chunk.balanced (v.shape.getD i 1) r n).length) = 0
  rw [hempty]
  exact List.prod_eq_zero (List.mem_set hlt 0)

/-- What rank `r` gets: its part of the result `v`, or an empty shard of the common element type
if it has nothing of a split operand. -/
def shardOn (a b : Source n) (v : Tensor) (r : Fin n) : Tensor :=
  Sharded.shardOf (resultDType a b) (a.side (dtypes a b).1 (ndim a b) r)
    (b.side (dtypes a b).2 (ndim a b) r) (v.part (resultSplit a b) r n)

/-- The handle that rank `r` gets. -/
def outcome (a b : Source n) (v : Tensor) (world : Fin n → Comm) (r : Fin n) : Sharded :=
  { result a b v world r with shard := shardOn a b v r, dtype := (shardOn a b v r).dtype }

/-- The tensor of which rank `r` gets its part: the result `v`, or one of the common element
type of the operands if the rank has nothing of a split operand. -/
def valueOn (a b : Source n) (v : Tensor) (r : Fin n) : Tensor :=
  if a.lacks r || b.lacks r then v.cast (resultDType a b) else v

theorem valueOn_of_dtype_eq {v : Tensor} (hd : v.dtype = resultDType a b) (r : Fin n) :
    valueOn a b v r = v := by
  rw [valueOn, Tensor.cast_self hd, ite_self]

/-- **Every rank gets its part of a tensor**, though maybe not all of the same. -/
theorem outcome_eq (ha : a.Valid) (hb : b.Valid) {v : Tensor} (hv : v.Exact)
    (h : a.gshape.broadcast b.gshape = some v.shape)
    (hsplit : ∀ i j, a.axisIn (ndim a b) a.split = some i →
      b.axisIn (ndim a b) b.split = some j → i = j) (world : Fin n → Comm) (r : Fin n) :
    outcome a b v world r = result a b (valueOn a b v r) world r := by
  have hshard : shardOn a b v r = (valueOn a b v r).part (resultSplit a b) r n := by
    unfold shardOn Sharded.shardOf valueOn
    rw [vacant_side ha, vacant_side hb]
    split
    · next hlack =>
      -- there is only one empty part of the common type
      have hshape : ((v.cast (resultDType a b)).part (resultSplit a b) r n).shape
          = (v.part (resultSplit a b) r n).shape := by
        cases resultSplit a b <;> rfl
      have hempty : (v.part (resultSplit a b) r n).shape.prod = 0 :=
        prod_part_of_lacks ha hb h hsplit (by simpa using hlack)
      have hpart := ((hv.cast (resultDType a b)).part (k := resultSplit a b) r.isLt).eq_zeros
        (by rw [hshape, hempty])
      rw [hshape, Tensor.dtype_part, Tensor.dtype_cast] at hpart
      exact hpart.symm
    · rfl
  have hgshape : (valueOn a b v r).shape = v.shape := by
    unfold valueOn
    split <;> rfl
  unfold outcome result
  rw [hshard, Tensor.dtype_part, hgshape]

/-- What rank `r` makes of the operands once they have been sent around. -/
theorem finish_sides {op : BinaryFn} (ha : a.Valid) (hb : b.Valid)
    (world : Fin n → Comm) {v : Tensor} (h : a.gshape.broadcast b.gshape = some v.shape)
    (hv : v.Exact) (hrun : Sharded.kernel op (lifted a b).1 (lifted a b).2 = .ok v)
    (hsplit : ∀ i j, a.axisIn (ndim a b) a.split = some i →
      b.axisIn (ndim a b) b.split = some j → i = j) (r : Fin n) :
    Sharded.finish (Sharded.kernel op) (resultDType a b) v.shape (world r)
        (a.side (dtypes a b).1 (ndim a b) r) (b.side (dtypes a b).2 (ndim a b) r)
      = .ok (outcome a b v world r) := by
  have hlen : v.shape.length = ndim a b := (Shape.broadcast_eq_some_iff.mp h).1
  have hlhs := holds_side ha (dtypes a b).1 (ndim a b) r
  have hrhs := holds_side hb (dtypes a b).2 (ndim a b) r
  rw [← hlen] at hlhs hrhs
  have hshape : (a.whole (dtypes a b).1).shape.broadcast (b.whole (dtypes a b).2).shape
      = some v.shape := by rw [shape_whole, shape_whole, h]
  rw [← hlen, Sharded.finish_eq (world r) (exact_whole ha _) (exact_whole hb _) hshape hv hrun
    r.isLt hlhs hrhs]
  -- the part is accepted as a shard: its shape is that of the result cut along the split axis
  · rw [hlen]
    have haxis : ∀ i, resultSplit a b = some i → i < v.ndim := by
      intro i hi
      show i < v.shape.length
      rw [hlen]
      exact resultSplit_lt ha hb hi
    have hpart := Sharded.create_eq_ok_iff.mp
      (Sharded.create_part (k := resultSplit a b) .cpu (world r) haxis r.isLt)
    refine Sharded.create_eq_ok_iff.mpr ⟨?_, haxis, rfl, ?_⟩
    · rfl
    · rw [Sharded.shape_shardOf]
      exact hpart.2.2.2
  · rw [hlen]
    exact fun i j hi hj => hsplit i j (axisIn_of_kept hi) (axisIn_of_kept hj)

/-- **What the ranks make of two operands** whose shapes broadcast and whose splits agree. -/
theorem binary_runs_outcome [NeZero n] (op : BinaryFn) (ha : a.Valid) (hb : b.Valid)
    (world : Fin n → Comm) {s : Shape} (h : a.gshape.broadcast b.gshape = some s)
    (hs : s.volume < Size.modulus)
    (hsplit : ∀ i j, a.axisIn (ndim a b) a.split = some i →
      b.axisIn (ndim a b) b.split = some j → i = j) :
    ∃ v ev, Sharded.kernel op (lifted a b).1 (lifted a b).2 = .ok v ∧ v.Exact ∧ v.shape = s ∧
      v.dtype = op.resultType (resultDType a b) ∧
      (∀ i, resultSplit a b = some i → i < v.ndim) ∧
      Attempt.Runs
        (fun r => Sharded.binary op (a.operand r) (b.operand r) (world r))
        fun r => (ev, .ok (outcome a b v world r)) := by
  let d := op.resultType (resultDType a b)
  have hshape : (a.whole (dtypes a b).1).shape.broadcast (b.whole (dtypes a b).2).shape
      = some s := by rw [shape_whole, shape_whole, h]
  have ha' := ((exact_whole ha (dtypes a b).1).cast (resultDType a b)).cast d
  have hb' := ((exact_whole hb (dtypes a b).2).cast (resultDType a b)).cast d
  -- the whole result, of which every rank is then shown to hold its part
  obtain ⟨v, hrun, hv, hvs, hvd, -⟩ := ha'.binary_cut op hb' rfl hshape hs
  replace hrun : Sharded.kernel op (lifted a b).1 (lifted a b).2 = .ok v :=
    (Sharded.kernel_cast op (resultDType a b) _ _).trans hrun
  subst hvs
  have hlen : v.shape.length = ndim a b := (Shape.broadcast_eq_some_iff.mp h).1
  obtain ⟨ev₁, hev₁⟩ := replicate_runs ha (dtypes a b).1 (ndim a b)
  obtain ⟨ev₂, hev₂⟩ := replicate_runs hb (dtypes a b).2 (ndim a b)
  refine ⟨v, ev₁ ++ ev₂, hrun, hv, rfl, hvd, fun i hi => ?_, ?_⟩
  · show i < v.shape.length
    rw [hlen]
    exact resultSplit_lt ha hb hi
  have hgshape : ∀ r, (a.operand r).gshape.broadcast (b.operand r).gshape = some v.shape := by
    intro r
    rw [gshape_operand, gshape_operand, h]
  have hl : Attempt.Runs (fun r => (Sharded.sides (a.operand r) (b.operand r)).1.replicate)
      fun r => (ev₁, .ok (a.side (dtypes a b).1 (ndim a b) r)) := by
    simp only [sides_operand]
    exact hev₁
  have hr : Attempt.Runs (fun r => (Sharded.sides (a.operand r) (b.operand r)).2.replicate)
      fun r => (ev₂, .ok (b.side (dtypes a b).2 (ndim a b) r)) := by
    simp only [sides_operand]
    exact hev₂
  have hzip := @Sharded.zipShards_runs (Sharded.kernel op) n _ _ world _
    (sides_agree hsplit) hgshape _ _ _ _ hl hr
  refine hzip.congr fun r => ?_
  rw [dtypes_operand]
  exact finish_sides ha hb world h hv hrun hsplit r

/-- **The ranks compute their parts of the result.** -/
theorem binary_runs [NeZero n] {op : BinaryFn} (hop : op ≠ .div) (ha : a.Valid) (hb : b.Valid)
    (world : Fin n → Comm) {s : Shape} (h : a.gshape.broadcast b.gshape = some s)
    (hs : s.volume < Size.modulus)
    (hsplit : ∀ i j, a.axisIn (ndim a b) a.split = some i →
      b.axisIn (ndim a b) b.split = some j → i = j) :
    ∃ v ev, (lifted a b).1.binary op (lifted a b).2 = .ok v ∧ v.Exact ∧ v.shape = s ∧
      v.dtype = resultDType a b ∧ (∀ i, resultSplit a b = some i → i < v.ndim) ∧
      Attempt.Runs
        (fun r => Sharded.binary op (a.operand r) (b.operand r) (world r))
        fun r => (ev, .ok (result a b v world r)) := by
  obtain ⟨v, ev, hrun, hv, rfl, hvd, haxis, hruns⟩ := binary_runs_outcome op ha hb world h hs hsplit
  rw [Sharded.kernel_of_ne hop] at hrun
  rw [BinaryFn.resultType_of_ne hop] at hvd
  simp only [outcome_eq ha hb hv h hsplit, valueOn_of_dtype_eq hvd] at hruns
  exact ⟨v, ev, hrun, hv, rfl, hvd, haxis, hruns⟩

theorem apply_eq (op : BinaryFn) (ha : a.Valid) (hb : b.Valid) (world : Fin n → Comm) :
    apply op a b world = fun r => Sharded.binary op (a.operand r) (b.operand r) (world r) := by
  funext r
  rw [apply, scatter_eq ha, scatter_eq hb]
  rfl

theorem binary_runs_of_ne (op : BinaryFn) (world : Fin n → Comm) {i j : Nat}
    (hi : a.axisIn (ndim a b) a.split = some i) (hj : b.axisIn (ndim a b) b.split = some j)
    (hne : i ≠ j) :
    Attempt.Runs (fun r => Sharded.binary op (a.operand r) (b.operand r) (world r))
      fun _ => ([], .error (.error (.differentSplits i j))) := by
  refine Sharded.zipShards_runs_of_ne world (fun r => ?_) (fun r => ?_) hne
  · rw [sides_operand, split_ofOperand, hi]
  · rw [sides_operand, split_ofOperand, hj]

theorem binary_runs_of_none (op : BinaryFn) (world : Fin n → Comm)
    (hsplit : ∀ i j, a.axisIn (ndim a b) a.split = some i →
      b.axisIn (ndim a b) b.split = some j → i = j)
    (h : a.gshape.broadcast b.gshape = none) :
    Attempt.Runs (fun r => Sharded.binary op (a.operand r) (b.operand r) (world r))
      fun _ => ([], .error (.error (.cannotBroadcast a.gshape b.gshape))) := by
  have hrun := @Sharded.zipShards_runs_of_none (Sharded.kernel op) n _ _ world
    (sides_agree hsplit) (fun r => by rw [gshape_operand, gshape_operand, h])
  simp only [gshape_operand] at hrun
  exact hrun

/-- **A function of two scattered operands.**  The ranks refuse operands that are split along
different axes of the result, and shapes that do not broadcast, before they meet.  Otherwise
each of them ends up with its part of what a single process would compute. -/
theorem apply_runs [NeZero n] (op : BinaryFn) (hop : op ≠ .div) (ha : a.Valid) (hb : b.Valid)
    (world : Fin n → Comm) :
    (∀ i j, a.axisIn (ndim a b) a.split = some i → b.axisIn (ndim a b) b.split = some j →
      i ≠ j → Attempt.Runs (apply op a b world)
        fun _ => ([], .error (.error (.differentSplits i j)))) ∧
    ((∀ i j, a.axisIn (ndim a b) a.split = some i → b.axisIn (ndim a b) b.split = some j →
        i = j) →
      (a.gshape.broadcast b.gshape = none → Attempt.Runs (apply op a b world)
        fun _ => ([], .error (.error (.cannotBroadcast a.gshape b.gshape)))) ∧
      ∀ s, a.gshape.broadcast b.gshape = some s → s.volume < Size.modulus →
        ∃ (v : Tensor) (ev : List Event) (x : Fin n → Sharded),
          (lifted a b).1.binary op (lifted a b).2 = .ok v ∧
          Attempt.Runs (apply op a b world) (fun r => (ev, .ok (x r))) ∧
          ∀ r, (x r).gshape = s ∧ (x r).dtype = resultDType a b ∧
            (x r).split = resultSplit a b ∧
            match resultSplit a b with
            | none => (x r).shard = v
            | some i =>
              let c := Chunk.balanced (s.getD i 1) r n
              v.narrow i c.start c.length = .ok (x r).shard) := by
  rw [apply_eq op ha hb]
  refine ⟨fun i j hi hj hne => binary_runs_of_ne op world hi hj hne, fun hsplit =>
    ⟨binary_runs_of_none op world hsplit, fun s h hs => ?_⟩⟩
  obtain ⟨v, ev, hrun, hv, rfl, hvd, haxis, hruns⟩ := binary_runs hop ha hb world h hs hsplit
  refine ⟨v, ev, result a b v world, hrun, hruns, fun r => ⟨rfl, hvd, rfl, ?_⟩⟩
  cases hk : resultSplit a b with
  | none =>
    show v.part (resultSplit a b) r n = v
    rw [hk]
    rfl
  | some i =>
    show v.narrow i _ _ = .ok (v.part (resultSplit a b) r n)
    rw [hk]
    exact hv.narrow_eq (haxis i hk)
      (Chunk.start_add_length_le r.isLt)

/-- Three words on two ranks, and one added to each of them. -/
theorem apply_runs_three_words :
    ∃ (v : Tensor) (ev : List Event) (x : Fin 2 → Sharded),
      (Tensor.binary .add ⟨[3], ⟨.i64, [.ofInt 1, .ofInt 2, .ofInt 3]⟩⟩ ⟨[1], ⟨.i64, [.ofInt 1]⟩⟩)
        = .ok v ∧
      Attempt.Runs (apply .add
          (.tensor ⟨[3], ⟨.i64, [.ofInt 1, .ofInt 2, .ofInt 3]⟩⟩ (some 0) fun r => .member 0 r 2)
          (.scalar (.int (.ofInt 1))) fun r => .member 0 r 2)
        (fun r => (ev, .ok (x r))) ∧
      ∀ r, (x r).gshape = [3] ∧ (x r).dtype = .i64 ∧ (x r).split = some 0 ∧
        v.narrow 0 (Chunk.balanced 3 r 2).start (Chunk.balanced 3 r 2).length
          = .ok (x r).shard := by
  have ht : Tensor.Exact ⟨[3], ⟨.i64, [.ofInt 1, .ofInt 2, .ofInt 3]⟩⟩ :=
    ⟨rfl, (by decide : Shape.volume [3] < Size.modulus)⟩
  have ha : (Source.tensor ⟨[3], ⟨.i64, [.ofInt 1, .ofInt 2, .ofInt 3]⟩⟩ (some 0)
      fun r : Fin 2 => .member 0 r 2).Valid :=
    ⟨ht, fun i hi => Option.some.inj hi ▸ Nat.one_pos, .inl ⟨0, fun _ => rfl⟩⟩
  exact ((apply_runs .add (b := .scalar (.int (.ofInt 1))) (fun h => nomatch h) ha trivial
    fun r => .member 0 r 2).2 (fun i j _ hj => nomatch hj)).2 [3] rfl (by decide)

end Source

end SpmdArray
