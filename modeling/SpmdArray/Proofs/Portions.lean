import SpmdArray.Proofs.Binary
import SpmdArray.Proofs.Tiling

/-!
# Portions of two operands

A rank that combines two operands looks at what it has of them itself.  What comes of it depends
on the shapes of the operands, the axes along which they stay split, and how much the rank holds
along these axes.

## Main definitions

* `Portion.Balanced` — the rank holds as much as the chunk rule says.
* `Portion.Meets` — an unsplit operand has to be cut down next to a split one.
* `Portion.Unbalanced`, `Portion.Mismatched` — the two ways in which portions do not fit together.
* `Portion.InLine` — the portions of two operands fit together.
* `Shape.Succeeds` — there is a result, unless something overflows.

## Main results

* `Side.Fits.narrowTo_eq_or` — an unsplit operand is cut down like the result.
* `Sharded.exists_finish_of_inLine` — portions that fit together are combined.
* `Sharded.finish_of_unbalanced`, `Sharded.finish_of_mismatched` — other portions are refused.
-/

namespace SpmdArray

namespace Shape

/-- Extents along an aligned axis that neither agree nor are repeated. -/
theorem broadcast_set_eq_none {a b : Shape} {n i j j' l l' : Nat} (hj : j < a.length)
    (hj' : j' < b.length) (hn : n = max a.length b.length) (hi : i = j + (n - a.length))
    (hi' : i = j' + (n - b.length)) (hne : l ≠ l') (hl : l ≠ 1) (hl' : l' ≠ 1) :
    Shape.broadcast (a.set j l) (b.set j' l') = none := by
  rw [Option.eq_none_iff_forall_ne_some]
  intro s h
  obtain ⟨hlen, hext⟩ := broadcast_eq_some_iff.mp h
  rw [List.length_set, List.length_set, ← hn] at hlen
  have hlt : i < n := by omega
  have haxis := hext i (by omega)
  rw [hlen, extentAt_set hlt, extentAt_set hlt, if_pos hi, if_pos hi',
    broadcastExtent_eq_some_iff] at haxis
  omega

theorem cut_getD_self (a s : Shape) (i : Nat) : a.cut s i (s.getD i 1) = a := by
  unfold cut
  split
  · next hc => rw [← getD_of_covers hc, set_getD_self]
  · rfl

/-! ### Results that may overflow -/

/-- There is a result, unless something overflows; nothing does if the volume of `s` is a size. -/
def Succeeds {α : Type} (s : Shape) (res : Except Failure α) : Prop :=
  (∃ z, res = .ok z) ∨ res = .error (.fault .overflow) ∧ Size.modulus ≤ s.volume

variable {α : Type} {s t : Shape} {res : Except Failure α}

theorem Succeeds.exists_ok (h : s.Succeeds res) (hs : s.volume < Size.modulus) :
    ∃ z, res = .ok z :=
  h.resolve_right fun h => Nat.not_lt.mpr h.2 hs

theorem Succeeds.mono (h : s.Succeeds res) (hle : s.volume ≤ t.volume) : t.Succeeds res :=
  h.imp_right fun h => ⟨h.1, h.2.trans hle⟩

end Shape

/-! ### Portions that fit together -/

namespace Portion

variable (p q : Portion) (ndim rank size : Nat)

/-- If the portion is one of several, it is the balanced one. -/
def Balanced : Prop :=
  ∀ j ∈ p.kept, p.len = (Chunk.balanced (p.shape.getD j 1) rank size).length

/-- The other operand is not repeated along the axis along which this one is split. -/
def Meets : Prop :=
  ∃ j ∈ p.kept,
    ndim - q.shape.length ≤ j + (ndim - p.shape.length) ∧
    q.shape.getD (j + (ndim - p.shape.length) - (ndim - q.shape.length)) 1 = p.shape.getD j 1

/-- An unsplit operand has to be cut down, but the rank does not hold the balanced portion of the
split one. -/
def Unbalanced : Prop :=
  q.kept = none ∧ p.Meets q ndim ∧ ¬ p.Balanced rank size ∨
    p.kept = none ∧ q.Meets p ndim ∧ ¬ q.Balanced rank size

/-- The portions of two split operands have different lengths. -/
def Mismatched : Prop := p.kept.isSome ∧ q.kept.isSome ∧ p.len ≠ q.len

/-- The portions of two operands fit together. -/
def InLine : Prop :=
  size = 1 ∨ ¬ p.Unbalanced q ndim rank size ∧ ¬ p.Mismatched q

instance : Decidable (p.Balanced rank size) :=
  inferInstanceAs (Decidable (∀ j ∈ p.kept, _))

instance : Decidable (p.Meets q ndim) := inferInstanceAs (Decidable (∃ j ∈ p.kept, _))

instance : Decidable (p.Unbalanced q ndim rank size) := inferInstanceAs (Decidable (_ ∨ _))

instance : Decidable (p.Mismatched q) := inferInstanceAs (Decidable (_ ∧ _))

instance : Decidable (p.InLine q ndim rank size) := inferInstanceAs (Decidable (_ ∨ _))

end Portion

/-! ### Cutting down -/

namespace Side.Fits

variable {side other : Side} {p q : Portion} {s : Shape} {i j rank size : Nat}

theorem kept_lt {ndim : Nat} (h : Fits side p ndim rank size) (hi : side.split = some i) :
    i - side.offset < p.shape.length := by
  rw [h.split, Option.map_eq_some_iff] at hi
  obtain ⟨j, hj, rfl⟩ := hi
  rw [h.offset, Nat.add_sub_cancel]
  exact (h.origin j hj).1

/-- An operand that stays split on several ranks is not repeated along the axis. -/
theorem covers (h : Fits side p s.length rank size) (hj : p.kept = some j)
    (hb : p.shape.BroadcastsTo s) (hi : i = j + (s.length - p.shape.length)) (hsize : size ≠ 1) :
    p.shape.Covers s i := by
  obtain ⟨hlt, hone, -⟩ := h.origin j hj
  exact Shape.covers_of_ne_one hb hlt hi (hone.resolve_left hsize)

/-- The shard of a split operand is cut down like the result. -/
theorem shape_eq_cut (h : Fits side p s.length rank size) (hj : p.kept = some j)
    (hb : p.shape.BroadcastsTo s) (hi : i = j + (s.length - p.shape.length)) :
    side.shard.shape = p.shape.cut s i (if size = 1 then s.getD i 1 else p.len) := by
  obtain ⟨hlt, -, -, hone, -⟩ := h.origin j hj
  rw [h.shape, hj, Option.elim_some]
  by_cases hsize : size = 1
  · rw [if_pos hsize, Shape.cut_getD_self, hone hsize, Shape.set_getD_self]
  · have hc := h.covers hj hb hi hsize
    have haxis : i - (s.length - p.shape.length) = j := by omega
    rw [if_neg hsize, Shape.cut, if_pos hc, haxis]

theorem axis_lt (h : Fits side p s.length rank size) (hj : p.kept = some j)
    (hb : p.shape.BroadcastsTo s) : j + (s.length - p.shape.length) < s.length := by
  have hlt := (h.origin j hj).1
  have hlen := hb.1
  omega

theorem len_le (h : Fits side p s.length rank size) (hj : p.kept = some j)
    (hb : p.shape.BroadcastsTo s) (hi : i = j + (s.length - p.shape.length)) :
    (if size = 1 then s.getD i 1 else p.len) ≤ s.getD i 1 := by
  obtain ⟨-, -, hle, -⟩ := h.origin j hj
  by_cases hsize : size = 1
  · rw [if_pos hsize]
  · have hext := Shape.getD_of_covers (h.covers hj hb hi hsize)
    have haxis : i - (s.length - p.shape.length) = j := by omega
    rw [haxis] at hext
    rw [if_neg hsize]
    omega

/-- The only rank of a group has the balanced portion. -/
theorem balanced_of_one {ndim : Nat} (h : Fits side p ndim rank size) (hr : rank < size)
    (hsize : size = 1) :
    p.Balanced rank size := by
  intro j hj
  obtain ⟨-, -, -, hone, -⟩ := h.origin j hj
  obtain rfl : rank = 0 := by omega
  subst hsize
  rw [hone rfl, Chunk.balanced_of_one]
  rfl

/-- An operand covers the axis along which another one is split if it has as many entries there. -/
theorem covers_iff (ho : Fits other q s.length rank size) (hj : q.kept = some j)
    (hbo : q.shape.BroadcastsTo s) (hi : i = j + (s.length - q.shape.length)) (hsize : size ≠ 1)
    {a : Shape} : a.Covers s i ↔
      s.length - a.length ≤ i ∧ a.getD (i - (s.length - a.length)) 1 = q.shape.getD j 1 := by
  have hext : q.shape.getD j 1 = s.getD i 1 := by
    rw [← Shape.getD_of_covers (ho.covers hj hbo hi hsize), hi, Nat.add_sub_cancel]
  constructor
  · intro hc
    exact ⟨hc.1, by rw [Shape.getD_of_covers hc, hext]⟩
  · rintro ⟨hle, heq⟩
    exact ⟨hle, by rw [Shape.extentAt_of_ge hle, heq, hext]⟩

/-- An unsplit operand is cut down like the result, or something overflows. -/
theorem narrowTo_eq_or (h : Fits side p s.length rank size) (hp : p.kept = none)
    (ho : Fits other q s.length rank size) (hj : q.kept = some j) (hb : p.shape.BroadcastsTo s)
    (hbo : q.shape.BroadcastsTo s) (hr : rank < size) (hi : i = j + (s.length - q.shape.length))
    (hline : q.Meets p s.length → q.Balanced rank size) :
    (∃ y : Tensor, side.narrowTo other i = .ok { side with shard := y } ∧ y.Stored ∧
        y.shape = p.shape.cut s i (if size = 1 then s.getD i 1 else q.len)) ∨
      side.narrowTo other i = .error (.fault .overflow) ∧ Size.modulus ≤ s.volume := by
  have hshape : side.shard.shape = p.shape := by rw [h.shape, hp, Option.elim_none]
  rw [narrowTo_eq_ite h hp ho hj hb.1 hbo.1 hi]
  by_cases hmeet : s.length - p.shape.length ≤ i ∧
      p.shape.getD (i - (s.length - p.shape.length)) 1 = q.shape.getD j 1
  · have hlen := hline ⟨j, hj, hi ▸ hmeet⟩ j hj
    obtain ⟨hlt, -, -, hone, -⟩ := ho.origin j hj
    have hdim : i - (s.length - p.shape.length) < side.shard.ndim := by
      have hle := hb.1
      have hleo := hbo.1
      rw [Tensor.ndim, hshape]
      show _ < p.shape.length
      omega
    have hfit : (Chunk.balanced (q.shape.getD j 1) rank size).start
        + (Chunk.balanced (q.shape.getD j 1) rank size).length
        ≤ side.shard.shape.getD (i - (s.length - p.shape.length)) 1 := by
      rw [hshape, hmeet.2]
      exact Chunk.start_add_length_le hr
    rw [if_pos hmeet]
    simp only [if_pos hlen]
    rcases h.stored.narrow_eq_or hdim hfit with ⟨hwin, hy⟩ | ⟨hy, hvol⟩
    · refine .inl ⟨_, by rw [hy]; rfl, hwin, ?_⟩
      show side.shard.shape.set _ _ = _
      rw [hshape, ← hlen]
      -- the balanced portion of the only rank is everything
      by_cases hsize : size = 1
      · rw [if_pos hsize, Shape.cut_getD_self, hone hsize, ← hmeet.2, Shape.set_getD_self]
      · rw [if_neg hsize, Shape.cut, if_pos ((ho.covers_iff hj hbo hi hsize).mpr hmeet)]
    · refine .inr ⟨by rw [hy]; rfl, hvol.trans ?_⟩
      rw [hshape]
      exact hb.volume_le
  · rw [if_neg hmeet]
    refine .inl ⟨side.shard, rfl, h.stored, ?_⟩
    rw [hshape]
    by_cases hsize : size = 1
    · rw [if_pos hsize, Shape.cut_getD_self]
    · rw [Shape.cut, if_neg (mt (ho.covers_iff hj hbo hi hsize).mp hmeet)]

/-- An unsplit operand is not cut down if the rank does not hold the balanced portion of the
split one. -/
theorem narrowTo_unbalanced {ndim : Nat} (h : Fits side p ndim rank size) (hp : p.kept = none)
    (ho : Fits other q ndim rank size) (hj : q.kept = some j) (hb : p.shape.length ≤ ndim)
    (hbo : q.shape.length ≤ ndim) (hi : i = j + (ndim - q.shape.length))
    (hmeet : q.Meets p ndim) (hbal : ¬ q.Balanced rank size) :
    ∃ e : Error, e.kind = .unsupportedLayout ∧ side.narrowTo other i = .error (.error e) := by
  obtain ⟨j', hj', hmeet⟩ := hmeet
  obtain rfl : j' = j := Option.some.inj (hj'.symm.trans hj)
  have hlen : q.len ≠ (Chunk.balanced (q.shape.getD j' 1) rank size).length := by
    intro hlen
    refine hbal fun k hk => ?_
    obtain rfl : k = j' := Option.some.inj (hk.symm.trans hj)
    exact hlen
  rw [narrowTo_eq_ite h hp ho hj hb hbo hi, if_pos (hi ▸ hmeet)]
  simp only [if_neg hlen]
  exact ⟨_, rfl, rfl⟩

end Side.Fits

/-! ### Combining -/

/-- A function of two stored tensors whose shapes broadcast gives a tensor of the common shape, or
something overflows. -/
theorem Tensor.Stored.binary_eq_or {a b : Tensor} {s : Shape} (op : BinaryFn) (ha : a.Stored)
    (hb : b.Stored) (hd : a.dtype = b.dtype) (h : a.shape.broadcast b.shape = some s) :
    (∃ w : Tensor, a.binary op b = .ok w ∧ w.shape = s) ∨
      a.binary op b = .error (.fault .overflow) ∧ Size.modulus ≤ s.volume := by
  obtain ⟨d, sa, f, rfl⟩ : ∃ d s f, a = tabulate d s f := ⟨_, _, _, ha.eq_tabulate⟩
  obtain ⟨d', sb, g, rfl⟩ : ∃ d s g, b = tabulate d s g := ⟨_, _, _, hb.eq_tabulate⟩
  obtain rfl : d = d' := hd
  refine (binary_tabulate_eq_or ha.counted hb.counted h).imp_left ?_
  rintro ⟨-, hw⟩
  exact ⟨_, hw, rfl⟩

/-- There are zeros of every shape whose elements can be counted. -/
theorem Tensor.exists_zeros (s : Shape) (d : DType) :
    (∃ w : Tensor, (liftM (zeros s d) : Except Failure Tensor) = .ok w ∧ w.shape = s) ∨
      (liftM (zeros s d) : Except Failure Tensor) = .error (.fault .overflow) ∧
        Size.modulus ≤ s.volume := by
  rw [zeros]
  rcases s.numel_eq_ok_or with hn | hn
  · rw [hn]
    exact .inl ⟨_, rfl, rfl⟩
  · refine .inr ⟨?_, Shape.le_volume_of_numel hn⟩
    rw [hn]
    rfl

namespace Sharded

variable {lhs rhs : Side} {p q : Portion} {s : Shape} {i rank size : Nat}

/-- What has the shape that is asked for is let through. -/
theorem exists_checked {res : Except Failure Tensor} {q : Prop}
    (h : (∃ w : Tensor, res = .ok w ∧ w.shape = s) ∨ res = .error (.fault .overflow) ∧ q) :
    (∃ w : Tensor, (do
        let t ← res
        if t.shape ≠ s then Error.raise (.shapeMismatch s t.shape)
        return t) = Except.ok w ∧ w.shape = s) ∨
      (do
        let t ← res
        if t.shape ≠ s then Error.raise (.shapeMismatch s t.shape)
        return t) = .error (.fault .overflow) ∧ q := by
  obtain ⟨w, rfl, rfl⟩ | ⟨rfl, hq⟩ := h
  · exact .inl ⟨w, if_neg fun hne => hne rfl, rfl⟩
  · exact .inr ⟨rfl, hq⟩

/-- Shards whose shapes broadcast are combined, or something overflows. -/
theorem exists_combineShards (op : BinaryFn) (d : DType) (hx : lhs.shard.Stored)
    (hy : rhs.shard.Stored) (h : lhs.shard.shape.broadcast rhs.shard.shape = some s)
    (hl : ∀ j, lhs.split = some j → j - lhs.offset < lhs.shard.shape.length)
    (hr : ∀ j, rhs.split = some j → j - rhs.offset < rhs.shard.shape.length) :
    (∃ w : Tensor, combineShards (kernel op) d lhs rhs = .ok w ∧ w.shape = s) ∨
      combineShards (kernel op) d lhs rhs = .error (.fault .overflow) ∧
        Size.modulus ≤ s.volume := by
  unfold combineShards
  simp only [Tensor.commonShape_of_eq_some h, Side.isEmpty_eq hl, Side.isEmpty_eq hr, lift_ok,
    ok_bind, pure_eq_ok]
  have hkernel := ((hx.cast d).cast (op.resultType d)).binary_eq_or op
    ((hy.cast d).cast (op.resultType d)) rfl h
  rw [← kernel_cast] at hkernel
  -- an empty shard is not computed, but its elements are counted
  cases lhs.vacant with
  | true => exact exists_checked (Tensor.exists_zeros s d)
  | false =>
    cases rhs.vacant with
    | true => exact exists_checked (Tensor.exists_zeros s d)
    | false => exact exists_checked hkernel

/-- Operands are combined if their shards, cut down where need be, broadcast to what the rank is
to have of the result. -/
theorem exists_finish (op : BinaryFn) (d : DType) (world : Comm) {x y : Tensor} {w : Shape}
    (halign : align lhs rhs = .ok ({ lhs with shard := x }, { rhs with shard := y }))
    (hx : x.Stored) (hy : y.Stored) (hw : x.shape.broadcast y.shape = some w)
    (hl : ∀ j, lhs.split = some j → j - lhs.offset < x.shape.length)
    (hr : ∀ j, rhs.split = some j → j - rhs.offset < y.shape.length)
    (haxis : ∀ j, splitOf lhs rhs = some j → j < s.length) (hlen : w.length = s.length)
    (hext : ∀ j < s.length,
      if splitOf lhs rhs = some j then w.getD j 1 ≤ s.getD j 1 else w.getD j 1 = s.getD j 1) :
    w.Succeeds (finish (kernel op) d s world lhs rhs) := by
  rcases @exists_combineShards { lhs with shard := x } { rhs with shard := y } w op d hx hy hw hl
    hr with ⟨t, hcombine, rfl⟩ | ⟨hcombine, hvol⟩
  · rw [finish_of_align halign hcombine]
    exact .inl ⟨_, create_eq_ok_iff.mpr ⟨rfl, haxis, rfl, hlen, hext⟩⟩
  · exact .inr ⟨finish_of_error halign hcombine, hvol⟩

/-- Operands that are cut down alike are combined. -/
theorem exists_finish_of_cuts (op : BinaryFn) (d : DType) (world : Comm) {x y : Tensor}
    {len : Nat} (h : p.shape.broadcast q.shape = some s)
    (hl : lhs.Fits p s.length rank size) (hr : rhs.Fits q s.length rank size)
    (halign : align lhs rhs = .ok ({ lhs with shard := x }, { rhs with shard := y }))
    (hx : x.Stored) (hy : y.Stored) (hxs : x.shape = p.shape.cut s i len)
    (hys : y.shape = q.shape.cut s i len) (hlen : len ≤ s.getD i 1)
    (hi : splitOf lhs rhs = some i) (hlt : i < s.length) :
    s.Succeeds (finish (kernel op) d s world lhs rhs) := by
  -- operands that are cut alike broadcast to the result cut alike
  have hw : x.shape.broadcast y.shape = some (s.set i len) := by
    rw [hxs, hys]
    exact Shape.broadcast_cut h hlt
  refine (exists_finish op d world halign hx hy hw ?_ ?_ ?_ List.length_set ?_).mono
    (Shape.volume_slice_le hlen)
  · intro j hj
    rw [hxs, Shape.length_cut]
    exact hl.kept_lt hj
  · intro j hj
    rw [hys, Shape.length_cut]
    exact hr.kept_lt hj
  · intro j hj
    obtain rfl : i = j := Option.some.inj (hi.symm.trans hj)
    exact hlt
  · intro j hj
    rw [hi, Shape.getD_set hj]
    by_cases hij : i = j
    · rw [if_pos (congrArg some hij), if_pos hij.symm, ← hij]
      exact hlen
    · rw [if_neg fun h => hij (Option.some.inj h), if_neg (Ne.symm hij)]

section

variable (op : BinaryFn) (d : DType) (world : Comm) (h : p.shape.broadcast q.shape = some s)
  (hl : lhs.Fits p s.length rank size) (hr : rhs.Fits q s.length rank size)

include h hl hr

/-- Operands that are not split are combined. -/
theorem exists_finish_of_unsplit (hk : p.kept = none) (hk' : q.kept = none) :
    s.Succeeds (finish (kernel op) d s world lhs rhs) := by
  have hl0 : lhs.split = none := by rw [hl.split, hk, Option.map_none]
  have hr0 : rhs.split = none := by rw [hr.split, hk', Option.map_none]
  have hw : lhs.shard.shape.broadcast rhs.shard.shape = some s := by
    rw [hl.shape, hk, Option.elim_none, hr.shape, hk', Option.elim_none, h]
  have hsplit : splitOf lhs rhs = none := (splitOf_of_none hl0).trans hr0
  have halign : align lhs rhs = .ok (lhs, rhs) := align_of_isSome_eq (by rw [hl0, hr0])
  refine exists_finish op d world halign hl.stored hr.stored hw ?_ ?_ ?_ rfl ?_
  · intro j hj
    exact absurd (hl0.symm.trans hj) (Option.some_ne_none j).symm
  · intro j hj
    exact absurd (hr0.symm.trans hj) (Option.some_ne_none j).symm
  · intro j hj
    exact absurd (hsplit.symm.trans hj) (Option.some_ne_none j).symm
  · intro j _
    rw [hsplit]
    rfl

/-- A split operand is combined with an unsplit one on its right. -/
theorem exists_finish_of_left {j : Nat} (hrank : rank < size) (hk : p.kept = some j)
    (hk' : q.kept = none) (hbal : p.Meets q s.length → p.Balanced rank size) :
    s.Succeeds (finish (kernel op) d s world lhs rhs) := by
  have hbp := Shape.broadcastsTo_left h
  have hl0 : lhs.split = some (j + (s.length - p.shape.length)) := by
    rw [hl.split, hk, Option.map_some]
  have hr0 : rhs.split = none := by rw [hr.split, hk', Option.map_none]
  have hsplit : splitOf lhs rhs = some (j + (s.length - p.shape.length)) := splitOf_of_some hl0
  rcases hr.narrowTo_eq_or hk' hl hk (Shape.broadcastsTo_right h) hbp hrank rfl hbal with
    ⟨y, hy, hstored, hys⟩ | ⟨hy, hvol⟩
  · have halign : align lhs rhs
        = .ok ({ lhs with shard := lhs.shard }, { rhs with shard := y }) := by
      rw [align_of_left hl0 hr0, hy]
      rfl
    exact exists_finish_of_cuts op d world h hl hr halign hl.stored hstored
      (hl.shape_eq_cut hk hbp rfl) hys (hl.len_le hk hbp rfl) hsplit (hl.axis_lt hk hbp)
  · have halign : align lhs rhs = .error (.fault .overflow) := by
      rw [align_of_left hl0 hr0, hy]
      rfl
    exact .inr ⟨finish_of_align_error halign, hvol⟩

/-- A split operand is combined with an unsplit one on its left. -/
theorem exists_finish_of_right {j : Nat} (hrank : rank < size) (hk : p.kept = none)
    (hk' : q.kept = some j) (hbal : q.Meets p s.length → q.Balanced rank size) :
    s.Succeeds (finish (kernel op) d s world lhs rhs) := by
  have hbq := Shape.broadcastsTo_right h
  have hl0 : lhs.split = none := by rw [hl.split, hk, Option.map_none]
  have hr0 : rhs.split = some (j + (s.length - q.shape.length)) := by
    rw [hr.split, hk', Option.map_some]
  have hsplit : splitOf lhs rhs = some (j + (s.length - q.shape.length)) :=
    (splitOf_of_none hl0).trans hr0
  rcases hl.narrowTo_eq_or hk hr hk' (Shape.broadcastsTo_left h) hbq hrank rfl hbal with
    ⟨x, hx, hstored, hxs⟩ | ⟨hx, hvol⟩
  · have halign : align lhs rhs
        = .ok ({ lhs with shard := x }, { rhs with shard := rhs.shard }) := by
      rw [align_of_right hl0 hr0, hx]
      rfl
    exact exists_finish_of_cuts op d world h hl hr halign hstored hr.stored hxs
      (hr.shape_eq_cut hk' hbq rfl) (hr.len_le hk' hbq rfl) hsplit (hr.axis_lt hk' hbq)
  · have halign : align lhs rhs = .error (.fault .overflow) := by
      rw [align_of_right hl0 hr0, hx]
      rfl
    exact .inr ⟨finish_of_align_error halign, hvol⟩

variable (hagree : ∀ i j, lhs.split = some i → rhs.split = some j → i = j)

include hagree

/-- Two split operands are combined if the rank holds as much of one as of the other. -/
theorem exists_finish_of_both {j j' : Nat} (hk : p.kept = some j) (hk' : q.kept = some j')
    (hmatch : size = 1 ∨ p.len = q.len) :
    s.Succeeds (finish (kernel op) d s world lhs rhs) := by
  have hbp := Shape.broadcastsTo_left h
  have hl0 : lhs.split = some (j + (s.length - p.shape.length)) := by
    rw [hl.split, hk, Option.map_some]
  have hr0 : rhs.split = some (j' + (s.length - q.shape.length)) := by
    rw [hr.split, hk', Option.map_some]
  have haxis := hagree _ _ hl0 hr0
  have hsplit : splitOf lhs rhs = some (j + (s.length - p.shape.length)) := splitOf_of_some hl0
  have halign : align lhs rhs = .ok (lhs, rhs) := align_of_isSome_eq (by rw [hl0, hr0]; rfl)
  have hlen : (if size = 1 then s.getD (j + (s.length - p.shape.length)) 1 else q.len)
      = if size = 1 then s.getD (j + (s.length - p.shape.length)) 1 else p.len := by
    rcases hmatch with hone | heq
    · rw [if_pos hone, if_pos hone]
    · rw [heq]
  exact exists_finish_of_cuts op d world h hl hr halign hl.stored hr.stored
    (hl.shape_eq_cut hk hbp rfl)
    (hlen ▸ hr.shape_eq_cut hk' (Shape.broadcastsTo_right h) haxis) (hl.len_le hk hbp rfl) hsplit
    (hl.axis_lt hk hbp)

/-- **Portions that fit together are combined.** -/
theorem exists_finish_of_inLine (hrank : rank < size) (hline : p.InLine q s.length rank size) :
    s.Succeeds (finish (kernel op) d s world lhs rhs) := by
  -- who stays split decides which operand has to be cut down
  cases hk : p.kept with
  | none =>
    cases hk' : q.kept with
    | none => exact exists_finish_of_unsplit op d world h hl hr hk hk'
    | some j =>
      refine exists_finish_of_right op d world h hl hr hrank hk hk' fun hmeet => ?_
      rcases hline with hone | ⟨hbal, -⟩
      · exact hr.balanced_of_one hrank hone
      · by_contra hne
        exact hbal (.inr ⟨hk, hmeet, hne⟩)
  | some j =>
    cases hk' : q.kept with
    | none =>
      refine exists_finish_of_left op d world h hl hr hrank hk hk' fun hmeet => ?_
      rcases hline with hone | ⟨hbal, -⟩
      · exact hl.balanced_of_one hrank hone
      · by_contra hne
        exact hbal (.inl ⟨hk', hmeet, hne⟩)
    | some j' =>
      refine exists_finish_of_both op d world h hl hr hagree hk hk' ?_
      rcases hline with hone | ⟨-, hmatch⟩
      · exact .inl hone
      · by_contra hne
        rw [not_or] at hne
        exact hmatch ⟨by rw [hk]; rfl, by rw [hk']; rfl, hne.2⟩

omit hagree in
/-- **A rank refuses to cut down an operand** next to a portion that is not balanced. -/
theorem finish_of_unbalanced (hbal : p.Unbalanced q s.length rank size) :
    ∃ e : Error, e.kind = .unsupportedLayout ∧
      finish (kernel op) d s world lhs rhs = .error (.error e) := by
  have hbp := (Shape.broadcastsTo_left h).1
  have hbq := (Shape.broadcastsTo_right h).1
  have hl0 := hl.split
  have hr0 := hr.split
  rcases hbal with ⟨hnone, hmeet, hbal⟩ | ⟨hnone, hmeet, hbal⟩
  · have ⟨j, hj, _⟩ := hmeet
    rw [hj, Option.map_some] at hl0
    rw [hnone, Option.map_none] at hr0
    obtain ⟨e, he, hcut⟩ := hr.narrowTo_unbalanced hnone hl hj hbq hbp rfl hmeet hbal
    refine ⟨e, he, finish_of_align_error ?_⟩
    rw [align_of_left hl0 hr0, hcut]
    rfl
  · have ⟨j, hj, _⟩ := hmeet
    rw [hnone, Option.map_none] at hl0
    rw [hj, Option.map_some] at hr0
    obtain ⟨e, he, hcut⟩ := hl.narrowTo_unbalanced hnone hr hj hbp hbq rfl hmeet hbal
    refine ⟨e, he, finish_of_align_error ?_⟩
    rw [align_of_right hl0 hr0, hcut]
    rfl

/-- **A rank cannot combine portions of different lengths**, unless one of them is repeated along
the other. -/
theorem finish_of_mismatched (hne : p.Mismatched q) (hpl : p.len ≠ 1) (hql : q.len ≠ 1) :
    finish (kernel op) d s world lhs rhs
      = .error (.error (.cannotBroadcast lhs.shard.shape rhs.shard.shape)) := by
  obtain ⟨hl0, hr0, hne⟩ := hne
  obtain ⟨j, hj⟩ := Option.isSome_iff_exists.mp hl0
  obtain ⟨j', hj'⟩ := Option.isSome_iff_exists.mp hr0
  have hlsplit := hl.split
  have hrsplit := hr.split
  rw [hj, Option.map_some] at hlsplit
  rw [hj', Option.map_some] at hrsplit
  have halign : align lhs rhs = .ok (lhs, rhs) :=
    align_of_isSome_eq (by rw [hlsplit, hrsplit]; rfl)
  refine finish_of_error halign (combineShards_of_none ?_)
  rw [hl.shape, hr.shape, hj, hj']
  exact Shape.broadcast_set_eq_none (hl.origin j hj).1 (hr.origin j' hj').1
    (Shape.broadcast_eq_some_iff.mp h).1 rfl (hagree _ _ hlsplit hrsplit) hne hpl hql

end

end Sharded

end SpmdArray
