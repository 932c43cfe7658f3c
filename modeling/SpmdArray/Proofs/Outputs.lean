import SpmdArray.Proofs.Overwriting
import SpmdArray.Proofs.Parts

/-!
# Writing over an output

A function of one tensor with an output repeats the shard of a rank to the extents of its shard of
the output, and looks at nothing else.  That is the function of the whole tensor, repeated to the
shape of the output, if the ranks have corresponding parts of both tensors.

## Main definitions

* `Tensor.sharedAxis` — the axis along which the ranks have different parts of a tensor.
* `Tensor.Aligned` — the ranks have corresponding parts of two tensors.

## Main results

* `Sharded.unaryInto_eq`, `Sharded.unaryInto_error` — what one rank writes, and when it refuses.
* `Tensor.Aligned.broadcastsTo_part`, `Tensor.Aligned.broadcastTo_part` — corresponding parts
  broadcast like the tensors.
* `Sharded.unaryInto_parts` — what the group writes.
-/

namespace SpmdArray

/-! ### One rank -/

namespace Sharded

variable {f : UnaryFn} {x out : Sharded} {w : Tensor}

/-- **What a rank writes over its shard of an output**: the function of its own shard, repeated
to the extents of the shard of the output. -/
theorem unaryInto_eq (hx : x.Stored) (ho : out.Stored) (hout : out.shard.Exact)
    (hd : DType.promote x.dtype.toFloat out.dtype = out.dtype)
    (h : x.shard.shape.BroadcastsTo out.shard.shape)
    (hw : (x.shard.cast x.dtype.toFloat).broadcastTo out.shard.shape = .ok w) :
    x.unaryInto f out =
      let y := { out with shard := (w.unary f).cast out.dtype }
      ⟨.ok y, y⟩ := by
  -- the shape to which both shards broadcast is that of the output
  obtain ⟨hstretch, hrun⟩ := mapShardInto_of_volume_lt hx ho (f := fun t => t.unary f)
    (fun _ => rfl) hd (Shape.broadcast_self_iff.mpr h) hout.sized
  obtain rfl := Except.ok.inj (hw.symm.trans hstretch)
  exact hrun.trans (if_pos rfl)

/-- A rank refuses an output whose type is too narrow, or to whose shard its own does not
broadcast, and leaves it alone. -/
theorem unaryInto_error (hx : x.Stored) (hout : out.Stored)
    (h : ¬ (DType.promote x.dtype.toFloat out.dtype = out.dtype ∧
      x.shard.shape.BroadcastsTo out.shard.shape)) :
    ∃ e, x.unaryInto f out = ⟨.error e, out⟩ := by
  refine mapShardInto_fails hx hout (f := fun t => t.unary f) (fun _ => rfl) ?_
  rintro ⟨hd, hb⟩
  exact h ⟨hd, Shape.broadcast_self_iff.mp hb⟩

end Sharded

/-! ### Layouts that agree -/

namespace Shape

variable {a s : Shape} {i j len : Nat}

/-- A shape that is repeated along an axis broadcasts to any part of it. -/
theorem broadcastsTo_set_of_one (hone : a.extentAt s.length j = 1) :
    a.BroadcastsTo (s.set j len) ↔ a.BroadcastsTo s := by
  unfold BroadcastsTo
  rw [List.length_set]
  refine and_congr_right fun _ => forall₂_congr fun m hm => ?_
  rw [getD_set hm]
  by_cases hmj : m = j
  · subst hmj
    exact iff_of_true (.inl hone) (.inl hone)
  · rw [if_neg hmj]

/-- Equal parts of axes of equal extents broadcast like the whole. -/
theorem broadcastsTo_set_set (hij : i + s.length = j + a.length)
    (hext : a.getD i 1 = s.getD j 1) :
    BroadcastsTo (a.set i len) (s.set j len) ↔ a.BroadcastsTo s := by
  unfold BroadcastsTo
  rw [List.length_set, List.length_set]
  refine and_congr_right fun hlen => forall₂_congr fun m hm => ?_
  have haxis : j = i + (s.length - a.length) := by omega
  rw [getD_set hm, extentAt_set hm, ← haxis]
  by_cases hmj : m = j
  · subst hmj
    rw [if_pos rfl, if_pos rfl]
    refine iff_of_true (.inr rfl) (.inr ?_)
    rw [← hext, haxis, extentAt_add]
  · rw [if_neg hmj, if_neg hmj]

/-- Where a source is repeated, shifting the coordinate makes no difference. -/
theorem align_shift_of_one {start : Nat} {c : List Nat} (hlen : a.length ≤ c.length)
    (hone : a.extentAt c.length j = 1) : a.align (shift j start c) = a.align c := by
  have hl : (a.align (shift j start c)).length = a.length := length_align (by simpa using hlen)
  refine ext_getD 0 (hl.trans (length_align hlen).symm) fun m hm => ?_
  rw [hl] at hm
  rw [getD_align (by simpa using hlen) hm, getD_align hlen hm, length_shift,
    getD_shift _ _ (by omega)]
  split
  · rfl
  · next hne =>
    refine if_neg ?_
    rintro rfl
    rw [extentAt_add] at hone
    exact hne hone

end Shape

/-- The axis along which the ranks of a group of `n` have different parts of a tensor. -/
def Tensor.sharedAxis (n : Nat) (t : Tensor) (k : Option Nat) : Option Nat :=
  k.filter fun i => n ≠ 1 ∧ t.shape.getD i 1 ≠ 0

/-- `Aligned n t k u l` says that the ranks of a group of `n` have corresponding parts of `t`,
split along `k`, and of `u`, split along `l`: both are split along the same axis, counted from the
last one, and have the same extent along it, or `t` is not split and repeated along the axis along
which `u` is split, or neither is split. -/
def Tensor.Aligned (n : Nat) (t : Tensor) (k : Option Nat) (u : Tensor) (l : Option Nat) : Prop :=
  match t.sharedAxis n k, u.sharedAxis n l with
  | none, none => True
  | none, some j => t.shape.extentAt u.shape.length j = 1
  | some i, some j =>
    i + u.shape.length = j + t.shape.length ∧ t.shape.getD i 1 = u.shape.getD j 1
  | some _, none => False

namespace Tensor

variable {n : Nat} {t u : Tensor} {k l : Option Nat}

theorem Aligned.cast (h : Aligned n t k u l) (d : DType) : Aligned n (t.cast d) k u l :=
  h

theorem sharedAxis_eq_some {i : Nat} (h : t.sharedAxis n k = some i) : k = some i :=
  (Option.filter_eq_some_iff.mp h).1

/-- All ranks have everything of a tensor that they do not share out. -/
theorem Exact.part_of_sharedAxis (ht : t.Exact) (h : t.sharedAxis n k = none) (r : Fin n) :
    t.part k r n = t := by
  cases k with
  | none => rfl
  | some i =>
    rw [sharedAxis, Option.filter_eq_none_iff] at h
    have hi := h i rfl
    rw [decide_eq_true_iff, not_and_or, not_not, not_not] at hi
    rcases hi with rfl | hzero
    · obtain rfl : r = 0 := Fin.fin_one_eq_zero r
      exact ht.part_of_one
    · -- an axis without entries is shared out in chunks without entries
      have hlen : (Chunk.balanced 0 r n).start + (Chunk.balanced 0 r n).length ≤ 0 :=
        Chunk.start_add_length_le r.isLt
      have hstart : (Chunk.balanced 0 r n).start = 0 := by omega
      have hlength : (Chunk.balanced 0 r n).length = 0 := by omega
      have hself : t.window i 0 (t.shape.getD i 1) = t := ht.window_self
      rw [hzero] at hself
      rw [Tensor.part, hzero, hstart, hlength]
      exact hself

/-- **Corresponding parts broadcast like the whole.** -/
theorem Aligned.broadcastsTo_part (h : Aligned n t k u l) (ht : t.Exact) (hu : u.Exact)
    (r : Fin n) :
    (t.part k r n).shape.BroadcastsTo (u.part l r n).shape ↔ t.shape.BroadcastsTo u.shape := by
  unfold Aligned at h
  split at h
  · next hi hj => rw [ht.part_of_sharedAxis hi, hu.part_of_sharedAxis hj]
  · next j hi hj =>
    rw [ht.part_of_sharedAxis hi, sharedAxis_eq_some hj]
    exact Shape.broadcastsTo_set_of_one h
  · next i j hi hj =>
    obtain ⟨haxis, hext⟩ := h
    obtain rfl := sharedAxis_eq_some hi
    obtain rfl := sharedAxis_eq_some hj
    show Shape.BroadcastsTo (t.shape.set i (Chunk.balanced (t.shape.getD i 1) r n).length)
      (u.shape.set j (Chunk.balanced (u.shape.getD j 1) r n).length) ↔ _
    rw [hext]
    exact Shape.broadcastsTo_set_set haxis hext
  · exact h.elim

/-- A tensor that all ranks have in full, and that is not repeated along the axis along which the
other one is shared out, is longer than any part of it. -/
theorem not_broadcastsTo_part (ht : t.Exact) (hl : ∀ j, l = some j → j < u.ndim)
    (hwhole : t.sharedAxis n k = none) (hb : t.shape.BroadcastsTo u.shape)
    (h : ¬ Aligned n t k u l) (r : Fin n) :
    ¬ (t.part k r n).shape.BroadcastsTo (u.part l r n).shape := by
  rw [ht.part_of_sharedAxis hwhole]
  unfold Aligned at h
  rw [hwhole] at h
  cases hj : u.sharedAxis n l with
  | none =>
    rw [hj] at h
    exact absurd trivial h
  | some j =>
    rw [hj] at h
    replace h : t.shape.extentAt u.shape.length j ≠ 1 := h
    obtain ⟨hsplit, hshared⟩ := Option.filter_eq_some_iff.mp hj
    obtain ⟨hmany, hzero⟩ := of_decide_eq_true hshared
    have hlt : j < u.shape.length := hl j hsplit
    have hext : t.shape.extentAt u.shape.length j = u.shape.getD j 1 :=
      (hb.2 j hlt).resolve_left h
    -- the source is whole and meets a strictly shorter slice, with which it does not broadcast
    have hshort : (Chunk.balanced (u.shape.getD j 1) r n).length < u.shape.getD j 1 :=
      Chunk.length_balanced_lt r.isLt hmany (by omega)
    intro hpart
    rw [hsplit] at hpart
    replace hpart : t.shape.BroadcastsTo
      (u.shape.set j (Chunk.balanced (u.shape.getD j 1) r n).length) := hpart
    have hj := hpart.2 j (by rwa [List.length_set])
    rw [List.length_set, Shape.getD_set hlt, if_pos rfl] at hj
    omega

/-- A tensor that is repeated along an axis becomes any part of the result. -/
theorem Exact.broadcastTo_set_of_one {s : Shape} {w : Tensor} {j start len : Nat} (ht : t.Exact)
    (hs : s.volume < Size.modulus) (hb : t.shape.BroadcastsTo s) (hw : t.broadcastTo s = .ok w)
    (hone : t.shape.extentAt s.length j = 1) (hfit : start + len ≤ s.getD j 1) :
    t.broadcastTo (s.set j len) = .ok (w.window j start len) := by
  obtain ⟨d, a, f, rfl⟩ : ∃ d a f, t = tabulate d a f := ⟨_, _, _, ht.eq_tabulate⟩
  have hb : a.BroadcastsTo s := hb
  have hone : a.extentAt s.length j = 1 := hone
  rw [broadcastTo_tabulate hs hb] at hw
  obtain rfl := Except.ok.inj hw
  have hpart : Shape.volume (s.set j len) < Size.modulus :=
    Nat.lt_of_le_of_lt (Shape.volume_slice_le (by omega)) hs
  rw [broadcastTo_tabulate hpart ((Shape.broadcastsTo_set_of_one hone).mpr hb),
    window_tabulate hfit]
  refine congrArg Except.ok (tabulate_congr fun c hc => ?_)
  have hlen : c.length = s.length := by simpa using hc.length_eq
  have hle := hb.1
  rw [Shape.align_shift_of_one (by omega) (by rw [hlen]; exact hone)]

/-- What a window of the result is made of becomes that window. -/
theorem Exact.broadcastTo_cut {s : Shape} {w : Tensor} {j start len : Nat} (ht : t.Exact)
    (hs : s.volume < Size.modulus) (hb : t.shape.BroadcastsTo s) (hw : t.broadcastTo s = .ok w)
    (hj : j < s.length) (hfit : start + len ≤ s.getD j 1) :
    (t.cut s j start len).broadcastTo (s.set j len) = .ok (w.window j start len) := by
  obtain ⟨d, a, f, rfl⟩ : ∃ d a f, t = tabulate d a f := ⟨_, _, _, ht.eq_tabulate⟩
  have hb : a.BroadcastsTo s := hb
  have hpart : Shape.volume (s.set j len) < Size.modulus :=
    Nat.lt_of_le_of_lt (Shape.volume_slice_le (by omega)) hs
  have hbcut : (a.cut s j len).BroadcastsTo (s.set j len) :=
    Shape.broadcastsTo_left (Shape.broadcast_cut (Shape.broadcast_self_iff.mpr hb) hj)
  rw [broadcastTo_tabulate hs hb] at hw
  obtain rfl := Except.ok.inj hw
  rw [cut_tabulate hfit, broadcastTo_tabulate hpart hbcut, window_tabulate hfit]
  refine congrArg Except.ok (tabulate_congr fun c hc => ?_)
  rw [Shape.uncut_align hb hj hfit hc]

/-- Parts of a tensor become the parts of the result along the same axis. -/
theorem Exact.broadcastTo_window {s : Shape} {w : Tensor} {i j start len : Nat} (ht : t.Exact)
    (hs : s.volume < Size.modulus) (hb : t.shape.BroadcastsTo s) (hw : t.broadcastTo s = .ok w)
    (hi : i < t.ndim) (hij : i + s.length = j + t.shape.length)
    (hext : t.shape.getD i 1 = s.getD j 1) (hfit : start + len ≤ s.getD j 1) :
    (t.window i start len).broadcastTo (s.set j len) = .ok (w.window j start len) := by
  have hlen := hb.1
  replace hi : i < t.shape.length := hi
  have haxis : j = i + (s.length - t.shape.length) := by omega
  have hcov : t.shape.Covers s j := by
    refine ⟨by omega, ?_⟩
    rw [← hext, haxis, Shape.extentAt_add]
  have hcut : t.window i start len = t.cut s j start len := by
    rw [cut, if_pos hcov, haxis, Nat.add_sub_cancel]
  rw [hcut]
  exact ht.broadcastTo_cut hs hb hw (by omega) hfit

/-- **Corresponding parts become parts.** -/
theorem Aligned.broadcastTo_part (h : Aligned n t k u l) (ht : t.Exact) (hu : u.Exact)
    (hk : ∀ i, k = some i → i < t.ndim) (hb : t.shape.BroadcastsTo u.shape) {w : Tensor}
    (hw : t.broadcastTo u.shape = .ok w) (r : Fin n) :
    (t.part k r n).broadcastTo (u.part l r n).shape = .ok (w.part l r n) := by
  obtain ⟨w', hw', hwx, hshape, -⟩ := ht.exists_broadcastTo hu.sized hb
  obtain rfl : w = w' := Except.ok.inj (hw.symm.trans hw')
  have hfit : ∀ j, (Chunk.balanced (u.shape.getD j 1) r n).start
      + (Chunk.balanced (u.shape.getD j 1) r n).length ≤ u.shape.getD j 1 := fun j =>
    Chunk.start_add_length_le r.isLt
  have hpart : ∀ j, w.part (some j) r n = w.window j (Chunk.balanced (u.shape.getD j 1) r n).start
      (Chunk.balanced (u.shape.getD j 1) r n).length := by
    intro j
    rw [Tensor.part, hshape]
  -- the three ways for parts to correspond: both whole, a repeated source, both cut alike
  unfold Aligned at h
  split at h
  · next hi hj =>
    have hwj : w.sharedAxis n l = none := by
      rw [← hj, sharedAxis, hshape]
      rfl
    rw [ht.part_of_sharedAxis hi, hu.part_of_sharedAxis hj, hwx.part_of_sharedAxis hwj, hw]
  · next j hi hj =>
    obtain rfl := sharedAxis_eq_some hj
    rw [ht.part_of_sharedAxis hi, hpart]
    exact ht.broadcastTo_set_of_one hu.sized hb hw h (hfit j)
  · next i j hi hj =>
    obtain ⟨haxis, hext⟩ := h
    obtain rfl := sharedAxis_eq_some hi
    obtain rfl := sharedAxis_eq_some hj
    rw [hpart, Tensor.part, hext]
    exact ht.broadcastTo_window hu.sized hb hw (hk i rfl) haxis hext (hfit j)
  · exact h.elim

end Tensor

/-! ### The group -/

namespace Sharded

variable {n : Nat} {t u : Tensor} {k l : Option Nat} {c c' : Fin n → Comm} {x out : Fin n → Sharded}

/-- A handle that a rank got on a tensor that it knows in full is on its part. -/
theorem eq_of_ofGlobal {y : Sharded} (ht : t.Exact) (hc : Comm.Spans c) {r : Fin n}
    (hy : ofGlobal t k (c r) = .ok y) :
    (∀ s, k = some s → s < t.ndim) ∧ y = ⟨t.part k r n, t.shape, t.dtype, k, .cpu, c r⟩ := by
  have hk : ∀ s, k = some s → s < t.ndim := by
    rintro s rfl
    by_contra hs
    rw [ofGlobal_of_invalid (Nat.not_lt.mp hs)] at hy
    cases hy
  have hwhole := ofGlobal_eq ht hk (c := c r) (by rw [hc.rank_eq, hc.size_eq]; exact r.isLt)
  rw [ofWhole_eq hc, hy] at hwhole
  exact ⟨hk, Except.ok.inj hwhole⟩

theorem stored_part (ht : t.Exact) (c : Comm) (r : Fin n) :
    Stored ⟨t.part k r n, t.shape, t.dtype, k, .cpu, c⟩ :=
  ⟨(ht.part r.isLt).stored, t.dtype_part k r n⟩

/-- What a rank writes over its part of `u`: the function of its part of `t`. -/
theorem unaryInto_part {r : Fin n} {w : Tensor} (f : UnaryFn) (ht : t.Exact) (hu : u.Exact)
    (hd : DType.promote t.dtype.toFloat u.dtype = u.dtype)
    (h : (t.part k r n).shape.BroadcastsTo (u.part l r n).shape)
    (hw : ((t.part k r n).cast t.dtype.toFloat).broadcastTo (u.part l r n).shape = .ok w) :
    unaryInto f ⟨t.part k r n, t.shape, t.dtype, k, .cpu, c r⟩
        ⟨u.part l r n, u.shape, u.dtype, l, .cpu, c' r⟩ =
      let y : Sharded := ⟨(w.unary f).cast u.dtype, u.shape, u.dtype, l, .cpu, c' r⟩
      ⟨.ok y, y⟩ :=
  unaryInto_eq (stored_part ht (c r) r) (stored_part hu (c' r) r) (hu.part r.isLt) hd h hw

/-- Corresponding parts of the two tensors make a part of the whole result. -/
theorem unaryInto_of_aligned {w : Tensor} (f : UnaryFn) (ht : t.Exact) (hu : u.Exact)
    (hk : ∀ s, k = some s → s < t.ndim) (hc' : Comm.Spans c')
    (hd : DType.promote t.dtype.toFloat u.dtype = u.dtype) (h : t.shape.BroadcastsTo u.shape)
    (hw : (t.cast t.dtype.toFloat).broadcastTo u.shape = .ok w)
    (haligned : Tensor.Aligned n t k u l) (r : Fin n) :
    unaryInto f ⟨t.part k r n, t.shape, t.dtype, k, .cpu, c r⟩
        ⟨u.part l r n, u.shape, u.dtype, l, .cpu, c' r⟩ =
      let y := ofWhole ((w.unary f).cast u.dtype) l (c' r)
      ⟨.ok y, y⟩ := by
  obtain ⟨w', hw', hwx, hshape, -⟩ :=
    (ht.cast t.dtype.toFloat).exists_broadcastTo hu.sized h
  obtain rfl : w = w' := Except.ok.inj (hw.symm.trans hw')
  have hpart := (haligned.cast _).broadcastTo_part (ht.cast _) hu hk h hw r
  rw [← Tensor.cast_part ht r.isLt] at hpart
  have hwhole : ofWhole ((w.unary f).cast u.dtype) l (c' r)
      = ⟨((w.part l r n).unary f).cast u.dtype, u.shape, u.dtype, l, .cpu, c' r⟩ := by
    rw [ofWhole_eq hc', Tensor.unary_part hwx r.isLt, Tensor.cast_part (hwx.unary f) r.isLt,
      ← hshape]
    rfl
  rw [hwhole]
  exact unaryInto_part f ht hu hd ((haligned.broadcastsTo_part ht hu r).mpr h) hpart

/-- **Writing over an output.**  A rank succeeds exactly if the element type of the output is wide
enough and its shard broadcasts to the shard of the output, and then the output has the function
of its shard, repeated; otherwise the output is left alone.  If the ranks have corresponding parts
of the two tensors, then all of them succeed or all of them fail, as the tensors do, and they get
the parts of the function of the whole tensor, repeated to the shape of the output and cast to its
element type.  If all ranks have the whole tensor, and it broadcasts to the output without being
repeated along the axis along which the output is shared out, all of them fail. -/
theorem unaryInto_parts (f : UnaryFn) (ht : t.Exact) (hu : u.Exact) (hc : Comm.Spans c)
    (hc' : Comm.Spans c') (hx : ∀ r, ofGlobal t k (c r) = .ok (x r))
    (hout : ∀ r, ofGlobal u l (c' r) = .ok (out r)) :
    let d := t.dtype.toFloat
    let wide := DType.promote d u.dtype = u.dtype
    (∀ r,
      (wide ∧ (x r).shard.shape.BroadcastsTo (out r).shard.shape →
        ∃ w, ((x r).shard.cast d).broadcastTo (out r).shard.shape = .ok w ∧
          let y := { out r with shard := (w.unary f).cast u.dtype }
          (x r).unaryInto f (out r) = ⟨.ok y, y⟩) ∧
      (¬ (wide ∧ (x r).shard.shape.BroadcastsTo (out r).shard.shape) →
        ∃ e, (x r).unaryInto f (out r) = ⟨.error e, out r⟩)) ∧
    (Tensor.Aligned n t k u l →
      (wide ∧ t.shape.BroadcastsTo u.shape →
        ∃ (w : Tensor) (y : Fin n → Sharded), (t.cast d).broadcastTo u.shape = .ok w ∧
          (∀ r, ofGlobal ((w.unary f).cast u.dtype) l (c' r) = .ok (y r)) ∧
          ∀ r, (x r).unaryInto f (out r) = ⟨.ok (y r), y r⟩) ∧
      (¬ (wide ∧ t.shape.BroadcastsTo u.shape) →
        ∀ r, ∃ e, (x r).unaryInto f (out r) = ⟨.error e, out r⟩)) ∧
    (t.sharedAxis n k = none → t.shape.BroadcastsTo u.shape → ¬ Tensor.Aligned n t k u l →
      ∀ r, ∃ e, (x r).unaryInto f (out r) = ⟨.error e, out r⟩) := by
  intro d wide
  have hk : Fin n → ∀ s, k = some s → s < t.ndim := fun r => (eq_of_ofGlobal ht hc (hx r)).1
  have hl : Fin n → ∀ s, l = some s → s < u.ndim := fun r => (eq_of_ofGlobal hu hc' (hout r)).1
  -- every rank holds its balanced part of what was handed to the group
  obtain rfl : x = fun r => ⟨t.part k r n, t.shape, t.dtype, k, .cpu, c r⟩ :=
    funext fun r => (eq_of_ofGlobal ht hc (hx r)).2
  obtain rfl : out = fun r => ⟨u.part l r n, u.shape, u.dtype, l, .cpu, c' r⟩ :=
    funext fun r => (eq_of_ofGlobal hu hc' (hout r)).2
  have hxp : ∀ r : Fin n, (t.part k r n).Exact := fun r => ht.part r.isLt
  have hup : ∀ r : Fin n, (u.part l r n).Exact := fun r => hu.part r.isLt
  have hxs := fun r => stored_part (k := k) ht (c r) r
  have hus := fun r => stored_part (k := l) hu (c' r) r
  dsimp only
  refine ⟨fun r => ⟨?_, fun h => unaryInto_error (hxs r) (hus r) h⟩, fun haligned => ⟨?_, ?_⟩,
    ?_⟩
  -- on a single rank the shapes that it holds decide, whatever the global ones are
  · rintro ⟨hwide, hb⟩
    obtain ⟨w, hw, -⟩ := ((hxp r).cast d).exists_broadcastTo (hup r).sized hb
    exact ⟨w, hw, unaryInto_part f ht hu hwide hb hw⟩
  · rintro ⟨hwide, hb⟩
    obtain ⟨w, hw, hwx, hshape, -⟩ := (ht.cast d).exists_broadcastTo hu.sized hb
    -- the written handles are those of the result that the whole tensors give
    refine ⟨w, fun r => ofWhole ((w.unary f).cast u.dtype) l (c' r), hw, fun r => ?_, fun r =>
      unaryInto_of_aligned f ht hu (hk r) hc' hwide hb hw haligned r⟩
    refine ofGlobal_eq ((hwx.unary f).cast u.dtype) ?_ ?_
    · show ∀ s, l = some s → s < w.shape.length
      rw [hshape]
      exact hl r
    · rw [hc'.rank_eq, hc'.size_eq]
      exact r.isLt
  · intro h r
    refine unaryInto_error (hxs r) (hus r) ?_
    rintro ⟨hwide, hb⟩
    exact h ⟨hwide, (haligned.broadcastsTo_part ht hu r).mp hb⟩
  · intro hwhole hb hne r
    refine unaryInto_error (hxs r) (hus r) ?_
    rintro ⟨-, hpart⟩
    exact Tensor.not_broadcastsTo_part ht (hl r) hwhole hb hne r hpart

/-- The negative of a row, written over two rows of a wider element type: each of two ranks has a
column of them. -/
theorem unaryInto_parts_two_words :
    let c : Fin 2 → Comm := fun r => .member 0 r 2
    let t : Tensor := ⟨[2], ⟨.f32, [⟨0x3f800000⟩, ⟨0x40000000⟩]⟩⟩
    let u : Tensor := ⟨[2, 2], ⟨.f64, [⟨0⟩, ⟨0⟩, ⟨0⟩, ⟨0⟩]⟩⟩
    let v : Tensor := ⟨[2, 2], ⟨.f64,
      [⟨0xbff0000000000000⟩, ⟨0xc000000000000000⟩, ⟨0xbff0000000000000⟩, ⟨0xc000000000000000⟩]⟩⟩
    ∀ r, ∃ y, ofGlobal v (some 1) (c r) = .ok y ∧
      (ofWhole t (some 0) (c r)).unaryInto .neg (ofWhole u (some 1) (c r)) = ⟨.ok y, y⟩ := by
  intro c t u v r
  have ht : t.Exact :=
    ⟨rfl, (by decide : Shape.volume [2] < Size.modulus)⟩
  have hu : u.Exact :=
    ⟨rfl, (by decide : Shape.volume [2, 2] < Size.modulus)⟩
  have hc : Comm.Spans c := .inl ⟨0, fun _ => rfl⟩
  have hx : ∀ r, ofGlobal t (some 0) (c r) = .ok (ofWhole t (some 0) (c r)) := fun r =>
    ofGlobal_eq ht (by rintro s ⟨⟩; decide) r.isLt
  have hout : ∀ r, ofGlobal u (some 1) (c r) = .ok (ofWhole u (some 1) (c r)) := fun r =>
    ofGlobal_eq hu (by rintro s ⟨⟩; decide) r.isLt
  have hb : t.shape.BroadcastsTo u.shape := Shape.broadcast_self_iff.mp (by decide)
  obtain ⟨w, y, hw, hy, hrun⟩ :=
    ((unaryInto_parts .neg ht hu hc hc hx hout).2.1 ⟨rfl, rfl⟩).1 ⟨by decide, hb⟩
  obtain rfl : ⟨[2, 2], ⟨.f32, [⟨0x3f800000⟩, ⟨0x40000000⟩, ⟨0x3f800000⟩, ⟨0x40000000⟩]⟩⟩ = w :=
    Except.ok.inj (Eq.trans (by rfl) hw)
  refine ⟨y r, ?_, hrun r⟩
  rw [← hy r]
  rfl

/-- **Other layouts can look like broadcasting.**  Each of two ranks writes its word over both
words of an unsplit output, which is not the same on both ranks any more; and of three words, the
first rank has two, which do not broadcast to three, and the second rank has one, which does. -/
theorem unaryInto_differs :
    let c : Fin 2 → Comm := fun r => .member 0 r 2
    (let t : Tensor := ⟨[2], ⟨.f32, [⟨0x3f800000⟩, ⟨0x40000000⟩]⟩⟩
      let u : Tensor := ⟨[2], ⟨.f32, [⟨0⟩, ⟨0⟩]⟩⟩
      let x r := ofWhole t (some 0) (c r)
      let out r := ofWhole u none (c r)
      let y := { out 0 with shard := ⟨[2], ⟨.f32, [⟨0xbf800000⟩, ⟨0xbf800000⟩]⟩⟩ }
      let z := { out 1 with shard := ⟨[2], ⟨.f32, [⟨0xc0000000⟩, ⟨0xc0000000⟩]⟩⟩ }
      (∀ r, ofGlobal t (some 0) (c r) = .ok (x r)) ∧ (∀ r, ofGlobal u none (c r) = .ok (out r)) ∧
        (x 0).unaryInto .neg (out 0) = ⟨.ok y, y⟩ ∧ (x 1).unaryInto .neg (out 1) = ⟨.ok z, z⟩) ∧
    let t : Tensor := ⟨[3], ⟨.f32, [⟨0x3f800000⟩, ⟨0x40000000⟩, ⟨0x40400000⟩]⟩⟩
    let u : Tensor := ⟨[3], ⟨.f32, [⟨0⟩, ⟨0⟩, ⟨0⟩]⟩⟩
    let x r := ofWhole t (some 0) (c r)
    let out r := ofWhole u none (c r)
    let z := { out 1 with shard := ⟨[3], ⟨.f32, [⟨0xc0400000⟩, ⟨0xc0400000⟩, ⟨0xc0400000⟩]⟩⟩ }
    (∀ r, ofGlobal t (some 0) (c r) = .ok (x r)) ∧ (∀ r, ofGlobal u none (c r) = .ok (out r)) ∧
      (∃ e, (x 0).unaryInto .neg (out 0) = ⟨.error e, out 0⟩) ∧
      (x 1).unaryInto .neg (out 1) = ⟨.ok z, z⟩ := by
  refine ⟨⟨?_, fun _ => rfl, rfl, rfl⟩, ?_, fun _ => rfl, ⟨_, rfl⟩, rfl⟩
  · intro r
    exact ofGlobal_eq ⟨rfl, (by decide : Shape.volume [2] < Size.modulus)⟩
      (by rintro s ⟨⟩; decide) r.isLt
  · intro r
    exact ofGlobal_eq ⟨rfl, (by decide : Shape.volume [3] < Size.modulus)⟩
      (by rintro s ⟨⟩; decide) r.isLt

end Sharded

end SpmdArray
