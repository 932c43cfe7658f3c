import SpmdArray.Proofs.Windows

/-!
# Stored tensors

Whoever makes a tensor counts its elements, from the first axis to the last.  That settles
everything for a tensor with elements.  The extents of an empty one may still have products that
are no sizes, and its strides, or the number of elements of a slice, may overflow.  So a function of
stored tensors gives what it should, or something overflows on the way; nothing overflows if the
tensors are exact and the volume of the result is a size.

## Main definitions

* `Tensor.Stored` — the extents multiply to the number of elements, counted one after the other.
* `Tensor.stretch` — the tensor that a tensor becomes by repetition.

## Main results

* `Tensor.Stored.exact_of_ne_zero` — every tensor with elements is exact.
* `Tensor.Stored.narrow_eq_or`, `Tensor.Stored.broadcastTo_eq_or` — the changes of layout of stored
  tensors.
-/

namespace SpmdArray

/-- What is known of every tensor: its extents are sizes, and they multiply to the number of its
elements, counted from the first axis to the last. -/
structure Tensor.Stored (t : Tensor) : Prop where
  /-- The elements are counted. -/
  count : t.shape.numel = .ok t.numel
  /-- The extents are sizes. -/
  extents : ∀ e ∈ t.shape, e < Size.modulus

namespace Tensor

variable {t : Tensor}

theorem Exact.stored (ht : t.Exact) : t.Stored := ⟨ht.numel_shape, ht.extents⟩

namespace Stored

theorem numel_eq (ht : t.Stored) : t.numel = t.shape.prod := Shape.prod_of_numel ht.count

theorem counted (ht : t.Stored) : t.shape.numel = .ok t.shape.prod :=
  ht.count.trans (congrArg Except.ok ht.numel_eq)

theorem prod_lt (ht : t.Stored) : t.shape.prod < Size.modulus := Shape.prod_lt_of_numel ht.count

theorem exact (ht : t.Stored) (h : t.shape.volume < Size.modulus) : t.Exact := ⟨ht.numel_eq, h⟩

/-- Every tensor with elements is exact. -/
theorem exact_of_ne_zero (ht : t.Stored) (h : t.shape.prod ≠ 0) : t.Exact :=
  ht.exact (Shape.volume_lt_of_numel ht.count h)

theorem cast (ht : t.Stored) (d : DType) : (t.cast d).Stored where
  count := ht.count.trans (congrArg Except.ok (numel_cast d t).symm)
  extents := ht.extents

theorem eq_tabulate (ht : t.Stored) : t = tabulate t.dtype t.shape t.get :=
  Tensor.eq_tabulate ht.numel_eq

end Stored

end Tensor

namespace Tensor

variable {t u r : Tensor} {s : Shape} {dim start len : Nat}

/-- The tensor of a shape whose elements have been counted. -/
theorem stored_tabulate {d : DType} {f : List Nat → Elem d} (h : s.numel = .ok s.prod)
    (he : ∀ e ∈ s, e < Size.modulus) : (tabulate d s f).Stored :=
  ⟨counted_tabulate h, he⟩

/-- When a buffer is given a shape. -/
theorem ofBufferOn_eq_ok_iff {o : Overflow} {b : Buffer} :
    ofBufferOn o s b = .ok r ↔ s.numelOn o = .ok b.length ∧ r = ⟨s, b⟩ := by
  unfold ofBufferOn
  cases s.numelOn o with
  | error f => simp
  | ok n => by_cases h : n = b.length <;> simp [h, pure_eq_ok, eq_comm]

/-- When a tensor is given another shape. -/
theorem reshapeOn_eq_ok_iff {o : Overflow} :
    t.reshapeOn o s = .ok r ↔ s.numelOn o = .ok t.numel ∧ r = ⟨s, t.buffer⟩ := by
  unfold reshapeOn
  cases s.numelOn o with
  | error f => simp
  | ok n => by_cases h : n = t.numel <;> simp [h, pure_eq_ok, eq_comm]

/-! ### Slices -/

theorem mem_set_lt {n : Nat} (h : ∀ e ∈ s, e < Size.modulus) (hn : n < Size.modulus) :
    ∀ e ∈ s.set dim n, e < Size.modulus := by
  intro e he
  rcases List.mem_or_eq_of_mem_set he with he | rfl
  · exact h e he
  · exact hn

/-- **A slice that fits into the axis** is a window, or something overflows. -/
theorem Stored.narrow_eq_or (ht : t.Stored) (hdim : dim < t.ndim)
    (h : start + len ≤ t.shape.getD dim 1) :
    (t.window dim start len).Stored ∧ t.narrow dim start len = .ok (t.window dim start len) ∨
      t.narrow dim start len = .error (.fault .overflow) ∧ Size.modulus ≤ t.shape.volume := by
  have hext : t.shape.getD dim 1 < Size.modulus := by
    rw [List.getD_eq_getElem _ _ hdim]
    exact ht.extents _ (List.getElem_mem hdim)
  have hnarrow := @narrow_tabulate_eq_or t.dtype t.shape t.get dim start len ht.counted hext hdim h
  rw [← ht.eq_tabulate] at hnarrow
  refine hnarrow.imp_left ?_
  rintro ⟨hn, hw⟩
  exact ⟨stored_tabulate hn (mem_set_lt ht.extents (by omega)), hw⟩

/-! ### Broadcasting -/

/-- The tensor repeated along missing axes and axes of extent 1, so that it has shape `s`. -/
def stretch (t : Tensor) (s : Shape) : Tensor :=
  tabulate t.dtype s fun c => t.get (t.shape.align c)

/-- **A tensor is broadcast, or something overflows.** -/
theorem Stored.broadcastTo_eq_or (ht : t.Stored) (h : t.shape.BroadcastsTo s) :
    s.numel = .ok s.prod ∧ t.broadcastTo s = .ok (t.stretch s) ∨
      t.broadcastTo s = .error (.fault .overflow) ∧ Size.modulus ≤ s.volume := by
  have hread := @broadcastTo_tabulate_eq_or t.dtype t.shape t.get s ht.counted h
  rwa [← ht.eq_tabulate] at hread

/-- What is read from a tensor that is broadcast. -/
theorem Exact.broadcastTo_eq (ht : t.Exact) (hs : s.volume < Size.modulus)
    (h : t.shape.BroadcastsTo s) : t.broadcastTo s = .ok (t.stretch s) := by
  conv_lhs => rw [ht.eq_tabulate]
  exact broadcastTo_tabulate hs h

/-- A tensor that broadcasts to a shape whose volume is a size is exact. -/
theorem Stored.exact_of_broadcastsTo (ht : t.Stored) (h : t.shape.BroadcastsTo s)
    (hs : s.volume < Size.modulus) : t.Exact :=
  ht.exact (h.volume_le.trans_lt hs)

end Tensor

end SpmdArray
