import Mathlib.Algebra.Order.BigOperators.Group.List
import SpmdArray.Proofs.Alignment
import SpmdArray.Tensor.Compute

/-!
# Tensors as functions of coordinates

A tensor whose extents multiply to the number of its elements is a function on the
coordinates of its shape.  Every change of layout and every element-wise function of such
tensors is a change of that function.

## Main definitions

* `Tensor.Exact` — the extents multiply to the number of stored elements.
* `Tensor.tabulate`, `Tensor.get` — the tensor of a function, and back.
* `Elem.convert` — the element that a conversion of a buffer makes of an element.

## Main results

* `Tensor.Exact.eq_tabulate` — every exact tensor is the tensor of a function.
* `Tensor.cast_tabulate`, `Tensor.narrow_tabulate`, `Tensor.broadcastTo_tabulate`,
  `Tensor.binary_tabulate`, `Tensor.unary_tabulate` — the operations, on functions.
* `Tensor.narrow_tabulate_eq_or`, `Tensor.broadcastTo_tabulate_eq_or`,
  `Tensor.binary_tabulate_eq_or` — the operations on tensors whose elements have been counted,
  which may still overflow.
-/

namespace SpmdArray

namespace Shape

/-- The coordinate of a tensor for a coordinate of its slice that begins at `start`. -/
def shift (dim start : Nat) (c : List Nat) : List Nat := c.modify dim (· + start)

theorem getD_shift (dim start : Nat) {c : List Nat} {i : Nat} (h : i < c.length) :
    (shift dim start c).getD i 0 = if i = dim then c.getD i 0 + start else c.getD i 0 := by
  rw [List.getD_eq_getElem _ _ (by simpa [shift] using h), List.getD_eq_getElem _ _ h]
  simp only [shift, List.getElem_modify]
  split
  · next hi => rw [if_pos hi.symm]
  · next hi => rw [if_neg (Ne.symm hi)]

@[simp] theorem length_shift (dim start : Nat) (c : List Nat) :
    (shift dim start c).length = c.length := by
  simp [shift]

@[simp] theorem shift_zero (dim : Nat) (c : List Nat) : shift dim 0 c = c := by
  simp only [shift, Nat.add_zero]
  exact List.modify_id dim c

theorem getD_set {s : Shape} {dim len i : Nat} (h : i < s.length) :
    List.getD (s.set dim len) i 1 = if i = dim then len else s.getD i 1 := by
  rw [List.getD_eq_getElem _ _ (by simpa using h), List.getD_eq_getElem _ _ h, List.getElem_set]
  simp only [eq_comm]

theorem within_shift {s : Shape} {dim start len : Nat} {c : List Nat}
    (h : start + len ≤ s.getD dim 1) (hc : Within (s.set dim len) c) :
    s.Within (shift dim start c) := by
  obtain ⟨hlen, hlt⟩ := within_iff.mp hc
  rw [List.length_set] at hlen hlt
  refine within_iff.mpr ⟨by simpa using hlen, fun i hi => ?_⟩
  have hi' := hlt i hi
  rw [getD_set hi] at hi'
  rw [getD_shift _ _ (hlen ▸ hi)]
  split
  · next hd =>
    subst hd
    rw [if_pos rfl] at hi'
    omega
  · next hd => rwa [if_neg hd] at hi'

theorem source_narrow {s : Shape} {dim start : Nat} {c : List Nat} (h : c.length = s.length) :
    source ((s.map fun _ i => i).set dim fun i => i + start) c = shift dim start c := by
  apply List.ext_getElem
  · simp [source, h]
  · intro i h₁ h₂
    simp only [source, shift, List.getElem_zipWith, List.getElem_set, List.getElem_modify,
      List.getElem_map]
    split <;> rfl

/-- The volume of a slice that fits into the axis. -/
theorem volume_slice_le {s : Shape} {dim len : Nat} (h : len ≤ s.getD dim 1) :
    volume (s.set dim len) ≤ s.volume :=
  volume_set_le (by omega)

/-- A slice reads each entry further along the axis. -/
theorem offset_narrow {s : Shape} {dim start len : Nat} {c : List Nat}
    (hc : c ∈ coords (s.set dim len)) :
    offset ((s.map fun _ i => i).set dim fun i => i + start) s.steps c
      = s.position (shift dim start c) := by
  rw [offset_steps, source_narrow (by simpa using (mem_coords.mp hc).length_eq)]

/-- The positions of the entries of a slice. -/
theorem narrowOffsets_eq {s : Shape} {dim start len : Nat} (hs : s.volume < Size.modulus)
    (hdim : dim < s.length) (hlen : start + len ≤ s.getD dim 1) :
    narrowOffsets s dim start len
      = .ok ((coords (s.set dim len)).map fun c => s.position (shift dim start c)) := by
  have hdst : volume (s.set dim len) < Size.modulus :=
    Nat.lt_of_le_of_lt (volume_slice_le (by omega)) hs
  rw [narrowOffsets, withExtent?, if_pos hdim]
  simp only [strides_of_volume_lt hs, ok_bind]
  refine gatherOffsets_of_lt (numel_of_volume_lt hdst) (fun c hc => offset_narrow hc) fun c hc => ?_
  exact (position_lt (within_shift hlen (mem_coords.mp hc))).trans_le
    ((prod_le_volume s).trans hs.le)

/-- A slice that fits into the axis is read at these positions, or something overflows. -/
theorem narrowOffsets_eq_ok_or {s : Shape} {dim : Nat} (hdim : dim < s.length) (start len : Nat) :
    numel (s.set dim len) = .ok (List.prod (s.set dim len)) ∧
        narrowOffsets s dim start len
          = .ok ((coords (s.set dim len)).map fun c => s.position (shift dim start c)) ∨
      narrowOffsets s dim start len = .error .overflow := by
  have hread := List.map_congr_left fun c => @offset_narrow s dim start len c
  rw [narrowOffsets, withExtent?, if_pos hdim]
  rcases s.strides_eq_ok_or with hs | hs
  · simp only [hs, ok_bind, ← hread]
    exact gatherOffsets_eq_ok_or _ _ _
  · simp only [hs, error_bind, or_true]

/-- A broadcast reads each entry at the aligned coordinate. -/
theorem offset_broadcast {s t : Shape} {c : List Nat} (hc : c ∈ t.coords) :
    offset ((s.padTo t.length).map fun e i => if e = 1 then 0 else i) (s.padTo t.length).steps c
      = s.position (s.align c) := by
  rw [offset_steps, ← (mem_coords.mp hc).length_eq, position_source_align]

/-- The positions that broadcast a shape to another one. -/
theorem broadcastOffsets_eq {s t : Shape} (hs : s.volume < Size.modulus)
    (ht : t.volume < Size.modulus) (h : s.BroadcastsTo t) :
    broadcastOffsets s t = .ok (t.coords.map fun c => s.position (s.align c)) := by
  have hpad : (s.padTo t.length).volume < Size.modulus := by
    simpa [padTo, volume] using hs
  rw [broadcastOffsets, if_neg (Nat.not_lt.mpr h.1)]
  simp only [ok_bind, strides_of_volume_lt hpad]
  refine gatherOffsets_of_lt (numel_of_volume_lt ht) (fun c hc => offset_broadcast hc) fun c hc => ?_
  exact (position_lt (within_align h (mem_coords.mp hc))).trans_le ((prod_le_volume s).trans hs.le)

/-- A broadcast reads these positions, or something overflows. -/
theorem broadcastOffsets_eq_ok_or {s t : Shape} (h : s.BroadcastsTo t) :
    t.numel = .ok t.prod ∧
        broadcastOffsets s t = .ok (t.coords.map fun c => s.position (s.align c)) ∨
      broadcastOffsets s t = .error .overflow := by
  have hread := List.map_congr_left fun c => @offset_broadcast s t c
  rw [broadcastOffsets, if_neg (Nat.not_lt.mpr h.1)]
  rcases (s.padTo t.length).strides_eq_ok_or with hs | hs
  · simp only [ok_bind, hs, ← hread]
    exact gatherOffsets_eq_ok_or _ _ _
  · simp only [hs, error_bind, or_true]

end Shape

namespace Elem

/-- What the conversion of a buffer to type `t` makes of an element: elements of that
type stay as they are. -/
def convert (t : DType) {d : DType} (a : Elem d) : Elem t :=
  if h : d = t then h ▸ a else a.cast t

@[simp] theorem convert_self {d : DType} (a : Elem d) : convert d a = a := by
  simp [convert]

theorem convert_of_ne {t d : DType} (h : d ≠ t) (a : Elem d) : convert t a = a.cast t := by
  simp [convert, h]

end Elem

namespace Buffer

theorem values_mk (t : DType) {d : DType} (xs : List (Elem d)) :
    values t ⟨d, xs⟩ = xs.map (Elem.convert t) := by
  by_cases h : d = t
  · subst h
    rw [show values d ⟨d, xs⟩ = xs from values_self ⟨d, xs⟩]
    exact (List.map_id'' (fun a => Elem.convert_self a) xs).symm
  · rw [values, as?_of_ne (b := ⟨d, xs⟩) h]
    exact List.map_congr_left fun a _ => (Elem.convert_of_ne h a).symm

theorem cast_mk (t : DType) {d : DType} (xs : List (Elem d)) :
    cast t ⟨d, xs⟩ = ⟨t, xs.map (Elem.convert t)⟩ := by
  rw [cast, values_mk]

theorem pick_map {α γ : Type} {xs : List α} {l : List γ} {g : γ → Nat} {f : γ → α}
    (h : ∀ c ∈ l, xs[g c]? = some (f c)) : pick xs.toArray (l.map g) = .ok (l.map f) := by
  induction l with
  | nil => rfl
  | cons c l ih =>
    have ih := ih fun c' hc' => h c' (List.mem_cons_of_mem _ hc')
    unfold pick at ih ⊢
    rw [List.map_cons, List.mapM_cons, ih, List.getElem?_toArray, h c List.mem_cons_self]
    rfl

end Buffer

namespace Tensor

/-- The extents of an exact tensor multiply to the number of its elements, and none of their
products overflows. -/
structure Exact (t : Tensor) : Prop where
  /-- Every coordinate has its element. -/
  count : t.numel = t.shape.prod
  /-- The product of the extents that are not zero is a machine size. -/
  sized : t.shape.volume < Size.modulus

namespace Exact

variable {t : Tensor}

theorem prod_lt (ht : t.Exact) : t.shape.prod < Size.modulus :=
  Nat.lt_of_le_of_lt (Shape.prod_le_volume _) ht.sized

theorem extents (ht : t.Exact) : ∀ e ∈ t.shape, e < Size.modulus := fun _ he =>
  Nat.lt_of_le_of_lt (Shape.mem_le_volume he) ht.sized

theorem numel_shape (ht : t.Exact) : t.shape.numel = .ok t.numel := by
  rw [Shape.numel_of_volume_lt ht.sized, ht.count]

end Exact

/-- The tensor that holds `f c` at every coordinate `c` of the shape `s`. -/
def tabulate (d : DType) (s : Shape) (f : List Nat → Elem d) : Tensor :=
  ⟨s, ⟨d, s.coords.map f⟩⟩

/-- The element at a coordinate. -/
def get (t : Tensor) (c : List Nat) : Elem t.dtype :=
  t.buffer.data.getD (t.shape.position c) (Elem.zero _)

variable {d : DType} {s : Shape} {f g : List Nat → Elem d}

@[simp] theorem shape_tabulate : (tabulate d s f).shape = s := rfl

@[simp] theorem dtype_tabulate : (tabulate d s f).dtype = d := rfl

@[simp] theorem numel_tabulate : (tabulate d s f).numel = s.prod := by
  simp [tabulate, numel, Buffer.length]

theorem exact_tabulate (h : s.volume < Size.modulus) : (tabulate d s f).Exact :=
  ⟨numel_tabulate, h⟩

theorem get_tabulate {c : List Nat} (h : s.Within c) : (tabulate d s f).get c = f c := by
  have hk := Shape.position_lt h
  show List.getD (s.coords.map f) (s.position c) (Elem.zero d) = f c
  rw [List.getD_eq_getElem?_getD, List.getElem?_map, Shape.getElem?_coords hk,
    Shape.digits_position h]
  rfl

theorem tabulate_congr (h : ∀ c, s.Within c → f c = g c) : tabulate d s f = tabulate d s g := by
  unfold tabulate
  rw [List.map_congr_left fun c hc => h c (Shape.mem_coords.mp hc)]

theorem eq_map_coords {α : Type} {xs : List α} (h : xs.length = s.prod) (z : α) :
    xs = s.coords.map fun c => xs.getD (s.position c) z := by
  apply List.ext_getElem?
  intro k
  rcases Nat.lt_or_ge k s.prod with hk | hk
  · rw [List.getElem?_map, Shape.getElem?_coords hk, Option.map_some, Shape.position_digits hk,
      List.getElem?_eq_getElem (h ▸ hk), List.getD_eq_getElem _ _ (h ▸ hk)]
  · rw [List.getElem?_eq_none (by omega), List.getElem?_eq_none (by simpa using hk)]

/-- A tensor with as many elements as coordinates is the tensor of a function. -/
theorem eq_tabulate {t : Tensor} (h : t.numel = t.shape.prod) :
    t = tabulate t.dtype t.shape t.get := by
  have hdata := eq_map_coords h (Elem.zero t.dtype)
  show (⟨t.shape, ⟨t.dtype, t.buffer.data⟩⟩ : Tensor) = ⟨t.shape, ⟨t.dtype, _⟩⟩
  congr 2

/-- **Every exact tensor is the tensor of a function.** -/
theorem Exact.eq_tabulate {t : Tensor} (h : t.Exact) : t = tabulate t.dtype t.shape t.get :=
  Tensor.eq_tabulate h.count

/-! ### Conversion and functions of one tensor -/

theorem cast_tabulate (t : DType) :
    (tabulate d s f).cast t = tabulate t s fun c => Elem.convert t (f c) := by
  unfold tabulate cast
  rw [Buffer.cast_mk, List.map_map]
  rfl

theorem unary_tabulate (u : UnaryFn) :
    (tabulate d s f).unary u = tabulate d s fun c => Elem.unary u (f c) := by
  unfold tabulate unary Buffer.unary
  rw [List.map_map]
  rfl

/-- The elements in another shape that is counted to have as many of them. -/
theorem reshape_tabulate_of_numel {t : Shape} (ht : t.prod = s.prod) (hn : t.numel = .ok t.prod) :
    (tabulate d s f).reshape t = .ok (tabulate d t fun c => f (s.digits (t.position c))) := by
  have hcoords : s.coords.map f = t.coords.map fun c => f (s.digits (t.position c)) := by
    simp only [Shape.coords, List.map_map, ht]
    refine List.map_congr_left fun k hk => ?_
    rw [Function.comp_apply, Function.comp_apply,
      Shape.position_digits (ht ▸ List.mem_range.mp hk)]
  simp only [reshape, reshapeOn, show Shape.numelOn .stops t = _ from hn, lift_ok, ok_bind,
    numel_tabulate, ht, ne_eq, not_true_eq_false, if_false]
  unfold tabulate
  rw [hcoords]
  rfl

theorem reshape_tabulate {t : Shape} (ht : t.prod = s.prod) (hs : t.volume < Size.modulus) :
    (tabulate d s f).reshape t = .ok (tabulate d t fun c => f (s.digits (t.position c))) :=
  reshape_tabulate_of_numel ht (Shape.numel_of_volume_lt hs)

/-! ### Slices -/

/-- Reading storage at the positions of some coordinates. -/
theorem gather_map_tabulate {l : List (List Nat)} {g : List Nat → Nat} {h : List Nat → List Nat}
    (hw : ∀ c ∈ l, s.Within (h c)) (hg : ∀ c ∈ l, g c = s.position (h c)) :
    (tabulate d s f).buffer.gather (l.map g) = .ok ⟨d, l.map fun c => f (h c)⟩ := by
  have hpick : Buffer.pick (s.coords.map f).toArray (l.map g) = .ok (l.map fun c => f (h c)) := by
    refine Buffer.pick_map fun c hc => ?_
    rw [hg c hc, List.getElem?_map, Shape.getElem?_coords (Shape.position_lt (hw c hc)),
      Shape.digits_position (hw c hc), Option.map_some]
  show Except.map _ (Buffer.pick (s.coords.map f).toArray _) = _
  rw [hpick]
  rfl

/-- Reading storage at the positions of the coordinates of another shape. -/
theorem gather_tabulate {t : Shape} {g : List Nat → Nat} {h : List Nat → List Nat}
    (hw : ∀ c, t.Within c → s.Within (h c)) (hg : ∀ c, t.Within c → g c = s.position (h c)) :
    (tabulate d s f).buffer.gather (t.coords.map g)
      = .ok (tabulate d t fun c => f (h c)).buffer :=
  gather_map_tabulate (fun c hc => hw c (Shape.mem_coords.mp hc))
    fun c hc => hg c (Shape.mem_coords.mp hc)

/-- **A slice that fits into the axis**, or something overflows. -/
theorem narrow_tabulate_eq_or {dim start len : Nat} (hs : s.numel = .ok s.prod)
    (hext : s.getD dim 1 < Size.modulus) (hdim : dim < s.length)
    (hlen : start + len ≤ s.getD dim 1) :
    Shape.numel (s.set dim len) = .ok (List.prod (s.set dim len)) ∧
        (tabulate d s f).narrow dim start len
          = .ok (tabulate d (s.set dim len) fun c => f (Shape.shift dim start c)) ∨
      (tabulate d s f).narrow dim start len = .error (.fault .overflow) ∧
        Size.modulus ≤ s.volume := by
  have hget : s[dim]? = some (s.getD dim 1) := by
    rw [List.getD_eq_getElem _ _ hdim, List.getElem?_eq_getElem hdim]
  have hstop : Size.add start len = .ok (start + len) := Size.add_of_lt (by omega)
  rw [narrow, shape_tabulate, hget]
  simp only [hstop, lift_ok, ok_bind, if_neg (Nat.not_lt.mpr hlen)]
  -- the whole axis is returned as it is, any other slice is gathered
  by_cases hall : start = 0 ∧ len = s.getD dim 1
  · obtain ⟨rfl, rfl⟩ := hall
    have hset : s.set dim (s.getD dim 1) = s := by
      rw [List.getD_eq_getElem _ _ hdim, List.set_getElem_self]
    rw [if_pos ⟨rfl, rfl⟩, hset]
    simp only [Shape.shift_zero]
    exact .inl ⟨hs, rfl⟩
  · rcases Shape.narrowOffsets_eq_ok_or hdim start len with ⟨hn, ho⟩ | ho
    · have hgather := gather_tabulate (f := f) (g := fun c => s.position (Shape.shift dim start c))
        (h := Shape.shift dim start) (fun c hc => Shape.within_shift hlen hc) fun c _ => rfl
      simp only [if_neg hall, ho, pure_eq_ok, lift_ok, ok_bind, hgather]
      exact .inl ⟨hn, rfl⟩
    · refine .inr ⟨?_, Nat.not_lt.mp fun hvol => ?_⟩
      · simp only [if_neg hall, ho, pure_eq_ok, lift_error, error_bind]
      · rw [Shape.narrowOffsets_eq hvol hdim hlen] at ho
        cases ho

theorem narrow_tabulate {dim start len : Nat} (hs : s.volume < Size.modulus)
    (hdim : dim < s.length) (hlen : start + len ≤ s.getD dim 1) :
    (tabulate d s f).narrow dim start len
      = .ok (tabulate d (s.set dim len) fun c => f (Shape.shift dim start c)) := by
  have hext : s.getD dim 1 ≤ s.volume := by
    rw [List.getD_eq_getElem _ _ hdim]
    exact Shape.mem_le_volume (List.getElem_mem hdim)
  exact ((narrow_tabulate_eq_or (Shape.numel_of_volume_lt hs) (hext.trans_lt hs) hdim
    hlen).resolve_right fun h => Nat.not_lt.mpr h.2 hs).2

/-! ### Broadcasting -/

theorem commonShape_of_eq_some {a b t : Shape} (h : a.broadcast b = some t) :
    commonShape a b = .ok t := by
  rw [commonShape, h]
  rfl

theorem commonShape_of_eq_none {a b : Shape} (h : a.broadcast b = none) :
    commonShape a b = .error (.error (.cannotBroadcast a b)) := by
  rw [commonShape, h]
  rfl

/-- **A tensor is broadcast**, or something overflows. -/
theorem broadcastTo_tabulate_eq_or {t : Shape} (hs : s.numel = .ok s.prod) (h : s.BroadcastsTo t) :
    t.numel = .ok t.prod ∧
        (tabulate d s f).broadcastTo t = .ok (tabulate d t fun c => f (s.align c)) ∨
      (tabulate d s f).broadcastTo t = .error (.fault .overflow) ∧ Size.modulus ≤ t.volume := by
  rw [broadcastTo, shape_tabulate, commonShape_of_eq_some (Shape.broadcast_self_iff.mpr h)]
  simp only [ok_bind, ne_eq, not_true_eq_false, if_false]
  -- a tensor of the wanted shape is returned as it is, any other one is gathered
  by_cases heq : s = t
  · subst heq
    have hself : tabulate d s f = tabulate d s fun c => f (s.align c) :=
      tabulate_congr fun c hc => by rw [Shape.align_self hc]
    rw [if_pos rfl, ← hself]
    exact .inl ⟨hs, rfl⟩
  · rcases Shape.broadcastOffsets_eq_ok_or h with ⟨hn, ho⟩ | ho
    · have hgather := gather_tabulate (f := f) (t := t) (g := fun c => s.position (s.align c))
        (h := s.align) (fun c hc => Shape.within_align h hc) fun c _ => rfl
      simp only [if_neg heq, ho, pure_eq_ok, lift_ok, ok_bind, hgather]
      exact .inl ⟨hn, rfl⟩
    · refine .inr ⟨?_, Nat.not_lt.mp fun hvol => ?_⟩
      · simp only [if_neg heq, ho, pure_eq_ok, lift_error, error_bind]
      · rw [Shape.broadcastOffsets_eq (h.volume_le.trans_lt hvol) hvol h] at ho
        cases ho

theorem broadcastTo_tabulate {t : Shape} (ht : t.volume < Size.modulus) (h : s.BroadcastsTo t) :
    (tabulate d s f).broadcastTo t = .ok (tabulate d t fun c => f (s.align c)) :=
  ((broadcastTo_tabulate_eq_or (Shape.numel_of_volume_lt (h.volume_le.trans_lt ht))
    h).resolve_right fun hover => Nat.not_lt.mpr hover.2 ht).2

/-- Combining the elements of two tensors of one shape. -/
theorem zip_tabulate (op : BinaryFn) :
    (tabulate d s f).buffer.binary op (tabulate d s g).buffer
      = .ok (tabulate d s fun c => Elem.binary op (f c) (g c)).buffer := by
  unfold Buffer.binary tabulate
  rw [show Buffer.as? d ⟨d, s.coords.map g⟩ = some (s.coords.map g) from Buffer.as?_self ⟨d, _⟩]
  simp only [List.zipWith_map, List.zipWith_self]
  rfl

/-- The elements of a tensor have been counted if those of its shape have. -/
theorem counted_tabulate (hs : s.numel = .ok s.prod) : s.numel = .ok (tabulate d s f).numel :=
  hs.trans (congrArg Except.ok numel_tabulate.symm)

/-- A tensor is made of as many elements as its shape is counted to have. -/
theorem ofBuffer_tabulate (hs : s.numel = .ok s.prod) :
    ofBuffer s (tabulate d s f).buffer = .ok (tabulate d s f) :=
  ofBuffer_of_numel (counted_tabulate hs)

/-- **A function of two tensors** is the function of the aligned elements, or something
overflows. -/
theorem binary_tabulate_eq_or {op : BinaryFn} {a b : Shape} {f g : List Nat → Elem d}
    (ha : a.numel = .ok a.prod) (hb : b.numel = .ok b.prod) (h : a.broadcast b = some s) :
    s.numel = .ok s.prod ∧ (tabulate d a f).binary op (tabulate d b g)
        = .ok (tabulate d s fun c => Elem.binary op (f (a.align c)) (g (b.align c))) ∨
      (tabulate d a f).binary op (tabulate d b g) = .error (.fault .overflow) ∧
        Size.modulus ≤ s.volume := by
  have hx := broadcastTo_tabulate_eq_or (f := f) ha (Shape.broadcastsTo_left h)
  have hy := broadcastTo_tabulate_eq_or (f := g) hb (Shape.broadcastsTo_right h)
  rw [binary, if_neg (by simp), shape_tabulate, shape_tabulate, commonShape_of_eq_some h, ok_bind]
  rcases hx with ⟨hs, hx⟩ | ⟨hx, hvol⟩
  · rcases hy with ⟨-, hy⟩ | ⟨hy, hvol⟩
    · refine .inl ⟨hs, ?_⟩
      simp only [hx, hy, ok_bind, zip_tabulate, ofBuffer_tabulate hs]
    · refine .inr ⟨?_, hvol⟩
      simp only [hx, hy, ok_bind, error_bind]
  · refine .inr ⟨?_, hvol⟩
    simp only [hx, error_bind]

theorem binary_tabulate {op : BinaryFn} {a b : Shape} {f g : List Nat → Elem d}
    (hs : s.volume < Size.modulus) (h : a.broadcast b = some s) :
    (tabulate d a f).binary op (tabulate d b g)
      = .ok (tabulate d s fun c => Elem.binary op (f (a.align c)) (g (b.align c))) := by
  have ha := (Shape.broadcastsTo_left h).volume_le.trans_lt hs
  have hb := (Shape.broadcastsTo_right h).volume_le.trans_lt hs
  exact ((binary_tabulate_eq_or (Shape.numel_of_volume_lt ha) (Shape.numel_of_volume_lt hb)
    h).resolve_right fun hover => Nat.not_lt.mpr hover.2 hs).2

end Tensor

end SpmdArray
