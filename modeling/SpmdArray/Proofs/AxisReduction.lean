import Mathlib.Tactic.Ring
import SpmdArray.Proofs.Stored

/-!
# Reducing one axis

A tensor is reduced along an axis in a view with three axes: storage is read in rows of
slices, and the slices of a row are folded into one.  On functions of coordinates, the result
at a coordinate is the fold over the entries along the axis.  Only the axes behind the reduced one
and the result have to be counted anew, so nothing else can overflow.

## Main definitions

* `Elem.total` — the elements of a list, folded from the identity.

## Main results

* `Shape.coords_append` — the coordinates of two lists of extents side by side.
* `Buffer.foldSlices_eq`, `Buffer.foldRows_eq` — the loops over slices and rows.
* `Tensor.reduce_tabulate`, `Tensor.reduce_tabulate_eq_or` — the reduction of one axis, on
  functions.
-/

namespace SpmdArray

/-- The elements of a list, folded from the identity. -/
def Elem.total {d : DType} (op : Reducer) (xs : List (Elem d)) : Elem d :=
  xs.foldl (Elem.fold op) (Elem.identity d op)

namespace Shape

/-! ### Coordinates side by side -/

theorem digits_append {s t : Shape} {p j : Nat} (hp : p < s.prod) (hj : j < t.prod) :
    (s ++ t).digits (p * t.prod + j) = s.digits p ++ t.digits j := by
  have ht : 0 < t.prod := Nat.lt_of_le_of_lt (Nat.zero_le j) hj
  induction s generalizing p with
  | nil =>
    rw [List.prod_nil] at hp
    obtain rfl : p = 0 := by omega
    rw [Nat.zero_mul, Nat.zero_add]
    rfl
  | cons e s ih =>
    rw [List.prod_cons] at hp
    have hs : 0 < s.prod := Nat.pos_of_lt_mul_left hp
    have hdiv : (p * t.prod + j) / t.prod = p := by
      rw [Nat.mul_comm, Nat.mul_add_div ht, Nat.div_eq_of_lt hj, Nat.add_zero]
    have hmod : (p * t.prod + j) % (t.prod * s.prod) = p % s.prod * t.prod + j := by
      rw [Nat.mod_mul, hdiv, Nat.mul_comm p, Nat.mul_add_mod, Nat.mod_eq_of_lt hj]
      ring
    rw [List.cons_append, digits_cons, digits_cons, List.prod_append, Nat.mul_comm s.prod, hmod,
      ih (Nat.mod_lt _ hs), ← Nat.div_div_eq_div_mul, hdiv]
    rfl

theorem range_mul (e p : Nat) :
    List.range (e * p) = (List.range e).flatMap fun i => (List.range p).map (i * p + ·) := by
  induction e with
  | zero => simp
  | succ e ih => rw [Nat.succ_mul, List.range_add, ih, List.range_succ, List.flatMap_append,
      List.flatMap_singleton]

theorem coords_cons (e : Nat) (s : Shape) :
    coords (e :: s) = (List.range e).flatMap fun i => s.coords.map (i :: ·) := by
  rw [coords, List.prod_cons, range_mul, List.map_flatMap]
  refine List.flatMap_congr fun i _ => ?_
  rw [coords, List.map_map, List.map_map]
  refine List.map_congr_left fun j hj => ?_
  have hj := List.mem_range.mp hj
  have hpos : 0 < s.prod := Nat.lt_of_le_of_lt (Nat.zero_le j) hj
  rw [Function.comp_apply, Function.comp_apply, digits_cons, Nat.mul_comm, Nat.mul_add_div hpos,
    Nat.mul_add_mod, Nat.div_eq_of_lt hj, Nat.mod_eq_of_lt hj, Nat.add_zero]

theorem coords_append (s t : Shape) :
    coords (s ++ t) = s.coords.flatMap fun c => t.coords.map (c ++ ·) := by
  induction s with
  | nil => simp [coords, digits]
  | cons e s ih =>
    rw [List.cons_append, coords_cons, coords_cons, List.flatMap_assoc, ih]
    refine List.flatMap_congr fun i _ => ?_
    rw [List.map_flatMap, List.flatMap_map]
    refine List.flatMap_congr fun c _ => ?_
    rw [List.map_map]
    rfl

end Shape

namespace Buffer

variable {α : Type} {f : α → α → α} {xs : Array α}

/-! ### The loops -/

/-- The slices of a row are folded into one. -/
theorem foldSlices_eq {inner n start : Nat} {acc : List α} (h : start + n * inner ≤ xs.size)
    (hxs : xs.size < Size.modulus) :
    foldSlices f xs inner n start acc
      = .ok ((List.range n).foldl (fun acc i => List.zipWith f acc
          (xs.extract (start + i * inner) (start + i * inner + inner)).toList) acc) := by
  induction n generalizing start acc with
  | zero => rfl
  | succ n ih =>
    rw [Nat.succ_mul] at h
    have hstop : Size.add start inner = .ok (start + inner) := Size.add_of_lt (by omega)
    rw [foldSlices, hstop, ok_bind, if_pos (by omega), ih (by omega), List.range_succ_eq_map,
      List.foldl_cons, List.foldl_map, Nat.zero_mul, Nat.add_zero]
    congr 2
    funext acc i
    rw [Nat.succ_mul, Nat.add_assoc start inner, Nat.add_comm inner]

/-- The rows are folded one after the other, if their positions are sizes. -/
theorem foldRows_eq (f : α → α → α) (xs : Array α) {init : α} {reduce inner : Nat}
    (rows : Nat → List α) (n row : Nat)
    (acc : List (List α))
    (h : ∀ r, row ≤ r → r < row + n → r * reduce < Size.modulus ∧
      r * reduce * inner < Size.modulus ∧
      foldSlices f xs inner reduce (r * reduce * inner) (List.replicate inner init)
        = .ok (rows r)) :
    foldRows f init xs reduce inner n row acc
      = .ok (((List.range' row n).map rows).reverse ++ acc) := by
  induction n generalizing row acc with
  | zero => rfl
  | succ n ih =>
    obtain ⟨hrow, hbase, hslices⟩ := h row (Nat.le_refl _) (by omega)
    rw [foldRows, Size.mul_of_lt hrow, ok_bind, Size.mul_of_lt hbase, ok_bind, hslices, ok_bind,
      ih _ _ fun r h₁ h₂ => h r (by omega) (by omega), List.range'_succ]
    simp

/-- The slice of storage at a coordinate of the outer axes. -/
theorem extract_coords {s t : Shape} {c : List Nat} (hc : s.Within c) (g : List Nat → α) :
    (((s ++ t).coords.map g).toArray.extract (s.position c * t.prod)
        (s.position c * t.prod + t.prod)).toList
      = t.coords.map fun c' => g (c ++ c') := by
  have hp : s.position c < s.prod := Shape.position_lt hc
  have hle : s.position c * t.prod + t.prod ≤ (s ++ t).prod := by
    rw [List.prod_append, ← Nat.succ_mul]
    exact Nat.mul_le_mul_right _ hp
  apply List.ext_getElem
  · simp only [Array.toList_extract, List.extract_eq_take_drop, List.length_take, List.length_drop,
      List.length_map, Shape.length_coords]
    omega
  · intro j h₁ h₂
    have hj : j < t.prod := by simpa using h₂
    have hdigits := Shape.digits_append hp hj
    rw [Shape.digits_position hc] at hdigits
    simp only [Array.toList_extract, List.extract_eq_take_drop, List.getElem_take,
      List.getElem_drop, List.getElem_map, Shape.coords, List.getElem_range, hdigits]

/-- Folding slices works on each position of its own. -/
theorem foldl_zipWith_map {γ ι : Type} (f : α → α → α) (l : List γ) (is : List ι)
    (g : ι → γ → α) (a : γ → α) :
    is.foldl (fun acc i => List.zipWith f acc (l.map (g i))) (l.map a)
      = l.map fun c => (is.map (g · c)).foldl f (a c) := by
  induction is generalizing a with
  | nil => rfl
  | cons i is ih =>
    rw [List.foldl_cons, List.zipWith_map, List.zipWith_self, ih]
    rfl

variable {d : DType} {op : Reducer} {s₁ s₂ : Shape} {e : Nat} {g : List Nat → Elem d}

/-- The row at a coordinate of the outer axes. -/
theorem foldSlices_row {c : List Nat} (hc : s₁.Within c)
    (hs : (s₁ ++ e :: s₂).prod < Size.modulus) :
    foldSlices (Elem.fold op) ((s₁ ++ e :: s₂).coords.map g).toArray s₂.prod e
        (s₁.position c * e * s₂.prod) (List.replicate s₂.prod (Elem.identity d op))
      = .ok (s₂.coords.map fun c₂ =>
          Elem.total op ((List.range e).map fun i => g (c ++ i :: c₂))) := by
  have hp : s₁.position c < s₁.prod := Shape.position_lt hc
  have hprod : (s₁ ++ e :: s₂).prod = s₁.prod * e * s₂.prod := by
    rw [List.prod_append, List.prod_cons, Nat.mul_assoc]
  have hle : (s₁.position c + 1) * e * s₂.prod ≤ s₁.prod * e * s₂.prod :=
    Nat.mul_le_mul_right _ (Nat.mul_le_mul_right _ hp)
  rw [Nat.succ_mul, Nat.add_mul] at hle
  have hsize : ((s₁ ++ e :: s₂).coords.map g).toArray.size = s₁.prod * e * s₂.prod := by
    simp [hprod]
  -- the slice at i holds the entries whose coordinate along the axis is i
  have hslice : ∀ i ∈ List.range e,
      (((s₁ ++ e :: s₂).coords.map g).toArray.extract
        (s₁.position c * e * s₂.prod + i * s₂.prod)
        (s₁.position c * e * s₂.prod + i * s₂.prod + s₂.prod)).toList
      = s₂.coords.map fun c₂ => g (c ++ i :: c₂) := by
    intro i hi
    have hw : (s₁ ++ [e]).Within (c ++ [i]) :=
      List.rel_append hc (.cons (List.mem_range.mp hi) .nil)
    have hpos : (s₁ ++ [e]).position (c ++ [i]) = s₁.position c * e + i := by
      rw [Shape.position_append hc.length_eq]
      simp
    have hext := extract_coords (t := s₂) hw g
    rw [hpos, Nat.add_mul] at hext
    simpa using hext
  have hinit : List.replicate s₂.prod (Elem.identity d op)
      = s₂.coords.map fun _ => Elem.identity d op := by
    rw [List.map_const', Shape.length_coords]
  rw [foldSlices_eq (by omega) (by omega), ← List.foldl_map
    (g := List.zipWith (Elem.fold op)), List.map_congr_left hslice, List.foldl_map, hinit,
    foldl_zipWith_map]
  rfl

/-- **The reduction of the middle axis of storage**, whose rows begin at sizes. -/
theorem reduceAxis_coords (hs : (s₁ ++ e :: s₂).prod < Size.modulus)
    (hrows : s₁.prod * e < Size.modulus) :
    reduceAxis op ⟨d, (s₁ ++ e :: s₂).coords.map g⟩ s₁.prod e s₂.prod
      = .ok ⟨d, (s₁ ++ 1 :: s₂).coords.map fun c =>
          Elem.total op ((List.range e).map fun i => g (c.set s₁.length i))⟩ := by
  -- the rows of the result, one for each coordinate of the outer axes
  let row : List Nat → List (Elem d) := fun c =>
    s₂.coords.map fun c₂ => Elem.total op ((List.range e).map fun i => g (c ++ i :: c₂))
  have hresult : ((s₁ ++ 1 :: s₂).coords.map fun c =>
        Elem.total op ((List.range e).map fun i => g (c.set s₁.length i)))
      = (List.range s₁.prod).flatMap fun r => row (s₁.digits r) := by
    rw [Shape.coords_append, List.map_flatMap, show s₁.coords = (List.range s₁.prod).map s₁.digits
      from rfl, List.flatMap_map]
    refine List.flatMap_congr fun r _ => ?_
    rw [Shape.coords_cons, show List.range 1 = [0] from rfl, List.flatMap_singleton, List.map_map,
      List.map_map]
    refine List.map_congr_left fun c₂ _ => ?_
    simp only [Function.comp_apply, List.set_append_right _ _ (Nat.le_of_eq (s₁.length_digits r)),
      Shape.length_digits, Nat.sub_self, List.set_cons_zero]
  have hprod : (s₁ ++ e :: s₂).prod = s₁.prod * e * s₂.prod := by
    rw [List.prod_append, List.prod_cons, Nat.mul_assoc]
  let xs : Array (Elem d) := ((s₁ ++ e :: s₂).coords.map g).toArray
  have hrow : ∀ r, 0 ≤ r → r < 0 + s₁.prod → r * e < Size.modulus ∧
      r * e * s₂.prod < Size.modulus ∧
      foldSlices (Elem.fold op) xs s₂.prod e (r * e * s₂.prod)
        (List.replicate s₂.prod (Elem.identity d op)) = .ok (row (s₁.digits r)) := by
    intro r _ hr
    have hr : r < s₁.prod := by omega
    have hslices := @foldSlices_row d op s₁ s₂ e g _ (Shape.within_digits hr) hs
    rw [Shape.position_digits hr] at hslices
    refine ⟨(Nat.mul_le_mul_right e hr.le).trans_lt hrows, ?_, hslices⟩
    rw [hprod] at hs
    exact (Nat.mul_le_mul_right _ (Nat.mul_le_mul_right e hr.le)).trans_lt hs
  have hfold := foldRows_eq (Elem.fold op) xs (fun r => row (s₁.digits r)) s₁.prod 0 [] hrow
  rw [hresult, reduceAxis, hfold, ok_bind, List.append_nil, List.reverse_reverse,
    ← List.range_eq_range', List.flatMap_def]
  rfl

end Buffer

namespace Tensor

variable {d : DType} {s : Shape} {f : List Nat → Elem d} {op : Reducer} {a : Nat} {how : Grouping}

/-- **The reduction of one axis**, whatever the numbers of elements that are counted anew. -/
theorem reduce_tabulate_of_numel (hop : Buffer.supports op d = true) (ha : a < s.length)
    (hs : s.numel = .ok s.prod) :
    (tabulate d s f).reduce how op (some a) = (do
      let _ ← Shape.numel (s.drop (a + 1))
      ofBuffer (s.set a 1) (tabulate d (s.set a 1) fun c =>
        Elem.total op ((List.range (s.getD a 1)).map fun i => f (c.set a i))).buffer) := by
  -- the axis divides the extents into outer ones and inner ones
  have hsplit : s = s.take a ++ s.getD a 1 :: s.drop (a + 1) := by
    rw [List.getD_eq_getElem _ _ ha, List.getElem_cons_drop, List.take_append_drop]
  have hset : s.set a 1 = s.take a ++ 1 :: s.drop (a + 1) := by
    rw [List.set_eq_take_append_cons_drop, if_pos ha]
  have hlen : (s.take a).length = a := by
    rw [List.length_take]
    omega
  have hext : s[a]? = some (s.getD a 1) := by
    rw [List.getD_eq_getElem _ _ ha, List.getElem?_eq_getElem ha]
  have hrows : (s.take a).prod * s.getD a 1 < Size.modulus := by
    have htake := Shape.prod_take_lt_of_numel hs (a + 1)
    rwa [List.take_add_one, hext, Option.toList_some, List.prod_append,
      List.prod_singleton] at htake
  have hred := @Buffer.reduceAxis_coords d op (s.take a) (s.drop (a + 1)) (s.getD a 1) f
    (hsplit ▸ Shape.prod_lt_of_numel hs) hrows
  rw [← hsplit, ← hset, hlen] at hred
  have hred : (tabulate d s f).buffer.reduceAxis op (s.take a).prod (s.getD a 1)
      (List.prod (s.drop (a + 1))) = .ok (tabulate d (s.set a 1) fun c =>
        Elem.total op ((List.range (s.getD a 1)).map fun i => f (c.set a i))).buffer := hred
  unfold reduce
  rw [dtype_tabulate, hop, shape_tabulate]
  simp only [hext, Shape.numel_take hs, lift_ok, ok_bind]
  rcases Shape.numel_eq_ok_or (s.drop (a + 1)) with hinner | hinner
  · simp only [hinner, lift_ok, ok_bind, hred]
    rfl
  · simp only [hinner, lift_error, error_bind]
    rfl

/-- **An axis is reduced, or something overflows.** -/
theorem reduce_tabulate_eq_or (hop : Buffer.supports op d = true) (ha : a < s.length)
    (hs : s.numel = .ok s.prod) :
    Shape.numel (s.set a 1) = .ok (List.prod (s.set a 1)) ∧
        (tabulate d s f).reduce how op (some a)
          = .ok (tabulate d (s.set a 1) fun c =>
              Elem.total op ((List.range (s.getD a 1)).map fun i => f (c.set a i))) ∨
      (tabulate d s f).reduce how op (some a) = .error (.fault .overflow) ∧
        Size.modulus ≤ s.volume := by
  rw [reduce_tabulate_of_numel hop ha hs]
  rcases Shape.numel_eq_ok_or (s.drop (a + 1)) with hinner | hinner
  · rcases Shape.numel_eq_ok_or (s.set a 1) with hset | hset
    · refine .inl ⟨hset, ?_⟩
      rw [hinner, lift_ok, ok_bind, ofBuffer_tabulate hset]
    · refine .inr ⟨?_, (Shape.le_volume_of_numel hset).trans (s.volume_set_one_le a)⟩
      rw [hinner, lift_ok, ok_bind, ofBuffer, ofBufferOn,
        show Shape.numelOn .stops (s.set a 1) = _ from hset]
      rfl
  · refine .inr ⟨?_, (Shape.le_volume_of_numel hinner).trans
      (Shape.volume_le_of_sublist (List.drop_sublist _ _))⟩
    rw [hinner]
    rfl

/-- **The reduction of one axis.** -/
theorem reduce_tabulate (hop : Buffer.supports op d = true) (ha : a < s.length)
    (hs : s.volume < Size.modulus) :
    (tabulate d s f).reduce how op (some a)
      = .ok (tabulate d (s.set a 1) fun c =>
          Elem.total op ((List.range (s.getD a 1)).map fun i => f (c.set a i))) :=
  ((reduce_tabulate_eq_or hop ha (Shape.numel_of_volume_lt hs)).resolve_right
    fun h => Nat.not_lt.mpr h.2 hs).2

/-- Only the axes of a tensor are reduced. -/
theorem reduce_axis_of_ge {t : Tensor} (hop : Buffer.supports op t.dtype = true) (ha : t.ndim ≤ a) :
    t.reduce how op (some a) = .error (.error (.invalidAxis (Size.signed a) t.ndim)) := by
  have hnone : t.shape[a]? = none := List.getElem?_eq_none ha
  unfold reduce
  rw [hop]
  simp only [hnone]
  rfl

end Tensor

end SpmdArray
