import Mathlib.Algebra.BigOperators.Group.List.Basic
import Mathlib.Algebra.BigOperators.Ring.List
import Mathlib.Algebra.Order.BigOperators.Group.List
import Mathlib.Algebra.Ring.Nat
import SpmdArray.Shape

/-!
# Products of extents

The number of elements of a shape is multiplied from the first axis to the last, its strides
from the last axis to the first, and neither notices that the product of all extents may be zero
before it has become too great.  So it depends on the order of the axes whether an empty shape can
be counted.  The product of the extents that are not zero settles the matter: no product of extents
is greater, so nothing overflows as long as it is a size.

## Main definitions

* `Shape.volume` — the product of the extents that are not zero.
* `Shape.steps` — the strides in exact arithmetic.

## Main results

* `Size.product_stops` — a list has a product if the products of its first members are sizes.
* `Size.product_wraps` — the product on a machine without checks.
* `Size.mapM_store`, `Size.mapM_store_wraps` — lists of numbers that are stored.
* `Shape.prod_le_volume_of_sublist` — no product of extents is greater than the volume.
* `Shape.numel_of_volume_lt`, `Shape.strides_of_volume_lt` — nothing overflows.
* `Shape.prod_of_numel`, `Shape.strides_eq` — what comes out is exact.
-/

namespace SpmdArray

namespace Size

/-- The product of the numbers after `p`, one after the other. -/
theorem foldlM_store (ns : List Nat) (p : Nat) :
    ns.foldlM (fun p n => store .stops (p * n)) p
      = if ∀ k < ns.length, p * (ns.take (k + 1)).prod < modulus then .ok (p * ns.prod)
        else .error .overflow := by
  induction ns generalizing p with
  | nil => simp [pure_eq_ok]
  | cons m ns ih =>
    have hsplit : (∀ k < (m :: ns).length, p * ((m :: ns).take (k + 1)).prod < modulus)
        ↔ p * m < modulus ∧ ∀ k < ns.length, p * m * (ns.take (k + 1)).prod < modulus := by
      refine ⟨fun h => ⟨by simpa using h 0 (by simp), fun k hk => ?_⟩, fun ⟨h, hrest⟩ k hk => ?_⟩
      · simpa [Nat.mul_assoc] using h (k + 1) (by simpa using hk)
      · cases k with
        | zero => simpa using h
        | succ k => simpa [Nat.mul_assoc] using hrest k (by simpa using hk)
    rw [List.foldlM_cons, if_congr hsplit rfl rfl, List.prod_cons, ← Nat.mul_assoc]
    rcases Nat.lt_or_ge (p * m) modulus with h | h
    · rw [store_of_lt h, ok_bind, ih]
      simp only [h, true_and]
    · rw [store_of_le h, error_bind, if_neg fun hall => Nat.not_lt.mpr h hall.1]

/-- **A list has a product** exactly if the products of its first members are sizes. -/
theorem product_stops (ns : List Nat) :
    product .stops ns
      = if ∀ k < ns.length, (ns.take (k + 1)).prod < modulus then .ok ns.prod
        else .error .overflow := by
  rw [product, foldlM_store]
  simp only [Nat.one_mul]

/-- **The product on a machine without checks** is the residue of the exact one. -/
theorem product_wraps (ns : List Nat) : product .wraps ns = .ok (ns.prod % modulus) := by
  have hfold : ∀ p, ns.foldlM (fun p n => store .wraps (p * n)) (p % modulus)
      = .ok (p * ns.prod % modulus) := by
    induction ns with
    | nil => simp [pure_eq_ok]
    | cons m ns ih =>
      intro p
      rw [List.foldlM_cons, List.prod_cons, ← Nat.mul_assoc, ← ih (p * m), ← Nat.mod_mul_mod p m]
      rfl
  have hone : 1 % modulus = 1 := by decide
  simpa only [product, Nat.one_mul, hone] using hfold 1

/-- Numbers that are stored one after the other, on a machine that checks them. -/
theorem mapM_store {α : Type} (f : α → Nat) (l : List α) :
    (l.mapM fun a => store .stops (f a))
      = if ∀ a ∈ l, f a < modulus then .ok (l.map f) else .error .overflow := by
  induction l with
  | nil => rfl
  | cons a l ih =>
    rw [List.mapM_cons, ih, if_congr List.forall_mem_cons rfl rfl]
    rcases Nat.lt_or_ge (f a) modulus with h | h
    · by_cases hrest : ∀ a ∈ l, f a < modulus
      · rw [store_of_lt h, if_pos hrest, if_pos ⟨h, hrest⟩]
        rfl
      · rw [store_of_lt h, if_neg hrest, if_neg fun hall => hrest hall.2]
        rfl
    · have hfail : ¬ (f a < modulus ∧ ∀ x ∈ l, f x < modulus) := fun hall =>
        Nat.not_lt.mpr h hall.1
      rw [store_of_le h, if_neg hfail, error_bind]

/-- Numbers that are stored one after the other, on a machine without checks. -/
theorem mapM_store_wraps {α : Type} (f : α → Nat) (l : List α) :
    (l.mapM fun a => store .wraps (f a)) = .ok (l.map fun a => f a % modulus) := by
  induction l with
  | nil => rfl
  | cons a l ih =>
    rw [List.mapM_cons, ih]
    rfl

end Size

namespace Shape

variable {s t : Shape} {n dim len : Nat} {ds : List Nat}

/-! ### The volume -/

/-- The product of the extents that are not zero. -/
def volume (s : Shape) : Nat := (s.map (max 1)).prod

@[simp] theorem volume_nil : volume [] = 1 := rfl

@[simp] theorem volume_cons (e : Nat) (s : Shape) : volume (e :: s) = max 1 e * s.volume := rfl

@[simp] theorem volume_append (s t : Shape) : volume (s ++ t) = s.volume * t.volume := by
  rw [volume, List.map_append, List.prod_append]
  rfl

/-- Without an empty axis the volume is the number of elements. -/
theorem volume_eq_prod (h : 0 ∉ s) : s.volume = s.prod := by
  have hmap : s.map (max 1) = s := by
    refine (List.map_congr_left fun e he => ?_).trans s.map_id
    exact Nat.max_eq_right (Nat.pos_of_ne_zero fun h0 => h (h0 ▸ he))
  rw [volume, hmap]

theorem prod_le_volume (s : Shape) : s.prod ≤ s.volume := by
  induction s with
  | nil => exact Nat.le_refl 1
  | cons e s ih => exact Nat.mul_le_mul (Nat.le_max_right 1 e) ih

theorem volume_le_of_sublist (h : t.Sublist s) : t.volume ≤ s.volume := by
  refine List.Sublist.prod_le_prod' (h.map _) ?_
  intro e he
  obtain ⟨n, -, rfl⟩ := List.mem_map.mp he
  exact Nat.le_max_left 1 n

/-- **No product of extents is greater than the volume.** -/
theorem prod_le_volume_of_sublist (h : t.Sublist s) : t.prod ≤ s.volume :=
  (prod_le_volume t).trans (volume_le_of_sublist h)

theorem mem_le_volume {e : Nat} (h : e ∈ s) : e ≤ s.volume := by
  simpa using prod_le_volume_of_sublist (List.singleton_sublist.mpr h)

/-- The volume of a slice. -/
theorem volume_set_le (h : max 1 len ≤ max 1 (s.getD dim 1)) :
    volume (s.set dim len) ≤ s.volume := by
  induction s generalizing dim with
  | nil => exact Nat.le_refl 1
  | cons e s ih =>
    cases dim with
    | zero => exact Nat.mul_le_mul_right _ h
    | succ dim => exact Nat.mul_le_mul_left _ (ih (by simpa using h))

/-- The volume of a shape with an axis that is reduced. -/
theorem volume_set_one_le (s : Shape) (dim : Nat) : volume (s.set dim 1) ≤ s.volume :=
  volume_set_le (by omega)

/-! ### Numbers of elements -/

theorem numel_eq_ok_or (s : Shape) : s.numel = .ok s.prod ∨ s.numel = .error .overflow := by
  rw [numel, numelOn, Size.product_stops]
  exact (ite_eq_or_eq _ _ _)

/-- The number of elements is exact. -/
theorem prod_of_numel (h : s.numel = .ok n) : n = s.prod := by
  rcases s.numel_eq_ok_or with h' | h' <;> rw [h'] at h <;> cases h
  rfl

/-- The products of the first extents are sizes. -/
theorem prod_take_lt_of_numel (h : s.numel = .ok n) (k : Nat) :
    (s.take k).prod < Size.modulus := by
  rw [numel, numelOn, Size.product_stops] at h
  split at h
  · next hfirst =>
    rcases Nat.eq_zero_or_pos (min k s.length) with hk | hk
    · rw [List.take_eq_nil_iff.mpr (by simpa using Nat.min_eq_zero_iff.mp hk)]
      decide
    · have hlast := hfirst (min k s.length - 1) (by omega)
      rwa [Nat.sub_add_cancel hk, ← List.take_eq_take_min] at hlast
  · cases h

theorem prod_lt_of_numel (h : s.numel = .ok n) : s.prod < Size.modulus := by
  simpa using prod_take_lt_of_numel h s.length

/-- The first axes are counted on the way. -/
theorem numel_take (h : s.numel = .ok n) (k : Nat) :
    numel (s.take k) = .ok (s.take k).prod := by
  rw [numel, numelOn, Size.product_stops, if_pos]
  intro j _
  rw [List.take_take]
  exact prod_take_lt_of_numel h _

/-- **Nothing overflows when the elements are counted** if the volume is a size. -/
theorem numel_of_volume_lt (h : s.volume < Size.modulus) : s.numel = .ok s.prod := by
  rw [numel, numelOn, Size.product_stops, if_pos]
  intro k _
  exact Nat.lt_of_le_of_lt (prod_le_volume_of_sublist (List.take_sublist _ _)) h

/-- Elements that cannot be counted fill a volume that is no size. -/
theorem le_volume_of_numel {f : Fault} (h : s.numel = .error f) : Size.modulus ≤ s.volume := by
  refine Nat.not_lt.mp fun hlt => ?_
  rw [numel_of_volume_lt hlt] at h
  cases h

/-- A shape with elements has a volume that is a size if its elements can be counted. -/
theorem volume_lt_of_numel (h : s.numel = .ok n) (hpos : s.prod ≠ 0) :
    s.volume < Size.modulus := by
  rw [volume_eq_prod fun h0 => hpos (List.prod_eq_zero_iff.mpr h0)]
  exact prod_lt_of_numel h

/-! ### Strides -/

/-- Distances between neighbours along each axis, in exact arithmetic. -/
def steps : Shape → List Nat
  | [] => []
  | _ :: s => s.prod :: steps s

@[simp] theorem length_steps (s : Shape) : s.steps.length = s.length := by
  induction s with
  | nil => rfl
  | cons e s ih => simp [steps, ih]

/-- **Strides are exact**, and there are none if one of them is no size. -/
theorem strides_eq (s : Shape) :
    s.strides = if ∀ d ∈ s.steps, d < Size.modulus then .ok s.steps else .error .overflow := by
  induction s with
  | nil => rfl
  | cons e₀ s ih =>
    cases s with
    | nil => rfl
    | cons e s =>
      have hstep : (∀ d ∈ steps (e₀ :: e :: s), d < Size.modulus)
          ↔ s.prod * e < Size.modulus ∧ ∀ d ∈ steps (e :: s), d < Size.modulus := by
        rw [steps, List.forall_mem_cons, List.prod_cons, Nat.mul_comm e]
      change stridesOn .stops (e :: s) = _ at ih
      rw [strides, if_congr hstep rfl rfl, stridesOn, ih]
      by_cases hrest : ∀ d ∈ steps (e :: s), d < Size.modulus
      · rw [if_pos hrest, ok_bind, steps, List.headD_cons]
        rcases Nat.lt_or_ge (s.prod * e) Size.modulus with h | h
        · rw [if_pos ⟨h, hrest⟩, Size.store_of_lt h, ok_bind, steps, steps, List.prod_cons,
            Nat.mul_comm e]
          rfl
        · rw [if_neg fun hall => Nat.not_lt.mpr h hall.1, Size.store_of_le h, error_bind]
      · rw [if_neg hrest, if_neg fun hall => hrest hall.2, error_bind]

theorem strides_eq_ok_or (s : Shape) :
    s.strides = .ok s.steps ∨ s.strides = .error .overflow := by
  rw [strides_eq]
  exact ite_eq_or_eq _ _ _

theorem step_le_volume {d : Nat} (h : d ∈ s.steps) : d ≤ s.volume := by
  induction s with
  | nil => cases h
  | cons e s ih =>
    have htail : volume s ≤ volume (e :: s) := volume_le_of_sublist (List.sublist_cons_self _ _)
    rcases List.mem_cons.mp h with rfl | h
    · exact (prod_le_volume s).trans htail
    · exact (ih h).trans htail

/-- **Nothing overflows when the strides are computed** if the volume is a size. -/
theorem strides_of_volume_lt (h : s.volume < Size.modulus) : s.strides = .ok s.steps := by
  rw [strides_eq, if_pos]
  intro d hd
  exact Nat.lt_of_le_of_lt (step_le_volume hd) h

/-- The shape `[2 ^ 63, 2, 0]` has no elements, but they cannot be counted; those of
`[0, 2 ^ 63, 2]` can, but its strides overflow. -/
example : numel [2 ^ 63, 2, 0] = .error .overflow ∧ numel [0, 2 ^ 63, 2] = .ok 0 ∧
    strides [2 ^ 63, 2, 0] = .ok [0, 0, 1] ∧ strides [0, 2 ^ 63, 2] = .error .overflow := by
  decide

end Shape

end SpmdArray
