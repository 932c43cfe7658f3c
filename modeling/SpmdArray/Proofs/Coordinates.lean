import Mathlib.Data.List.Forall2
import Mathlib.Data.List.Nodup
import SpmdArray.Proofs.Volumes
import SpmdArray.Shape.Walk

/-!
# Coordinates

Storage is read in row-major order.  The position of a coordinate in storage and the
coordinate at a position are inverse to each other, and a walk through storage visits
the coordinates in the order of their positions.

## Main definitions

* `Shape.position`, `Shape.digits` — from coordinates to positions and back.
* `Shape.Within s c` — `c` is a coordinate of the shape `s`.
* `Shape.coords` — all coordinates of a shape in row-major order.

## Main results

* `Shape.digits_position`, `Shape.position_digits` — the two are inverse.
* `Shape.next_digits` — the odometer counts positions.
* `Shape.gatherOffsetsOn_eq`, `Shape.gatherOffsets_eq` — what a walk reads at each coordinate.
* `Shape.offset_steps` — offsets by the strides of a shape are positions.
* `Shape.gatherOffsets_of_lt` — a walk gets through if the positions that it reads are sizes.
-/

namespace SpmdArray

namespace Shape

/-- The position of a coordinate in row-major storage. -/
def position : Shape → List Nat → Nat
  | _ :: s, i :: c => i * s.prod + position s c
  | _, _ => 0

/-- The coordinate at a position of row-major storage. -/
def digits : Shape → Nat → List Nat
  | [], _ => []
  | _ :: s, k => k / s.prod :: digits s (k % s.prod)

/-- `s.Within c` says that `c` is a coordinate of the shape `s`. -/
def Within (s : Shape) (c : List Nat) : Prop := List.Forall₂ (· < ·) c s

/-- The coordinates of a shape in row-major order. -/
def coords (s : Shape) : List (List Nat) := (List.range s.prod).map s.digits

@[simp] theorem position_cons (e : Nat) (s : Shape) (i : Nat) (c : List Nat) :
    position (e :: s) (i :: c) = i * s.prod + position s c := rfl

@[simp] theorem position_nil (c : List Nat) : position [] c = 0 := by
  cases c <;> rfl

@[simp] theorem position_nil_right (s : Shape) : position s [] = 0 := by
  cases s <;> rfl

@[simp] theorem digits_cons (e : Nat) (s : Shape) (k : Nat) :
    digits (e :: s) k = k / s.prod :: digits s (k % s.prod) := rfl

@[simp] theorem length_digits (s : Shape) (k : Nat) : (s.digits k).length = s.length := by
  induction s generalizing k with
  | nil => rfl
  | cons e s ih => simp [ih]

@[simp] theorem length_coords (s : Shape) : s.coords.length = s.prod := by
  simp [coords]

theorem Within.length_eq {s : Shape} {c : List Nat} (h : s.Within c) : c.length = s.length :=
  List.Forall₂.length_eq h

@[simp] theorem within_cons {e : Nat} {s : Shape} {i : Nat} {c : List Nat} :
    Within (e :: s) (i :: c) ↔ i < e ∧ s.Within c := by
  simp [Within]

theorem digits_zero (s : Shape) : s.digits 0 = s.map fun _ => 0 := by
  induction s with
  | nil => rfl
  | cons e s ih => simp [ih]

/-! ### Positions and coordinates -/

theorem within_digits {s : Shape} {k : Nat} (h : k < s.prod) : s.Within (s.digits k) := by
  induction s generalizing k with
  | nil => exact .nil
  | cons e s ih =>
    rw [List.prod_cons] at h
    have hpos : 0 < s.prod := Nat.pos_of_lt_mul_left h
    rw [digits_cons, within_cons]
    exact ⟨(Nat.div_lt_iff_lt_mul hpos).mpr h, ih (Nat.mod_lt _ hpos)⟩

theorem position_digits {s : Shape} {k : Nat} (h : k < s.prod) :
    s.position (s.digits k) = k := by
  induction s generalizing k with
  | nil =>
    rw [List.prod_nil] at h
    rw [position_nil]
    omega
  | cons e s ih =>
    rw [List.prod_cons] at h
    have hpos : 0 < s.prod := Nat.pos_of_lt_mul_left h
    rw [digits_cons, position_cons, ih (Nat.mod_lt _ hpos), Nat.div_add_mod']

theorem position_lt {s : Shape} {c : List Nat} (h : s.Within c) : s.position c < s.prod := by
  induction h with
  | nil => simp
  | @cons i e c s hi _ ih =>
    rw [position_cons, List.prod_cons]
    calc i * s.prod + position s c < i * s.prod + s.prod := Nat.add_lt_add_left ih _
      _ = (i + 1) * s.prod := (Nat.succ_mul _ _).symm
      _ ≤ e * s.prod := Nat.mul_le_mul_right _ hi

theorem digits_position {s : Shape} {c : List Nat} (h : s.Within c) :
    s.digits (s.position c) = c := by
  induction h with
  | nil => rfl
  | @cons i e c s hi hc ih =>
    have hlt : position s c < s.prod := position_lt hc
    rw [position_cons, digits_cons, Nat.mul_comm, Nat.mul_add_mod, Nat.mod_eq_of_lt hlt, ih,
      Nat.mul_add_div (by omega), Nat.div_eq_of_lt hlt, Nat.add_zero]

theorem mem_coords {s : Shape} {c : List Nat} : c ∈ s.coords ↔ s.Within c := by
  rw [coords, List.mem_map]
  constructor
  · rintro ⟨k, hk, rfl⟩
    exact within_digits (List.mem_range.mp hk)
  · intro h
    exact ⟨s.position c, List.mem_range.mpr (position_lt h), digits_position h⟩

theorem getElem?_coords {s : Shape} {k : Nat} (h : k < s.prod) :
    s.coords[k]? = some (s.digits k) := by
  simp [coords, h]

theorem nodup_coords (s : Shape) : s.coords.Nodup := by
  refine List.Nodup.map_on ?_ List.nodup_range
  intro j hj k hk h
  rw [← position_digits (List.mem_range.mp hj), h, position_digits (List.mem_range.mp hk)]

/-- Two lists of extents side by side: the coordinate in front counts whole blocks. -/
theorem position_append {s t : Shape} {c d : List Nat} (h : c.length = s.length) :
    position (s ++ t) (c ++ d) = position s c * t.prod + position t d := by
  induction s generalizing c with
  | nil =>
    obtain rfl : c = [] := List.length_eq_zero_iff.mp h
    simp
  | cons e s ih =>
    cases c with
    | nil => simp at h
    | cons i c =>
      rw [List.cons_append, List.cons_append, position_cons, position_cons,
        ih (by simpa using h), List.prod_append, Nat.add_mul, Nat.mul_assoc, Nat.add_assoc]

/-! ### The walk -/

/-- The odometer counts positions: it goes on to the next one, and starts over after the
last. -/
theorem next_digits {s : Shape} {k : Nat} (h : k < s.prod) :
    next s (s.digits k) = (s.digits ((k + 1) % s.prod), decide (k + 1 = s.prod)) := by
  induction s generalizing k with
  | nil =>
    rw [List.prod_nil] at h
    obtain rfl : k = 0 := by omega
    rfl
  | cons e s ih =>
    rw [List.prod_cons] at h
    have hpos : 0 < s.prod := Nat.pos_of_lt_mul_left h
    have hmod : k % s.prod < s.prod := Nat.mod_lt _ hpos
    have hdiv : k / s.prod < e := (Nat.div_lt_iff_lt_mul hpos).mpr h
    have hk : s.prod * (k / s.prod) + k % s.prod = k := Nat.div_add_mod _ _
    rw [digits_cons, next, ih hmod, List.prod_cons]
    by_cases hcarry : k % s.prod + 1 = s.prod
    · have hsucc : k + 1 = s.prod * (k / s.prod + 1) := by rw [Nat.mul_add, Nat.mul_one]; omega
      simp only [hcarry, decide_true]
      by_cases hlast : k / s.prod + 1 < e
      · -- the carry is taken up by this axis
        have hlt : k + 1 < e * s.prod := by
          rw [hsucc, Nat.mul_comm]
          exact Nat.mul_lt_mul_of_pos_right hlast hpos
        rw [if_pos hlast, Nat.mod_eq_of_lt hlt, digits_cons, hsucc, Nat.mul_div_cancel_left _ hpos,
          Nat.mul_mod_right, Nat.mod_self]
        simp only [Prod.mk.injEq, true_and]
        rw [eq_comm, decide_eq_false_iff_not, ← hsucc]
        omega
      · -- this axis starts over as well
        have he : k / s.prod + 1 = e := by omega
        have hend : k + 1 = e * s.prod := by rw [hsucc, he, Nat.mul_comm]
        rw [if_neg hlast, hend, Nat.mod_self, Nat.mod_self, digits_cons]
        simp
    · have hlt : k % s.prod + 1 < s.prod := by omega
      have hsucc : k + 1 = s.prod * (k / s.prod) + (k % s.prod + 1) := by omega
      have hdiv' : (k + 1) / s.prod = k / s.prod := by
        rw [hsucc, Nat.mul_add_div hpos, Nat.div_eq_of_lt hlt, Nat.add_zero]
      have hmod' : (k + 1) % s.prod = k % s.prod + 1 := by
        rw [hsucc, Nat.mul_add_mod, Nat.mod_eq_of_lt hlt]
      have hend : k + 1 < e * s.prod := by
        rw [← Nat.div_lt_iff_lt_mul hpos, hdiv']
        exact hdiv
      simp only [hcarry, decide_false, Nat.mod_eq_of_lt hlt]
      rw [Nat.mod_eq_of_lt hend, digits_cons, hdiv', hmod', Prod.mk.injEq]
      refine ⟨rfl, ?_⟩
      rw [eq_comm, decide_eq_false_iff_not]
      omega

theorem walk_eq (o : Overflow) (s : Shape) (sources : List (Nat → Nat)) (strides : List Nat)
    (n k : Nat) (acc : List Nat) (h : k + n ≤ s.prod) :
    walk o s sources strides n (s.digits k) acc
      = do
        let l ← (List.range' k n).mapM fun j => Size.store o (offset sources strides (s.digits j))
        return l.reverse ++ acc := by
  induction n generalizing k acc with
  | zero => rfl
  | succ n ih =>
    rw [walk, next_digits (by omega), List.range'_succ, List.mapM_cons]
    cases Size.store o (offset sources strides (s.digits k)) with
    | error f => rfl
    | ok i =>
      simp only [ok_bind]
      rcases Nat.eq_zero_or_pos n with rfl | hn
      · rfl
      · rw [Nat.mod_eq_of_lt (by omega), ih (k + 1) _ (by omega)]
        simp

/-- **A walk reads one position for each of the first coordinates**, as many as there are
elements. -/
theorem gatherOffsetsOn_eq {o : Overflow} {s : Shape} {n : Nat} (h : s.numelOn o = .ok n)
    (hn : n ≤ s.prod) (strides : List Nat) (sources : List (Nat → Nat)) :
    gatherOffsetsOn o s strides sources
      = (s.coords.take n).mapM fun c => Size.store o (offset sources strides c) := by
  rw [gatherOffsetsOn, h, ok_bind, ← digits_zero, walk_eq _ _ _ _ _ _ _ (by omega), coords,
    ← List.map_take, List.take_range, Nat.min_eq_left hn, List.mapM_map, List.range_eq_range']
  simp [Function.comp_def]

/-- **A walk reads one position for each coordinate**, if the coordinates can be counted and the
positions are sizes. -/
theorem gatherOffsets_eq {s : Shape} {n : Nat} (h : s.numel = .ok n) (strides : List Nat)
    (sources : List (Nat → Nat)) :
    gatherOffsets s strides sources
      = if ∀ c ∈ s.coords, offset sources strides c < Size.modulus
        then .ok (s.coords.map (offset sources strides)) else .error .overflow := by
  obtain rfl := prod_of_numel h
  rw [gatherOffsets, gatherOffsetsOn_eq h (Nat.le_refl _), Size.mapM_store,
    List.take_of_length_le (by simp)]

/-- A walk that does not read one position for each coordinate overflows. -/
theorem gatherOffsets_eq_ok_or (s : Shape) (strides : List Nat) (sources : List (Nat → Nat)) :
    s.numel = .ok s.prod ∧
        gatherOffsets s strides sources = .ok (s.coords.map (offset sources strides)) ∨
      gatherOffsets s strides sources = .error .overflow := by
  rcases s.numel_eq_ok_or with hn | hn
  · rw [gatherOffsets_eq hn]
    exact (ite_eq_or_eq _ _ _).imp (fun h => ⟨hn, h⟩) id
  · right
    rw [gatherOffsets, gatherOffsetsOn, show numelOn .stops s = _ from hn, error_bind]

/-- The coordinate of the source that a coordinate of the destination is read from. -/
def source (sources : List (Nat → Nat)) (c : List Nat) : List Nat :=
  List.zipWith (fun f i => f i) sources c

/-- **Offsets by the strides of a shape are positions in it.** -/
theorem offset_steps (s : Shape) (sources : List (Nat → Nat)) (c : List Nat) :
    offset sources s.steps c = s.position (source sources c) := by
  induction s generalizing sources c with
  | nil => cases sources <;> cases c <;> simp [steps, offset, source]
  | cons e s ih =>
    cases sources with
    | nil => simp [offset, source]
    | cons f fs =>
      cases c with
      | nil => simp [offset, source]
      | cons i c =>
        show f i * s.prod + offset fs (steps s) c = f i * s.prod + position s (source fs c)
        rw [ih]

/-- **A walk gets through** if the positions that it reads are sizes. -/
theorem gatherOffsets_of_lt {s : Shape} {n : Nat} {strides : List Nat} {sources : List (Nat → Nat)}
    {read : List Nat → Nat} (hs : s.numel = .ok n)
    (hread : ∀ c ∈ s.coords, offset sources strides c = read c)
    (hlt : ∀ c ∈ s.coords, read c < Size.modulus) :
    gatherOffsets s strides sources = .ok (s.coords.map read) := by
  rw [gatherOffsets_eq hs, if_pos, List.map_congr_left hread]
  intro c hc
  rw [hread c hc]
  exact hlt c hc

end Shape

end SpmdArray
