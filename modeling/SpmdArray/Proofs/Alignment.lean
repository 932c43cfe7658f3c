import Mathlib.Data.List.GetD
import SpmdArray.Proofs.Coordinates
import SpmdArray.Shape.Broadcast

/-!
# Aligned shapes

Shapes broadcast after they have been aligned at their last axes.  Here the rule is read
axis by axis, and the entry of a source that is repeated at a coordinate of the
destination is named.

## Main definitions

* `Shape.extentAt` — the extent of an aligned shape along an axis of the result.
* `Shape.BroadcastsTo` — a shape becomes another one by repetition alone.
* `Shape.align` — the source coordinate for a coordinate of the destination.

## Main results

* `Shape.broadcast_eq_some_iff` — broadcasting, axis by axis.
* `Shape.within_align` — source coordinates are in range.
* `Shape.position_source_align` — the walk of a broadcast reads the aligned coordinate.
-/

namespace SpmdArray

namespace Shape

/-- The extent along axis `i` of a shape that is aligned to `n` axes; missing axes have
extent 1. -/
def extentAt (s : Shape) (n i : Nat) : Nat := (s.padTo n).getD i 1

theorem extentAt_of_lt {s : Shape} {n i : Nat} (h : i < n - s.length) : s.extentAt n i = 1 := by
  rw [extentAt, padTo, List.getD_append _ _ _ _ (by simpa using h)]
  simp

theorem extentAt_of_ge {s : Shape} {n i : Nat} (h : n - s.length ≤ i) :
    s.extentAt n i = s.getD (i - (n - s.length)) 1 := by
  rw [extentAt, padTo, List.getD_append_right _ _ _ _ (by simpa using h), List.length_replicate]

@[simp] theorem extentAt_length (s : Shape) (i : Nat) : s.extentAt s.length i = s.getD i 1 := by
  rw [extentAt, padTo_length]

theorem extentAt_add {s : Shape} {n : Nat} (i : Nat) :
    s.extentAt n (i + (n - s.length)) = s.getD i 1 := by
  rw [extentAt_of_ge (by omega), Nat.add_sub_cancel]

/-- Read from the last axis, missing axes come last. -/
theorem getD_reverse_eq_extentAt {s : Shape} {n i : Nat} (hs : s.length ≤ n) (hi : i < n) :
    s.reverse.getD i 1 = s.extentAt n (n - 1 - i) := by
  rcases Nat.lt_or_ge i s.length with h | h
  · rw [extentAt_of_ge (by omega), List.getD_eq_getElem?_getD, List.getElem?_reverse h,
      List.getD_eq_getElem?_getD]
    congr 2
    omega
  · rw [extentAt_of_lt (by omega), List.getD_eq_default _ _ (by simpa using h)]

/-! ### Broadcasting, axis by axis -/

@[simp] theorem broadcastExtent_one_left (a : Nat) : broadcastExtent 1 a = some a := by
  unfold broadcastExtent
  split
  · next h => rcases h with h | h <;> simp [h]
  · rfl

@[simp] theorem broadcastExtent_one_right (a : Nat) : broadcastExtent a 1 = some a := by
  simp [broadcastExtent]

/-- The common extent is one of the two, and the other one is the same or 1. -/
theorem broadcastExtent_eq_some_iff {a b e : Nat} :
    broadcastExtent a b = some e ↔ (a = e ∧ (b = e ∨ b = 1)) ∨ (a = 1 ∧ b = e) := by
  unfold broadcastExtent
  split
  · next h =>
    rw [Option.some.injEq]
    omega
  · split
    · next h =>
      rw [Option.some.injEq]
      omega
    · next h =>
      refine iff_of_false (by simp) ?_
      omega

theorem ext_getD {c d : List Nat} (z : Nat) (hlen : c.length = d.length)
    (h : ∀ i < c.length, c.getD i z = d.getD i z) : c = d := by
  apply List.ext_getElem hlen
  intro i h₁ h₂
  have := h i h₁
  rwa [List.getD_eq_getElem _ _ h₁, List.getD_eq_getElem _ _ h₂] at this

/-- A list is determined by its length and its entries. -/
theorem eq_iff_getD {x z : List Nat} :
    x = z ↔ z.length = x.length ∧ ∀ i < z.length, x.getD i 1 = z.getD i 1 := by
  constructor
  · rintro rfl
    exact ⟨rfl, fun i _ => rfl⟩
  · rintro ⟨hlen, h⟩
    exact ext_getD 1 hlen.symm fun i hi => h i (by rwa [hlen])

theorem broadcastReversed_eq_some_iff {x y z : List Nat} :
    broadcastReversed x y = some z ↔ z.length = max x.length y.length ∧
      ∀ i < z.length, broadcastExtent (x.getD i 1) (y.getD i 1) = some (z.getD i 1) := by
  -- both lists are read from the last axis on, and the shorter one ends in extents of 1
  induction x generalizing y z with
  | nil =>
    rw [broadcastReversed, Option.some.injEq, eq_iff_getD]
    simp only [List.length_nil, Nat.zero_max, List.getD_nil, broadcastExtent_one_left,
      Option.some.injEq]
  | cons e x ih =>
    cases y with
    | nil =>
      rw [broadcastReversed, Option.some.injEq, eq_iff_getD]
      · simp only [List.length_nil, Nat.max_zero, List.getD_nil, broadcastExtent_one_right,
          Option.some.injEq]
      · simp
    | cons e' y =>
      rw [broadcastReversed]
      simp only [Option.bind_eq_bind, Option.bind_eq_some_iff, Option.pure_def,
        Option.some.injEq]
      constructor
      · rintro ⟨w, hw, c, hc, rfl⟩
        obtain ⟨hlen, h⟩ := ih.mp hc
        refine ⟨by simp only [List.length_cons, hlen]; omega, fun i hi => ?_⟩
        cases i with
        | zero => simpa using hw
        | succ i => simpa using h i (by simpa using hi)
      · rintro ⟨hlen, h⟩
        cases z with
        | nil => simp only [List.length_nil, List.length_cons] at hlen; omega
        | cons w z =>
          refine ⟨w, by simpa using h 0 (by simp), z, ih.mpr ⟨?_, fun i hi => ?_⟩, rfl⟩
          · simp only [List.length_cons] at hlen
            omega
          · simpa using h (i + 1) (by simpa using hi)

/-- Shapes are compared from the last axis on. -/
theorem broadcast_eq_some_iff_reversed {a b s : Shape} :
    a.broadcast b = some s ↔ broadcastReversed a.reverse b.reverse = some s.reverse := by
  rw [broadcast, Option.map_eq_some_iff]
  constructor
  · rintro ⟨z, hz, rfl⟩
    rw [hz, List.reverse_reverse]
  · intro h
    exact ⟨s.reverse, h, List.reverse_reverse s⟩

/-- **Broadcasting, axis by axis.** -/
theorem broadcast_eq_some_iff {a b s : Shape} :
    a.broadcast b = some s ↔ s.length = max a.length b.length ∧
      ∀ i < s.length, broadcastExtent (a.extentAt s.length i) (b.extentAt s.length i)
        = some (s.getD i 1) := by
  rw [broadcast_eq_some_iff_reversed, broadcastReversed_eq_some_iff]
  simp only [List.length_reverse]
  refine and_congr_right fun hlen => ?_
  -- the axes are counted from the other end
  have hflip : ∀ i < s.length,
      (broadcastExtent (a.reverse.getD i 1) (b.reverse.getD i 1) = some (s.reverse.getD i 1)) ↔
      (broadcastExtent (a.extentAt s.length (s.length - 1 - i))
        (b.extentAt s.length (s.length - 1 - i)) = some (s.getD (s.length - 1 - i) 1)) := by
    intro i hi
    rw [getD_reverse_eq_extentAt (n := s.length) (by omega) hi,
      getD_reverse_eq_extentAt (n := s.length) (by omega) hi,
      getD_reverse_eq_extentAt (Nat.le_refl _) hi, extentAt_length]
  constructor
  · intro h i hi
    have h' := (hflip (s.length - 1 - i) (by omega)).mp (h _ (by omega))
    rwa [show s.length - 1 - (s.length - 1 - i) = i by omega] at h'
  · intro h i hi
    exact (hflip i hi).mpr (h _ (by omega))

/-- `a.BroadcastsTo s` says that a tensor of shape `a` becomes one of shape `s` by
repetition along missing axes and axes of extent 1. -/
def BroadcastsTo (a s : Shape) : Prop :=
  a.length ≤ s.length ∧
    ∀ i < s.length, a.extentAt s.length i = 1 ∨ a.extentAt s.length i = s.getD i 1

theorem broadcast_self_iff {a s : Shape} : a.broadcast s = some s ↔ a.BroadcastsTo s := by
  rw [broadcast_eq_some_iff, BroadcastsTo]
  simp only [extentAt_length, broadcastExtent_eq_some_iff]
  refine and_congr (by omega) (forall₂_congr fun i _ => ?_)
  rw [true_or, and_true, and_true, or_comm]

theorem broadcastsTo_left {a b s : Shape} (h : a.broadcast b = some s) : a.BroadcastsTo s := by
  obtain ⟨hlen, hext⟩ := broadcast_eq_some_iff.mp h
  refine ⟨by omega, fun i hi => ?_⟩
  have := broadcastExtent_eq_some_iff.mp (hext i hi)
  omega

theorem broadcast_comm (a b : Shape) : a.broadcast b = b.broadcast a := by
  apply Option.ext
  intro s
  simp only [broadcast_eq_some_iff, Nat.max_comm a.length,
    broadcastExtent_comm (a.extentAt _ _)]

theorem broadcastsTo_right {a b s : Shape} (h : a.broadcast b = some s) : b.BroadcastsTo s :=
  broadcastsTo_left (broadcast_comm b a ▸ h)

/-! ### Source coordinates -/

/-- The coordinate of a source of shape `s` that is repeated at the coordinate `c` of a
destination. -/
def align (s : Shape) (c : List Nat) : List Nat :=
  List.zipWith (fun e i => if e = 1 then 0 else i) s (c.drop (c.length - s.length))

theorem length_align {s : Shape} {c : List Nat} (h : s.length ≤ c.length) :
    (s.align c).length = s.length := by
  rw [align, List.length_zipWith, List.length_drop]
  omega

theorem getD_align {s : Shape} {c : List Nat} (h : s.length ≤ c.length) {i : Nat}
    (hi : i < s.length) :
    (s.align c).getD i 0
      = if s.getD i 1 = 1 then 0 else c.getD (i + (c.length - s.length)) 0 := by
  have hc : i + (c.length - s.length) < c.length := by omega
  rw [List.getD_eq_getElem _ _ (by rwa [length_align h]), List.getD_eq_getElem _ _ hi,
    List.getD_eq_getElem _ _ hc]
  simp [align, Nat.add_comm]

theorem within_iff {s : Shape} {c : List Nat} :
    s.Within c ↔ c.length = s.length ∧ ∀ i < s.length, c.getD i 0 < s.getD i 1 := by
  rw [Within, List.forall₂_iff_get]
  refine and_congr_right fun hlen => ?_
  constructor
  · intro h i hi
    rw [List.getD_eq_getElem _ _ hi, List.getD_eq_getElem _ _ (hlen ▸ hi)]
    exact h i (hlen ▸ hi) hi
  · intro h i h₁ h₂
    have := h i h₂
    rwa [List.getD_eq_getElem _ _ h₁, List.getD_eq_getElem _ _ h₂] at this

/-- Broadcasting does not make the volume smaller. -/
theorem BroadcastsTo.volume_le {a s : Shape} (h : a.BroadcastsTo s) : a.volume ≤ s.volume := by
  obtain ⟨hlen, hext⟩ := h
  have hpad : (a.padTo s.length).volume = a.volume := by simp [padTo, volume]
  have hle : List.Forall₂ (· ≤ ·) ((a.padTo s.length).map (max 1)) (s.map (max 1)) := by
    rw [List.forall₂_iff_get]
    refine ⟨by simp [length_padTo hlen], fun i hi hi' => ?_⟩
    have hi₁ : i < (a.padTo s.length).length := by simpa using hi
    have hi₂ : i < s.length := by simpa using hi'
    have he := hext i hi₂
    rw [extentAt, List.getD_eq_getElem _ _ hi₁, List.getD_eq_getElem _ _ hi₂] at he
    simp only [List.get_eq_getElem, List.getElem_map]
    omega
  rw [← hpad]
  exact List.Forall₂.prod_le_prod' hle

theorem within_align {a s : Shape} {c : List Nat} (h : a.BroadcastsTo s) (hc : s.Within c) :
    a.Within (a.align c) := by
  obtain ⟨hlen, hext⟩ := h
  obtain ⟨hcs, hlt⟩ := within_iff.mp hc
  refine within_iff.mpr ⟨length_align (by omega), fun i hi => ?_⟩
  rw [getD_align (by omega) hi, hcs]
  have hax := hext (i + (s.length - a.length)) (by omega)
  have hlt' := hlt (i + (s.length - a.length)) (by omega)
  rw [extentAt_add] at hax
  split
  · omega
  · omega

theorem align_self {s : Shape} {c : List Nat} (h : s.Within c) : s.align c = c := by
  rw [align, h.length_eq, Nat.sub_self, List.drop_zero]
  induction h with
  | nil => rfl
  | @cons i e c s hi _ ih =>
    rw [List.zipWith_cons_cons, ih]
    split <;> congr 1
    omega

theorem position_replicate_zero (s : Shape) (k : Nat) :
    position s (List.replicate k 0) = 0 := by
  induction s generalizing k with
  | nil => simp
  | cons e s ih =>
    cases k with
    | zero => simp
    | succ k => simp [List.replicate_succ, ih]

/-- The walk of a broadcast reads the aligned coordinate. -/
theorem position_source_align (s : Shape) (c : List Nat) :
    (s.padTo c.length).position
        (source ((s.padTo c.length).map fun e i => if e = 1 then 0 else i) c)
      = s.position (s.align c) := by
  have hsplit : source ((s.padTo c.length).map fun e i => if e = 1 then 0 else i)
      (c.take (c.length - s.length) ++ c.drop (c.length - s.length))
      = List.replicate (c.length - s.length) 0 ++ s.align c := by
    rw [source, padTo, List.map_append, List.map_replicate, List.zipWith_append (by simp), align,
      List.zipWith_map_left]
    congr 1
    apply List.ext_getElem
    · simp
    · intro i h₁ h₂
      simp
  rw [List.take_append_drop] at hsplit
  rw [hsplit, padTo, position_append (by simp), position_replicate_zero, Nat.zero_mul,
    Nat.zero_add]

end Shape

end SpmdArray
