import Mathlib.Algebra.BigOperators.Group.Finset.Basic
import Mathlib.Data.List.Lex
import SpmdArray.Proofs.TiledEntries

/-!
# Row-major order

A walk through a tensor visits the coordinates of its shape in row-major order: the last axis moves
first, so the coordinates come in lexicographic order, and each of them comes once.  At a coordinate
the walk reads the offset that the axes add up to, each with its source entry times its stride.  An
offset is a size, so a walk gets through exactly if its coordinates can be counted and all of these
sums are sizes.  Walks of broadcast, tiled and sliced tensors stay below the number of elements of
the tensor that they read.

## Main results

* `Shape.coords_sorted` — the order of the coordinates.
* `Shape.offset_eq_sum` — an offset as a sum over the axes.
* `Shape.gatherOffsets_eq_ok_iff` — when a walk gets through.
* `Shape.gatherOffsets_strides` — a walk by the strides of its own shape counts.
* `Shape.narrowOffsets_lt` — a slice stays in range.
* `Shape.walks_rowMajor` — what is visited, in which order, and what is read.
* `Shape.walks_not_total` — sums that are no sizes are not read.
-/

namespace SpmdArray

namespace Shape

variable {s t : Shape}

/-! ### The order of the coordinates -/

/-- The coordinate at an earlier position is the smaller one in lexicographic order. -/
theorem digits_lt {j k : Nat} (h : j < k) (hk : k < s.prod) : s.digits j < s.digits k := by
  induction s generalizing j k with
  | nil =>
    rw [List.prod_nil] at hk
    omega
  | cons e s ih =>
    rw [List.prod_cons] at hk
    have hpos : 0 < s.prod := Nat.pos_of_lt_mul_left hk
    rw [digits_cons, digits_cons, List.cons_lt_cons_iff]
    rcases Nat.lt_or_ge (j / s.prod) (k / s.prod) with hlt | hge
    · exact .inl hlt
    · -- the first entries are equal, so the later axes decide
      have heq : j / s.prod = k / s.prod := Nat.le_antisymm (Nat.div_le_div_right h.le) hge
      have hj := Nat.div_add_mod j s.prod
      have hk' := Nat.div_add_mod k s.prod
      rw [heq] at hj
      exact .inr ⟨heq, ih (by omega) (Nat.mod_lt _ hpos)⟩

/-- **The coordinates come in lexicographic order**, each of them once. -/
theorem coords_sorted (s : Shape) : s.coords.Pairwise (· < ·) := by
  rw [coords, List.pairwise_map]
  refine List.pairwise_lt_range.imp_of_mem ?_
  intro j k _ hk hlt
  exact digits_lt hlt (List.mem_range.mp hk)

/-! ### Offsets -/

/-- **An offset is a sum over the axes** of source entries times strides. -/
theorem offset_eq_sum {sources : List (Nat → Nat)} {strides c : List Nat}
    (hstrides : strides.length = sources.length) (hc : c.length = sources.length) :
    offset sources strides c
      = ∑ i ∈ Finset.range sources.length,
          sources.getD i id (c.getD i 0) * strides.getD i 0 := by
  induction sources generalizing strides c with
  | nil => rfl
  | cons f fs ih =>
    cases strides with
    | nil => cases hstrides
    | cons d ds =>
      cases c with
      | nil => cases hc
      | cons i c =>
        rw [offset, ih (by simpa using hstrides) (by simpa using hc), List.length_cons,
          Finset.sum_range_succ', Nat.add_comm]
        simp

/-- The offsets of a walk whose source entries are given by a function of the axis. -/
theorem offset_map_range {n : Nat} {strides c : List Nat} (f : Nat → Nat → Nat)
    (hstrides : strides.length = n) (hc : c.length = n) :
    offset ((List.range n).map f) strides c
      = ∑ i ∈ Finset.range n, f i (c.getD i 0) * strides.getD i 0 := by
  rw [offset_eq_sum (by simpa using hstrides) (by simpa using hc), List.length_map,
    List.length_range]
  refine Finset.sum_congr rfl ?_
  intro i hi
  simp [Finset.mem_range.mp hi]

/-- A walk that reads each coordinate itself. -/
theorem source_id {c : List Nat} (h : c.length = s.length) :
    source ((List.range s.ndim).map fun _ i => i) c = c := by
  apply List.ext_getElem
  · simp [source, h]
  · intro i h₁ h₂
    simp [source]

/-- **When a walk gets through**: the coordinates can be counted, and all offsets are sizes. -/
theorem gatherOffsets_eq_ok_iff {strides offsets : List Nat} {sources : List (Nat → Nat)} :
    gatherOffsets s strides sources = .ok offsets ↔
      s.numel = .ok s.prod ∧ (∀ c, s.Within c → offset sources strides c < Size.modulus) ∧
        offsets = s.coords.map (offset sources strides) := by
  constructor
  · intro h
    rcases gatherOffsets_eq_ok_or s strides sources with ⟨hn, hread⟩ | hread
    · have hlt := h
      rw [gatherOffsets_eq hn] at hlt
      split at hlt
      · next hall =>
        exact ⟨hn, fun c hc => hall c (mem_coords.mpr hc), Except.ok.inj (h.symm.trans hread)⟩
      · cases hlt
    · cases h.symm.trans hread
  · rintro ⟨hn, hall, rfl⟩
    rw [gatherOffsets_eq hn, if_pos fun c hc => hall c (mem_coords.mp hc)]

/-- **A walk by the strides of its own shape counts** from the first element to the last. -/
theorem gatherOffsets_strides {strides : List Nat} (hs : s.numel = .ok s.prod)
    (h : s.strides = .ok strides) :
    gatherOffsets s strides ((List.range s.ndim).map fun _ i => i) = .ok (List.range s.prod) := by
  obtain rfl : s.steps = strides := by
    rcases s.strides_eq_ok_or with heq | heq
    · exact Except.ok.inj (heq.symm.trans h)
    · cases heq.symm.trans h
  have hread : ∀ c ∈ s.coords,
      offset ((List.range s.ndim).map fun _ i => i) s.steps c = s.position c := fun c hc => by
    rw [offset_steps, source_id (mem_coords.mp hc).length_eq]
  refine (gatherOffsets_of_lt hs hread fun c hc => ?_).trans (congrArg Except.ok ?_)
  · exact (position_lt (mem_coords.mp hc)).trans (prod_lt_of_numel hs)
  · rw [coords, List.map_map]
    refine (List.map_congr_left fun k hk => ?_).trans (List.map_id _)
    exact position_digits (List.mem_range.mp hk)

/-! ### Walks in range -/

/-- **A slice reads storage in range.** -/
theorem narrowOffsets_lt {dim start len : Nat} {offsets : List Nat} (hdim : dim < s.ndim)
    (h : start + len ≤ s.getD dim 1) (hoff : narrowOffsets s dim start len = .ok offsets) :
    ∀ i ∈ offsets, i < s.prod := by
  rcases narrowOffsets_eq_ok_or hdim start len with ⟨-, heq⟩ | heq
  · obtain rfl := Except.ok.inj (hoff.symm.trans heq)
    intro i hi
    obtain ⟨c, hc, rfl⟩ := List.mem_map.mp hi
    exact position_lt (within_shift h (mem_coords.mp hc))
  · cases hoff.symm.trans heq

/-- **What a walk visits, in which order, and what it reads.**  The coordinates of a shape are as
many as the product of its extents says, and come in lexicographic order.  For each of them a walk
reads one offset, the sum over the axes of the source entry times the stride, if the coordinates can
be counted and all of these sums are sizes; otherwise it overflows.  By the strides of the shape
itself a walk counts up from zero.  Broadcasting, tiling and slicing read offsets below the number
of elements of the source.  Nothing overflows as long as the volumes of the shapes are sizes. -/
theorem walks_rowMajor :
    (∀ s : Shape, s.coords.length = s.prod ∧ s.coords.Pairwise (· < ·) ∧
      ∀ c, c ∈ s.coords ↔ s.Within c) ∧
    (∀ (s : Shape) (strides : List Nat) (f : Nat → Nat → Nat), strides.length = s.ndim →
      let walk := gatherOffsets s strides ((List.range s.ndim).map f)
      let sum := fun c => ∑ i ∈ Finset.range s.ndim, f i (List.getD c i 0) * strides.getD i 0
      ((∃ offsets, walk = .ok offsets) ↔
        s.numel = .ok s.prod ∧ ∀ c, s.Within c → sum c < Size.modulus) ∧
      ((∃ offsets, walk = .ok offsets ∧ offsets.length = s.prod ∧
        ∀ (k : Nat) (c : List Nat), s.coords[k]? = some c → offsets[k]? = some (sum c)) ∨
        walk = .error .overflow)) ∧
    (∀ (s : Shape) (strides : List Nat), s.numel = .ok s.prod → s.strides = .ok strides →
      gatherOffsets s strides ((List.range s.ndim).map fun _ i => i) = .ok (List.range s.prod)) ∧
    (∀ s : Shape, s.volume < Size.modulus →
      s.numel = .ok s.prod ∧ ∃ strides, s.strides = .ok strides) ∧
    (∀ s t : Shape, s.BroadcastsTo t →
      (∀ offsets, broadcastOffsets s t = .ok offsets → ∀ i ∈ offsets, i < s.prod) ∧
      (t.volume < Size.modulus → ∃ offsets, broadcastOffsets s t = .ok offsets)) ∧
    (∀ (s : Shape) (ms : List Nat), s.length = ms.length →
      (∀ offsets, repeatOffsets s ms = .ok offsets → ∀ i ∈ offsets, i < s.prod) ∧
      (s.volume < Size.modulus → (s.times ms).volume < Size.modulus →
        ∃ offsets, repeatOffsets s ms = .ok offsets)) ∧
    (∀ (s : Shape) (dim start len : Nat), dim < s.ndim → start + len ≤ s.getD dim 1 →
      (∀ offsets, narrowOffsets s dim start len = .ok offsets → ∀ i ∈ offsets, i < s.prod) ∧
      (s.volume < Size.modulus → ∃ offsets, narrowOffsets s dim start len = .ok offsets)) := by
  refine ⟨?_, ?_, fun s strides => gatherOffsets_strides, ?_, ?_, ?_, ?_⟩
  · intro s
    exact ⟨s.length_coords, s.coords_sorted, fun c => mem_coords⟩
  · intro s strides f hstrides walk sum
    have hsum : ∀ c, s.Within c → offset ((List.range s.ndim).map f) strides c = sum c :=
      fun c hc => offset_map_range f hstrides hc.length_eq
    refine ⟨?_, ?_⟩
    · simp only [walk, gatherOffsets_eq_ok_iff, exists_and_left, exists_eq, and_true]
      exact and_congr_right fun _ => forall₂_congr fun c hc => by rw [hsum c hc]
    · refine (gatherOffsets_eq_ok_or _ _ _).imp (fun ⟨_, hread⟩ => ?_) id
      refine ⟨_, hread, by simp, ?_⟩
      intro k c hk
      rw [List.getElem?_map, hk, Option.map_some,
        hsum c (mem_coords.mp (List.mem_of_getElem? hk))]
  · intro s hs
    exact ⟨numel_of_volume_lt hs, _, strides_of_volume_lt hs⟩
  · intro s t h
    exact ⟨fun offsets hoff => (broadcastOffsets_lt h hoff).2,
      fun ht => ⟨_, broadcastOffsets_eq (h.volume_le.trans_lt ht) ht h⟩⟩
  · intro s ms hlen
    exact ⟨fun offsets hoff => (repeatOffsets_lt hlen hoff).2,
      fun hs ht => ⟨_, repeatOffsets_eq hlen hs ht⟩⟩
  · intro s dim start len hdim h
    exact ⟨fun offsets => narrowOffsets_lt hdim h, fun hs => ⟨_, narrowOffsets_eq hs hdim h⟩⟩

/-- A walk over two rows and three columns, whose source has ten elements a row and is read from the
second row on; the walk of its own strides counts, and a slice of two of its columns stays in
range. -/
theorem walks_rowMajor_six_coordinates :
    coords [2, 3] = [[0, 0], [0, 1], [0, 2], [1, 0], [1, 1], [1, 2]] ∧
    (∃ offsets, gatherOffsets [2, 3] [10, 1]
        ((List.range 2).map fun i j => if i = 0 then j + 1 else j) = .ok offsets ∧
      offsets[5]? = some 22) ∧
    gatherOffsets [2, 3] [3, 1] ((List.range 2).map fun _ i => i) = .ok [0, 1, 2, 3, 4, 5] ∧
    ∃ offsets, narrowOffsets [2, 3] 1 1 2 = .ok offsets ∧ ∀ i ∈ offsets, i < 6 := by
  obtain ⟨-, hwalk, hcount, -, -, -, hslice⟩ := walks_rowMajor
  refine ⟨by decide, ?_, hcount [2, 3] [3, 1] (by decide) (by decide), ?_⟩
  · obtain ⟨offsets, hread, -, hsum⟩ := (hwalk [2, 3] [10, 1]
      (fun i j => if i = 0 then j + 1 else j) rfl).2.resolve_right (by decide)
    exact ⟨offsets, hread, hsum 5 [1, 2] (by decide)⟩
  · obtain ⟨hrange, hok⟩ := hslice [2, 3] 1 1 2 (by decide) (by decide)
    obtain ⟨offsets, hoff⟩ := hok (by decide)
    exact ⟨offsets, hoff, hrange offsets hoff⟩

/-- **Sums that are no sizes are not read.**  Not every walk over coordinates that can be counted
gets through: the second entry of an axis with stride `2 ^ 63`, read from source entry 2, has the
offset `2 ^ 64`; so has the slice of two rows of two elements that begins at row `2 ^ 63`. -/
theorem walks_not_total :
    gatherOffsets [2] [2 ^ 63] [fun i => 2 * i] = .error .overflow ∧
    narrowOffsets [3, 2] 0 (2 ^ 63) 1 = .error .overflow ∧
    ¬ ∀ (s : Shape) (strides : List Nat) (f : Nat → Nat → Nat), s.prod < Size.modulus →
      strides.length = s.ndim → ∃ offsets,
        gatherOffsets s strides ((List.range s.ndim).map f) = .ok offsets ∧
        offsets.length = s.prod ∧
        ∀ (k : Nat) (c : List Nat), s.coords[k]? = some c → offsets[k]?
          = some (∑ i ∈ Finset.range s.ndim, f i (c.getD i 0) * strides.getD i 0) := by
  have hfail : gatherOffsets [2] [2 ^ 63] [fun i => 2 * i] = .error .overflow := by decide
  refine ⟨hfail, by decide, fun hall => ?_⟩
  obtain ⟨offsets, hoff, -⟩ := hall [2] [2 ^ 63] (fun _ i => 2 * i) (by decide) rfl
  cases hfail.symm.trans hoff

end Shape

end SpmdArray
