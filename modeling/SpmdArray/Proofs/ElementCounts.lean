import SpmdArray.Proofs.TiledEntries

/-!
# What shapes say about storage

A tensor is made of a shape and a buffer if the product of the extents, as a machine size, is the
number of elements.  The functions that make, reshape and repeat tensors all see to it, and none of
them sees to more.  On a machine that checks products that is enough: whatever the three functions
return, its shape tells how many elements are stored, and a repeated tensor has the extents that it
should have.

On a machine without checks the product wraps around.  There the shape of a result tells how many
elements are stored exactly if the product of its extents is a size, and a repeated tensor has the
extents that it should have exactly if these are sizes.  Beyond that there are tensors whose shapes
speak of elements that are not stored, and each of the three functions makes some.

## Main definitions

* `Tensor.Truthful` — the shape tells how many elements are stored.

## Main results

* `Tensor.tile_eq_ok`, `Tensor.tileOn_wraps_eq_ok` — what comes out of tiling on either machine.
* `Tensor.Exact.tileOn_wraps_succeeds` — whatever the multiples, an exact tensor is tiled on a
  machine without checks.
* `Tensor.truthful_results` — when the results of the three functions are truthful.
-/

namespace SpmdArray

/-! ### Shapes on a machine without checks -/

namespace Shape

variable {s : Shape} {ms c ds : List Nat}

theorem map_mod_eq_self_iff :
    s.map (· % Size.modulus) = s ↔ ∀ e ∈ s, e < Size.modulus := by
  refine Iff.trans ⟨fun h => ?_, fun h => ?_⟩
    (forall₂_congr fun e _ => Nat.mod_eq_iff_lt (show Size.modulus ≠ 0 by decide))
  · exact List.map_eq_map_iff.mp (h.trans s.map_id.symm)
  · exact (List.map_congr_left h).trans s.map_id

theorem numelOn_wraps (s : Shape) : s.numelOn .wraps = .ok (s.prod % Size.modulus) :=
  Size.product_wraps s

/-- The number of elements does not depend on whether the extents wrap around first. -/
theorem prod_map_mod (s : Shape) :
    List.prod (s.map (· % Size.modulus)) % Size.modulus = s.prod % Size.modulus := by
  induction s with
  | nil => rfl
  | cons e s ih =>
    rw [List.map_cons, List.prod_cons, List.prod_cons, Nat.mul_mod, ih, Nat.mod_mod,
      ← Nat.mul_mod]

theorem tiledOn_wraps (s : Shape) (ms : List Nat) :
    tiledOn .wraps s ms = .ok ((s.times ms).map (· % Size.modulus)) := by
  rw [tiledOn, Size.mapM_store_wraps fun p : Nat × Nat => p.1 * p.2, times, List.map_zipWith,
    List.zip, List.map_zipWith]

theorem exists_stridesOn_wraps (s : Shape) : ∃ ds, stridesOn .wraps s = .ok ds := by
  induction s with
  | nil => exact ⟨_, rfl⟩
  | cons e₀ s ih =>
    cases s with
    | nil => exact ⟨_, rfl⟩
    | cons e s =>
      obtain ⟨ds, hds⟩ := ih
      rw [stridesOn, hds]
      exact ⟨_, rfl⟩

/-- Strides that are sizes do not wrap around. -/
theorem stridesOn_wraps_of_stops (h : s.strides = .ok ds) : stridesOn .wraps s = .ok ds := by
  induction s generalizing ds with
  | nil => exact h
  | cons e₀ s ih =>
    cases s with
    | nil => exact h
    | cons e s =>
      change stridesOn .stops (e₀ :: e :: s) = _ at h
      rw [stridesOn] at h
      obtain ⟨ds', hrest, h⟩ := bind_eq_ok h
      obtain ⟨d, hd, h⟩ := bind_eq_ok h
      obtain ⟨hlt, rfl⟩ := Size.store_eq_ok_iff.mp hd
      rw [stridesOn, ih hrest, ok_bind, Size.store_of_lt hlt, ok_bind]
      exact h

/-- A walk reads as many positions as there are elements, and they wrap around. -/
theorem gatherOffsetsOn_wraps (s : Shape) (ds : List Nat) (sources : List (Nat → Nat)) :
    gatherOffsetsOn .wraps s ds sources
      = .ok ((s.coords.take (s.prod % Size.modulus)).map fun c =>
        offset sources ds c % Size.modulus) := by
  rw [gatherOffsetsOn_eq s.numelOn_wraps (Nat.mod_le _ _), Size.mapM_store_wraps]

/-- What wraps around only becomes smaller. -/
theorem within_of_map_mod (hc : Shape.Within (s.map (· % Size.modulus)) c) : s.Within c := by
  induction s generalizing c with
  | nil => exact hc
  | cons e s ih =>
    cases hc with
    | @cons i _ c _ hi hc => exact within_cons.mpr ⟨hi.trans_le (Nat.mod_le _ _), ih hc⟩

/-- The positions that are read when a tensor is tiled. -/
theorem repeatOffsetsOn_wraps (h : stridesOn .wraps s = .ok ds) (ms : List Nat) :
    let out : Shape := (s.times ms).map (· % Size.modulus)
    repeatOffsetsOn .wraps s ms
      = .ok ((out.coords.take ((s.times ms).prod % Size.modulus)).map fun c =>
        offset (s.map fun e i => i % e) ds c % Size.modulus) := by
  rw [repeatOffsetsOn, tiledOn_wraps, ok_bind, h, ok_bind, gatherOffsetsOn_wraps, prod_map_mod]

end Shape

/-! ### Copying -/

/-- What is copied has one element for each position. -/
theorem Buffer.length_pick {α : Type} {xs : Array α} {offsets : List Nat} {ys : List α}
    (h : Buffer.pick xs offsets = .ok ys) : ys.length = offsets.length := by
  induction offsets generalizing ys with
  | nil =>
    obtain rfl := Except.ok.inj h
    rfl
  | cons i offsets ih =>
    rw [pick, List.mapM_cons] at h
    obtain ⟨x, -, h⟩ := bind_eq_ok h
    obtain ⟨rest, hrest, h⟩ := bind_eq_ok h
    obtain rfl := Except.ok.inj h
    exact congrArg (· + 1) (ih hrest)

theorem Buffer.length_gather {b w : Buffer} {offsets : List Nat}
    (h : b.gather offsets = .ok w) : w.length = offsets.length := by
  unfold gather at h
  cases hpick : pick b.data.toArray offsets with
  | error f =>
    rw [hpick] at h
    cases h
  | ok ys =>
    rw [hpick] at h
    obtain rfl := Except.ok.inj h
    exact length_pick hpick

namespace Tensor

variable {t r : Tensor} {s : Shape} {b : Buffer} {ms : List Nat} {o : Overflow}

/-- The shape tells how many elements are stored: their number is the product of the extents. -/
def Truthful (t : Tensor) : Prop := t.shape.prod = t.numel

/-! ### What comes out -/

/-- What a tensor becomes that is tiled: it is given its leading axes, or copied. -/
theorem tileOn_eq_ok (h : t.tileOn o ms = .ok r) :
    t.ndim ≤ ms.length ∧
      (ms.all (· == 1) = true ∧ t.reshapeOn o (t.shape.padTo ms.length) = .ok r ∨
        ∃ offsets, Shape.tiledOn o (t.shape.padTo ms.length) ms = .ok r.shape ∧
          Shape.repeatOffsetsOn o (t.shape.padTo ms.length) ms = .ok offsets ∧
          r.numel = offsets.length) := by
  have hle : t.ndim ≤ ms.length := by
    by_contra hlt
    rw [tileOn, if_pos (Nat.not_le.mp hlt)] at h
    cases h
  refine ⟨hle, ?_⟩
  rw [tileOn, if_neg (Nat.not_lt.mpr hle)] at h
  split at h
  · next hall => exact .inl ⟨hall, h⟩
  · right
    obtain ⟨shape, hshape, h⟩ := bind_eq_ok h
    obtain ⟨offsets, hoffsets, h⟩ := bind_eq_ok h
    obtain ⟨w, hw, h⟩ := bind_eq_ok h
    obtain rfl := Except.ok.inj h
    exact ⟨offsets, lift_eq_ok_iff.mp hshape, lift_eq_ok_iff.mp hoffsets,
      Buffer.length_gather (lift_eq_ok_iff.mp hw)⟩

/-- **What comes out of tiling** on a machine that checks products. -/
theorem tile_eq_ok (h : t.tile ms = .ok r) :
    let extents := (t.shape.padTo ms.length).times ms
    r.shape = extents ∧ r.numel = extents.prod := by
  intro extents
  obtain ⟨hle, ⟨hall, h⟩ | ⟨offsets, hshape, hoffsets, hnumel⟩⟩ := tileOn_eq_ok h
  · have hsame : extents = t.shape.padTo ms.length :=
      Shape.times_of_all_one (Shape.length_padTo hle) hall
    obtain ⟨hn, rfl⟩ := reshapeOn_eq_ok_iff.mp h
    rw [hsame]
    exact ⟨rfl, Shape.prod_of_numel hn⟩
  · rcases Shape.repeatOffsets_eq_ok_or (t.shape.padTo ms.length) ms with ⟨he, -, heq⟩ | heq
    · rw [Shape.tiledOn_of_lt he] at hshape
      obtain rfl := Except.ok.inj (hoffsets.symm.trans heq)
      exact ⟨(Except.ok.inj hshape).symm, by rw [hnumel]; simp [extents]⟩
    · cases hoffsets.symm.trans heq

/-- **What comes out of tiling** on a machine without checks: the extents and the number of elements
wrap around. -/
theorem tileOn_wraps_eq_ok (he : ∀ e ∈ t.shape, e < Size.modulus)
    (h : t.tileOn .wraps ms = .ok r) :
    let extents := (t.shape.padTo ms.length).times ms
    r.shape = extents.map (· % Size.modulus) ∧ r.numel = extents.prod % Size.modulus := by
  intro extents
  obtain ⟨hle, ⟨hall, h⟩ | ⟨offsets, hshape, hoffsets, hnumel⟩⟩ := tileOn_eq_ok h
  · have hsame : extents = t.shape.padTo ms.length :=
      Shape.times_of_all_one (Shape.length_padTo hle) hall
    obtain ⟨hn, rfl⟩ := reshapeOn_eq_ok_iff.mp h
    rw [hsame, Shape.map_mod_eq_self_iff.mpr (Shape.mem_padTo_lt he)]
    exact ⟨rfl, (Except.ok.inj ((Shape.numelOn_wraps _).symm.trans hn)).symm⟩
  · rw [Shape.tiledOn_wraps] at hshape
    refine ⟨(Except.ok.inj hshape).symm, ?_⟩
    obtain ⟨ds, hds⟩ := Shape.exists_stridesOn_wraps (t.shape.padTo ms.length)
    obtain rfl := Except.ok.inj (hoffsets.symm.trans (Shape.repeatOffsetsOn_wraps hds ms))
    rw [hnumel, List.length_map, List.length_take, Shape.length_coords, ← Shape.prod_map_mod]
    exact Nat.min_eq_left (Nat.mod_le _ _)

/-- **Whatever the multiples, an exact tensor is tiled on a machine without checks**, even if no
size holds the extents or the number of elements of the result. -/
theorem Exact.tileOn_wraps_succeeds (ht : t.Exact) (h : t.ndim ≤ ms.length) :
    ∃ r, t.tileOn .wraps ms = .ok r := by
  have hpad := ht.pad ms.length
  have hlen : (t.pad ms.length).shape.length = ms.length := Shape.length_padTo h
  rw [tileOn, if_neg (Nat.not_lt.mpr h)]
  split
  · refine ⟨_, reshapeOn_eq_ok_iff.mpr ⟨?_, rfl⟩⟩
    rw [Shape.numelOn_wraps, ht.count, Shape.prod_padTo, Nat.mod_eq_of_lt ht.prod_lt]
  · have hsteps := Shape.stridesOn_wraps_of_stops (Shape.strides_of_volume_lt hpad.sized)
    -- what is read stands in the tensor, so that its position does not wrap around
    obtain ⟨w, hw⟩ : ∃ w, t.buffer.gather
        (((Shape.coords (((t.pad ms.length).shape.times ms).map (· % Size.modulus))).take
          (((t.pad ms.length).shape.times ms).prod % Size.modulus)).map fun c =>
            Shape.offset ((t.pad ms.length).shape.map fun e i => i % e)
              (t.pad ms.length).shape.steps c % Size.modulus) = .ok w := by
      have hwithin : ∀ c ∈ (Shape.coords (((t.pad ms.length).shape.times ms).map
          (· % Size.modulus))).take (((t.pad ms.length).shape.times ms).prod % Size.modulus),
          (t.pad ms.length).shape.Within ((t.pad ms.length).shape.remainders c) := fun c hc =>
        Shape.within_remainders hlen
          (Shape.within_of_map_mod (Shape.mem_coords.mp (List.mem_of_mem_take hc)))
      refine ⟨_, (congrArg (fun u : Tensor => u.buffer.gather _) hpad.eq_tabulate).trans
        (gather_map_tabulate hwithin fun c hc => ?_)⟩
      rw [Shape.offset_mod]
      exact Nat.mod_eq_of_lt ((Shape.position_lt (hwithin c hc)).trans hpad.prod_lt)
    have hoffsets : Shape.repeatOffsetsOn .wraps (t.shape.padTo ms.length) ms = _ :=
      Shape.repeatOffsetsOn_wraps hsteps ms
    simp only [Shape.tiledOn_wraps, hoffsets, hw, lift_ok, ok_bind]
    exact ⟨_, rfl⟩

/-! ### Truthful results -/

/-- **When the results are truthful.**  On a machine that checks products, a shape that is accepted
for a buffer or for the elements of a tensor tells how many elements there are, and a tensor that is
tiled has the products of its extents with the multiples for its extents, and tells how many
elements there are as well.

On a machine without checks, a shape is accepted exactly if the product of its extents wraps around
to the number of elements; then it tells how many there are exactly if the product is a size.  A
tensor that is tiled has the products for its extents and as many elements as these should have,
except that all of them wrap around.  So the extents are the products exactly if these are sizes,
and they tell how many elements there are exactly if their own product is a size. -/
theorem truthful_results (s : Shape) (b : Buffer) (t : Tensor) (ms : List Nat) :
    let extents := (t.shape.padTo ms.length).times ms
    ((∀ r, ofBuffer s b = .ok r → r.shape = s ∧ r.buffer = b ∧ r.Truthful) ∧
      (∀ r, t.reshape s = .ok r → r.shape = s ∧ r.buffer = t.buffer ∧ r.Truthful) ∧
      ∀ r, t.tile ms = .ok r → r.shape = extents ∧ r.Truthful) ∧
    ((∃ r, ofBufferOn .wraps s b = .ok r) ↔ s.prod % Size.modulus = b.length) ∧
    (∀ r, ofBufferOn .wraps s b = .ok r →
      r.shape = s ∧ r.buffer = b ∧ (r.Truthful ↔ s.prod < Size.modulus)) ∧
    ((∃ r, t.reshapeOn .wraps s = .ok r) ↔ s.prod % Size.modulus = t.numel) ∧
    (∀ r, t.reshapeOn .wraps s = .ok r →
      r.shape = s ∧ r.buffer = t.buffer ∧ (r.Truthful ↔ s.prod < Size.modulus)) ∧
    (t.Exact → t.ndim ≤ ms.length → ∃ r, t.tileOn .wraps ms = .ok r) ∧
    ∀ r, (∀ e ∈ t.shape, e < Size.modulus) → t.tileOn .wraps ms = .ok r →
      r.shape = extents.map (· % Size.modulus) ∧ r.numel = extents.prod % Size.modulus ∧
      (r.shape = extents ↔ ∀ e ∈ extents, e < Size.modulus) ∧
      (r.Truthful ↔ r.shape.prod < Size.modulus) ∧
      (r.Truthful ∧ r.shape = extents ↔
        extents.prod < Size.modulus ∧ ∀ e ∈ extents, e < Size.modulus) := by
  intro extents
  have htruthful : ∀ {r : Tensor} {n : Nat}, r.numel = n % Size.modulus →
      r.shape.prod % Size.modulus = n % Size.modulus →
      (r.Truthful ↔ r.shape.prod < Size.modulus) := by
    intro r n hn hshape
    rw [Truthful, hn, ← hshape, eq_comm]
    exact Nat.mod_eq_iff_lt (by decide)
  refine ⟨⟨?_, ?_, ?_⟩, ?_, ?_, ?_, ?_, Exact.tileOn_wraps_succeeds, ?_⟩
  · intro r h
    obtain ⟨hn, rfl⟩ := ofBufferOn_eq_ok_iff.mp h
    exact ⟨rfl, rfl, (Shape.prod_of_numel hn).symm⟩
  · intro r h
    obtain ⟨hn, rfl⟩ := reshapeOn_eq_ok_iff.mp h
    exact ⟨rfl, rfl, (Shape.prod_of_numel hn).symm⟩
  · intro r h
    obtain ⟨hshape, hnumel⟩ := tile_eq_ok h
    exact ⟨hshape, (congrArg List.prod hshape).trans hnumel.symm⟩
  · simp only [ofBufferOn_eq_ok_iff, Shape.numelOn_wraps, Except.ok.injEq, exists_and_left,
      exists_eq, and_true]
  · intro r h
    obtain ⟨hn, rfl⟩ := ofBufferOn_eq_ok_iff.mp h
    rw [Shape.numelOn_wraps] at hn
    exact ⟨rfl, rfl, htruthful (Except.ok.inj hn).symm rfl⟩
  · simp only [reshapeOn_eq_ok_iff, Shape.numelOn_wraps, Except.ok.injEq, exists_and_left,
      exists_eq, and_true]
  · intro r h
    obtain ⟨hn, rfl⟩ := reshapeOn_eq_ok_iff.mp h
    rw [Shape.numelOn_wraps] at hn
    exact ⟨rfl, rfl, htruthful (Except.ok.inj hn).symm rfl⟩
  · intro r he h
    obtain ⟨hshape, hnumel⟩ := tileOn_wraps_eq_ok he h
    have hextents : r.shape = extents ↔ ∀ e ∈ extents, e < Size.modulus := by
      rw [hshape]
      exact Shape.map_mod_eq_self_iff
    have hr : r.Truthful ↔ r.shape.prod < Size.modulus := by
      refine htruthful hnumel ?_
      rw [hshape, Shape.prod_map_mod]
    refine ⟨hshape, hnumel, hextents, hr, ?_⟩
    rw [← hextents, hr]
    exact and_congr_left fun heq => by rw [heq]

/-- Without checks a shape of `2 ^ 64` elements is accepted for a buffer and for a tensor without
any, and two words that are repeated `2 ^ 63` times are lost altogether.  Repeated three times they
are there, on either machine. -/
theorem truthful_results_two_words :
    let none : Buffer := ⟨.u8, []⟩
    let two : Tensor := ⟨[2], ⟨.u8, [.ofInt 1, .ofInt 2]⟩⟩
    (∃ r, ofBufferOn .wraps [2 ^ 32, 2 ^ 32] none = .ok r ∧ ¬ r.Truthful) ∧
    (∃ r, (⟨[0], none⟩ : Tensor).reshapeOn .wraps [2 ^ 32, 2 ^ 32] = .ok r ∧ ¬ r.Truthful) ∧
    (∃ r, two.tileOn .wraps [2 ^ 63] = .ok r ∧ r.Truthful ∧ r.shape ≠ [2 ^ 64]) ∧
    (∃ r, two.tileOn .wraps [3] = .ok r ∧ r.Truthful ∧ r.shape = [6]) ∧
    ∀ r, two.tile [3] = .ok r → r.shape = [6] ∧ r.Truthful := by
  intro none two
  have hmany : ¬ [2 ^ 32, 2 ^ 32].prod < Size.modulus := by decide
  have htwo : two.Exact := ⟨rfl, (by decide : Shape.volume [2] < Size.modulus)⟩
  obtain ⟨-, hmake, hmade, hreshape, hreshaped, -⟩ :=
    truthful_results [2 ^ 32, 2 ^ 32] none ⟨[0], none⟩ []
  obtain ⟨-, -, -, -, -, hlose, hlost⟩ := truthful_results [] none two [2 ^ 63]
  obtain ⟨⟨-, -, hchecked⟩, -, -, -, -, htile, htiled⟩ := truthful_results [] none two [3]
  refine ⟨?_, ?_, ?_, ?_, hchecked⟩
  · obtain ⟨r, hr⟩ := hmake.mpr (by decide)
    exact ⟨r, hr, mt (hmade r hr).2.2.mp hmany⟩
  · obtain ⟨r, hr⟩ := hreshape.mpr (by decide)
    exact ⟨r, hr, mt (hreshaped r hr).2.2.mp hmany⟩
  · obtain ⟨r, hr⟩ := hlose htwo (by decide)
    obtain ⟨hshape, -, -, htruthful, -⟩ := hlost r htwo.extents hr
    have hnone : r.shape = [0] := hshape
    refine ⟨r, hr, htruthful.mpr (hnone ▸ by decide), ?_⟩
    rw [hnone]
    decide
  · obtain ⟨r, hr⟩ := htile htwo (by decide)
    obtain ⟨-, -, -, -, hboth⟩ := htiled r htwo.extents hr
    exact ⟨r, hr, hboth.mpr (by decide)⟩

end Tensor

end SpmdArray
