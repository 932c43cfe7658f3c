import Mathlib.Algebra.BigOperators.Ring.List
import SpmdArray.Proofs.Stored
import SpmdArray.Sharded.Unary

/-!
# Repeating a tensor

A tensor is brought to a longer shape in two ways.  Broadcasting keeps to entry 0 along the axes
of extent 1; tiling goes through the entries of an axis again and again, as often as it is told,
and does not move anything if it is told to do so once along every axis.  A remainder by zero is
never taken, because a tensor with an extent 0 has nothing to go through.  Where the shape of the
tensor broadcasts to the longer one both read the same entries.

## Main definitions

* `Shape.times` — the extents of a tensor that is repeated.
* `Shape.remainders` — the coordinate that is read.
* `Tensor.pad` — a tensor with leading axes of extent 1; `Tensor.repeated` — a tensor that is copied
  as often as it is told.
* `Shape.multiples s t` — how often a tensor of shape `s` is repeated along the axes of `t`.

## Main results

* `Shape.repeatOffsets_eq_ok_or`, `Shape.repeatOffsets_eq` — the positions that are read.
* `Tensor.Stored.repeated_eq_or`, `Tensor.Exact.repeated_eq` — what is copied.
* `Tensor.Stored.tile_eq_or`, `Tensor.Stored.tile_eq_of_repeated` — the two ways to tile.
* `Tensor.Stored.tileTo_eq_or` — repeating a tensor is broadcasting it.
-/

namespace SpmdArray

/-! ### Shapes that are repeated -/

namespace Shape

variable {s t : Shape} {ms c : List Nat}

theorem mem_padTo_lt {n : Nat} {s : Shape} (h : ∀ e ∈ s, e < Size.modulus) :
    ∀ e ∈ s.padTo n, e < Size.modulus := by
  intro e he
  rcases List.mem_append.mp he with he | he
  · rw [List.eq_of_mem_replicate he]
    decide
  · exact h e he

theorem prod_padTo (n : Nat) (s : Shape) : (s.padTo n).prod = s.prod := by
  simp [padTo]

theorem volume_padTo (n : Nat) (s : Shape) : (s.padTo n).volume = s.volume := by
  simp [padTo, volume]

/-- Leading axes of extent 1 are counted without overflow. -/
theorem numel_padTo (n : Nat) (s : Shape) : (s.padTo n).numel = s.numel := by
  have hones : ∀ k, numel (List.replicate k 1 ++ s) = s.numel := by
    intro k
    induction k with
    | zero => rfl
    | succ k ih => exact ih
  exact hones _

/-- The extents of a shape that is repeated along its axes. -/
def times (s : Shape) (multiples : List Nat) : Shape := List.zipWith (· * ·) s multiples

@[simp] theorem times_cons (e m : Nat) (s : Shape) (ms : List Nat) :
    times (e :: s) (m :: ms) = (e * m) :: s.times ms := rfl

theorem length_times (hlen : s.length = ms.length) : (s.times ms).length = ms.length := by
  simp [times, hlen]

theorem prod_times (hlen : s.length = ms.length) : (s.times ms).prod = s.prod * ms.prod :=
  (List.prod_mul_prod_eq_prod_zipWith_of_length_eq s ms hlen).symm

/-- Repeating once along every axis. -/
theorem times_of_all_one (hlen : s.length = ms.length) (hall : ms.all (· == 1) = true) :
    s.times ms = s := by
  induction s generalizing ms with
  | nil => rfl
  | cons e s ih =>
    cases ms with
    | nil => cases hlen
    | cons m ms =>
      rw [List.all_cons, Bool.and_eq_true] at hall
      obtain ⟨hm, hall⟩ := hall
      rw [times_cons, ih (Nat.succ.inj hlen) hall, eq_of_beq hm, Nat.mul_one]

/-- The extents of a tensor that is tiled are stored one after the other. -/
theorem tiledOn_eq (s : Shape) (ms : List Nat) :
    tiledOn .stops s ms
      = if ∀ e ∈ s.times ms, e < Size.modulus then .ok (s.times ms) else .error .overflow := by
  have htimes : (s.zip ms).map (fun p => p.1 * p.2) = s.times ms := by
    rw [times, List.zip, List.map_zipWith]
  rw [tiledOn, Size.mapM_store fun p : Nat × Nat => p.1 * p.2, htimes, ← htimes]
  simp only [List.forall_mem_map]

theorem tiledOn_of_lt (h : ∀ e ∈ s.times ms, e < Size.modulus) :
    tiledOn .stops s ms = .ok (s.times ms) := by
  rw [tiledOn_eq, if_pos h]

/-- The coordinate of a tensor of shape `s` that is repeated at the coordinate `c`. -/
def remainders (s : Shape) (c : List Nat) : List Nat := List.zipWith (fun e i => i % e) s c

@[simp] theorem remainders_cons (e i : Nat) (s : Shape) (c : List Nat) :
    remainders (e :: s) (i :: c) = (i % e) :: s.remainders c := rfl

theorem source_mod (s : Shape) (c : List Nat) :
    source (s.map fun e i => i % e) c = s.remainders c := by
  rw [source, List.zipWith_map_left]
  rfl

/-- A repetition reads each entry at the remainders. -/
theorem offset_mod (s : Shape) (c : List Nat) :
    offset (s.map fun e i => i % e) s.steps c = s.position (s.remainders c) := by
  rw [offset_steps, source_mod]

/-- What is repeated is read in range. -/
theorem within_remainders (hlen : s.length = ms.length) (hc : (s.times ms).Within c) :
    s.Within (s.remainders c) := by
  induction s generalizing ms c with
  | nil => exact .nil
  | cons e s ih =>
    cases ms with
    | nil => cases hlen
    | cons m ms =>
      cases hc with
      | @cons i _ c _ hi hc =>
        have hpos : 0 < e := Nat.pos_of_mul_pos_right (Nat.zero_lt_of_lt hi)
        exact within_cons.mpr ⟨Nat.mod_lt i hpos, ih (Nat.succ.inj hlen) hc⟩

theorem remainders_self (hc : s.Within c) : s.remainders c = c := by
  induction hc with
  | nil => rfl
  | cons hi _ ih => rw [remainders_cons, ih, Nat.mod_eq_of_lt hi]

/-- A tensor is tiled from these positions, or something overflows. -/
theorem repeatOffsets_eq_ok_or (s : Shape) (ms : List Nat) :
    ((∀ e ∈ s.times ms, e < Size.modulus) ∧ (s.times ms).numel = .ok (s.times ms).prod ∧
        repeatOffsets s ms
          = .ok ((s.times ms).coords.map fun c => s.position (s.remainders c))) ∨
      repeatOffsets s ms = .error .overflow := by
  rw [repeatOffsets, repeatOffsetsOn, tiledOn_eq]
  split
  · next he =>
    rcases s.strides_eq_ok_or with hs | hs
    · simp only [ok_bind, show stridesOn .stops s = _ from hs, ← offset_mod]
      exact (gatherOffsets_eq_ok_or _ _ _).imp (fun h => ⟨he, h⟩) id
    · rw [ok_bind, show stridesOn .stops s = _ from hs, error_bind]
      exact .inr rfl
  · exact .inr rfl

/-- **The positions that are read** are those of the remainders. -/
theorem repeatOffsets_eq (hlen : s.length = ms.length) (hs : s.volume < Size.modulus)
    (ht : (s.times ms).volume < Size.modulus) :
    repeatOffsets s ms = .ok ((s.times ms).coords.map fun c => s.position (s.remainders c)) := by
  have he : ∀ e ∈ s.times ms, e < Size.modulus := fun _ he => (mem_le_volume he).trans_lt ht
  rw [repeatOffsets, repeatOffsetsOn, tiledOn_of_lt he, ok_bind,
    show stridesOn .stops s = _ from strides_of_volume_lt hs, ok_bind]
  refine gatherOffsets_of_lt (numel_of_volume_lt ht) (fun c _ => offset_mod s c) fun c hc => ?_
  exact (position_lt (within_remainders hlen (mem_coords.mp hc))).trans_le
    ((prod_le_volume s).trans hs.le)

/-- **No remainder by zero is taken**: there is nothing to repeat of a tensor with an extent 0. -/
theorem coords_times_of_zero_mem (hlen : s.length = ms.length) (h0 : 0 ∈ s) :
    (s.times ms).coords = [] := by
  apply List.eq_nil_of_length_eq_zero
  rw [length_coords, prod_times hlen, List.prod_eq_zero h0, Nat.zero_mul]

theorem repeatOffsets_of_zero_mem {offsets : List Nat} (hlen : s.length = ms.length) (h0 : 0 ∈ s)
    (h : s.repeatOffsets ms = .ok offsets) : offsets = [] := by
  rcases repeatOffsets_eq_ok_or s ms with ⟨-, -, hread⟩ | hover
  · rw [hread, coords_times_of_zero_mem hlen h0] at h
    exact (Except.ok.inj h).symm
  · rw [hover] at h
    cases h

/-- How often a tensor of shape `s` is repeated along the axes of `t`. -/
def multiples (s t : Shape) : List Nat :=
  List.zipWith (fun e g => if e = g then 1 else g) (s.padTo t.length) t

theorem length_multiples (h : s.BroadcastsTo t) : (s.multiples t).length = t.length := by
  rw [multiples, List.length_zipWith, length_padTo h.1, Nat.min_self]

/-- An aligned extent is 1 or the one of the result. -/
theorem BroadcastsTo.getElem_padTo (h : s.BroadcastsTo t) {i : Nat}
    (hs : i < (s.padTo t.length).length) (ht : i < t.length) :
    (s.padTo t.length)[i] = 1 ∨ (s.padTo t.length)[i] = t[i] := by
  have hext := h.2 i ht
  rwa [extentAt, List.getD_eq_getElem _ _ hs, List.getD_eq_getElem _ _ ht] at hext

/-- The extents of a tensor that has been repeated. -/
theorem times_multiples (h : s.BroadcastsTo t) :
    (s.padTo t.length).times (s.multiples t) = t := by
  have hlen : (s.padTo t.length).length = (s.multiples t).length := by
    rw [length_padTo h.1, length_multiples h]
  refine List.ext_getElem (by rw [length_times hlen, length_multiples h]) fun i h₁ h₂ => ?_
  have hs : i < (s.padTo t.length).length := by rwa [length_padTo h.1]
  simp only [times, multiples, List.getElem_zipWith]
  split
  · next heq => rw [heq, Nat.mul_one]
  · next hne => rw [(h.getElem_padTo hs h₂).resolve_right hne, Nat.one_mul]

/-- Entries that start over at the extent are those of the aligned coordinate. -/
theorem position_remainders (h : s.BroadcastsTo t) (hc : t.Within c) :
    (s.padTo t.length).position ((s.padTo t.length).remainders c) = s.position (s.align c) := by
  obtain ⟨hlen, hlt⟩ := within_iff.mp hc
  rw [← position_source_align, hlen, ← source_mod]
  congr 1
  refine List.ext_getElem (by simp [source]) fun i h₁ h₂ => ?_
  have hi : i < t.length := by
    have := h₁
    simp only [source, List.length_zipWith, List.length_map, length_padTo h.1, hlen] at this
    omega
  have hs : i < (s.padTo t.length).length := by rwa [length_padTo h.1]
  have hci := hlt i hi
  rw [List.getD_eq_getElem _ _ (by omega), List.getD_eq_getElem _ _ hi] at hci
  simp only [source, List.getElem_zipWith, List.getElem_map]
  split
  · next hone => rw [hone, Nat.mod_one]
  · next hne =>
    rw [(h.getElem_padTo hs hi).resolve_left hne]
    exact Nat.mod_eq_of_lt hci

end Shape

/-! ### Tiling -/

namespace Tensor

variable {t : Tensor} {ms : List Nat} {s : Shape}

/-- The tensor with leading axes of extent 1, so that it has at least `n` axes. -/
def pad (t : Tensor) (n : Nat) : Tensor := ⟨t.shape.padTo n, t.buffer⟩

theorem Stored.pad (ht : t.Stored) (n : Nat) : (t.pad n).Stored where
  count := (Shape.numel_padTo n _).trans ht.count
  extents := Shape.mem_padTo_lt ht.extents

theorem Exact.pad (ht : t.Exact) (n : Nat) : (t.pad n).Exact where
  count := ht.count.trans (Shape.prod_padTo n _).symm
  sized := (Shape.volume_padTo n _).trans_lt ht.sized

/-- The tensor copied as often along each axis as `ms` says. -/
def repeated (t : Tensor) (ms : List Nat) : Except Failure Tensor := do
  let shape ← Shape.tiledOn .stops t.shape ms
  let offsets ← Shape.repeatOffsets t.shape ms
  return ⟨shape, ← t.buffer.gather offsets⟩

/-- What the copies of a tensor hold. -/
def copies (t : Tensor) (ms : List Nat) : Tensor :=
  tabulate t.dtype (t.shape.times ms) fun c => t.get (t.shape.remainders c)

/-- **A tensor is copied, or something overflows**: it does not if the volumes of the tensor and of
the result are sizes. -/
theorem Stored.repeated_eq_or (ht : t.Stored) (hlen : t.shape.length = ms.length) :
    (t.copies ms).Stored ∧ t.repeated ms = .ok (t.copies ms) ∨
      t.repeated ms = .error (.fault .overflow) ∧
        (t.shape.volume < Size.modulus → Size.modulus ≤ (t.shape.times ms).volume) := by
  rcases Shape.repeatOffsets_eq_ok_or t.shape ms with ⟨he, hn, h⟩ | h
  · have hgather : t.buffer.gather
        ((t.shape.times ms).coords.map fun c => t.shape.position (t.shape.remainders c))
        = .ok (t.copies ms).buffer := by
      conv_lhs => rw [ht.eq_tabulate]
      exact gather_tabulate (fun c hc => Shape.within_remainders hlen hc) fun c _ => rfl
    refine .inl ⟨stored_tabulate hn he, ?_⟩
    simp only [repeated, Shape.tiledOn_of_lt he, h, hgather, lift_ok, ok_bind]
    rfl
  · refine .inr ⟨?_, fun hs => Nat.not_lt.mp fun hvol => ?_⟩
    · rw [repeated, Shape.tiledOn_eq, h]
      split <;> rfl
    · rw [Shape.repeatOffsets_eq hlen hs hvol] at h
      cases h

theorem Exact.repeated_eq (ht : t.Exact) (hlen : t.shape.length = ms.length)
    (h : (t.shape.times ms).volume < Size.modulus) : t.repeated ms = .ok (t.copies ms) :=
  ((ht.stored.repeated_eq_or hlen).resolve_right fun hover =>
    Nat.not_lt.mpr (hover.2 ht.sized) h).2

/-- A tensor that is copied once along every axis is as before. -/
theorem copies_of_all_one (ht : t.numel = t.shape.prod) (hlen : t.shape.length = ms.length)
    (hall : ms.all (· == 1) = true) : t.copies ms = t := by
  conv_rhs => rw [Tensor.eq_tabulate ht]
  rw [copies, Shape.times_of_all_one hlen hall]
  exact tabulate_congr fun c hc => by rw [Shape.remainders_self hc]

/-- A list of multiples that is too short is refused. -/
theorem tile_of_lt (h : ms.length < t.ndim) :
    t.tile ms = .error (.error (.tooFewMultiples t.ndim ms.length)) := by
  rw [tile, tileOn, if_pos h]
  rfl

/-- Otherwise leading axes are added, and the tensor is copied unless that is all. -/
theorem Stored.tile_of_le (ht : t.Stored) (h : t.ndim ≤ ms.length) :
    t.tile ms = if ms.all (· == 1) = true then .ok (t.pad ms.length)
      else (t.pad ms.length).repeated ms := by
  have hreshape : t.reshape (t.shape.padTo ms.length) = .ok (t.pad ms.length) := by
    have hcount : Shape.numelOn .stops (t.shape.padTo ms.length) = .ok t.numel :=
      (ht.pad ms.length).count
    simp only [reshapeOn, hcount, lift_ok, ok_bind, ne_eq, not_true_eq_false, if_false]
    rfl
  rw [tile, tileOn, if_neg (Nat.not_lt.mpr h)]
  split
  · exact hreshape
  · rfl

/-- **A tensor is tiled, or something overflows.** -/
theorem Stored.tile_eq_or (ht : t.Stored) (h : t.ndim ≤ ms.length) :
    ((t.pad ms.length).copies ms).Stored ∧ t.tile ms = .ok ((t.pad ms.length).copies ms) ∨
      t.tile ms = .error (.fault .overflow) ∧
        (t.shape.volume < Size.modulus →
          Size.modulus ≤ ((t.shape.padTo ms.length).times ms).volume) := by
  have hlen : (t.pad ms.length).shape.length = ms.length := Shape.length_padTo h
  have hpad := ht.pad ms.length
  rw [ht.tile_of_le h]
  split
  · next hall =>
    rw [copies_of_all_one hpad.numel_eq hlen hall]
    exact .inl ⟨hpad, rfl⟩
  · rw [← Shape.volume_padTo ms.length]
    exact hpad.repeated_eq_or hlen

/-- **The two ways to tile** give the same tensor, if the longer one gets through. -/
theorem Stored.tile_eq_of_repeated (ht : t.Stored) (h : t.ndim ≤ ms.length) {r : Tensor}
    (hr : (t.pad ms.length).repeated ms = .ok r) : t.tile ms = .ok r := by
  have hlen : (t.pad ms.length).shape.length = ms.length := Shape.length_padTo h
  have hpad := ht.pad ms.length
  rw [ht.tile_of_le h]
  split
  · next hall =>
    rcases hpad.repeated_eq_or hlen with ⟨-, hcopy⟩ | ⟨hcopy, -⟩
    · rw [← hr, hcopy, copies_of_all_one hpad.numel_eq hlen hall]
    · rw [hcopy] at hr
      cases hr
  · exact hr

theorem Exact.tile_eq (ht : t.Exact) (h : t.ndim ≤ ms.length)
    (hs : ((t.shape.padTo ms.length).times ms).volume < Size.modulus) :
    t.tile ms = .ok ((t.pad ms.length).copies ms) :=
  ((ht.stored.tile_eq_or h).resolve_right fun hover => Nat.not_lt.mpr (hover.2 ht.sized) hs).2

/-! ### Tiling and broadcasting -/

theorem Exact.exists_broadcastTo (ht : t.Exact) (hs : s.volume < Size.modulus)
    (h : t.shape.BroadcastsTo s) :
    ∃ w, t.broadcastTo s = .ok w ∧ w.Exact ∧ w.shape = s ∧ w.dtype = t.dtype :=
  ⟨_, ht.broadcastTo_eq hs h, exact_tabulate hs, rfl, rfl⟩

/-- What a tensor becomes that is repeated until it has the shape to which its own broadcasts. -/
theorem copies_multiples (t : Tensor) (h : t.shape.BroadcastsTo s) :
    (t.pad (t.shape.multiples s).length).copies (t.shape.multiples s) = t.stretch s := by
  have hlen : (t.shape.multiples s).length = s.length := Shape.length_multiples h
  have hpad : (t.pad (t.shape.multiples s).length).shape = t.shape.padTo s.length :=
    congrArg t.shape.padTo hlen
  rw [copies, hpad, Shape.times_multiples h]
  refine tabulate_congr fun c hc => ?_
  show t.buffer.data.getD _ _ = t.buffer.data.getD _ _
  rw [hpad, Shape.position_remainders h hc]
  rfl

/-- **Repeating a tensor is broadcasting it**, or something overflows, if its shape broadcasts to
the target. -/
theorem Stored.tileTo_eq_or (ht : t.Stored) (h : t.shape.BroadcastsTo s) :
    (t.stretch s).Stored ∧ t.tileTo s = .ok (t.stretch s) ∨
      t.tileTo s = .error (.fault .overflow) ∧ Size.modulus ≤ s.volume := by
  have hlen : (t.shape.multiples s).length = s.length := Shape.length_multiples h
  have htimes : (t.shape.padTo (t.shape.multiples s).length).times (t.shape.multiples s) = s := by
    rw [hlen, Shape.times_multiples h]
  have hle : t.ndim ≤ (t.shape.multiples s).length := hlen.symm ▸ h.1
  have htile := ht.tile_eq_or hle
  rw [copies_multiples t h, htimes] at htile
  refine htile.imp_right fun hover => ⟨hover.1, Nat.not_lt.mp fun hvol => ?_⟩
  exact Nat.not_lt.mpr (hover.2 (h.volume_le.trans_lt hvol)) hvol

end Tensor

end SpmdArray
