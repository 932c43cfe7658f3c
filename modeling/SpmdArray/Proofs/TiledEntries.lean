import SpmdArray.Proofs.Entries
import SpmdArray.Proofs.Tiling

/-!
# Entries of tiled tensors

A tensor is tiled by going through its entries along each axis again and again.  The entry at a
coordinate of the result is the one at the remainders of the coordinate by the extents, after
leading axes of extent 1 have been added.  A list of multiples is refused only if it is too short,
and a tensor that is not repeated along any axis is the same whether it is copied or only given its
leading axes.

The extents of the result are products of sizes, and so is the number of its elements.  If they are
no sizes, something overflows.

## Main results

* `Shape.repeatOffsets_lt` — tiling reads storage in range.
* `Tensor.Stored.tile_entries` — what is read from a tiled tensor.
* `Tensor.tile_exactly` — when a tensor is tiled, and what the result holds.
-/

namespace SpmdArray

/-- **Tiling reads storage in range**, and takes no remainder by zero: nothing is read of a tensor
with an extent 0. -/
theorem Shape.repeatOffsets_lt {s : Shape} {ms offsets : List Nat} (hlen : s.length = ms.length)
    (hoff : repeatOffsets s ms = .ok offsets) :
    (0 ∈ s → offsets = []) ∧ ∀ i ∈ offsets, i < s.prod := by
  rcases repeatOffsets_eq_ok_or s ms with ⟨-, -, heq⟩ | heq
  · obtain rfl := Except.ok.inj (hoff.symm.trans heq)
    refine ⟨fun h0 => by rw [coords_times_of_zero_mem hlen h0, List.map_nil], fun i hi => ?_⟩
    obtain ⟨c, hc, rfl⟩ := List.mem_map.mp hi
    exact position_lt (within_remainders hlen (mem_coords.mp hc))
  · rw [heq] at hoff
    cases hoff

namespace Tensor

variable {t : Tensor} {ms : List Nat}

/-- **What is read from a tiled tensor** is what is read from the tensor with its leading axes at
the remainders. -/
theorem Stored.tile_entries (ht : t.Stored) (h : t.ndim ≤ ms.length) :
    let padded := t.pad ms.length
    (∃ r, t.tile ms = .ok r ∧ r.Stored ∧ r.shape = padded.shape.times ms ∧ r.dtype = t.dtype ∧
      ∀ c, r.shape.Within c →
        ∃ x, padded.read? t.dtype (padded.shape.remainders c) = some x ∧
          r.read? t.dtype c = some x) ∨
      t.tile ms = .error (.fault .overflow) := by
  refine (ht.tile_eq_or h).imp (fun ⟨hstored, hr⟩ => ?_) And.left
  exact ⟨_, hr, hstored, rfl, rfl, fun c hc => read?_tabulate_get (ht.pad ms.length) hc
    (Shape.within_remainders (Shape.length_padTo h) hc)⟩

/-- **When a tensor is tiled, and what the result holds.**  A list of multiples is refused exactly
if it has fewer members than the tensor has axes.  Otherwise the tensor is given leading axes of
extent 1 and copied, also where there is a shorter way.  Storage is read in range, and no remainder
by zero is taken.  The extents of the result are the products of the padded ones with the multiples,
and the entry at each coordinate is the padded tensor's entry at the remainders.  Something may
overflow on the way, but not for an exact tensor if the volume of the result is a size. -/
theorem tile_exactly (ht : t.Stored) (ms : List Nat) :
    let padded := t.pad ms.length
    let extents := padded.shape.times ms
    (ms.length < t.ndim → t.tile ms = .error (.error (.tooFewMultiples t.ndim ms.length))) ∧
    (t.ndim ≤ ms.length →
      (∀ offsets, Shape.repeatOffsets padded.shape ms = .ok offsets →
        (0 ∈ padded.shape → offsets = []) ∧ ∀ i ∈ offsets, i < t.numel) ∧
      (∀ r, padded.repeated ms = .ok r → t.tile ms = .ok r) ∧
      ((∃ r, t.tile ms = .ok r ∧ r.Stored ∧ r.shape = extents ∧ r.dtype = t.dtype ∧
        ∀ c, r.shape.Within c →
          ∃ x, padded.read? t.dtype (padded.shape.remainders c) = some x ∧
            r.read? t.dtype c = some x) ∨
        t.tile ms = .error (.fault .overflow)) ∧
      (t.Exact → extents.volume < Size.modulus →
        (∃ offsets, Shape.repeatOffsets padded.shape ms = .ok offsets) ∧
        ∃ r, t.tile ms = .ok r ∧ padded.repeated ms = .ok r)) := by
  refine ⟨tile_of_lt, fun h => ?_⟩
  have hlen : (t.pad ms.length).shape.length = ms.length := Shape.length_padTo h
  refine ⟨?_, fun r => ht.tile_eq_of_repeated h, ht.tile_entries h, fun hexact hs => ?_⟩
  · rw [show t.numel = (t.pad ms.length).shape.prod from (ht.pad ms.length).numel_eq]
    exact fun offsets => Shape.repeatOffsets_lt hlen
  · have hpad := hexact.pad ms.length
    exact ⟨⟨_, Shape.repeatOffsets_eq hlen hpad.sized hs⟩, _, hexact.tile_eq h hs,
      hpad.repeated_eq hlen hs⟩

/-- Two words are repeated twice, in two rows; nothing is left of them if they are repeated no times
along the new axis, and they cannot be repeated along no axes. -/
theorem tile_exactly_two_words :
    let t : Tensor := ⟨[2], ⟨.u8, [.ofInt 1, .ofInt 2]⟩⟩
    (∃ r, t.tile [2, 2] = .ok r ∧ r.shape = [2, 4] ∧ r.read? .u8 [1, 3] = some (.ofInt 2)) ∧
    (∃ r, t.tile [0, 3] = .ok r ∧ r.Stored ∧ r.shape = [0, 6]) ∧
    t.tile [] = .error (.error (.tooFewMultiples 1 0)) := by
  intro t
  have hexact : t.Exact := ⟨rfl, (by decide : Shape.volume [2] < Size.modulus)⟩
  refine ⟨?_, ?_, (tile_exactly hexact.stored []).1 (by decide)⟩
  · obtain ⟨-, -, hentries, hok⟩ := (tile_exactly hexact.stored [2, 2]).2 (by decide)
    obtain ⟨-, w, hw, -⟩ := hok hexact (by decide : Shape.volume [2, 4] < Size.modulus)
    obtain ⟨r, hr, -, hshape, -, hentry⟩ := hentries.resolve_right (by rw [hw]; nofun)
    have hshape : r.shape = [2, 4] := hshape
    obtain ⟨x, hx, hrx⟩ := hentry [1, 3] (hshape ▸ Shape.mem_coords.mp (by decide))
    obtain rfl : .ofInt 2 = x := Option.some.inj hx
    exact ⟨r, hr, hshape, hrx⟩
  · obtain ⟨-, -, hentries, hok⟩ := (tile_exactly hexact.stored [0, 3]).2 (by decide)
    obtain ⟨-, w, hw, -⟩ := hok hexact (by decide : Shape.volume [0, 6] < Size.modulus)
    obtain ⟨r, hr, hstored, hshape, -⟩ := hentries.resolve_right (by rw [hw]; nofun)
    exact ⟨r, hr, hstored, hshape⟩

/-- The number of elements of the result is no size. -/
example : (⟨[1, 1], ⟨.u8, [.ofInt 7]⟩⟩ : Tensor).tile [2 ^ 32, 2 ^ 32]
    = .error (.fault .overflow) := by
  rfl

end Tensor

end SpmdArray
