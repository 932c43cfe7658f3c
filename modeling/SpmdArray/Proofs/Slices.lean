import SpmdArray.Proofs.Entries

/-!
# Slices along an axis

A slice is a range of indices along one axis.  A slice is refused when its axis does not exist, or
when the end of its range lies beyond the extent of the axis.  The end is a sum of sizes, so a range
whose end is no size is not refused, as it should be; computing the end overflows.  No slice that
stays on the axis is refused, and its entries are the entries of the tensor, further along the axis
by the start of the range.

## Main results

* `Tensor.narrow_of_notMem`, `Tensor.narrow_of_lt`, `Tensor.narrow_of_overflow` — what does not
  succeed.
* `Tensor.Stored.narrow_entries` — what is read from a slice.
* `Tensor.narrow_exactly` — which slices there are, and what they hold.
-/

namespace SpmdArray

namespace Tensor

variable {t : Tensor} {dim start len extent : Nat}

/-! ### What does not succeed -/

/-- There is no slice along an axis that the tensor does not have. -/
theorem narrow_of_notMem (h : t.ndim ≤ dim) :
    t.narrow dim start len = .error (.error (.invalidAxis (Size.signed dim) t.ndim)) := by
  have hnone : t.shape[dim]? = none := List.getElem?_eq_none h
  rw [narrow, hnone]
  rfl

/-- A range that ends beyond the extent is refused, if its end is a size. -/
theorem narrow_of_lt (hdim : t.shape[dim]? = some extent) (hstop : start + len < Size.modulus)
    (h : extent < start + len) :
    t.narrow dim start len = .error (.error (.sliceTooLong start (start + len) extent dim)) := by
  simp only [narrow, hdim, Size.add_of_lt hstop, lift_ok, ok_bind, if_pos h, raise_eq_error,
    error_bind]

/-- The end of a range that is no size overflows. -/
theorem narrow_of_overflow (hdim : t.shape[dim]? = some extent)
    (hstop : Size.modulus ≤ start + len) :
    t.narrow dim start len = .error (.fault .overflow) := by
  simp only [narrow, hdim, Size.add, Size.store_of_le hstop, lift_error, error_bind]

/-! ### Entries -/

/-- **What is read from a slice** is what is read from the tensor further along the axis. -/
theorem Stored.narrow_entries (ht : t.Stored) (hdim : t.shape[dim]? = some extent)
    (h : start + len ≤ extent) :
    (∃ r, t.narrow dim start len = .ok r ∧ r.Stored ∧ r.shape = t.shape.set dim len ∧
      r.dtype = t.dtype ∧
      ∀ c, r.shape.Within c → ∃ x, t.read? t.dtype (Shape.shift dim start c) = some x ∧
        r.read? t.dtype c = some x) ∨
      t.narrow dim start len = .error (.fault .overflow) ∧ Size.modulus ≤ t.shape.volume := by
  obtain ⟨hlt, hget⟩ := List.getElem?_eq_some_iff.mp hdim
  have hgetD : t.shape.getD dim 1 = extent := (List.getD_eq_getElem _ _ hlt).trans hget
  rw [← hgetD] at h
  refine (ht.narrow_eq_or hlt h).imp_left fun ⟨hstored, hr⟩ => ?_
  exact ⟨_, hr, hstored, rfl, rfl, fun c hc =>
    read?_tabulate_get ht hc (Shape.within_shift h hc)⟩

/-- **Which slices there are, and what they hold.**  A slice along an axis that does not exist is
refused.  A slice whose range ends beyond the extent is refused as well if the end is a size, and
overflows if it is not.  Any other slice has the length of the range as its extent, and its entries
are those of the tensor, further along the axis; for a tensor that is not exact, which has no
elements, something else may overflow. -/
theorem narrow_exactly (t : Tensor) (dim start len : Nat) :
    (t.ndim ≤ dim →
      t.narrow dim start len = .error (.error (.invalidAxis (Size.signed dim) t.ndim))) ∧
    ∀ extent, t.shape[dim]? = some extent →
      (start + len < Size.modulus → extent < start + len →
        t.narrow dim start len
          = .error (.error (.sliceTooLong start (start + len) extent dim))) ∧
      (Size.modulus ≤ start + len → t.narrow dim start len = .error (.fault .overflow)) ∧
      (t.Stored → start + len ≤ extent →
        (∃ r, t.narrow dim start len = .ok r ∧ r.Stored ∧ r.shape = t.shape.set dim len ∧
          r.dtype = t.dtype ∧
          ∀ c, r.shape.Within c → ∃ x, t.read? t.dtype (Shape.shift dim start c) = some x ∧
            r.read? t.dtype c = some x) ∨
          t.narrow dim start len = .error (.fault .overflow)) ∧
      (t.Exact → ((∃ r, t.narrow dim start len = .ok r) ↔ start + len ≤ extent)) := by
  refine ⟨narrow_of_notMem, fun extent hdim => ⟨narrow_of_lt hdim, narrow_of_overflow hdim,
    fun ht h => (ht.narrow_entries hdim h).imp_right And.left, fun ht => ⟨?_, fun h => ?_⟩⟩⟩
  · rintro ⟨r, hr⟩
    by_contra hnot
    rcases Nat.lt_or_ge (start + len) Size.modulus with hstop | hstop
    · rw [narrow_of_lt hdim hstop (by omega)] at hr
      cases hr
    · rw [narrow_of_overflow hdim hstop] at hr
      cases hr
  · obtain ⟨r, hr, -⟩ := (ht.stored.narrow_entries hdim h).resolve_right fun hover =>
      Nat.not_lt.mpr hover.2 ht.sized
    exact ⟨r, hr⟩

/-- The second and third column of a table of two rows and three columns; a range that reaches the
fourth column is refused. -/
theorem narrow_exactly_six_words :
    let t : Tensor := ⟨[2, 3], ⟨.u8, [.ofInt 1, .ofInt 2, .ofInt 3, .ofInt 4, .ofInt 5, .ofInt 6]⟩⟩
    (∃ r, t.narrow 1 1 2 = .ok r ∧ r.shape = [2, 2] ∧ r.read? .u8 [1, 0] = some (.ofInt 5)) ∧
    t.narrow 1 2 2 = .error (.error (.sliceTooLong 2 4 3 1)) ∧
    t.narrow 2 0 0 = .error (.error (.invalidAxis 2 2)) := by
  intro t
  have ht : t.Exact := ⟨rfl, (by decide : Shape.volume [2, 3] < Size.modulus)⟩
  have hdim : t.shape[1]? = some 3 := rfl
  refine ⟨?_, ?_, (narrow_exactly t 2 0 0).1 (by decide)⟩
  · obtain ⟨-, -, hentries, hiff⟩ := (narrow_exactly t 1 1 2).2 3 hdim
    obtain ⟨w, hw⟩ := (hiff ht).mpr (by decide)
    obtain ⟨r, hr, -, hshape, -, hentry⟩ :=
      (hentries ht.stored (by decide)).resolve_right (by rw [hw]; nofun)
    have hin : r.shape.Within [1, 0] := by
      rw [hshape]
      simp [t, Shape.Within]
    obtain ⟨x, hx, hrx⟩ := hentry [1, 0] hin
    obtain rfl : .ofInt 5 = x := Option.some.inj hx
    exact ⟨r, hr, hshape, hrx⟩
  · exact ((narrow_exactly t 1 2 2).2 3 hdim).1 (by decide) (by decide)

end Tensor

end SpmdArray
