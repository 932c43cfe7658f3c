import SpmdArray.Chunk
import SpmdArray.Proofs.Tabulate

/-!
# Windows

A window is the slice of a tensor along one axis.  A window of the result of a function of
two tensors is the function of windows: each operand is cut down like the result, unless it
is repeated along the axis.

## Main definitions

* `Tensor.window` — the slice of a tensor along an axis.
* `Shape.Covers a s i` — a tensor of shape `a` is not repeated along axis `i` of `s`.
* `Tensor.cut` — the part of an operand that a window of the result is made of.

## Main results

* `Tensor.Exact.narrow_eq` — slices of exact tensors are windows.
* `Shape.broadcast_cut` — operands that are cut down broadcast to the window.
* `Tensor.binary_cut` — a window of a result is the result of the cut operands.
-/

namespace SpmdArray

namespace Chunk

theorem start_add_length_le {extent rank size : Nat} (hr : rank < size) :
    (balanced extent rank size).start + (balanced extent rank size).length ≤ extent := by
  have hstop : (balanced extent rank size).stop ≤ extent := balanced_stop_le hr
  rwa [length_balanced, ← balanced_stop]

theorem length_balanced_le {extent rank size : Nat} (hr : rank < size) :
    (balanced extent rank size).length ≤ extent :=
  Nat.le_trans (Nat.le_add_left _ _) (start_add_length_le hr)

/-- No rank of several has all of several entries. -/
theorem length_balanced_lt {extent rank size : Nat} (hr : rank < size) (hsize : size ≠ 1)
    (htwo : 2 ≤ extent) : (balanced extent rank size).length < extent := by
  have hdiv := Nat.div_add_mod extent size
  have hmul : 2 * (extent / size) ≤ size * (extent / size) :=
    Nat.mul_le_mul_right _ (by omega)
  rw [length_balanced]
  split <;> omega

/-- The only rank of a group has everything. -/
theorem balanced_of_one (extent : Nat) : balanced extent 0 1 = ⟨0, extent⟩ := by
  simp [balanced, Nat.mod_one]

/-- The only entry of an axis belongs to rank 0. -/
theorem length_balanced_singleton {rank size : Nat} (hn : 1 < size) :
    (balanced 1 rank size).length = if rank = 0 then 1 else 0 := by
  rw [length_balanced, Nat.div_eq_of_lt hn, Nat.mod_eq_of_lt hn, Nat.zero_add]
  simp only [Nat.lt_one_iff]

theorem balanced_singleton_first {size : Nat} (hn : 1 < size) : balanced 1 0 size = ⟨0, 1⟩ := by
  simp [balanced, Nat.div_eq_of_lt hn, Nat.mod_eq_of_lt hn]

end Chunk

namespace Shape

theorem getD_lt_modulus {s : Shape} (he : ∀ e ∈ s, e < Size.modulus) (i : Nat) :
    s.getD i 1 < Size.modulus := by
  rcases Nat.lt_or_ge i s.length with hi | hi
  · rw [List.getD_eq_getElem _ _ hi]
    exact he _ (List.getElem_mem hi)
  · rw [List.getD_eq_default _ _ hi]
    decide

theorem set_getD_self (s : Shape) (i : Nat) : s.set i (s.getD i 1) = s := by
  rcases Nat.lt_or_ge i s.length with hi | hi
  · rw [List.getD_eq_getElem _ _ hi, List.set_getElem_self]
  · rw [List.set_eq_of_length_le hi]

/-! ### Axes along which an operand is not repeated -/

/-- `a.Covers s i` says that a tensor of shape `a` has an entry of its own for every entry
of axis `i` of `s`, to which it is aligned. -/
def Covers (a s : Shape) (i : Nat) : Prop :=
  s.length - a.length ≤ i ∧ a.extentAt s.length i = s.getD i 1

instance (a s : Shape) (i : Nat) : Decidable (a.Covers s i) :=
  inferInstanceAs (Decidable (_ ∧ _))

theorem getD_of_covers {a s : Shape} {i : Nat} (hc : a.Covers s i) :
    a.getD (i - (s.length - a.length)) 1 = s.getD i 1 := by
  rw [← hc.2, extentAt_of_ge hc.1]

theorem extentAt_eq_one {a s : Shape} {i : Nat} (h : a.BroadcastsTo s) (hi : i < s.length)
    (hc : ¬ a.Covers s i) : a.extentAt s.length i = 1 := by
  rcases Nat.lt_or_ge i (s.length - a.length) with hlt | hge
  · exact extentAt_of_lt hlt
  · exact (h.2 i hi).resolve_right fun he => hc ⟨hge, he⟩

/-- An operand is not repeated along an axis of which it has several entries, or none. -/
theorem covers_of_ne_one {a s : Shape} {i j : Nat} (h : a.BroadcastsTo s) (hj : j < a.length)
    (hi : i = j + (s.length - a.length)) (hne : a.getD j 1 ≠ 1) : a.Covers s i := by
  have hlen := h.1
  have hext := h.2 i (by omega)
  rw [hi, extentAt_add] at hext
  refine ⟨by omega, ?_⟩
  rw [hi, extentAt_add]
  exact hext.resolve_left hne

/-- The axis of the result for an axis of which an operand has several entries, or none. -/
theorem covers_axis {a s : Shape} {j : Nat} (h : a.BroadcastsTo s) (hj : j < a.length)
    (hne : a.getD j 1 ≠ 1) :
    let k := j + (s.length - a.length)
    a.Covers s k ∧ k < s.length ∧ s.getD k 1 = a.getD j 1 := by
  intro k
  have hcov : a.Covers s k := covers_of_ne_one h hj rfl hne
  have hlen := h.1
  refine ⟨hcov, by omega, ?_⟩
  rw [← getD_of_covers hcov, show k - (s.length - a.length) = j from Nat.add_sub_cancel _ _]

/-- One of two operands has the entries of the result. -/
theorem covers_or {a b s : Shape} {i : Nat} (h : a.broadcast b = some s) (hi : i < s.length) :
    a.Covers s i ∨ b.Covers s i := by
  by_contra hnone
  rw [not_or] at hnone
  obtain ⟨hlen, hext⟩ := broadcast_eq_some_iff.mp h
  have ha := extentAt_eq_one (broadcastsTo_left h) hi hnone.1
  have hb := extentAt_eq_one (broadcastsTo_right h) hi hnone.2
  have hs := hext i hi
  rw [ha, hb, broadcastExtent_self, Option.some.injEq] at hs
  rcases Nat.le_total a.length b.length with hab | hab
  · exact hnone.2 ⟨by omega, hb.trans hs⟩
  · exact hnone.1 ⟨by omega, ha.trans hs⟩

/-- The shape of an operand of shape `a` for a window of length `len` along axis `i` of the
result. -/
def cut (a s : Shape) (i len : Nat) : Shape :=
  if a.Covers s i then a.set (i - (s.length - a.length)) len else a

@[simp] theorem length_cut (a s : Shape) (i len : Nat) : (a.cut s i len).length = a.length := by
  unfold cut
  split <;> simp

/-- The aligned extents of a shape of which one extent has changed. -/
theorem extentAt_set {a : Shape} {n k i len : Nat} (hi : i < n) :
    extentAt (a.set k len) n i
      = if i = k + (n - a.length) then len else a.extentAt n i := by
  rcases Nat.lt_or_ge i (n - a.length) with hlt | hge
  · rw [if_neg (by omega), extentAt_of_lt (by simpa using hlt), extentAt_of_lt hlt]
  · rw [extentAt_of_ge (by simpa using hge), extentAt_of_ge hge, List.length_set,
      getD_set (by omega)]
    simp only [show i - (n - a.length) = k ↔ i = k + (n - a.length) by omega]

theorem extentAt_cut {a s : Shape} {i j len : Nat} (hj : j < s.length) :
    (a.cut s i len).extentAt s.length j
      = if j = i ∧ a.Covers s i then len else a.extentAt s.length j := by
  unfold cut
  split
  · next hc =>
    rw [extentAt_set hj, Nat.sub_add_cancel hc.1]
    simp only [hc, and_true]
  · next hc => simp [hc]

/-- **Operands that are cut down broadcast to the window.** -/
theorem broadcast_cut {a b s : Shape} {i len : Nat} (h : a.broadcast b = some s)
    (hi : i < s.length) : (a.cut s i len).broadcast (b.cut s i len) = some (s.set i len) := by
  obtain ⟨hlen, hext⟩ := broadcast_eq_some_iff.mp h
  refine broadcast_eq_some_iff.mpr ⟨by simpa using hlen, fun j hj => ?_⟩
  rw [List.length_set] at hj ⊢
  rw [extentAt_cut hj, extentAt_cut hj, getD_set hj]
  by_cases hji : j = i
  · subst hji
    simp only [true_and, if_true]
    by_cases ha : a.Covers s j
    · by_cases hb : b.Covers s j
      · rw [if_pos ha, if_pos hb, broadcastExtent_self]
      · rw [if_pos ha, if_neg hb, extentAt_eq_one (broadcastsTo_right h) hj hb,
          broadcastExtent_one_right]
    · have hb := (covers_or h hj).resolve_left ha
      rw [if_neg ha, if_pos hb, extentAt_eq_one (broadcastsTo_left h) hj ha,
        broadcastExtent_one_left]
  · simp only [hji, false_and, if_false]
    exact hext j hj

/-- The coordinate of an operand for a coordinate of its part. -/
def uncut (a s : Shape) (i start : Nat) (c : List Nat) : List Nat :=
  if a.Covers s i then shift (i - (s.length - a.length)) start c else c

/-- Cutting an operand down and shifting the coordinates of the result is the same. -/
theorem uncut_align {a s : Shape} {i start len : Nat} {c : List Nat} (h : a.BroadcastsTo s)
    (hi : i < s.length) (hlen : start + len ≤ s.getD i 1) (hc : Within (s.set i len) c) :
    a.uncut s i start ((a.cut s i len).align c) = a.align (shift i start c) := by
  obtain ⟨hcs, hlt⟩ := within_iff.mp hc
  rw [List.length_set] at hcs hlt
  have hci := hlt i hi
  rw [getD_set hi, if_pos rfl] at hci
  have hal := h.1
  have hlen₁ : ((a.cut s i len).align c).length = a.length := by
    rw [length_align (by simpa using by omega), length_cut]
  have hlen₂ : (a.align (shift i start c)).length = a.length :=
    length_align (by simpa using by omega)
  have hlen₃ : (a.uncut s i start ((a.cut s i len).align c)).length = a.length := by
    unfold uncut
    split <;> simp [hlen₁]
  -- entry by entry: an extent of 1 is read at 0, the axis of the window is shifted
  refine ext_getD 0 (hlen₃.trans hlen₂.symm) fun j hj => ?_
  rw [hlen₃] at hj
  have hr : (a.align (shift i start c)).getD j 0
      = if a.getD j 1 = 1 then 0
        else if j + (s.length - a.length) = i then c.getD (j + (s.length - a.length)) 0 + start
          else c.getD (j + (s.length - a.length)) 0 := by
    rw [getD_align (by simpa using by omega) hj, length_shift, hcs, getD_shift _ _ (by omega)]
  rw [hr]
  by_cases hcov : a.Covers s i
  · have hoff := hcov.1
    have hext := hcov.2
    rw [uncut, if_pos hcov, getD_shift _ _ (by omega), getD_align (by simpa using by omega)
      (by simpa using hj), cut, if_pos hcov, List.length_set, hcs, getD_set hj]
    by_cases hji : j + (s.length - a.length) = i
    · have hj' : j = i - (s.length - a.length) := by omega
      rw [if_pos hj', if_pos hj', if_pos hji, hji]
      rw [extentAt_of_ge hoff, ← hj'] at hext
      -- along the window, an extent of 1 leaves the first entry only
      split <;> split <;> omega
    · have hj' : j ≠ i - (s.length - a.length) := by omega
      rw [if_neg hj', if_neg hj', if_neg hji]
  -- without an axis to cover, the window lies beside the shape or meets an extent of 1
  · rw [uncut, if_neg hcov, cut, if_neg hcov, getD_align (by omega) hj, hcs]
    by_cases hji : j + (s.length - a.length) = i
    · have hone := extentAt_eq_one h hi hcov
      rw [← hji, extentAt_add] at hone
      rw [if_pos hone, if_pos hone]
    · rw [if_neg hji]

end Shape

namespace Tensor

/-- The slice `start..start + len` along `axis`. -/
def window (t : Tensor) (axis start len : Nat) : Tensor :=
  tabulate t.dtype (t.shape.set axis len) fun c => t.get (Shape.shift axis start c)

variable {d : DType} {s : Shape} {f : List Nat → Elem d} {t : Tensor} {axis start len : Nat}

theorem window_tabulate (h : start + len ≤ s.getD axis 1) :
    (tabulate d s f).window axis start len
      = tabulate d (s.set axis len) fun c => f (Shape.shift axis start c) :=
  tabulate_congr fun _ hc => get_tabulate (Shape.within_shift h hc)

theorem Exact.narrow_eq (ht : t.Exact) (haxis : axis < t.ndim)
    (h : start + len ≤ t.shape.getD axis 1) :
    t.narrow axis start len = .ok (t.window axis start len) := by
  rw [ht.eq_tabulate, window_tabulate h]
  exact narrow_tabulate ht.sized haxis h

theorem Exact.window (ht : t.Exact) (h : len ≤ t.shape.getD axis 1) :
    (t.window axis start len).Exact :=
  exact_tabulate (Nat.lt_of_le_of_lt (Shape.volume_slice_le h) ht.sized)

/-- The window that leaves nothing out. -/
theorem Exact.window_self (ht : t.Exact) : t.window axis 0 (t.shape.getD axis 1) = t := by
  conv_rhs => rw [ht.eq_tabulate]
  rw [Tensor.window, Shape.set_getD_self]
  simp only [Shape.shift_zero]

theorem Exact.cast (ht : t.Exact) (p : DType) : (t.cast p).Exact := by
  refine ⟨?_, ht.sized⟩
  rw [numel_cast]
  exact ht.count

theorem cast_window (ht : t.Exact) (h : start + len ≤ t.shape.getD axis 1) (p : DType) :
    (t.window axis start len).cast p = (t.cast p).window axis start len := by
  rw [ht.eq_tabulate, window_tabulate h, cast_tabulate, cast_tabulate, window_tabulate h]

/-! ### Functions of two tensors -/

/-- The part of an operand that the slice `start..start + len` along axis `i` of a result of
shape `s` is made of. -/
def cut (t : Tensor) (s : Shape) (i start len : Nat) : Tensor :=
  if t.shape.Covers s i then t.window (i - (s.length - t.shape.length)) start len else t

theorem cut_tabulate {i : Nat} (h : start + len ≤ List.getD s i 1) {a : Shape} :
    (tabulate d a f).cut s i start len
      = tabulate d (a.cut s i len) fun c => f (a.uncut s i start c) := by
  unfold cut Shape.cut Shape.uncut
  split
  · next hc =>
    have hc' : a.Covers s i := hc
    simp only [if_pos hc']
    refine window_tabulate ?_
    show start + len ≤ a.getD (i - (s.length - a.length)) 1
    rw [Shape.getD_of_covers hc']
    exact h
  · next hc =>
    have hc' : ¬ a.Covers s i := hc
    simp only [if_neg hc']

theorem cast_cut (ht : t.Exact) {i : Nat} (h : start + len ≤ List.getD s i 1) (p : DType) :
    (t.cut s i start len).cast p = (t.cast p).cut s i start len := by
  rw [ht.eq_tabulate, cut_tabulate h, cast_tabulate, cast_tabulate, cut_tabulate h]

theorem Exact.cut_self (ht : t.Exact) (i : Nat) : t.cut s i 0 (s.getD i 1) = t := by
  unfold cut
  split
  · next hc =>
    rw [← Shape.getD_of_covers hc]
    exact ht.window_self
  · rfl

/-- **A window of the result of a function of two tensors** is the function of the parts of
its operands. -/
theorem Exact.binary_cut {u : Tensor} (ht : t.Exact) (op : BinaryFn) (hu : u.Exact)
    (hd : t.dtype = u.dtype) (h : t.shape.broadcast u.shape = some s)
    (hs : s.volume < Size.modulus) :
    ∃ v, t.binary op u = .ok v ∧ v.Exact ∧ v.shape = s ∧ v.dtype = t.dtype ∧
      ∀ i start len, i < s.length → start + len ≤ s.getD i 1 →
        (t.cut s i start len).binary op (u.cut s i start len)
          = .ok (v.window i start len) := by
  obtain ⟨d, a, f, rfl⟩ : ∃ d a f, t = tabulate d a f := ⟨_, _, _, ht.eq_tabulate⟩
  obtain ⟨d', b, g, rfl⟩ : ∃ d b g, u = tabulate d b g := ⟨_, _, _, hu.eq_tabulate⟩
  obtain rfl : d = d' := hd
  have h : a.broadcast b = some s := h
  refine ⟨_, binary_tabulate hs h, exact_tabulate hs, rfl, rfl, fun i start len hi hlen => ?_⟩
  have hwin : Shape.volume (s.set i len) < Size.modulus :=
    Nat.lt_of_le_of_lt (Shape.volume_slice_le (by omega)) hs
  -- cutting the operands and combining them reads the same two entries as the whole
  rw [cut_tabulate hlen, cut_tabulate hlen, window_tabulate hlen,
    binary_tabulate (a := a.cut s i len) (b := b.cut s i len) hwin (Shape.broadcast_cut h hi)]
  congr 1
  refine tabulate_congr fun c hc => ?_
  rw [Shape.uncut_align (Shape.broadcastsTo_left h) hi hlen hc,
    Shape.uncut_align (Shape.broadcastsTo_right h) hi hlen hc]

end Tensor

end SpmdArray
