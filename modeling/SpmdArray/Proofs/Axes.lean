import SpmdArray.Proofs.AxisReduction

/-!
# Flattened and dropped axes

A reduction gives its axes extent 1, and may drop them afterwards.  A coordinate of the
reduced tensor stands for the coordinates of the tensor that agree with it on the other axes.

## Main definitions

* `Shape.fillAxes` — the entries at some axes, replaced by one number.
* `Shape.undrop` — the coordinate of the flattened shape for one of the shape without the axes.
* `Shape.remaining` — the axes that stay.

## Main results

* `Shape.position_dropAxes` — storage does not notice dropped axes of extent 1.
* `Shape.dropAxes_eq_iff` — dropping axes loses what flattening loses.
* `Shape.dropAxes_modify` — a change at an axis that stays.
* `Shape.idxOf_remaining` — the place of an axis that stays.
-/

namespace SpmdArray

namespace Shape

variable {axes : List Nat} {s : Shape} {l x c : List Nat} {k v : Nat}

/-! ### Axes counted from some number on -/

/-- The entries at the axes, which are counted from `k` on, replaced by `v`. -/
def fillFrom (v : Nat) (axes : List Nat) (k : Nat) (l : List Nat) : List Nat :=
  (l.zipIdx k).map fun p => if p.2 ∈ axes then v else p.1

/-- The entries at the other axes, which are counted from `k` on. -/
def dropFrom (axes : List Nat) (k : Nat) (l : List Nat) : List Nat :=
  ((l.zipIdx k).filter fun p => p.2 ∉ axes).map (·.1)

theorem fillFrom_cons (e : Nat) :
    fillFrom v axes k (e :: l) = (if k ∈ axes then v else e) :: fillFrom v axes (k + 1) l := rfl

theorem dropFrom_cons_of_mem (h : k ∈ axes) (e : Nat) :
    dropFrom axes k (e :: l) = dropFrom axes (k + 1) l := by
  rw [dropFrom, List.zipIdx_cons, List.filter_cons_of_neg (by simpa using h), dropFrom]

theorem dropFrom_cons_of_notMem (h : k ∉ axes) (e : Nat) :
    dropFrom axes k (e :: l) = e :: dropFrom axes (k + 1) l := by
  rw [dropFrom, List.zipIdx_cons, List.filter_cons_of_pos (by simpa using h), dropFrom,
    List.map_cons]

theorem dropFrom_fillFrom : dropFrom axes k (fillFrom v axes k l) = dropFrom axes k l := by
  induction l generalizing k with
  | nil => rfl
  | cons e l ih =>
    rw [fillFrom_cons]
    by_cases hk : k ∈ axes
    · rw [dropFrom_cons_of_mem hk, dropFrom_cons_of_mem hk, ih]
    · rw [dropFrom_cons_of_notMem hk, dropFrom_cons_of_notMem hk, if_neg hk, ih]

theorem within_dropFrom (h : s.Within x) : Within (dropFrom axes k s) (dropFrom axes k x) := by
  induction h generalizing k with
  | nil => exact .nil
  | @cons i e x s hi _ ih =>
    by_cases hk : k ∈ axes
    · rw [dropFrom_cons_of_mem hk, dropFrom_cons_of_mem hk]
      exact ih
    · rw [dropFrom_cons_of_notMem hk, dropFrom_cons_of_notMem hk]
      exact .cons hi ih

theorem prod_dropFrom : (dropFrom axes k s).prod = (fillFrom 1 axes k s).prod := by
  induction s generalizing k with
  | nil => rfl
  | cons e s ih =>
    rw [fillFrom_cons, List.prod_cons]
    by_cases hk : k ∈ axes
    · rw [dropFrom_cons_of_mem hk, if_pos hk, Nat.one_mul, ih]
    · rw [dropFrom_cons_of_notMem hk, if_neg hk, List.prod_cons, ih]

/-- An extent of 1 changes nothing when the elements are counted, with `p` of them so far. -/
theorem foldlM_dropFrom {p : Nat} (hp : p < Size.modulus) :
    (dropFrom axes k s).foldlM (fun p n => Size.store .stops (p * n)) p
      = (fillFrom 1 axes k s).foldlM (fun p n => Size.store .stops (p * n)) p := by
  induction s generalizing k p with
  | nil => rfl
  | cons e s ih =>
    rw [fillFrom_cons, List.foldlM_cons]
    by_cases hk : k ∈ axes
    · rw [dropFrom_cons_of_mem hk, if_pos hk, Nat.mul_one, Size.store_of_lt hp, ok_bind, ih hp]
    · rw [dropFrom_cons_of_notMem hk, if_neg hk, List.foldlM_cons]
      rcases Nat.lt_or_ge (p * e) Size.modulus with h | h
      · rw [Size.store_of_lt h, ok_bind, ok_bind, ih h]
      · rw [Size.store_of_le h]
        rfl

theorem position_dropFrom (h : Within (fillFrom 1 axes k s) x) :
    position (dropFrom axes k s) (dropFrom axes k x) = position (fillFrom 1 axes k s) x := by
  induction s generalizing k x with
  | nil =>
    cases h
    rfl
  | cons e s ih =>
    rw [fillFrom_cons] at h ⊢
    cases x with
    | nil => cases h
    | cons i x =>
      rw [within_cons] at h
      rw [position_cons, ← ih h.2]
      by_cases hk : k ∈ axes
      · rw [if_pos hk] at h
        obtain rfl : i = 0 := by omega
        rw [dropFrom_cons_of_mem hk, dropFrom_cons_of_mem hk, Nat.zero_mul, Nat.zero_add]
      · rw [dropFrom_cons_of_notMem hk, dropFrom_cons_of_notMem hk, position_cons, prod_dropFrom]

/-! ### Flattened axes -/

/-- The entries at the axes, replaced by `v`. -/
def fillAxes (v : Nat) (axes : List Nat) (l : List Nat) : List Nat := fillFrom v axes 0 l

theorem flattenAxes_eq (s : Shape) (axes : List Nat) : s.flattenAxes axes = fillAxes 1 axes s :=
  rfl

@[simp] theorem length_fillAxes : (fillAxes v axes l).length = l.length := by
  simp [fillAxes, fillFrom]

theorem getElem_fillAxes {i : Nat} (h : i < (fillAxes v axes l).length) :
    (fillAxes v axes l)[i] = if i ∈ axes then v else getElem l i (by simpa using h) := by
  simp [fillAxes, fillFrom]

theorem getD_fillAxes {i z : Nat} (h : i < l.length) :
    (fillAxes v axes l).getD i z = if i ∈ axes then v else l.getD i z := by
  rw [List.getD_eq_getElem _ _ (by simpa using h), getElem_fillAxes, List.getD_eq_getElem _ _ h]

theorem fillAxes_nil : fillAxes v [] l = l := by
  apply List.ext_getElem
  · simp
  · intro i h₁ h₂
    rw [getElem_fillAxes, if_neg List.not_mem_nil]

theorem fillAxes_cons (a : Nat) : fillAxes v (a :: axes) l = fillAxes v axes (l.set a v) := by
  apply List.ext_getElem
  · simp
  · intro i h₁ h₂
    rw [getElem_fillAxes, getElem_fillAxes, List.getElem_set]
    by_cases hi : i ∈ axes
    · rw [if_pos hi, if_pos (List.mem_cons_of_mem _ hi)]
    · rw [if_neg hi]
      by_cases ha : i = a
      · rw [if_pos (by simp [ha]), if_pos ha.symm]
      · rw [if_neg (by simp [ha, hi]), if_neg (Ne.symm ha)]

/-- Coordinates that agree on the other axes have one coordinate in the flattened shape. -/
theorem within_fillAxes (h : s.Within x) : Within (s.flattenAxes axes) (fillAxes 0 axes x) := by
  obtain ⟨hlen, hlt⟩ := within_iff.mp h
  refine within_iff.mpr ⟨by simpa using hlen, fun i hi => ?_⟩
  rw [length_flattenAxes] at hi
  rw [flattenAxes_eq, getD_fillAxes hi, getD_fillAxes (hlen ▸ hi)]
  split
  · exact Nat.one_pos
  · exact hlt i hi

/-! ### Dropped axes -/

theorem dropAxes_fillAxes : dropAxes (fillAxes v axes l) axes = dropAxes l axes :=
  dropFrom_fillFrom

theorem prod_dropAxes (s : Shape) (axes : List Nat) :
    (s.dropAxes axes).prod = (s.flattenAxes axes).prod :=
  prod_dropFrom

/-- Dropped axes of extent 1 are not missed when the elements are counted. -/
theorem numel_dropAxes (s : Shape) (axes : List Nat) :
    (s.dropAxes axes).numel = (s.flattenAxes axes).numel :=
  foldlM_dropFrom (by decide)

theorem within_dropAxes (h : s.Within x) : Within (s.dropAxes axes) (dropAxes x axes) :=
  within_dropFrom h

/-- **Storage does not notice dropped axes** of extent 1. -/
theorem position_dropAxes (h : Within (s.flattenAxes axes) x) :
    position (s.dropAxes axes) (dropAxes x axes) = position (s.flattenAxes axes) x :=
  position_dropFrom h

/-- The coordinate of the flattened shape for a coordinate of the shape without the axes. -/
def undrop (s : Shape) (axes c : List Nat) : List Nat :=
  digits (s.flattenAxes axes) (position (s.dropAxes axes) c)

theorem within_undrop (h : Within (s.dropAxes axes) c) :
    Within (s.flattenAxes axes) (s.undrop axes c) :=
  within_digits (prod_dropAxes s axes ▸ position_lt h)

/-- Dropping the axes of a coordinate of the flattened shape loses nothing. -/
theorem undrop_dropAxes (h : Within (s.flattenAxes axes) x) :
    s.undrop axes (dropAxes x axes) = x := by
  rw [undrop, position_dropAxes h, digits_position h]

theorem dropAxes_undrop (h : Within (s.dropAxes axes) c) :
    dropAxes (s.undrop axes c) axes = c := by
  have hw := within_undrop h
  have hdrop : Within (s.dropAxes axes) (dropAxes (s.undrop axes c) axes) := by
    have hfill : Within (dropAxes (s.flattenAxes axes) axes)
        (dropAxes (s.undrop axes c) axes) := within_dropAxes hw
    rwa [flattenAxes_eq, dropAxes_fillAxes] at hfill
  rw [← digits_position hdrop, position_dropAxes hw, undrop,
    position_digits (prod_dropAxes s axes ▸ position_lt h), digits_position h]

/-- **Dropping axes loses what flattening them loses.** -/
theorem dropAxes_eq_iff (hx : s.Within x) (hc : Within (s.dropAxes axes) c) :
    dropAxes x axes = c ↔ fillAxes 0 axes x = s.undrop axes c := by
  constructor
  · rintro rfl
    rw [← dropAxes_fillAxes (v := 0), undrop_dropAxes (within_fillAxes hx)]
  · intro h
    rw [← dropAxes_fillAxes (v := 0), h, dropAxes_undrop hc]

/-! ### Axes that stay -/

/-- How many of the axes are among the `m` numbers from `j` on. -/
def countFrom (axes : List Nat) (j m : Nat) : Nat :=
  axes.countP fun a => decide (j ≤ a ∧ a < j + m)

theorem countFrom_succ (h : axes.Nodup) (j m : Nat) :
    countFrom axes j (m + 1) = countFrom axes (j + 1) m + if j ∈ axes then 1 else 0 := by
  induction axes with
  | nil => rfl
  | cons a axes ih =>
    obtain ⟨ha, h⟩ := List.nodup_cons.mp h
    have ih := ih h
    unfold countFrom at ih ⊢
    rw [List.countP_cons, List.countP_cons, ih]
    simp only [decide_eq_true_eq, List.mem_cons]
    by_cases hja : j = a
    · subst hja
      simp only [ha, or_false, if_true, if_false]
      rw [if_pos (by omega), if_neg (by omega)]
    · have hiff : (j ≤ a ∧ a < j + (m + 1)) ↔ (j + 1 ≤ a ∧ a < j + 1 + m) := by omega
      simp only [hja, false_or, hiff]
      omega

theorem countFrom_le (h : axes.Nodup) (j m : Nat) : countFrom axes j m ≤ m := by
  induction m generalizing j with
  | zero =>
    refine Nat.le_of_eq (List.countP_eq_zero.mpr fun a _ => ?_)
    rw [decide_eq_true_eq]
    omega
  | succ m ih =>
    rw [countFrom_succ h]
    have := ih (j + 1)
    split <;> omega

theorem dropFrom_modify (h : axes.Nodup) {m : Nat} (hm : k + m ∉ axes) (f : Nat → Nat) :
    dropFrom axes k (l.modify m f) = (dropFrom axes k l).modify (m - countFrom axes k m) f := by
  induction l generalizing k m with
  | nil =>
    rw [List.modify_nil]
    exact (List.modify_nil f _).symm
  | cons e l ih =>
    cases m with
    | zero =>
      have hk : k ∉ axes := hm
      rw [List.modify_zero_cons, dropFrom_cons_of_notMem hk, dropFrom_cons_of_notMem hk,
        Nat.zero_sub, List.modify_zero_cons]
    | succ m =>
      have hm' : k + 1 + m ∉ axes := by rwa [Nat.add_assoc, Nat.add_comm 1]
      rw [List.modify_succ_cons, countFrom_succ h]
      by_cases hk : k ∈ axes
      · rw [dropFrom_cons_of_mem hk, dropFrom_cons_of_mem hk, ih hm', if_pos hk]
        congr 1
        omega
      · have hle := countFrom_le h (k + 1) m
        have hsucc : m + 1 - (countFrom axes (k + 1) m + 0) = m - countFrom axes (k + 1) m + 1 := by
          omega
        rw [dropFrom_cons_of_notMem hk, dropFrom_cons_of_notMem hk, ih hm', if_neg hk, hsucc,
          List.modify_succ_cons]

theorem getElem?_dropFrom (h : axes.Nodup) {m : Nat} (hm : k + m ∉ axes) :
    (dropFrom axes k l)[m - countFrom axes k m]? = l[m]? := by
  induction l generalizing k m with
  | nil => exact List.getElem?_nil
  | cons e l ih =>
    cases m with
    | zero =>
      have hk : k ∉ axes := hm
      rw [dropFrom_cons_of_notMem hk, Nat.zero_sub]
      rfl
    | succ m =>
      have hm' : k + 1 + m ∉ axes := by rwa [Nat.add_assoc, Nat.add_comm 1]
      rw [countFrom_succ h, List.getElem?_cons_succ, ← ih hm']
      by_cases hk : k ∈ axes
      · rw [dropFrom_cons_of_mem hk, if_pos hk]
        congr 1
        omega
      · have hle := countFrom_le h (k + 1) m
        have hsucc : m + 1 - (countFrom axes (k + 1) m + 0) = m - countFrom axes (k + 1) m + 1 := by
          omega
        rw [dropFrom_cons_of_notMem hk, if_neg hk, hsucc, List.getElem?_cons_succ]

theorem length_filter_lt (axes : List Nat) (k : Nat) :
    (axes.filter (· < k)).length = countFrom axes 0 k := by
  rw [← List.countP_eq_length_filter, countFrom]
  simp

/-- **A change at an axis that stays** is a change at the axis that it becomes. -/
theorem dropAxes_modify (h : axes.Nodup) (hk : k ∉ axes) (f : Nat → Nat) :
    dropAxes (l.modify k f) axes
      = (dropAxes l axes).modify (k - (axes.filter (· < k)).length) f := by
  rw [length_filter_lt]
  exact dropFrom_modify h (by rwa [Nat.zero_add]) f

theorem getElem?_dropAxes (h : axes.Nodup) (hk : k ∉ axes) :
    (dropAxes l axes)[k - (axes.filter (· < k)).length]? = l[k]? := by
  rw [length_filter_lt]
  exact getElem?_dropFrom h (by rwa [Nat.zero_add])

theorem dropAxes_set (h : axes.Nodup) (hk : k ∉ axes) (len : Nat) :
    dropAxes (s.set k len) axes = (s.dropAxes axes).set (k - (axes.filter (· < k)).length) len := by
  rw [List.set_eq_modify, List.set_eq_modify, dropAxes_modify h hk]

theorem dropAxes_shift (h : axes.Nodup) (hk : k ∉ axes) (start : Nat) :
    dropAxes (shift k start x) axes
      = shift (k - (axes.filter (· < k)).length) start (dropAxes x axes) :=
  dropAxes_modify h hk _

theorem fillAxes_set_of_notMem (hk : k ∉ axes) (e : Nat) :
    fillAxes v axes (l.set k e) = (fillAxes v axes l).set k e := by
  apply List.ext_getElem
  · simp
  · intro i h₁ h₂
    rw [getElem_fillAxes, List.getElem_set, List.getElem_set, getElem_fillAxes]
    by_cases hi : k = i
    · subst hi
      rw [if_neg hk, if_pos rfl, if_pos rfl]
    · rw [if_neg hi, if_neg hi]

theorem fillAxes_modify_of_mem (hk : k ∈ axes) (f : Nat → Nat) :
    fillAxes v axes (l.modify k f) = fillAxes v axes l := by
  apply List.ext_getElem
  · simp
  · intro i h₁ h₂
    rw [getElem_fillAxes, getElem_fillAxes, List.getElem_modify]
    by_cases hi : k = i
    · rw [if_pos (hi ▸ hk), if_pos (hi ▸ hk)]
    · rw [if_neg hi]

theorem dropAxes_modify_of_mem (hk : k ∈ axes) (f : Nat → Nat) :
    dropAxes (l.modify k f) axes = dropAxes l axes := by
  rw [← dropAxes_fillAxes (v := 0), fillAxes_modify_of_mem hk, dropAxes_fillAxes]

theorem getD_fillAxes_of_notMem (hk : k ∉ axes) (z : Nat) :
    (fillAxes v axes l).getD k z = l.getD k z := by
  by_cases h : k < l.length
  · rw [getD_fillAxes h, if_neg hk]
  · rw [List.getD_eq_default _ _ (by simpa using h), List.getD_eq_default _ _ (by simpa using h)]

/-! ### Which axes are named, and which stay -/

/-- The order in which axes are listed does not matter. -/
theorem fillAxes_perm {bs : List Nat} (h : axes.Perm bs) : fillAxes v axes l = fillAxes v bs l := by
  simp only [fillAxes, fillFrom, h.mem_iff]

theorem dropAxes_perm {bs : List Nat} (h : axes.Perm bs) : dropAxes l axes = dropAxes l bs := by
  simp only [dropAxes, h.mem_iff]

/-- Nothing is left of the entries if all axes are listed. -/
theorem fillAxes_eq_replicate (h : ∀ i < l.length, i ∈ axes) :
    fillAxes v axes l = List.replicate l.length v := by
  apply List.ext_getElem
  · simp
  · intro i h₁ h₂
    rw [getElem_fillAxes, List.getElem_replicate, if_pos (h i (by simpa using h₂))]

/-- The axes of a tensor with `m` axes that are not listed. -/
def remaining (m : Nat) (axes : List Nat) : List Nat := (List.range m).filter (· ∉ axes)

theorem mem_remaining {m a : Nat} : a ∈ remaining m axes ↔ a < m ∧ a ∉ axes := by
  simp [remaining]

theorem dropAxes_range (m : Nat) (axes : List Nat) :
    dropAxes (List.range m) axes = remaining m axes := by
  have hzip : (List.range m).zipIdx = (List.range m).map fun i => (i, i) :=
    List.ext_getElem (by simp) fun i h₁ h₂ => by simp
  rw [dropAxes, hzip, List.filter_map, List.map_map]
  exact List.map_id _

/-- **An axis that stays** is found among those that stay past the listed axes before it. -/
theorem idxOf_remaining (h : axes.Nodup) (hk : k ∉ axes) {m : Nat} (hm : k < m) :
    (remaining m axes).idxOf k = k - (axes.filter (· < k)).length := by
  have hget : (remaining m axes)[k - (axes.filter (· < k)).length]? = some k := by
    rw [← dropAxes_range, getElem?_dropAxes h hk, List.getElem?_range hm]
  obtain ⟨hlt, hget⟩ := List.getElem?_eq_some_iff.mp hget
  have hnodup : (remaining m axes).Nodup := List.nodup_range.filter _
  have hidx := hnodup.idxOf_getElem _ hlt
  rwa [hget] at hidx

end Shape

end SpmdArray
