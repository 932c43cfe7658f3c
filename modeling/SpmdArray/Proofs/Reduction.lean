import SpmdArray.Proofs.Axes
import SpmdArray.Proofs.Folds
import SpmdArray.Sharded.Reduce

/-!
# Reductions along one axis after the other

A tensor is reduced along its axes in the order in which they are given.  The result at a
coordinate combines the entries at all coordinates that are projected to it, and a slice of
the result along an axis that stays is the result for a slice.

## Main definitions

* `Elem.foldAxes` — the entries of a tensor, folded along one axis after the other.

## Main results

* `Elem.foldAxes_window` — slices of results.
* `Elem.foldAxes_eq_total` — the order of the axes does not matter for a lawful operation.
* `Statistic.foldlM_reduceTensor_cons_eq_or` — the reduction of a tensor.
-/

namespace SpmdArray

namespace Shape

variable {s : Shape} {a : Nat} {axes : List Nat}

theorem Within.set {x : List Nat} (h : s.Within x) (a : Nat) {i e : Nat} (hi : i < e) :
    Within (s.set a e) (x.set a i) := by
  induction h generalizing a with
  | nil => exact .nil
  | cons hj hx ih =>
    cases a with
    | zero => exact .cons hi hx
    | succ a => exact .cons hj (ih a)

/-- The volume of a shape whose axes are flattened. -/
theorem volume_flattenAxes_le (s : Shape) (axes : List Nat) :
    (s.flattenAxes axes).volume ≤ s.volume := by
  rw [flattenAxes_eq]
  induction axes generalizing s with
  | nil => rw [fillAxes_nil]
  | cons a axes ih =>
    rw [fillAxes_cons]
    exact (ih _).trans (s.volume_set_one_le a)

/-- The volume of a shape whose axes are dropped. -/
theorem volume_dropAxes_le (s : Shape) (axes : List Nat) :
    (s.dropAxes axes).volume ≤ s.volume := by
  refine volume_le_of_sublist ?_
  have hkept : (s.zipIdx.filter fun p => decide (p.2 ∉ axes)).Sublist s.zipIdx :=
    List.filter_sublist
  have hsub := hkept.map Prod.fst
  rwa [List.zipIdx_map_fst] at hsub

end Shape

namespace Elem

variable {d : DType}

/-- The entries of a tensor of shape `s`, folded along one axis after the other. -/
def foldAxes (op : Reducer) : Shape → List Nat → (List Nat → Elem d) → List Nat → Elem d
  | _, [], f => f
  | s, a :: axes, f => foldAxes op (s.set a 1) axes fun c =>
      total op ((List.range (s.getD a 1)).map fun i => f (c.set a i))

/-- The entries outside the shape do not matter. -/
theorem foldAxes_congr {op : Reducer} {axes : List Nat} {s : Shape} {f g : List Nat → Elem d}
    (h : ∀ x, s.Within x → f x = g x) {c : List Nat} (hc : Shape.Within (s.flattenAxes axes) c) :
    foldAxes op s axes f c = foldAxes op s axes g c := by
  induction axes generalizing s f g with
  | nil =>
    rw [Shape.flattenAxes_eq, Shape.fillAxes_nil] at hc
    exact h c hc
  | cons a axes ih =>
    rw [Shape.flattenAxes_eq, Shape.fillAxes_cons] at hc
    refine ih (fun x hx => congrArg (total op) (List.map_congr_left fun i hi => h _ ?_)) hc
    have hw := hx.set a (List.mem_range.mp hi)
    rwa [List.set_set, Shape.set_getD_self] at hw

/-- The entries of a slice along an axis that stays. -/
theorem foldAxes_window {op : Reducer} {k len start : Nat} {axes : List Nat} (hk : k ∉ axes)
    (s : Shape) (f : List Nat → Elem d) (c : List Nat) :
    foldAxes op (s.set k len) axes (fun x => f (Shape.shift k start x)) c
      = foldAxes op s axes f (Shape.shift k start c) := by
  induction axes generalizing s f with
  | nil => rfl
  | cons a axes ih =>
    rw [List.mem_cons, not_or] at hk
    have hcomm : (s.set k len).set a 1 = (s.set a 1).set k len := List.set_comm _ _ hk.1
    have hext : List.getD (s.set k len) a 1 = s.getD a 1 := by
      rw [List.getD_eq_getElem?_getD, List.getElem?_set_ne hk.1, List.getD_eq_getElem?_getD]
    have hset : ∀ (x : List Nat) i,
        Shape.shift k start (x.set a i) = (Shape.shift k start x).set a i := by
      intro x i
      apply List.ext_getElem
      · simp
      · intro j h₁ h₂
        simp only [Shape.shift, List.getElem_modify, List.getElem_set]
        by_cases hkj : k = j
        · rw [if_pos hkj, if_neg (fun haj => hk.1 (hkj.trans haj.symm)),
            if_neg (fun haj => hk.1 (hkj.trans haj.symm)), if_pos hkj]
        · rw [if_neg hkj, if_neg hkj]
    simp only [foldAxes, hcomm, hext, hset]
    exact ih hk.2 _ fun x => total op ((List.range (s.getD a 1)).map fun i => f (x.set a i))

/-- The coordinates along an axis. -/
theorem perm_along {s : Shape} {a : Nat} (ha : a < s.length) {c : List Nat}
    (hc : Shape.Within (s.set a 1) c) :
    ((List.range (s.getD a 1)).map (c.set a ·)).Perm
      (s.coords.filter fun x => x.set a 0 = c) := by
  have hlen : a < c.length := by
    rw [hc.length_eq, List.length_set]
    exact ha
  have hzero : c.set a 0 = c := by
    have hlt := (Shape.within_iff.mp hc).2 a (by simpa using ha)
    rw [Shape.getD_set ha, if_pos rfl, List.getD_eq_getElem _ _ hlen, Nat.lt_one_iff] at hlt
    rw [← hlt, List.set_getElem_self]
  refine (List.perm_ext_iff_of_nodup ?_ ((Shape.nodup_coords s).filter _)).mpr fun x => ?_
  · refine List.Nodup.map_on (fun i _ j _ hij => ?_) List.nodup_range
    have := congrArg (·[a]?) hij
    simpa [hlen] using this
  · rw [List.mem_map, List.mem_filter, Shape.mem_coords, decide_eq_true_iff]
    constructor
    · rintro ⟨i, hi, rfl⟩
      have hw := hc.set a (List.mem_range.mp hi)
      rw [List.set_set, Shape.set_getD_self] at hw
      exact ⟨hw, by rw [List.set_set, hzero]⟩
    · rintro ⟨hx, rfl⟩
      have hxa : a < x.length := by simpa using hlen
      refine ⟨x[a], List.mem_range.mpr ?_, by rw [List.set_set, List.set_getElem_self]⟩
      have := (Shape.within_iff.mp hx).2 a ha
      rwa [List.getD_eq_getElem _ _ hxa] at this

/-- **Folding the axes one after the other combines all entries** at coordinates that agree on
the other axes. -/
theorem foldAxes_eq_total {op : Reducer} (h : op.Lawful d) {axes : List Nat} {s : Shape}
    (haxes : ∀ a ∈ axes, a < s.length) (f : List Nat → Elem d) {c : List Nat}
    (hc : Shape.Within (s.flattenAxes axes) c) :
    foldAxes op s axes f c
      = total op ((s.coords.filter fun x => Shape.fillAxes 0 axes x = c).map f) := by
  -- one axis after the other, for every shape that the axes before have left
  induction axes generalizing s f with
  | nil =>
    rw [Shape.flattenAxes_eq, Shape.fillAxes_nil] at hc
    simp only [Shape.fillAxes_nil]
    rw [List.filter_eq, List.count_eq_one_of_mem (Shape.nodup_coords s) (Shape.mem_coords.mpr hc)]
    exact (h.total_singleton (f c)).symm
  | cons a axes ih =>
    have ha : a < s.length := haxes a List.mem_cons_self
    rw [Shape.flattenAxes_eq, Shape.fillAxes_cons] at hc
    rw [foldAxes, ih (fun b hb => by simpa using haxes b (List.mem_cons_of_mem _ hb)) _ hc]
    -- entries are grouped by their coordinate after the first step
    rw [← h.total_groups (s.coords.filter fun x => Shape.fillAxes 0 (a :: axes) x = c)
      ((Shape.nodup_coords (s.set a 1)).filter fun y => decide (Shape.fillAxes 0 axes y = c))
      (fun x => x.set a 0)]
    · congr 1
      refine List.map_congr_left fun y hy => ?_
      obtain ⟨hy, hyc⟩ := List.mem_filter.mp hy
      have hperm := (perm_along ha (Shape.mem_coords.mp hy)).map f
      rw [List.map_map] at hperm
      rw [show ((List.range (s.getD a 1)).map fun i => f (y.set a i))
        = (List.range (s.getD a 1)).map (f ∘ (y.set a ·)) from rfl, h.total_perm hperm,
        List.filter_filter]
      congr 2
      refine List.filter_congr fun x _ => ?_
      rw [← Bool.decide_and]
      refine decide_eq_decide.mpr ⟨fun hxy => ⟨hxy, ?_⟩, And.left⟩
      rw [Shape.fillAxes_cons, hxy]
      exact of_decide_eq_true hyc
    · intro x hx
      obtain ⟨hx, hxc⟩ := List.mem_filter.mp hx
      refine List.mem_filter.mpr ⟨?_, ?_⟩
      · exact Shape.mem_coords.mpr ((Shape.mem_coords.mp hx).set a Nat.one_pos)
      · rw [← Shape.fillAxes_cons]
        exact hxc

end Elem

namespace Statistic

theorem workType_workType (stat : Statistic) (d : DType) :
    stat.workType (stat.workType d) = stat.workType d := by
  cases stat <;> cases d <;> rfl

theorem supports_reducer (stat : Statistic) (d : DType) :
    Buffer.supports stat.reducer d = true := by
  cases stat <;> rfl

variable {stat : Statistic} {d : DType} {s : Shape} {f : List Nat → Elem d} {a : Nat}
  {axes : List Nat} {how : Grouping}

/-- An axis is reduced, or something overflows. -/
theorem reduceTensor_tabulate_eq_or (ha : a < s.length) (hs : s.numel = .ok s.prod) :
    Shape.numel (s.set a 1) = .ok (List.prod (s.set a 1)) ∧
        stat.reduceTensor how (Tensor.tabulate d s f) (some a)
          = .ok (Tensor.tabulate (stat.workType d) (s.set a 1) fun c =>
              Elem.total stat.reducer ((List.range (s.getD a 1)).map fun i =>
                Elem.convert (stat.workType d) (f (c.set a i)))) ∨
      stat.reduceTensor how (Tensor.tabulate d s f) (some a) = .error (.fault .overflow) ∧
        Size.modulus ≤ s.volume := by
  rw [reduceTensor, Tensor.dtype_tabulate, Tensor.cast_tabulate]
  exact Tensor.reduce_tabulate_eq_or (stat.supports_reducer _) ha hs

/-- Tensors of the type in which they are reduced. -/
theorem foldlM_reduceTensor_eq_or (hd : stat.workType d = d) (haxes : ∀ a ∈ axes, a < s.length)
    (hs : s.numel = .ok s.prod) :
    (s.flattenAxes axes).numel = .ok (s.flattenAxes axes).prod ∧
        axes.foldlM (fun acc axis => stat.reduceTensor how acc (some axis)) (Tensor.tabulate d s f)
          = .ok (Tensor.tabulate d (s.flattenAxes axes) (Elem.foldAxes stat.reducer s axes f)) ∨
      axes.foldlM (fun acc axis => stat.reduceTensor how acc (some axis)) (Tensor.tabulate d s f)
        = .error (.fault .overflow) ∧ Size.modulus ≤ s.volume := by
  induction axes generalizing s f with
  | nil =>
    rw [Shape.flattenAxes_eq, Shape.fillAxes_nil]
    exact .inl ⟨hs, rfl⟩
  | cons a axes ih =>
    rw [List.foldlM_cons, Shape.flattenAxes_eq, Shape.fillAxes_cons]
    rcases @reduceTensor_tabulate_eq_or stat d s f a how (haxes a List.mem_cons_self) hs
      with ⟨hset, hstep⟩ | ⟨hstep, hvol⟩
    · rw [hd] at hstep
      rw [hstep]
      simp only [Elem.convert_self, ok_bind]
      exact (ih (fun b hb => by simpa using haxes b (List.mem_cons_of_mem _ hb)) hset).imp_right
        fun h => ⟨h.1, h.2.trans (s.volume_set_one_le a)⟩
    · rw [hstep]
      exact .inr ⟨rfl, hvol⟩

/-- **The reduction along one axis after the other** gives what it should, or something
overflows. -/
theorem foldlM_reduceTensor_cons_eq_or (haxes : ∀ b ∈ a :: axes, b < s.length)
    (hs : s.numel = .ok s.prod) :
    (s.flattenAxes (a :: axes)).numel = .ok (s.flattenAxes (a :: axes)).prod ∧
        (a :: axes).foldlM (fun acc axis => stat.reduceTensor how acc (some axis))
            (Tensor.tabulate d s f)
          = .ok (Tensor.tabulate (stat.workType d) (s.flattenAxes (a :: axes))
              (Elem.foldAxes stat.reducer s (a :: axes) fun c =>
                Elem.convert (stat.workType d) (f c))) ∨
      (a :: axes).foldlM (fun acc axis => stat.reduceTensor how acc (some axis))
        (Tensor.tabulate d s f) = .error (.fault .overflow) ∧ Size.modulus ≤ s.volume := by
  rw [List.foldlM_cons, Shape.flattenAxes_eq, Shape.fillAxes_cons]
  rcases @reduceTensor_tabulate_eq_or stat d s f a how (haxes a List.mem_cons_self) hs
    with ⟨hset, hstep⟩ | ⟨hstep, hvol⟩
  · rw [hstep, ok_bind]
    exact (foldlM_reduceTensor_eq_or (stat.workType_workType d)
      (fun b hb => by simpa using haxes b (List.mem_cons_of_mem _ hb)) hset).imp_right
        fun h => ⟨h.1, h.2.trans (s.volume_set_one_le a)⟩
  · rw [hstep]
    exact .inr ⟨rfl, hvol⟩

end Statistic

end SpmdArray
