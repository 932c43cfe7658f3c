import SpmdArray.Proofs.Reduction
import SpmdArray.Proofs.Windows

/-!
# What a reduction does to one tensor

An axis argument asks for some axes or for all elements, and the reduced axes stay with
extent 1 or are dropped.  Each entry of a tensor belongs to one cell of the result, and an
axis that stays moves past the dropped ones.

## Main definitions

* `Plan.cell` — the coordinate of the result to which an entry contributes.
* `Plan.value` — the entries of the result.
* `Plan.moved` — the axis that an axis becomes.
* `Plan.result` — the result for a tensor.

## Main results

* `Plan.value_eq_total` — the result at a coordinate combines the entries of its cell.
* `Plan.reduceShard_eq_or`, `Plan.reduceShard_eq` — the reduction of a tensor.
* `Plan.volume_gshape_le` — a reduction does not make the volume greater.
* `Plan.result_window` — slices of results are results of slices.
-/

namespace SpmdArray

namespace Plan

variable {p : Plan} {how : Grouping} {op : Reducer} {d : DType} {s : Shape} {k len start : Nat}

/-- The axes are axes of the shape, and no axis comes twice. -/
def Valid (p : Plan) (s : Shape) : Prop :=
  ∀ axes, p.axes = some axes → axes.Nodup ∧ ∀ a ∈ axes, a < s.length

/-- The coordinate of the result to which the entry at `x` contributes. -/
def cell (p : Plan) (x : List Nat) : List Nat :=
  match p.axes with
  | none => if p.keepdim then List.replicate x.length 0 else [0]
  | some axes => if p.keepdim then Shape.fillAxes 0 axes x else Shape.dropAxes x axes

/-- The entry of the result at `c`, for a tensor of shape `s` with the entries `f`.  It depends on
`how` only if all elements are reduced at once. -/
def value (p : Plan) (how : Grouping) (op : Reducer) (s : Shape) (f : List Nat → Elem d)
    (c : List Nat) : Elem d :=
  match p.axes with
  | none => Elem.totalBy how op (s.coords.map f)
  | some axes => Elem.foldAxes op s axes f (if p.keepdim then c else s.undrop axes c)

theorem within_replicate_iff {n : Nat} {x : List Nat} :
    Shape.Within (List.replicate n 1) x ↔ x = List.replicate n 0 := by
  induction n generalizing x with
  | zero => exact List.forall₂_nil_right_iff
  | succ n ih =>
    cases x with
    | nil => exact iff_of_false (fun h => nomatch h) (fun h => nomatch h)
    | cons i x =>
      rw [List.replicate_succ, List.replicate_succ, Shape.within_cons, ih, List.cons.injEq,
        Nat.lt_one_iff]

/-- **A reduction does not make the volume greater.** -/
theorem volume_gshape_le (p : Plan) (s : Shape) : (p.gshape s).volume ≤ s.volume := by
  have hone : 1 ≤ s.volume := Shape.volume_le_of_sublist (List.nil_sublist s)
  unfold gshape
  split
  · refine le_trans (Nat.le_of_eq ?_) hone
    split
    · simp [Shape.volume]
    · rfl
  · unfold Shape.reduced
    split
    · exact s.volume_flattenAxes_le _
    · exact s.volume_dropAxes_le _

theorem mem_gshape {e : Nat} (h : e ∈ p.gshape s) : e = 1 ∨ e ∈ s := by
  unfold gshape at h
  split at h
  · left
    split at h
    · exact List.eq_of_mem_replicate h
    · exact List.mem_singleton.mp h
  · next axes _ =>
    unfold Shape.reduced at h
    split at h
    · obtain ⟨q, hq, rfl⟩ := List.mem_map.mp h
      by_cases ha : q.2 ∈ axes
      · exact .inl (if_pos ha)
      · rw [if_neg ha]
        exact .inr (List.fst_mem_of_mem_zipIdx hq)
    · obtain ⟨q, hq, rfl⟩ := List.mem_map.mp h
      exact .inr (List.fst_mem_of_mem_zipIdx (List.mem_of_mem_filter hq))

/-- **The entry at a coordinate combines all entries of its cell.** -/
theorem value_eq_total (h : op.Lawful d) (hp : p.Valid s) (f : List Nat → Elem d)
    {c : List Nat} (hc : Shape.Within (p.gshape s) c) :
    p.value how op s f c = Elem.total op ((s.coords.filter fun x => p.cell x = c).map f) := by
  unfold value cell
  unfold gshape at hc
  -- every entry is read for the only cell, or those that agree outside of the axes
  cases haxes : p.axes with
  | none =>
    rw [haxes] at hc
    simp only [h.divisible.totalBy_eq] at hc ⊢
    rw [List.filter_eq_self.mpr]
    intro x hx
    rw [decide_eq_true_iff, (Shape.mem_coords.mp hx).length_eq]
    split
    · next hkeep =>
      rw [if_pos hkeep] at hc
      exact (within_replicate_iff.mp hc).symm
    · next hkeep =>
      rw [if_neg hkeep] at hc
      exact (within_replicate_iff (n := 1).mp hc).symm
  | some axes =>
    rw [haxes] at hc
    simp only [Shape.reduced] at hc ⊢
    cases hkeep : p.keepdim with
    | true =>
      rw [hkeep] at hc
      exact Elem.foldAxes_eq_total h (hp axes haxes).2 f hc
    | false =>
      rw [hkeep] at hc
      refine (Elem.foldAxes_eq_total h (hp axes haxes).2 f (Shape.within_undrop hc)).trans ?_
      congr 2
      refine List.filter_congr fun x hx => decide_eq_decide.mpr ?_
      exact (Shape.dropAxes_eq_iff (Shape.mem_coords.mp hx) hc).symm

/-- The entries outside the shape do not matter. -/
theorem value_congr {f g : List Nat → Elem d} (h : ∀ x, s.Within x → f x = g x) {c : List Nat}
    (hc : Shape.Within (p.gshape s) c) : p.value how op s f c = p.value how op s g c := by
  unfold value
  unfold gshape at hc
  cases haxes : p.axes with
  | none =>
    exact congrArg (Elem.totalBy how op)
      (List.map_congr_left fun x hx => h x (Shape.mem_coords.mp hx))
  | some axes =>
    rw [haxes] at hc
    simp only [Shape.reduced] at hc ⊢
    refine Elem.foldAxes_congr h ?_
    split
    · next hkeep => rwa [if_pos hkeep] at hc
    · next hkeep =>
      rw [if_neg hkeep] at hc
      exact Shape.within_undrop hc

/-! ### Slices along an axis that stays -/

/-- The axis that the axis `k` becomes if it stays. -/
def moved (p : Plan) (k : Nat) : Nat :=
  match p.axes, p.keepdim with
  | some axes, false => k - (axes.filter (· < k)).length
  | _, _ => k

theorem split_eq (p : Plan) (split : Option Nat) :
    p.split split = if p.reducesSplit split then none else split.map p.moved := rfl

/-- The axes of a reduction that leaves the axis `k` alone. -/
theorem axes_of_keeps (h : p.reducesSplit (some k) = false) :
    ∃ axes, p.axes = some axes ∧ k ∉ axes := by
  unfold reducesSplit at h
  cases haxes : p.axes with
  | none =>
    rw [haxes] at h
    cases h
  | some axes =>
    rw [haxes] at h
    exact ⟨axes, rfl, of_decide_eq_false h⟩

theorem getElem?_gshape_moved (hp : p.Valid s) (h : p.reducesSplit (some k) = false) :
    (p.gshape s)[p.moved k]? = s[k]? := by
  obtain ⟨axes, haxes, hk⟩ := axes_of_keeps h
  unfold gshape moved
  rw [haxes]
  cases p.keepdim with
  | true =>
    show (Shape.fillAxes 1 axes s)[k]? = s[k]?
    by_cases hlt : k < s.length
    · rw [List.getElem?_eq_getElem (by simpa using hlt), Shape.getElem_fillAxes, if_neg hk,
        List.getElem?_eq_getElem hlt]
    · rw [List.getElem?_eq_none (by simpa using hlt), List.getElem?_eq_none (by simpa using hlt)]
  | false => exact Shape.getElem?_dropAxes (hp axes haxes).1 hk

theorem getD_gshape_moved (hp : p.Valid s) (h : p.reducesSplit (some k) = false) :
    List.getD (p.gshape s) (p.moved k) 1 = s.getD k 1 := by
  rw [List.getD_eq_getElem?_getD, getElem?_gshape_moved hp h, ← List.getD_eq_getElem?_getD]

theorem moved_lt (hp : p.Valid s) (h : p.reducesSplit (some k) = false) (hk : k < s.length) :
    p.moved k < (p.gshape s).length := by
  have hget := getElem?_gshape_moved hp h
  rw [List.getElem?_eq_getElem hk] at hget
  exact (List.getElem?_eq_some_iff.mp hget).1

/-- A result that is split has the split axis of its operand. -/
theorem split_eq_some {split : Option Nat} {i : Nat} (h : p.split split = some i) :
    ∃ k, split = some k ∧ p.reducesSplit (some k) = false ∧ i = p.moved k := by
  rw [split_eq] at h
  split at h
  · cases h
  · next hkeeps =>
    obtain ⟨k, rfl, rfl⟩ := Option.map_eq_some_iff.mp h
    exact ⟨k, rfl, Bool.eq_false_iff.mpr hkeeps, rfl⟩

theorem gshape_set_of_keeps (hp : p.Valid s) (h : p.reducesSplit (some k) = false) (len : Nat) :
    p.gshape (s.set k len) = (p.gshape s).set (p.moved k) len := by
  obtain ⟨axes, haxes, hk⟩ := axes_of_keeps h
  unfold gshape moved
  rw [haxes]
  cases p.keepdim with
  | true => exact Shape.fillAxes_set_of_notMem hk len
  | false => exact Shape.dropAxes_set (hp axes haxes).1 hk len

/-- **The entries for a slice along an axis that stays.** -/
theorem value_window (hp : p.Valid s) (h : p.reducesSplit (some k) = false)
    (hlen : start + len ≤ s.getD k 1) (f : List Nat → Elem d) {c : List Nat}
    (hc : Shape.Within (p.gshape (s.set k len)) c) :
    p.value how op (s.set k len) (fun x => f (Shape.shift k start x)) c
      = p.value how op s f (Shape.shift (p.moved k) start c) := by
  obtain ⟨axes, haxes, hk⟩ := axes_of_keeps h
  unfold value moved
  unfold gshape at hc
  rw [haxes] at hc ⊢
  cases hkeep : p.keepdim with
  | true => exact Elem.foldAxes_window hk s f c
  | false =>
    rw [hkeep] at hc
    simp only [Bool.false_eq_true, if_false]
    have hx := Shape.within_undrop hc
    have hdrop := Shape.dropAxes_undrop hc
    generalize Shape.undrop (s.set k len) axes c = x at hx hdrop
    refine (Elem.foldAxes_window hk s f x).trans (congrArg (Elem.foldAxes op s axes f) ?_)
    have hw : Shape.Within (s.flattenAxes axes) (Shape.shift k start x) := by
      rw [Shape.flattenAxes_eq, Shape.fillAxes_set_of_notMem hk] at hx
      exact Shape.within_shift ((Shape.getD_fillAxes_of_notMem hk 1).symm ▸ hlen) hx
    rw [← hdrop, ← Shape.dropAxes_shift (hp axes haxes).1 hk, Shape.undrop_dropAxes hw]

/-! ### Slices along an axis that is reduced -/

/-- Slices along a reduced axis have results of one shape. -/
theorem gshape_set_of_reduces (h : p.reducesSplit (some k) = true) (len : Nat) :
    p.gshape (s.set k len) = p.gshape s := by
  unfold reducesSplit at h
  unfold gshape
  cases haxes : p.axes with
  | none => simp only [List.length_set]
  | some axes =>
    rw [haxes] at h
    have hk : k ∈ axes := of_decide_eq_true h
    simp only [Shape.reduced]
    split
    · rw [List.set_eq_modify]
      exact Shape.fillAxes_modify_of_mem hk _
    · rw [List.set_eq_modify]
      exact Shape.dropAxes_modify_of_mem hk _

/-- An entry of a slice along a reduced axis contributes to the same cell. -/
theorem cell_shift (h : p.reducesSplit (some k) = true) (start : Nat) (x : List Nat) :
    p.cell (Shape.shift k start x) = p.cell x := by
  unfold reducesSplit at h
  unfold cell
  cases haxes : p.axes with
  | none => simp only [Shape.length_shift]
  | some axes =>
    rw [haxes] at h
    have hk : k ∈ axes := of_decide_eq_true h
    simp only
    split
    · exact Shape.fillAxes_modify_of_mem hk _
    · exact Shape.dropAxes_modify_of_mem hk _

/-! ### Fewer entries along an axis -/

theorem Valid.set (hp : p.Valid s) (k len : Nat) : p.Valid (s.set k len) := by
  intro axes haxes
  rw [List.length_set]
  exact hp axes haxes

/-! ### The reduction of a tensor -/

/-- The element type of the result: without an axis nothing is converted. -/
def workType (p : Plan) (stat : Statistic) (d : DType) : DType :=
  match p.axes with
  | some [] => d
  | _ => stat.workType d

/-- The result of a reduction. -/
def result (p : Plan) (how : Grouping) (stat : Statistic) (t : Tensor) : Tensor :=
  Tensor.tabulate (p.workType stat t.dtype) (p.gshape t.shape)
    (p.value how stat.reducer t.shape fun c => Elem.convert _ (t.get c))

variable {stat : Statistic} {t : Tensor}

@[simp] theorem shape_result : (p.result how stat t).shape = p.gshape t.shape := rfl

@[simp] theorem dtype_result : (p.result how stat t).dtype = p.workType stat t.dtype := rfl

theorem exact_result (how : Grouping) (stat : Statistic) (ht : t.Exact) :
    (p.result how stat t).Exact :=
  Tensor.exact_tabulate ((p.volume_gshape_le t.shape).trans_lt ht.sized)

/-- How threads share out the elements does not matter for a divisible reducer. -/
theorem result_eq_of_divisible (h : stat.reducer.Divisible (p.workType stat t.dtype))
    (how' : Grouping) : p.result how stat t = p.result how' stat t := by
  refine Tensor.tabulate_congr fun c _ => ?_
  unfold value
  split
  · rw [h.totalBy_eq, h.totalBy_eq]
  · rfl

theorem reduceAll_tabulate {f : List Nat → Elem d} :
    stat.reduceTensor how (Tensor.tabulate d s f) none
      = .ok (Tensor.tabulate (stat.workType d) [1] fun _ => Elem.totalBy how stat.reducer
          (s.coords.map fun c => Elem.convert (stat.workType d) (f c))) := by
  rw [Statistic.reduceTensor, Tensor.dtype_tabulate, Tensor.cast_tabulate]
  unfold Tensor.reduce
  rw [Tensor.dtype_tabulate, stat.supports_reducer]
  have hone : Shape.numel [1] = .ok (Buffer.length ⟨stat.workType d, [Elem.totalBy how stat.reducer
      (s.coords.map fun c => Elem.convert (stat.workType d) (f c))]⟩) :=
    Shape.numel_of_volume_lt (by decide)
  exact Tensor.ofBuffer_of_numel hone

section Shard

variable {g : Shape}

/-- The shape of a result over all elements. -/
theorem prod_gshape_all (keepdim : Bool) (s : Shape) : (gshape ⟨none, keepdim⟩ s).prod = 1 := by
  cases keepdim with
  | true => exact (List.prod_replicate _ _).trans (Nat.one_pow _)
  | false => rfl

theorem volume_gshape_all (keepdim : Bool) (s : Shape) :
    (gshape ⟨none, keepdim⟩ s).volume = 1 := by
  cases keepdim with
  | true => simp [gshape, Shape.volume]
  | false => rfl

/-- All elements are reduced at once, whatever their shape. -/
theorem reduceShard_all (ht : t.Stored) {keepdim : Bool} (hg : g = gshape ⟨none, keepdim⟩ t.shape) :
    reduceShard ⟨none, keepdim⟩ (stat.reduceTensor how) t g
      = .ok (result ⟨none, keepdim⟩ how stat t) := by
  conv_lhs => rw [ht.eq_tabulate]
  subst hg
  unfold reduceShard
  simp only [reduceAll_tabulate, ok_bind]
  refine Tensor.reshape_tabulate (prod_gshape_all keepdim _) ?_
  rw [volume_gshape_all]
  decide

/-- What is reduced along the axes of the plan is the result, once dropped axes are gone. -/
theorem reduceShard_of_folded {axes : List Nat} (keepdim : Bool)
    (hflat : (t.shape.flattenAxes axes).numel = .ok (t.shape.flattenAxes axes).prod)
    (hfold : axes.foldlM (fun acc axis => stat.reduceTensor how acc (some axis)) t
      = .ok (result ⟨some axes, true⟩ how stat t)) :
    (gshape ⟨some axes, keepdim⟩ t.shape).numel
        = .ok (gshape ⟨some axes, keepdim⟩ t.shape).prod ∧
      reduceShard ⟨some axes, keepdim⟩ (stat.reduceTensor how) t g
        = .ok (result ⟨some axes, keepdim⟩ how stat t) := by
  unfold reduceShard
  simp only [hfold, ok_bind]
  cases keepdim with
  | true => exact ⟨hflat, rfl⟩
  | false =>
    have hdrop : Shape.dropAxes (t.shape.flattenAxes axes) axes = t.shape.dropAxes axes := by
      rw [Shape.flattenAxes_eq, Shape.dropAxes_fillAxes]
    have hcount : Shape.numel (t.shape.dropAxes axes) = .ok (t.shape.dropAxes axes).prod :=
      (t.shape.numel_dropAxes axes).trans
        (hflat.trans (congrArg Except.ok (t.shape.prod_dropAxes axes).symm))
    refine ⟨hcount, ?_⟩
    show Tensor.reshape _ (Shape.dropAxes (t.shape.flattenAxes axes) axes) = _
    rw [hdrop]
    exact Tensor.reshape_tabulate_of_numel (t.shape.prod_dropAxes axes) hcount

/-- **A tensor is reduced along all axes of the plan, or something overflows.** -/
theorem reduceShard_eq_or (how : Grouping) (stat : Statistic) (ht : t.Stored)
    (hp : p.Valid t.shape) (hg : p.axes = none → g = p.gshape t.shape) :
    (p.gshape t.shape).numel = .ok (p.gshape t.shape).prod ∧
        p.reduceShard (stat.reduceTensor how) t g = .ok (p.result how stat t) ∨
      p.reduceShard (stat.reduceTensor how) t g = .error (.fault .overflow) ∧
        Size.modulus ≤ t.shape.volume := by
  obtain ⟨axes, keepdim⟩ := p
  cases axes with
  | none =>
    refine .inl ⟨Shape.numel_of_volume_lt ?_, reduceShard_all ht (hg rfl)⟩
    rw [volume_gshape_all]
    decide
  | some axes =>
    -- an empty list leaves the type alone, any other one goes through the work type
    have hfold : (t.shape.flattenAxes axes).numel = .ok (t.shape.flattenAxes axes).prod ∧
        axes.foldlM (fun acc axis => stat.reduceTensor how acc (some axis)) t
          = .ok (result ⟨some axes, true⟩ how stat t) ∨
        axes.foldlM (fun acc axis => stat.reduceTensor how acc (some axis)) t
          = .error (.fault .overflow) ∧ Size.modulus ≤ t.shape.volume := by
      cases axes with
      | nil =>
        refine .inl ⟨by rw [Shape.flattenAxes_eq, Shape.fillAxes_nil, ht.counted], ?_⟩
        refine congrArg Except.ok (ht.eq_tabulate.trans ?_)
        simp only [result, workType, gshape, Shape.reduced, if_true, Elem.convert_self,
          Shape.flattenAxes_eq, Shape.fillAxes_nil]
        rfl
      | cons a axes =>
        have h := @Statistic.foldlM_reduceTensor_cons_eq_or stat t.dtype t.shape t.get a axes how
          (hp _ rfl).2 ht.counted
        rwa [← ht.eq_tabulate] at h
    rcases hfold with ⟨hflat, hfold⟩ | ⟨hfold, hvol⟩
    · exact .inl (reduceShard_of_folded keepdim hflat hfold)
    · refine .inr ⟨?_, hvol⟩
      unfold reduceShard
      simp only [hfold, error_bind]

/-- **The reduction of a tensor**, along all axes of the plan. -/
theorem reduceShard_eq (ht : t.Exact) (hp : p.Valid t.shape)
    (hg : p.axes = none → g = p.gshape t.shape) :
    p.reduceShard (stat.reduceTensor how) t g = .ok (p.result how stat t) :=
  ((reduceShard_eq_or how stat ht.stored hp hg).resolve_right
    fun h => Nat.not_lt.mpr h.2 ht.sized).2

end Shard

/-- **Slices of results are results of slices**, along an axis that stays. -/
theorem result_window (hp : p.Valid t.shape) (h : p.reducesSplit (some k) = false)
    (hlen : start + len ≤ t.shape.getD k 1) :
    p.result how stat (t.window k start len)
      = (p.result how stat t).window (p.moved k) start len := by
  have hmoved : start + len ≤ List.getD (p.gshape t.shape) (p.moved k) 1 :=
    (getD_gshape_moved hp h).symm ▸ hlen
  conv_rhs => rw [result, Tensor.window_tabulate hmoved]
  show Tensor.tabulate (p.workType stat t.dtype) (p.gshape (t.shape.set k len)) _ = _
  rw [← gshape_set_of_keeps hp h]
  refine Tensor.tabulate_congr fun c hc => ?_
  refine Eq.trans ?_ (value_window hp h hlen (fun c => Elem.convert _ (t.get c)) hc)
  exact value_congr (fun x hx => congrArg (Elem.convert _) (Tensor.get_tabulate hx)) hc

end Plan

end SpmdArray
