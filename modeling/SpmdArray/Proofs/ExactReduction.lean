import Mathlib.Data.List.FinRange
import SpmdArray.Proofs.GroupReduction
import SpmdArray.Proofs.Numbers

/-!
# Reductions of truth values and integers

The reductions of a group are compared with reductions of numbers.  The ranks may hold any
consecutive slices of a tensor, some of them empty: the result is the same.

## Main definitions

* `Axis.Valid`, `Axis.positions` — the axis arguments that name some axis, and what they name.
* `Tensor.reduction` — the reduction of the numbers of a tensor.

## Main results

* `Shape.coords_perm` — consecutive slices make up a tensor.
* `Plan.whole_eq_reduction` — the result of a group is the reduction of the numbers.
* `Sharded.reduce_runs` — what a group makes of any consecutive slices.
-/

namespace SpmdArray

/-! ### Axis arguments -/

namespace Axis

/-- The position from the front that an entry names. -/
def position (ndim : Nat) (a : Int) : Nat := (if a < 0 then a + ndim else a).toNat

/-- The positions that an argument names; `none` stands for all elements. -/
def positions (ndim : Nat) : Axis → Option (List Nat)
  | all => none
  | single a => some [position ndim a]
  | many as => some (as.map (position ndim))

/-- The argument asks for all elements, or names one axis or several distinct ones. -/
def Valid (ndim : Nat) : Axis → Prop
  | all => True
  | single a => -(ndim : Int) ≤ a ∧ a < ndim
  | many as => as ≠ [] ∧ (∀ a ∈ as, -(ndim : Int) ≤ a ∧ a < ndim) ∧
      (as.map (position ndim)).Nodup

theorem normalize_eq {ndim : Nat} {a : Int} (h : -(ndim : Int) ≤ a ∧ a < ndim) :
    normalize ndim a = .ok (position ndim a) := by
  rw [normalize, if_neg (by omega)]
  rfl

theorem resolveFrom_eq {ndim : Nat} {as : List Int} (h : ∀ a ∈ as, -(ndim : Int) ≤ a ∧ a < ndim)
    {seen : List Nat} (hnd : (seen ++ as.map (position ndim)).Nodup) :
    resolveFrom ndim seen as = .ok (seen ++ as.map (position ndim)) := by
  induction as generalizing seen with
  | nil => exact congrArg Except.ok (List.append_nil seen).symm
  | cons a as ih =>
    have hnew : position ndim a ∉ seen := fun hmem =>
      (List.nodup_append'.mp hnd).2.2 hmem List.mem_cons_self
    have hcons : seen ++ (a :: as).map (position ndim)
        = (seen ++ [position ndim a]) ++ as.map (position ndim) := by simp
    rw [hcons] at hnd ⊢
    rw [← ih (fun b hb => h b (List.mem_cons_of_mem _ hb)) hnd,
      resolveFrom_cons_of_ok (normalize_eq (h a List.mem_cons_self)), if_neg hnew]

/-- **A valid argument is understood.** -/
theorem resolve_eq {s : Shape} {axis : Axis} (h : axis.Valid s.ndim) :
    axis.resolve s = .ok (axis.positions s.ndim) := by
  cases axis with
  | all => rfl
  | single a =>
    have hone := @resolveFrom_eq s.ndim [a] (fun b hb => List.mem_singleton.mp hb ▸ h) []
      (List.nodup_singleton _)
    rw [resolve, hone]
    rfl
  | many as =>
    obtain ⟨-, hrange, hnd⟩ := h
    rw [resolve, resolveFrom_eq hrange hnd]
    rfl

theorem positions_ne_nil {ndim : Nat} {axis : Axis} (h : axis.Valid ndim) :
    axis.positions ndim ≠ some [] := by
  cases axis with
  | all => exact fun hnil => nomatch hnil
  | single a => exact fun hnil => nomatch hnil
  | many as => exact fun hnil => h.1 (List.map_eq_nil_iff.mp (Option.some.inj hnil))

end Axis

/-! ### Consecutive slices -/

namespace Comm

variable {n : Nat} {len : Fin n → Nat}

theorem exists_slice {i m : Nat} (hm : m ≤ n) (hi : i < before len m) :
    ∃ r : Fin n, before len r ≤ i ∧ i < before len r + len r := by
  induction m with
  | zero => exact absurd hi (Nat.not_lt_zero i)
  | succ m ih =>
    rw [before_succ len ⟨m, hm⟩] at hi
    rcases Nat.lt_or_ge i (before len m) with hlt | hge
    · exact ih (by omega) hlt
    · exact ⟨⟨m, hm⟩, hge, hi⟩

/-- The slice of a rank ends before that of a later rank. -/
theorem slice_le (len : Fin n → Nat) {r q : Fin n} (h : r < q) :
    before len r + len r ≤ before len q := by
  rw [← before_succ]
  exact before_mono len h

end Comm

namespace Shape

variable {n : Nat} {len : Fin n → Nat} {s : Shape} {k : Nat}

theorem shift_injective (k start : Nat) : Function.Injective (shift k start) := by
  intro x y h
  refine List.ext_getElem? fun j => ?_
  have hj := congrArg (·[j]?) h
  simp only [shift, List.getElem?_modify] at hj
  refine Option.map_injective (fun a b hab => ?_) hj
  split at hab <;> omega

/-- The coordinates of a slice. -/
theorem mem_map_shift {start len : Nat} (hk : k < s.length) (h : start + len ≤ s.getD k 1)
    {x : List Nat} : x ∈ (coords (s.set k len)).map (shift k start) ↔
      s.Within x ∧ start ≤ x.getD k 0 ∧ x.getD k 0 < start + len := by
  rw [List.mem_map]
  constructor
  · rintro ⟨y, hy, rfl⟩
    rw [mem_coords] at hy
    have hlen : k < y.length := by rw [hy.length_eq, List.length_set]; exact hk
    have hlt := (within_iff.mp hy).2 k (by rwa [List.length_set])
    rw [getD_set hk, if_pos rfl] at hlt
    rw [getD_shift _ _ hlen, if_pos rfl]
    exact ⟨within_shift h hy, by omega, by omega⟩
  · rintro ⟨hx, hlo, hhi⟩
    have hlen : k < x.length := by rw [hx.length_eq]; exact hk
    refine ⟨x.set k (x.getD k 0 - start), mem_coords.mpr (hx.set k (by omega)), ?_⟩
    rw [List.getD_eq_getElem _ _ hlen] at hlo ⊢
    refine List.ext_getElem (by simp) fun j h₁ h₂ => ?_
    simp only [shift, List.getElem_modify, List.getElem_set]
    by_cases hj : k = j
    · subst hj
      rw [if_pos rfl, if_pos rfl, Nat.sub_add_cancel hlo]
    · rw [if_neg hj, if_neg hj]

/-- **Consecutive slices make up a tensor**: each coordinate lies in one of them. -/
theorem coords_perm (hk : k < s.length) (hlen : (List.ofFn len).sum = s.getD k 1) :
    ((List.finRange n).flatMap fun r =>
      (coords (s.set k (len r))).map (shift k (Comm.before len r))).Perm s.coords := by
  have hfit : ∀ r : Fin n, Comm.before len r + len r ≤ s.getD k 1 := by
    intro r
    rw [← hlen, ← Comm.before_size, ← Comm.before_succ]
    exact Comm.before_mono len r.isLt
  refine (List.perm_ext_iff_of_nodup ?_ (nodup_coords s)).mpr fun x => ?_
  · refine List.nodup_flatMap.mpr ⟨fun r _ => (nodup_coords _).map (shift_injective k _), ?_⟩
    refine (List.pairwise_lt_finRange n).imp fun {r q} hlt x hr hq => ?_
    have hle := Comm.slice_le len hlt
    have := ((mem_map_shift hk (hfit r)).mp hr).2
    have := ((mem_map_shift hk (hfit q)).mp hq).2
    omega
  · rw [List.mem_flatMap, mem_coords]
    constructor
    · rintro ⟨r, -, hx⟩
      exact ((mem_map_shift hk (hfit r)).mp hx).1
    · intro hx
      have hlt := (within_iff.mp hx).2 k hk
      rw [← hlen, ← Comm.before_size] at hlt
      obtain ⟨r, hr⟩ := Comm.exists_slice Nat.le.refl hlt
      exact ⟨r, List.mem_finRange r, (mem_map_shift hk (hfit r)).mpr ⟨hx, hr⟩⟩

end Shape

/-! ### The reduction of numbers -/

/-- The reduction of a tensor of truth values or integers: the entry at a coordinate is the
reduction of the numbers in its cell. -/
def Tensor.reduction (stat : Statistic) (p : Plan) (t : Tensor) : Tensor :=
  tabulate (stat.workType t.dtype) (p.gshape t.shape) fun c =>
    Elem.ofNumber _ (stat.exact t.dtype
      ((t.shape.coords.filter fun x => p.cell x = c).map fun x => (t.get x).number))

theorem Statistic.boolean_workType (stat : Statistic) (d : DType) :
    (if stat.reducer.isBoolean then .bool else stat.workType d) = stat.workType d := by
  cases stat <;> rfl

namespace Plan

variable {p : Plan} {stat : Statistic} {t : Tensor} {n : Nat} {len : Fin n → Nat}

theorem workType_eq (h : p.axes ≠ some []) (stat : Statistic) (d : DType) :
    p.workType stat d = stat.workType d := by
  unfold workType
  split
  · next hnil => exact absurd hnil h
  · rfl

theorem result_eq_reduction (hd : t.dtype.isFloat = false) (hp : p.Valid t.shape)
    (haxes : p.axes ≠ some []) (how : Grouping) : p.result how stat t = t.reduction stat p := by
  unfold result Tensor.reduction
  rw [workType_eq haxes]
  refine Tensor.tabulate_congr fun c hc => ?_
  rw [value_eq_total (stat.lawful hd) hp _ hc]
  have htotal := stat.total_eq_exact hd
    ((t.shape.coords.filter fun x => p.cell x = c).map t.get)
  rw [List.map_map, List.map_map] at htotal
  exact htotal

/-- The partial results of consecutive slices make up the result. -/
theorem across_eq [NeZero n] {d : DType} {s : Shape} {k : Nat} (op : Reducer) (h : op.Lawful d)
    (hp : p.Valid s) (hk : k < s.length) (hlen : (List.ofFn len).sum = s.getD k 1)
    (hred : p.reducesSplit (some k) = true) (how : Fin n → Grouping) (f : List Nat → Elem d)
    {c : List Nat} (hc : Shape.Within (p.gshape s) c) :
    (Comm.across op fun r => p.value (how r) op (s.set k (len r))
      (fun x => f (Shape.shift k (Comm.before len r) x)) c)
      = Elem.total op ((s.coords.filter fun x => p.cell x = c).map f) := by
  have hpart : ∀ r, p.value (how r) op (s.set k (len r))
      (fun x => f (Shape.shift k (Comm.before len r) x)) c
      = Elem.total op ((((Shape.coords (s.set k (len r))).map
          (Shape.shift k (Comm.before len r))).filter fun x => p.cell x = c).map f) := by
    intro r
    rw [value_eq_total h (hp.set k (len r)) _ (by rwa [gshape_set_of_reduces hred]),
      List.filter_map, List.map_map]
    simp only [Function.comp_def, cell_shift hred]
  simp only [hpart]
  rw [Comm.across_eq_total h, List.ofFn_eq_map, ← h.total_flatMap]
  refine h.total_perm ?_
  have hperm := ((Shape.coords_perm hk hlen).filter fun x => p.cell x = c).map f
  rw [List.filter_flatMap, List.map_flatMap] at hperm
  exact hperm

/-- **The result of a group** that holds consecutive slices is that of a single process. -/
theorem gathered_eq_result [NeZero n] {k : Option Nat} (hd : t.dtype.isFloat = false)
    (hp : p.Valid t.shape) (haxes : p.axes ≠ some []) (hk : ∀ s, k = some s → s < t.ndim)
    (hlen : ∀ s, k = some s → (List.ofFn len).sum = t.shape.getD s 1) (how : Fin n → Grouping)
    (r : Fin n) :
    p.gathered how stat t k (fun r => Comm.before len r) len r = p.result (how r) stat t := by
  unfold gathered
  split
  · next hred =>
    cases k with
    | none => cases hred
    | some s =>
      unfold result
      rw [workType_eq haxes]
      refine Tensor.tabulate_congr fun c hc => ?_
      rw [value_eq_total (stat.lawful hd) hp _ hc]
      refine Eq.trans ?_ (across_eq stat.reducer (stat.lawful hd) hp (hk s rfl) (hlen s rfl) hred
        how (fun x => Elem.convert _ (t.get x)) hc)
      congr 1
      funext r
      refine value_congr (fun x hx => congrArg (Elem.convert _) (Tensor.get_tabulate hx)) ?_
      exact (gshape_set_of_reduces hred (len r)).symm ▸ hc
  · rfl

theorem whole_eq_reduction [NeZero n] {k : Option Nat} (hd : t.dtype.isFloat = false)
    (hp : p.Valid t.shape) (haxes : p.axes ≠ some []) (hk : ∀ s, k = some s → s < t.ndim)
    (hlen : ∀ s, k = some s → (List.ofFn len).sum = t.shape.getD s 1) (how : Fin n → Grouping)
    (r : Fin n) :
    p.whole how stat t k (fun r => Comm.before len r) len r = t.reduction stat p := by
  rw [whole, gathered_eq_result hd hp haxes hk hlen, result_eq_reduction hd hp haxes,
    workType_eq haxes, stat.boolean_workType]
  unfold Tensor.reduction
  rw [Tensor.cast_tabulate]
  simp only [Elem.convert_self]

end Plan

namespace Sharded

variable {n : Nat} {t : Tensor} {k : Option Nat} {len : Fin n → Nat} {dev : Fin n → Device}
  {c : Fin n → Comm} {x : Fin n → Sharded}

/-- The handles that the constructor makes of consecutive slices. -/
theorem slices_of_create [NeZero n] (ht : t.Exact) (hc : Comm.Spans c)
    (hlen : ∀ s, k = some s → (List.ofFn len).sum = t.shape.getD s 1)
    (hx : ∀ r : Fin n, create (t.slice k (Comm.before len r) (len r)) t.shape t.dtype k (dev r)
      (c r) = .ok (x r)) : Slices x t k (fun r => Comm.before len r) len c where
  exact := ht
  spans := hc
  axis_lt s hs := (create_eq_ok_iff.mp (hx 0)).2.1 s hs
  fits s hs q := by
    rw [← hlen s hs, ← Comm.before_size, ← Comm.before_succ]
    exact Comm.before_mono len q.isLt
  handle q := by rw [(create_eq_ok_iff.mp (hx q)).1]

/-- **Reductions of consecutive slices.**  Whatever the ranks hold of a tensor of truth values or
integers, and however they share it out among their threads, each of them ends up with its part of
the reduction of the numbers, and they meet only if the split axis is reduced. -/
theorem reduce_runs [NeZero n] (how : Fin n → Grouping) (stat : Statistic) (axis : Axis)
    (keepdim : Bool) (ht : t.Exact) (hd : t.dtype.isFloat = false) (hc : Comm.Spans c)
    (hlen : ∀ s, k = some s → (List.ofFn len).sum = t.shape.getD s 1)
    (hx : ∀ r : Fin n, create (t.slice k (Comm.before len r) (len r)) t.shape t.dtype k (dev r)
      (c r) = .ok (x r))
    (haxis : axis.Valid t.ndim) :
    let p : Plan := ⟨axis.positions t.ndim, keepdim⟩
    let v := t.reduction stat p
    ∃ y : Fin n → Sharded,
      Attempt.Runs (fun r => reduce (how r) stat (x r) axis keepdim) (fun r =>
        (if p.reducesSplit k ∧ 1 < n then [.allReduce (c r).group v.dtype v.numel stat.reducer]
          else [], .ok (y r))) ∧
      ∀ r, (y r).gshape = v.shape ∧ (y r).dtype = v.dtype ∧ (y r).split = p.split k ∧
        (y r).shard = v.slice (p.split k) (Comm.before len r) (len r) := by
  intro p v
  have hslices := slices_of_create ht hc hlen hx
  have hres := Axis.resolve_eq haxis
  have haxes : p.axes ≠ some [] := Axis.positions_ne_nil haxis
  -- the ranks have slices of the one reduced tensor, whose type is that of the statistic
  have hwhole : ∀ r, p.whole how stat t k (fun r => Comm.before len r) len r = v :=
    Plan.whole_eq_reduction hd (Axis.valid_of_resolve hres keepdim) haxes hslices.axis_lt hlen how
  have hrun : Attempt.Runs (fun r => reduce (how r) stat (x r) axis keepdim) fun r =>
      let w := p.whole how stat t k (fun r => Comm.before len r) len r
      (reduceEvents p stat t k c r,
        .ok ⟨w.slice (p.split k) (Comm.before len r) (len r), w.shape, w.dtype, p.split k,
          (x r).device, c r⟩) :=
    reduceFor_runs how stat (fun _ => none) hslices hres fun r o ho => nomatch ho
  have hevents : ∀ r, reduceEvents p stat t k c r
      = if p.reducesSplit k ∧ 1 < n
        then [.allReduce (c r).group v.dtype v.numel stat.reducer] else [] := by
    intro r
    rw [reduceEvents, Plan.workType_eq haxes]
    simp only [v, Tensor.reduction, Tensor.numel_tabulate, Tensor.dtype_tabulate]
  simp only [hevents, hwhole] at hrun
  exact ⟨_, hrun, fun r => ⟨rfl, rfl, rfl, rfl⟩⟩

/-- The sum of three words, of which the first rank holds one and the second rank two. -/
theorem reduce_runs_three_words :
    let t : Tensor := ⟨[3], ⟨.u8, [.ofInt 200, .ofInt 50, .ofInt 6]⟩⟩
    let len : Fin 2 → Nat := fun r => r + 1
    ∃ y : Fin 2 → Sharded,
      Attempt.Runs
        (fun r => reduce .block .sum ⟨t.slice (some 0) (Comm.before len r) (len r), [3], .u8,
          some 0, .cpu, .member 0 r 2⟩ .all false)
        (fun r => ([.allReduce 0 .i64 1 .sum], .ok (y r))) ∧
      ∀ r, (y r).shard = ⟨[1], ⟨.i64, [.ofInt 256]⟩⟩ := by
  intro t len
  have ht : t.Exact := ⟨rfl, (by decide : Shape.volume [3] < Size.modulus)⟩
  have hlen : ∀ s, some 0 = some s → (List.ofFn len).sum = t.shape.getD s 1 := by
    rintro s ⟨⟩
    decide
  obtain ⟨y, hrun, hy⟩ := reduce_runs (n := 2) (fun _ => .block) .sum .all false ht rfl
    (.inl ⟨0, fun _ => rfl⟩) hlen
    (fun r => create_slice .cpu (.member 0 r 2) fun s hs => by
      obtain rfl := Option.some.inj hs
      exact ⟨Nat.one_pos, by revert r; decide⟩) trivial
  have hsum : Tensor.reduction .sum ⟨none, false⟩
      ⟨[3], ⟨.u8, [.ofInt 200, .ofInt 50, .ofInt 6]⟩⟩ = ⟨[1], ⟨.i64, [.ofInt 256]⟩⟩ := by decide
  exact ⟨y, hrun, fun r => (hy r).2.2.2.trans hsum⟩

end Sharded

end SpmdArray
