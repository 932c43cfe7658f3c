import SpmdArray.Proofs.Handles
import SpmdArray.Proofs.Plans

/-!
# Reductions of a whole group

The ranks of a group reduce their slices of one tensor.  If the split axis stays, each rank
has its slice of the result; otherwise the partial results are folded in rank order, and every
rank has the same.

## Main definitions

* `Tensor.slice` — what a rank holds of a tensor.
* `Sharded.Slices x t k start len c` — `x` lists handles of all ranks on slices of `t`.
* `Comm.before` — where the slice of a rank begins if the ranks hold consecutive slices.
* `Plan.whole` — the result of the group.
* `Plan.Settled` — the ranks know the same result.

## Main results

* `Axis.valid_of_resolve` — the axes that an argument names.
* `Sharded.combinePartials_runs` — partial results are folded in rank order.
* `Sharded.reduceFor_runs` — the result, and the only exchange, of a reduction.
-/

namespace SpmdArray

/-! ### Axis arguments -/

namespace Axis

theorem normalize_lt {ndim p : Nat} {a : Int} (h : normalize ndim a = .ok p) : p < ndim := by
  unfold normalize at h
  split at h
  · cases h
  · obtain rfl := Except.ok.inj h
    split <;> omega

theorem resolveFrom_valid {ndim : Nat} {seen axes : List Nat} {as : List Int}
    (h : resolveFrom ndim seen as = .ok axes) (hseen : seen.Nodup ∧ ∀ a ∈ seen, a < ndim) :
    axes.Nodup ∧ ∀ a ∈ axes, a < ndim := by
  induction as generalizing seen with
  | nil =>
    obtain rfl := Except.ok.inj h
    exact hseen
  | cons a as ih =>
    cases hp : normalize ndim a with
    | error e =>
      rw [resolveFrom_cons_of_error hp] at h
      cases h
    | ok p =>
      rw [resolveFrom_cons_of_ok hp] at h
      split at h
      · cases h
      · next hmem =>
        refine ih h ⟨?_, ?_⟩
        · exact List.nodup_append'.mpr ⟨hseen.1, List.nodup_singleton p,
            List.disjoint_singleton.mpr hmem⟩
        · intro b hb
          rcases List.mem_append.mp hb with hb | hb
          · exact hseen.2 b hb
          · rw [List.mem_singleton.mp hb]
            exact normalize_lt hp

/-- The axes that an argument names are distinct axes of the shape. -/
theorem valid_of_resolve {s : Shape} {axis : Axis} {axes : Option (List Nat)}
    (h : axis.resolve s = .ok axes) (keepdim : Bool) : Plan.Valid ⟨axes, keepdim⟩ s := by
  have hmany : ∀ as, some <$> resolveFrom s.ndim [] as = .ok axes →
      Plan.Valid ⟨axes, keepdim⟩ s := by
    intro as has bs hbs
    cases hr : resolveFrom s.ndim [] as with
    | error e =>
      rw [hr] at has
      cases has
    | ok cs =>
      rw [hr] at has
      obtain rfl : some cs = axes := Except.ok.inj has
      obtain rfl : cs = bs := Option.some.inj hbs
      exact resolveFrom_valid hr ⟨List.nodup_nil, fun a ha => nomatch ha⟩
  cases axis with
  | all =>
    obtain rfl := Except.ok.inj h
    intro bs hbs
    cases hbs
  | single a => exact hmany [a] h
  | many as => exact hmany as h

/-- Only `all` asks for all elements at once. -/
theorem eq_all_of_resolve {s : Shape} {axis : Axis} (h : axis.resolve s = .ok none) :
    axis = .all := by
  have hmany : ∀ as, some <$> resolveFrom s.ndim [] as ≠ .ok none := by
    intro as
    cases resolveFrom s.ndim [] as <;> nofun
  cases axis with
  | all => rfl
  | single a => exact absurd h (hmany [a])
  | many as => exact absurd h (hmany as)

end Axis

/-! ### Consecutive slices -/

namespace Comm

variable {n : Nat}

/-- How many entries the ranks before rank `r` hold. -/
def before (len : Fin n → Nat) (r : Nat) : Nat := ((List.ofFn len).take r).sum

theorem before_succ (len : Fin n → Nat) (r : Fin n) :
    before len (r + 1) = before len r + len r := by
  rw [before, before, List.sum_take_succ _ _ (by simp), List.getElem_ofFn]

theorem before_mono (len : Fin n → Nat) {r q : Nat} (h : r ≤ q) :
    before len r ≤ before len q := by
  obtain ⟨m, rfl⟩ := Nat.exists_eq_add_of_le h
  rw [before, before, List.take_add, List.sum_append]
  exact Nat.le_add_right _ _

theorem before_size (len : Fin n → Nat) : before len n = (List.ofFn len).sum := by
  rw [before, List.take_of_length_le (by simp)]

theorem before_add_le (len : Fin n → Nat) (r : Fin n) :
    before len r + len r ≤ (List.ofFn len).sum := by
  rw [← before_succ, ← before_size]
  exact before_mono len r.isLt

end Comm

/-! ### Partial results -/

namespace Comm

variable {d : DType} {n : Nat}

/-- The elements of all ranks, folded in rank order. -/
def across (op : Reducer) (f : Fin n → Elem d) : Elem d :=
  match List.ofFn f with
  | [] => Elem.zero d
  | x :: xs => xs.foldl (Elem.fold op) x

theorem across_eq_total [NeZero n] {op : Reducer} (h : op.Lawful d) (f : Fin n → Elem d) :
    across op f = Elem.total op (List.ofFn f) := by
  obtain ⟨m, rfl⟩ := Nat.exists_eq_succ_of_ne_zero (NeZero.ne n)
  rw [across, List.ofFn_succ]
  exact h.foldl_eq_total _ _

/-- The fold works on each position of its own. -/
theorem foldRanks_ofFn [NeZero n] {γ : Type} (op : Reducer) (l : List γ)
    (f : Fin n → γ → Elem d) :
    foldRanks op (List.ofFn fun r => l.map (f r)) = l.map fun c => across op fun r => f r c := by
  obtain ⟨m, rfl⟩ := Nat.exists_eq_succ_of_ne_zero (NeZero.ne n)
  have h := @foldRanks_map d op γ (Fin (m + 1)) f l 0 (List.ofFn Fin.succ)
  rw [List.map_cons, List.map_ofFn] at h
  rw [List.ofFn_succ]
  refine h.trans (List.map_congr_left fun c _ => ?_)
  rw [across, List.ofFn_succ]
  simp only [← List.foldl_map, List.map_ofFn, Function.comp_def]

end Comm

namespace Plan

variable {n : Nat} {p : Plan} {stat : Statistic} {t : Tensor} {k : Option Nat}
  {start len : Fin n → Nat} {how : Fin n → Grouping}

/-- What rank `r` knows after the ranks have met, if rank `q` holds `len q` entries from `start q`
on along `k` and shares them out among its threads as `how q` says: the result, of which every rank
has its slice, or the partial results of all ranks, combined. -/
def gathered (p : Plan) (how : Fin n → Grouping) (stat : Statistic) (t : Tensor) (k : Option Nat)
    (start len : Fin n → Nat) (r : Fin n) : Tensor :=
  if p.reducesSplit k then
    Tensor.tabulate (p.workType stat t.dtype) (p.gshape t.shape) fun c =>
      Comm.across stat.reducer fun q =>
        let u := t.slice k (start q) (len q)
        p.value (how q) stat.reducer u.shape (fun x => Elem.convert _ (u.get x)) c
  else p.result (how r) stat t

/-- The result of the group, as rank `r` knows it. -/
def whole (p : Plan) (how : Fin n → Grouping) (stat : Statistic) (t : Tensor) (k : Option Nat)
    (start len : Fin n → Nat) (r : Fin n) : Tensor :=
  (p.gathered how stat t k start len r).cast
    (if stat.reducer.isBoolean then .bool else p.workType stat t.dtype)

variable {r : Fin n}

@[simp] theorem shape_gathered :
    (p.gathered how stat t k start len r).shape = p.gshape t.shape := by
  unfold gathered
  split <;> rfl

@[simp] theorem dtype_gathered :
    (p.gathered how stat t k start len r).dtype = p.workType stat t.dtype := by
  unfold gathered
  split <;> rfl

theorem exact_gathered (how : Fin n → Grouping) (stat : Statistic) (k : Option Nat)
    (start len : Fin n → Nat) (r : Fin n) (ht : t.Exact) :
    (p.gathered how stat t k start len r).Exact := by
  unfold gathered
  have hres := exact_result (p := p) (how r) stat ht
  split
  · exact Tensor.exact_tabulate hres.sized
  · exact hres

@[simp] theorem shape_whole : (p.whole how stat t k start len r).shape = p.gshape t.shape :=
  shape_gathered

@[simp] theorem dtype_whole : (p.whole how stat t k start len r).dtype
    = if stat.reducer.isBoolean then .bool else p.workType stat t.dtype := rfl

/-- Whether all ranks know the same: they have met, or nothing depends on how threads share out the
elements, or all of them share them out alike. -/
def Settled (p : Plan) (how : Fin n → Grouping) (stat : Statistic) (t : Tensor)
    (k : Option Nat) : Prop :=
  p.axes = none → k = none → stat.reducer.Divisible (stat.workType t.dtype) ∨
    t.shape.prod < Buffer.parallelThreshold ∨ ∀ r q, how r = how q

/-- **All ranks know the same result** if it is settled. -/
theorem whole_eq (h : p.Settled how stat t k) (r q : Fin n) :
    p.whole how stat t k start len r = p.whole how stat t k start len q := by
  unfold whole gathered
  congr 1
  split
  · rfl
  · next hmeets =>
    cases haxes : p.axes with
    | some axes =>
      refine Tensor.tabulate_congr fun c _ => ?_
      unfold value
      rw [haxes]
    | none =>
      have hk : k = none := by
        cases k with
        | none => rfl
        | some s => exact absurd (by simp only [reducesSplit, haxes]) hmeets
      rcases h haxes hk with hdiv | hfew | halike
      · refine result_eq_of_divisible ?_ _
        rwa [workType, haxes]
      · refine Tensor.tabulate_congr fun c _ => ?_
        unfold value
        rw [haxes]
        simp only [Elem.totalBy, List.length_map, Shape.length_coords, if_pos hfew]
      · rw [halike r q]

end Plan

namespace Sharded

variable {d : DType} {n : Nat}

/-- **Partial results of one shape** are folded in rank order. -/
theorem combinePartials_runs [NeZero n] {op : Reducer} (hop : Buffer.supports op d = true)
    {group : Nat} {c : Fin n → Comm} (hc : ∀ r, c r = .member group r n) {s : Shape}
    {m : Nat} (hs : s.numel = .ok m) (xs : Fin n → List (Elem d)) (h : ∀ r, (xs r).length = m) :
    Attempt.Runs (fun r => combinePartials (c r) op ⟨s, ⟨d, xs r⟩⟩)
      fun _ => ([.allReduce group d m op],
        .ok ⟨s, ⟨d, Comm.foldRanks op (List.ofFn xs)⟩⟩) := by
  have hlen : (Comm.foldRanks op (List.ofFn xs)).length = m := Comm.length_foldRanks_ofFn h
  let rest : Fin n → Buffer → Attempt Tensor := fun r b => do
    if b.length ≠ (xs r).length then throw (.error (.reducedLength b.length (xs r).length))
    ExceptT.mk (pure (Tensor.ofBuffer s b))
  have hrest : Attempt.Runs (fun r => rest r ⟨d, Comm.foldRanks op (List.ofFn xs)⟩)
      fun _ => ([], .ok ⟨s, ⟨d, Comm.foldRanks op (List.ofFn xs)⟩⟩) := by
    have hb : Buffer.length ⟨d, Comm.foldRanks op (List.ofFn xs)⟩ = m := hlen
    simp only [rest, hb, h, Tensor.ofBuffer_of_numel (hs.trans (congrArg Except.ok hb.symm)), ne_eq,
      not_true_eq_false, if_false]
    exact Attempt.Runs.ofExcept _
  have hrun := (Comm.allReduce_runs hop group m xs h).bind hrest
  simp only [hc]
  exact hrun

/-- Partial results that are given entry by entry. -/
theorem combinePartials_tabulate [NeZero n] {op : Reducer} (hop : Buffer.supports op d = true)
    {group : Nat} {c : Fin n → Comm} (hc : ∀ r, c r = .member group r n) {s : Shape}
    (hs : s.volume < Size.modulus) (f : Fin n → List Nat → Elem d) :
    Attempt.Runs (fun r => combinePartials (c r) op (Tensor.tabulate d s (f r)))
      fun _ => ([.allReduce group d s.prod op],
        .ok (Tensor.tabulate d s fun x => Comm.across op fun r => f r x)) := by
  have hrun := combinePartials_runs hop hc (Shape.numel_of_volume_lt hs)
    (fun r => s.coords.map (f r)) fun r => by rw [List.length_map, Shape.length_coords]
  rw [Comm.foldRanks_ofFn] at hrun
  exact hrun

/-! ### The steps of a reduction -/

/-- The partial results of all ranks if the split axis is reduced, and that of the rank if not. -/
def meet (p : Plan) (combine : Reducer) (x : Sharded) (t : Tensor) : Attempt Tensor :=
  if p.reducesSplit x.split ∧ x.comm.isDistributed then combinePartials x.comm combine t
  else pure t

/-- The last step of a reduction: the handle on the result. -/
def conclude (p : Plan) (combine : Reducer) (x : Sharded) (g : Shape) (t : Tensor) :
    Except Failure Sharded :=
  let d := if combine.isBoolean then .bool else t.dtype
  create (t.cast d) g d (p.split x.split) x.device x.comm

variable {f : Tensor → Option Nat → Except Failure Tensor} {combine : Reducer} {x : Sharded}
  {axis : Axis} {keepdim : Bool} {out : Option Sharded} {axes : Option (List Nat)}

theorem reduceFor_of_invalid {e : Error} (h : axis.resolve x.gshape = .error e) :
    reduceFor f combine x axis keepdim out = throw (.error e) := by
  unfold reduceFor
  rw [h]
  rfl

theorem reduceFor_of_ne {o : Sharded} (h : axis.resolve x.gshape = .ok axes)
    (ho : o.gshape ≠ Plan.gshape ⟨axes, keepdim⟩ x.gshape) :
    reduceFor f combine x axis keepdim (some o)
      = throw (.error (.shapeMismatch (Plan.gshape ⟨axes, keepdim⟩ x.gshape) o.gshape)) := by
  unfold reduceFor
  rw [h]
  show (if o.gshape ≠ Plan.gshape ⟨axes, keepdim⟩ x.gshape then _ else _) = _
  rw [if_pos ho]
  rfl

/-- **A reduction meets other ranks in one place** at most. -/
theorem reduceFor_eq (h : axis.resolve x.gshape = .ok axes)
    (ho : ∀ o, out = some o → o.gshape = Plan.gshape ⟨axes, keepdim⟩ x.gshape) :
    reduceFor f combine x axis keepdim out = (do
      let g := Plan.gshape ⟨axes, keepdim⟩ x.gshape
      let t ← (Plan.reduceShard ⟨axes, keepdim⟩ f x.shard g : Except Failure Tensor)
      let t ← meet ⟨axes, keepdim⟩ combine x t
      ExceptT.mk (pure (conclude ⟨axes, keepdim⟩ combine x g t))) := by
  have hmeet : ∀ (t : Tensor) (k : Tensor → Attempt Sharded),
      (meet ⟨axes, keepdim⟩ combine x t >>= k)
      = if Plan.reducesSplit ⟨axes, keepdim⟩ x.split ∧ x.comm.isDistributed
        then combinePartials x.comm combine t >>= k else k t := by
    intro t k
    unfold meet
    split <;> rfl
  simp only [hmeet]
  unfold reduceFor
  rw [h]
  cases out with
  | none => rfl
  | some o =>
    show (if o.gshape ≠ Plan.gshape ⟨axes, keepdim⟩ x.gshape then _ else _) = _
    rw [if_neg (not_not_intro (ho o rfl))]
    rfl

/-! ### All ranks -/

variable {n : Nat}

/-- `Slices x t k start len c` says that rank `r` holds `len r` entries of `t` from `start r` on
along the axis `k`, or that all ranks hold `t` if there is no axis. -/
structure Slices (x : Fin n → Sharded) (t : Tensor) (k : Option Nat) (start len : Fin n → Nat)
    (c : Fin n → Comm) : Prop where
  /-- The tensor has an element for each of its coordinates. -/
  exact : t.Exact
  /-- The ranks are those of a group. -/
  spans : Comm.Spans c
  /-- The tensor has the axis. -/
  axis_lt : ∀ s, k = some s → s < t.ndim
  /-- The tensor has the entries. -/
  fits : ∀ s, k = some s → ∀ r, start r + len r ≤ t.shape.getD s 1
  /-- The handles of the ranks. -/
  handle : ∀ r, x r
    = ⟨t.slice k (start r) (len r), t.shape, t.dtype, k, (x r).device, c r⟩

variable {xs : Fin n → Sharded} {t : Tensor} {k : Option Nat} {start len : Fin n → Nat}
  {c : Fin n → Comm} {stat : Statistic} {how : Fin n → Grouping}

/-- The events of a reduction of a whole group. -/
def reduceEvents (p : Plan) (stat : Statistic) (t : Tensor) (k : Option Nat) (c : Fin n → Comm)
    (r : Fin n) : List Event :=
  if p.reducesSplit k ∧ 1 < n then
    [.allReduce (c r).group (p.workType stat t.dtype) (p.gshape t.shape).prod stat.reducer]
  else []

theorem reduceShard_slice {p : Plan} (how : Grouping) (stat : Statistic)
    (hx : Slices xs t k start len c) (hp : p.Valid t.shape) (r : Fin n) :
    p.reduceShard (stat.reduceTensor how) (xs r).shard (p.gshape t.shape)
      = .ok (p.result how stat (t.slice k (start r) (len r))) := by
  rw [hx.handle r]
  cases k with
  | none => exact Plan.reduceShard_eq hx.exact hp fun _ => rfl
  | some s =>
    have hfit := hx.fits s rfl r
    refine Plan.reduceShard_eq (hx.exact.window (by omega)) (hp.set s _) fun hnone => ?_
    exact (Plan.gshape_set_of_reduces (by unfold Plan.reducesSplit; rw [hnone]) _).symm

theorem conclude_slice {p : Plan} (combine : Reducer) (a b : Nat) (hv : t.Exact) (hk : x.split = k)
    (hsplit : ∀ s, p.split k = some s → s < t.ndim ∧ a + b ≤ t.shape.getD s 1) :
    conclude p combine x t.shape (t.slice (p.split k) a b)
      = .ok ⟨(t.cast (if combine.isBoolean then .bool else t.dtype)).slice (p.split k) a b,
          t.shape, if combine.isBoolean then .bool else t.dtype, p.split k, x.device, x.comm⟩ := by
  unfold conclude
  simp only
  rw [Tensor.dtype_slice, hk, Tensor.cast_slice hv fun s hs => (hsplit s hs).2]
  refine create_slice _ _ fun s hs => ?_
  have := hsplit s hs
  exact ⟨this.1, Nat.le_trans (Nat.le_add_left b a) this.2⟩

/-- What a rank knows of its slice if the slice makes a part of the result. -/
theorem result_slice_of_keeps {p : Plan} (hx : Slices xs t k start len c)
    (hp : p.Valid t.shape) (h : p.reducesSplit k = false) (r : Fin n) :
    p.result (how r) stat (t.slice k (start r) (len r))
      = (p.gathered how stat t k start len r).slice (p.split k) (start r) (len r) := by
  rw [Plan.gathered, if_neg (by simp [h]), Plan.split_eq, if_neg (by simp [h])]
  cases k with
  | none => rfl
  | some s => exact Plan.result_window hp h (hx.fits s rfl r)

/-- The partial result for a slice along an axis that is reduced. -/
theorem result_slice_of_reduces {p : Plan} {how : Grouping} {a b : Nat}
    (h : p.reducesSplit k = true) :
    p.result how stat (t.slice k a b)
      = Tensor.tabulate (p.workType stat t.dtype) (p.gshape t.shape)
          (p.value how stat.reducer (t.slice k a b).shape fun x =>
            Elem.convert _ ((t.slice k a b).get x)) := by
  cases k with
  | none => cases h
  | some s =>
    have hg := Plan.gshape_set_of_reduces (s := t.shape) h b
    show Tensor.tabulate _ (p.gshape (t.shape.set s b)) _ = _
    rw [hg]
    rfl

theorem meet_runs [NeZero n] {p : Plan} (how : Fin n → Grouping) (stat : Statistic)
    (hx : Slices xs t k start len c) (hp : p.Valid t.shape) :
    Attempt.Runs
      (fun r => meet p stat.reducer (xs r) (p.result (how r) stat (t.slice k (start r) (len r))))
      fun r => (reduceEvents p stat t k c r,
        .ok ((p.gathered how stat t k start len r).slice (p.split k) (start r) (len r))) := by
  have hmeet : ∀ r (u : Tensor), meet p stat.reducer (xs r) u
      = if p.reducesSplit k ∧ 1 < n then combinePartials (c r) stat.reducer u else pure u := by
    intro r u
    rw [meet, hx.handle r]
    simp only [hx.spans.isDistributed_eq, decide_eq_true_eq]
  unfold reduceEvents
  simp only [hmeet]
  by_cases hmet : p.reducesSplit k ∧ 1 < n
  · obtain ⟨hred, hn⟩ := hmet
    obtain ⟨g, hg⟩ := hx.spans.members hn
    simp only [hred, hn, and_self, if_true, result_slice_of_reduces hred]
    have hrun := combinePartials_tabulate (stat.supports_reducer (p.workType stat t.dtype)) hg
      ((p.volume_gshape_le t.shape).trans_lt hx.exact.sized) fun r =>
        let slice := t.slice k (start r) (len r)
        p.value (how r) stat.reducer slice.shape fun x => Elem.convert _ (slice.get x)
    simp only [Plan.gathered, Plan.split_eq, if_pos hred, hg, Comm.group]
    simp only [hg] at hrun
    exact hrun
  -- without a meeting, what a rank has is its part: its axis stays, or it has everything
  · simp only [if_neg hmet]
    have hown : ∀ r, p.result (how r) stat (t.slice k (start r) (len r))
        = (p.gathered how stat t k start len r).slice (p.split k) (start r) (len r) := by
      intro r
      cases hred : p.reducesSplit k with
      | false => exact result_slice_of_keeps hx hp hred r
      | true =>
        have hn : n = 1 := by
          have hpos := NeZero.ne n
          have hle : ¬ 1 < n := fun h => hmet ⟨hred, h⟩
          omega
        subst hn
        rw [result_slice_of_reduces hred, Plan.gathered, if_pos hred, Plan.split_eq, if_pos hred,
          Fin.fin_one_eq_zero r]
        rfl
    simp only [hown]
    exact Attempt.Runs.pure _

/-- Every rank concludes with its slice of what the ranks know after they have met. -/
theorem conclude_gathered {p : Plan} (how : Fin n → Grouping) (stat : Statistic)
    (hx : Slices xs t k start len c) (hp : p.Valid t.shape) (r : Fin n) :
    conclude p stat.reducer (xs r) (p.gshape t.shape)
        ((p.gathered how stat t k start len r).slice (p.split k) (start r) (len r))
      = .ok ⟨(p.whole how stat t k start len r).slice (p.split k) (start r) (len r),
          (p.whole how stat t k start len r).shape, (p.whole how stat t k start len r).dtype,
          p.split k, (xs r).device, c r⟩ := by
  have hs : (xs r).split = k := congrArg Sharded.split (hx.handle r)
  have hcomm : (xs r).comm = c r := congrArg Sharded.comm (hx.handle r)
  have hv := Plan.exact_gathered (p := p) how stat k start len r hx.exact
  have h := conclude_slice stat.reducer (start r) (len r) hv hs fun i hi => by
    obtain ⟨s, hk, hkeeps, rfl⟩ := Plan.split_eq_some hi
    have hlt := Plan.moved_lt hp hkeeps (hx.axis_lt s hk)
    rw [Tensor.ndim, Plan.shape_gathered, Plan.getD_gshape_moved hp hkeeps]
    exact ⟨hlt, hx.fits s hk r⟩
  rw [Plan.shape_gathered, Plan.dtype_gathered, hcomm] at h
  rw [h, Plan.shape_whole, Plan.dtype_whole]
  rfl

/-- **A reduction of a whole group.**  The ranks meet only if the split axis is reduced, and each
of them ends up with its slice of one tensor. -/
theorem reduceFor_runs [NeZero n] (how : Fin n → Grouping) (stat : Statistic)
    (outs : Fin n → Option Sharded) (hx : Slices xs t k start len c)
    (haxes : axis.resolve t.shape = .ok axes)
    (hout : ∀ r o, outs r = some o → o.gshape = Plan.gshape ⟨axes, keepdim⟩ t.shape) :
    Attempt.Runs
      (fun r => reduceFor (stat.reduceTensor (how r)) stat.reducer (xs r) axis keepdim (outs r))
      fun r =>
        let p : Plan := ⟨axes, keepdim⟩
        let v := p.whole how stat t k start len r
        (reduceEvents p stat t k c r,
          .ok ⟨v.slice (p.split k) (start r) (len r), v.shape, v.dtype, p.split k,
            (xs r).device, c r⟩) := by
  have hp := Axis.valid_of_resolve haxes keepdim
  -- the checks pass and every shard is reduced; the meeting is what is left to run
  have hprog :
      (fun r => reduceFor (stat.reduceTensor (how r)) stat.reducer (xs r) axis keepdim (outs r))
      = fun r => (do
        let u ← meet ⟨axes, keepdim⟩ stat.reducer (xs r)
          (Plan.result ⟨axes, keepdim⟩ (how r) stat (t.slice k (start r) (len r)))
        ExceptT.mk (pure (conclude ⟨axes, keepdim⟩ stat.reducer (xs r)
          (Plan.gshape ⟨axes, keepdim⟩ t.shape) u))) := by
    funext r
    have hshard := reduceShard_slice (how r) stat hx hp r
    have hg : (xs r).gshape = t.shape := congrArg Sharded.gshape (hx.handle r)
    rw [reduceFor_eq (hg ▸ haxes) (hg ▸ hout r), hg]
    simp only [hshard]
    rfl
  generalize (⟨axes, keepdim⟩ : Plan) = p at *
  have hrun := (meet_runs how stat hx hp).bind (k := fun r u =>
    ExceptT.mk (pure (conclude p stat.reducer (xs r) (p.gshape t.shape) u)))
    (Attempt.Runs.ofExcept fun r => conclude p stat.reducer (xs r) (p.gshape t.shape)
      ((p.gathered how stat t k start len r).slice (p.split k) (start r) (len r)))
  simp only [List.append_nil, conclude_gathered how stat hx hp] at hrun
  rw [hprog]
  exact hrun

end Sharded

end SpmdArray
