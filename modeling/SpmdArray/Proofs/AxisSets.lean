import SpmdArray.Proofs.ReductionTypes

/-!
# Reductions over sets of axes

A reduction goes along one axis after the other, in the order in which they are listed, and over
all elements at once if no axis is named.  For truth values and integers only the set of the axes
counts, as long as no rank breaks down over a size that overflows: a rank runs the same program for
each order, so that it also meets the others in the same way.  Dropping the reduced axes is a matter
of shapes, and changes nothing that the ranks tell each other.

## Main definitions

* `Plan.Alike p q m` — two plans do not differ for tensors with `m` axes.
* `Sharded.exchanged`, `Sharded.concluded` — what the ranks are left with, and the handle on it.
* `Sharded.withoutAxes` — a handle, with some axes of extent 1 dropped.

## Main results

* `Plan.alike_of_perm`, `Plan.alike_all` — listed axes in another order, and all of them.
* `Plan.Alike.result_eq` — plans that do not differ have the same results.
* `Plan.reduceShard_drop`, `Plan.overflows_keepdim_iff` — axes are dropped after the reduction.
* `Sharded.reduceFor_eq_map` — what a reduction is, apart from shapes.
* `Sharded.reduce_axisSet` — only the set of the axes counts.
-/

namespace SpmdArray

/-! ### Plans that do not differ -/

namespace Plan

/-- `Alike p q m` says that the plans `p` and `q` do not differ for tensors with `m` axes: their
results have the same shapes, the same cells, and are split in the same way. -/
structure Alike (p q : Plan) (m : Nat) : Prop where
  /-- Both reduce along some axis. -/
  axes_ne : p.axes ≠ some [] ∧ q.axes ≠ some []
  /-- The results have the same shape. -/
  gshape_eq : ∀ s : Shape, s.length = m → p.gshape s = q.gshape s
  /-- An entry contributes to the same cell. -/
  cell_eq : ∀ x : List Nat, x.length = m → p.cell x = q.cell x
  /-- The split axis is reduced by both or by none. -/
  reduces_iff : ∀ k : Option Nat, (∀ s, k = some s → s < m) → p.reducesSplit k = q.reducesSplit k
  /-- An axis that stays becomes the same axis. -/
  moved_eq : p.moved = q.moved

variable {p q : Plan} {m : Nat} {how how' : Grouping} {stat : Statistic} {t : Tensor}

/-- Axes may be listed in any order. -/
theorem alike_of_perm {as bs : List Nat} (h : as.Perm bs) (hne : as ≠ []) (keepdim : Bool) :
    Alike ⟨some as, keepdim⟩ ⟨some bs, keepdim⟩ m where
  axes_ne := by
    refine ⟨by simpa using hne, fun hnil => ?_⟩
    obtain rfl := Option.some.inj hnil
    exact hne h.eq_nil
  gshape_eq s _ := by
    cases keepdim with
    | true => exact Shape.fillAxes_perm h
    | false => exact Shape.dropAxes_perm h
  cell_eq x _ := by
    cases keepdim with
    | true => exact Shape.fillAxes_perm h
    | false => exact Shape.dropAxes_perm h
  reduces_iff k _ := by
    cases k with
    | none => rfl
    | some s => exact decide_eq_decide.mpr h.mem_iff
  moved_eq := by
    funext s
    cases keepdim with
    | true => rfl
    | false => exact congrArg (s - ·) (h.filter _).length_eq

/-- All elements are reduced if all axes are listed. -/
theorem alike_all {axes : List Nat} (h : ∀ a < m, a ∈ axes) (hne : axes ≠ []) :
    Alike ⟨none, true⟩ ⟨some axes, true⟩ m where
  axes_ne := ⟨nofun, by simpa using hne⟩
  gshape_eq s hs := by
    subst hs
    exact (Shape.fillAxes_eq_replicate h).symm
  cell_eq x hx := by
    subst hx
    exact (Shape.fillAxes_eq_replicate h).symm
  reduces_iff k hk := by
    cases k with
    | none => rfl
    | some s => exact (decide_eq_true (h s (hk s rfl))).symm
  moved_eq := rfl

/-- The results are split along the same axis. -/
theorem Alike.split_eq (h : Alike p q m) {k : Option Nat} (hk : ∀ s, k = some s → s < m) :
    p.split k = q.split k := by
  rw [Plan.split_eq, Plan.split_eq, h.reduces_iff k hk, h.moved_eq]

/-- **Plans that do not differ have the same results**, since the entries of a cell may be combined
in any order and by any number of threads. -/
theorem Alike.result_eq (h : Alike p q t.ndim) (hd : t.dtype.isFloat = false)
    (hp : p.Valid t.shape) (hq : q.Valid t.shape) :
    p.result how stat t = q.result how' stat t := by
  have hg : p.gshape t.shape = q.gshape t.shape := h.gshape_eq t.shape rfl
  unfold result
  rw [workType_eq h.axes_ne.1, workType_eq h.axes_ne.2, ← hg]
  refine Tensor.tabulate_congr fun c hc => ?_
  rw [value_eq_total (stat.lawful hd) hp _ hc, value_eq_total (stat.lawful hd) hq _ (hg ▸ hc)]
  congr 2
  refine List.filter_congr fun x hx => ?_
  rw [h.cell_eq x (Shape.mem_coords.mp hx).length_eq]

/-! ### Dropped axes -/

variable {axes : List Nat} {g : Shape}

/-- **Axes are dropped after the reduction**, which cannot fail any more. -/
theorem reduceShard_drop (how : Grouping) (stat : Statistic) (ht : t.Stored)
    (hv : Valid ⟨some axes, true⟩ t.shape) :
    reduceShard ⟨some axes, false⟩ (stat.reduceTensor how) t g
      = (fun u : Tensor => ⟨u.shape.dropAxes axes, u.buffer⟩) <$>
        reduceShard ⟨some axes, true⟩ (stat.reduceTensor how) t g := by
  have hsteps : reduceShard ⟨some axes, false⟩ (stat.reduceTensor how) t g
      = (reduceShard ⟨some axes, true⟩ (stat.reduceTensor how) t g >>= fun u =>
        u.reshape (u.shape.dropAxes axes)) := by
    simp only [reduceShard, if_true, Bool.false_eq_true, if_false, bind_pure]
  rw [hsteps]
  have hsome : some axes = none → g = gshape ⟨some axes, true⟩ t.shape := nofun
  rcases reduceShard_eq_or how stat ht hv hsome with ⟨hn, hkeep⟩ | ⟨hover, -⟩
  · have hflat : Shape.dropAxes (t.shape.flattenAxes axes) axes = t.shape.dropAxes axes :=
      Shape.dropAxes_fillAxes
    rw [hkeep]
    refine Tensor.reshapeOn_eq_ok_iff.mpr ⟨?_, rfl⟩
    show Shape.numel (Shape.dropAxes (t.shape.flattenAxes axes) axes) = _
    rw [hflat, Shape.numel_dropAxes]
    exact Tensor.counted_tabulate hn
  · rw [hover]
    rfl

/-- A rank breaks down whether or not the axes are dropped in the end. -/
theorem overflows_keepdim_iff {x : Sharded} (hx : x.shard.Stored)
    (hv : Valid ⟨some axes, true⟩ x.shard.shape) (keepdim : Bool) :
    Overflows ⟨some axes, keepdim⟩ how stat x ↔ Overflows ⟨some axes, true⟩ how stat x := by
  cases keepdim with
  | true => exact Iff.rfl
  | false =>
    -- the shape of the result is not looked at if there are axes
    have hdrop : reduceShard ⟨some axes, false⟩ (stat.reduceTensor how) x.shard
          (gshape ⟨some axes, false⟩ x.gshape)
        = (fun u : Tensor => ⟨u.shape.dropAxes axes, u.buffer⟩) <$>
          reduceShard ⟨some axes, true⟩ (stat.reduceTensor how) x.shard
            (gshape ⟨some axes, true⟩ x.gshape) := reduceShard_drop how stat hx hv
    unfold Overflows
    rw [hdrop]
    cases reduceShard ⟨some axes, true⟩ (stat.reduceTensor how) x.shard _ with
    | ok u => exact iff_of_false nofun nofun
    | error e => exact ⟨fun h => congrArg Except.error (Except.error.inj h), fun h => h ▸ rfl⟩

/-- The result without the reduced axes has the same elements. -/
theorem buffer_result_drop (ht : t.Stored) (hv : Valid ⟨some axes, true⟩ t.shape)
    (hkeep : reduceShard ⟨some axes, true⟩ (stat.reduceTensor how) t g
      = .ok (result ⟨some axes, true⟩ how stat t)) :
    (result ⟨some axes, false⟩ how stat t).buffer
      = (result ⟨some axes, true⟩ how stat t).buffer := by
  have hdrop := reduceShard_drop (g := g) how stat ht hv
  rw [hkeep] at hdrop
  have hv' : Valid ⟨some axes, false⟩ t.shape := hv
  have hsome : some axes = none → g = gshape ⟨some axes, false⟩ t.shape := nofun
  rcases reduceShard_eq_or how stat ht hv' hsome with ⟨-, hok⟩ | ⟨hover, -⟩
  · rw [hok] at hdrop
    have heq : result ⟨some axes, false⟩ how stat t
        = ⟨_, (result ⟨some axes, true⟩ how stat t).buffer⟩ := Except.ok.inj hdrop
    rw [heq]
  · rw [hover] at hdrop
    cases hdrop

/-- All elements are reduced at once without an overflow. -/
theorem not_overflows_all {x : Sharded} {keepdim : Bool} (hx : x.shard.Stored)
    (hlen : x.shard.shape.length = x.gshape.length) :
    ¬ Overflows ⟨none, keepdim⟩ how stat x := by
  have hg : gshape ⟨none, keepdim⟩ x.gshape = gshape ⟨none, keepdim⟩ x.shard.shape := by
    simp only [gshape, hlen]
  unfold Overflows
  rw [reduceShard_all hx hg]
  intro h
  cases h

end Plan

/-- What is made of any result has what all that is made so has. -/
theorem Attempt.Yields.map {α β : Type} {post : β → Prop} {f : α → β} (h : ∀ a, post (f a))
    (p : Attempt α) : Yields post (f <$> p) := by
  rw [map_eq_pure_bind]
  exact .after p fun a => .pure (h a)

namespace Sharded

variable {n : Nat} {xs : Fin n → Sharded} {g : Shape} {d : DType} {k : Option Nat}
  {c : Fin n → Comm} {p q : Plan} {stat : Statistic} {axis : Axis} {keepdim : Bool}
  {axes : Option (List Nat)} {how how' : Grouping}

/-! ### Reductions apart from shapes -/

/-- The elements of all ranks, combined, as long as there are as many of them. -/
def combineBuffers (comm : Comm) (combine : Reducer) (b : Buffer) : Attempt Buffer := do
  let w ← Comm.leftBy (comm.allReduce combine b)
  if w.length ≠ b.length then throw (.error (.reducedLength w.length b.length))
  return w

theorem combinePartials_mk (comm : Comm) (combine : Reducer) {s : Shape} {b : Buffer}
    (h : s.numel = .ok b.length) :
    combinePartials comm combine ⟨s, b⟩ = Tensor.mk s <$> combineBuffers comm combine b := by
  unfold combinePartials combineBuffers
  rw [map_bind]
  congr 1
  funext w
  by_cases hw : w.length = b.length
  · have hs : s.numel = .ok w.length := h.trans (congrArg Except.ok hw.symm)
    simp only [Tensor.numel, hw, ne_eq, not_true_eq_false, if_false, Tensor.ofBuffer_of_numel hs]
    rfl
  · simp only [Tensor.numel, hw, ne_eq, not_false_eq_true, if_true]
    rfl

/-- What a rank is left with of the elements that it has reduced. -/
def exchanged (p : Plan) (combine : Reducer) (x : Sharded) (b : Buffer) : Attempt Buffer :=
  if p.reducesSplit x.split ∧ x.comm.isDistributed then combineBuffers x.comm combine b else pure b

theorem meet_mk (p : Plan) (combine : Reducer) (x : Sharded) {s : Shape} {b : Buffer}
    (h : s.numel = .ok b.length) :
    meet p combine x ⟨s, b⟩ = Tensor.mk s <$> exchanged p combine x b := by
  unfold meet exchanged
  split
  · exact combinePartials_mk x.comm combine h
  · rfl

/-- The handle on the elements that a rank is left with. -/
def concluded (p : Plan) (combine : Reducer) (x : Sharded) (b : Buffer) : Sharded :=
  let d := if combine.isBoolean then .bool else b.dtype
  ⟨⟨p.gshape x.shard.shape, b.cast d⟩, p.gshape x.gshape, d, p.split x.split, x.device, x.comm⟩

theorem conclude_eq [NeZero n] (hx : Agree xs g d k c) (hp : p.Valid g) (combine : Reducer)
    (r : Fin n) (b : Buffer) :
    conclude p combine (xs r) (p.gshape g) ⟨p.gshape (xs r).shard.shape, b⟩
      = .ok (concluded p combine (xs r) b) := by
  obtain ⟨y, hy⟩ := conclude_of_shape hx hp combine (r := r)
    (u := ⟨p.gshape (xs r).shard.shape, b⟩) rfl
  rw [hy, (create_eq_ok_iff.mp hy).1, concluded, hx.gshape]
  rfl

/-- **What a reduction is apart from shapes**: the rank reduces its elements, meets the others, and
makes a handle of what it is left with. -/
theorem reduceFor_eq_map [NeZero n] (hx : Agree xs g d k c) (haxes : axis.resolve g = .ok axes)
    (r : Fin n) (h : ¬ Plan.Overflows ⟨axes, keepdim⟩ how stat (xs r)) :
    let p : Plan := ⟨axes, keepdim⟩
    reduceFor (stat.reduceTensor how) stat.reducer (xs r) axis keepdim none
      = concluded p stat.reducer (xs r) <$>
        exchanged p stat.reducer (xs r) (p.result how stat (xs r).shard).buffer := by
  have hp := Axis.valid_of_resolve haxes keepdim
  have hsteps : reduceFor (stat.reduceTensor how) stat.reducer (xs r) axis keepdim none = _ :=
    reduceFor_eq (by rw [hx.gshape, haxes]) nofun
  generalize (⟨axes, keepdim⟩ : Plan) = p at *
  obtain ⟨hnum, hshard⟩ := reduceShard_of_not_overflows hx hp h
  have hmeet : meet p stat.reducer (xs r) (p.result how stat (xs r).shard) = _ :=
    meet_mk p stat.reducer (xs r) (Tensor.counted_tabulate hnum)
  simp only [hsteps, hx.gshape, hshard]
  show (meet p stat.reducer (xs r) (p.result how stat (xs r).shard) >>= fun u =>
    ExceptT.mk (pure (conclude p stat.reducer (xs r) (p.gshape g) u))) = _
  rw [hmeet, bind_map_left]
  simp only [conclude_eq hx hp]
  exact (map_eq_pure_bind _ _).symm

/-- A rank that breaks down has not met the others. -/
theorem reduceFor_of_overflows (hx : Agree xs g d k c) (haxes : axis.resolve g = .ok axes)
    (r : Fin n) (h : Plan.Overflows ⟨axes, keepdim⟩ how stat (xs r)) :
    reduceFor (stat.reduceTensor how) stat.reducer (xs r) axis keepdim none
      = throw (.fault .overflow) := by
  have hsteps : reduceFor (stat.reduceTensor how) stat.reducer (xs r) axis keepdim none = _ :=
    reduceFor_eq (by rw [hx.gshape, haxes]) nofun
  unfold Plan.Overflows at h
  simp only [hsteps, h]
  rfl

theorem split_lt [NeZero n] (hx : Agree xs g d k c) (r : Fin n) :
    ∀ s, (xs r).split = some s → s < g.ndim := by
  intro s hs
  rw [hx.split] at hs
  exact hx.axis_lt hs

/-- A rank breaks down over listed axes whether or not they are dropped in the end. -/
theorem overflows_iff_of_resolve (how : Grouping) (stat : Statistic) {axes : List Nat}
    (hx : Agree xs g d k c)
    (haxes : axis.resolve g = .ok (some axes)) (r : Fin n) (keepdim : Bool) :
    Plan.Overflows ⟨some axes, keepdim⟩ how stat (xs r)
      ↔ Plan.Overflows ⟨some axes, true⟩ how stat (xs r) :=
  Plan.overflows_keepdim_iff (hx.stored r) (valid_shard hx (Axis.valid_of_resolve haxes true) r)
    keepdim

/-- **Axis arguments that mean the same** make a rank run the same program. -/
theorem reduceFor_alike [NeZero n] {axis' : Axis} {keepdim' : Bool} {axes' : Option (List Nat)}
    (hx : Agree xs g d k c) (hd : d.isFloat = false)
    (haxes : axis.resolve g = .ok axes) (haxes' : axis'.resolve g = .ok axes')
    (halike : Plan.Alike ⟨axes, keepdim⟩ ⟨axes', keepdim'⟩ g.ndim) (r : Fin n)
    (h : ¬ Plan.Overflows ⟨axes, keepdim⟩ how stat (xs r))
    (h' : ¬ Plan.Overflows ⟨axes', keepdim'⟩ how' stat (xs r)) :
    reduceFor (stat.reduceTensor how) stat.reducer (xs r) axis keepdim none
      = reduceFor (stat.reduceTensor how') stat.reducer (xs r) axis' keepdim' none := by
  rw [reduceFor_eq_map hx haxes r h, reduceFor_eq_map hx haxes' r h']
  have hp := Axis.valid_of_resolve haxes keepdim
  have hq := Axis.valid_of_resolve haxes' keepdim'
  generalize (⟨axes, keepdim⟩ : Plan) = p at *
  generalize (⟨axes', keepdim'⟩ : Plan) = q at *
  have hlen : (xs r).shard.shape.length = g.ndim := hx.length_shape r
  have hsplit := split_lt hx r
  have hresult : p.result how stat (xs r).shard = q.result how' stat (xs r).shard := by
    have hndim : (xs r).shard.ndim = g.ndim := hlen
    have hfloat : (xs r).shard.dtype.isFloat = false := by rw [hx.shard_dtype, hd]
    exact (hndim ▸ halike).result_eq hfloat (valid_shard hx hp r) (valid_shard hx hq r)
  have hexchanged : exchanged p stat.reducer (xs r) = exchanged q stat.reducer (xs r) := by
    funext b
    rw [exchanged, exchanged, halike.reduces_iff _ hsplit]
  have hconcluded : concluded p stat.reducer (xs r) = concluded q stat.reducer (xs r) := by
    funext b
    rw [concluded, concluded, halike.gshape_eq _ hlen, hx.gshape, halike.gshape_eq g rfl,
      halike.split_eq hsplit]
  rw [hresult, hexchanged, hconcluded]

/-! ### Dropped axes -/

/-- The handle without the listed axes.  If its split axis stays, it is the same axis as before,
which has another number if axes before it are dropped. -/
def withoutAxes (axes : List Nat) (y : Sharded) : Sharded :=
  ⟨⟨y.shard.shape.dropAxes axes, y.shard.buffer⟩, y.gshape.dropAxes axes, y.dtype,
    y.split.map fun s => (Shape.remaining y.gshape.length axes).idxOf s, y.device, y.comm⟩

theorem concluded_drop {axes : List Nat} (h : axes.Nodup) (combine : Reducer) {x : Sharded}
    (hs : ∀ s, x.split = some s → s < x.gshape.length) (b : Buffer) :
    concluded ⟨some axes, false⟩ combine x b
      = (concluded ⟨some axes, true⟩ combine x b).withoutAxes axes := by
  have hshape : ∀ s : Shape, Shape.dropAxes (s.flattenAxes axes) axes = s.dropAxes axes :=
    fun s => Shape.dropAxes_fillAxes
  have hsplit : Plan.split ⟨some axes, false⟩ x.split
      = (Plan.split ⟨some axes, true⟩ x.split).map fun s =>
        (Shape.remaining (x.gshape.flattenAxes axes).length axes).idxOf s := by
    cases hk : x.split with
    | none => rfl
    | some s =>
      by_cases hmem : s ∈ axes
      · simp [Plan.split, Plan.reducesSplit, hmem]
      · have hidx := Shape.idxOf_remaining h hmem (hs s hk)
        simp [Plan.split, Plan.reducesSplit, hmem, hidx]
  simp only [concluded, withoutAxes, Plan.gshape, Shape.reduced, if_true, Bool.false_eq_true,
    if_false, hshape, hsplit]

/-- **Dropping axes changes nothing else**, and nothing that the ranks tell each other. -/
theorem reduceFor_drop [NeZero n] {axes : List Nat} (how : Grouping) (stat : Statistic)
    (hx : Agree xs g d k c) (haxes : axis.resolve g = .ok (some axes)) (r : Fin n) :
    reduceFor (stat.reduceTensor how) stat.reducer (xs r) axis false none
      = withoutAxes axes <$>
        reduceFor (stat.reduceTensor how) stat.reducer (xs r) axis true none := by
  have hp := Axis.valid_of_resolve haxes true
  have hv := valid_shard hx hp r
  have hover := overflows_iff_of_resolve how stat hx haxes r false
  by_cases h : Plan.Overflows ⟨some axes, true⟩ how stat (xs r)
  · rw [reduceFor_of_overflows hx haxes r h, reduceFor_of_overflows hx haxes r (hover.mpr h)]
    rfl
  · -- the elements that the rank has reduced are the same, and the handles differ in the axes
    have hkeep := (reduceShard_of_not_overflows hx hp h).2
    have hbuffer := Plan.buffer_result_drop (hx.stored r) hv hkeep
    have hconcluded : ∀ b, concluded ⟨some axes, false⟩ stat.reducer (xs r) b = _ :=
      concluded_drop (hp axes rfl).1 stat.reducer fun s hs => by
        rw [hx.gshape]
        exact split_lt hx r s hs
    rw [reduceFor_eq_map hx haxes r h, reduceFor_eq_map hx haxes r fun hdrop => h (hover.mp hdrop),
      ← comp_map, hbuffer]
    exact congrArg (· <$> _) (funext hconcluded)

/-- The split axis of a result is one that stays. -/
theorem yields_split [NeZero n] {axes : List Nat} (how : Grouping) (stat : Statistic)
    (hx : Agree xs g d k c) (haxes : axis.resolve g = .ok (some axes)) (r : Fin n) :
    (reduceFor (stat.reduceTensor how) stat.reducer (xs r) axis true none).Yields fun y =>
      y.gshape.length = g.ndim ∧ ∀ s, y.split = some s → s < g.ndim ∧ s ∉ axes := by
  by_cases h : Plan.Overflows ⟨some axes, true⟩ how stat (xs r)
  · rw [reduceFor_of_overflows hx haxes r h]
    exact .raise _
  · rw [reduceFor_eq_map hx haxes r h]
    refine .map (fun b => ⟨?_, fun s hs => ?_⟩) _
    · rw [← hx.gshape r]
      exact Shape.length_flattenAxes _ axes
    · obtain ⟨i, hi, hkeeps, rfl⟩ := Plan.split_eq_some hs
      exact ⟨split_lt hx r s hi, of_decide_eq_false hkeeps⟩

/-- **Only the set of the axes counts.**  Over the same axes, listed in any order and counted from
either end, a rank that holds truth values or integers runs the same program, so that it takes part
in the same exchanges and is left with the same handle; all elements are reduced over the list of
all axes.  How threads share out the elements makes no difference.  Dropping the axes afterwards
keeps the elements, and the split axis is still the same axis.  All that is wanted is that no rank
breaks down over a size that overflows, which none does over any axes if the volume of the tensor is
a size. -/
theorem reduce_axisSet [NeZero n] (how : Fin n → Grouping) (stat : Statistic) {as : List Int}
    (hx : Agree xs g d k c) (hd : d.isFloat = false) (has : (Axis.many as).Valid g.ndim) :
    let axes := as.map (Axis.position g.ndim)
    let p : Plan := ⟨some axes, true⟩
    (∀ bs : List Int, (Axis.many bs).Valid g.ndim →
      (∀ a, a ∈ bs.map (Axis.position g.ndim) ↔ a ∈ axes) →
      ∀ r how', ¬ p.Overflows (how r) stat (xs r) →
        ¬ Plan.Overflows ⟨some (bs.map (Axis.position g.ndim)), true⟩ how' stat (xs r) →
        ∀ keepdim, (xs r).reduce how' stat (.many bs) keepdim
          = (xs r).reduce (how r) stat (.many as) keepdim) ∧
    ((∀ a < g.ndim, a ∈ axes) → ∀ r how', ¬ p.Overflows (how r) stat (xs r) →
      (xs r).reduce how' stat .all true = (xs r).reduce (how r) stat (.many as) true) ∧
    (∀ r, (xs r).reduce (how r) stat (.many as) false
      = withoutAxes axes <$> (xs r).reduce (how r) stat (.many as) true) ∧
    ((∀ r, ¬ p.Overflows (how r) stat (xs r)) →
      ∃ (ev : Fin n → List Event) (y : Fin n → Sharded),
        Attempt.Runs (fun r => (xs r).reduce (how r) stat (.many as) true)
          (fun r => (ev r, .ok (y r))) ∧
        Attempt.Runs (fun r => (xs r).reduce (how r) stat (.many as) false)
          (fun r => (ev r, .ok ((y r).withoutAxes axes))) ∧
        ∀ r s, (y r).split = some s → ∃ j, ((y r).withoutAxes axes).split = some j ∧
          (Shape.remaining g.ndim axes)[j]? = some s) ∧
    (g.volume < Size.modulus → ∀ bs : List Int, (Axis.many bs).Valid g.ndim → ∀ r how',
      ¬ Plan.Overflows ⟨some (bs.map (Axis.position g.ndim)), true⟩ how' stat (xs r)) := by
  intro axes p
  have haxes : Axis.resolve g (.many as) = .ok (some axes) := Axis.resolve_eq has
  have hne : axes ≠ [] := fun hnil => has.1 (List.map_eq_nil_iff.mp hnil)
  have hdrop : ∀ r, (xs r).reduce (how r) stat (.many as) false = _ :=
    fun r => reduceFor_drop (how r) stat hx haxes r
  -- lists with the same positions make plans that do not differ, and so do all axes
  refine ⟨fun bs hbs hsame r how' h h' keepdim => ?_, fun hall r how' h => ?_, hdrop, fun h => ?_,
    fun hg bs hbs r how' => ?_⟩
  · have hperm : (bs.map (Axis.position g.ndim)).Perm axes :=
      (List.perm_ext_iff_of_nodup hbs.2.2 has.2.2).mpr hsame
    have hnil : bs.map (Axis.position g.ndim) ≠ [] := fun h => hbs.1 (List.map_eq_nil_iff.mp h)
    have hbsaxes := Axis.resolve_eq hbs
    exact reduceFor_alike hx hd hbsaxes haxes (Plan.alike_of_perm hperm hnil keepdim) r
      (fun hover => h' ((overflows_iff_of_resolve _ stat hx hbsaxes r keepdim).mp hover))
      fun hover => h ((overflows_iff_of_resolve _ stat hx haxes r keepdim).mp hover)
  · exact reduceFor_alike hx hd rfl haxes (Plan.alike_all hall hne) r
      (Plan.not_overflows_all (hx.stored r) (by rw [hx.length_shape, hx.gshape])) h
  · obtain ⟨ev, y, hrun⟩ := reduceFor_total how stat (fun _ => none) hx haxes h nofun
    -- where a rank ends up, it is split along an axis that the reduction leaves
    have hyields := Attempt.Yields.of_runs (fun r => yields_split (how r) stat hx haxes r) hrun
    refine ⟨ev, y, hrun, ?_, fun r s hs => ?_⟩
    · have hmap := hrun.bind (k := fun r y => pure (y.withoutAxes axes)) (Attempt.Runs.pure _)
      simp only [List.append_nil, ← map_eq_pure_bind] at hmap
      simp only [hdrop]
      exact hmap
    · obtain ⟨hlen, hsplit⟩ := hyields r
      refine ⟨(Shape.remaining g.ndim axes).idxOf s, ?_, ?_⟩
      · rw [withoutAxes, hs, hlen]
        rfl
      · exact List.getElem?_idxOf (Shape.mem_remaining.mpr (hsplit s hs))
  · exact not_overflows how' stat hx (Axis.valid_of_resolve (Axis.resolve_eq hbs) true) hg r

/-- Words of which each rank holds two: the sums over the two axes that are not split, listed in two
ways, with and without these axes, and the sums over all three axes. -/
theorem reduce_axisSet_four_words :
    let x : Fin 2 → Sharded := fun r =>
      ⟨⟨[2, 1, 1], ⟨.u8, [.ofInt r, .ofInt 255]⟩⟩, [2, 1, 2], .u8, some 2, .cpu, .member 0 r 2⟩
    (∀ r keepdim, (x r).reduce .block .sum (.many [-3, -2]) keepdim
      = (x r).reduce .block .sum (.many [1, 0]) keepdim) ∧
    (∀ r, (x r).reduce .block .sum .all true = (x r).reduce .block .sum (.many [-1, 0, 1]) true) ∧
    ∃ (ev : Fin 2 → List Event) (y : Fin 2 → Sharded),
      Attempt.Runs (fun r => (x r).reduce .block .sum (.many [1, 0]) true)
        (fun r => (ev r, .ok (y r))) ∧
      Attempt.Runs (fun r => (x r).reduce .block .sum (.many [1, 0]) false)
        (fun r => (ev r, .ok ((y r).withoutAxes [1, 0]))) := by
  intro x
  have hx : Agree x [2, 1, 2] .u8 (some 2) fun r => .member 0 r 2 :=
    ⟨.inl ⟨0, fun _ => rfl⟩, fun _ => rfl, fun _ => rfl, by decide⟩
  have htwo : (Axis.many [1, 0]).Valid 3 := ⟨by decide, by decide, by decide⟩
  have htwo' : (Axis.many [-3, -2]).Valid 3 := ⟨by decide, by decide, by decide⟩
  have hthree : (Axis.many [-1, 0, 1]).Valid 3 := ⟨by decide, by decide, by decide⟩
  obtain ⟨hsame, -, -, hruns, hnever⟩ := reduce_axisSet (fun _ => .block) .sum hx rfl htwo
  obtain ⟨-, hall, -⟩ := reduce_axisSet (fun _ => .block) .sum hx rfl hthree
  -- no rank breaks down, whatever the axes
  have hnever := hnever (by decide)
  obtain ⟨ev, y, hkeep, hdrop, -⟩ := hruns fun r => hnever _ htwo r _
  refine ⟨fun r keepdim => ?_, fun r => hall (by decide) r _ (hnever _ hthree r _), ev, y, hkeep,
    hdrop⟩
  refine hsame [-3, -2] htwo' (fun a => ?_) r _ (hnever _ htwo r _) (hnever _ htwo' r _) keepdim
  exact List.Perm.mem_iff (by decide : [0, 1].Perm [1, 0])

end Sharded

end SpmdArray
