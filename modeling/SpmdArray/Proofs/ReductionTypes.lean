import SpmdArray.Proofs.ExactReduction
import SpmdArray.Proofs.Outcomes
import SpmdArray.Proofs.Pauses
import SpmdArray.Proofs.Replies

/-!
# Element types of reductions

Sums and products of truth values and integers are 64-bit integers, and the reductions to truth
values have truth values as their results.  A rank converts its elements when it reduces the first
of the axes, so that they keep their type if no axis is listed; only truth values are converted
once more at the end.  Nothing that a rank hears from others changes the type of what it holds.

## Main definitions

* `Statistic.resultType` — the type that a named reduction is said to have.
* `Attempt.Yields post p` — whatever is heard, the results of the attempt `p` satisfy `post`.

## Main results

* `Comm.yields_allReduce` — buffers keep their type when they are combined.
* `Sharded.yields_reduceFor` — the type of whatever comes of a reduction.
* `Sharded.reduceFor_total` — something comes of it, unless a size overflows.
* `Sharded.reduce_resultType` — the types of reductions, with and without an output.
-/

namespace SpmdArray

/-! ### What is promised -/

namespace Statistic

/-- Sums and products may need a wider type than the elements have. -/
def IsArithmetic (stat : Statistic) : Prop := stat = sum ∨ stat = prod

instance (stat : Statistic) : Decidable stat.IsArithmetic :=
  inferInstanceAs (Decidable (stat = sum ∨ stat = prod))

/-- The element type of the reduction of elements of type `d`. -/
def resultType (d : DType) : Statistic → DType
  | sum | prod => if d.isFloat then d else .i64
  | min | max => d
  | all | any => .bool

theorem workType_eq_resultType (stat : Statistic) (d : DType) :
    stat.workType d = stat.resultType d := by
  rcases d with _ | k | f <;> cases stat <;> rfl

/-- The types that sums and products are said to keep. -/
theorem eq_resultType_iff {stat : Statistic} (h : stat.IsArithmetic) (d : DType) :
    d = stat.resultType d ↔ ¬ (d.isFloat = false ∧ d ≠ .i64) := by
  have hresult : stat.resultType d = if d.isFloat then d else .i64 := by
    rcases h with rfl | rfl <;> rfl
  rw [hresult]
  cases d.isFloat <;> simp

end Statistic

/-- The type of what a plan makes of elements of type `d`: sums and products keep it if there is no
axis. -/
theorem Plan.boolean_workType (p : Plan) (stat : Statistic) (d : DType) :
    (if stat.reducer.isBoolean then .bool else p.workType stat d)
      = if p.axes = some [] ∧ stat.IsArithmetic then d else stat.resultType d := by
  by_cases haxes : p.axes = some []
  · have hwork : p.workType stat d = d := by
      unfold workType
      rw [haxes]
    rw [hwork]
    simp only [haxes, true_and]
    cases stat <;> rfl
  · rw [workType_eq haxes, stat.boolean_workType, stat.workType_eq_resultType,
      if_neg fun h => haxes h.1]

/-! ### What is asked for -/

namespace Axis

variable {s : Shape} {axis : Axis}

/-- The empty list of axes is understood as well. -/
theorem resolve_of_valid_or_nil (h : axis.Valid s.ndim ∨ axis = many []) :
    axis.resolve s = .ok (axis.positions s.ndim) := by
  rcases h with h | rfl
  · exact resolve_eq h
  · rfl

theorem positions_eq_nil_iff {ndim : Nat} (h : axis.Valid ndim ∨ axis = many []) :
    axis.positions ndim = some [] ↔ axis = many [] := by
  refine ⟨fun hnil => h.resolve_left fun hvalid => positions_ne_nil hvalid hnil, ?_⟩
  rintro rfl
  rfl

end Axis

/-! ### Attempts with results of one kind -/

/-- What holds for more payloads that may be heard holds for less. -/
theorem Spmd.Always.mono {α : Type} {heard heard' : List Payload → Prop} {post : α → Prop}
    {p : Spmd α} (h : Always heard post p) (hle : ∀ ps, heard' ps → heard ps) :
    Always heard' post p := by
  induction p with
  | done a => exact h
  | log e next ih => exact ih h
  | exchange g q next ih => exact fun ps hps => ih ps (h ps (hle ps hps))

/-- Programs that agree on what a first program may end with. -/
theorem Spmd.Always.bind_congr {α β : Type} {mid : α → Prop} {p : Spmd α} {k k' : α → Spmd β}
    (hp : Always (fun _ => True) mid p) (hk : ∀ a, mid a → k a = k' a) : p >>= k = p >>= k' := by
  induction p with
  | done a => exact hk a hp
  | log e next ih => exact congrArg (Spmd.log e) (ih hp)
  | exchange g q next ih =>
    exact congrArg (Spmd.exchange g q) (funext fun ps => ih ps (hp ps trivial))

namespace Attempt

variable {α β : Type} {mid : α → Prop} {post : β → Prop}

/-- `Yields post p` says that `post` holds of the result of the attempt `p` if it succeeds, whatever
the rank is told in exchanges. -/
def Yields (post : α → Prop) (p : Attempt α) : Prop :=
  Spmd.Always (fun _ => True) (fun res => ∀ a, res = .ok a → post a) p.run

namespace Yields

theorem ofExcept {x : Except Failure β} (h : ∀ b, x = .ok b → post b) :
    Yields post (ExceptT.mk (pure x)) := h

theorem pure {b : β} (h : post b) : Yields post (Pure.pure b) :=
  fun _ hb => Except.ok.inj hb ▸ h

theorem raise (e : Failure) : Yields post (throw e) := nofun

theorem lift {p : Spmd β} (h : p.Always (fun _ => True) post) : Yields post (ExceptT.lift p) :=
  Spmd.Always.bind h fun _ ha _ hb => Except.ok.inj hb ▸ ha

/-- Attempts in sequence. -/
theorem bind {p : Attempt α} {k : α → Attempt β} (hp : Yields mid p)
    (hk : ∀ a, mid a → Yields post (k a)) : Yields post (p >>= k) := by
  refine Spmd.Always.bind hp fun res hres => ?_
  cases res with
  | error e => exact nofun
  | ok a => exact hk a (hres a rfl)

/-- What the results satisfy, they satisfy in a weaker form. -/
theorem mono {p : Attempt α} {post' : α → Prop} (h : Yields mid p) (hle : ∀ a, mid a → post' a) :
    Yields post' p := by
  have hpure := h.bind (k := Pure.pure) fun a ha => pure (hle a ha)
  rwa [bind_pure] at hpure

/-- What comes after any attempt. -/
theorem after {k : α → Attempt β} (p : Attempt α) (hk : ∀ a, Yields post (k a)) :
    Yields post (p >>= k) := by
  refine Spmd.Always.bind (Spmd.always_true _) fun res _ => ?_
  cases res with
  | error e => exact nofun
  | ok a => exact hk a

/-- Attempts that agree on what may come first. -/
theorem bind_congr {p : Attempt α} {k k' : α → Attempt β} (hp : Yields mid p)
    (hk : ∀ a, mid a → k a = k' a) : p >>= k = p >>= k' := by
  refine Spmd.Always.bind_congr hp fun res hres => ?_
  cases res with
  | error e => rfl
  | ok a => exact hk a (hres a rfl)

theorem ite {p : Prop} [Decidable p] {y z : Attempt β} (hy : Yields post y)
    (hz : Yields post z) : Yields post (if p then y else z) := by
  split
  · exact hy
  · exact hz

/-- The results of a whole group. -/
theorem of_runs {n : Nat} [NeZero n] {ps : Fin n → Attempt β} {ev : Fin n → List Event}
    {b : Fin n → β} (h : ∀ r, Yields post (ps r)) (hrun : Runs ps fun r => (ev r, .ok (b r)))
    (r : Fin n) : post (b r) := by
  have hall : Spmd.Ensures (fun (_ : Fin n) res => ∀ a, res = .ok a → post a)
      fun r => (ps r).run := .of_always fun r => Spmd.Always.mono (h r) fun _ _ => trivial
  exact hall.of_runs hrun r (b r) rfl

end Yields

end Attempt

/-! ### Collectives -/

namespace Comm

variable {b w : Buffer} {op : Reducer}

theorem dtype_decode {rank : Nat} {d : DType} {p : Payload} (h : p.decode rank d = .ok w) :
    w.dtype = d := by
  obtain ⟨hd, h⟩ := Error.check_eq_ok_iff.mp h
  unfold Buffer.ofBytes at h
  split at h
  · cases h
  · rw [← Except.ok.inj h]
    exact not_not.mp hd

theorem dtype_combine (b other : Buffer) (op : Reducer) :
    (b.combine other op).dest.dtype = b.dtype := by
  unfold Buffer.combine
  repeat' split
  all_goals rfl

theorem dtype_foldPayloads {rank : Nat} {ps : List Payload}
    (h : foldPayloads op rank b ps = .ok w) : w.dtype = b.dtype := by
  -- by induction on the payloads; the fold goes on with a buffer of the type of `b`
  induction ps generalizing rank b with
  | nil => rw [← Except.ok.inj h]
  | cons p ps ih =>
    obtain ⟨part, -, h⟩ := bind_eq_ok h
    obtain ⟨-, h⟩ := Error.check_eq_ok_iff.mp h
    obtain ⟨-, -, h⟩ := bind_eq_ok h
    rw [ih h, dtype_combine]

theorem dtype_combineAll {ps : List Payload} (h : combineAll op b ps = .ok w) :
    w.dtype = b.dtype := by
  obtain ⟨-, h⟩ := Error.check_eq_ok_iff.mp h
  cases ps with
  | nil => cases h
  | cons p ps =>
    obtain ⟨first, hfirst, h⟩ := bind_eq_ok h
    obtain ⟨acc, hacc, h⟩ := bind_eq_ok h
    obtain ⟨-, h⟩ := Error.check_eq_ok_iff.mp h
    rw [← Except.ok.inj h, dtype_foldPayloads hacc, dtype_decode hfirst]

/-- **Buffers keep their type** when they are combined. -/
theorem yields_allReduce (c : Comm) (op : Reducer) (b : Buffer) :
    (leftBy (c.allReduce op b)).Yields fun w => w.dtype = b.dtype := by
  have hcall : (c.allReduce op b).Always (fun _ => True) fun w => w.dest.dtype = b.dtype := by
    cases c with
    | solo g =>
      show Spmd.Always _ _ (if Buffer.supports op b.dtype then _ else _)
      split <;> rfl
    | member g r n =>
      intro ps _
      show Spmd.Always _ _ (afterAllReduce op b ps)
      unfold afterAllReduce
      cases hall : combineAll op b ps with
      | ok acc => exact dtype_combineAll hall
      | error e => rfl
  refine (Attempt.Yields.lift hcall).bind fun w hw => ?_
  have hcheck : Attempt.Yields (fun _ => True) (ExceptT.mk (pure w.result)) :=
    .ofExcept fun _ _ => trivial
  exact hcheck.bind fun _ _ => .pure hw

end Comm

/-! ### Reductions of one rank -/

namespace Plan

variable {p : Plan} {stat : Statistic} {t u : Tensor} {g : Shape}

theorem dtype_reduceShard {how : Grouping} (ht : t.Stored) (hp : p.Valid t.shape)
    (hg : p.axes = none → g = p.gshape t.shape)
    (h : p.reduceShard (stat.reduceTensor how) t g = .ok u) :
    u.dtype = p.workType stat t.dtype := by
  rcases reduceShard_eq_or how stat ht hp hg with ⟨-, hres⟩ | ⟨hres, -⟩
  · rw [hres] at h
    exact Except.ok.inj h ▸ rfl
  · rw [hres] at h
    cases h

end Plan

namespace Sharded

variable {p : Plan} {stat : Statistic} {x : Sharded} {axis : Axis} {keepdim : Bool}
  {axes : Option (List Nat)}

theorem yields_combinePartials (c : Comm) (op : Reducer) (t : Tensor) :
    (combinePartials c op t).Yields fun u => u.dtype = t.dtype := by
  refine (Comm.yields_allReduce c op t.buffer).bind fun b hb => ?_
  refine .ite (Attempt.Yields.raise _) (.ofExcept fun u hu => ?_)
  obtain ⟨-, rfl⟩ := Tensor.ofBufferOn_eq_ok_iff.mp hu
  exact hb

/-- The elements of a tensor, and of the shard of this rank, are of type `e`. -/
def HasType (e : DType) (y : Sharded) : Prop := y.dtype = e ∧ y.shard.dtype = e

/-! ### Reductions of a whole group -/

variable {n : Nat} {xs : Fin n → Sharded} {g : Shape} {d : DType} {k : Option Nat}
  {c : Fin n → Comm}

/-- **The type of whatever comes of a reduction.** -/
theorem yields_reduceFor (how : Grouping) (stat : Statistic) (keepdim : Bool)
    (hx : Agree xs g d k c) (haxes : axis.resolve g = .ok axes) (r : Fin n)
    (out : Option Sharded) :
    (reduceFor (stat.reduceTensor how) stat.reducer (xs r) axis keepdim out).Yields
      (HasType (if axes = some [] ∧ stat.IsArithmetic then d else stat.resultType d)) := by
  have hp := Axis.valid_of_resolve haxes keepdim
  have haxes : axis.resolve (xs r).gshape = .ok axes := by rw [hx.gshape, haxes]
  by_cases hout : ∀ o, out = some o → o.gshape = Plan.gshape ⟨axes, keepdim⟩ (xs r).gshape
  · rw [reduceFor_eq haxes hout, ← hx.shard_dtype r, hx.gshape]
    refine (Attempt.Yields.ofExcept fun t ht => Plan.dtype_reduceShard (hx.stored r)
      (valid_shard hx hp r) (gshape_shard_all hx r) ht).bind fun t ht => ?_
    have hmeet : (meet ⟨axes, keepdim⟩ stat.reducer (xs r) t).Yields fun u => u.dtype = t.dtype :=
      .ite (yields_combinePartials (xs r).comm stat.reducer t) (.pure rfl)
    refine hmeet.bind fun u hu => .ofExcept fun y hy => ?_
    obtain ⟨rfl, -⟩ := create_eq_ok_iff.mp hy
    rw [← Plan.boolean_workType ⟨axes, keepdim⟩, ← ht, ← hu]
    exact ⟨rfl, rfl⟩
  · push Not at hout
    obtain ⟨o, rfl, hne⟩ := hout
    rw [reduceFor_of_ne haxes hne]
    exact .raise _

/-- The ranks are left with results of the shape of their own. -/
theorem meet_total [NeZero n] (how : Fin n → Grouping) (stat : Statistic) (hx : Agree xs g d k c)
    (hs : ∀ r, (p.gshape (xs r).shard.shape).numel = .ok (p.gshape (xs r).shard.shape).prod) :
    ∃ (ev : Fin n → List Event) (u : Fin n → Tensor),
      Attempt.Runs (fun r => meet p stat.reducer (xs r) (p.result (how r) stat (xs r).shard))
        (fun r => (ev r, .ok (u r))) ∧
      ∀ r, (u r).shape = p.gshape (xs r).shard.shape := by
  simp only [meet_eq hx]
  by_cases hmet : p.reducesSplit k ∧ 1 < n
  · obtain ⟨hred, hn⟩ := hmet
    obtain ⟨group, hgroup⟩ := hx.spans.members hn
    obtain ⟨u, hu, hrun⟩ := combinePartials_agree (t := fun r => p.result (how r) stat (xs r).shard)
      (stat.supports_reducer (p.workType stat d)) hgroup (gshape_shard hx hred 0 ▸ hs 0) fun r => by
        rw [← gshape_shard hx hred r, ← hx.shard_dtype r]
        exact ⟨rfl, rfl, Tensor.numel_tabulate⟩
    simp only [if_pos (And.intro hred hn)]
    exact ⟨_, _, hrun, fun r => hu.trans (gshape_shard hx hred r).symm⟩
  · simp only [if_neg hmet]
    exact ⟨_, _, Attempt.Runs.pure _, fun r => rfl⟩

/-- What a rank has reduced differs from the result along the split axis at most. -/
theorem gshape_shard_agrees [NeZero n] (hx : Agree xs g d k c) (hp : p.Valid g) (r : Fin n) :
    (p.gshape (xs r).shard.shape).length = (p.gshape g).length ∧ ∀ i < (p.gshape g).length,
      if p.split k = some i then
        List.getD (p.gshape (xs r).shard.shape) i 1 ≤ List.getD (p.gshape g) i 1
      else List.getD (p.gshape (xs r).shard.shape) i 1 = List.getD (p.gshape g) i 1 := by
  -- only a split axis that stays makes a difference
  have hcases : p.gshape (xs r).shard.shape = p.gshape g ∨
      ∃ s, k = some s ∧ p.reducesSplit (some s) = false := by
    cases hred : p.reducesSplit k with
    | true => exact .inl (gshape_shard hx hred r)
    | false =>
      cases k with
      | none => exact .inl (congrArg p.gshape (hx.shape_eq r nofun))
      | some s => exact .inr ⟨s, rfl, hred⟩
  rcases hcases with hsame | ⟨s, rfl, hkeeps⟩
  · rw [hsame]
    refine ⟨rfl, fun i _ => ?_⟩
    split
    · exact Nat.le_refl _
    · rfl
  · rw [hx.shape_set r, Plan.gshape_set_of_keeps hp hkeeps, List.length_set, Plan.split_eq,
      if_neg (by simp [hkeeps])]
    refine ⟨rfl, fun i hi => ?_⟩
    rw [Shape.getD_set hi, Option.map_some]
    by_cases hmoved : i = p.moved s
    · rw [if_pos (by rw [hmoved]), if_pos hmoved, hmoved, Plan.getD_gshape_moved hp hkeeps]
      exact hx.extent_le r (hx.axis_lt rfl)
    · rw [if_neg fun h => hmoved (Option.some.inj h).symm, if_neg hmoved]

/-- The constructor accepts a result of the shape of the rank's own. -/
theorem conclude_of_shape [NeZero n] (hx : Agree xs g d k c) (hp : p.Valid g)
    (combine : Reducer) {r : Fin n} {u : Tensor}
    (hu : u.shape = p.gshape (xs r).shard.shape) :
    ∃ y, conclude p combine (xs r) (p.gshape g) u = .ok y := by
  obtain ⟨hlen, hext⟩ := gshape_shard_agrees hx hp r
  rw [← hu, ← hx.split r] at hext
  refine ⟨_, create_eq_ok_iff.mpr ⟨rfl, fun i hi => ?_, rfl, (congrArg List.length hu).trans hlen,
    hext⟩⟩
  rw [hx.split] at hi
  obtain ⟨s, rfl, hkeeps, rfl⟩ := Plan.split_eq_some hi
  exact Plan.moved_lt hp hkeeps (hx.axis_lt rfl)

/-- **A reduction of a whole group succeeds** if no rank breaks down. -/
theorem reduceFor_total [NeZero n] (how : Fin n → Grouping) (stat : Statistic)
    (outs : Fin n → Option Sharded) (hx : Agree xs g d k c) (haxes : axis.resolve g = .ok axes)
    (hc : ∀ r, ¬ Plan.Overflows ⟨axes, keepdim⟩ (how r) stat (xs r))
    (hout : ∀ r o, outs r = some o → o.gshape = Plan.gshape ⟨axes, keepdim⟩ g) :
    ∃ (ev : Fin n → List Event) (y : Fin n → Sharded), Attempt.Runs
      (fun r => reduceFor (stat.reduceTensor (how r)) stat.reducer (xs r) axis keepdim (outs r))
      fun r => (ev r, .ok (y r)) := by
  have hp := Axis.valid_of_resolve haxes keepdim
  have hprog : ∀ r, reduceFor (stat.reduceTensor (how r)) stat.reducer (xs r) axis keepdim (outs r)
      = _ := fun r => reduceFor_eq (by rw [hx.gshape, haxes]) (by rw [hx.gshape]; exact hout r)
  generalize (⟨axes, keepdim⟩ : Plan) = p at *
  -- each rank reduces its shard, then they meet, and each makes a handle of what it is left with
  have hshard := fun r => reduceShard_of_not_overflows hx hp (hc r)
  obtain ⟨ev, u, hmeet, hu⟩ := meet_total how stat hx fun r => (hshard r).1
  choose y hy using fun r => conclude_of_shape hx hp stat.reducer (hu r)
  have hrun := hmeet.bind (k := fun r u =>
    ExceptT.mk (pure (conclude p stat.reducer (xs r) (p.gshape g) u)))
    (Attempt.Runs.ofExcept fun r => conclude p stat.reducer (xs r) (p.gshape g) (u r))
  simp only [List.append_nil, hy] at hrun
  simp only [hprog, hx.gshape, fun r => (hshard r).2]
  exact ⟨ev, y, hrun⟩

/-- The type of the results of handles that agree. -/
theorem yields_of_agree (how : Grouping) (stat : Statistic) (keepdim : Bool)
    (hx : Agree xs g d k c) (haxis : axis.Valid g.ndim ∨ axis = .many []) (r : Fin n)
    (out : Option Sharded) :
    (reduceFor (stat.reduceTensor how) stat.reducer (xs r) axis keepdim out).Yields
      (HasType (if axis = .many [] ∧ stat.IsArithmetic then d else stat.resultType d)) := by
  have h := yields_reduceFor how stat keepdim hx (Axis.resolve_of_valid_or_nil haxis) r out
  simp only [Axis.positions_eq_nil_iff haxis] at h
  exact h

/-- **The types of reductions.**  Sums and products of truth values and integers are 64-bit
integers, except over an empty list of axes, where they are of the type of the elements; the least
and the greatest of some elements are of their type, and truth is a truth value.  That holds of
whatever comes of a reduction, with any number of axes, and an output is replaced by the result.
Something comes of it unless a rank breaks down over a size that overflows, which none does if the
volume of the tensor is a size. -/
theorem reduce_resultType [NeZero n] (how : Fin n → Grouping) (stat : Statistic) (axis : Axis)
    (keepdim : Bool) (hx : Agree xs g d k c) (haxis : axis.Valid g.ndim ∨ axis = .many []) :
    let p : Plan := ⟨axis.positions g.ndim, keepdim⟩
    let e := if axis = .many [] ∧ stat.IsArithmetic then d else stat.resultType d
    (∀ r, ((xs r).reduce (how r) stat axis keepdim).Yields (HasType e)) ∧
    (∀ r o, ((xs r).reduceInto (how r) stat axis keepdim o).Always (fun _ => True) fun w =>
      ∀ y, w.result = .ok y → w.dest = y ∧ y.HasType e) ∧
    ((∀ r, ¬ p.Overflows (how r) stat (xs r)) →
      (∃ (ev : Fin n → List Event) (y : Fin n → Sharded),
        Attempt.Runs (fun r => (xs r).reduce (how r) stat axis keepdim)
          (fun r => (ev r, .ok (y r))) ∧
        ∀ r, (y r).HasType e) ∧
      ∀ o : Fin n → Sharded, (∀ r, (o r).gshape = p.gshape g) →
        ∃ (ev : Fin n → List Event) (y : Fin n → Sharded),
          Spmd.Runs (fun r => (xs r).reduceInto (how r) stat axis keepdim (o r))
            (fun r => (ev r, ⟨.ok (y r), y r⟩)) ∧
          ∀ r, (y r).HasType e) ∧
    (g.volume < Size.modulus → ∀ r, ¬ p.Overflows (how r) stat (xs r)) ∧
    (e = stat.resultType d ↔
      ¬ (axis = .many [] ∧ stat.IsArithmetic ∧ d.isFloat = false ∧ d ≠ .i64)) := by
  intro p e
  have haxes := Axis.resolve_of_valid_or_nil haxis
  have hyields := fun r => yields_of_agree (how r) stat keepdim hx haxis r
  refine ⟨fun r => hyields r none, fun r o => ?_, fun hc => ⟨?_, fun o ho => ?_⟩, fun hg r => ?_,
    ?_⟩
  · rw [reduceInto_eq]
    refine Spmd.Always.bind (hyields r (some o)) fun res hres => ?_
    cases res with
    | error f => exact nofun
    | ok y =>
      intro y' hy'
      obtain rfl := Except.ok.inj hy'
      exact ⟨rfl, hres y rfl⟩
  · obtain ⟨ev, y, hrun⟩ := reduceFor_total how stat (fun _ => none) hx haxes hc nofun
    exact ⟨ev, y, hrun, Attempt.Yields.of_runs (fun r => hyields r none) hrun⟩
  · obtain ⟨ev, y, hrun⟩ := reduceFor_total how stat (fun r => some (o r)) hx haxes hc
      fun r q hq => Option.some.inj hq ▸ ho r
    exact ⟨ev, y, reduceInto_runs hrun,
      Attempt.Yields.of_runs (fun r => hyields r (some (o r))) hrun⟩
  · exact not_overflows (how r) stat hx (Axis.valid_of_resolve haxes keepdim) hg r
  -- only an empty list of axes can leave the type of the input behind
  · by_cases hnil : axis = .many [] ∧ stat.IsArithmetic
    · rw [show e = d from if_pos hnil, Statistic.eq_resultType_iff hnil.2]
      simp only [hnil, true_and]
    · rw [show e = stat.resultType d from if_neg hnil]
      exact iff_of_true rfl fun h => hnil ⟨h.1, h.2.1⟩

/-- Two words of 32 bits: their sum over an axis has 64 bits, and over no axis 32; the greatest of
them has 32 bits, also in the place of a truth value. -/
theorem reduce_resultType_two_words :
    let x : Fin 1 → Sharded := fun _ =>
      ⟨⟨[2], ⟨.i32, [.ofInt 1, .ofInt 2]⟩⟩, [2], .i32, none, .cpu, .solo 0⟩
    let o : Fin 1 → Sharded := fun _ => ⟨⟨[1], ⟨.bool, [true]⟩⟩, [1], .bool, none, .cpu, .solo 0⟩
    (∃ (ev : Fin 1 → List Event) (y : Fin 1 → Sharded),
      Attempt.Runs (fun r => (x r).reduce .block .sum (.many [0]) false)
        (fun r => (ev r, .ok (y r))) ∧
      ∀ r, (y r).HasType .i64) ∧
    (∃ (ev : Fin 1 → List Event) (y : Fin 1 → Sharded),
      Attempt.Runs (fun r => (x r).reduce .block .sum (.many []) false)
        (fun r => (ev r, .ok (y r))) ∧
      ∀ r, (y r).HasType .i32) ∧
    ∃ (ev : Fin 1 → List Event) (y : Fin 1 → Sharded),
      Spmd.Runs (fun r => (x r).reduceInto .block .max (.single (-1)) true (o r))
        (fun r => (ev r, ⟨.ok (y r), y r⟩)) ∧
      ∀ r, (y r).HasType .i32 := by
  intro x o
  have hx : Agree x [2] .i32 none fun _ => .solo 0 :=
    ⟨.inr ⟨rfl, 0, fun _ => rfl⟩, fun _ => rfl, fun _ => rfl, by decide⟩
  have hvol : Shape.volume [2] < Size.modulus := by decide
  have hlist : Axis.Valid (Shape.ndim [2]) (.many [0]) := ⟨by decide, by decide, by decide⟩
  have hsingle : Axis.Valid (Shape.ndim [2]) (.single (-1)) := ⟨by decide, by decide⟩
  have hfirst := reduce_resultType (fun _ => .block) .sum (.many [0]) false hx (.inl hlist)
  have hempty := reduce_resultType (fun _ => .block) .sum (.many []) false hx (.inr rfl)
  have hmax := reduce_resultType (fun _ => .block) .max (.single (-1)) true hx (.inl hsingle)
  exact ⟨(hfirst.2.2.1 (hfirst.2.2.2.1 hvol)).1, (hempty.2.2.1 (hempty.2.2.2.1 hvol)).1,
    (hmax.2.2.1 (hmax.2.2.2.1 hvol)).2 o fun _ => rfl⟩

end Sharded

end SpmdArray
