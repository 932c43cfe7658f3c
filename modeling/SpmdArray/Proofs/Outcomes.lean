import SpmdArray.Proofs.GroupReduction

/-!
# What a rank has reduced if it gets through

A shard may have any length, and products of its extents may be no sizes, so that its reduction may
break down.  If it does not, the result is of the shape and the type that all ranks expect.

## Main definitions

* `Plan.Overflows` — a rank breaks down as it reduces its shard.

## Main results

* `Sharded.reduceShard_eq_or` — a rank reduces its shard, or something overflows.
* `Sharded.reduceShard_of_not_overflows`, `Sharded.not_overflows` — when it gets through.
* `Sharded.combinePartials_agree` — results of one shape and one type are combined.
-/

namespace SpmdArray

/-- `p.Overflows how stat x` says that a rank with the handle `x` breaks down as it reduces its
shard, since a size on the way overflows. -/
def Plan.Overflows (p : Plan) (how : Grouping) (stat : Statistic) (x : Sharded) : Prop :=
  p.reduceShard (stat.reduceTensor how) x.shard (p.gshape x.gshape) = .error (.fault .overflow)

namespace Sharded

variable {n : Nat} {x : Fin n → Sharded} {g : Shape} {d : DType} {k : Option Nat}
  {c : Fin n → Comm} {p : Plan} {stat : Statistic}

/-- The partial results have the shape of the result. -/
theorem gshape_shard [NeZero n] (hx : Agree x g d k c) (hred : p.reducesSplit k = true)
    (r : Fin n) : p.gshape (x r).shard.shape = p.gshape g := by
  cases k with
  | none => cases hred
  | some s =>
    rw [hx.shape_set r]
    exact Plan.gshape_set_of_reduces hred _

/-- The ranks meet if the split axis is reduced and there are several of them. -/
theorem meet_eq (hx : Agree x g d k c) (p : Plan) (combine : Reducer) (r : Fin n) (t : Tensor) :
    meet p combine (x r) t
      = if p.reducesSplit k ∧ 1 < n then combinePartials (c r) combine t else pure t := by
  rw [meet, hx.split, hx.comm, hx.spans.isDistributed_eq]
  simp only [decide_eq_true_eq]

/-- The axes are axes of the shard as well. -/
theorem valid_shard (hx : Agree x g d k c) (hp : p.Valid g) (r : Fin n) :
    p.Valid (x r).shard.shape := by
  intro axes haxes
  rw [hx.length_shape r]
  exact hp axes haxes

/-- All elements are reduced to a shape for which only the number of axes matters. -/
theorem gshape_shard_all (hx : Agree x g d k c) (r : Fin n) (hnone : p.axes = none) :
    p.gshape g = p.gshape (x r).shard.shape := by
  unfold Plan.gshape
  rw [hnone, hx.length_shape r]

/-- **A rank reduces its shard**, or something overflows. -/
theorem reduceShard_eq_or (how : Grouping) (stat : Statistic) (hx : Agree x g d k c)
    (hp : p.Valid g) (r : Fin n) :
    (p.gshape (x r).shard.shape).numel = .ok (p.gshape (x r).shard.shape).prod ∧
        p.reduceShard (stat.reduceTensor how) (x r).shard (p.gshape g)
          = .ok (p.result how stat (x r).shard) ∨
      p.reduceShard (stat.reduceTensor how) (x r).shard (p.gshape g) = .error (.fault .overflow) ∧
        Size.modulus ≤ (x r).shard.shape.volume :=
  Plan.reduceShard_eq_or how stat (hx.stored r) (valid_shard hx hp r) (gshape_shard_all hx r)

/-- A rank that does not break down has reduced its shard. -/
theorem reduceShard_of_not_overflows {how : Grouping} (hx : Agree x g d k c) (hp : p.Valid g)
    {r : Fin n} (h : ¬ p.Overflows how stat (x r)) :
    (p.gshape (x r).shard.shape).numel = .ok (p.gshape (x r).shard.shape).prod ∧
      p.reduceShard (stat.reduceTensor how) (x r).shard (p.gshape g)
        = .ok (p.result how stat (x r).shard) := by
  refine (reduceShard_eq_or how stat hx hp r).resolve_right fun hover => h ?_
  rw [Plan.Overflows, hx.gshape]
  exact hover.1

/-- No rank breaks down if the volume of the tensor is a size. -/
theorem not_overflows [NeZero n] (how : Grouping) (stat : Statistic) (hx : Agree x g d k c)
    (hp : p.Valid g) (hg : g.volume < Size.modulus) (r : Fin n) :
    ¬ p.Overflows how stat (x r) := by
  have hvol : (x r).shard.shape.volume ≤ g.volume := by
    cases k with
    | none => rw [hx.shape_eq r nofun]
    | some s =>
      rw [hx.shape_set r]
      exact Shape.volume_slice_le (hx.extent_le r (hx.axis_lt rfl))
  intro h
  rw [Plan.Overflows, hx.gshape] at h
  rcases reduceShard_eq_or how stat hx hp r with ⟨-, hok⟩ | ⟨-, hge⟩
  · rw [hok] at h
    cases h
  · exact Nat.not_lt.mpr hge (hvol.trans_lt hg)

/-- **Results of one shape and one type** are combined. -/
theorem combinePartials_agree [NeZero n] {op : Reducer}
    (hop : Buffer.supports op d = true) {group : Nat}
    (hc : ∀ r, c r = .member group r n) {s : Shape} (hs : s.numel = .ok s.prod) {t : Fin n → Tensor}
    (h : ∀ r, (t r).shape = s ∧ (t r).dtype = d ∧ (t r).numel = s.prod) :
    ∃ u : Tensor, u.shape = s ∧ Attempt.Runs (fun r => combinePartials (c r) op (t r))
      fun _ => ([.allReduce group d s.prod op], .ok u) := by
  have hparts : ∀ r, ∃ xs : List (Elem d), xs.length = s.prod ∧ t r = ⟨s, ⟨d, xs⟩⟩ := by
    intro r
    obtain ⟨hs, hd, hn⟩ := h r
    rcases ht : t r with ⟨s', e, xs⟩
    rw [ht] at hs hd hn
    obtain rfl : e = d := hd
    obtain rfl : s' = s := hs
    exact ⟨xs, hn, rfl⟩
  choose xs hxs ht using hparts
  simp only [ht]
  exact ⟨_, rfl, combinePartials_runs hop hc hs xs hxs⟩

end Sharded

end SpmdArray
