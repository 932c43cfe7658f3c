import Mathlib.Algebra.Order.BigOperators.Group.Finset
import SpmdArray.Proofs.Assembly

/-!
# Complete and incomplete tensors

The constructor of a handle does not look at the shards of other ranks, so that the shards of a
group may hold less of the split axis than there is, or more.  When the tensor is put together, the
ranks compare what they hold with the extent of the axis, unless there is a single rank.

## Main results

* `Sharded.sum_lengths_le` — how much the ranks hold at most.
* `Sharded.toGlobal_of_sum_ne`, `Sharded.toGlobal_of_sum_eq` — the ranks hold another number of
  entries than the axis has, or the same number.
* `Sharded.toGlobal_complete` — what comes of putting a tensor together.
-/

namespace SpmdArray

namespace Sharded

variable {n : Nat} {x : Fin n → Sharded} {g : Shape} {d : DType} {s : Nat}
  {c : Fin n → Comm}

/-! ### What the ranks hold -/

/-- No rank holds more than the whole axis. -/
theorem sum_lengths_le [NeZero n] (hx : Agree x g d (some s) c) :
    ∑ r, (x r).shard.shape.getD s 1 ≤ n * g.getD s 1 :=
  calc ∑ r, (x r).shard.shape.getD s 1 ≤ ∑ _r : Fin n, g.getD s 1 :=
        Finset.sum_le_sum fun r _ => hx.extent_le r (hx.axis_lt rfl)
    _ = n * g.getD s 1 := by simp

/-! ### Putting the tensor together -/

/-- The ranks add up what they hold. -/
theorem total_held [NeZero n] (hx : Agree x g d (some s) c) (hroom : n * g.getD s 1 < 2 ^ 63) :
    total (lengthWords (List.ofFn fun r => (x r).shard.shape.getD s 1))
      = .ok (∑ r, (x r).shard.shape.getD s 1 : Nat) := by
  rw [← List.sum_ofFn]
  refine total_lengthWords ?_
  rw [List.sum_ofFn]
  exact Nat.lt_of_le_of_lt (sum_lengths_le hx) hroom

/-- The extent is read as it is. -/
theorem signed_extent [NeZero n] (hroom : n * g.getD s 1 < 2 ^ 63) :
    Size.signed (g.getD s 1) = (g.getD s 1 : Int) := by
  have hpos : 1 * g.getD s 1 ≤ n * g.getD s 1 := Nat.mul_le_mul_right _ (NeZero.pos n)
  have hmod : Size.modulus = 2 ^ 64 := rfl
  rw [Size.signed, Int.bmod_eq_of_le (by omega) (by omega)]

/-- **The ranks refuse a tensor of which they hold too little or too much.** -/
theorem toGlobal_of_sum_ne [NeZero n] (hx : Agree x g d (some s) c) {group : Nat}
    (hc : ∀ r, c r = .member group r n) (hn : 1 < n) (hroom : n * g.getD s 1 < 2 ^ 63)
    (hsum : ∑ r, (x r).shard.shape.getD s 1 ≠ g.getD s 1) :
    Attempt.Runs (fun r => (x r).toGlobal) fun _ => ([.allReduce group .i64 n .sum],
      .error (.error (.incompleteShards s (∑ r, (x r).shard.shape.getD s 1 : Nat)
        (g.getD s 1)))) := by
  refine toGlobal_of_incomplete hx hc hn (total_held hx hroom) ?_
  rw [signed_extent hroom]
  exact fun h => hsum (Int.ofNat.inj h)

/-- **The ranks put a tensor together of which they hold everything.** -/
theorem toGlobal_of_sum_eq [NeZero n] (hx : Agree x g d (some s) c) {group : Nat}
    (hc : ∀ r, c r = .member group r n) (hn : 1 < n) (hroom : n * g.getD s 1 < 2 ^ 63)
    (hsize : g.volume < Size.modulus) (hsum : ∑ r, (x r).shard.shape.getD s 1 = g.getD s 1) :
    ∃ t, t.shape = g ∧ t.dtype = d ∧ t.numel = g.prod ∧ Attempt.Runs (fun r => (x r).toGlobal)
      fun _ => ([.allReduce group .i64 n .sum, .allReduce group d g.prod .sum], .ok t) := by
  have hcomplete : total (lengthWords (List.ofFn fun r => (x r).shard.shape.getD s 1))
      = .ok (Size.signed (g.getD s 1)) := by
    rw [total_held hx hroom, signed_extent hroom, hsum]
  have hext := Shape.getD_lt_modulus hx.extents s
  have hplaced : ∀ r, ∃ ys : List (Elem d), ys.length = g.prod ∧
      (x r).placed s (Comm.before (fun q => (x q).shard.shape.getD s 1) r % Size.modulus)
        ((x r).shard.shape.getD s 1) = .ok ⟨d, ys⟩ := by
    intro r
    have hle := Comm.before_add_le (fun q => (x q).shard.shape.getD s 1) r
    rw [List.sum_ofFn, hsum] at hle
    refine placed_of_fits hx hsize r ?_
    rw [Nat.mod_eq_of_lt (by omega)]
    exact hle
  choose ys hys hplaced using hplaced
  exact ⟨⟨g, ⟨d, Comm.foldRanks .sum (List.ofFn ys)⟩⟩, rfl, rfl, Comm.length_foldRanks_ofFn hys,
    toGlobal_of_placed hx hc hn (Shape.numel_of_volume_lt hsize) hcomplete ys hys hplaced⟩

/-- **A single rank takes its shard for the tensor.** -/
theorem toGlobal_of_one (hx : Agree x g d (some s) c) (hn : n = 1) :
    Attempt.Runs (fun r => (x r).toGlobal) fun r => ([], .ok (x r).shard) := by
  have hwhole : ∀ r, (x r).toGlobal = pure (x r).shard := fun r =>
    toGlobal_of_whole (.inr (by rw [hx.comm, hx.spans.isDistributed_eq, hn]; rfl))
  simp only [hwhole]
  exact Attempt.Runs.pure fun r => (x r).shard

/-- The only rank of a group holds what the group holds. -/
theorem shape_of_one [NeZero n] (hx : Agree x g d (some s) c) (hn : n = 1) (r : Fin n) :
    (x r).shard.shape = g.set s (∑ q, (x q).shard.shape.getD s 1) := by
  subst hn
  rw [Fin.sum_univ_one, Fin.fin_one_eq_zero r]
  exact hx.shape_set 0

/-- **A group of several ranks puts together what makes up the split axis, and nothing else.**
All ranks get one tensor of the global shape if the lengths of their shards add up to the extent of
the axis, and the volume of the shape is a size; otherwise all of them get the same error, with the
sum of the lengths, after one exchange.  A single rank gets its shard as it is, which is the tensor
if it holds the whole axis. -/
theorem toGlobal_complete [NeZero n] (hx : Agree x g d (some s) c)
    (hroom : n * g.getD s 1 < 2 ^ 63) :
    let held := ∑ r, (x r).shard.shape.getD s 1
    (1 < n → held ≠ g.getD s 1 →
      ∃ (e : Error) (group : Nat), e = .incompleteShards s held (g.getD s 1) ∧
        e.kind = .unsupportedLayout ∧ Attempt.Runs (fun r => (x r).toGlobal) fun _ =>
          ([.allReduce group .i64 n .sum], .error (.error e))) ∧
    (held = g.getD s 1 → n = 1 ∨ g.volume < Size.modulus →
      ∃ (ev : List Event) (t : Tensor), t.shape = g ∧ t.dtype = d ∧ t.numel = g.prod ∧
        Attempt.Runs (fun r => (x r).toGlobal) fun _ => (ev, .ok t)) ∧
    (n = 1 → (∀ r, (x r).shard.shape = g.set s held) ∧
      Attempt.Runs (fun r => (x r).toGlobal) fun r => ([], .ok (x r).shard)) := by
  intro held
  have hone : n = 1 ∨ 1 < n := by have := NeZero.pos n; omega
  refine ⟨fun hn hheld => ?_, fun hheld hsize => ?_, fun hn =>
    ⟨shape_of_one hx hn, toGlobal_of_one hx hn⟩⟩
  · obtain ⟨group, hc⟩ := hx.spans.members hn
    exact ⟨_, group, rfl, rfl, toGlobal_of_sum_ne hx hc hn hroom hheld⟩
  -- a single rank returns its shard, several ranks add up what they have
  · rcases hone with rfl | hn
    · have hshape : (x 0).shard.shape = g := by
        have hsum : ∑ r, (x r).shard.shape.getD s 1 = g.getD s 1 := hheld
        rw [shape_of_one hx rfl, hsum, Shape.set_getD_self]
      have hrun := toGlobal_of_one hx rfl
      refine ⟨[], (x 0).shard, hshape, hx.shard_dtype 0, by rw [(hx.stored 0).numel_eq, hshape], ?_⟩
      simpa only [Fin.fin_one_eq_zero] using hrun
    · obtain ⟨group, hc⟩ := hx.spans.members hn
      obtain ⟨t, hshape, hd, hnumel, hrun⟩ := toGlobal_of_sum_eq hx hc hn hroom
        (hsize.resolve_left (by omega)) hheld
      exact ⟨_, t, hshape, hd, hnumel, hrun⟩

/-- Two words of three: two ranks with one word each refuse them, and a single rank with both words
passes them on.  A third word makes up the axis. -/
theorem toGlobal_complete_two_words :
    let word (i : Nat) : Word .i64 := .ofInt i
    let handle (own : List (Word .i64)) (c : Comm) : Sharded :=
      ⟨⟨[own.length], ⟨.i64, own⟩⟩, [3], .i64, some 0, .cpu, c⟩
    (∃ (e : Error) (group : Nat), e = .incompleteShards 0 2 3 ∧ e.kind = .unsupportedLayout ∧
      Attempt.Runs (fun r : Fin 2 => (handle [word r] (.member 0 r 2)).toGlobal) fun _ =>
        ([.allReduce group .i64 2 .sum], .error (.error e))) ∧
    (∃ (ev : List Event) (t : Tensor), t.shape = [3] ∧ t.numel = 3 ∧
      Attempt.Runs (fun r : Fin 2 =>
        (handle (List.replicate (r + 1) (word r)) (.member 0 r 2)).toGlobal) fun _ =>
          (ev, .ok t)) ∧
    Attempt.Runs (fun _ : Fin 1 => (handle [word 0, word 1] (.solo 0)).toGlobal) fun _ =>
      ([], .ok ⟨[2], ⟨.i64, [word 0, word 1]⟩⟩) := by
  intro word handle
  have hagree : ∀ {n : Nat} (own : Fin n → List (Word .i64)) (c : Fin n → Comm), Comm.Spans c →
      (∀ r, (own r).length ≤ 3) → Agree (fun r => handle (own r) (c r)) [3] .i64 (some 0) c := by
    intro n own c hc hle
    refine ⟨hc, fun r => create_eq_ok_iff.mpr ⟨rfl, ?_, rfl, rfl, ?_⟩, fun r => ?_, by decide⟩
    · rintro s ⟨⟩
      exact Nat.one_pos
    · intro i hi
      obtain rfl : i = 0 := Nat.lt_one_iff.mp hi
      exact hle r
    · have hvolume : Shape.volume [(own r).length] < Size.modulus := by
        have hmod : Size.modulus = 2 ^ 64 := rfl
        have := hle r
        rw [Shape.volume_cons, Shape.volume_nil]
        omega
      show Shape.numel [(own r).length] = .ok (own r).length
      rw [Shape.numel_of_volume_lt hvolume, List.prod_singleton]
  have hpair : Comm.Spans fun r : Fin 2 => .member 0 r 2 := .inl ⟨0, fun _ => rfl⟩
  have hrefused := hagree (fun r : Fin 2 => [word r]) _ hpair (by decide)
  have hwhole := hagree (fun r : Fin 2 => List.replicate (r + 1) (word r)) _ hpair (by simp)
  have hsingle := hagree (fun _ : Fin 1 => [word 0, word 1]) (fun _ => .solo 0)
    (.inr ⟨rfl, 0, fun _ => rfl⟩) (by decide)
  refine ⟨?_, ?_, ?_⟩
  · exact (toGlobal_complete hrefused (by decide)).1 (by decide) (by decide)
  · obtain ⟨ev, t, hshape, -, hnumel, hrun⟩ :=
      (toGlobal_complete hwhole (by decide)).2.1 (by decide) (.inr (by decide))
    exact ⟨ev, t, hshape, hnumel, hrun⟩
  · exact ((toGlobal_complete hsingle (by decide)).2.2 rfl).2

end Sharded

end SpmdArray
