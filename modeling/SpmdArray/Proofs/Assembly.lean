import Mathlib.Algebra.BigOperators.Fin
import SpmdArray.Proofs.GroupReduction
import SpmdArray.Proofs.Numbers

/-!
# Putting a tensor together

The ranks of a group tell each other how much they hold along the split axis.  If that makes
up the whole axis, each rank knows where its shard belongs, and the shards are added up.

## Main definitions

* `Sharded.lengthWords` — how much the ranks hold, as they tell each other.
* `Sharded.placed` — what a rank adds to the tensor.

## Main results

* `Sharded.lengths_runs` — every rank learns how much all ranks hold.
* `Sharded.total_lengthWords`, `Sharded.exists_start` — the lengths are added up.
* `Sharded.placed_cases`, `Sharded.placed_of_complete` — shards that make up the axis fit into
  the tensor, unless sizes overflow.
* `Sharded.toGlobal_of_placed` — shards that have been placed are added up.
* `Sharded.toGlobal_of_incomplete` — shards that do not make up the axis are refused.
* `Sharded.toGlobal_runs` — all ranks put the tensor together, or all of them fail alike, or one
  of them breaks down.
-/

namespace SpmdArray

/-! ### Writing to storage -/

namespace Buffer

/-- Writing ends with all positions written to, or at one that lies outside. -/
theorem put_cases {α : Type} (xs : Array α) (ws : List (Nat × α)) :
    ∃ ys, ys.size = xs.size ∧
      (put xs ws = (pure (), ys) ∨
        (∃ w ∈ ws, xs.size ≤ w.1) ∧ put xs ws = (throw .outOfRange, ys)) := by
  induction ws generalizing xs with
  | nil => exact ⟨xs, rfl, .inl rfl⟩
  | cons w ws ih =>
    obtain ⟨i, x⟩ := w
    by_cases hi : i < xs.size
    · obtain ⟨ys, hsize, hput⟩ := ih (xs.setIfInBounds i x)
      rw [Array.size_setIfInBounds] at hsize hput
      rw [put, if_pos hi]
      refine ⟨ys, hsize, hput.imp_right fun ⟨⟨w, hw, hle⟩, herr⟩ => ?_⟩
      exact ⟨⟨w, List.mem_cons_of_mem _ hw, hle⟩, herr⟩
    · refine ⟨xs, rfl, .inr ⟨⟨_, List.mem_cons_self, Nat.le_of_not_lt hi⟩, ?_⟩⟩
      rw [put, if_neg hi]

/-- Elements are written to as many positions, unless one of them lies outside. -/
theorem scatter_cases {b src : Buffer} {offsets : List Nat} (hd : src.dtype = b.dtype)
    (hlen : src.length = offsets.length) :
    (∃ ys : List (Elem b.dtype), ys.length = b.length ∧
      b.scatter offsets src = ⟨.ok (), ⟨b.dtype, ys⟩⟩) ∨
    (∃ i ∈ offsets, b.length ≤ i) ∧
      (b.scatter offsets src).result = .error (.fault .outOfRange) := by
  obtain ⟨d, xs⟩ := src
  obtain rfl : d = b.dtype := hd
  have hxs : xs.length = offsets.length := hlen
  have hown : Buffer.as? b.dtype ⟨b.dtype, xs⟩ = some xs := Buffer.as?_self ⟨b.dtype, xs⟩
  unfold scatter
  simp only [hown, hxs, ne_eq, not_true_eq_false, if_false]
  obtain ⟨ys, hsize, hput | ⟨⟨w, hw, hle⟩, hput⟩⟩ :=
    put_cases b.data.toArray (offsets.zip xs)
  · rw [hput]
    exact .inl ⟨ys.toList, hsize, rfl⟩
  · rw [hput]
    exact .inr ⟨⟨w.1, (List.of_mem_zip hw).1, hle⟩, rfl⟩

end Buffer

namespace Sharded

variable {n : Nat} {x : Fin n → Sharded} {g : Shape} {d : DType} {k : Option Nat} {s : Nat}
  {c : Fin n → Comm}

/-! ### Learning how much all ranks hold -/

/-- How much the ranks hold, as they tell each other. -/
def lengthWords (own : List Nat) : List (Word .i64) := own.map fun l : Nat => .ofInt l

theorem take_lengthWords (own : List Nat) (m : Nat) :
    (lengthWords own).take m = lengthWords (own.take m) :=
  (List.map_take ..).symm

/-- A length is read as a signed word. -/
theorem toInt_length (l : Nat) : (Word.ofInt l : Word .i64).toInt = Size.signed l :=
  BitVec.toInt_ofInt ..

/-- A sum of lengths is exact up to the number of sizes. -/
theorem unsigned_sum (own : List Nat) :
    Size.unsigned ((lengthWords own).map Word.toInt).sum = own.sum % Size.modulus := by
  have hmod : ((lengthWords own).map Word.toInt).sum % (Size.modulus : Int)
      = (own.sum : Int) % (Size.modulus : Int) := by
    induction own with
    | nil => rfl
    | cons l own ih =>
      rw [lengthWords, List.map_cons, List.map_cons, List.sum_cons, ← lengthWords, toInt_length,
        Int.add_emod, ih, Size.signed, Int.bmod_emod, List.sum_cons, Nat.cast_add, ← Int.add_emod]
  rw [Size.unsigned, hmod]
  omega

/-- A sum that gets through is the sum of the numbers. -/
theorem total_eq_ok {ws : List (Word .i64)} {v : Int} (h : total ws = .ok v) :
    v = (ws.map Word.toInt).sum := by
  have hfold : ∀ (ws : List (Word .i64)) (a : Int), ws.foldlM (fun sum w =>
      if IntType.i64.Holds (sum + w.toInt) then return sum + w.toInt else throw .overflow) a
        = (.ok v : Except Fault Int) → v = a + (ws.map Word.toInt).sum := by
    intro ws
    induction ws with
    | nil =>
      intro a h
      obtain rfl := Except.ok.inj h
      simp
    | cons w ws ih =>
      intro a h
      rw [List.foldlM_cons] at h
      obtain ⟨b, hb, h⟩ := bind_eq_ok h
      split at hb
      · obtain rfl := Except.ok.inj hb
        rw [ih _ h, List.map_cons, List.sum_cons, Int.add_assoc]
      · cases hb
  rw [hfold ws 0 h, Int.zero_add]

/-- A sum that does not get through overflows. -/
theorem total_eq_error {ws : List (Word .i64)} {f : Fault} (h : total ws = .error f) :
    f = .overflow := by
  have hfold : ∀ (ws : List (Word .i64)) (a : Int), ws.foldlM (fun sum w =>
      if IntType.i64.Holds (sum + w.toInt) then return sum + w.toInt else throw .overflow) a
        = (.error f : Except Fault Int) → f = .overflow := by
    intro ws
    induction ws with
    | nil =>
      intro a h
      cases h
    | cons w ws ih =>
      intro a h
      rw [List.foldlM_cons] at h
      by_cases hholds : IntType.i64.Holds (a + w.toInt)
      · rw [if_pos hholds] at h
        exact ih _ h
      · rw [if_neg hholds] at h
        exact (Except.error.inj h).symm
  exact hfold ws 0 h

/-- The ranks in front of one of them hold something if all ranks together do. -/
theorem exists_total_take {ws : List (Word .i64)} {v : Int} (h : total ws = .ok v) (m : Nat) :
    ∃ u, total (ws.take m) = .ok u := by
  unfold total at h
  rw [← List.take_append_drop m ws, List.foldlM_append] at h
  obtain ⟨u, hu, -⟩ := bind_eq_ok h
  exact ⟨u, hu⟩

/-- **The lengths are added up** if there is room for their sum. -/
theorem total_lengthWords {own : List Nat} (h : own.sum < 2 ^ 63) :
    total (lengthWords own) = .ok (own.sum : Nat) := by
  have hholds : ∀ m : Nat, m < 2 ^ 63 → IntType.i64.Holds m := fun m hm => by
    simp only [IntType.Holds, IntType.minValue, IntType.maxValue, IntType.isSigned,
      IntType.width, if_true]
    omega
  have hfold : ∀ (own : List Nat) (a : Nat), a + own.sum < 2 ^ 63 →
      (lengthWords own).foldlM (fun sum w =>
        if IntType.i64.Holds (sum + w.toInt) then return sum + w.toInt else throw .overflow)
          (a : Int) = (.ok ((a + own.sum : Nat) : Int) : Except Fault Int) := by
    intro own
    induction own with
    | nil => exact fun a _ => rfl
    | cons l own ih =>
      intro a h
      rw [List.sum_cons] at h
      have hl : (Word.ofInt l : Word .i64).toInt = l := Word.toInt_ofInt (hholds l (by omega))
      rw [lengthWords, List.map_cons, List.foldlM_cons, hl, ← Nat.cast_add,
        if_pos (hholds _ (by omega)), pure_bind, ← lengthWords, ih _ (by omega), List.sum_cons,
        Nat.add_assoc]
  have := hfold own 0 (by omega)
  rwa [Nat.zero_add] at this

/-- Lengths that make up an axis are found to do so. -/
theorem total_of_complete {own : List Nat} {extent : Nat} (hsum : own.sum = extent)
    (h : extent < 2 ^ 63) : total (lengthWords own) = .ok (Size.signed extent) := by
  have hmod : Size.modulus = 2 ^ 64 := rfl
  rw [total_lengthWords (by omega), hsum, Size.signed, Int.bmod_eq_of_le (by omega) (by omega)]

/-- **A rank starts where the ranks before it end**, up to the number of sizes. -/
theorem exists_start {own : Fin n → Nat} {v : Int}
    (h : total (lengthWords (List.ofFn own)) = .ok v) (r : Nat) :
    ∃ u, total ((lengthWords (List.ofFn own)).take r) = .ok u ∧
      Size.unsigned u = Comm.before own r % Size.modulus := by
  obtain ⟨u, hu⟩ := exists_total_take h r
  refine ⟨u, hu, ?_⟩
  rw [total_eq_ok hu, take_lengthWords, unsigned_sum, Comm.before]

/-- Lengths that make up the axis, up to the number of sizes. -/
theorem sum_mod_of_complete {own : List Nat} {e : Nat} (he : e < Size.modulus)
    (h : total (lengthWords own) = .ok (Size.signed e)) : own.sum % Size.modulus = e := by
  rw [← unsigned_sum, ← total_eq_ok h, Size.unsigned, Size.signed, Int.bmod_emod,
    Int.emod_eq_of_lt (by omega) (by omega), Int.toNat_natCast]

/-- A number that one rank enters into zeros of the others. -/
theorem across_entered [NeZero n] (own : Fin n → Nat) (i : Fin n) :
    @Comm.across .i64 n .sum (fun r => Word.ofInt (if (i : Nat) = r then own r else 0))
      = Word.ofInt (own i) := by
  have hlawful : Reducer.Lawful .sum .i64 := Reducer.lawful_sum rfl
  rw [Comm.across_eq_total hlawful, hlawful.total_ofFn_eq_single _ i, if_pos rfl]
  intro r hr
  rw [if_neg fun hval => hr (Fin.ext hval.symm)]
  rfl

/-- The lengths that the ranks have entered, added up. -/
theorem foldRanks_entered [NeZero n] (own : Fin n → Nat) :
    @Comm.foldRanks .i64 .sum (List.ofFn fun r : Fin n =>
        (List.range n).map fun i : Nat => Word.ofInt (if i = r then own r else 0))
      = lengthWords (List.ofFn own) := by
  rw [Comm.foldRanks_ofFn, lengthWords]
  apply List.ext_getElem
  · simp
  · intro i h₁ h₂
    rw [List.getElem_map, List.getElem_range, List.getElem_map, List.getElem_ofFn]
    exact across_entered own ⟨i, by simpa using h₁⟩

/-- **Every rank learns how much all ranks hold.** -/
theorem lengths_runs [NeZero n] {group : Nat} (hc : ∀ r, c r = .member group r n)
    (own : Fin n → Nat) :
    Attempt.Runs (fun r => lengths (c r) (own r)) fun _ =>
      ([.allReduce group .i64 n .sum], .ok (lengthWords (List.ofFn own))) := by
  let mine : Fin n → List (Elem .i64) := fun r =>
    (List.range n).map fun i : Nat => Word.ofInt (if i = r then own r else 0)
  have hrun := @Comm.allReduce_runs n .i64 .sum rfl group n mine fun r => by simp [mine]
  have hvalues : ∀ xs : List (Elem .i64), Buffer.values .i64 ⟨.i64, xs⟩ = xs := fun xs =>
    Buffer.values_self ⟨.i64, xs⟩
  rw [foldRanks_entered own] at hrun
  have hread := hrun.bind (k := fun _ b => pure (b.values .i64)) (Attempt.Runs.pure _)
  simp only [List.append_nil, hvalues] at hread
  simp only [hc]
  exact hread

/-! ### Where the shards belong -/

/-- The number of elements of a slice. -/
theorem prod_set {g : Shape} (hs : s < g.length) (l : Nat) :
    List.prod (g.set s l) = l * (List.prod (g.take s) * List.prod (g.drop (s + 1))) := by
  rw [List.prod_set, if_pos hs, Nat.mul_comm _ l, Nat.mul_assoc]

/-- **Shards that make up the axis fit into the tensor** one after the other, unless they are
empty. -/
theorem fits_of_complete {own : Fin n → Nat} (hs : s < g.length) (he : g.getD s 1 < Size.modulus)
    (hsize : ∑ r, List.prod (g.set s (own r)) < Size.modulus)
    (hsum : total (lengthWords (List.ofFn own)) = .ok (Size.signed (g.getD s 1))) (r : Fin n)
    (hne : List.prod (g.set s (own r)) ≠ 0) :
    Comm.before own r % Size.modulus + own r ≤ g.getD s 1 := by
  simp only [prod_set hs] at hsize hne
  have hrest := Nat.pos_of_ne_zero (Nat.mul_ne_zero_iff.mp hne).2
  rw [← Finset.sum_mul, ← List.sum_ofFn] at hsize
  have hown := Nat.lt_of_le_of_lt (Nat.le_mul_of_pos_right (List.ofFn own).sum hrest) hsize
  have hall := sum_mod_of_complete he hsum
  rw [Nat.mod_eq_of_lt hown] at hall
  have htake := Comm.before_add_le own r
  rw [← hall, Nat.mod_eq_of_lt (by omega)]
  exact htake

/-! ### Adding the shards up -/

/-- A tensor of which every rank has everything. -/
theorem toGlobal_of_whole {x : Sharded} (h : x.split = none ∨ x.comm.isDistributed = false) :
    x.toGlobal = pure x.shard := by
  unfold toGlobal
  split
  · rfl
  · next s hs =>
    rw [hs] at h
    rw [h.resolve_left fun hnone => nomatch hnone]
    rfl

/-- What a rank adds to the tensor: its shard, written to zeros of the global shape from `start`
on. -/
def placed (x : Sharded) (s start own : Nat) : Except Failure Buffer := do
  let n ← x.gshape.numel
  let offsets ← x.gshape.narrowOffsets s start own
  let w := (Buffer.zeros x.dtype n).scatter offsets x.shard.buffer
  w.result
  return w.dest

/-- What a rank does once it knows where its shard belongs. -/
def place (x : Sharded) (s start own : Nat) : Attempt Tensor := do
  let mine ← ExceptT.mk (pure (x.placed s start own))
  let b ← Comm.leftBy (x.comm.allReduce .sum mine)
  ExceptT.mk (pure (Tensor.ofBuffer x.gshape b))

/-- What a rank does once it knows how much all ranks hold. -/
def assemble (x : Sharded) (s : Nat) (lens : List (Word .i64)) : Attempt Tensor := do
  let sum ← total lens
  if sum ≠ Size.signed (x.gshape.getD s 1) then
    throw (.error (.incompleteShards s sum (x.gshape.getD s 1)))
  let start := Size.unsigned (← total (lens.take x.comm.rank))
  x.place s start (x.shard.shape.getD s 1)

theorem assemble_eq {x : Sharded} {lens : List (Word .i64)} {v u : Int}
    (hv : total lens = .ok v) (hu : total (lens.take x.comm.rank) = .ok u) :
    x.assemble s lens = if v ≠ Size.signed (x.gshape.getD s 1)
      then throw (.error (.incompleteShards s v (x.gshape.getD s 1)))
      else x.place s (Size.unsigned u) (x.shard.shape.getD s 1) := by
  unfold assemble
  rw [hv, hu]
  rfl

theorem toGlobal_eq {x : Sharded} (hk : x.split = some s) (hd : x.comm.isDistributed = true)
    (hs : s < x.gshape.length) (hlen : s < x.shard.shape.length) :
    x.toGlobal = lengths x.comm (x.shard.shape.getD s 1) >>= x.assemble s := by
  have hplace : ∀ start, x.place s start (x.shard.shape.getD s 1) = (do
      let n ← x.gshape.numel
      let offsets ← x.gshape.narrowOffsets s start (x.shard.shape.getD s 1)
      let w := (Buffer.zeros x.dtype n).scatter offsets x.shard.buffer
      ExceptT.mk (pure w.result)
      let b ← Comm.leftBy (x.comm.allReduce .sum w.dest)
      ExceptT.mk (pure (Tensor.ofBuffer x.gshape b))) := by
    intro start
    unfold place placed
    cases x.gshape.numel with
    | error f => rfl
    | ok n =>
      cases x.gshape.narrowOffsets s start (x.shard.shape.getD s 1) with
      | error f => rfl
      | ok offsets =>
        let w := (Buffer.zeros x.dtype n).scatter offsets x.shard.buffer
        show (do
          let mine ← ExceptT.mk (pure (do w.result; return w.dest))
          let b ← Comm.leftBy (x.comm.allReduce .sum mine)
          ExceptT.mk (pure (Tensor.ofBuffer x.gshape b)) : Attempt Tensor) = (do
          ExceptT.mk (pure w.result)
          let b ← Comm.leftBy (x.comm.allReduce .sum w.dest)
          ExceptT.mk (pure (Tensor.ofBuffer x.gshape b)))
        rcases w with ⟨e | ⟨⟩, dest⟩
        · rfl
        · rfl
  unfold toGlobal assemble
  simp only [hk, hd, Shape.extent_eq hs, Shape.extent_eq hlen, hplace]
  rfl

section

variable {x : Sharded} {own : Nat} (hgshape : x.gshape = g) (hdtype : x.dtype = d)
  (hshard : x.shard.dtype = d) (hown : x.shard.numel = List.prod (g.set s own))

include hgshape hdtype hshard hown

/-- A rank places its whole shard, unless an element lies outside of the tensor. -/
theorem placed_of_offsets {start : Nat} (hg : g.numel = .ok g.prod)
    (hoff : g.narrowOffsets s start own
      = .ok ((Shape.coords (g.set s own)).map fun e => g.position (Shape.shift s start e))) :
    (∃ ys : List (Elem d), ys.length = g.prod ∧ x.placed s start own = .ok ⟨d, ys⟩) ∨
    (∃ e ∈ Shape.coords (g.set s own), g.prod ≤ g.position (Shape.shift s start e)) ∧
      x.placed s start own = .error (.fault .outOfRange) := by
  unfold placed
  simp only [hgshape, hdtype, hg, hoff, lift_ok, ok_bind]
  -- the shard has as many elements as there are offsets, so only their range matters
  have hlen : x.shard.buffer.length
      = ((Shape.coords (g.set s own)).map fun e => g.position (Shape.shift s start e)).length := by
    rw [List.length_map, Shape.length_coords]
    exact hown
  rcases Buffer.scatter_cases (b := Buffer.zeros d g.prod) hshard hlen
    with ⟨ys, hys, hput⟩ | ⟨⟨i, hi, hle⟩, hput⟩
  · simp only [hput, ok_bind]
    exact .inl ⟨ys, hys.trans (Buffer.length_zeros d _), rfl⟩
  · obtain ⟨e, he, rfl⟩ := List.mem_map.mp hi
    simp only [hput, error_bind]
    exact .inr ⟨⟨e, he, by simpa using hle⟩, trivial⟩

/-- **A rank places its whole shard, or breaks down**: over an overflow, or at an element that lies
outside of the tensor. -/
theorem placed_cases (hs : s < g.length) (start : Nat) :
    (g.numel = .ok g.prod ∧ ∃ ys : List (Elem d), ys.length = g.prod ∧
      x.placed s start own = .ok ⟨d, ys⟩) ∨
    (∃ e ∈ Shape.coords (g.set s own), g.prod ≤ g.position (Shape.shift s start e)) ∧
      x.placed s start own = .error (.fault .outOfRange) ∨
    x.placed s start own = .error (.fault .overflow) := by
  rcases Shape.numel_eq_ok_or g with hg | hg
  · rcases Shape.narrowOffsets_eq_ok_or hs start own with ⟨-, hoff⟩ | hoff
    · exact (placed_of_offsets hgshape hdtype hshard hown hg hoff).imp (fun hok => ⟨hg, hok⟩) .inl
    · unfold placed
      simp only [hgshape, hg, hoff, lift_ok, ok_bind, lift_error, error_bind, or_true]
  · unfold placed
    simp only [hgshape, hg, lift_error, error_bind, or_true]

end

namespace Agree

variable [NeZero n] (hx : Agree x g d (some s) c)

include hx

/-- The shard of a rank has as many elements as its slice of the tensor. -/
theorem numel_shard (r : Fin n) :
    (x r).shard.numel = List.prod (g.set s ((x r).shard.shape.getD s 1)) := by
  rw [← hx.shape_set r]
  exact (hx.stored r).numel_eq

theorem placed_cases (r : Fin n) (start : Nat) :
    (g.numel = .ok g.prod ∧ ∃ ys : List (Elem d), ys.length = g.prod ∧
      (x r).placed s start ((x r).shard.shape.getD s 1) = .ok ⟨d, ys⟩) ∨
    (∃ e ∈ Shape.coords (g.set s ((x r).shard.shape.getD s 1)),
        g.prod ≤ g.position (Shape.shift s start e)) ∧
      (x r).placed s start ((x r).shard.shape.getD s 1) = .error (.fault .outOfRange) ∨
    (x r).placed s start ((x r).shard.shape.getD s 1) = .error (.fault .overflow) :=
  Sharded.placed_cases (hx.gshape r) (hx.dtype r) (hx.shard_dtype r) (hx.numel_shard r)
    (hx.axis_lt rfl) start

end Agree

/-- A rank places a shard that fits into a tensor whose volume is a size. -/
theorem placed_of_fits [NeZero n] (hx : Agree x g d (some s) c) (hg : g.volume < Size.modulus)
    (r : Fin n) {start : Nat} (hfit : start + (x r).shard.shape.getD s 1 ≤ g.getD s 1) :
    ∃ ys : List (Elem d), ys.length = g.prod ∧
      (x r).placed s start ((x r).shard.shape.getD s 1) = .ok ⟨d, ys⟩ := by
  refine (placed_of_offsets (hx.gshape r) (hx.dtype r) (hx.shard_dtype r) (hx.numel_shard r)
    (Shape.numel_of_volume_lt hg)
    (Shape.narrowOffsets_eq hg (hx.axis_lt rfl) hfit)).resolve_right ?_
  rintro ⟨⟨e, he, hle⟩, -⟩
  exact absurd (Shape.position_lt (Shape.within_shift hfit (Shape.mem_coords.mp he)))
    (Nat.not_lt.mpr hle)

/-- **No rank writes outside of a tensor that fits into memory.** -/
theorem placed_of_complete [NeZero n] (hx : Agree x g d (some s) c)
    (hsize : ∑ r, (x r).shard.shape.prod < Size.modulus)
    (hsum : total (lengthWords (List.ofFn fun r => (x r).shard.shape.getD s 1))
      = .ok (Size.signed (g.getD s 1))) (r : Fin n) :
    (x r).placed s (Comm.before (fun r => (x r).shard.shape.getD s 1) r % Size.modulus)
      ((x r).shard.shape.getD s 1) ≠ .error (.fault .outOfRange) := by
  rw [Finset.sum_congr rfl fun r _ => congrArg List.prod (hx.shape_set r)] at hsize
  rcases hx.placed_cases r (Comm.before (fun r => (x r).shard.shape.getD s 1) r % Size.modulus)
    with ⟨-, ys, -, hok⟩ | ⟨⟨e, he, hle⟩, -⟩ | herr
  · rw [hok]
    exact nofun
  -- an element is only written to if the shard is not empty, and then it fits
  · have hne : List.prod (g.set s ((x r).shard.shape.getD s 1)) ≠ 0 := by
      rw [← Shape.length_coords]
      exact List.length_pos_of_mem he |>.ne'
    have hfit := fits_of_complete (hx.axis_lt rfl) (Shape.getD_lt_modulus hx.extents s) hsize
      hsum r hne
    exact absurd (Shape.position_lt (Shape.within_shift hfit (Shape.mem_coords.mp he)))
      (Nat.not_lt.mpr hle)
  · rw [herr]
    exact nofun

/-- **The ranks add up what they have placed.** -/
theorem place_runs [NeZero n] (hx : Agree x g d (some s) c) {group : Nat}
    (hc : ∀ r, c r = .member group r n) (hg : g.numel = .ok g.prod) (start own : Fin n → Nat)
    (ys : Fin n → List (Elem d)) (hys : ∀ r, (ys r).length = g.prod)
    (hplaced : ∀ r, (x r).placed s (start r) (own r) = .ok ⟨d, ys r⟩) :
    Attempt.Runs (fun r => (x r).place s (start r) (own r)) fun _ =>
      ([.allReduce group d g.prod .sum],
        .ok ⟨g, ⟨d, Comm.foldRanks .sum (List.ofFn ys)⟩⟩) := by
  have hfold : (Comm.foldRanks .sum (List.ofFn ys)).length = g.prod :=
    Comm.length_foldRanks_ofFn hys
  let sum : Buffer := ⟨d, Comm.foldRanks .sum (List.ofFn ys)⟩
  have hbuild : Tensor.ofBuffer g sum = .ok ⟨g, sum⟩ :=
    Tensor.ofBuffer_of_numel (hg.trans (congrArg Except.ok hfold.symm))
  have hrun := (@Comm.allReduce_runs n d .sum rfl group g.prod ys hys).bind
    (k := fun _ b => ExceptT.mk (pure (Tensor.ofBuffer g b)))
    (Attempt.Runs.ofExcept fun _ => Tensor.ofBuffer g sum)
  simp only [List.append_nil, hbuild] at hrun
  have hplace : ∀ r, (x r).place s (start r) (own r) = (do
      let b ← Comm.leftBy ((x r).comm.allReduce .sum ⟨d, ys r⟩)
      ExceptT.mk (pure (Tensor.ofBuffer (x r).gshape b))) := by
    intro r
    rw [place, hplaced r]
    rfl
  simp only [hplace, hx.gshape, hx.comm, hc]
  exact hrun

/-- What a whole group does: the ranks learn how much all of them hold, and go on with it. -/
theorem toGlobal_eq_assemble [NeZero n] (hx : Agree x g d (some s) c) {group : Nat}
    (hc : ∀ r, c r = .member group r n) (hn : 1 < n) (r : Fin n) :
    (x r).toGlobal = lengths (c r) ((x r).shard.shape.getD s 1) >>= (x r).assemble s := by
  have hs : s < g.length := hx.axis_lt rfl
  rw [toGlobal_eq (hx.split r) (by rw [hx.comm, hc]; exact decide_eq_true hn)
    (by rw [hx.gshape]; exact hs) (by rw [hx.length_shape]; exact hs), hx.comm]

/-- What a rank does with lengths that make up the axis. -/
theorem assemble_of_complete {x : Sharded} {own : Fin n → Nat} {r : Fin n}
    (hr : x.comm.rank = r)
    (hsum : total (lengthWords (List.ofFn own)) = .ok (Size.signed (x.gshape.getD s 1))) :
    x.assemble s (lengthWords (List.ofFn own))
      = x.place s (Comm.before own r % Size.modulus) (x.shard.shape.getD s 1) := by
  obtain ⟨u, hu, hstart⟩ := exists_start hsum r
  rw [assemble_eq hsum (hr ▸ hu), if_neg (not_not_intro rfl), hstart]

/-- What the ranks do with the lengths of all of them is what they do in the end. -/
theorem toGlobal_of_assemble [NeZero n] (hx : Agree x g d (some s) c) {group : Nat}
    (hc : ∀ r, c r = .member group r n) (hn : 1 < n) {ev : Fin n → List Event}
    {res : Fin n → Except Failure Tensor}
    (h : Attempt.Runs (fun r => (x r).assemble s (lengthWords (List.ofFn fun r =>
      (x r).shard.shape.getD s 1))) fun r => (ev r, res r)) :
    Attempt.Runs (fun r => (x r).toGlobal) fun r =>
      (.allReduce group .i64 n .sum :: ev r, res r) := by
  simp only [toGlobal_eq_assemble hx hc hn]
  exact (lengths_runs hc fun r => (x r).shard.shape.getD s 1).bind
    (k := fun r => (x r).assemble s) h

/-- **All ranks put the tensor together** if their lengths make up the axis and all of them can
place their shards. -/
theorem toGlobal_of_placed [NeZero n] (hx : Agree x g d (some s) c) {group : Nat}
    (hc : ∀ r, c r = .member group r n) (hn : 1 < n) (hg : g.numel = .ok g.prod)
    (hsum : total (lengthWords (List.ofFn fun r => (x r).shard.shape.getD s 1))
      = .ok (Size.signed (g.getD s 1))) (ys : Fin n → List (Elem d))
    (hys : ∀ r, (ys r).length = g.prod)
    (hplaced : ∀ r : Fin n, (x r).placed s
      (Comm.before (fun q => (x q).shard.shape.getD s 1) r % Size.modulus)
      ((x r).shard.shape.getD s 1) = .ok ⟨d, ys r⟩) :
    Attempt.Runs (fun r => (x r).toGlobal) fun _ =>
      ([.allReduce group .i64 n .sum, .allReduce group d g.prod .sum],
        .ok ⟨g, ⟨d, Comm.foldRanks .sum (List.ofFn ys)⟩⟩) := by
  let own : Fin n → Nat := fun r => (x r).shard.shape.getD s 1
  have hassemble : ∀ r, (x r).assemble s (lengthWords (List.ofFn own))
      = (x r).place s (Comm.before own r % Size.modulus) (own r) := fun r =>
    assemble_of_complete (by rw [hx.comm, hx.spans.rank_eq]) (by rw [hx.gshape]; exact hsum)
  refine toGlobal_of_assemble hx hc hn ?_
  show Attempt.Runs (fun r => (x r).assemble s (lengthWords (List.ofFn own))) _
  simp only [hassemble]
  exact place_runs hx hc hg _ own ys hys hplaced

/-- **All ranks refuse to put the tensor together** if their lengths do not make up the axis. -/
theorem toGlobal_of_incomplete [NeZero n] (hx : Agree x g d (some s) c) {group : Nat}
    (hc : ∀ r, c r = .member group r n) (hn : 1 < n) {v : Int}
    (hv : total (lengthWords (List.ofFn fun r => (x r).shard.shape.getD s 1)) = .ok v)
    (hne : v ≠ Size.signed (g.getD s 1)) :
    Attempt.Runs (fun r => (x r).toGlobal) fun _ =>
      ([.allReduce group .i64 n .sum], .error (.error (.incompleteShards s v (g.getD s 1)))) := by
  refine toGlobal_of_assemble hx hc hn ?_
  have hrefuse : ∀ r, (x r).assemble s (lengthWords (List.ofFn fun r =>
      (x r).shard.shape.getD s 1)) = throw (.error (.incompleteShards s v (g.getD s 1))) := by
    intro r
    obtain ⟨u, hu⟩ := exists_total_take hv (x r).comm.rank
    rw [assemble_eq hv hu, hx.gshape, if_pos hne]
  simp only [hrefuse]
  exact Attempt.Runs.ofExcept fun _ => .error (.error (.incompleteShards s v (g.getD s 1)))

/-- All ranks break down alike if the sum of their lengths overflows. -/
theorem toGlobal_of_error [NeZero n] (hx : Agree x g d (some s) c) {group : Nat}
    (hc : ∀ r, c r = .member group r n) (hn : 1 < n) {f : Fault}
    (hv : total (lengthWords (List.ofFn fun r => (x r).shard.shape.getD s 1)) = .error f) :
    Attempt.Runs (fun r => (x r).toGlobal) fun _ =>
      ([.allReduce group .i64 n .sum], .error (.fault f)) := by
  refine toGlobal_of_assemble hx hc hn ?_
  have hfault : ∀ r, (x r).assemble s (lengthWords (List.ofFn fun r =>
      (x r).shard.shape.getD s 1)) = throw (.fault f) := by
    intro r
    unfold assemble
    rw [hv]
    rfl
  simp only [hfault]
  exact Attempt.Runs.ofExcept fun _ => .error (.fault f)

/-- **All ranks put the tensor together, or all of them fail alike**, or one of them breaks down
over its own shard: something overflows, or the shards have more elements than there are sizes. -/
theorem toGlobal_runs [NeZero n] (hx : Agree x g d (some s) c) {group : Nat}
    (hc : ∀ r, c r = .member group r n) (hn : 1 < n) :
    (∃ e : Failure, (∀ e', e = .error e' → e'.kind = .unsupportedLayout) ∧
      Attempt.Runs (fun r => (x r).toGlobal) fun _ =>
        ([.allReduce group .i64 n .sum], .error e)) ∨
    (∃ t, Attempt.Runs (fun r => (x r).toGlobal)
      fun _ => ([.allReduce group .i64 n .sum, .allReduce group d g.prod .sum], .ok t)) ∨
    ∃ (r : Fin n) (f : Fault), (x r).placed s
        (Comm.before (fun q => (x q).shard.shape.getD s 1) r % Size.modulus)
        ((x r).shard.shape.getD s 1) = .error (.fault f) ∧
      (f = .overflow ∨ f = .outOfRange ∧ ¬ ∑ r, (x r).shard.shape.prod < Size.modulus) := by
  let own : Fin n → Nat := fun r => (x r).shard.shape.getD s 1
  cases hv : total (lengthWords (List.ofFn own)) with
  | error f => exact .inl ⟨.fault f, nofun, toGlobal_of_error hx hc hn hv⟩
  | ok v =>
    by_cases hcomplete : v = Size.signed (g.getD s 1)
    · rw [hcomplete] at hv
      right
      by_cases hbroken : ∃ (r : Fin n) (f : Fault), (x r).placed s
          (Comm.before own r % Size.modulus) (own r) = .error (.fault f)
      · right
        obtain ⟨r, f, hr⟩ := hbroken
        refine ⟨r, f, hr, ?_⟩
        rcases hx.placed_cases r (Comm.before own r % Size.modulus)
          with ⟨-, ys, -, hok⟩ | ⟨-, hout⟩ | hover
        · exact nomatch hok.symm.trans hr
        · obtain rfl : Fault.outOfRange = f := by simpa using hout.symm.trans hr
          exact .inr ⟨rfl, fun hsize => placed_of_complete hx hsize hv r hout⟩
        · obtain rfl : Fault.overflow = f := by simpa using hover.symm.trans hr
          exact .inl rfl
      · left
        have hplaced : ∀ r, g.numel = .ok g.prod ∧ ∃ ys : List (Elem d), ys.length = g.prod ∧
            (x r).placed s (Comm.before own r % Size.modulus) (own r) = .ok ⟨d, ys⟩ := fun r =>
          (hx.placed_cases r _).resolve_right fun h =>
            hbroken (h.elim (fun h => ⟨r, _, h.2⟩) fun h => ⟨r, _, h⟩)
        have hg := (hplaced 0).1
        choose ys hys hput using fun r => (hplaced r).2
        exact ⟨_, toGlobal_of_placed hx hc hn hg hv ys hys hput⟩
    · exact .inl ⟨_, fun e' he' => Failure.error.inj he' ▸ rfl,
        toGlobal_of_incomplete hx hc hn hv hcomplete⟩

end Sharded

end SpmdArray
