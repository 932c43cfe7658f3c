import SpmdArray.Proofs.Portions
import SpmdArray.Proofs.RoundTrip
import SpmdArray.Proofs.Sources

/-!
# Verdicts of a group on two operands

The ranks of a group hold handles on two tensors, or bare values, and apply a function to them.
They see to it that all of them know an operand that is sent around; apart from that nobody
compares what the ranks hold, and each of them comes to a verdict of its own.

## Main definitions

* `Spread` — a bare value, or handles of all ranks on one tensor.
* `Spread.Agreed`, `Spread.Valid` — the constructor accepts the handles; the shards make up the
  tensor.
* `Spread.portion` — what a rank has of an operand.
* `Spread.Placed` — rank 0 has what it is to send around.
* `Spread.Divided` — some rank succeeds, and some rank fails.

## Main results

* `Spread.Agreed.replicate_runs` — the ranks send an operand around, or all of them refuse to.
* `Spread.fits_side` — what a rank has once the operands have been sent around.
* `Spread.Agreed.zipShards_runs_of_misplaced`, `Spread.Agreed.zipShards_runs` — what becomes of a
  function of two operands.
* `Spread.binary_decides` — the verdict of each rank.
* `Spread.inLine_of_balanced` — balanced portions fit together.
* `Spread.binary_verdicts` — when the ranks agree, and when each of them decides on its own.
* `Spread.divided_of_slices` — the ranks need not agree.
-/

namespace SpmdArray

/-- What the ranks of a group hold of an operand: a bare value, or handles on one tensor, which
the constructor accepts but does not compare with those of other ranks. -/
inductive Spread (n : Nat) where
  /-- A bare value. -/
  | scalar (s : Scalar)
  /-- Handles on a tensor with the given extents, element type and split axis, and the
  communicators of the ranks. -/
  | handles (x : Fin n → Sharded) (gshape : Shape) (dtype : DType) (split : Option Nat)
      (comm : Fin n → Comm)

namespace Spread

variable {n : Nat}

/-- The ranks have built their handles with the constructor. -/
def Agreed : Spread n → Prop
  | scalar _ => True
  | handles x g d k c => Sharded.Agree x g d k c

/-- The ranks have built their handles with the constructor, and their shards make up the split
axis. -/
def Valid : Spread n → Prop
  | scalar _ => True
  | handles x g d k c => Sharded.Agree x g d k c ∧
      ∀ i, k = some i → (List.ofFn fun r => (x r).shard.shape.getD i 1).sum = g.getD i 1

/-- The operand of rank `r`. -/
def operand (a : Spread n) (r : Fin n) : Operand :=
  match a with
  | scalar s => .scalar s
  | handles x _ _ _ _ => .tensor (x r)

/-- The global shape. -/
def gshape : Spread n → Shape
  | scalar _ => [1]
  | handles _ g _ _ _ => g

/-- The axis along which the operand is split. -/
def split : Spread n → Option Nat
  | scalar _ => none
  | handles _ _ _ k _ => k

/-- The axis along which the operand stays split. -/
def kept (a : Spread n) : Option Nat :=
  a.split.filter fun i => n = 1 ∨ a.gshape.getD i 1 ≠ 1

/-- The split axis, counted in a result with `ndim` axes. -/
def axisIn (a : Spread n) (ndim : Nat) : Option Nat :=
  a.split.map (· + (ndim - a.gshape.length))

/-- Number of axes of the result of a function of two operands. -/
def ndim (a b : Spread n) : Nat := max a.gshape.length b.gshape.length

/-- What rank `r` has of the operand. -/
def portion (a : Spread n) (r : Fin n) : Portion where
  shape := a.gshape
  kept := a.kept
  len :=
    match a with
    | scalar _ => 1
    | handles x _ _ k _ => (x r).shard.shape.getD (k.getD 0) 1

/-- If several ranks share an axis of extent 1, rank 0 has its only entry. -/
def Placed : Spread n → Prop
  | scalar _ => True
  | handles x g _ k _ => ∀ i, k = some i → 1 < n → g.getD i 1 = 1 → Side.HeldByFirst x i

/-- What rank `r` has of the operand once it has been sent around. -/
def side [NeZero n] (a : Spread n) (d : DType) (ndim : Nat) (r : Fin n) : Side :=
  match a with
  | scalar s => .ofOperand d ndim (.scalar s)
  | handles x g d' k c =>
    let s := Side.ofOperand d ndim (.tensor (x r))
    if (handles x g d' k c).kept = k then s
    else { s with shard := ⟨g, (x 0).shard.buffer⟩, split := none }

/-- What the ranks write down and exchange to find out whether rank 0 has an operand that it is to
send around. -/
def inquiry [NeZero n] : Spread n → List Event
  | scalar _ => []
  | handles x g d k c =>
    if (handles x g d k c).kept = k then []
    else [.warning, .allReduce (c 0).group .bool 1 .all]

/-- What the ranks exchange when rank 0 sends the operand around. -/
def delivery [NeZero n] : Spread n → List Event
  | scalar _ => []
  | handles x g d k c =>
    if (handles x g d k c).kept = k then [] else [.broadcast (c 0).group d g.prod 0]

variable {a b : Spread n}

theorem Valid.agreed (ha : a.Valid) : a.Agreed := by
  cases a with
  | scalar s => trivial
  | handles x g d k c => exact ha.1

theorem kept_eq_some_iff {i : Nat} :
    a.kept = some i ↔ a.split = some i ∧ (n = 1 ∨ a.gshape.getD i 1 ≠ 1) := by
  rw [kept, Option.filter_eq_some_iff, decide_eq_true_iff]

section

variable [NeZero n] {x : Fin n → Sharded} {g : Shape} {d : DType} {k : Option Nat}
  {c : Fin n → Comm}

omit [NeZero n] in
/-- An axis of extent 1 that several ranks share. -/
theorem kept_of_single {i : Nat} (hn : 1 < n) (hone : g.getD i 1 = 1) :
    (handles x g d (some i) c).kept = none := by
  rw [kept, Option.filter_eq_none_iff]
  rintro j hj
  obtain rfl : i = j := Option.some.inj hj
  simpa using ⟨by omega, hone⟩

/-- An operand that does not stay split has been sent around, if it was split at all. -/
theorem kept_cases :
    (handles x g d k c).kept = k ∧ (∀ i, k = some i → n = 1 ∨ g.getD i 1 ≠ 1) ∨
      (handles x g d k c).kept = none ∧ ∃ i, k = some i ∧ 1 < n ∧ g.getD i 1 = 1 := by
  by_cases hk : ∀ i, k = some i → n = 1 ∨ g.getD i 1 ≠ 1
  · refine .inl ⟨?_, hk⟩
    cases k with
    | none => rfl
    | some i => exact kept_eq_some_iff.mpr ⟨rfl, hk i rfl⟩
  · push Not at hk
    obtain ⟨i, rfl, hn, hone⟩ := hk
    have := Nat.pos_of_neZero n
    have hn : 1 < n := by omega
    exact .inr ⟨kept_of_single hn hone, i, rfl, hn, hone⟩

omit [NeZero n] in
theorem placed_iff {i : Nat} (hn : 1 < n) (hone : g.getD i 1 = 1) :
    (handles x g d (some i) c).Placed ↔ Side.HeldByFirst x i := by
  refine ⟨fun h => h i rfl hn hone, fun h j hj _ _ => ?_⟩
  obtain rfl : i = j := Option.some.inj hj
  exact h

theorem inquiry_of_single {i : Nat} (hn : 1 < n) (hone : g.getD i 1 = 1) :
    (handles x g d (some i) c).inquiry = [.warning, .allReduce (c 0).group .bool 1 .all] :=
  if_neg (by rw [kept_of_single hn hone]; exact (Option.some_ne_none i).symm)

theorem delivery_of_single {i : Nat} (hn : 1 < n) (hone : g.getD i 1 = 1) :
    (handles x g d (some i) c).delivery = [.broadcast (c 0).group d g.prod 0] :=
  if_neg (by rw [kept_of_single hn hone]; exact (Option.some_ne_none i).symm)

/-- The shard that is sent around is the whole tensor. -/
theorem shape_first {i : Nat} (hx : Sharded.Agree x g d (some i) c) (hone : g.getD i 1 = 1)
    (hheld : Side.HeldByFirst x i) : (x 0).shard.shape = g := by
  refine hx.shape_eq 0 fun j hj => ?_
  obtain rfl : i = j := Option.some.inj hj
  rw [hone]
  exact hheld 0

theorem side_of_kept (hk : (handles x g d k c).kept = k) (d' : DType) (ndim : Nat) (r : Fin n) :
    (handles x g d k c).side d' ndim r = .ofOperand d' ndim (.tensor (x r)) :=
  if_pos hk

theorem side_of_sent {i : Nat} (hk : (handles x g d (some i) c).kept = none) (d' : DType)
    (ndim : Nat) (r : Fin n) : (handles x g d (some i) c).side d' ndim r
      = { Side.ofOperand d' ndim (.tensor (x r)) with
          shard := ⟨g, (x 0).shard.buffer⟩, split := none } :=
  if_neg (by rw [hk]; exact (Option.some_ne_none i).symm)

/-- A rank has its own shard of an operand that stays split, or that was never split. -/
theorem fits_of_kept (ha : (handles x g d k c).Valid) (hk : (handles x g d k c).kept = k)
    (hone : ∀ i, k = some i → n = 1 ∨ g.getD i 1 ≠ 1) (d' : DType) (ndim : Nat) (r : Fin n) :
    ((handles x g d k c).side d' ndim r).Fits ((handles x g d k c).portion r) ndim r n := by
  obtain ⟨hx, hsum⟩ := ha
  have hkept : ((handles x g d k c).portion r).kept = k := hk
  rw [side_of_kept hk]
  refine ⟨hx.stored r, ?_, ?_, ?_, ?_⟩
  · rw [hkept]
    cases k with
    | none => exact hx.shape_eq r fun s hs => nomatch hs
    | some i => exact hx.shape_set r
  · rw [hkept]
    simp only [Side.ofOperand, Sharded.ndim, hx.split, hx.gshape]
    rfl
  · simp only [Side.ofOperand, Sharded.ndim, hx.gshape]
    rfl
  · intro j hj
    obtain rfl : k = some j := hkept.symm.trans hj
    refine ⟨hx.axis_lt rfl, hone j rfl, hx.extent_le r (hx.axis_lt rfl), ?_, x r, rfl,
      hx.gshape r, ?_, ?_⟩
    · -- the only shard of a group of one rank makes up the axis
      rintro rfl
      have hall := hsum j rfl
      rw [List.ofFn_succ, List.ofFn_zero, List.sum_singleton] at hall
      obtain rfl : r = 0 := Fin.fin_one_eq_zero r
      exact hall
    · rw [hx.comm, hx.spans.rank_eq]
    · rw [hx.comm, hx.spans.size_eq]

/-- Every rank has the shard of rank 0 of an operand that has been sent around. -/
theorem fits_of_sent {i : Nat} (ha : (handles x g d (some i) c).Valid)
    (hk : (handles x g d (some i) c).kept = none) (hone : g.getD i 1 = 1)
    (hheld : Side.HeldByFirst x i) (d' : DType) (ndim : Nat) (r : Fin n) :
    ((handles x g d (some i) c).side d' ndim r).Fits ((handles x g d (some i) c).portion r)
      ndim r n := by
  obtain ⟨hx, -⟩ := ha
  have hfirst := shape_first hx hone hheld
  have hstored : (⟨g, (x 0).shard.buffer⟩ : Tensor).Stored := by
    rw [← hfirst]
    exact hx.stored 0
  have hkept : ((handles x g d (some i) c).portion r).kept = none := hk
  rw [side_of_sent hk]
  refine ⟨hstored, ?_, ?_, ?_, ?_⟩
  · rw [hkept]
    rfl
  · rw [hkept]
    rfl
  · simp only [Side.ofOperand, Sharded.ndim, hx.gshape]
    rfl
  · intro j hj
    exact absurd (hkept.symm.trans hj) (Option.some_ne_none j).symm

end

/-- **What a rank has once the operands have been sent around.** -/
theorem fits_side [NeZero n] (ha : a.Valid) (hplaced : a.Placed) (d : DType) (ndim : Nat)
    (r : Fin n) : (a.side d ndim r).Fits (a.portion r) ndim r n := by
  cases a with
  | scalar s =>
    refine ⟨(Scalar.exact_toTensor s d).stored, ?_, rfl, rfl, fun j hj => nomatch hj⟩
    cases s <;> rfl
  | handles x g d' k c =>
    rcases @kept_cases n _ x g d' k c with ⟨hk, hone⟩ | ⟨hk, i, rfl, hn, hone⟩
    · exact fits_of_kept ha hk hone d ndim r
    · exact fits_of_sent ha hk hone (hplaced i rfl hn hone) d ndim r

/-- **The ranks send an operand around where that is needed**, unless rank 0 does not have the only
slice of it; then all of them refuse it. -/
theorem Agreed.replicate_runs [NeZero n] (ha : a.Agreed) (d : DType) (ndim : Nat) :
    (a.Placed → Attempt.Runs (fun r => (Side.ofOperand d ndim (a.operand r)).replicate)
      fun r => (a.inquiry ++ a.delivery, .ok (a.side d ndim r))) ∧
    (¬ a.Placed → ∃ i, a.split = some i ∧
      Attempt.Runs (fun r => (Side.ofOperand d ndim (a.operand r)).replicate)
        fun _ => (a.inquiry, .error (.error (.misplacedSlice i)))) := by
  cases a with
  | scalar s =>
    refine ⟨fun _ => ?_, fun hplaced => absurd trivial hplaced⟩
    have hpure : ∀ r, (Side.ofOperand d ndim ((scalar s : Spread n).operand r)).replicate
        = pure ((scalar s : Spread n).side d ndim r) := fun r => Side.replicate_of_scalar rfl
    simp only [hpure]
    exact Attempt.Runs.pure _
  | handles x g d' k c =>
    rcases @kept_cases n _ x g d' k c with ⟨hk, hone⟩ | ⟨hk, i, rfl, hn, hone⟩
    -- an operand that keeps its split is not asked for, and it counts as placed
    · have hplaced : (handles x g d' k c).Placed := by
        intro i hi hn hext
        rcases hone i hi with h | h
        · omega
        · exact absurd hext h
      refine ⟨fun _ => ?_, fun hnot => absurd hplaced hnot⟩
      have hpure : ∀ r, (Side.ofOperand d ndim ((handles x g d' k c).operand r)).replicate
          = pure ((handles x g d' k c).side d ndim r) := by
        intro r
        rw [side_of_kept hk]
        exact Side.replicate_of_agree ha (r := r) rfl hone
      simp only [hpure, inquiry, delivery, if_pos hk]
      exact Attempt.Runs.pure _
    · obtain ⟨group, hc⟩ := ha.spans.members hn
      have hrun := Side.replicate_runs
        (fun r => Side.ofOperand d ndim ((handles x g d' (some i) c).operand r))
        (fun _ => rfl) ha hone hc hn
      rw [placed_iff hn hone, inquiry_of_single hn hone, delivery_of_single hn hone, hc 0]
      simp only [side_of_sent hk]
      refine ⟨fun hheld => ?_, fun hheld => ⟨i, rfl, ?_⟩⟩
      · simp only [if_pos hheld] at hrun
        exact hrun
      · simp only [if_neg hheld] at hrun
        exact hrun

/-! ### Functions of two operands -/

theorem Agreed.gshape_operand (ha : a.Agreed) (r : Fin n) :
    (a.operand r).gshape = a.gshape := by
  cases a with
  | scalar s => rfl
  | handles x g d k c => exact Sharded.Agree.gshape ha r

theorem Agreed.split_ofOperand (ha : a.Agreed) (d : DType) (ndim : Nat) (r : Fin n) :
    (Side.ofOperand d ndim (a.operand r)).split = a.axisIn ndim := by
  cases a with
  | scalar s => rfl
  | handles x g d' k c =>
    have hx : Sharded.Agree x g d' k c := ha
    simp only [operand, Side.ofOperand, Sharded.ndim, hx.split, hx.gshape]
    rfl

/-- The operands are the same two on all ranks. -/
theorem Agreed.exists_sides [NeZero n] (ha : a.Agreed) (hb : b.Agreed) :
    ∃ d d' : DType, ∀ r, Sharded.sides (a.operand r) (b.operand r)
      = (.ofOperand d (ndim a b) (a.operand r), .ofOperand d' (ndim a b) (b.operand r)) ∧
      Operand.dtypes (a.operand r) (b.operand r) = (d, d') := by
  have hdtypes : ∀ r, Operand.dtypes (a.operand r) (b.operand r)
      = Operand.dtypes (a.operand 0) (b.operand 0) := by
    intro r
    cases a with
    | scalar s =>
      cases b with
      | scalar s' => rfl
      | handles y g d k c => simp only [operand, Operand.dtypes, Sharded.Agree.dtype hb]
    | handles x g d k c =>
      cases b with
      | scalar s' => simp only [operand, Operand.dtypes, Sharded.Agree.dtype ha]
      | handles y g' d' k' c' =>
        simp only [operand, Operand.dtypes, Sharded.Agree.dtype ha, Sharded.Agree.dtype hb]
  refine ⟨_, _, fun r => ⟨?_, hdtypes r⟩⟩
  simp only [Sharded.sides, hdtypes r, ha.gshape_operand, hb.gshape_operand]
  rfl

/-- Operands whose splits are compatible are looked at further. -/
theorem Agreed.sides_agree [NeZero n] (ha : a.Agreed) (hb : b.Agreed)
    (hsplit : ∀ i j, a.axisIn (ndim a b) = some i → b.axisIn (ndim a b) = some j → i = j)
    (r : Fin n) (i j : Nat) :
    (Sharded.sides (a.operand r) (b.operand r)).1.split = some i →
      (Sharded.sides (a.operand r) (b.operand r)).2.split = some j → i = j := by
  obtain ⟨d, d', hsides⟩ := ha.exists_sides hb
  rw [(hsides r).1, ha.split_ofOperand, hb.split_ofOperand]
  exact hsplit i j

/-- What a rank has is split along an axis of its shard, if it stays split. -/
theorem Agreed.split_side [NeZero n] (ha : a.Agreed) (d : DType) (ndim : Nat) (r : Fin n) :
    (a.side d ndim r).split = a.kept.map (· + (ndim - a.gshape.length)) ∧
      ∀ i, (a.side d ndim r).split = some i →
        i - (a.side d ndim r).offset < (a.side d ndim r).shard.shape.length := by
  cases a with
  | scalar s =>
    refine ⟨rfl, fun i hi => ?_⟩
    cases hi
  | handles x g d' k c =>
    have hx : Sharded.Agree x g d' k c := ha
    rcases @kept_cases n _ x g d' k c with ⟨hk, -⟩ | ⟨hk, i, rfl, -, -⟩
    · have hsplit : ((handles x g d' k c).side d ndim r).split
          = k.map (· + (ndim - g.length)) := by
        rw [side_of_kept hk]
        exact ha.split_ofOperand d ndim r
      refine ⟨by rw [hsplit, hk]; rfl, fun i hi => ?_⟩
      rw [hsplit, Option.map_eq_some_iff] at hi
      obtain ⟨j, hj, rfl⟩ := hi
      rw [side_of_kept hk]
      simp only [Side.ofOperand, Sharded.ndim, hx.gshape, hx.length_shape]
      show j + (ndim - g.length) - (ndim - g.length) < g.length
      rw [Nat.add_sub_cancel]
      exact hx.axis_lt hj
    · rw [side_of_sent hk, hk]
      refine ⟨rfl, fun i hi => ?_⟩
      cases hi

/-- The operands that stay split are split along one axis of the result. -/
theorem Agreed.split_side_eq [NeZero n] (ha : a.Agreed) (hb : b.Agreed) {ndim : Nat}
    (hsplit : ∀ i j, a.axisIn ndim = some i → b.axisIn ndim = some j → i = j) (d d' : DType)
    (r : Fin n) (i j : Nat) (hi : (a.side d ndim r).split = some i)
    (hj : (b.side d' ndim r).split = some j) : i = j := by
  rw [(ha.split_side d ndim r).1, Option.map_eq_some_iff] at hi
  rw [(hb.split_side d' ndim r).1, Option.map_eq_some_iff] at hj
  obtain ⟨i, hi, rfl⟩ := hi
  obtain ⟨j, hj, rfl⟩ := hj
  refine hsplit _ _ ?_ ?_
  · rw [axisIn, (kept_eq_some_iff.mp hi).1]
    rfl
  · rw [axisIn, (kept_eq_some_iff.mp hj).1]
    rfl

theorem Agreed.broadcast_operand (ha : a.Agreed) (hb : b.Agreed) (r : Fin n) :
    (a.operand r).gshape.broadcast (b.operand r).gshape = a.gshape.broadcast b.gshape := by
  rw [ha.gshape_operand, hb.gshape_operand]

/-! ### What becomes of a function of two operands -/

section

variable [NeZero n] (f : Tensor → Tensor → Except Failure Tensor) (ha : a.Agreed) (hb : b.Agreed)
  (world : Fin n → Comm)

include ha hb

/-- Operands that are split along two axes of the result. -/
theorem Agreed.zipShards_runs_of_ne {i j : Nat} (hi : a.axisIn (ndim a b) = some i)
    (hj : b.axisIn (ndim a b) = some j) (hne : i ≠ j) :
    Attempt.Runs (fun r => Sharded.zipShards f (a.operand r) (b.operand r) (world r))
      fun _ => ([], .error (.error (.differentSplits i j))) := by
  obtain ⟨d, d', hsides⟩ := ha.exists_sides hb
  refine Sharded.zipShards_runs_of_ne world (fun r => ?_) (fun r => ?_) hne
  · rw [(hsides r).1, ha.split_ofOperand, hi]
  · rw [(hsides r).1, hb.split_ofOperand, hj]

variable (hsplit : ∀ i j, a.axisIn (ndim a b) = some i → b.axisIn (ndim a b) = some j → i = j)

include hsplit

/-- Operands whose shapes do not broadcast. -/
theorem Agreed.zipShards_runs_of_none (hnone : a.gshape.broadcast b.gshape = none) :
    Attempt.Runs (fun r => Sharded.zipShards f (a.operand r) (b.operand r) (world r))
      fun _ => ([], .error (.error (.cannotBroadcast a.gshape b.gshape))) := by
  have hrun := @Sharded.zipShards_runs_of_none f n _ _ world (ha.sides_agree hb hsplit)
    fun r => (ha.broadcast_operand hb r).trans hnone
  simp only [ha.gshape_operand, hb.gshape_operand] at hrun
  exact hrun

variable {s : Shape} (h : a.gshape.broadcast b.gshape = some s)

include h

/-- The left operand is asked for first. -/
theorem Agreed.zipShards_runs_of_left (haplaced : ¬ a.Placed) :
    ∃ i, Attempt.Runs (fun r => Sharded.zipShards f (a.operand r) (b.operand r) (world r))
      fun _ => (a.inquiry, .error (.error (.misplacedSlice i))) := by
  obtain ⟨d, d', hsides⟩ := ha.exists_sides hb
  obtain ⟨i, -, hrun⟩ := (ha.replicate_runs d (ndim a b)).2 haplaced
  refine ⟨i, Sharded.zipShards_runs_of_left world (ha.sides_agree hb hsplit)
    (fun r => (ha.broadcast_operand hb r).trans h) ?_⟩
  simp only [hsides]
  exact hrun

/-- The right operand is asked for once the left one has been sent around. -/
theorem Agreed.zipShards_runs_of_right (haplaced : a.Placed) (hbplaced : ¬ b.Placed) :
    ∃ i, Attempt.Runs (fun r => Sharded.zipShards f (a.operand r) (b.operand r) (world r))
      fun _ => (a.inquiry ++ a.delivery ++ b.inquiry, .error (.error (.misplacedSlice i))) := by
  obtain ⟨d, d', hsides⟩ := ha.exists_sides hb
  have hsent : Attempt.Runs
      (fun r => (Sharded.sides (a.operand r) (b.operand r)).1.replicate)
      fun r => (a.inquiry ++ a.delivery, .ok (a.side d (ndim a b) r)) := by
    simp only [hsides]
    exact (ha.replicate_runs d (ndim a b)).1 haplaced
  obtain ⟨i, -, hrun⟩ := (hb.replicate_runs d' (ndim a b)).2 hbplaced
  refine ⟨i, Sharded.zipShards_runs_of_right world (ha.sides_agree hb hsplit)
    (fun r => (ha.broadcast_operand hb r).trans h) hsent ?_⟩
  simp only [hsides]
  exact hrun

/-- **All ranks refuse an axis of extent 1** of which rank 0 does not have the only entry. -/
theorem Agreed.zipShards_runs_of_misplaced (hmisplaced : ¬ (a.Placed ∧ b.Placed)) :
    ∃ (ev : List Event) (i : Nat),
      Attempt.Runs (fun r => Sharded.zipShards f (a.operand r) (b.operand r) (world r))
        fun _ => (ev, .error (.error (.misplacedSlice i))) := by
  by_cases haplaced : a.Placed
  · exact ⟨_, ha.zipShards_runs_of_right f hb world hsplit h haplaced fun hbplaced =>
      hmisplaced ⟨haplaced, hbplaced⟩⟩
  · exact ⟨_, ha.zipShards_runs_of_left f hb world hsplit h haplaced⟩

/-- **What is left to each rank** once the operands have been sent around. -/
theorem Agreed.zipShards_runs (haplaced : a.Placed) (hbplaced : b.Placed) :
    ∃ d d' : DType, (∀ r, Operand.dtypes (a.operand r) (b.operand r) = (d, d')) ∧
      Attempt.Runs (fun r => Sharded.zipShards f (a.operand r) (b.operand r) (world r)) fun r =>
        (a.inquiry ++ a.delivery ++ (b.inquiry ++ b.delivery),
          Sharded.finish f (DType.promote d d') s (world r) (a.side d (ndim a b) r)
            (b.side d' (ndim a b) r)) := by
  obtain ⟨d, d', hsides⟩ := ha.exists_sides hb
  have hrun := @Sharded.zipShards_runs f n _ _ world s (ha.sides_agree hb hsplit)
    (fun r => (ha.broadcast_operand hb r).trans h) (a.side d (ndim a b)) (b.side d' (ndim a b))
    (fun _ => a.inquiry ++ a.delivery) (fun _ => b.inquiry ++ b.delivery)
  simp only [hsides] at hrun
  exact ⟨d, d', fun r => (hsides r).2, hrun ((ha.replicate_runs d (ndim a b)).1 haplaced)
    ((hb.replicate_runs d' (ndim a b)).1 hbplaced)⟩

end

/-! ### Portions of valid operands -/

theorem split_lt [NeZero n] (ha : a.Valid) {i : Nat} (hi : a.split = some i) :
    i < a.gshape.length := by
  cases a with
  | scalar s => cases hi
  | handles x g d k c => exact ha.1.axis_lt hi

section

variable [NeZero n] (ha : a.Valid) (hb : b.Valid)
  (hsplit : ∀ i j, a.axisIn (ndim a b) = some i → b.axisIn (ndim a b) = some j → i = j)

include ha hb hsplit

variable {s : Shape} (h : a.gshape.broadcast b.gshape = some s)

include h

/-- Portions that are balanced fit together. -/
theorem inLine_of_balanced {r : Fin n} (hpa : (a.portion r).Balanced r n)
    (hpb : (b.portion r).Balanced r n) :
    (a.portion r).InLine (b.portion r) (ndim a b) r n := by
  have hlen : s.length = ndim a b := (Shape.broadcast_eq_some_iff.mp h).1
  by_cases hn : n = 1
  · exact .inl hn
  -- one of the operands is cut down, or both stay split along the same axis
  refine .inr ⟨?_, ?_⟩
  · rintro (⟨-, -, hne⟩ | ⟨-, -, hne⟩)
    · exact hne hpa
    · exact hne hpb
  · rintro ⟨hka, hkb, hne⟩
    obtain ⟨i, hi⟩ := Option.isSome_iff_exists.mp hka
    obtain ⟨j, hj⟩ := Option.isSome_iff_exists.mp hkb
    obtain ⟨hsi, hnei⟩ := kept_eq_some_iff.mp hi
    obtain ⟨hsj, hnej⟩ := kept_eq_some_iff.mp hj
    have haxis : i + (s.length - a.gshape.length) = j + (s.length - b.gshape.length) := by
      refine hsplit _ _ ?_ ?_
      · rw [axisIn, hsi, hlen]
        rfl
      · rw [axisIn, hsj, hlen]
        rfl
    -- both operands have the extent of the result along the axis
    obtain ⟨-, -, hea⟩ := Shape.covers_axis (Shape.broadcastsTo_left h) (split_lt ha hsi)
      (hnei.resolve_left hn)
    obtain ⟨-, -, heb⟩ := Shape.covers_axis (Shape.broadcastsTo_right h) (split_lt hb hsj)
      (hnej.resolve_left hn)
    have hext : a.gshape.getD i 1 = b.gshape.getD j 1 := by rw [← hea, ← heb, haxis]
    refine hne ?_
    rw [hpa i hi, hpb j hj]
    show (Chunk.balanced (a.gshape.getD i 1) r n).length = _
    rw [hext]
    rfl

variable (op : BinaryFn) (world : Fin n → Comm)

variable (haplaced : a.Placed) (hbplaced : b.Placed)

include haplaced hbplaced

/-- **Each rank decides on its own** what to make of its portions. -/
theorem binary_decides :
    ∃ (ev : List Event) (res : Fin n → Except Failure Sharded),
      Attempt.Runs (fun r => Sharded.binary op (a.operand r) (b.operand r) (world r))
        (fun r => (ev, res r)) ∧
      ∀ r, let p := a.portion r
        let q := b.portion r
        (p.InLine q (ndim a b) r n → s.Succeeds (res r)) ∧
        (p.Unbalanced q (ndim a b) r n →
          ∃ e : Error, e.kind = .unsupportedLayout ∧ res r = .error (.error e)) ∧
        (p.Mismatched q → p.len ≠ 1 → q.len ≠ 1 →
          ∃ e : Error, e.kind = .broadcast ∧ res r = .error (.error e)) := by
  have hlen : s.length = ndim a b := (Shape.broadcast_eq_some_iff.mp h).1
  obtain ⟨d, d', -, hrun⟩ := ha.agreed.zipShards_runs (Sharded.kernel op) hb.agreed world hsplit h
    haplaced hbplaced
  refine ⟨_, _, hrun, fun r => ?_⟩
  have hl := fits_side ha haplaced d (ndim a b) r
  have hr := fits_side hb hbplaced d' (ndim a b) r
  have hkept := ha.agreed.split_side_eq hb.agreed hsplit d d' r
  rw [← hlen] at hl hr hkept ⊢
  refine ⟨?_, ?_, ?_⟩
  · exact Sharded.exists_finish_of_inLine op _ (world r) h hl hr hkept r.isLt
  · exact Sharded.finish_of_unbalanced op _ (world r) h hl hr
  · intro hne hpl hql
    exact ⟨_, rfl, Sharded.finish_of_mismatched op _ (world r) h hl hr hkept hne hpl hql⟩

end

/-- Some rank succeeds, and some rank fails. -/
def Divided (op : BinaryFn) (a b : Spread n) (world : Fin n → Comm) : Prop :=
  ∃ (ev : List Event) (res : Fin n → Except Failure Sharded),
    Attempt.Runs (fun r => Sharded.binary op (a.operand r) (b.operand r) (world r))
      (fun r => (ev, res r)) ∧
    (∃ r z, res r = .ok z) ∧ ∃ r e, res r = .error e

theorem divided_of_inLine [NeZero n] (op : BinaryFn) (ha : a.Valid) (hb : b.Valid)
    (world : Fin n → Comm) {s : Shape} (h : a.gshape.broadcast b.gshape = some s)
    (hs : s.volume < Size.modulus)
    (hsplit : ∀ i j, a.axisIn (ndim a b) = some i → b.axisIn (ndim a b) = some j → i = j)
    (haplaced : a.Placed) (hbplaced : b.Placed) {r q : Fin n}
    (hr : (a.portion r).InLine (b.portion r) (ndim a b) r n)
    (hq : (a.portion q).Unbalanced (b.portion q) (ndim a b) q n ∨
      (a.portion q).Mismatched (b.portion q) ∧ (a.portion q).len ≠ 1 ∧ (b.portion q).len ≠ 1) :
    Divided op a b world := by
  obtain ⟨ev, res, hrun, hres⟩ := binary_decides ha hb hsplit h op world haplaced hbplaced
  refine ⟨ev, res, hrun, ⟨r, ((hres r).1 hr).exists_ok hs⟩, ?_⟩
  rcases hq with hbal | ⟨hne, hpl, hql⟩
  · obtain ⟨e, -, he⟩ := (hres q).2.1 hbal
    exact ⟨q, _, he⟩
  · obtain ⟨e, -, he⟩ := (hres q).2.2 hne hpl hql
    exact ⟨q, _, he⟩

/-- The handles of the ranks on consecutive slices of a tensor. -/
def ofSlices (t : Tensor) (k : Option Nat) (len : Fin n → Nat) (c : Fin n → Comm) : Spread n :=
  .handles (fun r => ⟨t.slice k (Comm.before len r) (len r), t.shape, t.dtype, k, .cpu, c r⟩)
    t.shape t.dtype k c

theorem valid_of_slices {x : Fin n → Sharded} {t : Tensor} {k : Option Nat} {len : Fin n → Nat}
    {c : Fin n → Comm} (hx : Sharded.Slices x t k (fun r => Comm.before len r) len c)
    (hlen : ∀ i, k = some i → (List.ofFn len).sum = t.shape.getD i 1) :
    (handles x t.shape t.dtype k c).Valid := by
  have hshard : ∀ r, (x r).shard = t.slice k (Comm.before len r) (len r) := fun r =>
    congrArg Sharded.shard (hx.handle r)
  refine ⟨hx.agree, ?_⟩
  rintro i rfl
  have hown : (fun r => (x r).shard.shape.getD i 1) = len := by
    funext r
    rw [hshard, t.getD_shape_slice i (hx.axis_lt i rfl), if_pos rfl]
  rw [hown]
  exact hlen i rfl

theorem valid_ofSlices [NeZero n] {t : Tensor} {k : Option Nat} {len : Fin n → Nat}
    {c : Fin n → Comm} (ht : t.Exact) (hk : ∀ i, k = some i → i < t.ndim)
    (hlen : ∀ i, k = some i → (List.ofFn len).sum = t.shape.getD i 1) (hc : Comm.Spans c) :
    (ofSlices t k len c).Valid := by
  have hcreate : ∀ r : Fin n, Sharded.create (t.slice k (Comm.before len r) (len r)) t.shape
      t.dtype k ((fun _ => .cpu : Fin n → Device) r) (c r)
        = .ok ⟨t.slice k (Comm.before len r) (len r), t.shape, t.dtype, k, .cpu, c r⟩ := by
    intro r
    refine Sharded.create_slice .cpu (c r) fun i hi => ⟨hk i hi, ?_⟩
    rw [← hlen i hi]
    exact List.le_sum_of_mem (List.mem_ofFn.mpr ⟨r, rfl⟩)
  exact valid_of_slices (Sharded.slices_of_create ht hc hlen hcreate) hlen

/-- **When the ranks agree about a function of two operands, and when each of them decides on its
own.**  All of them refuse operands that are split along different axes of the result, shapes that
do not broadcast, and an axis of extent 1 of which rank 0 does not have the only entry.  Otherwise
nobody compares the lengths that the ranks hold: a rank succeeds if its own portions fit together,
refuses to cut down an unsplit operand next to a portion that is not the balanced one, and cannot
combine portions of different lengths.  Balanced portions fit together on all ranks.  A rank that
succeeds may still run into an overflow, but not if the volume of the result is a size. -/
theorem binary_verdicts [NeZero n] (op : BinaryFn) (ha : a.Valid) (hb : b.Valid)
    (world : Fin n → Comm) :
    let prog : Fin n → Attempt Sharded := fun r =>
      Sharded.binary op (a.operand r) (b.operand r) (world r)
    (∀ i j, a.axisIn (ndim a b) = some i → b.axisIn (ndim a b) = some j → i ≠ j →
      Attempt.Runs prog fun _ => ([], .error (.error (.differentSplits i j)))) ∧
    ((∀ i j, a.axisIn (ndim a b) = some i → b.axisIn (ndim a b) = some j → i = j) →
      (a.gshape.broadcast b.gshape = none →
        Attempt.Runs prog fun _ => ([], .error (.error (.cannotBroadcast a.gshape b.gshape)))) ∧
      ∀ s, a.gshape.broadcast b.gshape = some s →
        (¬ (a.Placed ∧ b.Placed) → ∃ (ev : List Event) (i : Nat),
          Attempt.Runs prog fun _ => (ev, .error (.error (.misplacedSlice i)))) ∧
        (a.Placed → b.Placed → ∃ (ev : List Event) (res : Fin n → Except Failure Sharded),
          Attempt.Runs prog (fun r => (ev, res r)) ∧
          ((∀ r : Fin n, (a.portion r).Balanced r n ∧ (b.portion r).Balanced r n) →
            ∀ r, s.Succeeds (res r)) ∧
          ∀ r, let p := a.portion r
            let q := b.portion r
            (p.InLine q (ndim a b) r n → s.Succeeds (res r)) ∧
            (p.Unbalanced q (ndim a b) r n →
              ∃ e : Error, e.kind = .unsupportedLayout ∧ res r = .error (.error e)) ∧
            (p.Mismatched q → p.len ≠ 1 → q.len ≠ 1 →
              ∃ e : Error, e.kind = .broadcast ∧ res r = .error (.error e)))) := by
  intro prog
  refine ⟨?_, fun hsplit => ⟨?_, fun s h => ⟨?_, ?_⟩⟩⟩
  · intro i j hi hj hne
    exact ha.agreed.zipShards_runs_of_ne (Sharded.kernel op) hb.agreed world hi hj hne
  · exact ha.agreed.zipShards_runs_of_none (Sharded.kernel op) hb.agreed world hsplit
  · exact ha.agreed.zipShards_runs_of_misplaced (Sharded.kernel op) hb.agreed world hsplit h
  · intro haplaced hbplaced
    obtain ⟨ev, res, hrun, hres⟩ := binary_decides ha hb hsplit h op world haplaced hbplaced
    refine ⟨ev, res, hrun, ?_, hres⟩
    intro hbal r
    exact (hres r).1 (inLine_of_balanced ha hb hsplit h (hbal r).1 (hbal r).2)

/-- One rank of three has the balanced slice of three words, and two have not. -/
theorem binary_verdicts_three_words :
    let c : Fin 3 → Comm := fun r => .member 0 r 3
    let x := ofSlices ⟨[3], ⟨.i64, [.ofInt 10, .ofInt 20, .ofInt 30]⟩⟩ (some 0) ![1, 2, 0] c
    let y := ofSlices ⟨[3], ⟨.i64, [.ofInt 1, .ofInt 2, .ofInt 3]⟩⟩ none ![3, 3, 3] c
    ∃ (ev : List Event) (res : Fin 3 → Except Failure Sharded),
      Attempt.Runs (fun r => Sharded.binary .add (x.operand r) (y.operand r) (c r))
        (fun r => (ev, res r)) ∧
      (∃ z, res 0 = .ok z) ∧
      (∃ e : Error, e.kind = .unsupportedLayout ∧ res 1 = .error (.error e)) ∧
      ∃ e : Error, e.kind = .unsupportedLayout ∧ res 2 = .error (.error e) := by
  intro c x y
  have hc : Comm.Spans c := .inl ⟨0, fun _ => rfl⟩
  have hexact : ∀ i j k : Int,
      (⟨[3], ⟨.i64, [.ofInt i, .ofInt j, .ofInt k]⟩⟩ : Tensor).Exact := fun _ _ _ =>
    ⟨rfl, (by decide : Shape.volume [3] < Size.modulus)⟩
  have hx : x.Valid := by
    refine valid_ofSlices (hexact 10 20 30) ?_ ?_ hc
    · rintro i ⟨⟩
      decide
    · rintro i ⟨⟩
      decide
  have hy : y.Valid := valid_ofSlices (hexact 1 2 3) nofun nofun hc
  have hxplaced : x.Placed := by
    rintro i ⟨⟩ - hone
    exact absurd hone (by decide)
  have hyplaced : y.Placed := nofun
  obtain ⟨ev, res, hrun, -, hres⟩ :=
    (((binary_verdicts .add hx hy c).2 nofun).2 [3] rfl).2 hxplaced hyplaced
  refine ⟨ev, res, hrun, ((hres 0).1 ?_).exists_ok (by decide), (hres 1).2.1 ?_, (hres 2).2.1 ?_⟩
  · decide
  · decide
  · decide

/-- **The ranks need not agree.**  One rank has the balanced slice next to an unsplit operand, and
another one has not; one rank has slices of the same length, and another one has not. -/
theorem divided_of_slices :
    let c : Fin 3 → Comm := fun r => .member 0 r 3
    let t : Tensor := ⟨[3], ⟨.i64, [.ofInt 10, .ofInt 20, .ofInt 30]⟩⟩
    let u : Tensor := ⟨[7], ⟨.i64, (List.range 7).map fun i => .ofInt i⟩⟩
    ((ofSlices t (some 0) ![1, 2, 0] c).Valid ∧ (ofSlices t none ![3, 3, 3] c).Valid ∧
      Divided .add (ofSlices t (some 0) ![1, 2, 0] c) (ofSlices t none ![3, 3, 3] c) c) ∧
    (ofSlices u (some 0) ![2, 2, 3] c).Valid ∧ (ofSlices u (some 0) ![2, 3, 2] c).Valid ∧
      Divided .add (ofSlices u (some 0) ![2, 2, 3] c) (ofSlices u (some 0) ![2, 3, 2] c) c := by
  intro c t u
  have hc : Comm.Spans c := .inl ⟨0, fun _ => rfl⟩
  have ht : t.Exact :=
    ⟨rfl, (by decide : Shape.volume [3] < Size.modulus)⟩
  have hu : u.Exact :=
    ⟨rfl, (by decide : Shape.volume [7] < Size.modulus)⟩
  have hvalid : ∀ {v : Tensor} {len : Fin 3 → Nat}, v.Exact → 0 < v.ndim →
      (List.ofFn len).sum = v.shape.getD 0 1 → (ofSlices v (some 0) len c).Valid := by
    intro v len hv hk hlen
    refine valid_ofSlices hv ?_ ?_ hc
    · rintro i ⟨⟩
      exact hk
    · rintro i ⟨⟩
      exact hlen
  have hplaced : ∀ {v : Tensor} {len : Fin 3 → Nat}, v.shape.getD 0 1 ≠ 1 →
      (ofSlices v (some 0) len c).Placed := by
    rintro v len hne i ⟨⟩ - hone
    exact absurd hone hne
  -- an unsplit operand next to unbalanced slices, and slices of different lengths
  refine ⟨?_, ?_⟩
  · have hx : (ofSlices t (some 0) ![1, 2, 0] c).Valid := hvalid ht (by decide) (by decide)
    have hy : (ofSlices t none ![3, 3, 3] c).Valid := valid_ofSlices ht nofun nofun hc
    have hyplaced : (ofSlices t none ![3, 3, 3] c).Placed := nofun
    have hbal := @divided_of_inLine 3 _ _ _ .add hx hy c [3] rfl (by decide) nofun
      (hplaced (by decide)) hyplaced 0 1
    exact ⟨hx, hy, hbal (by decide) (.inl (by decide))⟩
  · have hx : (ofSlices u (some 0) ![2, 2, 3] c).Valid := hvalid hu (by decide) (by decide)
    have hy : (ofSlices u (some 0) ![2, 3, 2] c).Valid := hvalid hu (by decide) (by decide)
    have hsplit : ∀ i j, (ofSlices u (some 0) ![2, 2, 3] c).axisIn 1 = some i →
        (ofSlices u (some 0) ![2, 3, 2] c).axisIn 1 = some j → i = j := by
      rintro i j ⟨⟩ ⟨⟩
      rfl
    have hne := @divided_of_inLine 3 _ _ _ .add hx hy c [7] rfl (by decide) hsplit
      (hplaced (by decide)) (hplaced (by decide)) 0 1
    exact ⟨hx, hy, hne (by decide) (.inr (by decide))⟩

end Spread

end SpmdArray
