import SpmdArray.Proofs.Rounding
import SpmdArray.Proofs.RoundTrip

/-!
# Signed zeros

A group puts a tensor together by adding up shards that are padded with zeros.  The sum of a
float and zero is that float again, with one exception: the sum of a negative zero and zero is
zero.  So a tensor of floats comes back without the signs of its zeros.

## Main definitions

* `Ieee.Num.Same` — two data have the same pattern, or both are no numbers.
* `Ieee.Num.settled` — what is left of a datum once zero has been added to it.

## Main results

* `Ieee.Num.add_zero`, `Ieee.Num.same_settled_iff` — what adding zero does to a datum.
* `Comm.across_single` — the sum of one datum and the zeros of the other ranks.
* `Sharded.toGlobal_floats` — which tensors of floats come back unchanged.
-/

namespace SpmdArray

namespace Ieee

variable {F : Format}

namespace Num

/-! ### Adding zero -/

/-- The data have the same pattern, or both are no numbers. -/
def Same (x y : Num F) : Prop := x = y ∨ x.isNaN = true ∧ y.isNaN = true

/-- What is left of a datum once zero has been added to it: there is one datum that is no
number, and no negative zero. -/
def settled (x : Num F) : Num F :=
  if x.isNaN then nan else if x.body = 0 then zero false else x

theorem add_comm (x y : Num F) : x.add y = y.add x := by
  unfold add
  rcases x.value with _ | s | ⟨s, m, e⟩ <;> rcases y.value with _ | t | ⟨t, n, d⟩
  case infinite.infinite =>
    by_cases hst : s = t
    · subst hst
      rfl
    · simp only [if_neg hst, if_neg (Ne.symm hst)]
  case finite.finite => simp only [Int.min_comm e d, Int.add_comm (signed s _), Bool.and_comm s t]
  all_goals rfl

/-- Sign and size of a significand with its sign. -/
theorem signed_of_pos (neg : Bool) {m : Nat} (hm : 0 < m) :
    signed neg m ≠ 0 ∧ decide (signed neg m < 0) = neg ∧ (signed neg m).natAbs = m := by
  cases neg <;> simp [signed] <;> omega

/-- **Adding zero** settles a datum. -/
theorem add_zero (h : 0 < F.infinity) (x : Num F) : x.add (zero false) = x.settled := by
  rw [add, value_zero h, settled]
  by_cases hnan : x.isNaN = true
  · rw [value, if_pos hnan, if_pos hnan]
  rw [value, if_neg hnan, if_neg hnan]
  by_cases hfin : x.isFinite = true
  · have hlt : x.body < F.infinity := of_decide_eq_true hfin
    have hmin := minExp_le_split F x.body
    -- the exponent of zero is the least one, in which the sum is that of the significands
    rw [if_pos hfin]
    simp only [Int.min_eq_right hmin, Int.sub_self, Int.toNat_zero, Nat.zero_shiftLeft,
      Bool.and_false]
    obtain ⟨m, hm⟩ : ∃ m, m = (split F x.body).1 <<< ((split F x.body).2 - F.minExp).toNat :=
      ⟨_, rfl⟩
    have hm0 : m = 0 ↔ x.body = 0 := by
      rw [hm, Nat.shiftLeft_eq, Nat.mul_eq_zero, split_eq_zero_iff]
      exact or_iff_left (Nat.ne_of_gt (Nat.two_pow_pos _))
    have hsum : signed x.isNeg m + signed false 0 = signed x.isNeg m := Int.add_zero _
    rw [← hm, hsum]
    by_cases hbody : x.body = 0
    · rw [if_pos hbody, hm0.mpr hbody]
      cases x.isNeg <;> rfl
    · have hpos : 0 < m := Nat.pos_of_ne_zero fun h0 => hbody (hm0.mp h0)
      obtain ⟨hne, hneg, habs⟩ := signed_of_pos x.isNeg hpos
      rw [if_neg hbody, if_neg hne, hneg, habs, hm, ofDyadic_split (Nat.pos_of_ne_zero hbody) hlt,
        ofBody_body]
  · have hinf : x.body = F.infinity := by
      simp only [isNaN, isFinite, decide_eq_true_eq] at hnan hfin
      omega
    rw [if_neg hfin, if_neg (by omega)]
    show ofBody x.isNeg F.infinity = x
    rw [← hinf, ofBody_body]

variable {f : FloatType}

theorem infinity_pos (f : FloatType) : 0 < f.format.infinity := by
  cases f <;> decide

@[simp] theorem isNaN_nan (f : FloatType) : (nan : Num f.format).isNaN = true := by
  cases f <;> decide

@[simp] theorem settled_zero (neg : Bool) : (zero neg : Num f.format).settled = zero false := by
  cases f <;> cases neg <;> decide

@[simp] theorem settled_settled (x : Num f.format) : x.settled.settled = x.settled := by
  unfold settled
  by_cases hnan : x.isNaN = true
  · simp only [if_pos hnan, isNaN_nan, if_true]
  · by_cases hbody : x.body = 0
    · rw [if_neg hnan, if_pos hbody]
      exact settled_zero false
    · simp only [if_neg hnan, if_neg hbody]

/-- **Only a negative zero is changed** by adding zero. -/
theorem same_settled_iff (x : Num f.format) : Same x x.settled ↔ x ≠ zero true := by
  have hzero : ∀ neg, (zero neg : Num f.format).isNaN = false := by
    cases f <;> decide
  unfold Same settled
  by_cases hnan : x.isNaN = true
  · refine iff_of_true (.inr ⟨hnan, by rw [if_pos hnan, isNaN_nan]⟩) ?_
    rintro rfl
    exact Bool.noConfusion (hnan.symm.trans (hzero true))
  rw [if_neg hnan, or_iff_left fun h => hnan h.1]
  by_cases hbody : x.body = 0
  · rw [if_pos hbody, ← ofBody_body x, hbody]
    cases x.isNeg
    · exact iff_of_true rfl (by cases f <;> decide)
    · exact iff_of_false (by cases f <;> decide) (fun h => h rfl)
  · rw [if_neg hbody]
    refine iff_of_true rfl ?_
    rintro rfl
    exact hbody (body_ofBody (Nat.two_pow_pos _))

end Num

end Ieee

/-! ### Adding the zeros of other ranks -/

namespace Comm

variable {f : FloatType} {n : Nat}

theorem foldl_settled {xs : List (Ieee.Num f.format)} (h : ∀ y ∈ xs, y = Ieee.Num.zero false)
    (x : Ieee.Num f.format) : xs.foldl Ieee.Num.add x.settled = x.settled := by
  induction xs with
  | nil => rfl
  | cons y ys ih =>
    rw [List.foldl_cons, h y List.mem_cons_self, Ieee.Num.add_zero (Ieee.Num.infinity_pos f),
      Ieee.Num.settled_settled]
    exact ih fun y' hy' => h y' (List.mem_cons_of_mem _ hy')

/-- One datum among zeros, added to zero. -/
theorem foldl_zero_single (x : Fin n → Ieee.Num f.format) (q : Fin n)
    (hx : ∀ r, r ≠ q → x r = Ieee.Num.zero false) :
    (List.ofFn x).foldl Ieee.Num.add (Ieee.Num.zero false) = (x q).settled := by
  induction n with
  | zero => exact q.elim0
  | succ n ih =>
    rw [List.ofFn_succ, List.foldl_cons, Ieee.Num.add_comm,
      Ieee.Num.add_zero (Ieee.Num.infinity_pos f)]
    cases q using Fin.cases with
    | zero =>
      refine foldl_settled (fun y hy => ?_) _
      obtain ⟨r, rfl⟩ := List.mem_ofFn.mp hy
      exact hx r.succ (Fin.succ_ne_zero r)
    | succ q =>
      rw [hx 0 (Fin.succ_ne_zero q).symm, Ieee.Num.settled_zero]
      exact ih (fun r => x r.succ) q fun r hr => hx r.succ fun h => hr (Fin.succ_injective _ h)

/-- **One datum and the zeros of the other ranks.**  Each rank but the one that holds the datum
adds zero to it. -/
theorem across_single (hn : 1 < n) (x : Fin n → Ieee.Num f.format) (q : Fin n)
    (hx : ∀ r, r ≠ q → x r = Ieee.Num.zero false) :
    @across (.float f) n .sum x = (x q).settled := by
  obtain ⟨m, rfl⟩ : ∃ m, n = m + 2 := ⟨n - 2, by omega⟩
  have hfold : @across (.float f) (m + 2) .sum x
      = (List.ofFn fun r => x r.succ).foldl Ieee.Num.add (x 0) := by
    rw [across, List.ofFn_succ]
    rfl
  rw [hfold]
  cases q using Fin.cases with
  | zero =>
    have hrest : ∀ r : Fin (m + 1), x r.succ = Ieee.Num.zero false := fun r =>
      hx r.succ (Fin.succ_ne_zero r)
    rw [List.ofFn_succ, List.foldl_cons, hrest, Ieee.Num.add_zero (Ieee.Num.infinity_pos f)]
    refine foldl_settled (fun y hy => ?_) _
    obtain ⟨r, rfl⟩ := List.mem_ofFn.mp hy
    exact hrest r.succ
  | succ q =>
    rw [hx 0 (Fin.succ_ne_zero q).symm]
    exact foldl_zero_single _ q fun r hr => hx r.succ fun h => hr (Fin.succ_injective _ h)

end Comm

/-! ### Tensors of floats -/

namespace Sharded

variable {n : Nat} {f : FloatType} {s : Shape} {xs : List (Ieee.Num f.format)} {k : Option Nat}
  {c : Fin n → Comm}

/-- The entries of a tensor, added to the zeros of the ranks that do not hold them. -/
theorem foldRanks_held_floats (hn : 1 < n) (ht : (⟨s, ⟨.float f, xs⟩⟩ : Tensor).Exact)
    {len : Fin n → Nat} {a : Nat} (ha : a < s.length)
    (hlen : (List.ofFn len).sum = s.getD a 1) :
    Comm.foldRanks .sum (List.ofFn fun r : Fin n =>
      Tensor.held ⟨s, ⟨.float f, xs⟩⟩ a (Comm.before len r) (len r)) = xs.map Ieee.Num.settled := by
  have : NeZero n := ⟨by omega⟩
  let get : List Nat → Ieee.Num f.format := Tensor.get ⟨s, ⟨.float f, xs⟩⟩
  have hentries : xs = s.coords.map get := Tensor.eq_map_coords ht.count (Ieee.Num.zero false)
  show Comm.foldRanks (d := .float f) .sum (List.ofFn fun r : Fin n => s.coords.map fun e =>
    if Comm.before len r ≤ e.getD a 0 ∧ e.getD a 0 < Comm.before len r + len r then get e
    else Ieee.Num.zero false) = _
  rw [Comm.foldRanks_ofFn, hentries, List.map_map]
  refine List.map_congr_left fun e he => ?_
  have hlt : e.getD a 0 < (List.ofFn len).sum :=
    hlen ▸ (Shape.within_iff.mp (Shape.mem_coords.mp he)).2 a ha
  obtain ⟨q, hq, hother⟩ := Comm.exists_owner hlt
  rw [Comm.across_single hn _ q fun r hr => if_neg (hother r hr), if_pos hq]
  rfl

/-- Adding zero leaves a list of floats alone if there is no negative zero in it. -/
theorem forall₂_settled_iff :
    List.Forall₂ Ieee.Num.Same xs (xs.map Ieee.Num.settled) ↔ Ieee.Num.zero true ∉ xs := by
  rw [List.forall₂_map_right_iff, List.forall₂_same]
  simp only [Ieee.Num.same_settled_iff]
  exact ⟨fun h hmem => h _ hmem rfl, fun h x hx heq => h (heq ▸ hx)⟩

/-- **A tensor of floats comes back without the signs of its zeros** from a group of several
ranks, and with all its other data.  It comes back with the same data exactly if it is not split,
or the group has one rank, or it has no negative zero; data that are no numbers count as
equal.  The extent of the split axis has to be a signed word. -/
theorem toGlobal_floats [NeZero n] (ht : (⟨s, ⟨.float f, xs⟩⟩ : Tensor).Exact)
    (hc : Comm.Spans c) (hk : ∀ a, k = some a → a < s.length)
    (hroom : ∀ a, k = some a → s.getD a 1 < 2 ^ 63) :
    let t : Tensor := ⟨s, ⟨.float f, xs⟩⟩
    let ys := if k.isSome ∧ 1 < n then xs.map Ieee.Num.settled else xs
    Attempt.Runs (fun r => do
        let x ← (ofGlobal t k (c r) : Except Failure Sharded)
        x.toGlobal)
      (fun r => (assembleEvents t k c r, .ok ⟨s, ⟨.float f, ys⟩⟩)) ∧
    (List.Forall₂ Ieee.Num.Same xs ys ↔ k = none ∨ n = 1 ∨ Ieee.Num.zero true ∉ xs) := by
  intro t ys
  have hscatter : ∀ r, ofGlobal t k (c r) = .ok (ofWhole t k (c r)) := by
    intro r
    exact ofGlobal_eq ht hk (by rw [hc.rank_eq, hc.size_eq]; exact r.isLt)
  have hsum : ∀ a, k = some a → (List.ofFn (balancedLengths n t k)).sum = t.shape.getD a 1 :=
    fun a ha => sum_balancedLengths t ha
  have hrun := toGlobal_eq_assembled (slices_balanced ht hk hc fun _ => rfl) hsum hroom
  have hwhole : assembled t k (balancedLengths n t k) = ⟨s, ⟨.float f, ys⟩⟩ := by
    unfold assembled
    -- each element is added to zeros just if several ranks share the axis
    by_cases hmeet : k.isSome ∧ 1 < n
    · obtain ⟨a, rfl⟩ := Option.isSome_iff_exists.mp hmeet.1
      have hys : ys = xs.map Ieee.Num.settled := if_pos hmeet
      have hfold := foldRanks_held_floats hmeet.2 ht (hk a rfl) (hsum a rfl)
      rw [if_pos hmeet, hys, ← hfold]
      rfl
    · have hys : ys = xs := if_neg hmeet
      rw [if_neg hmeet, hys]
  refine ⟨?_, ?_⟩
  · simp only [hscatter]
    rw [← hwhole]
    exact hrun
  · by_cases hmeet : k.isSome ∧ 1 < n
    · have hys : ys = xs.map Ieee.Num.settled := if_pos hmeet
      -- settling an element changes it just if it is the negative zero
      have hsplit : k ≠ none := Option.isSome_iff_ne_none.mp hmeet.1
      have hmany : n ≠ 1 := by omega
      rw [hys, forall₂_settled_iff, or_iff_right hsplit, or_iff_right hmany]
    · have hys : ys = xs := if_neg hmeet
      rw [hys]
      refine iff_of_true (List.forall₂_same.mpr fun x _ => .inl rfl) ?_
      cases k with
      | none => exact .inl rfl
      | some a =>
        have := Nat.pos_of_neZero n
        have : ¬ 1 < n := fun hn => hmeet ⟨rfl, hn⟩
        exact .inr (.inl (by omega))

/-- A negative zero and a one, of which each of two ranks holds one: the sign of the zero is
lost. -/
theorem toGlobal_floats_negative_zero :
    let xs : List (Ieee.Num FloatType.f32.format) := [⟨0x80000000⟩, ⟨0x3f800000⟩]
    let ys : List (Ieee.Num FloatType.f32.format) := [⟨0⟩, ⟨0x3f800000⟩]
    Attempt.Runs (fun r : Fin 2 => do
        let x ← (ofGlobal ⟨[2], ⟨.f32, xs⟩⟩ (some 0) (.member 0 r 2) : Except Failure Sharded)
        x.toGlobal)
      (fun _ => ([.allReduce 0 .i64 2 .sum, .allReduce 0 .f32 2 .sum], .ok ⟨[2], ⟨.f32, ys⟩⟩)) ∧
    ¬ List.Forall₂ Ieee.Num.Same xs ys := by
  intro xs ys
  have ht : (⟨[2], ⟨.f32, xs⟩⟩ : Tensor).Exact :=
    ⟨rfl, (by decide : Shape.volume [2] < Size.modulus)⟩
  have hk : ∀ a, some 0 = some a → a < [2].length := by
    rintro a ⟨⟩
    decide
  have hroom : ∀ a, some 0 = some a → [2].getD a 1 < 2 ^ 63 := by
    rintro a ⟨⟩
    decide
  have hc : Comm.Spans fun r : Fin 2 => .member 0 r 2 := .inl ⟨0, fun _ => rfl⟩
  have hys : xs.map Ieee.Num.settled = ys := by decide
  have hzero : Ieee.Num.zero true ∈ xs := by decide
  obtain ⟨hrun, hsame⟩ := toGlobal_floats ht hc hk hroom
  simp only [Option.isSome_some, Nat.one_lt_ofNat, and_self, if_true, hys] at hrun hsame
  refine ⟨hrun, fun h => ?_⟩
  rcases hsame.mp h with hsplit | hone | hmem
  · cases hsplit
  · cases hone
  · exact hmem hzero

end Sharded

end SpmdArray
