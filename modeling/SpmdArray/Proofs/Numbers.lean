import SpmdArray.Proofs.Doubles
import SpmdArray.Proofs.Folds
import SpmdArray.Sharded.Reduce

/-!
# Truth values and integers as numbers

Truth values and the words of an integer type stand for integers.  The named reductions of
such elements are lawful, and their results are known from the integers alone.

## Main definitions

* `Elem.number`, `Elem.ofNumber` — the integer of an element, and the element of an integer.
* `Statistic.exact` — a named reduction of integers.

## Main results

* `Elem.convert_int`, `Elem.convert_bool` — conversions, on numbers.
* `Statistic.lawful` — the order in which elements are combined does not matter.
* `Statistic.total_eq_exact` — a reduction of elements is the reduction of their numbers.
-/

namespace SpmdArray

namespace IntType

theorem bounds (k : IntType) : -2 ^ 63 ≤ k.minValue ∧ k.maxValue < 2 ^ 63 := by
  cases k <;> decide

/-- All types but the widest have at most 32 bits. -/
theorem bounds_of_ne {k : IntType} (h : k ≠ .i64) : -2 ^ 31 ≤ k.minValue ∧ k.maxValue < 2 ^ 31 := by
  cases k with
  | i64 => exact absurd rfl h
  | u8 | i8 | i16 | i32 => decide

end IntType

namespace Elem

variable {d : DType}

/-- The integer that a truth value or a word stands for, and the integer part of a float. -/
def number : {d : DType} → Elem d → Int
  | .bool, a => Bool.toNat a
  | .int _, a => Word.toInt a
  | .float _, a => (Ieee.Num.truncate? a).getD 0

/-- The element for an integer: truth values are false for zero only, and words count modulo
their width. -/
def ofNumber : (d : DType) → Int → Elem d
  | .bool, i => decide (i ≠ 0)
  | .int _, i => Word.ofInt i
  | .float _, i => Ieee.ofInt i

theorem ofNumber_number (h : d.isFloat = false) (a : Elem d) : ofNumber d a.number = a := by
  cases d with
  | bool => cases a <;> rfl
  | int k => exact Word.ofInt_toInt a
  | float f => cases h

theorem number_bounds (h : d.isFloat = false) (a : Elem d) :
    -2 ^ 63 ≤ a.number ∧ a.number < 2 ^ 63 := by
  cases d with
  | bool => cases a <;> decide
  | int k =>
    obtain ⟨hlo, hhi⟩ := Word.holds_toInt (k := k) a
    obtain ⟨hmin, hmax⟩ := k.bounds
    exact ⟨hmin.trans hlo, hhi.trans_lt hmax⟩
  | float f => cases h

theorem number_bounds_of_ne (h : d.isFloat = false) (hd : d ≠ .i64) (a : Elem d) :
    -2 ^ 31 ≤ a.number ∧ a.number < 2 ^ 31 := by
  cases d with
  | bool => cases a <;> decide
  | int k =>
    obtain ⟨hlo, hhi⟩ := Word.holds_toInt (k := k) a
    obtain ⟨hmin, hmax⟩ := IntType.bounds_of_ne fun hk => hd (congrArg DType.int hk)
    exact ⟨hmin.trans hlo, hhi.trans_lt hmax⟩
  | float f => cases h

theorem toDouble_eq (h : d.isFloat = false) (a : Elem d) : a.toDouble = Ieee.ofInt a.number := by
  cases d with
  | bool => rfl
  | int k => rfl
  | float f => cases h

theorem isTruthy_eq (h : d.isFloat = false) (a : Elem d) :
    a.isTruthy = decide (a.number ≠ 0) := by
  rw [isTruthy, toDouble_eq h]
  exact decide_eq_decide.mpr (not_congr (Ieee.key_ofInt_eq_zero_iff _))

/-! ### Conversions -/

/-- Truth is decided on numbers. -/
theorem convert_bool (h : d.isFloat = false) (a : Elem d) :
    convert .bool a = ofNumber .bool a.number := by
  by_cases hd : d = .bool
  · subst hd
    rw [convert_self, ofNumber_number h]
  · rw [convert_of_ne hd]
    exact isTruthy_eq h a

theorem ofDouble_int_of_truncate? {k : IntType} {x : Double} {i : Int}
    (h : x.truncate? = some i) : ofDouble (.int k) x = Word.saturate i := by
  rw [ofDouble]
  split
  · next hv =>
    rw [Ieee.Num.truncate?, hv] at h
    cases h
  · next neg hv =>
    rw [Ieee.Num.truncate?, hv] at h
    cases h
  · rw [h]
    rfl

/-- **Clamping survives the rounding.**  An integer that passes through its double is clamped to
the range of an integer type, if it is small or the type is not the widest one. -/
theorem ofDouble_ofInt {k : IntType} {i : Int}
    (hi : i.natAbs < 2 ^ 53 ∨ k ≠ .i64 ∧ i.natAbs < 2 ^ 64) :
    ofDouble (.int k) (Ieee.ofInt i) = Word.saturate i := by
  rcases Nat.lt_or_ge i.natAbs (2 ^ 53) with hsmall | hlarge
  · exact ofDouble_int_of_truncate? (Ieee.truncate?_ofInt hsmall)
  · obtain ⟨hk, hbound⟩ := hi.resolve_left (Nat.not_lt.mpr hlarge)
    obtain ⟨m, hm, htrunc⟩ := Ieee.truncate?_ofInt_of_le hlarge hbound
    -- both numbers are beyond the same end of the range
    have hends : max k.minValue (min (Ieee.signed (i < 0) m) k.maxValue)
        = max k.minValue (min i k.maxValue) := by
      obtain ⟨hmin, hmax⟩ := IntType.bounds_of_ne hk
      simp only [Ieee.signed, decide_eq_true_eq]
      split <;> omega
    rw [ofDouble_int_of_truncate? htrunc]
    exact congrArg Word.ofInt hends

/-- **Conversions to integers clamp exactly**, although they pass through double precision. -/
theorem convert_int (k : IntType) (h : d.isFloat = false) (a : Elem d) :
    convert (.int k) a = Word.saturate a.number := by
  by_cases hd : d = .int k
  · subst hd
    obtain ⟨hlo, hhi⟩ := Word.holds_toInt (k := k) a
    refine (convert_self a).trans (Word.toInt_injective ?_)
    rw [Word.toInt_saturate, number]
    omega
  · have hsize : a.number.natAbs < 2 ^ 53 ∨ k ≠ .i64 ∧ a.number.natAbs < 2 ^ 64 := by
      by_cases hk : k = .i64
      · have hbound := number_bounds_of_ne h (fun hd' => hd (hd'.trans (congrArg _ hk.symm))) a
        exact .inl (by omega)
      · have hbound := number_bounds h a
        exact .inr ⟨hk, by omega⟩
    rw [convert_of_ne hd, cast, toDouble_eq h, ofDouble_ofInt hsize]

/-- Conversions to the widest integers are exact. -/
theorem convert_defaultInt (h : d.isFloat = false) (a : Elem d) :
    convert .i64 a = ofNumber .i64 a.number := by
  have hbound := number_bounds h a
  have hclamp : max (-2 ^ 63) (min a.number (2 ^ 63 - 1)) = a.number := by omega
  rw [convert_int .i64 h]
  exact congrArg Word.ofInt hclamp

/-! ### Operations -/

theorem compare?_eq (h : d.isFloat = false) (a b : Elem d) :
    compare? a b = some (compare a.number b.number) := by
  cases d with
  | bool => cases a <;> cases b <;> decide
  | int k => rfl
  | float f => cases h

theorem number_minimum (h : d.isFloat = false) (a b : Elem d) :
    (minimum a b).number = min a.number b.number := by
  rw [minimum, compare?_eq h]
  cases hc : compare a.number b.number with
  | lt => exact (min_eq_left (Int.le_of_lt (compare_lt_iff_lt.mp hc))).symm
  | eq => exact (min_eq_left (Int.le_of_eq (compare_eq_iff_eq.mp hc))).symm
  | gt => exact (min_eq_right (Int.le_of_lt (compare_gt_iff_gt.mp hc))).symm

theorem number_maximum (h : d.isFloat = false) (a b : Elem d) :
    (maximum a b).number = max a.number b.number := by
  rw [maximum, compare?_eq h]
  cases hc : compare a.number b.number with
  | lt => exact (max_eq_right (Int.le_of_lt (compare_lt_iff_lt.mp hc))).symm
  | eq => exact (max_eq_left (Int.le_of_eq (compare_eq_iff_eq.mp hc).symm)).symm
  | gt => exact (max_eq_left (Int.le_of_lt (compare_gt_iff_gt.mp hc))).symm

/-- Elements with one number are equal. -/
theorem number_injective (h : d.isFloat = false) {a b : Elem d} (hab : a.number = b.number) :
    a = b := by
  rw [← ofNumber_number h a, hab, ofNumber_number h]

theorem number_lowest_le (h : d.isFloat = false) (a : Elem d) :
    (lowest d).number ≤ a.number := by
  cases d with
  | bool => cases a <;> decide
  | int k =>
    have hlow : (Word.ofInt k.minValue : Word k).toInt = k.minValue :=
      Word.toInt_ofInt (by cases k <;> decide)
    exact Int.le_trans (Int.le_of_eq hlow) (Word.holds_toInt a).1
  | float f => cases h

theorem number_le_highest (h : d.isFloat = false) (a : Elem d) :
    a.number ≤ (highest d).number := by
  cases d with
  | bool => cases a <;> decide
  | int k =>
    have hhigh : (Word.ofInt k.maxValue : Word k).toInt = k.maxValue :=
      Word.toInt_ofInt (by cases k <;> decide)
    exact Int.le_trans (Word.holds_toInt a).2 (Int.le_of_eq hhigh.symm)
  | float f => cases h

end Elem

namespace Reducer

open Elem

variable {d : DType}

/-- Sums of words wrap around, and a sum of truth values is their disjunction. -/
theorem lawful_sum (h : d.isFloat = false) : Lawful .sum d := by
  cases d with
  | bool => exact ⟨by decide, by decide, by decide⟩
  | int k =>
    exact {
      assoc := fun a b c => congrArg Word.mk (BitVec.add_assoc a.bits b.bits c.bits)
      comm := fun a b => congrArg Word.mk (BitVec.add_comm a.bits b.bits)
      identity := fun a => congrArg Word.mk (BitVec.zero_add a.bits) }
  | float f => cases h

/-- Products of words wrap around, and a product of truth values is their conjunction. -/
theorem lawful_prod (h : d.isFloat = false) : Lawful .prod d := by
  cases d with
  | bool => exact ⟨by decide, by decide, by decide⟩
  | int k =>
    exact {
      assoc := fun a b c => congrArg Word.mk (BitVec.mul_assoc a.bits b.bits c.bits)
      comm := fun a b => congrArg Word.mk (BitVec.mul_comm a.bits b.bits)
      identity := fun a => congrArg Word.mk (BitVec.one_mul a.bits) }
  | float f => cases h

theorem lawful_min (h : d.isFloat = false) : Lawful .min d where
  assoc a b c := number_injective h (by simp only [fold, number_minimum h, min_assoc])
  comm a b := number_injective h (by simp only [fold, number_minimum h, min_comm])
  identity a := number_injective h (by
    simp only [fold, identity, number_minimum h, min_eq_right (number_le_highest h a)])

theorem lawful_max (h : d.isFloat = false) : Lawful .max d where
  assoc a b c := number_injective h (by simp only [fold, number_maximum h, max_assoc])
  comm a b := number_injective h (by simp only [fold, number_maximum h, max_comm])
  identity a := number_injective h (by
    simp only [fold, identity, number_maximum h, max_eq_right (number_lowest_le h a)])

theorem lawful_all : Lawful .all .bool where
  assoc := by decide
  comm := by decide
  identity := by decide

theorem lawful_any : Lawful .any .bool where
  assoc := by decide
  comm := by decide
  identity := by decide

theorem lawful_bitAnd (h : d.isFloat = false) : Lawful .bitAnd d := by
  cases d with
  | bool => exact ⟨by decide, by decide, by decide⟩
  | int k =>
    exact {
      assoc := fun a b c => congrArg Word.mk (BitVec.and_assoc a.bits b.bits c.bits)
      comm := fun a b => congrArg Word.mk (BitVec.and_comm a.bits b.bits)
      identity := fun a => congrArg Word.mk BitVec.allOnes_and }
  | float f => cases h

theorem lawful_bitOr (h : d.isFloat = false) : Lawful .bitOr d := by
  cases d with
  | bool => exact ⟨by decide, by decide, by decide⟩
  | int k =>
    exact {
      assoc := fun a b c => congrArg Word.mk (BitVec.or_assoc a.bits b.bits c.bits)
      comm := fun a b => congrArg Word.mk (BitVec.or_comm a.bits b.bits)
      identity := fun a => congrArg Word.mk BitVec.zero_or }
  | float f => cases h

end Reducer

namespace Statistic

open Elem

variable {d : DType}

/-- The order in which elements are combined does not matter. -/
theorem lawful (stat : Statistic) (h : d.isFloat = false) :
    stat.reducer.Lawful (stat.workType d) := by
  cases stat with
  | sum => 
    cases d with
    | bool => exact Reducer.lawful_sum rfl
    | int k => exact Reducer.lawful_sum rfl
    | float f => cases h
  | prod =>
    cases d with
    | bool => exact Reducer.lawful_prod rfl
    | int k => exact Reducer.lawful_prod rfl
    | float f => cases h
  | min => exact Reducer.lawful_min h
  | max => exact Reducer.lawful_max h
  | all => exact Reducer.lawful_all
  | any => exact Reducer.lawful_any

/-- A named reduction of the integers that elements of type `d` stand for: their sum or product,
their least or greatest among them and the bounds of the type, or one if all or some of them
are not zero. -/
def exact (stat : Statistic) (d : DType) (is : List Int) : Int :=
  match stat with
  | sum => is.sum
  | prod => is.prod
  | min => is.foldr Min.min (highest d).number
  | max => is.foldr Max.max (lowest d).number
  | all => if ∀ i ∈ is, i ≠ 0 then 1 else 0
  | any => if ∃ i ∈ is, i ≠ 0 then 1 else 0

theorem convert_workType (stat : Statistic) (h : d.isFloat = false) (a : Elem d) :
    convert (stat.workType d) a = ofNumber (stat.workType d) a.number := by
  have hint : convert .i64 a = ofNumber .i64 a.number := convert_defaultInt h a
  cases stat with
  | sum | prod =>
    cases d with
    | bool => exact hint
    | int k => exact hint
    | float f => cases h
  | min | max => exact (convert_self a).trans (ofNumber_number h a).symm
  | all | any => exact convert_bool h a

theorem total_sum (is : List Int) :
    total .sum (is.map (ofNumber .i64)) = ofNumber .i64 is.sum := by
  induction is with
  | nil => rfl
  | cons i is ih =>
    rw [List.map_cons, (Reducer.lawful_sum rfl).total_cons, ih, List.sum_cons]
    exact congrArg Word.mk (BitVec.ofInt_add i is.sum).symm

theorem total_prod (is : List Int) :
    total .prod (is.map (ofNumber .i64)) = ofNumber .i64 is.prod := by
  induction is with
  | nil => rfl
  | cons i is ih =>
    rw [List.map_cons, (Reducer.lawful_prod rfl).total_cons, ih, List.prod_cons]
    exact congrArg Word.mk (BitVec.ofInt_mul i is.prod).symm

theorem number_total_min (h : d.isFloat = false) (xs : List (Elem d)) :
    (total .min xs).number = (xs.map number).foldr Min.min (highest d).number := by
  induction xs with
  | nil => rfl
  | cons x xs ih =>
    rw [(Reducer.lawful_min h).total_cons, List.map_cons, List.foldr_cons, ← ih]
    exact number_minimum h x _

theorem number_total_max (h : d.isFloat = false) (xs : List (Elem d)) :
    (total .max xs).number = (xs.map number).foldr Max.max (lowest d).number := by
  induction xs with
  | nil => rfl
  | cons x xs ih =>
    rw [(Reducer.lawful_max h).total_cons, List.map_cons, List.foldr_cons, ← ih]
    exact number_maximum h x _

theorem total_all (is : List Int) :
    total .all (is.map (ofNumber .bool)) = decide (∀ i ∈ is, i ≠ 0) := by
  induction is with
  | nil => rfl
  | cons i is ih =>
    have hand : ∀ a b : Elem .bool, fold .all a b = (Bool.and a b) := by decide
    rw [List.map_cons, Reducer.lawful_all.total_cons, ih, hand]
    refine (Bool.decide_and _ _).symm.trans (decide_eq_decide.mpr ?_)
    exact (List.forall_mem_cons (p := fun j => j ≠ 0)).symm

theorem total_any (is : List Int) :
    total .any (is.map (ofNumber .bool)) = decide (∃ i ∈ is, i ≠ 0) := by
  induction is with
  | nil => rfl
  | cons i is ih =>
    have hor : ∀ a b : Elem .bool, fold .any a b = (Bool.or a b) := by decide
    rw [List.map_cons, Reducer.lawful_any.total_cons, ih, hor]
    refine (Bool.decide_or _ _).symm.trans (decide_eq_decide.mpr ?_)
    simp only [List.mem_cons, exists_eq_or_imp]

/-- **A reduction of elements is the reduction of their numbers.** -/
theorem total_eq_exact (stat : Statistic) (h : d.isFloat = false) (xs : List (Elem d)) :
    total stat.reducer (xs.map (convert (stat.workType d)))
      = ofNumber (stat.workType d) (stat.exact d (xs.map number)) := by
  have hnumbers : xs.map (convert (stat.workType d))
      = (xs.map number).map (ofNumber (stat.workType d)) := by
    rw [List.map_map]
    exact List.map_congr_left fun a _ => stat.convert_workType h a
  rw [hnumbers]
  -- sums and products wrap around, extrema are among the arguments, the others are truth values
  cases stat with
  | sum =>
    cases d with
    | bool => exact total_sum _
    | int k => exact total_sum _
    | float f => cases h
  | prod =>
    cases d with
    | bool => exact total_prod _
    | int k => exact total_prod _
    | float f => cases h
  | min =>
    have hid : xs.map (convert d) = xs :=
      (List.map_congr_left fun a _ => convert_self a).trans xs.map_id
    rw [← hnumbers, exact, ← number_total_min h]
    exact (congrArg (total .min) hid).trans (ofNumber_number h _).symm
  | max =>
    have hid : xs.map (convert d) = xs :=
      (List.map_congr_left fun a _ => convert_self a).trans xs.map_id
    rw [← hnumbers, exact, ← number_total_max h]
    exact (congrArg (total .max) hid).trans (ofNumber_number h _).symm
  | all =>
    refine (total_all _).trans ?_
    unfold exact
    split <;> simp_all [ofNumber, workType]
  | any =>
    refine (total_any _).trans ?_
    unfold exact
    split <;> simp_all [ofNumber, workType]

end Statistic

end SpmdArray
