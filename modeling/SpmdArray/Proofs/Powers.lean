import Mathlib.Algebra.Field.Rat
import Mathlib.Data.Int.ModEq
import Mathlib.Data.Rat.Lemmas
import Mathlib.RingTheory.Coprime.Lemmas
import SpmdArray.Element

/-!
# Powers of words

The power of two words is the power of the numbers that they stand for: wrapped around if the
exponent is not negative, and cut off towards zero if it is.  Exponents beyond
`Word.maxExponent`, which only the widest words hold, count as `Word.maxExponent`; that goes
unnoticed unless the base is odd.

## Main definitions

* `integerPower b e` — the rational number `b ^ e` cut off towards zero.
* `Word.Settled x y` — the power does not depend on how far the exponent is beyond the greatest
  one.

## Main results

* `Word.powBits_ofInt` — squaring and multiplying computes a power.
* `Word.pow_eq` — the power of two words, with the exponent that counts.
* `Word.pow_eq_ofInt_iff` — when the greatest exponent makes no difference.
* `Elem.binary_pow_toInt` — powers of integer elements, as numbers.
-/

namespace SpmdArray

/-! ### Powers of integers -/

/-- The power `b ^ e` of integers, cut off towards zero.  A negative power of zero is zero. -/
def integerPower (b e : Int) : Int :=
  let q : ℚ := (b : ℚ) ^ e
  q.num.tdiv q.den

theorem integerPower_of_nonneg (b : Int) {e : Int} (h : 0 ≤ e) :
    integerPower b e = b ^ e.toNat := by
  have hq : (b : ℚ) ^ e = ((b ^ e.toNat : Int) : ℚ) := by
    rw [Int.cast_pow, ← zpow_natCast, Int.toNat_of_nonneg h]
  unfold integerPower
  simp only [hq, Rat.num_intCast, Rat.den_intCast, Nat.cast_one, Int.tdiv_one]

/-- The quotient of one by an integer, cut off towards zero. -/
theorem integerPower_eq_tdiv (b : Int) {e : Int} (h : e < 0) :
    integerPower b e = Int.tdiv 1 (b ^ (-e).toNat) := by
  have hq : (b : ℚ) ^ e = ((b ^ (-e).toNat : Int) : ℚ)⁻¹ := by
    rw [Int.cast_pow, ← zpow_natCast, Int.toNat_of_nonneg (by omega), ← zpow_neg, neg_neg]
  unfold integerPower
  simp only [hq, Rat.inv_intCast_num, Rat.inv_intCast_den]
  generalize b ^ (-e).toNat = p
  by_cases hp : p = 0
  · subst hp
    rfl
  · rw [if_neg hp]
    rcases Int.lt_or_gt_of_ne hp with hneg | hpos
    · rw [Int.sign_eq_neg_one_of_neg hneg, Int.ofNat_natAbs_of_nonpos (Int.le_of_lt hneg),
        Int.neg_tdiv, Int.tdiv_neg, neg_neg]
    · rw [Int.sign_eq_one_of_pos hpos, Int.natAbs_of_nonneg (Int.le_of_lt hpos)]

/-- **Negative powers** vanish unless the base is one or minus one. -/
theorem integerPower_of_neg (b : Int) {e : Int} (h : e < 0) :
    integerPower b e
      = if b = 1 then 1 else if b = -1 then (if e % 2 = 0 then 1 else -1) else 0 := by
  rw [integerPower_eq_tdiv b h]
  have hn : (-e).toNat ≠ 0 := by omega
  -- one over a power: only the powers of 1 and -1 have a quotient other than zero
  by_cases hone : b = 1
  · rw [if_pos hone, hone, one_pow]
    rfl
  by_cases hneg : b = -1
  · rw [if_neg hone, if_pos hneg, hneg]
    by_cases he : e % 2 = 0
    · rw [if_pos he, Even.neg_one_pow (Nat.even_iff.mpr (by omega))]
      rfl
    · rw [if_neg he, Odd.neg_one_pow (Nat.odd_iff.mpr (by omega))]
      rfl
  rw [if_neg hone, if_neg hneg]
  by_cases hzero : b = 0
  · rw [hzero, zero_pow hn]
    rfl
  · -- the quotient by a number of two or more
    have hbig : 2 ≤ b.natAbs := by omega
    have hpow : 1 < (b ^ (-e).toNat).natAbs := by
      rw [Int.natAbs_pow]
      exact Nat.one_lt_pow hn hbig
    generalize b ^ (-e).toNat = p at hpow
    rcases lt_or_ge p 0 with hp | hp
    · rw [show p = -(-p) by omega, Int.tdiv_neg, Int.tdiv_eq_zero_of_lt (by omega) (by omega)]
      rfl
    · exact Int.tdiv_eq_zero_of_lt (by omega) (by omega)

namespace Word

variable {k : IntType}

/-! ### Squaring and multiplying -/

/-- **Squaring and multiplying computes a power.** -/
theorem powBits_ofInt (w : Nat) {fuel e : Nat} (i : Int) (h : e < 2 ^ fuel) :
    powBits fuel (BitVec.ofInt w i) e = BitVec.ofInt w (i ^ e) := by
  induction fuel generalizing i e with
  | zero =>
    obtain rfl : e = 0 := by simpa using h
    rw [pow_zero]
    rfl
  | succ fuel ih =>
    have hhalf : e / 2 < 2 ^ fuel := by
      rw [Nat.pow_succ] at h
      omega
    rw [powBits, ← BitVec.ofInt_mul, ih (i * i) hhalf]
    have hsquare : (i * i) ^ (e / 2) = i ^ (2 * (e / 2)) := by rw [pow_mul, pow_two]
    by_cases hodd : e % 2 = 1
    · rw [if_pos hodd, hsquare, ← BitVec.ofInt_mul, ← pow_succ',
        show 2 * (e / 2) + 1 = e by omega]
    · rw [if_neg hodd, hsquare, show 2 * (e / 2) = e by omega]

theorem pow_of_nonneg (x : Word k) {y : Word k} (h : 0 ≤ y.toInt) :
    x.pow y = ofInt (x.toInt ^ min y.toInt.toNat maxExponent) := by
  have hx : x.bits = BitVec.ofInt k.width x.toInt := congrArg Word.bits (ofInt_toInt x).symm
  have hlt : min y.toInt.toNat maxExponent < 2 ^ 32 := by
    have : maxExponent < 2 ^ 32 := by decide
    omega
  rw [pow, if_pos h, hx, powBits_ofInt k.width x.toInt hlt]
  rfl

theorem pow_of_neg (x : Word k) {y : Word k} (h : y.toInt < 0) :
    x.pow y = ofInt (integerPower x.toInt y.toInt) := by
  rw [pow, if_neg (by omega), integerPower_of_neg x.toInt h]
  split
  · rfl
  · split
    · next hx =>
      split
      · rfl
      · rw [← hx, ofInt_toInt]
    · rfl

/-- **The power of two words**, with the exponent that counts. -/
theorem pow_eq (x y : Word k) :
    x.pow y = ofInt (integerPower x.toInt (min y.toInt maxExponent)) := by
  have hmax : (0 : Int) ≤ maxExponent := Int.natCast_nonneg _
  rcases lt_or_ge y.toInt 0 with hy | hy
  · rw [pow_of_neg x hy, min_eq_left (by omega)]
  · rw [pow_of_nonneg x hy, integerPower_of_nonneg _ (by omega)]
    congr 2
    omega

/-- A negative power is in the range of the type. -/
theorem toInt_pow_of_neg (x : Word k) {y : Word k} (h : y.toInt < 0) :
    (x.pow y).toInt = integerPower x.toInt y.toInt := by
  rw [pow_of_neg x h, toInt_ofInt]
  have hbounds : k.minValue ≤ 0 ∧ 1 ≤ k.maxValue := by cases k <;> decide
  rw [integerPower_of_neg _ h]
  split
  · exact ⟨by omega, hbounds.2⟩
  · split
    · next hx =>
      obtain ⟨hlo, -⟩ := x.holds_toInt
      rw [hx] at hlo
      split
      · exact ⟨by omega, hbounds.2⟩
      · exact ⟨hlo, by omega⟩
    · exact ⟨hbounds.1, by omega⟩

/-! ### Exponents that are too great -/

/-- Words are numbers modulo their width. -/
theorem ofInt_eq_ofInt_iff {i j : Int} :
    (ofInt i : Word k) = ofInt j ↔ i ≡ j [ZMOD 2 ^ k.width] := by
  have hbits : (ofInt i : Word k) = ofInt j ↔ BitVec.ofInt k.width i = BitVec.ofInt k.width j :=
    ⟨fun h => congrArg Word.bits h, fun h => congrArg Word.mk h⟩
  have hpos : (0 : Int) < 2 ^ k.width := Int.pow_pos (by decide)
  rw [hbits, ← BitVec.toNat_inj, BitVec.toNat_ofInt, BitVec.toNat_ofInt, Nat.cast_pow,
    Nat.cast_ofNat, Int.ModEq]
  have hi := Int.emod_nonneg i (Int.ne_of_gt hpos)
  have hj := Int.emod_nonneg j (Int.ne_of_gt hpos)
  omega

/-- The number of a number's word is the number, modulo the width. -/
theorem toInt_ofInt_modEq (i : Int) : (ofInt i : Word k).toInt ≡ i [ZMOD 2 ^ k.width] :=
  ofInt_eq_ofInt_iff.mp (ofInt_toInt (ofInt i))

/-- A word is known from its number modulo the width. -/
theorem toInt_modEq_iff {x : Word k} {i : Int} :
    x.toInt ≡ i [ZMOD 2 ^ k.width] ↔ x = ofInt i := by
  rw [← ofInt_eq_ofInt_iff, ofInt_toInt]

/-- `Settled x y` says that the power of `x` to the exponent `y` stays the same if `y` is replaced
by the greatest exponent that counts: `y` does not exceed it, or the power vanishes, or the rest
of the exponent leads back to one. -/
def Settled (x y : Word k) : Prop :=
  y.toInt ≤ maxExponent ∨ 2 ∣ x.toInt ∨
    x.toInt ^ (y.toInt - maxExponent).toNat ≡ 1 [ZMOD 2 ^ k.width]

instance (x y : Word k) : Decidable (Settled x y) := inferInstanceAs (Decidable (_ ∨ _ ∨ _))

/-- Only words of 64 bits hold exponents that are too great. -/
theorem settled_of_ne (x y : Word k) (h : k ≠ .i64) : Settled x y := by
  obtain ⟨-, hmax⟩ := y.holds_toInt
  have hbound : k.maxValue ≤ maxExponent := by
    revert h
    cases k <;> decide
  exact .inl (hmax.trans hbound)

/-- Two great powers of one base are equal if the base is even, or if the quotient is one. -/
theorem pow_add_modEq_iff {b : Int} {w m : Nat} (n : Nat) (h : w ≤ m) :
    b ^ m ≡ b ^ (m + n) [ZMOD 2 ^ w] ↔ 2 ∣ b ∨ b ^ n ≡ 1 [ZMOD 2 ^ w] := by
  constructor
  · intro hmod
    refine or_iff_not_imp_left.mpr fun hodd => ?_
    have hcoprime : IsCoprime ((2 : Int) ^ w) (b ^ m) := by
      refine IsCoprime.pow ?_
      exact ⟨-(b / 2), 1, by omega⟩
    have hdvd : (2 : Int) ^ w ∣ b ^ m * (b ^ n - 1) := by
      have := Int.modEq_iff_dvd.mp hmod
      rwa [pow_add, ← mul_sub_one] at this
    exact (Int.modEq_iff_dvd.mpr (hcoprime.dvd_of_dvd_mul_left hdvd)).symm
  · rintro (heven | hone)
    · have hzero : ∀ l, m ≤ l → b ^ l ≡ 0 [ZMOD 2 ^ w] := fun l hl =>
        Int.modEq_zero_iff_dvd.mpr
          ((pow_dvd_pow_of_dvd heven w).trans (pow_dvd_pow b (h.trans hl)))
      exact (hzero m le_rfl).trans (hzero (m + n) (Nat.le_add_right m n)).symm
    · have := hone.symm.mul_left (b ^ m)
      rwa [mul_one, ← pow_add] at this

/-- **When the greatest exponent makes no difference.** -/
theorem pow_eq_ofInt_iff (x y : Word k) :
    x.pow y = ofInt (integerPower x.toInt y.toInt) ↔ Settled x y := by
  rw [pow_eq, Settled]
  rcases lt_or_ge (maxExponent : Int) y.toInt with hy | hy
  · have hmax : (0 : Int) ≤ maxExponent := Int.natCast_nonneg _
    have hwidth : k.width ≤ maxExponent := by cases k <;> decide
    have hsplit : y.toInt.toNat = maxExponent + (y.toInt - maxExponent).toNat := by omega
    rw [min_eq_right (Int.le_of_lt hy), integerPower_of_nonneg _ hmax,
      integerPower_of_nonneg _ (by omega), ofInt_eq_ofInt_iff, hsplit, Int.toNat_natCast,
      pow_add_modEq_iff _ hwidth]
    exact ⟨.inr, fun h => h.resolve_left (by omega)⟩
  · rw [min_eq_left hy]
    exact iff_of_true rfl (.inl hy)

end Word

/-- **Powers of integer elements.**  A power is in the range of the type, and modulo the width it
is the power of the numbers, with exponents up to `Word.maxExponent` taken as they are and greater
ones as `Word.maxExponent`.  So it is the power of the numbers exactly if the exponent is
settled, which it always is but for words of 64 bits; and a power with a negative exponent is the
cut off power itself, not only modulo the width. -/
theorem Elem.binary_pow_toInt {k : IntType} (x y : Elem (.int k)) :
    let p : Word k := Elem.binary .pow x y
    let b : Int := Word.toInt x
    let e : Int := Word.toInt y
    (k.Holds p.toInt ∧ p.toInt ≡ integerPower b (min e Word.maxExponent) [ZMOD 2 ^ k.width]) ∧
      (p.toInt ≡ integerPower b e [ZMOD 2 ^ k.width] ↔ Word.Settled x y) ∧
      (k ≠ .i64 → Word.Settled x y) ∧ (e < 0 → p.toInt = integerPower b e) := by
  intro p b e
  have hp : p = Word.pow x y := rfl
  refine ⟨⟨p.holds_toInt, ?_⟩, ?_, Word.settled_of_ne x y, Word.toInt_pow_of_neg x⟩
  · rw [hp, Word.pow_eq]
    exact Word.toInt_ofInt_modEq _
  · rw [Word.toInt_modEq_iff]
    exact Word.pow_eq_ofInt_iff x y

/-- Minus one to the exponent minus three, in words of 8 bits. -/
theorem Elem.binary_pow_toInt_minus_one :
    let x : Word .i8 := .ofInt (-1)
    let y : Word .i8 := .ofInt (-3)
    let p : Word .i8 := Elem.binary (d := .int .i8) .pow x y
    Word.Settled x y ∧ p.toInt = integerPower (-1) (-3) := by
  intro x y p
  obtain ⟨-, -, hsettled, hneg⟩ := Elem.binary_pow_toInt (k := .i8) x y
  exact ⟨hsettled (by decide), hneg (by decide)⟩

-- an even exponent that counts as an odd one
example : (Word.ofInt (-1) : Word .i64).pow (Word.ofInt (2 ^ 32)) = Word.ofInt (-1) ∧
    ¬ Word.Settled (Word.ofInt (-1) : Word .i64) (Word.ofInt (2 ^ 32)) := by decide

end SpmdArray
