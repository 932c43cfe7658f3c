import SpmdArray.Element
import SpmdArray.Proofs.Rounding

/-!
# Integers as floats

Every conversion between two element types passes through double precision.  Integers that fit
into the significand of a format are data of it, so conversions of such integers are exact; a
double holds integers of less than 54 bits.  Greater integers are rounded, but stay greater.

## Main definitions

* `Ieee.Format.Wide` — the exponents of a format reach the integers of its significands.

## Main results

* `Ieee.value_ofInt` — what the datum of an integer stands for that fits into a significand.
* `Ieee.convert_ofInt` — such an integer may pass through another format.
* `Ieee.truncate?_ofInt` — an integer below `2 ^ 53` is the integer part of its double.
* `Ieee.truncate?_ofInt_of_le` — no other integer has a double below `2 ^ 53`.
* `Ieee.key_ofInt_eq_zero_iff` — only zero becomes zero.
-/

namespace SpmdArray

namespace Ieee

variable {F G : Format}

/-! ### Integers that fit into a significand -/

/-- The exponents of a format reach from the least bit of an integer significand to its last. -/
structure Format.Wide (F : Format) : Prop where
  /-- One is a significand of full length with some exponent. -/
  minExp_le : F.minExp ≤ -F.fracBits
  /-- Integer significands are finite. -/
  lt_expBits : (-F.minExp).toNat + 2 < 2 ^ F.expBits

theorem Format.wide (f : FloatType) : f.format.Wide := by
  cases f <;> exact ⟨by decide, by decide⟩

theorem Format.wide_double : Format.double.Wide := Format.wide .f64

theorem Format.Wide.infinity_pos (hF : F.Wide) : 0 < F.infinity := by
  have hroom := hF.lt_expBits
  rw [Format.infinity, Nat.one_shiftLeft, Nat.shiftLeft_eq]
  exact Nat.mul_pos (by omega) (Nat.two_pow_pos _)

/-- Shifted to the full width, a number has its leading bit in front of the fraction. -/
theorem shiftLeft_log2_bounds {m n : Nat} (h0 : m ≠ 0) (h : m.log2 ≤ n) :
    2 ^ n ≤ m <<< (n - m.log2) ∧ m <<< (n - m.log2) < 2 ^ (n + 1) := by
  have hpos := Nat.two_pow_pos (n - m.log2)
  have hlo := Nat.mul_le_mul_right (2 ^ (n - m.log2)) (Nat.log2_self_le h0)
  have hhi := Nat.mul_lt_mul_of_pos_right (@Nat.lt_log2_self m) hpos
  rw [← Nat.pow_add] at hlo hhi
  rw [Nat.shiftLeft_eq]
  rw [Nat.add_sub_cancel' h] at hlo
  rw [Nat.add_right_comm, Nat.add_sub_cancel' h] at hhi
  exact ⟨hlo, hhi⟩

/-- What the datum of an integer that fits into a significand stands for. -/
theorem value_ofInt (hF : F.Wide) {i : Int} (h0 : i.natAbs ≠ 0)
    (h : i.natAbs.log2 ≤ F.fracBits) :
    (ofInt i : Num F).value = .finite (i < 0) (i.natAbs <<< (F.fracBits - i.natAbs.log2))
      ((i.natAbs.log2 : Int) - F.fracBits) := by
  obtain ⟨hlo, hhi⟩ := shiftLeft_log2_bounds h0 h
  -- shifted to full length, the integer is a significand of the format
  have hmin := hF.minExp_le
  have hroom := hF.lt_expBits
  obtain ⟨k, hk⟩ : ∃ k : Nat, (i.natAbs.log2 : Int) - F.fracBits = F.minExp + k :=
    ⟨((i.natAbs.log2 : Int) - F.fracBits - F.minExp).toNat, by omega⟩
  have hexp : (0 : Int) = F.minExp + k + (F.fracBits - i.natAbs.log2 : Nat) := by omega
  rw [ofInt, hexp, ← ofDyadic_shiftLeft, hk]
  exact value_ofDyadic _ hlo hhi (by omega)

theorem value_ofInt_zero (hF : F.Wide) : (ofInt 0 : Num F).value = .finite false 0 F.minExp :=
  Num.value_zero hF.infinity_pos false

theorem log2_le_of_lt {m n : Nat} (h0 : m ≠ 0) (h : m < 2 ^ (n + 1)) : m.log2 ≤ n :=
  Nat.le_of_lt_succ ((Nat.log2_lt h0).mpr h)

/-- **An integer that fits into a significand may pass through another format.** -/
theorem convert_ofInt (hF : F.Wide) {i : Int} (h : i.natAbs < 2 ^ (F.fracBits + 1)) :
    (ofInt i : Num F).convert = (ofInt i : Num G) := by
  by_cases h0 : i.natAbs = 0
  · rw [Int.natAbs_eq_zero.mp h0, Num.convert, value_ofInt_zero hF]
    rfl
  · have hlog := log2_le_of_lt h0 h
    have hexp : (i.natAbs.log2 : Int) - F.fracBits + (F.fracBits - i.natAbs.log2 : Nat) = 0 := by
      omega
    rw [Num.convert, value_ofInt hF h0 hlog]
    simp only
    rw [ofDyadic_shiftLeft, hexp, ofInt]

/-! ### Integers as doubles -/

/-- **Small integers are doubles**: nothing is lost on the way. -/
theorem truncate?_ofInt {i : Int} (h : i.natAbs < 2 ^ 53) :
    (ofInt i : Double).truncate? = some i := by
  by_cases h0 : i.natAbs = 0
  · rw [Int.natAbs_eq_zero.mp h0]
    decide
  · have hlog : i.natAbs.log2 ≤ 52 := log2_le_of_lt h0 h
    have hfrac : Format.double.fracBits = 52 := rfl
    have hback : (if 0 ≤ (i.natAbs.log2 : Int) - (52 : Nat)
        then i.natAbs <<< (52 - i.natAbs.log2) <<< ((i.natAbs.log2 : Int) - (52 : Nat)).toNat
        else i.natAbs <<< (52 - i.natAbs.log2) >>> (-((i.natAbs.log2 : Int) - (52 : Nat))).toNat)
          = i.natAbs := by
      split
      · have hl : i.natAbs.log2 = 52 := by omega
        rw [hl]
        rfl
      · have hshift : (-((i.natAbs.log2 : Int) - (52 : Nat))).toNat = 52 - i.natAbs.log2 := by
          omega
        rw [hshift, Nat.shiftLeft_shiftRight]
    rw [Num.truncate?, value_ofInt Format.wide_double h0 (by rwa [hfrac]), hfrac]
    simp only [hback, signed, decide_eq_true_eq, Option.some.injEq]
    split <;> omega

/-- **Great integers stay great**: rounding to a double does not take them below `2 ^ 53`. -/
theorem truncate?_ofInt_of_le {i : Int} (h : 2 ^ 53 ≤ i.natAbs) (hi : i.natAbs < 2 ^ 64) :
    ∃ m, 2 ^ 53 ≤ m ∧ (ofInt i : Double).truncate? = some (signed (i < 0) m) := by
  have h0 : i.natAbs ≠ 0 := by omega
  have hlo : 53 ≤ i.natAbs.log2 := (Nat.le_log2 h0).mpr h
  have hhi : i.natAbs.log2 < 64 := (Nat.log2_lt h0).mpr hi
  obtain ⟨k, hk⟩ : ∃ k, i.natAbs.log2 = k + 53 := ⟨i.natAbs.log2 - 53, by omega⟩
  -- the significand before it is rounded, and after
  have hcut : i.natAbs >>> (k + 1) < 2 ^ 53 := by
    rw [Nat.shiftRight_eq_div_pow, Nat.div_lt_iff_lt_mul (Nat.two_pow_pos _), ← Nat.pow_add]
    exact (Nat.log2_lt h0).mp (by omega)
  have hfull : 2 ^ 52 ≤ i.natAbs >>> (k + 1) := by
    rw [Nat.shiftRight_eq_div_pow, Nat.le_div_iff_mul_le (Nat.two_pow_pos _), ← Nat.pow_add]
    exact (Nat.le_log2 h0).mp (by omega)
  obtain ⟨hdown, hup⟩ := @shiftNearest_bounds i.natAbs (k + 1) (by omega)
  have hmin : Format.double.minExp = -1074 := by decide
  have hfrac : Format.double.fracBits = 52 := rfl
  have hinf : Format.double.infinity = 2047 * 2 ^ 52 := by decide
  have hq : max (((k + 53 : Nat) : Int) + 0 - (52 : Nat)) (-1074) = k + 1 := by omega
  have hplace : (((k : Int) + 1) - 0).toNat = k + 1 := by omega
  have hexp : ((k : Int) + 1 - -1074).toNat = k + 1075 := by omega
  obtain ⟨p, hp⟩ : ∃ p, p = (k + 1075) <<< 52 + shiftNearest i.natAbs (k + 1) := ⟨_, rfl⟩
  have hround : (ofInt i : Double) = .ofBody (i < 0) (min p Format.double.infinity) := by
    rw [ofInt, ofDyadic, if_neg h0, hk, hmin, hfrac, hq]
    simp only [hexp, hplace, hp]
    rw [if_neg (by omega)]
  rw [Nat.shiftLeft_eq] at hp
  have hfinite : p < Format.double.infinity := by
    rw [hinf]
    omega
  -- a carry out of the significand moves on into the exponent, so the bound stays true
  have hbeyond : (k + 1075 + 1) <<< Format.double.fracBits ≤ p := by
    rw [hp, hfrac, Nat.shiftLeft_eq, Nat.succ_mul]
    exact Nat.add_le_add_left (Nat.le_trans hfull hdown) _
  obtain ⟨hsig, hpow⟩ := Num.le_split hbeyond
  rw [hfrac] at hsig
  rw [hmin] at hpow
  rw [hround, Nat.min_eq_left (Nat.le_of_lt hfinite), Num.truncate?, Num.value_ofBody hfinite]
  generalize (Num.split .double p).1 = sig at hsig
  generalize (Num.split .double p).2 = e at hpow
  refine ⟨_, ?_, congrArg (fun m => some (signed (i < 0) m)) (if_pos (by omega))⟩
  calc 2 ^ 53 = 2 ^ 52 * 2 ^ 1 := rfl
    _ ≤ sig * 2 ^ e.toNat := Nat.mul_le_mul hsig (Nat.pow_le_pow_right Nat.two_pos (by omega))
    _ = sig <<< e.toNat := (Nat.shiftLeft_eq _ _).symm

/-- **Only zero becomes zero.** -/
theorem key_ofInt_eq_zero_iff (i : Int) : (ofInt i : Double).key = 0 ↔ i = 0 := by
  by_cases h0 : i.natAbs = 0
  · rw [Int.natAbs_eq_zero.mp h0]
    decide
  · refine iff_of_false ?_ (fun h => h0 (Int.natAbs_eq_zero.mpr h))
    have hfrac : ((Format.double.fracBits : Nat) : Int) = 52 := rfl
    have hmin : Format.double.minExp = -1074 := by decide
    have hinf : 0 < Format.double.infinity := by decide
    rw [ofInt, ofDyadic, if_neg h0, hfrac, hmin]
    refine Num.key_ofBody_ne_zero (Nat.lt_of_le_of_lt (Nat.min_le_right _ _)
      (Num.infinity_lt _)) (Nat.lt_min.mpr ⟨Nat.add_pos_right _ ?_, hinf⟩)
    split
    · rw [Nat.shiftLeft_eq]
      exact Nat.mul_pos (Nat.pos_of_ne_zero h0) (Nat.two_pow_pos _)
    · exact shiftNearest_pos h0 (by omega)

end Ieee

end SpmdArray
