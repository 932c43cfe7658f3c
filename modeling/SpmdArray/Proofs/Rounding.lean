import Mathlib.Algebra.Ring.Nat
import SpmdArray.Ieee.Format

/-!
# Patterns and rounding

A finite datum is a significand and an exponent, packed into a pattern.  Rounding a number to a
format depends on the number only, not on how it is written, and leaves the numbers of the format
alone.

## Main results

* `Ieee.Num.value_ofBody` — what a finite pattern stands for.
* `Ieee.shiftNearest_bounds` — rounding goes to one of the neighbours.
* `Ieee.ofDyadic_shiftLeft` — rounding depends on the number only.
* `Ieee.value_ofDyadic`, `Ieee.Num.ofDyadic_split` — rounding leaves the numbers of the format
  alone.
-/

namespace SpmdArray

namespace Ieee

variable {F : Format}

/-! ### Patterns -/

namespace Num

variable {neg : Bool} {p : Nat}

theorem toNat_ofBody (h : p < 2 ^ F.bodyBits) :
    (ofBody neg p : Num F).bits.toNat = if neg then 2 ^ F.bodyBits + p else p := by
  show (BitVec.ofNat F.width _).toNat = _
  rw [BitVec.toNat_ofNat, Nat.one_shiftLeft, Nat.mod_eq_of_lt]
  rw [Format.width, Nat.pow_succ]
  split <;> omega

@[simp] theorem body_ofBody (h : p < 2 ^ F.bodyBits) : (ofBody neg p : Num F).body = p := by
  rw [body, Nat.one_shiftLeft, toNat_ofBody h]
  split
  · rw [Nat.add_mod_left, Nat.mod_eq_of_lt h]
  · exact Nat.mod_eq_of_lt h

@[simp] theorem isNeg_ofBody (h : p < 2 ^ F.bodyBits) : (ofBody neg p : Num F).isNeg = neg := by
  rw [isNeg, Nat.one_shiftLeft, toNat_ofBody h]
  cases neg with
  | true => simp
  | false => simpa using h

theorem body_lt (x : Num F) : x.body < 2 ^ F.bodyBits := by
  rw [body, Nat.one_shiftLeft]
  exact Nat.mod_lt _ (Nat.two_pow_pos _)

/-- A datum consists of its sign and the rest of its pattern. -/
theorem ofBody_body (x : Num F) : ofBody x.isNeg x.body = x := by
  have hlt : x.bits.toNat < 2 ^ F.bodyBits * 2 := by
    rw [← Nat.pow_succ]
    exact x.bits.isLt
  have hbits : (ofBody x.isNeg x.body).bits = x.bits := by
    refine BitVec.eq_of_toNat_eq ?_
    rw [toNat_ofBody x.body_lt, isNeg, body, Nat.one_shiftLeft]
    simp only [decide_eq_true_eq]
    split
    · rw [Nat.mod_eq_sub_mod ‹_›, Nat.mod_eq_of_lt (by omega)]
      omega
    · exact Nat.mod_eq_of_lt (by omega)
  generalize ofBody x.isNeg x.body = y at hbits
  obtain ⟨b⟩ := x
  obtain ⟨b'⟩ := y
  exact congrArg Num.mk hbits

theorem infinity_lt (F : Format) : F.infinity < 2 ^ F.bodyBits := by
  rw [Format.infinity, Nat.one_shiftLeft, Nat.shiftLeft_eq, Format.bodyBits, Nat.pow_add]
  exact Nat.mul_lt_mul_of_pos_right (Nat.sub_lt (Nat.two_pow_pos _) Nat.one_pos)
    (Nat.two_pow_pos _)

/-- What a finite pattern stands for. -/
theorem value_ofBody (h : p < F.infinity) :
    (ofBody neg p : Num F).value = .finite neg (split F p).1 (split F p).2 := by
  have hp := Nat.lt_trans h (infinity_lt F)
  rw [value, isNaN, isFinite, body_ofBody hp, isNeg_ofBody hp,
    if_neg (by simpa using Nat.le_of_lt h), if_pos (by simpa using h)]

theorem key_ofBody_ne_zero (h : p < 2 ^ F.bodyBits) (h0 : 0 < p) :
    (ofBody neg p : Num F).key ≠ 0 := by
  rw [key, body_ofBody h, isNeg_ofBody h]
  split <;> omega

/-! ### Significands and exponents -/

theorem minExp_le_split (F : Format) (p : Nat) : F.minExp ≤ (split F p).2 := by
  simp only [split]
  split
  · exact Int.le_refl _
  · exact Int.le_add_of_nonneg_right (Int.natCast_nonneg _)

theorem split_eq_zero_iff : (split F p).1 = 0 ↔ p = 0 := by
  have hpos := Nat.two_pow_pos F.fracBits
  simp only [split]
  split
  · rfl
  · next hexp =>
    have hp : p ≠ 0 := fun h => hexp (by rw [h, Nat.zero_shiftRight])
    rw [Nat.one_shiftLeft]
    omega

theorem value_zero (h : 0 < F.infinity) (neg : Bool) :
    (zero neg : Num F).value = .finite neg 0 F.minExp := by
  have hsplit : split F 0 = (0, F.minExp) := by
    rw [split, Nat.zero_shiftRight]
    rfl
  rw [zero, value_ofBody h, hsplit]

/-- A significand has one bit more than the fraction. -/
theorem split_lt (F : Format) (p : Nat) : (split F p).1 < 2 ^ (F.fracBits + 1) := by
  have hpos := Nat.two_pow_pos F.fracBits
  rw [Nat.pow_succ]
  simp only [split]
  split
  · next hexp =>
    rw [Nat.shiftRight_eq_div_pow, Nat.div_eq_zero_iff] at hexp
    omega
  · have hmod : p % 2 ^ F.fracBits < 2 ^ F.fracBits := Nat.mod_lt _ hpos
    rw [Nat.one_shiftLeft]
    omega

/-- A significand of full length and an exponent, unpacked. -/
theorem split_pack {m : Nat} (hlo : 2 ^ F.fracBits ≤ m) (hhi : m < 2 ^ (F.fracBits + 1))
    (k : Nat) : split F (k <<< F.fracBits + m) = (m, F.minExp + k) := by
  have hpos := Nat.two_pow_pos F.fracBits
  -- the leading bit of the significand counts one more exponent, and the rest is the fraction
  obtain ⟨r, rfl⟩ := Nat.exists_eq_add_of_le hlo
  have hr : r < 2 ^ F.fracBits := by
    rw [Nat.pow_succ] at hhi
    omega
  have hpack : k <<< F.fracBits + (2 ^ F.fracBits + r) = r + 2 ^ F.fracBits * (k + 1) := by
    rw [Nat.shiftLeft_eq, Nat.mul_succ, Nat.mul_comm]
    omega
  have hexp : (k <<< F.fracBits + (2 ^ F.fracBits + r)) >>> F.fracBits = k + 1 := by
    rw [hpack, Nat.shiftRight_eq_div_pow, Nat.add_mul_div_left _ _ hpos, Nat.div_eq_of_lt hr,
      Nat.zero_add]
  have hfrac : (k <<< F.fracBits + (2 ^ F.fracBits + r)) % 2 ^ F.fracBits = r := by
    rw [hpack, Nat.add_mul_mod_self_left, Nat.mod_eq_of_lt hr]
  simp only [split, hexp, Nat.one_shiftLeft, hfrac]
  exact if_neg (Nat.succ_ne_zero k)

/-- A pattern beyond those of an exponent has a significand of full length. -/
theorem le_split {k : Nat} (h : (k + 1) <<< F.fracBits ≤ p) :
    2 ^ F.fracBits ≤ (split F p).1 ∧ F.minExp + k ≤ (split F p).2 := by
  have hexp : k + 1 ≤ p >>> F.fracBits := by
    rw [Nat.shiftRight_eq_div_pow, Nat.le_div_iff_mul_le (Nat.two_pow_pos _), ← Nat.shiftLeft_eq]
    exact h
  simp only [split]
  rw [if_neg (by omega), Nat.one_shiftLeft]
  exact ⟨Nat.le_add_right _ _, by omega⟩

end Num

/-! ### Rounding -/

/-- Rounding goes to one of the neighbours. -/
theorem shiftNearest_bounds {m s : Nat} (h : s ≤ m.log2 + 1) :
    m >>> s ≤ shiftNearest m s ∧ shiftNearest m s ≤ m >>> s + 1 := by
  rw [shiftNearest, if_neg (by omega)]
  simp only
  split <;> omega

/-- Rounding a number at a place that it reaches does not make it vanish. -/
theorem shiftNearest_pos {m s : Nat} (h0 : m ≠ 0) (h : s ≤ m.log2) : 0 < shiftNearest m s := by
  have hq : 0 < m >>> s := by
    rw [Nat.shiftRight_eq_div_pow]
    exact Nat.div_pos (Nat.le_trans (Nat.pow_le_pow_right Nat.two_pos h) (Nat.log2_self_le h0))
      (Nat.two_pow_pos s)
  exact Nat.lt_of_lt_of_le hq (shiftNearest_bounds (Nat.le_succ_of_le h)).1

/-- Shifting up moves the leading bit. -/
theorem log2_shiftLeft {m : Nat} (hm : m ≠ 0) (k : Nat) : (m <<< k).log2 = m.log2 + k := by
  have hpos := Nat.two_pow_pos k
  have hne : m <<< k ≠ 0 := by
    rw [Nat.shiftLeft_eq]
    exact Nat.mul_ne_zero hm (Nat.ne_of_gt hpos)
  refine (Nat.log2_eq_iff hne).mpr ⟨?_, ?_⟩
  · rw [Nat.shiftLeft_eq, Nat.pow_add]
    exact Nat.mul_le_mul_right _ (Nat.log2_self_le hm)
  · rw [Nat.shiftLeft_eq, Nat.add_right_comm, Nat.pow_add]
    exact Nat.mul_lt_mul_of_pos_right Nat.lt_log2_self hpos

/-- Shifting up a number that is rounded at a place shifted up as much. -/
theorem shiftNearest_shiftLeft_add {m : Nat} (hm : m ≠ 0) (s k : Nat) :
    shiftNearest (m <<< k) (s + k) = shiftNearest m s := by
  have hpos := Nat.two_pow_pos k
  -- the quotient is the same, and what is cut off is scaled like the unit that it is compared with
  have hq : (m <<< k) >>> (s + k) = m >>> s := by
    rw [Nat.add_comm, Nat.shiftRight_add, Nat.shiftLeft_shiftRight]
  have hr : m <<< k - (m >>> s) <<< (s + k) = (m - (m >>> s) <<< s) <<< k := by
    rw [Nat.shiftLeft_add, Nat.shiftLeft_eq m, Nat.shiftLeft_eq _ k, Nat.shiftLeft_eq _ k,
      Nat.sub_mul]
  have hlt : ∀ r : Nat, 1 <<< (s + k) < 2 * r <<< k ↔ 1 <<< s < 2 * r := by
    intro r
    rw [Nat.shiftLeft_add, Nat.shiftLeft_eq _ k, Nat.shiftLeft_eq r, ← Nat.mul_assoc]
    exact Nat.mul_lt_mul_right hpos
  have heq : ∀ r : Nat, 1 <<< (s + k) = 2 * r <<< k ↔ 1 <<< s = 2 * r := by
    intro r
    rw [Nat.shiftLeft_add, Nat.shiftLeft_eq _ k, Nat.shiftLeft_eq r, ← Nat.mul_assoc]
    exact Nat.mul_right_cancel_iff hpos
  unfold shiftNearest
  simp only [log2_shiftLeft hm, hq, hr, hlt, heq, Nat.add_right_comm _ k 1,
    Nat.add_lt_add_iff_right]

/-- What has been shifted up is shifted down again without a remainder. -/
theorem shiftNearest_shiftLeft {m : Nat} (hm : m ≠ 0) (k : Nat) :
    shiftNearest (m <<< k) k = m := by
  have hround := shiftNearest_shiftLeft_add hm 0 k
  rw [Nat.zero_add] at hround
  rw [hround, shiftNearest, if_neg (by omega)]
  simp

/-- **Rounding depends on the number only**, not on how it is written. -/
theorem ofDyadic_shiftLeft (neg : Bool) (m k : Nat) (e : Int) :
    (ofDyadic neg (m <<< k) e : Num F) = ofDyadic neg m (e + k) := by
  by_cases hm : m = 0
  · rw [hm, Nat.zero_shiftLeft]
    rfl
  have hne : ∀ j, m <<< j ≠ 0 := by
    intro j
    rw [Nat.shiftLeft_eq]
    exact Nat.mul_ne_zero hm (Nat.ne_of_gt (Nat.two_pow_pos j))
  have hlast : ((m <<< k).log2 : Int) + e = m.log2 + (e + k) := by
    rw [log2_shiftLeft hm]
    omega
  rw [ofDyadic, ofDyadic, if_neg (hne k), if_neg hm, hlast]
  generalize max ((m.log2 : Int) + (e + k) - F.fracBits) F.minExp = q
  have hsig : (if q ≤ e then m <<< k <<< (e - q).toNat else shiftNearest (m <<< k) (q - e).toNat)
      = if q ≤ e + k then m <<< (e + k - q).toNat else shiftNearest m (q - (e + k)).toNat := by
    rcases Int.lt_or_le (e + k) q with hround | hexact
    · -- both are rounded, at places as far apart as the numbers
      have hs : (q - e).toNat = (q - (e + k)).toNat + k := by omega
      rw [if_neg (by omega), if_neg (by omega), hs, shiftNearest_shiftLeft_add hm]
    · rw [if_pos hexact]
      split
      · have hs : (e + k - q).toNat = k + (e - q).toNat := by omega
        rw [hs, Nat.shiftLeft_add]
      · -- the place is among those that the shift has filled with zeros
        have hs : k = (e + k - q).toNat + (q - e).toNat := by omega
        have hshift : m <<< k = m <<< (e + k - q).toNat <<< (q - e).toNat := by
          rw [← Nat.shiftLeft_add, ← hs]
        rw [hshift, shiftNearest_shiftLeft (hne _)]
  simp only [hsig]

/-- **Rounding leaves a significand alone** that fits the format: one of full length, or a
shorter one in the least exponent. -/
theorem ofDyadic_pack (neg : Bool) {m k : Nat} (hm : m ≠ 0) (hhi : m < 2 ^ (F.fracBits + 1))
    (hlo : k = 0 ∨ 2 ^ F.fracBits ≤ m) :
    (ofDyadic neg m (F.minExp + k) : Num F)
      = .ofBody neg (min (k <<< F.fracBits + m) F.infinity) := by
  have hle : m.log2 < F.fracBits + 1 := (Nat.log2_lt hm).mpr hhi
  have hfull : 2 ^ F.fracBits ≤ m → F.fracBits ≤ m.log2 := (Nat.le_log2 hm).mpr
  have hq : max ((m.log2 : Int) + (F.minExp + k) - F.fracBits) F.minExp = F.minExp + k := by
    omega
  have hk : (F.minExp + k - F.minExp).toNat = k := by omega
  rw [ofDyadic, if_neg hm, hq]
  simp only [hk, Int.le_refl, if_true, Int.sub_self, Int.toNat_zero, Nat.shiftLeft_zero]

namespace Num

variable {neg : Bool} {p : Nat}

/-- **Rounding leaves the numbers of the format alone.** -/
theorem ofDyadic_split (h0 : 0 < p) (h : p < F.infinity) :
    (ofDyadic neg ((split F p).1 <<< ((split F p).2 - F.minExp).toNat) F.minExp : Num F)
      = ofBody neg p := by
  have hpos := Nat.two_pow_pos F.fracBits
  have hmod : p % 2 ^ F.fracBits < 2 ^ F.fracBits := Nat.mod_lt _ hpos
  have hdiv : 2 ^ F.fracBits * (p / 2 ^ F.fracBits) + p % 2 ^ F.fracBits = p := Nat.div_add_mod _ _
  by_cases hexp : p >>> F.fracBits = 0
  · -- without an implicit bit, the pattern is the significand
    have hsplit : split F p = (p, F.minExp) := by rw [split]; exact if_pos hexp
    have hlt : p < 2 ^ F.fracBits := by
      rw [Nat.shiftRight_eq_div_pow, Nat.div_eq_zero_iff] at hexp
      omega
    have hround := @ofDyadic_pack F neg p 0 (by omega) (by rw [Nat.pow_succ]; omega) (.inl rfl)
    rw [Nat.zero_shiftLeft, Nat.zero_add, Nat.min_eq_left (Nat.le_of_lt h)] at hround
    rw [hsplit, Int.sub_self, Int.toNat_zero, ofDyadic_shiftLeft]
    exact hround
  · obtain ⟨k, hk⟩ := Nat.exists_eq_succ_of_ne_zero hexp
    obtain ⟨m, hm⟩ : ∃ m, m = 2 ^ F.fracBits + p % 2 ^ F.fracBits := ⟨_, rfl⟩
    have hpattern : k <<< F.fracBits + m = p := by
      rw [Nat.shiftRight_eq_div_pow] at hk
      rw [hm, Nat.shiftLeft_eq, ← Nat.add_assoc, ← Nat.succ_mul, ← hk, Nat.mul_comm]
      exact hdiv
    have hlo : 2 ^ F.fracBits ≤ m := by omega
    have hhi : m < 2 ^ (F.fracBits + 1) := by rw [Nat.pow_succ]; omega
    have hsplit : split F p = (m, F.minExp + k) := hpattern ▸ split_pack hlo hhi k
    have hshift : (F.minExp + k - F.minExp).toNat = k := by omega
    rw [hsplit, hshift, ofDyadic_shiftLeft, ofDyadic_pack neg (by omega) hhi (.inr hlo), hpattern,
      Nat.min_eq_left (Nat.le_of_lt h)]

end Num

/-- What a number with a significand of full length stands for after rounding. -/
theorem value_ofDyadic (neg : Bool) {m k : Nat} (hlo : 2 ^ F.fracBits ≤ m)
    (hhi : m < 2 ^ (F.fracBits + 1)) (hk : k + 2 < 2 ^ F.expBits) :
    (ofDyadic neg m (F.minExp + k) : Num F).value = .finite neg m (F.minExp + k) := by
  have hpos := Nat.two_pow_pos F.fracBits
  have hpattern : k <<< F.fracBits + m < F.infinity := by
    have hroom := Nat.mul_le_mul_right (2 ^ F.fracBits) (Nat.le_sub_one_of_lt hk)
    rw [Nat.pow_succ] at hhi
    rw [Nat.add_mul] at hroom
    rw [Format.infinity, Nat.one_shiftLeft, Nat.shiftLeft_eq, Nat.shiftLeft_eq]
    omega
  rw [ofDyadic_pack neg (by omega) hhi (.inr hlo), Nat.min_eq_left (Nat.le_of_lt hpattern),
    Num.value_ofBody hpattern, Num.split_pack hlo hhi]

end Ieee

end SpmdArray
