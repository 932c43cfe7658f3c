import Mathlib.Algebra.Field.Rat
import Mathlib.Algebra.Order.Field.Basic
import Mathlib.Algebra.Ring.Parity
import SpmdArray.Proofs.Numbers

/-!
# Conversions of buffers

Every conversion between two element types passes through double precision, which does not hold
all the integers of the widest type.  Integers are clamped exactly nevertheless, and what is
converted to a type that has all its values comes back unchanged.

## Main definitions

* `Elem.Denotes` — the integer that an element of any type stands for.
* `DType.Contains` — a type has all the integers of another type.

## Main results

* `DType.contains_bool_iff`, `DType.contains_int_iff`, `DType.contains_float_iff` — which types
  have all the integers of a type.
* `Elem.toInt_convert` — conversions to integers clamp exactly.
* `Elem.convert_convert` — from a type that contains it, an element comes back.
* `Buffer.conversions_exact` — what becomes of truth values and integers.
-/

namespace SpmdArray

/-! ### The integers of a type -/

namespace Ieee

theorem signed_natAbs (i : Int) : signed (i < 0) i.natAbs = i := by
  simp only [signed, decide_eq_true_eq]
  split <;> omega

theorem natAbs_signed (neg : Bool) (m : Nat) : (signed neg m).natAbs = m := by
  cases neg <;> simp [signed]

theorem signed_mul (neg : Bool) (m n : Nat) : signed neg (m * n) = signed neg m * n := by
  cases neg <;> simp [signed]

theorem Num.sig_lt_of_value {F : Format} {x : Num F} {neg : Bool} {m : Nat} {e : Int}
    (h : x.value = .finite neg m e) : m < 2 ^ (F.fracBits + 1) := by
  unfold value at h
  split at h
  · cases h
  · split at h
    · cases h
      exact split_lt F x.body
    · cases h

end Ieee

namespace Elem

variable {d : DType}

/-- `a.Denotes i` says that the element `a` stands for the integer `i`. -/
def Denotes : {d : DType} → Elem d → Int → Prop
  | .bool, a, i => (Bool.toNat a : Int) = i
  | .int _, a, i => Word.toInt a = i
  | .float _, a, i => ∃ neg m e,
    Ieee.Num.value a = .finite neg m e ∧ (Ieee.signed neg m : ℚ) * 2 ^ e = i

theorem denotes_iff (h : d.isFloat = false) {a : Elem d} {i : Int} :
    a.Denotes i ↔ a.number = i := by
  cases d with
  | bool => rfl
  | int k => rfl
  | float f => cases h

/-- An integer that fits into a significand is a float. -/
theorem denotes_ofInt {f : FloatType} {i : Int} (h : i.natAbs < 2 ^ (f.format.fracBits + 1)) :
    Denotes (d := .float f) (Ieee.ofInt i) i := by
  by_cases h0 : i.natAbs = 0
  · rw [Int.natAbs_eq_zero.mp h0]
    refine ⟨_, _, _, Ieee.value_ofInt_zero (Ieee.Format.wide f), ?_⟩
    simp [Ieee.signed]
  · have hlog := Ieee.log2_le_of_lt h0 h
    refine ⟨_, _, _, Ieee.value_ofInt (Ieee.Format.wide f) h0 hlog, ?_⟩
    have hexp : ((f.format.fracBits - i.natAbs.log2 : Nat) : Int)
        + ((i.natAbs.log2 : Int) - f.format.fracBits) = 0 := by omega
    rw [Nat.shiftLeft_eq, Ieee.signed_mul, Ieee.signed_natAbs, Int.cast_mul, Int.cast_natCast,
      Nat.cast_pow, Nat.cast_ofNat, mul_assoc, ← zpow_natCast, ← zpow_add₀ two_ne_zero, hexp,
      zpow_zero, mul_one]

/-- An odd integer that is a float fits into a significand. -/
theorem natAbs_lt_of_denotes {f : FloatType} {a : Elem (.float f)} {i : Int} (ha : a.Denotes i)
    (hi : Odd i) : i.natAbs < 2 ^ (f.format.fracBits + 1) := by
  obtain ⟨neg, m, e, hv, hi'⟩ := ha
  have hm := Ieee.Num.sig_lt_of_value hv
  have habs := Ieee.natAbs_signed neg m
  rcases Int.lt_or_le e 0 with hneg | hpos
  · -- the significand is a multiple of the integer
    obtain ⟨n, rfl⟩ : ∃ n : Nat, e = -n := ⟨(-e).toNat, by omega⟩
    have hsig : Ieee.signed neg m = i * 2 ^ n := by
      rw [zpow_neg, ← div_eq_mul_inv, div_eq_iff (zpow_ne_zero _ two_ne_zero), zpow_natCast] at hi'
      exact_mod_cast hi'
    have hmul : m = i.natAbs * 2 ^ n := by
      rw [← habs, hsig, Int.natAbs_mul, Int.natAbs_pow]
      rfl
    exact Nat.lt_of_le_of_lt (hmul ▸ Nat.le_mul_of_pos_right _ (Nat.two_pow_pos n)) hm
  · -- the integer is a multiple of a power of two, which is one
    obtain ⟨n, rfl⟩ := Int.eq_ofNat_of_zero_le hpos
    have hsig : Ieee.signed neg m * 2 ^ n = i := by
      rw [zpow_natCast] at hi'
      exact_mod_cast hi'
    have hn : n = 0 := by
      by_contra hn
      rw [← hsig, Int.odd_mul, Int.odd_pow' hn] at hi
      exact absurd hi.2 (by decide)
    rwa [← hsig, hn, pow_zero, mul_one, habs]

end Elem

namespace DType

variable {t s : DType}

/-- Every integer that an element of type `s` stands for is that of an element of type `t`. -/
def Contains (t s : DType) : Prop :=
  ∀ (a : Elem s) (i : Int), a.Denotes i → ∃ c : Elem t, c.Denotes i

theorem contains_iff (h : s.isFloat = false) :
    t.Contains s ↔ ∀ a : Elem s, ∃ c : Elem t, c.Denotes a.number := by
  refine ⟨fun ht a => ht a _ ((Elem.denotes_iff h).mpr rfl), fun ht a i hi => ?_⟩
  rw [← (Elem.denotes_iff h).mp hi]
  exact ht a

theorem contains_bool_iff (h : s.isFloat = false) :
    bool.Contains s ↔ ∀ a : Elem s, a.number = 0 ∨ a.number = 1 := by
  refine (contains_iff h).trans (forall_congr' fun a => ?_)
  generalize a.number = i
  constructor
  · rintro ⟨_ | _, hc⟩
    · exact .inl hc.symm
    · exact .inr hc.symm
  · rintro (h0 | h1)
    · exact ⟨false, h0.symm⟩
    · exact ⟨true, h1.symm⟩

theorem contains_int_iff {k : IntType} (h : s.isFloat = false) :
    (int k).Contains s ↔ ∀ a : Elem s, k.Holds a.number := by
  refine (contains_iff h).trans (forall_congr' fun a => ⟨?_, ?_⟩)
  · rintro ⟨c, hc⟩
    exact hc ▸ Word.holds_toInt c
  · exact fun ha => ⟨_, Word.toInt_ofInt ha⟩

/-- The least odd integer that does not fit into a significand is no value of an integer type that
a float type contains. -/
theorem Contains.maxValue_le {f : FloatType} {k : IntType} (h : (float f).Contains (int k)) :
    k.maxValue ≤ 2 ^ (f.format.fracBits + 1) := by
  by_contra hlt
  have hpos : (0 : Int) < 2 ^ (f.format.fracBits + 1) := Int.pow_pos (by decide)
  have hmin : k.minValue ≤ 0 := by cases k <;> decide
  have hnumber : (Word.ofInt (2 ^ (f.format.fracBits + 1) + 1) : Word k).toInt
      = 2 ^ (f.format.fracBits + 1) + 1 := Word.toInt_ofInt ⟨by omega, by omega⟩
  obtain ⟨c, hc⟩ := h (Word.ofInt (2 ^ (f.format.fracBits + 1) + 1) : Word k) _ hnumber
  have hodd : Odd (2 ^ (f.format.fracBits + 1) + 1 : Int) :=
    (even_two.pow_of_ne_zero (Nat.succ_ne_zero _)).add_one
  have hfits := Elem.natAbs_lt_of_denotes hc hodd
  have hcast : ((2 ^ (f.format.fracBits + 1) : Nat) : Int) = 2 ^ (f.format.fracBits + 1) :=
    Nat.cast_pow 2 _
  omega

/-- **Which integers a float type contains**: those that fit into a significand. -/
theorem contains_float_iff {f : FloatType} (h : s.isFloat = false) :
    (float f).Contains s ↔ ∀ a : Elem s, a.number.natAbs < 2 ^ (f.format.fracBits + 1) := by
  refine ⟨fun ht a => ?_, fun hs => (contains_iff h).mpr fun a => ⟨_, Elem.denotes_ofInt (hs a)⟩⟩
  cases s with
  | bool => cases f <;> cases a <;> decide
  | int k =>
    have hmax := ht.maxValue_le
    have hrange : -2 ^ (f.format.fracBits + 1) < k.minValue
        ∧ k.maxValue < 2 ^ (f.format.fracBits + 1) := by
      cases f <;> cases k <;> first | decide | exact absurd hmax (by decide)
    obtain ⟨hlo, hhi⟩ := Word.holds_toInt (k := k) a
    have hcast : ((2 ^ (f.format.fracBits + 1) : Nat) : Int) = 2 ^ (f.format.fracBits + 1) :=
      Nat.cast_pow 2 _
    rw [Elem.number]
    omega
  | float g => cases h

end DType

namespace Elem

variable {t d : DType}

/-- **Conversions to integers clamp exactly**, on numbers. -/
theorem toInt_convert (k : IntType) (h : d.isFloat = false) (a : Elem d) :
    Word.toInt (convert (.int k) a) = min (max a.number k.minValue) k.maxValue := by
  have hle : k.minValue ≤ k.maxValue := by cases k <;> decide
  rw [convert_int k h, Word.toInt_saturate]
  omega

/-- Elements of one number are converted alike. -/
theorem convert_eq_of_number (hd : d.isFloat = false) (ht : t.isFloat = false) {a : Elem d}
    {c : Elem t} (hc : c.number = a.number) : convert d c = a := by
  cases d with
  | bool => rw [convert_bool ht, hc, ofNumber_number hd]
  | int k => rw [convert_int k ht, hc, ← convert_int k hd, convert_self]
  | float f => cases hd

/-- An integer that a double holds is converted back. -/
theorem ofDouble_number (hd : d.isFloat = false) {a : Elem d} (ha : a.number.natAbs < 2 ^ 53) :
    ofDouble d (Ieee.ofInt a.number) = a := by
  cases d with
  | bool => cases a <;> decide
  | int k => rw [ofDouble_ofInt (.inl ha), ← convert_int k hd, convert_self]
  | float f => cases hd

/-- **From a type that contains it, an element comes back.** -/
theorem convert_convert (hd : d.isFloat = false) (h : t.Contains d) (a : Elem d) :
    convert d (convert t a) = a := by
  cases t with
  | bool =>
    refine convert_eq_of_number hd rfl ?_
    rcases (DType.contains_bool_iff hd).mp h a with ha | ha <;>
      rw [convert_bool hd, ha] <;> rfl
  | int k =>
    obtain ⟨hlo, hhi⟩ := (DType.contains_int_iff hd).mp h a
    refine convert_eq_of_number hd rfl ((toInt_convert k hd a).trans ?_)
    rw [max_eq_left hlo, min_eq_left hhi]
  | float f =>
    have hfits := (DType.contains_float_iff hd).mp h a
    have hsmall : a.number.natAbs < 2 ^ 53 := by
      refine Nat.lt_of_lt_of_le hfits (Nat.pow_le_pow_right Nat.two_pos ?_)
      cases f <;> decide
    have hne : d ≠ .float f := by
      rintro rfl
      cases hd
    have hthere : convert (.float f) a = Ieee.ofInt a.number := by
      rw [convert_of_ne hne, cast, toDouble_eq hd]
      exact Ieee.convert_ofInt Ieee.Format.wide_double hsmall
    rw [hthere, convert_of_ne hne.symm, cast, toDouble,
      Ieee.convert_ofInt (Ieee.Format.wide f) hfits, ofDouble_number hd hsmall]

end Elem

namespace Buffer

/-- **What becomes of truth values and integers.**  Integers are clamped to the range of an integer
type, and are true unless they are zero; truth values become zero or one.  A buffer comes back from
every type that has all the integers of its own type. -/
theorem conversions_exact :
    (∀ (s t : IntType) (xs : List (Word s)), ∃ ys : List (Word t),
      cast (.int t) ⟨.int s, xs⟩ = ⟨.int t, ys⟩ ∧ values (.int t) ⟨.int s, xs⟩ = ys ∧
      ys.map Word.toInt = xs.map fun x => min (max x.toInt t.minValue) t.maxValue) ∧
    (∀ (s : IntType) (xs : List (Word s)), ∃ ys : List Bool,
      cast .bool ⟨.int s, xs⟩ = ⟨.bool, ys⟩ ∧ values .bool ⟨.int s, xs⟩ = ys ∧
      ys = xs.map fun x => decide (x.toInt ≠ 0)) ∧
    (∀ (t : IntType) (xs : List Bool), ∃ ys : List (Word t),
      cast (.int t) ⟨.bool, xs⟩ = ⟨.int t, ys⟩ ∧ values (.int t) ⟨.bool, xs⟩ = ys ∧
      ys.map Word.toInt = xs.map fun x => if x then 1 else 0) ∧
    ∀ (b : Buffer) (t : DType), b.dtype.isFloat = false → t.Contains b.dtype →
      (b.cast t).cast b.dtype = b := by
  -- both ways to convert a buffer convert its elements one by one
  have hconvert : ∀ (t d : DType) (xs : List (Elem d)),
      cast t ⟨d, xs⟩ = ⟨t, xs.map (Elem.convert t)⟩ ∧ values t ⟨d, xs⟩ = xs.map (Elem.convert t) :=
    fun t d xs => ⟨cast_mk t xs, values_mk t xs⟩
  refine ⟨fun s t xs => ⟨_, (hconvert _ (.int s) xs).1, (hconvert _ (.int s) xs).2, ?_⟩,
    fun s xs => ⟨_, (hconvert _ (.int s) xs).1, (hconvert _ (.int s) xs).2, ?_⟩,
    fun t xs => ⟨_, (hconvert _ .bool xs).1, (hconvert _ .bool xs).2, ?_⟩, fun b t hb ht => ?_⟩
  · rw [List.map_map]
    exact List.map_congr_left fun x _ => Elem.toInt_convert t (d := .int s) rfl x
  · exact List.map_congr_left fun x _ => Elem.convert_bool (d := .int s) rfl x
  · rw [List.map_map]
    refine List.map_congr_left fun x _ => (Elem.toInt_convert t (d := .bool) rfl x).trans ?_
    cases x <;> cases t <;> decide
  · obtain ⟨d, xs⟩ := b
    rw [cast_mk, cast_mk, List.map_map]
    exact congrArg (Buffer.mk d) (List.map_id'' (fun a => Elem.convert_convert hb ht a) xs)

/-- The bounds of 16 bits, in 8 bits, as truth values, and through single precision. -/
theorem conversions_exact_i16 :
    (∃ ys : List (Word .u8), cast .u8 ⟨.i16, [.ofInt (-32768), .ofInt 32767]⟩ = ⟨.u8, ys⟩ ∧
      ys.map Word.toInt = [0, 255]) ∧
    values .bool ⟨.i16, [.ofInt (-32768), .ofInt 0]⟩ = [true, false] ∧
    cast .i16 (cast .f32 ⟨.i16, [.ofInt (-32768), .ofInt 32767]⟩)
      = ⟨.i16, [.ofInt (-32768), .ofInt 32767]⟩ := by
  obtain ⟨hclamp, htruth, -, hback⟩ := conversions_exact
  obtain ⟨ys, hcast, -, hys⟩ := hclamp .i16 .u8 [.ofInt (-32768), .ofInt 32767]
  obtain ⟨zs, -, hvalues, hzs⟩ := htruth .i16 [.ofInt (-32768), .ofInt 0]
  have hcontains : DType.f32.Contains .i16 := (DType.contains_float_iff rfl).mpr fun a => by
    obtain ⟨hlo, hhi⟩ := Word.holds_toInt (k := .i16) a
    have hmin : IntType.i16.minValue = -2 ^ 15 := by decide
    have hmax : IntType.i16.maxValue = 2 ^ 15 - 1 := by decide
    show (Word.toInt (k := .i16) a).natAbs < 2 ^ 24
    omega
  refine ⟨⟨ys, hcast, hys.trans (by decide)⟩, hvalues.trans (hzs.trans (by decide)), ?_⟩
  exact hback ⟨.i16, [.ofInt (-32768), .ofInt 32767]⟩ .f32 rfl hcontains

end Buffer

end SpmdArray
