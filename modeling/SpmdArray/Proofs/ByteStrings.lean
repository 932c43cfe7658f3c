import Mathlib.Algebra.Ring.Nat
import SpmdArray.Buffer

/-!
# Byte strings

A buffer is sent as the bytes of its elements, one element after the other and the least
significant byte first.  Every byte string of the right length is the byte string of some buffer,
and of no other one, except that a truth value may also have been sent as another byte than one.

## Main definitions

* `Elem.canonical` — a byte string as it is sent.

## Main results

* `littleEndian_ofLittleEndian` — every byte string is that of a number.
* `Elem.getElem?_flatMap_toBytes` — each byte of a list of elements.
* `Elem.flatMap_toBytes_decode` — what is read is sent again as the same bytes.
* `Buffer.byteString_exactly` — which byte strings hold a buffer, and which one.
-/

namespace SpmdArray

/-! ### Numbers -/

/-- **Every byte string is that of a number.** -/
theorem littleEndian_ofLittleEndian (bs : List UInt8) :
    littleEndian bs.length (ofLittleEndian bs) = bs := by
  induction bs with
  | nil => rfl
  | cons b bs ih =>
    have hb : b.toNat < 256 := b.toNat_lt
    have hlow : UInt8.ofNat (b.toNat + 256 * ofLittleEndian bs) = b := by
      apply UInt8.toNat_inj.mp
      rw [UInt8.toNat_ofNat']
      omega
    have hrest : (b.toNat + 256 * ofLittleEndian bs) / 256 = ofLittleEndian bs := by omega
    rw [List.length_cons, ofLittleEndian, littleEndian, hlow, hrest, ih]

theorem ofLittleEndian_lt (bs : List UInt8) : ofLittleEndian bs < 2 ^ (8 * bs.length) := by
  induction bs with
  | nil => exact Nat.one_pos
  | cons b bs ih =>
    have hb : b.toNat < 256 := b.toNat_lt
    rw [ofLittleEndian, List.length_cons, Nat.mul_succ, Nat.pow_add]
    omega

/-- Each byte of a number, as its digit to the base 256. -/
theorem getElem?_littleEndian {n i : Nat} (h : i < n) (v : Nat) :
    (littleEndian n v)[i]? = some (UInt8.ofNat (v / 256 ^ i)) := by
  induction n generalizing i v with
  | zero => omega
  | succ n ih =>
    cases i with
    | zero => rw [littleEndian, List.getElem?_cons_zero, Nat.pow_zero, Nat.div_one]
    | succ i =>
      rw [littleEndian, List.getElem?_cons_succ, ih (by omega), Nat.div_div_eq_div_mul,
        Nat.pow_succ']

/-! ### Elements -/

namespace Elem

variable {d : DType} {bs : List UInt8}

/-- The bytes that are sent for what `bs` is read as: truth values are sent as one if they are
true. -/
def canonical (d : DType) (bs : List UInt8) : List UInt8 :=
  if d = .bool then bs.map fun b => if b = 0 then 0 else 1 else bs

@[simp] theorem canonical_bool (bs : List UInt8) :
    canonical .bool bs = bs.map fun b => if b = 0 then 0 else 1 := rfl

theorem canonical_of_ne (hd : d ≠ .bool) (bs : List UInt8) : canonical d bs = bs := if_neg hd

@[simp] theorem canonical_nil (d : DType) : canonical d [] = [] := ite_self []

theorem canonical_append (d : DType) (bs cs : List UInt8) :
    canonical d (bs ++ cs) = canonical d bs ++ canonical d cs := by
  by_cases hd : d = .bool
  · subst hd
    exact List.map_append
  · simp only [canonical_of_ne hd]

/-- A number below the bound of a type is the pattern of its element. -/
theorem pattern_ofPattern {n : Nat} (hd : d ≠ .bool) (h : n < 2 ^ (8 * d.size)) :
    (ofPattern d n).pattern = n := by
  rcases d with _ | k | f
  · exact absurd rfl hd
  · cases k <;> exact Nat.mod_eq_of_lt h
  · cases f <;> exact Nat.mod_eq_of_lt h

/-- The bytes of one element. -/
theorem toBytes_ofBytes (h : bs.length = d.size) : (ofBytes d bs).toBytes = canonical d bs := by
  by_cases hd : d = .bool
  · subst hd
    obtain ⟨b, rfl⟩ := List.length_eq_one_iff.mp h
    have hread : ofBytes .bool [b] = decide (b ≠ 0) := by
      show decide (b.toNat + 256 * 0 ≠ 0) = decide (b ≠ 0)
      rw [Nat.mul_zero, Nat.add_zero]
      exact decide_eq_decide.mpr (not_congr (@UInt8.toNat_inj b 0))
    rw [hread]
    by_cases hb : b = 0
    · subst hb
      rfl
    · rw [decide_eq_true hb, canonical_bool, List.map_singleton, if_neg hb]
      rfl
  · rw [toBytes, ofBytes, pattern_ofPattern hd (h ▸ ofLittleEndian_lt bs), canonical_of_ne hd,
      ← h, littleEndian_ofLittleEndian]

/-- Each byte of a list of elements. -/
theorem getElem?_flatMap_toBytes (xs : List (Elem d)) (j : Nat) {i : Nat} (hi : i < d.size) :
    (xs.flatMap toBytes)[j * d.size + i]?
      = xs[j]?.map fun x => UInt8.ofNat (x.pattern / 256 ^ i) := by
  induction xs generalizing j with
  | nil => rfl
  | cons x xs ih =>
    rw [List.flatMap_cons]
    cases j with
    | zero =>
      rw [Nat.zero_mul, Nat.zero_add, List.getElem?_append_left (by rwa [length_toBytes]),
        toBytes, getElem?_littleEndian hi]
      rfl
    | succ j =>
      have hpast : (j + 1) * d.size + i = d.size + (j * d.size + i) := by
        rw [Nat.succ_mul]
        omega
      rw [hpast, List.getElem?_append_right (by rw [length_toBytes]; omega), length_toBytes,
        Nat.add_sub_cancel_left, ih, List.getElem?_cons_succ]

theorem flatMap_toBytes_decodeFrom {n : Nat} (h : bs.length = n * d.size)
    (acc : List (Elem d)) :
    (decodeFrom d n bs acc).reverse.flatMap toBytes
      = acc.reverse.flatMap toBytes ++ canonical d bs := by
  induction n generalizing bs acc with
  | zero =>
    obtain rfl : bs = [] := List.length_eq_zero_iff.mp (by rw [h, Nat.zero_mul])
    rw [decodeFrom, canonical_nil, List.append_nil]
  | succ n ih =>
    have hlen : bs.length = n * d.size + d.size := by rw [h, Nat.succ_mul]
    have hfirst : (bs.take d.size).length = d.size := by
      rw [List.length_take]
      omega
    have hrest : (bs.drop d.size).length = n * d.size := by
      rw [List.length_drop]
      omega
    rw [decodeFrom, ih hrest, List.reverse_cons, List.flatMap_append, List.flatMap_singleton,
      toBytes_ofBytes hfirst, List.append_assoc, ← canonical_append, List.take_append_drop]

/-- **What is read is sent again** as the same bytes, but for the truth values. -/
theorem flatMap_toBytes_decode (h : d.size ∣ bs.length) :
    (decode d bs).flatMap toBytes = canonical d bs := by
  have hlen : bs.length = bs.length / d.size * d.size := (Nat.div_mul_cancel h).symm
  rw [decode, flatMap_toBytes_decodeFrom hlen]
  rfl

end Elem

namespace Buffer

variable {d : DType} {bs : List UInt8}

theorem ofBytes_of_dvd (h : d.size ∣ bs.length) : ofBytes d bs = .ok ⟨d, Elem.decode d bs⟩ := by
  rw [ofBytes, if_neg (by simpa using Nat.mod_eq_zero_of_dvd h)]
  rfl

theorem ofBytes_of_not_dvd (h : ¬ d.size ∣ bs.length) :
    ofBytes d bs = .error (.partialElement bs.length d) := by
  rw [ofBytes, if_pos fun h0 => h (Nat.dvd_of_mod_eq_zero h0)]
  rfl

/-- **Which byte strings hold a buffer, and which one.**  The byte string of a buffer consists of
the patterns of its elements, and is read back as the same buffer.  A byte string holds a buffer of
a type exactly if it can be cut into pieces of the size of an element; the buffer is sent as the
same bytes again, apart from truth values, which are sent as zero or one. -/
theorem byteString_exactly :
    (∀ b : Buffer, b.toBytes.length = b.length * b.dtype.size ∧
      (∀ j i, i < b.dtype.size → b.toBytes[j * b.dtype.size + i]?
        = b.data[j]?.map fun x => UInt8.ofNat (x.pattern / 256 ^ i)) ∧
      ofBytes b.dtype b.toBytes = .ok b) ∧
    ∀ (d : DType) (bs : List UInt8),
      (d.size ∣ bs.length → ∃ b, ofBytes d bs = .ok b ∧ b.dtype = d ∧
        b.toBytes = if d = .bool then bs.map fun c => if c = 0 then 0 else 1 else bs) ∧
      (¬ d.size ∣ bs.length → ∃ e : Error, e.kind = .communication ∧
        ofBytes d bs = .error e) := by
  refine ⟨fun b => ⟨b.length_toBytes, ?_, b.ofBytes_toBytes⟩, fun d bs => ⟨?_, ?_⟩⟩
  · intro j i hi
    exact Elem.getElem?_flatMap_toBytes b.data j hi
  · intro h
    exact ⟨_, ofBytes_of_dvd h, rfl, Elem.flatMap_toBytes_decode h⟩
  · intro h
    exact ⟨_, rfl, ofBytes_of_not_dvd h⟩

/-- Two bytes are a negative word of 16 bits, and three bytes are none; a byte that is not zero is
read as true, which is sent as one. -/
theorem byteString_exactly_three_bytes :
    ((⟨.i16, [.ofInt (-2)]⟩ : Buffer).toBytes = [0xfe, 0xff] ∧
      ofBytes .i16 [0xfe, 0xff] = .ok ⟨.i16, [.ofInt (-2)]⟩) ∧
    (∃ e : Error, e.kind = .communication ∧ ofBytes .i16 [0xfe, 0xff, 1] = .error e) ∧
    ∃ b, ofBytes .bool [0, 2, 1] = .ok b ∧ b.dtype = .bool ∧ b.toBytes = [0, 1, 1] := by
  obtain ⟨hbuffer, hbytes⟩ := byteString_exactly
  have hsent : (⟨.i16, [.ofInt (-2)]⟩ : Buffer).toBytes = [0xfe, 0xff] := by decide
  refine ⟨⟨hsent, ?_⟩, (hbytes .i16 [0xfe, 0xff, 1]).2 (by decide), ?_⟩
  · rw [← hsent]
    exact (hbuffer ⟨.i16, [.ofInt (-2)]⟩).2.2
  · exact (hbytes .bool [0, 2, 1]).1 (by decide)

end Buffer

end SpmdArray
