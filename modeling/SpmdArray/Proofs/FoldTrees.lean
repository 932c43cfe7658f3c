import SpmdArray.Proofs.Numbers
import SpmdArray.Tensor.Compute

/-!
# Folds by trees

A list can be folded in parts.  It is cut into blocks, each block is folded on its own from
the identity of the reducer, and the results of neighbouring blocks are combined two by two in
some order.  A tree holds the blocks, and says which results are combined first.

## Main definitions

* `Reducer.isLogical` — the reducers that return one or zero.
* `FoldTree` — the ways to fold a list in parts.

## Main results

* `Reducer.divisible` — all reducers are divisible on truth values and integers.
* `FoldTree.value_eq_reduceAll` — every tree has the value of the fold from left to right, and of
  the reduction of a buffer, however threads share it out.
-/

namespace SpmdArray

/-- Whether the reducer sees of an element only whether it counts as true, and returns one or
zero. -/
def Reducer.isLogical : Reducer → Bool
  | all | any => true
  | sum | prod | min | max | bitAnd | bitOr => false

namespace Elem

variable {d : DType}

theorem isTruthy_ofBool (h : d.isFloat = false) (b : Bool) : (ofBool d b).isTruthy = b := by
  rw [isTruthy_eq h]
  cases d with
  | bool => cases b <;> rfl
  | int k => cases k <;> cases b <;> rfl
  | float f => cases h

end Elem

namespace Reducer

open Elem

variable {d : DType}

/-- The identity of a conjunction counts as true. -/
theorem isTruthy_identity_all (h : d.isFloat = false) : (identity d .all).isTruthy = true :=
  isTruthy_ofBool h true

/-- The identity of a disjunction does not count as true. -/
theorem isTruthy_identity_any (h : d.isFloat = false) : (identity d .any).isTruthy = false :=
  isTruthy_ofBool h false

/-- Logical reducers see of an element only whether it counts as true. -/
theorem divisible_all (h : d.isFloat = false) : Divisible .all d where
  assoc a b c := by
    simp only [fold, isTruthy_ofBool h, Bool.and_assoc]
  fold_identity a b := by
    simp only [fold, isTruthy_ofBool h, isTruthy_identity_all h, Bool.and_true]
  identity_identity := by
    simp only [fold, isTruthy_identity_all h, Bool.and_true]
    rfl

theorem divisible_any (h : d.isFloat = false) : Divisible .any d where
  assoc a b c := by
    simp only [fold, isTruthy_ofBool h, Bool.or_assoc]
  fold_identity a b := by
    simp only [fold, isTruthy_ofBool h, isTruthy_identity_any h, Bool.or_false]
  identity_identity := by
    simp only [fold, isTruthy_identity_any h, Bool.or_false]
    rfl

/-- One is no identity of `all` on words: two counts as true, and is folded to one. -/
example : fold .all (identity .u8 .all) (Word.ofInt 2 : Elem .u8) = Word.ofInt 1 := by decide

/-- The other reducers are commutative and associative operations with an identity. -/
theorem lawful_of_not_logical (h : d.isFloat = false) {op : Reducer} (hop : op.isLogical = false) :
    op.Lawful d := by
  cases op with
  | sum => exact lawful_sum h
  | prod => exact lawful_prod h
  | min => exact lawful_min h
  | max => exact lawful_max h
  | bitAnd => exact lawful_bitAnd h
  | bitOr => exact lawful_bitOr h
  | all | any => cases hop

/-- **All reducers are divisible** on truth values and integers. -/
theorem divisible (op : Reducer) (h : d.isFloat = false) : op.Divisible d := by
  by_cases hop : op.isLogical = true
  · cases op with
    | all => exact divisible_all h
    | any => exact divisible_any h
    | sum | prod | min | max | bitAnd | bitOr => cases hop
  · exact (lawful_of_not_logical h (by simpa using hop)).divisible

end Reducer

/-- The ways to fold a list in parts: a block is folded from left to right, and the results of
two parts are combined. -/
inductive FoldTree (α : Type) where
  /-- Consecutive elements, possibly none. -/
  | block (xs : List α)
  /-- Two parts, one after the other. -/
  | join (left right : FoldTree α)

namespace FoldTree

variable {α : Type} {d : DType}

/-- The elements of the blocks, from left to right. -/
def elements : FoldTree α → List α
  | block xs => xs
  | join l r => l.elements ++ r.elements

/-- What the tree folds its elements to: blocks from the identity, and the results of parts
with each other. -/
def value (op : Reducer) : FoldTree (Elem d) → Elem d
  | block xs => xs.foldl (Elem.fold op) (Elem.identity d op)
  | join l r => Elem.fold op (l.value op) (r.value op)

/-- A divisible reducer does not see where the list was cut. -/
theorem value_eq_total {op : Reducer} (h : op.Divisible d) (w : FoldTree (Elem d)) :
    w.value op = Elem.total op w.elements := by
  induction w with
  | block xs => rfl
  | join l r ihl ihr =>
    rw [value, elements, ihl, ihr]
    exact (h.total_append l.elements r.elements).symm

/-- **Every tree has the value of the fold from left to right**, whatever the reducer: a buffer
of truth values or integers may be folded in parts, and it does not matter how threads share out
its elements. -/
theorem value_eq_reduceAll (op : Reducer) (b : Buffer) (hb : b.dtype.isFloat = false)
    (w : FoldTree (Elem b.dtype)) (hw : w.elements = b.data) :
    w.value op = b.data.foldl (Elem.fold op) (Elem.identity b.dtype op) ∧
      ∀ how, w.value op = b.reduceAll how op := by
  have htotal : w.value op = Elem.total op b.data := by
    rw [value_eq_total (op.divisible hb), hw]
  exact ⟨htotal, fun how => htotal.trans ((op.divisible hb).totalBy_eq how b.data).symm⟩

/-- Two words, folded by `all` in three blocks, of which one is empty. -/
theorem value_three_blocks :
    DType.u8.isFloat = false ∧
      (join (block [Word.ofInt 2]) (join (block []) (block [Word.ofInt 3])) :
        FoldTree (Elem .u8)).elements = [Word.ofInt 2, Word.ofInt 3] ∧
      (join (block [Word.ofInt 2]) (join (block []) (block [Word.ofInt 3])) :
        FoldTree (Elem .u8)).value .all
        = Buffer.reduceAll .block .all ⟨.u8, [Word.ofInt 2, Word.ofInt 3]⟩ :=
  ⟨rfl, rfl, (value_eq_reduceAll .all ⟨.u8, [Word.ofInt 2, Word.ofInt 3]⟩ rfl
    (join (block [Word.ofInt 2]) (join (block []) (block [Word.ofInt 3]))) rfl).2 .block⟩

end FoldTree

end SpmdArray
