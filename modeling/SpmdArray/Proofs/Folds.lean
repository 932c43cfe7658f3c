import Mathlib.Algebra.BigOperators.Fin
import SpmdArray.Proofs.AxisReduction

/-!
# Folds in any order

A reducer that is associative and commutative and has its identity combines the elements of a
list to the same element in every order and in any grouping.

For the grouping alone less is enough.  A list can be cut into blocks that are folded on their own,
each from the identity, so the identity is folded in once for each block.  Logical reducers turn a
word into zero or one as soon as anything is folded into it, so the identity is none for an
arbitrary word; it only has to leave alone what a fold has already returned.

## Main definitions

* `Reducer.Divisible op d` — the reducer is associative, and its identity changes no result of
  a fold.
* `Elem.totalBy` — the elements of a list, folded as threads share them out.
* `Reducer.Lawful op d` — the reducer is commutative and associative and has its identity.

## Main results

* `Reducer.Divisible.total_append`, `Reducer.Divisible.totalBy_eq` — lists may be folded in blocks.
* `Reducer.Lawful.total_perm` — the order does not matter.
* `Reducer.Lawful.total_flatMap`, `Reducer.Lawful.total_groups` — the grouping does not matter.
-/

namespace SpmdArray

namespace Elem

variable {d : DType}

/-- Elements are appended on the right by folding. -/
theorem total_concat (op : Reducer) (xs : List (Elem d)) (x : Elem d) :
    total op (xs ++ [x]) = fold op (total op xs) x :=
  List.foldl_concat ..

/-- The elements of a list, folded as `how` shares them out if they are many. -/
def totalBy (how : Grouping) (op : Reducer) (xs : List (Elem d)) : Elem d :=
  if xs.length < Buffer.parallelThreshold then total op xs
  else how.fold (Elem.fold op) (Elem.identity d op) xs

end Elem

namespace Reducer

/-- `Divisible op d` says that lists of elements of type `d` may be folded by `op` in parts. -/
structure Divisible (op : Reducer) (d : DType) : Prop where
  /-- The operation is associative. -/
  assoc : ∀ a b c : Elem d,
    Elem.fold op (Elem.fold op a b) c = Elem.fold op a (Elem.fold op b c)
  /-- The identity is one for what the operation returns. -/
  fold_identity : ∀ a b : Elem d,
    Elem.fold op (Elem.fold op a b) (Elem.identity d op) = Elem.fold op a b
  /-- The identity is one for itself. -/
  identity_identity :
    Elem.fold op (Elem.identity d op) (Elem.identity d op) = Elem.identity d op

namespace Divisible

variable {op : Reducer} {d : DType}

/-- The identity changes no result of a fold. -/
theorem total_identity (h : op.Divisible d) (xs : List (Elem d)) :
    Elem.fold op (Elem.total op xs) (Elem.identity d op) = Elem.total op xs := by
  cases xs using List.reverseRecOn with
  | nil => exact h.identity_identity
  | append_singleton xs x =>
    rw [Elem.total_concat]
    exact h.fold_identity _ _

/-- **Two lists may be folded on their own**, each from the identity. -/
theorem total_append (h : op.Divisible d) (xs ys : List (Elem d)) :
    Elem.total op (xs ++ ys) = Elem.fold op (Elem.total op xs) (Elem.total op ys) := by
  induction ys using List.reverseRecOn with
  | nil =>
    rw [List.append_nil]
    exact (h.total_identity xs).symm
  | append_singleton ys y ih =>
    rw [← List.append_assoc, Elem.total_concat, Elem.total_concat, ih]
    exact h.assoc _ _ _

/-- **A list may be folded in blocks**, each from the identity. -/
theorem fold_eq_total (h : op.Divisible d) (how : Grouping) (xs : List (Elem d)) :
    how.fold (Elem.fold op) (Elem.identity d op) xs = Elem.total op xs := by
  induction how generalizing xs with
  | block => rfl
  | join n l r ihl ihr =>
    rw [Grouping.fold, ihl, ihr, ← h.total_append, List.take_append_drop]

/-- It does not matter how threads share out the elements. -/
theorem totalBy_eq (h : op.Divisible d) (how : Grouping) (xs : List (Elem d)) :
    Elem.totalBy how op xs = Elem.total op xs := by
  unfold Elem.totalBy
  split
  · rfl
  · exact h.fold_eq_total how xs

end Divisible

/-- `Lawful op d` says that `op` is a commutative and associative operation on the elements of
type `d`, and starts from its identity. -/
structure Lawful (op : Reducer) (d : DType) : Prop where
  /-- The operation is associative. -/
  assoc : ∀ a b c : Elem d,
    Elem.fold op (Elem.fold op a b) c = Elem.fold op a (Elem.fold op b c)
  /-- The operation is commutative. -/
  comm : ∀ a b : Elem d, Elem.fold op a b = Elem.fold op b a
  /-- A fold starts from the identity. -/
  identity : ∀ a : Elem d, Elem.fold op (Elem.identity d op) a = a

namespace Lawful

variable {op : Reducer} {d : DType}

theorem divisible (h : op.Lawful d) : op.Divisible d where
  assoc := h.assoc
  fold_identity _ _ := (h.comm _ _).trans (h.identity _)
  identity_identity := h.identity _

/-- The elements of type `d`, multiplied by `op`. -/
@[reducible] def monoid (h : op.Lawful d) : CommMonoid (Elem d) where
  mul := Elem.fold op
  one := Elem.identity d op
  mul_assoc := h.assoc
  mul_comm := h.comm
  one_mul := h.identity
  mul_one a := (h.comm a _).trans (h.identity a)

theorem total_eq_prod (h : op.Lawful d) (xs : List (Elem d)) :
    letI : CommMonoid (Elem d) := h.monoid
    Elem.total op xs = xs.prod := by
  let _ := h.monoid
  exact List.prod_eq_foldl.symm

/-- **The order does not matter.** -/
theorem total_perm (h : op.Lawful d) {xs ys : List (Elem d)} (p : xs.Perm ys) :
    Elem.total op xs = Elem.total op ys := by
  let _ := h.monoid
  rw [h.total_eq_prod, h.total_eq_prod]
  exact p.prod_eq

theorem total_singleton (h : op.Lawful d) (a : Elem d) : Elem.total op [a] = a :=
  h.identity a

theorem total_cons (h : op.Lawful d) (a : Elem d) (xs : List (Elem d)) :
    Elem.total op (a :: xs) = Elem.fold op a (Elem.total op xs) := by
  let _ := h.monoid
  rw [h.total_eq_prod, h.total_eq_prod]
  exact List.prod_cons

/-- A fold may start from the first element. -/
theorem foldl_eq_total (h : op.Lawful d) (a : Elem d) (xs : List (Elem d)) :
    xs.foldl (Elem.fold op) a = Elem.total op (a :: xs) := by
  rw [Elem.total, List.foldl_cons, h.identity]

/-- An element that all others leave alone. -/
theorem total_ofFn_eq_single (h : op.Lawful d) {n : Nat} (f : Fin n → Elem d) (q : Fin n)
    (hf : ∀ r, r ≠ q → f r = Elem.identity d op) : Elem.total op (List.ofFn f) = f q := by
  let _ := h.monoid
  rw [h.total_eq_prod, List.prod_ofFn]
  exact Fintype.prod_eq_single q hf

/-- **Lists may be combined one by one.** -/
theorem total_flatMap (h : op.Lawful d) {α : Type} (l : List α) (f : α → List (Elem d)) :
    Elem.total op (l.flatMap f) = Elem.total op (l.map fun x => Elem.total op (f x)) := by
  let _ := h.monoid
  simp only [h.total_eq_prod]
  induction l with
  | nil => rfl
  | cons x l ih =>
    rw [List.flatMap_cons, List.prod_append, ih, List.map_cons, List.prod_cons]

/-- **Elements may be combined in groups** by a key: each element belongs to one of the
groups. -/
theorem total_groups (h : op.Lawful d) {α β : Type} [DecidableEq β] (xs : List α)
    {ys : List β} (hys : ys.Nodup) (g : α → β) (hg : ∀ x ∈ xs, g x ∈ ys) (f : α → Elem d) :
    Elem.total op (ys.map fun y => Elem.total op ((xs.filter (g · = y)).map f))
      = Elem.total op (xs.map f) := by
  let _ := h.monoid
  simp only [h.total_eq_prod]
  induction xs with
  | nil => simp
  | cons x xs ih =>
    have ih := ih fun x' hx' => hg x' (List.mem_cons_of_mem _ hx')
    -- the first element counts for one of the keys
    have hone : (ys.map fun y => if g x = y then f x else 1).prod = f x := by
      rw [List.prod_map_eq_pow_single (g x) _ fun y hy _ => if_neg (Ne.symm hy), if_pos rfl,
        List.count_eq_one_of_mem hys (hg x List.mem_cons_self), pow_one]
    rw [List.map_cons, List.prod_cons, ← ih, ← hone, ← List.prod_map_mul]
    congr 1
    refine List.map_congr_left fun y _ => ?_
    by_cases hy : g x = y
    · rw [List.filter_cons_of_pos (by simpa using hy), List.map_cons, List.prod_cons, if_pos hy]
    · rw [List.filter_cons_of_neg (by simpa using hy), if_neg hy, one_mul]

end Lawful

end Reducer

end SpmdArray
