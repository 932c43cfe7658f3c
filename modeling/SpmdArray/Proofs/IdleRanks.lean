import Mathlib.Data.List.Sort
import Mathlib.Order.Fin.Basic
import SpmdArray.Proofs.FoldTrees
import SpmdArray.Proofs.GroupReduction

/-!
# Ranks that hold the identity

A rank without elements of its own takes part in an all-reduce with a buffer full of the identity.
For most reducers the identity leaves every truth value and every integer alone, on either side.
Logical reducers are the exception: they return one or zero whatever they are given, so that a word
that is neither does not survive the first combination.  The ranks that hold the identity are then
noticed in one case only: a single other rank would keep its words if it were alone, and is left
with ones and zeros in their company.

## Main definitions

* `Elem.IsBit` — the elements that are one or zero.

## Main results

* `Elem.fold_identity_eq_iff` — which elements the identity leaves alone.
* `Reducer.Divisible.total_filter` — a fold does not see elements that are the identity.
* `Comm.across_idle_iff` — when the ranks that hold the identity are not noticed.
* `Comm.allReduce_idle` — the identity of a reducer, and the ranks that hold it.
-/

namespace SpmdArray

/-! ### The identity of a reducer -/

namespace Elem

variable {d : DType}

/-- `IsBit a` says that the element is one or zero. -/
def IsBit (a : Elem d) : Prop := a = zero d ∨ a = one d

instance (a : Elem d) : Decidable (IsBit a) := inferInstanceAs (Decidable (_ ∨ _))

theorem isBit_iff (h : d.isFloat = false) (a : Elem d) : a.IsBit ↔ ofBool d a.isTruthy = a := by
  constructor
  · -- zero and one are what the two truth values become
    have hofBool : ∀ b, ofBool d (ofBool d b).isTruthy = ofBool d b := fun b => by
      rw [isTruthy_ofBool h]
    rintro (rfl | rfl)
    · exact hofBool false
    · exact hofBool true
  · intro ha
    rw [← ha, IsBit, ofBool]
    split <;> simp

theorem fold_comm (h : d.isFloat = false) (op : Reducer) (a b : Elem d) :
    fold op a b = fold op b a := by
  by_cases hop : op.isLogical = true
  · cases op with
    | all => simp only [fold, Bool.and_comm]
    | any => simp only [fold, Bool.or_comm]
    | sum | prod | min | max | bitAnd | bitOr => cases hop
  · exact (Reducer.lawful_of_not_logical h (by simpa using hop)).comm a b

/-- Logical reducers turn what the identity is combined with into one or zero. -/
theorem fold_identity_of_logical (h : d.isFloat = false) {op : Reducer}
    (hop : op.isLogical = true) (a : Elem d) : fold op (identity d op) a = ofBool d a.isTruthy := by
  cases op with
  | all => simp only [fold, Reducer.isTruthy_identity_all h, Bool.true_and]
  | any => simp only [fold, Reducer.isTruthy_identity_any h, Bool.false_or]
  | sum | prod | min | max | bitAnd | bitOr => cases hop

/-- **Which elements the identity leaves alone**: all of them, but of a logical reducer only one and
zero. -/
theorem fold_identity_eq_iff (h : d.isFloat = false) (op : Reducer) (a : Elem d) :
    fold op (identity d op) a = a ↔ (op.isLogical = true → a.IsBit) := by
  by_cases hop : op.isLogical = true
  · rw [fold_identity_of_logical h hop, isBit_iff h]
    simp [hop]
  · have hlawful := Reducer.lawful_of_not_logical h (by simpa using hop)
    simp [hop, hlawful.identity]

/-- Nothing is seen of the identity once there is another element. -/
theorem fold_fold_identity (h : d.isFloat = false) (op : Reducer) (a b : Elem d) :
    fold op (fold op (identity d op) a) b = fold op a b := by
  by_cases hop : op.isLogical = true
  · rw [fold_identity_of_logical h hop]
    cases op with
    | all => simp only [fold, isTruthy_ofBool h]
    | any => simp only [fold, isTruthy_ofBool h]
    | sum | prod | min | max | bitAnd | bitOr => cases hop
  · have hlawful := Reducer.lawful_of_not_logical h (by simpa using hop)
    rw [hlawful.identity]

end Elem

/-- **A fold does not see elements that are the identity**, wherever they stand. -/
theorem Reducer.Divisible.total_filter {op : Reducer} {d : DType} (h : op.Divisible d) {α : Type}
    (f : α → Elem d) (p : α → Bool) (l : List α)
    (hidle : ∀ x ∈ l, p x = false → f x = Elem.identity d op) :
    Elem.total op ((l.filter p).map f) = Elem.total op (l.map f) := by
  induction l using List.reverseRecOn with
  | nil => rfl
  | append_singleton l x ih =>
    have ih := ih fun y hy => hidle y (List.mem_append_left _ hy)
    rw [List.filter_append, List.map_append, List.map_append, List.map_singleton,
      Elem.total_concat, ← ih]
    by_cases hx : p x = true
    · rw [List.filter_cons_of_pos hx, List.filter_nil, List.map_singleton, Elem.total_concat]
    · have hid := hidle x (by simp) (by simpa using hx)
      rw [List.filter_cons_of_neg hx, List.filter_nil, List.map_nil, List.append_nil, hid,
        h.total_identity]

/-! ### Some of the ranks -/

namespace Comm

variable {d : DType} {op : Reducer} {k n : Nat}

/-- Some ranks of a group, in their order. -/
theorem ofFn_comp {α : Type} (e : Fin k ↪o Fin n) (f : Fin n → α) :
    List.ofFn (fun q => f (e q))
      = ((List.finRange n).filter fun r => decide (∃ q, e q = r)).map f := by
  have hranks : (List.finRange k).map e
      = (List.finRange n).filter fun r => decide (∃ q, e q = r) := by
    apply List.Pairwise.eq_of_mem_iff (r := (· < ·))
    · rw [List.pairwise_map]
      exact (List.sortedLT_finRange k).pairwise.imp fun hlt => e.strictMono hlt
    · exact (List.sortedLT_finRange n).pairwise.filter _
    · intro r
      simp
  rw [← hranks, List.map_map, List.ofFn_eq_map]
  rfl

/-- All ranks of a group, in their order. -/
theorem ofFn_comp_of_eq {α : Type} (e : Fin n ↪o Fin n) (f : Fin n → α) :
    List.ofFn (fun q => f (e q)) = List.ofFn f := by
  have hall : ∀ r, ∃ q, e q = r := Finite.injective_iff_surjective.mp e.injective
  rw [ofFn_comp, List.filter_eq_self.mpr, List.ofFn_eq_map]
  intro r _
  exact decide_eq_true (hall r)

/-- Two ranks or more might as well start from the identity. -/
theorem across_eq_total_of_two_le (h : d.isFloat = false) (hn : 2 ≤ n) (f : Fin n → Elem d) :
    across op f = Elem.total op (List.ofFn f) := by
  obtain ⟨m, rfl⟩ := Nat.exists_eq_add_of_le' hn
  rw [across, List.ofFn_succ, List.ofFn_succ, Elem.total, List.foldl_cons, List.foldl_cons,
    Elem.fold_fold_identity h]
  rfl

/-- **When ranks that hold the identity are not noticed**: if there are none, if there are two other
ranks or more, or if the only other rank has an element that the identity leaves alone. -/
theorem across_idle_iff [NeZero k] (h : d.isFloat = false) (e : Fin k ↪o Fin n)
    {f : Fin n → Elem d} (hidle : ∀ r, (∀ q, e q ≠ r) → f r = Elem.identity d op) :
    across op f = across op (fun q => f (e q)) ↔
      (op.isLogical = true → n = k ∨ 2 ≤ k ∨ (f (e 0)).IsBit) := by
  have hkn : k ≤ n := by simpa using Fintype.card_le_of_embedding e.toEmbedding
  have hk : 0 < k := Nat.pos_of_ne_zero (NeZero.ne k)
  rcases Nat.eq_or_lt_of_le hkn with rfl | hlt
  · have hsame : across op (fun q => f (e q)) = across op f := by
      rw [across, across, ofFn_comp_of_eq]
    simp [hsame]
  · have htotal : across op f = Elem.total op (List.ofFn fun q => f (e q)) := by
      rw [across_eq_total_of_two_le h (by omega), ofFn_comp, List.ofFn_eq_map]
      refine ((Reducer.divisible op h).total_filter _ _ _ ?_).symm
      intro r _ hr
      exact hidle r (by simpa using hr)
    by_cases htwo : 2 ≤ k
    · have hothers : across op (fun q => f (e q)) = Elem.total op (List.ofFn fun q => f (e q)) :=
        across_eq_total_of_two_le h htwo _
      simp [htotal, hothers, htwo]
    · -- a single rank keeps its element when it is alone
      obtain rfl : k = 1 := by omega
      have hfold : across op f = Elem.fold op (Elem.identity d op) (f (e 0)) := htotal
      have hothers : across op (fun q => f (e q)) = f (e 0) := rfl
      rw [hfold, hothers, Elem.fold_identity_eq_iff h]
      simp [Nat.ne_of_gt hlt]

/-! ### All-reduce -/

/-- A list as a function of the index. -/
theorem eq_map_range {l : Nat} {x : List (Elem d)} (h : x.length = l) :
    x = (List.range l).map fun i => x.getD i (Elem.zero d) := by
  subst h
  apply List.ext_getElem
  · simp
  · intro i h₁ h₂
    simp [h₁]

/-- The ranks that hold the identity are not noticed if they are not noticed at any index. -/
theorem foldRanks_idle_iff [NeZero k] (h : d.isFloat = false) (e : Fin k ↪o Fin n)
    {l : Nat} {xs : Fin n → List (Elem d)} (hlen : ∀ r, (xs r).length = l)
    (hidle : ∀ r, (∀ q, e q ≠ r) → xs r = List.replicate l (Elem.identity d op)) :
    foldRanks op (List.ofFn xs) = foldRanks op (List.ofFn fun q => xs (e q)) ↔
      (op.isLogical = true → n = k ∨ 2 ≤ k ∨ ∀ a ∈ xs (e 0), a.IsBit) := by
  have : NeZero n := NeZero.of_pos (e 0).pos
  let f : Fin n → Nat → Elem d := fun r i => (xs r).getD i (Elem.zero d)
  have hxs : ∀ r, xs r = (List.range l).map (f r) := fun r => eq_map_range (hlen r)
  have hall : foldRanks op (List.ofFn xs) = (List.range l).map fun i => across op fun r => f r i :=
    (congrArg (foldRanks op ∘ List.ofFn) (funext hxs)).trans (foldRanks_ofFn op _ f)
  have hsome : foldRanks op (List.ofFn fun q => xs (e q))
      = (List.range l).map fun i => across op fun q => f (e q) i :=
    (congrArg (foldRanks op ∘ List.ofFn) (funext fun q => hxs (e q))).trans
      (foldRanks_ofFn op _ fun q => f (e q))
  -- each position is a fold of its own, to which the idle ranks add the identity
  have hindex : ∀ i ∈ List.range l, across op (fun r => f r i) = across op (fun q => f (e q) i) ↔
      (op.isLogical = true → n = k ∨ 2 ≤ k ∨ (f (e 0) i).IsBit) := by
    intro i hi
    apply across_idle_iff h e
    intro r hr
    simp only [f, hidle r hr]
    simp [List.mem_range.mp hi]
  have hbits : (∀ a ∈ xs (e 0), a.IsBit) ↔ ∀ i ∈ List.range l, (f (e 0) i).IsBit := by
    rw [hxs (e 0)]
    simp
  rw [hall, hsome, List.map_inj_left, forall₂_congr hindex, hbits]
  simp only [← or_assoc]
  constructor
  · intro hi hop
    by_cases hmany : n = k ∨ 2 ≤ k
    · exact .inl hmany
    · exact .inr fun i hmem => (hi i hmem hop).resolve_left hmany
  · intro hi i hmem hop
    exact (hi hop).imp_right fun hb => hb i hmem

/-- What is left of an all-reduce of equally long buffers of integers or truth values. -/
theorem allReduce_leaves (h : d.isFloat = false) (op : Reducer) (g : Nat) {l : Nat}
    {xs : Fin n → List (Elem d)} (hlen : ∀ r, (xs r).length = l) :
    Spmd.Runs (fun r : Fin n => (member g r n).allReduce op ⟨d, xs r⟩)
      fun _ => ([.allReduce g d l op], ⟨.ok (), ⟨d, foldRanks op (List.ofFn xs)⟩⟩) := by
  have hop : Buffer.supports op d = true := by simp [Buffer.supports, h]
  have hrun := allReduce_meets g op (b := fun r => ⟨d, xs r⟩) (afterAllReduce_eq hop hlen)
  simp only [Buffer.length, hlen] at hrun
  exact hrun

/-- **The identity of a reducer, and the ranks that hold it.**  On truth values and integers the
identity leaves the same elements alone on either side: all of them, but of a logical reducer only
one and zero.  If the ranks of a group that `e` does not name hold buffers of the identity, the
group is left with what the ranks that `e` names are left with when they are a group of their own,
for every reducer that is not logical; a logical reducer notices the others exactly if there are
some and a single rank is named, whose buffer holds an element that is neither one nor zero. -/
theorem allReduce_idle (h : d.isFloat = false) (op : Reducer) :
    (∀ a : Elem d,
      Elem.fold op a (Elem.identity d op) = Elem.fold op (Elem.identity d op) a ∧
      (Elem.fold op (Elem.identity d op) a = a ↔
        (op.isLogical = true → a = Elem.zero d ∨ a = Elem.one d))) ∧
    ∀ (k n g l : Nat) [NeZero k] (e : Fin k ↪o Fin n) (xs : Fin n → List (Elem d)),
      (∀ r, (xs r).length = l) →
      (∀ r, (∀ q, e q ≠ r) → xs r = List.replicate l (Elem.identity d op)) →
      let named := foldRanks op (List.ofFn fun q => xs (e q))
      let everyone := foldRanks op (List.ofFn xs)
      Spmd.Runs (fun q : Fin k => (member g q k).allReduce op ⟨d, xs (e q)⟩)
        (fun _ => ([.allReduce g d l op], ⟨.ok (), ⟨d, named⟩⟩)) ∧
      Spmd.Runs (fun r : Fin n => (member g r n).allReduce op ⟨d, xs r⟩)
        (fun _ => ([.allReduce g d l op], ⟨.ok (), ⟨d, everyone⟩⟩)) ∧
      (everyone = named ↔ (op.isLogical = true →
        n = k ∨ 2 ≤ k ∨ ∀ a ∈ xs (e 0), a = Elem.zero d ∨ a = Elem.one d)) := by
  refine ⟨?_, ?_⟩
  · intro a
    exact ⟨Elem.fold_comm h op _ _, Elem.fold_identity_eq_iff h op a⟩
  · intro k n g l _ e xs hlen hidle named everyone
    refine ⟨?_, ?_, ?_⟩
    · exact allReduce_leaves h op g fun q => hlen (e q)
    · exact allReduce_leaves h op g hlen
    · exact foldRanks_idle_iff h e hlen hidle

/-- Rank 1 of three holds the greatest byte, and the least of the others is found in its company;
one byte that is two is folded to one by `all` in the company of a rank that holds ones. -/
theorem allReduce_idle_bytes :
    let xs : Fin 3 → List (Elem .u8) := ![[.ofInt 3, .ofInt 9], [.ofInt 255, .ofInt 255],
      [.ofInt 7, .ofInt 4]]
    let ys : Fin 2 → List (Elem .u8) := ![[.ofInt 2], [.ofInt 1]]
    foldRanks .min (List.ofFn xs) = foldRanks .min [xs 0, xs 2] ∧
    Spmd.Runs (fun r : Fin 2 => (member 0 r 2).allReduce .all ⟨.u8, ys r⟩)
      (fun _ => ([.allReduce 0 .u8 1 .all], ⟨.ok (), ⟨.u8, [.ofInt 1]⟩⟩)) ∧
    foldRanks .all (List.ofFn ys) ≠ foldRanks .all [ys 0] := by
  intro xs ys
  have hxs : ∀ r, (∀ q, Fin.succAboveOrderEmb (1 : Fin 3) q ≠ r) →
      xs r = List.replicate 2 (Elem.identity .u8 .min) := by decide
  have hys : ∀ r, (∀ q, Fin.succAboveOrderEmb (1 : Fin 2) q ≠ r) →
      ys r = List.replicate 1 (Elem.identity .u8 .all) := by decide
  obtain ⟨-, -, hmin⟩ := (allReduce_idle (d := .u8) rfl .min).2 2 3 0 2
    (Fin.succAboveOrderEmb 1) xs (by decide) hxs
  obtain ⟨-, hrun, hall⟩ := (allReduce_idle (d := .u8) rfl .all).2 1 2 0 1
    (Fin.succAboveOrderEmb 1) ys (by decide) hys
  refine ⟨hmin.mpr nofun, hrun, ?_⟩
  exact fun heq => absurd (hall.mp heq rfl) (by decide)

end Comm

end SpmdArray
