import SpmdArray.Proofs.AxisReduction
import SpmdArray.Proofs.Entries

/-!
# Entries along an axis

The reduction of one axis folds the entries along that axis, from the first on.  It counts the
elements of the axes behind it and those of the result, which can overflow only if the tensor is
empty.

## Main definitions

* `Tensor.line?` — the entries along an axis.

## Main results

* `Tensor.line?_tabulate` — stored tensors are read along every axis.
* `Tensor.Stored.reduce_axis_entries` — what is read from a tensor of which one axis has been
  reduced.
* `Tensor.Stored.reduce_axis_succeeds_iff` — what can overflow.
* `Tensor.reduce_axis_outcome` — when the reduction of one axis succeeds, and what it gives.
-/

namespace SpmdArray

namespace Shape

/-- Moving along an axis whose extent counts only as 1 stays in the shape. -/
theorem within_set {s : Shape} {a i : Nat} {c : List Nat} (hi : i < s.getD a 1)
    (hc : Within (s.set a 1) c) : s.Within (c.set a i) := by
  obtain ⟨hlen, hlt⟩ := within_iff.mp hc
  rw [List.length_set] at hlen hlt
  refine within_iff.mpr ⟨by rw [List.length_set, hlen], fun j hj => ?_⟩
  have hj' := hlt j hj
  rw [getD_set hj] at hj'
  rw [List.getD_eq_getElem _ _ (by rwa [List.length_set, hlen]), List.getElem_set]
  split
  · next ha => rwa [← ha]
  · next ha =>
    rw [if_neg (Ne.symm ha)] at hj'
    rwa [List.getD_eq_getElem _ _ (hlen ▸ hj)] at hj'

end Shape

namespace Tensor

/-- A list of which every member has a value. -/
theorem mapM_eq_some {ι α : Type} {l : List ι} {f : ι → Option α} {g : ι → α}
    (h : ∀ i ∈ l, f i = some (g i)) : l.mapM f = some (l.map g) := by
  induction l with
  | nil => rfl
  | cons i l ih =>
    have hrest := ih fun j hj => h j (List.mem_cons_of_mem _ hj)
    rw [List.mapM_cons, h i List.mem_cons_self, hrest]
    rfl

/-- The entries along the axis `a` through the coordinate `c`, from the first on, if storage holds
all of them. -/
def line? (t : Tensor) (d : DType) (a : Nat) (c : List Nat) : Option (List (Elem d)) :=
  (List.range (t.shape.getD a 1)).mapM fun i => t.read? d (c.set a i)

variable {d : DType} {s : Shape} {t : Tensor} {f : List Nat → Elem d} {op : Reducer} {a : Nat}
  {c : List Nat}

theorem line?_tabulate (h : Shape.Within (s.set a 1) c) :
    (tabulate d s f).line? d a c
      = some ((List.range (s.getD a 1)).map fun i => f (c.set a i)) := by
  have hentry : ∀ i ∈ List.range (s.getD a 1),
      (tabulate d s f).read? d (c.set a i) = some (f (c.set a i)) := fun i hi =>
    read?_tabulate (Shape.within_set (List.mem_range.mp hi) h)
  exact mapM_eq_some hentry

/-- **What is read from a tensor of which one axis has been reduced** is the fold of the entries
along that axis. -/
theorem Stored.reduce_axis_entries (ht : t.Stored) (hop : Buffer.supports op t.dtype = true)
    (ha : a < t.ndim) (how : Grouping) :
    (∃ r, t.reduce how op (some a) = .ok r ∧ r.shape = t.shape.set a 1 ∧ r.dtype = t.dtype ∧
      r.numel = List.prod (t.shape.set a 1) ∧
      ∀ c, Shape.Within (t.shape.set a 1) c →
        ∃ xs, t.line? t.dtype a c = some xs ∧ xs.length = t.shape.getD a 1 ∧
          r.read? t.dtype c = some (xs.foldl (Elem.fold op) (Elem.identity t.dtype op))) ∨
      t.reduce how op (some a) = .error (.fault .overflow) := by
  obtain ⟨s, f, hf⟩ := ht.exists_tabulate rfl
  have hs := ht.counted
  generalize t.dtype = d at f hf hop ⊢
  subst hf
  refine (reduce_tabulate_eq_or hop ha hs).imp (fun ⟨_, hr⟩ => ?_) And.left
  exact ⟨_, hr, rfl, rfl, numel_tabulate, fun c hc =>
    ⟨_, line?_tabulate hc, by simp, read?_tabulate hc⟩⟩

/-- **What can overflow** is the number of elements of the axes behind the reduced one, or of the
result. -/
theorem Stored.reduce_axis_succeeds_iff (ht : t.Stored)
    (hop : Buffer.supports op t.dtype = true) (ha : a < t.ndim) (how : Grouping) :
    (∃ r, t.reduce how op (some a) = .ok r) ↔
      (∃ n, Shape.numel (t.shape.drop (a + 1)) = .ok n) ∧
        ∃ n, Shape.numel (t.shape.set a 1) = .ok n := by
  obtain ⟨s, f, hf⟩ := ht.exists_tabulate rfl
  have hs := ht.counted
  generalize t.dtype = d at f hf hop
  subst hf
  rw [reduce_tabulate_of_numel (s := s) hop ha hs, shape_tabulate]
  rcases Shape.numel_eq_ok_or (s.drop (a + 1)) with hinner | hinner
  · rcases Shape.numel_eq_ok_or (s.set a 1) with hset | hset
    · rw [hinner, hset, lift_ok, ok_bind, ofBuffer_tabulate hset]
      exact iff_of_true ⟨_, rfl⟩ ⟨⟨_, rfl⟩, _, rfl⟩
    · rw [hinner, hset, lift_ok, ok_bind, ofBuffer, ofBufferOn,
        show Shape.numelOn .stops (s.set a 1) = _ from hset]
      refine iff_of_false ?_ ?_
      · rintro ⟨_, h⟩
        cases h
      · rintro ⟨-, _, h⟩
        cases h
  · rw [hinner]
    refine iff_of_false ?_ ?_
    · rintro ⟨_, h⟩
      cases h
    · rintro ⟨⟨_, h⟩, -⟩
      cases h

/-- One axis of an exact tensor is reduced. -/
theorem Exact.exists_reduce_axis (ht : t.Exact) (hop : Buffer.supports op t.dtype = true)
    (ha : a < t.ndim) (how : Grouping) : ∃ r, t.reduce how op (some a) = .ok r := by
  obtain ⟨s, f, hf⟩ := ht.stored.exists_tabulate rfl
  have hsized := ht.sized
  generalize t.dtype = d at f hf hop
  subst hf
  exact ⟨_, reduce_tabulate hop ha hsized⟩

/-- **The reduction of one axis folds the entries along it**, in their order and from the identity,
and keeps the axis with extent 1.  It is refused for an axis that does not exist.  Otherwise it
succeeds exactly if the elements of the axes behind and those of the result can be counted, which is
the case for every exact tensor, and overflows if they cannot; it never reads a slice that is out of
range. -/
theorem reduce_axis_outcome (op : Reducer) (a : Nat) (how : Grouping) (ht : t.Stored)
    (hop : Buffer.supports op t.dtype = true) :
    let s : Shape := t.shape.set a 1
    (t.ndim ≤ a →
      t.reduce how op (some a) = .error (.error (.invalidAxis (Size.signed a) t.ndim))) ∧
    (a < t.ndim →
      ((∃ r, t.reduce how op (some a) = .ok r ∧ r.shape = s ∧ r.dtype = t.dtype ∧
        r.numel = s.prod ∧
        ∀ c, s.Within c → ∃ xs, t.line? t.dtype a c = some xs ∧ xs.length = t.shape.getD a 1 ∧
          r.read? t.dtype c = some (xs.foldl (Elem.fold op) (Elem.identity t.dtype op))) ∨
        t.reduce how op (some a) = .error (.fault .overflow)) ∧
      ((∃ r, t.reduce how op (some a) = .ok r) ↔
        (∃ n, Shape.numel (t.shape.drop (a + 1)) = .ok n) ∧ ∃ n, s.numel = .ok n) ∧
      (t.Exact → ∃ r, t.reduce how op (some a) = .ok r)) :=
  ⟨reduce_axis_of_ge hop, fun ha => ⟨ht.reduce_axis_entries hop ha how,
    ht.reduce_axis_succeeds_iff hop ha how, fun hexact => hexact.exists_reduce_axis hop ha how⟩⟩

/-- Four words are multiplied along the second axis, and four bits along an empty one. -/
theorem reduce_axis_outcome_four_words :
    let t : Tensor := ⟨[2, 2], ⟨.u8, [.ofInt 1, .ofInt 2, .ofInt 16, .ofInt 17]⟩⟩
    let u : Tensor := ⟨[2, 0], ⟨.bool, []⟩⟩
    (∃ r, t.reduce .block .prod (some 1) = .ok r ∧ r.shape = [2, 1] ∧
      r.read? .u8 [0, 0] = some (.ofInt 2) ∧ r.read? .u8 [1, 0] = some (.ofInt 16)) ∧
    (∃ r, u.reduce .block .all (some 1) = .ok r ∧ r.shape = [2, 1] ∧
      r.read? .bool [1, 0] = some true) ∧
    t.reduce .block .prod (some 2) = .error (.error (.invalidAxis 2 2)) := by
  intro t u
  have ht : t.Exact := ⟨rfl, (by decide : Shape.volume [2, 2] < Size.modulus)⟩
  have hu : u.Exact := ⟨rfl, (by decide : Shape.volume [2, 0] < Size.modulus)⟩
  refine ⟨?_, ?_, (reduce_axis_outcome .prod 2 .block ht.stored rfl).1 (Nat.le_refl 2)⟩
  · obtain ⟨hentries, -, hok⟩ :=
      (reduce_axis_outcome .prod 1 .block ht.stored rfl).2 (by decide)
    obtain ⟨w, hw⟩ := hok ht
    obtain ⟨r, hr, hshape, -, -, hentry⟩ := hentries.resolve_right (by rw [hw]; nofun)
    refine ⟨r, hr, hshape, ?_, ?_⟩
    · obtain ⟨xs, hxs, -, hfold⟩ := hentry [0, 0] (by simp [Shape.Within, t])
      obtain rfl : [.ofInt 1, .ofInt 2] = xs := Option.some.inj hxs
      exact hfold
    · obtain ⟨xs, hxs, -, hfold⟩ := hentry [1, 0] (by simp [Shape.Within, t])
      obtain rfl : [.ofInt 16, .ofInt 17] = xs := Option.some.inj hxs
      exact hfold.trans (congrArg some (by decide : Word.mul _ _ = Word.ofInt 16))
  · obtain ⟨hentries, -, hok⟩ :=
      (reduce_axis_outcome .all 1 .block hu.stored rfl).2 (by decide)
    obtain ⟨w, hw⟩ := hok hu
    obtain ⟨r, hr, hshape, -, -, hentry⟩ := hentries.resolve_right (by rw [hw]; nofun)
    obtain ⟨xs, hxs, -, hfold⟩ := hentry [1, 0] (by simp [Shape.Within, u])
    obtain rfl : [] = xs := Option.some.inj hxs
    exact ⟨r, hr, hshape, hfold⟩

/-- There is nothing to fold, but the elements of the axes behind cannot be counted. -/
example : (⟨[0, 3, 2 ^ 63, 2], ⟨.i64, []⟩⟩ : Tensor).reduce .block .sum (some 1)
    = .error (.fault .overflow) := by decide

end Tensor

end SpmdArray
