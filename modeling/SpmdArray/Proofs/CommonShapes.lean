import SpmdArray.Proofs.Entries

/-!
# Common shapes

Repetition orders shapes: a shape lies below all shapes to which it broadcasts.  Seen from the last
axis on, extent 1 lies below every extent, and two other extents are comparable only if they are
equal.  The shape that two shapes broadcast to is the least one above both, and it exists as soon as
there is any shape above both.  So broadcasting is commutative, idempotent and associative, and does
not see where the brackets are when it fails.

## Main definitions

* `Shape.fromEnd` — the extent along an axis that is counted from the end.
* `Shape.LeastTarget l s` — `s` is the least shape to which all shapes of `l` broadcast.

## Main results

* `Shape.broadcastsTo_refl`, `Shape.BroadcastsTo.trans`, `Shape.BroadcastsTo.antisymm` — repetition
  is an order.
* `Shape.broadcast_eq_some_iff_leastTarget` — the common shape is the least target.
* `Shape.broadcast_assoc` — brackets do not matter.
* `Tensor.broadcasting_algebra` — the laws, and what they mean for tensors.
-/

namespace SpmdArray

namespace Shape

variable {a b c s t : Shape}

/-! ### Axes counted from the end -/

/-- The extent along the axis that stands `i` places before the last one; missing axes have
extent 1. -/
def fromEnd (s : Shape) (i : Nat) : Nat := s.reverse.getD i 1

theorem fromEnd_of_le {i : Nat} (h : s.length ≤ i) : s.fromEnd i = 1 :=
  List.getD_eq_default _ _ (by simpa using h)

theorem ext_fromEnd (hlen : s.length = t.length) (h : ∀ i, s.fromEnd i = t.fromEnd i) : s = t := by
  apply List.reverse_injective
  apply List.ext_getElem (by simpa using hlen)
  intro i h₁ h₂
  have hi := h i
  rwa [fromEnd, fromEnd, List.getD_eq_getElem _ _ h₁, List.getD_eq_getElem _ _ h₂] at hi

/-- **Broadcasting, axis by axis from the end.** -/
theorem broadcast_eq_some_iff_fromEnd :
    a.broadcast b = some s ↔ s.length = max a.length b.length ∧
      ∀ i, broadcastExtent (a.fromEnd i) (b.fromEnd i) = some (s.fromEnd i) := by
  rw [broadcast_eq_some_iff_reversed, broadcastReversed_eq_some_iff]
  simp only [List.length_reverse]
  refine and_congr_right fun hlen => ?_
  constructor
  · intro h i
    rcases Nat.lt_or_ge i s.length with hi | hi
    · exact h i hi
    · -- all three shapes have ended
      rw [fromEnd_of_le (by omega), fromEnd_of_le (by omega), fromEnd_of_le hi]
      exact broadcastExtent_self 1
  · intro h i _
    exact h i

theorem broadcastsTo_iff_fromEnd :
    a.BroadcastsTo s ↔ a.length ≤ s.length ∧ ∀ i, a.fromEnd i = 1 ∨ a.fromEnd i = s.fromEnd i := by
  rw [← broadcast_self_iff, broadcast_eq_some_iff_fromEnd]
  refine and_congr (by omega) (forall_congr' fun i => ?_)
  rw [broadcastExtent_eq_some_iff]
  omega

/-! ### Extents -/

/-- Two extents below a third one have a common extent. -/
theorem exists_broadcastExtent {x y z : Nat} (hx : x = 1 ∨ x = z) (hy : y = 1 ∨ y = z) :
    ∃ e, broadcastExtent x y = some e := by
  rcases hx with rfl | rfl
  · exact ⟨y, broadcastExtent_one_left y⟩
  · rcases hy with rfl | rfl
    · exact ⟨x, broadcastExtent_one_right x⟩
    · exact ⟨y, broadcastExtent_self y⟩

/-- The common extent lies below all extents above the two. -/
theorem broadcastExtent_least {x y z e : Nat} (h : broadcastExtent x y = some e)
    (hx : x = 1 ∨ x = z) (hy : y = 1 ∨ y = z) : e = 1 ∨ e = z := by
  have hcases := broadcastExtent_eq_some_iff.mp h
  omega

/-- Shapes that agree along each axis broadcast. -/
theorem exists_broadcastReversed {x y : List Nat}
    (h : ∀ i, ∃ e, broadcastExtent (x.getD i 1) (y.getD i 1) = some e) :
    ∃ z, broadcastReversed x y = some z := by
  induction x generalizing y with
  | nil => exact ⟨y, rfl⟩
  | cons e x ih =>
    cases y with
    | nil => exact ⟨e :: x, rfl⟩
    | cons e' y =>
      obtain ⟨f, hf⟩ := h 0
      obtain ⟨z, hz⟩ := ih fun i => by simpa using h (i + 1)
      rw [List.getD_cons_zero, List.getD_cons_zero] at hf
      exact ⟨f :: z, by simp [broadcastReversed, hf, hz]⟩

/-! ### The order of shapes -/

theorem broadcastsTo_refl (s : Shape) : s.BroadcastsTo s :=
  broadcastsTo_iff_fromEnd.mpr ⟨Nat.le_refl _, fun _ => .inr rfl⟩

theorem nil_broadcastsTo (s : Shape) : BroadcastsTo [] s :=
  broadcastsTo_iff_fromEnd.mpr ⟨Nat.zero_le _, fun _ => .inl (fromEnd_of_le (Nat.zero_le _))⟩

theorem BroadcastsTo.trans (hab : a.BroadcastsTo b) (hbc : b.BroadcastsTo c) :
    a.BroadcastsTo c := by
  obtain ⟨hlen, hext⟩ := broadcastsTo_iff_fromEnd.mp hab
  obtain ⟨hlen', hext'⟩ := broadcastsTo_iff_fromEnd.mp hbc
  refine broadcastsTo_iff_fromEnd.mpr ⟨Nat.le_trans hlen hlen', ?_⟩
  intro i
  have := hext i
  have := hext' i
  omega

theorem BroadcastsTo.antisymm (hab : a.BroadcastsTo b) (hba : b.BroadcastsTo a) : a = b := by
  obtain ⟨hlen, hext⟩ := broadcastsTo_iff_fromEnd.mp hab
  obtain ⟨hlen', hext'⟩ := broadcastsTo_iff_fromEnd.mp hba
  apply ext_fromEnd (Nat.le_antisymm hlen hlen')
  intro i
  have := hext i
  have := hext' i
  omega

/-- Shapes with a shape above both broadcast. -/
theorem exists_broadcast (ha : a.BroadcastsTo t) (hb : b.BroadcastsTo t) :
    ∃ s, a.broadcast b = some s := by
  have haxes : ∀ i, ∃ e, broadcastExtent (a.reverse.getD i 1) (b.reverse.getD i 1) = some e :=
    fun i => exists_broadcastExtent ((broadcastsTo_iff_fromEnd.mp ha).2 i)
      ((broadcastsTo_iff_fromEnd.mp hb).2 i)
  obtain ⟨z, hz⟩ := exists_broadcastReversed haxes
  exact ⟨z.reverse, by rw [broadcast, hz, Option.map_some]⟩

/-- Their common shape lies below that shape. -/
theorem broadcastsTo_of_broadcast (h : a.broadcast b = some s) (ha : a.BroadcastsTo t)
    (hb : b.BroadcastsTo t) : s.BroadcastsTo t := by
  obtain ⟨hlen, hext⟩ := broadcast_eq_some_iff_fromEnd.mp h
  obtain ⟨hlena, hexta⟩ := broadcastsTo_iff_fromEnd.mp ha
  obtain ⟨hlenb, hextb⟩ := broadcastsTo_iff_fromEnd.mp hb
  refine broadcastsTo_iff_fromEnd.mpr ⟨by omega, ?_⟩
  intro i
  exact broadcastExtent_least (hext i) (hexta i) (hextb i)

/-! ### Least targets -/

/-- `LeastTarget l s` says that all shapes of `l` broadcast to `s`, and that `s` broadcasts to every
other shape to which they all broadcast. -/
def LeastTarget (l : List Shape) (s : Shape) : Prop :=
  (∀ a ∈ l, a.BroadcastsTo s) ∧ ∀ t, (∀ a ∈ l, a.BroadcastsTo t) → s.BroadcastsTo t

theorem LeastTarget.unique {l : List Shape} (hs : LeastTarget l s) (ht : LeastTarget l t) : s = t :=
  (hs.2 t ht.1).antisymm (ht.2 s hs.1)

theorem leastTarget_perm {l m : List Shape} (h : l.Perm m) :
    LeastTarget l s ↔ LeastTarget m s := by
  simp only [LeastTarget, h.mem_iff]

/-- **The common shape of two shapes** can stand for both of them. -/
theorem leastTarget_cons_cons {l : List Shape} :
    LeastTarget (a :: b :: l) s ↔ ∃ u, a.broadcast b = some u ∧ LeastTarget (u :: l) s := by
  have hmem : ∀ u t, a.broadcast b = some u →
      ((∀ d ∈ a :: b :: l, d.BroadcastsTo t) ↔ ∀ d ∈ u :: l, d.BroadcastsTo t) := by
    intro u t hu
    simp only [List.forall_mem_cons, ← and_assoc]
    refine and_congr_left fun _ => ⟨?_, ?_⟩
    · rintro ⟨ha, hb⟩
      exact broadcastsTo_of_broadcast hu ha hb
    · intro ht
      exact ⟨(broadcastsTo_left hu).trans ht, (broadcastsTo_right hu).trans ht⟩
  constructor
  · intro h
    obtain ⟨u, hu⟩ := exists_broadcast (h.1 a (by simp)) (h.1 b (by simp))
    exact ⟨u, hu, (hmem u s hu).mp h.1, fun t ht => h.2 t ((hmem u t hu).mpr ht)⟩
  · rintro ⟨u, hu, h⟩
    exact ⟨(hmem u s hu).mpr h.1, fun t ht => h.2 t ((hmem u t hu).mp ht)⟩

theorem leastTarget_singleton : LeastTarget [a] s ↔ a = s := by
  constructor
  · intro h
    exact (h.1 a (by simp)).antisymm (h.2 a (by simpa using broadcastsTo_refl a))
  · rintro rfl
    exact ⟨by simpa using broadcastsTo_refl a, fun t ht => ht a (by simp)⟩

/-- **The common shape is the least target.** -/
theorem broadcast_eq_some_iff_leastTarget : a.broadcast b = some s ↔ LeastTarget [a, b] s := by
  simp only [leastTarget_cons_cons, leastTarget_singleton, exists_eq_right]

/-- **Brackets do not matter**, neither for the common shape of three shapes nor for whether there
is one. -/
theorem broadcast_assoc (a b c : Shape) :
    ((a.broadcast b).bind fun s => s.broadcast c)
      = (b.broadcast c).bind fun s => a.broadcast s := by
  have hleast : ∀ a b c s : Shape, ((a.broadcast b).bind fun u => u.broadcast c) = some s ↔
      LeastTarget [a, b, c] s := by
    intro a b c s
    rw [Option.bind_eq_some_iff, leastTarget_cons_cons]
    simp only [broadcast_eq_some_iff_leastTarget]
  have hcomm : (fun s => a.broadcast s) = fun s : Shape => s.broadcast a :=
    funext fun s => broadcast_comm a s
  apply Option.ext
  intro s
  have hperm : [a, b, c].Perm [b, c, a] := (List.perm_append_singleton a [b, c]).symm
  rw [hcomm, hleast, hleast]
  exact leastTarget_perm hperm

theorem broadcast_self (a : Shape) : a.broadcast a = some a :=
  broadcast_self_iff.mpr (broadcastsTo_refl a)

theorem nil_broadcast (a : Shape) : broadcast [] a = some a :=
  broadcast_self_iff.mpr (nil_broadcastsTo a)

end Shape

/-! ### Tensors -/

namespace Tensor

/-- **The algebra of broadcasting.**  The common shape of two shapes does not depend on their order,
a shape broadcasts to itself and the shape without axes to every shape, and brackets do not matter,
also where shapes do not broadcast.  The common shape is the least one to which both shapes
broadcast; where it does not exist, the shapes broadcast to no shape at all.  A tensor is refused
exactly by the shapes to which its shape does not broadcast.  It is brought to all others, unless
something overflows on the way to a shape whose volume is no size. -/
theorem broadcasting_algebra (a b c : Shape) (x : Tensor) :
    a.broadcast b = b.broadcast a ∧
    a.broadcast a = some a ∧
    (Shape.broadcast [] a = some a ∧ a.broadcast [] = some a) ∧
    ((a.broadcast b).bind fun s => s.broadcast c) = (b.broadcast c).bind (fun s => a.broadcast s) ∧
    (∀ s, a.broadcast b = some s →
      commonShape a b = .ok s ∧ a.BroadcastsTo s ∧ b.BroadcastsTo s ∧
        ∀ t, a.BroadcastsTo t → b.BroadcastsTo t → s.BroadcastsTo t) ∧
    (a.broadcast b = none →
      commonShape a b = .error (.error (.cannotBroadcast a b)) ∧
        ∀ t, ¬ (a.BroadcastsTo t ∧ b.BroadcastsTo t)) ∧
    ∀ t : Shape,
      (x.Stored → x.shape.BroadcastsTo t →
        ((∃ r, x.broadcastTo t = .ok r ∧ r.shape = t) ∨
          x.broadcastTo t = .error (.fault .overflow)) ∧
        (t.volume < Size.modulus → ∃ r, x.broadcastTo t = .ok r ∧ r.shape = t)) ∧
      (¬ x.shape.BroadcastsTo t →
        x.broadcastTo t = .error (.error (.cannotBroadcast x.shape t))) := by
  refine ⟨Shape.broadcast_comm a b, Shape.broadcast_self a, ?_, Shape.broadcast_assoc a b c, ?_, ?_,
    ?_⟩
  · exact ⟨Shape.nil_broadcast a, (Shape.broadcast_comm a []).trans (Shape.nil_broadcast a)⟩
  · intro s h
    exact ⟨commonShape_of_eq_some h, Shape.broadcastsTo_left h, Shape.broadcastsTo_right h,
      fun _ => Shape.broadcastsTo_of_broadcast h⟩
  · intro h
    refine ⟨commonShape_of_eq_none h, ?_⟩
    rintro t ⟨ha, hb⟩
    obtain ⟨s, hs⟩ := Shape.exists_broadcast ha hb
    rw [h] at hs
    cases hs
  · intro t
    refine ⟨fun hx h => ⟨?_, fun ht => ?_⟩, broadcastTo_of_not⟩
    · exact (hx.broadcastTo_eq_or h).imp (fun ⟨_, hr⟩ => ⟨_, hr, rfl⟩) And.left
    · exact ⟨_, (hx.exact_of_broadcastsTo h ht).broadcastTo_eq ht h, rfl⟩

/-- A column of two entries and a row of three have a table as their common shape, also in a stack
of four; an extent 0 has nothing in common with an extent 2. -/
theorem broadcasting_algebra_two_words :
    let x : Tensor := ⟨[2, 1], ⟨.u8, [.ofInt 3, .ofInt 4]⟩⟩
    Shape.broadcast [2, 1] [3] = some [2, 3] ∧
    (∃ r, x.broadcastTo [2, 3] = .ok r ∧ r.shape = [2, 3]) ∧
    Shape.BroadcastsTo [2, 3] [4, 2, 3] ∧
    (∀ t, ¬ (Shape.BroadcastsTo [0] t ∧ Shape.BroadcastsTo [2] t)) ∧
    x.broadcastTo [2] = .error (.error (.cannotBroadcast [2, 1] [2])) := by
  intro x
  obtain ⟨-, -, -, -, hleast, -, htensor⟩ := broadcasting_algebra [2, 1] [3] [4, 1, 1] x
  obtain ⟨-, -, -, -, -, hnone, -⟩ := broadcasting_algebra [0] [2] [] x
  have hx : x.Stored := ⟨rfl, (by decide : ∀ e ∈ [2, 1], e < Size.modulus)⟩
  have hcommon : Shape.broadcast [2, 1] [3] = some [2, 3] := by decide
  obtain ⟨-, hcolumn, -, habove⟩ := hleast [2, 3] hcommon
  refine ⟨hcommon, ((htensor [2, 3]).1 hx hcolumn).2 (by decide), ?_, (hnone (by decide)).2, ?_⟩
  · exact habove [4, 2, 3] (Shape.broadcast_self_iff.mp (by decide))
      (Shape.broadcast_self_iff.mp (by decide))
  · apply (htensor [2]).2
    rw [← Shape.broadcast_self_iff]
    decide

end Tensor

end SpmdArray
