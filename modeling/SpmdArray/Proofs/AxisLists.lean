import Mathlib.Data.Int.ModEq
import SpmdArray.Proofs.ExactReduction

/-!
# Lists of axes

An argument that lists axes counts them from either end, so that an axis has two names, which are
congruent modulo the number of axes.  A list is understood if each of its entries names an axis and
no two of them name the same one.  Otherwise the first entry that breaks the rule is refused: one
that is out of range as it was given, and one that names an axis again by the position of that axis.

## Main definitions

* `Axis.entries?` — the entries of an argument that lists axes.
* `Axis.Proper ndim as` — the entries name distinct axes of a tensor with `ndim` axes.
* `Axis.refusal ndim a` — the error for the first entry that breaks the rule.

## Main results

* `Axis.cast_position` — an entry is brought to its position by a remainder.
* `Axis.resolveFrom_of_broken` — the first entry that breaks the rule is refused.
* `Axis.exists_broken` — a list that is not proper has such an entry.
* `Axis.resolve_exactly` — which arguments are understood, and which error the others give.
-/

namespace SpmdArray

namespace Axis

variable {ndim : Nat} {a b : Int} {as : List Int}

/-- The entries of an argument that lists axes; `none` if it asks for all elements. -/
def entries? : Axis → Option (List Int)
  | all => none
  | single a => some [a]
  | many as => some as

/-- `InRange ndim a` says that the entry `a` names one of `ndim` axes, from either end. -/
def InRange (ndim : Nat) (a : Int) : Prop := -(ndim : Int) ≤ a ∧ a < ndim

instance (ndim : Nat) (a : Int) : Decidable (InRange ndim a) :=
  inferInstanceAs (Decidable (_ ∧ _))

/-- `Proper ndim as` says that the entries `as` name distinct axes of a tensor with `ndim` axes. -/
structure Proper (ndim : Nat) (as : List Int) : Prop where
  /-- Each entry names an axis. -/
  inRange : ∀ a ∈ as, InRange ndim a
  /-- No two entries name the same axis. -/
  distinct : as.Pairwise fun a b => ¬ a ≡ b [ZMOD ndim]

/-- The error for an entry that is out of range, or names an axis that was named before. -/
def refusal (ndim : Nat) (a : Int) : Error :=
  if InRange ndim a then .duplicateAxis (a % ndim).toNat else .invalidAxis a ndim

/-! ### Positions -/

/-- **An entry is brought to its position by a remainder.** -/
theorem cast_position (h : InRange ndim a) : (position ndim a : Int) = a % ndim := by
  obtain ⟨hlo, hhi⟩ := h
  unfold position
  by_cases hneg : a < 0
  · rw [if_pos hneg, Int.toNat_of_nonneg (by omega), ← Int.add_emod_right,
      Int.emod_eq_of_lt (by omega) (by omega)]
  · rw [if_neg hneg, Int.toNat_of_nonneg (by omega), Int.emod_eq_of_lt (by omega) hhi]

theorem position_lt (h : InRange ndim a) : position ndim a < ndim := by
  have hpos : (0 : Int) < ndim := by
    obtain ⟨hlo, hhi⟩ := h
    omega
  have hlt := Int.emod_lt_of_pos a hpos
  rw [← cast_position h] at hlt
  omega

/-- Two entries name the same axis if they are congruent. -/
theorem position_eq_iff (ha : InRange ndim a) (hb : InRange ndim b) :
    position ndim a = position ndim b ↔ a ≡ b [ZMOD ndim] := by
  rw [Int.ModEq, ← cast_position ha, ← cast_position hb, Int.natCast_inj]

/-! ### Proper lists -/

theorem proper_nil (ndim : Nat) : Proper ndim [] where
  inRange := by simp
  distinct := .nil

/-- A proper list goes on with an entry that names another axis. -/
theorem proper_concat : Proper ndim (as ++ [a]) ↔
    Proper ndim as ∧ InRange ndim a ∧ ∀ b ∈ as, ¬ b ≡ a [ZMOD ndim] := by
  constructor
  · intro h
    obtain ⟨hfirst, -, hlast⟩ := List.pairwise_append.mp h.distinct
    have hin : ∀ b ∈ as, InRange ndim b := by
      intro b hb
      exact h.inRange b (by simp [hb])
    exact ⟨⟨hin, hfirst⟩, h.inRange a (by simp), by simpa using hlast⟩
  · rintro ⟨h, ha, hnew⟩
    constructor
    · intro b hb
      rcases List.mem_append.mp hb with hb | hb
      · exact h.inRange b hb
      · rwa [List.mem_singleton.mp hb]
    · refine List.pairwise_append.mpr ⟨h.distinct, List.pairwise_singleton _ _, ?_⟩
      simpa using hnew

namespace Proper

theorem nodup_position (h : Proper ndim as) : (as.map (position ndim)).Nodup := by
  rw [List.Nodup, List.pairwise_map]
  refine h.distinct.imp_of_mem ?_
  intro a b ha hb hne heq
  exact hne ((position_eq_iff (h.inRange a ha) (h.inRange b hb)).mp heq)

/-- The positions are the remainders, in the order given. -/
theorem map_position (h : Proper ndim as) :
    (as.map (position ndim)).map (fun p : Nat => (p : Int)) = as.map (· % (ndim : Int)) := by
  rw [List.map_map]
  refine List.map_congr_left ?_
  intro a ha
  exact cast_position (h.inRange a ha)

/-- A proper list is understood. -/
theorem resolves (h : Proper ndim as) :
    resolveFrom ndim [] as = .ok (as.map (position ndim)) :=
  resolveFrom_eq h.inRange h.nodup_position

end Proper

/-! ### The first entry that breaks the rule -/

theorem resolveFrom_append (ndim : Nat) (seen : List Nat) (as bs : List Int) :
    resolveFrom ndim seen (as ++ bs)
      = resolveFrom ndim seen as >>= fun seen' => resolveFrom ndim seen' bs := by
  induction as generalizing seen with
  | nil => rfl
  | cons a as ih =>
    rw [List.cons_append]
    cases hp : normalize ndim a with
    | error e =>
      rw [resolveFrom_cons_of_error hp, resolveFrom_cons_of_error hp]
      rfl
    | ok p =>
      rw [resolveFrom_cons_of_ok hp, resolveFrom_cons_of_ok hp]
      by_cases hseen : p ∈ seen
      · simp only [hseen, if_true]
        rfl
      · simp only [hseen, if_false]
        exact ih _

/-- **The first entry that breaks the rule is refused**, whatever follows it. -/
theorem resolveFrom_of_broken (h : Proper ndim as) (hbroken : ¬ Proper ndim (as ++ [a]))
    (bs : List Int) : resolveFrom ndim [] (as ++ a :: bs) = .error (refusal ndim a) := by
  rw [resolveFrom_append, h.resolves]
  show resolveFrom ndim (as.map (position ndim)) (a :: bs) = _
  by_cases ha : InRange ndim a
  · -- the entry names an axis, so the axis was named before
    have hmem : position ndim a ∈ as.map (position ndim) := by
      by_contra hnew
      refine hbroken (proper_concat.mpr ⟨h, ha, ?_⟩)
      intro b hb hcongr
      rw [← position_eq_iff (h.inRange b hb) ha] at hcongr
      exact hnew (hcongr ▸ List.mem_map_of_mem hb)
    rw [resolveFrom_cons_of_ok (normalize_eq ha), if_pos hmem, refusal, if_pos ha,
      ← cast_position ha, Int.toNat_natCast]
  · have hout : a < -(ndim : Int) ∨ (ndim : Int) ≤ a := by
      unfold InRange at ha
      omega
    rw [resolveFrom_cons_of_error (normalize_of_invalid hout), refusal, if_neg ha]

/-- **A list that is not proper has an entry that breaks the rule first.** -/
theorem exists_broken (h : ¬ Proper ndim as) :
    ∃ i a, as[i]? = some a ∧ Proper ndim (as.take i) ∧ ¬ Proper ndim (as.take (i + 1)) := by
  induction as using List.reverseRecOn with
  | nil => exact absurd (proper_nil ndim) h
  | append_singleton as b ih =>
    by_cases has : Proper ndim as
    · have hall : (as ++ [b]).take (as.length + 1) = as ++ [b] := List.take_of_length_le (by simp)
      exact ⟨as.length, b, by simp, by simpa using has, by rwa [hall]⟩
    · obtain ⟨i, a, hi, hproper, hbroken⟩ := ih has
      have hlt : i < as.length := (List.getElem?_eq_some_iff.mp hi).1
      refine ⟨i, a, ?_, ?_, ?_⟩
      · rw [List.getElem?_append_left hlt, hi]
      · rwa [List.take_append_of_le_length (by omega)]
      · rwa [List.take_append_of_le_length (by omega)]

/-! ### Arguments -/

theorem resolve_of_entries {axis : Axis} (h : axis.entries? = some as) (s : Shape) :
    axis.resolve s = some <$> resolveFrom s.ndim [] as := by
  cases axis with
  | all => cases h
  | single a => cases h; rfl
  | many bs => cases h; rfl

theorem resolve_of_proper {axis : Axis} {s : Shape} (h : axis.entries? = some as)
    (hproper : Proper s.ndim as) : axis.resolve s = .ok (some (as.map (position s.ndim))) := by
  rw [resolve_of_entries h, hproper.resolves]
  rfl

theorem resolve_of_broken {axis : Axis} {s : Shape} (h : axis.entries? = some as) {i : Nat}
    (ha : as[i]? = some a) (hproper : Proper s.ndim (as.take i))
    (hbroken : ¬ Proper s.ndim (as.take (i + 1))) :
    axis.resolve s = .error (refusal s.ndim a) := by
  have hsplit : as.take i ++ a :: as.drop (i + 1) = as := by
    obtain ⟨hlt, rfl⟩ := List.getElem?_eq_some_iff.mp ha
    rw [← List.drop_eq_getElem_cons hlt, List.take_append_drop]
  have hnext : as.take (i + 1) = as.take i ++ [a] := by
    rw [List.take_add_one, ha]
    rfl
  have hrefused := resolveFrom_of_broken hproper (hnext ▸ hbroken) (as.drop (i + 1))
  rw [hsplit] at hrefused
  rw [resolve_of_entries h, hrefused]
  rfl

/-- **Which arguments are understood, and which error the others give.**  An argument that lists
axes is understood if and only if each entry names an axis and no two entries are congruent modulo
the number of axes; then it stands for the remainders of the entries, in the order given.  Otherwise
there is a first position at which the entries so far break the rule, and the entry there is
refused: with the entry itself and the number of axes if it is out of range, and with its remainder
if it is not. -/
theorem resolve_exactly {axis : Axis} (h : axis.entries? = some as) (s : Shape) :
    ((∃ v, axis.resolve s = .ok (some v)) ↔ Proper s.ndim as) ∧
    (∀ r, axis.resolve s = .ok r →
      ∃ v, r = some v ∧ v.map (fun p : Nat => (p : Int)) = as.map (· % (s.ndim : Int)) ∧
        v.Nodup ∧ ∀ p ∈ v, p < s.ndim) ∧
    (∀ i a, as[i]? = some a → Proper s.ndim (as.take i) → ¬ Proper s.ndim (as.take (i + 1)) →
      (¬ InRange s.ndim a → axis.resolve s = .error (.invalidAxis a s.ndim)) ∧
      (InRange s.ndim a →
        axis.resolve s = .error (.duplicateAxis (a % (s.ndim : Int)).toNat))) ∧
    (¬ Proper s.ndim as → ∃ i a, as[i]? = some a ∧ Proper s.ndim (as.take i) ∧
      ¬ Proper s.ndim (as.take (i + 1))) := by
  -- a list that is not proper is refused at the entry that breaks it
  have honly : ∀ r, axis.resolve s = .ok r → Proper s.ndim as := by
    intro r hr
    by_contra hproper
    obtain ⟨i, a, ha, hbefore, hbroken⟩ := exists_broken hproper
    rw [resolve_of_broken h ha hbefore hbroken] at hr
    cases hr
  refine ⟨⟨?_, ?_⟩, ?_, ?_, exists_broken⟩
  · rintro ⟨v, hv⟩
    exact honly _ hv
  · intro hproper
    exact ⟨_, resolve_of_proper h hproper⟩
  · intro r hr
    have hproper := honly r hr
    rw [resolve_of_proper h hproper] at hr
    cases hr
    refine ⟨_, rfl, hproper.map_position, hproper.nodup_position, ?_⟩
    intro p hp
    obtain ⟨a, ha, rfl⟩ := List.mem_map.mp hp
    exact position_lt (hproper.inRange a ha)
  · intro i a ha hbefore hbroken
    have hrefused := resolve_of_broken h ha hbefore hbroken
    refine ⟨?_, ?_⟩
    · intro hout
      rw [hrefused, refusal, if_neg hout]
    · intro hin
      rw [hrefused, refusal, if_pos hin]

/-- Of three axes, the first and the second are named from either end; the last is named twice
before an entry that is out of range, and no axis follows it. -/
theorem resolve_exactly_three_axes :
    (∃ v, (many [0, -2]).resolve [2, 3, 4] = .ok (some v) ∧
      v.map (fun p : Nat => (p : Int)) = [0, 1]) ∧
    (many [2, -1, 7]).resolve [2, 3, 4] = .error (.duplicateAxis 2) ∧
    (single 3).resolve [2, 3, 4] = .error (.invalidAxis 3 3) := by
  refine ⟨?_, ?_, ?_⟩
  · have h := @resolve_exactly [0, -2] (many [0, -2]) rfl [2, 3, 4]
    have hproper : Proper 3 [0, -2] := ⟨by decide, by decide⟩
    obtain ⟨v, hv⟩ := h.1.mpr hproper
    obtain ⟨w, hw, hmap, -⟩ := h.2.1 _ hv
    cases hw
    exact ⟨v, hv, hmap⟩
  · have hproper : Proper 3 [2] := ⟨by decide, by decide⟩
    have hbroken : ¬ Proper 3 [2, -1] := fun h => absurd h.distinct (by decide)
    exact ((@resolve_exactly [2, -1, 7] (many [2, -1, 7]) rfl [2, 3, 4]).2.2.1
      1 (-1) rfl hproper hbroken).2 (by decide)
  · have hbroken : ¬ Proper 3 [3] := fun h => absurd h.inRange (by decide)
    exact ((@resolve_exactly [3] (single 3) rfl [2, 3, 4]).2.2.1
      0 3 rfl (proper_nil 3) hbroken).1 (by decide)

end Axis

end SpmdArray
