/-!
# Named values

The variables of a script: a list of names with their values.

## Main definitions

* `Bindings` — the list; `Bindings.get?`, `Bindings.put`, `Bindings.erase`.

## Main results

* `Bindings.get?_put`, `Bindings.get?_erase` — what a name means after a change.
-/

namespace SpmdArray

/-- Names with values. -/
abbrev Bindings (α : Type) := List (String × α)

namespace Bindings

variable {α : Type}

/-- The value of a name. -/
def get? (b : Bindings α) (name : String) : Option α := List.lookup name b

/-- Forget a name. -/
def erase (b : Bindings α) (name : String) : Bindings α := b.filter (·.1 != name)

/-- Give a name a value. -/
def put (b : Bindings α) (name : String) (a : α) : Bindings α := (name, a) :: b.erase name

theorem get?_erase (b : Bindings α) (name other : String) :
    (b.erase name).get? other = if other = name then none else b.get? other := by
  induction b with
  | nil => simp [erase, get?]
  | cons p b ih =>
    obtain ⟨k, a⟩ := p
    unfold erase get? at ih ⊢
    by_cases hk : k = name
    · subst hk
      by_cases ho : other = k
      · subst ho; simpa using ih
      · have hne : (other == k) = false := by simpa using ho
        simpa [List.lookup_cons, hne] using ih
    · have hkeep : (k != name) = true := by simpa using hk
      rw [List.filter_cons_of_pos (by simpa using hkeep), List.lookup_cons, List.lookup_cons]
      by_cases ho : other = k
      · subst ho; simp [hk]
      · have hne : (other == k) = false := by simpa using ho
        simpa [hne] using ih

theorem get?_put (b : Bindings α) (name other : String) (a : α) :
    (b.put name a).get? other = if other = name then some a else b.get? other := by
  have he := get?_erase b name other
  unfold put
  unfold get? at he ⊢
  rw [List.lookup_cons]
  by_cases h : other = name
  · subst h; simp
  · have hne : (other == name) = false := by simpa using h
    simpa [hne, h] using he

end Bindings

end SpmdArray
