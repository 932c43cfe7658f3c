/-!
# Machine sizes

Extents, offsets, lengths and ranks are 64-bit words, represented by natural numbers
below `Size.modulus`.  A sum or product of sizes that no word holds ends the program of
the rank that computes it.  A machine without overflow checks goes on with its residue
modulo `Size.modulus` instead; the functions that make tensors can be asked for either
behaviour.

## Main definitions

* `Fault` — preconditions of the machine that an operation may break.
* `Overflow` — the two ways to treat a number that is no size.
* `Size.store o n` — the size that `n` becomes when it is stored in a word.
* `Size.add`, `Size.mul` — checked operations on sizes; `Size.product` multiplies a list.
* `Size.signed`, `Size.unsigned` — the same word read with and without a sign.

## Main results

* `Size.store_of_lt`, `Size.add_of_lt`, `Size.mul_of_lt` — nothing goes wrong as long as
  the exact result is a size.
-/

namespace SpmdArray

/-- Preconditions of the machine that an operation may break. -/
inductive Fault where
  /-- An index lies outside a block of storage or a list of axes. -/
  | outOfRange
  /-- A size is divided by zero. -/
  | divisionByZero
  /-- A list is asked to have a negative length. -/
  | negativeLength
  /-- A sum or product is not held by a word. -/
  | overflow
  deriving DecidableEq, Repr

/-- What a machine does with a number of elements that is no size. -/
inductive Overflow where
  /-- It ends the program. -/
  | stops
  /-- It keeps the residue modulo `Size.modulus`. -/
  | wraps
  deriving DecidableEq, Repr

/-! ### Computations that may fail -/

section Except

variable {ε α β : Type}

@[simp] theorem ok_bind (a : α) (f : α → Except ε β) : (Except.ok a >>= f) = f a := rfl

@[simp] theorem error_bind (e : ε) (f : α → Except ε β) :
    (Except.error e >>= f) = .error e := rfl

theorem pure_eq_ok (a : α) : (pure a : Except ε α) = .ok a := rfl

/-- Both steps of a successful computation succeed. -/
theorem bind_eq_ok {x : Except ε α} {f : α → Except ε β} {b : β} (h : x >>= f = .ok b) :
    ∃ a, x = .ok a ∧ f a = .ok b := by
  cases x with
  | ok a => exact ⟨a, rfl, h⟩
  | error e => cases h

end Except

/-! ### Sizes -/

namespace Size

/-- The number of distinct sizes. -/
def modulus : Nat := 1 <<< 64

/-- The word that the number `n` is stored in, if the machine treats overflow as `o`. -/
def store (o : Overflow) (n : Nat) : Except Fault Nat :=
  match o with
  | .stops => if n < modulus then return n else throw .overflow
  | .wraps => return n % modulus

/-- Checked sum of two sizes. -/
def add (a b : Nat) : Except Fault Nat := store .stops (a + b)

/-- Checked product of two sizes. -/
def mul (a b : Nat) : Except Fault Nat := store .stops (a * b)

/-- Product of a list of sizes, from the first to the last. -/
def product (o : Overflow) (ns : List Nat) : Except Fault Nat :=
  ns.foldlM (fun p n => store o (p * n)) 1

/-- `signed n` reads the word `n` as a two's complement number, so that sizes from
`2 ^ 63` on appear negative. -/
def signed (n : Nat) : Int := (n : Int).bmod modulus

/-- `unsigned i` is the word of the number `i` read as a size, so that negative numbers
become great ones. -/
def unsigned (i : Int) : Nat := (i % modulus).toNat

theorem store_of_lt {n : Nat} (h : n < modulus) (o : Overflow) : store o n = .ok n := by
  cases o with
  | stops => exact if_pos h
  | wraps => exact congrArg Except.ok (Nat.mod_eq_of_lt h)

theorem store_of_le {n : Nat} (h : modulus ≤ n) : store .stops n = .error .overflow :=
  if_neg (Nat.not_lt.mpr h)

theorem store_eq_ok_iff {n m : Nat} : store .stops n = .ok m ↔ n < modulus ∧ m = n := by
  rcases Nat.lt_or_ge n modulus with h | h
  · rw [store_of_lt h, Except.ok.injEq, eq_comm]
    simp [h]
  · rw [store_of_le h]
    simp [Nat.not_lt.mpr h]

theorem add_of_lt {a b : Nat} (h : a + b < modulus) : add a b = .ok (a + b) :=
  store_of_lt h .stops

theorem mul_of_lt {a b : Nat} (h : a * b < modulus) : mul a b = .ok (a * b) :=
  store_of_lt h .stops

end Size

end SpmdArray
