import SpmdArray.Error

/-!
# Balanced chunks

An axis is shared out among the ranks of a group in contiguous chunks, in the order of
the ranks: every rank gets the quotient of extent and group size, and the first ranks
get one more as long as there is a remainder.

## Main definitions

* `Chunk` — a range of positions.
* `Chunk.balanced` — the chunk of a rank of the group.
* `Chunk.balanced?` — the same in checked arithmetic, for any rank and group size.

## Main results

* `Chunk.balanced?_eq` — the arithmetic is exact for a rank of the group.
* `Chunk.length_balanced` — the number of positions.
-/

namespace SpmdArray

/-- The positions `start..stop`. -/
structure Chunk where
  /-- The first position. -/
  start : Nat
  /-- The first position after the chunk. -/
  stop : Nat
  deriving DecidableEq, Repr

namespace Chunk

/-- Number of positions. -/
def length (c : Chunk) : Nat := c.stop - c.start

/-- The chunk of `rank` in a group of `size` ranks. -/
def balanced (extent rank size : Nat) : Chunk :=
  let base := extent / size
  let rest := extent % size
  let start := rank * base + min rank rest
  ⟨start, start + (base + if rank < rest then 1 else 0)⟩

/-- The chunk of `rank`, which nobody has in an empty group, and which a rank outside of the
group may fail to compute. -/
def balanced? (extent rank size : Nat) : Except Fault Chunk := do
  if size = 0 then throw .divisionByZero
  let base := extent / size
  let rest := extent % size
  let start ← Size.add (← Size.mul rank base) (min rank rest)
  return ⟨start, ← Size.add start (base + if rank < rest then 1 else 0)⟩

theorem balanced_start (extent rank size : Nat) :
    (balanced extent rank size).start
      = rank * (extent / size) + min rank (extent % size) := rfl

theorem balanced_stop (extent rank size : Nat) :
    (balanced extent rank size).stop
      = (balanced extent rank size).start
        + (extent / size + if rank < extent % size then 1 else 0) := rfl

theorem length_balanced (extent rank size : Nat) :
    (balanced extent rank size).length
      = extent / size + if rank < extent % size then 1 else 0 := by
  rw [length, balanced_stop, Nat.add_sub_cancel_left]

/-- The chunk of a rank of the group ends within the axis. -/
theorem balanced_stop_le {extent rank size : Nat} (hr : rank < size) :
    (balanced extent rank size).stop ≤ extent := by
  have hdiv := Nat.div_add_mod extent size
  have hmul : (rank + 1) * (extent / size) ≤ size * (extent / size) :=
    Nat.mul_le_mul_right _ hr
  rw [Nat.succ_mul] at hmul
  rw [balanced_stop, balanced_start]
  split <;> omega

/-- **The arithmetic is exact for a rank of the group.** -/
theorem balanced?_eq {extent rank size : Nat} (he : extent < Size.modulus)
    (hr : rank < size) : balanced? extent rank size = .ok (balanced extent rank size) := by
  have hstop : (balanced extent rank size).stop < Size.modulus :=
    Nat.lt_of_le_of_lt (balanced_stop_le hr) he
  have hstart : (balanced extent rank size).start < Size.modulus :=
    Nat.lt_of_le_of_lt (Nat.le_add_right ..) hstop
  have hbase : rank * (extent / size) < Size.modulus :=
    Nat.lt_of_le_of_lt (Nat.le_add_right ..) hstart
  rw [balanced_stop, balanced_start] at hstop
  rw [balanced_start] at hstart
  have hsize : size ≠ 0 := by omega
  simp only [balanced?, if_neg hsize, Size.mul_of_lt hbase, Size.add_of_lt hstart,
    Size.add_of_lt hstop, ok_bind]
  rfl

end Chunk

end SpmdArray
