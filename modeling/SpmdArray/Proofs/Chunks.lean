import SpmdArray.Proofs.RoundTrip

/-!
# Balanced partitions

The chunks of the ranks of a group follow each other without gaps, from the first position of the
axis to the last one, so that every position belongs to exactly one rank.  The ranks in front have
at most one position more than the ranks behind them.  The chunk of a rank is computed in machine
sizes, but no sum or product on the way exceeds the extent of the axis, so nothing overflows.

## Main results

* `Chunk.steps_le` — the numbers that are computed on the way.
* `Chunk.stop_eq_start` — a chunk begins where the one before it ends.
* `Chunk.existsUnique_rank` — every position belongs to one rank.
* `Chunk.balanced_partition` — all of it.
-/

namespace SpmdArray

namespace Chunk

variable {extent size r q : Nat}

/-! ### Nothing overflows -/

/-- The sums and products on the way to the chunk of a rank stay on the axis. -/
theorem steps_le (extent : Nat) (hr : r < size) :
    r * (extent / size) ≤ extent ∧
    r * (extent / size) + min r (extent % size) ≤ extent ∧
    (extent / size + if r < extent % size then 1 else 0) ≤ extent ∧
    r * (extent / size) + min r (extent % size)
      + (extent / size + if r < extent % size then 1 else 0) ≤ extent := by
  have hdiv : size * (extent / size) + extent % size = extent := Nat.div_add_mod extent size
  -- the chunks up to this one hold as many whole shares as there are ranks up to this one
  have hshares : (r + 1) * (extent / size) ≤ size * (extent / size) := Nat.mul_le_mul_right _ hr
  rw [Nat.succ_mul] at hshares
  generalize extent / size = share at hdiv hshares ⊢
  refine ⟨by omega, by omega, ?_, ?_⟩
  · split <;> omega
  · split <;> omega

theorem start_add_length (extent r size : Nat) :
    (balanced extent r size).start + (balanced extent r size).length
      = (balanced extent r size).stop := by
  rw [length_balanced, balanced_stop]

/-! ### One after the other -/

/-- A chunk begins where the one before it ends. -/
theorem stop_eq_start (extent r size : Nat) :
    (balanced extent r size).stop = (balanced extent (r + 1) size).start := by
  rw [balanced_stop, balanced_start, balanced_start, Nat.succ_mul]
  split <;> omega

/-- The last chunk ends with the axis. -/
theorem stop_last (extent : Nat) (hs : 0 < size) :
    (balanced extent (size - 1) size).stop = extent := by
  have hmod : extent % size < size := Nat.mod_lt extent hs
  have hshares : (size - 1) * (extent / size) + extent / size = size * (extent / size) := by
    rw [← Nat.succ_mul, Nat.succ_eq_add_one, Nat.sub_add_cancel hs]
  have hdiv : size * (extent / size) + extent % size = extent := Nat.div_add_mod extent size
  rw [balanced_stop, balanced_start, if_neg (by omega), Nat.min_eq_right (by omega)]
  omega

/-- **Every position belongs to one rank.** -/
theorem existsUnique_rank (hs : 0 < size) {i : Nat} (hi : i < extent) :
    ∃! r, r < size ∧ (balanced extent r size).start ≤ i ∧ i < (balanced extent r size).stop := by
  have : NeZero size := ⟨by omega⟩
  let len : Fin size → Nat := fun r => (balanced extent r size).length
  have hin : ∀ r : Fin size, (Comm.before len r ≤ i ∧ i < Comm.before len r + len r) ↔
      (balanced extent r size).start ≤ i ∧ i < (balanced extent r size).stop := by
    intro r
    rw [Comm.before_balanced_eq_start, start_add_length]
  have hsum : i < (List.ofFn len).sum := by
    rw [Comm.sum_length_balanced]
    exact hi
  obtain ⟨q, hq, hunique⟩ := Comm.exists_owner hsum
  refine ⟨q, ⟨q.isLt, (hin q).mp hq⟩, ?_⟩
  rintro r ⟨hr, hir⟩
  by_contra hne
  exact hunique ⟨r, hr⟩ (fun h => hne (congrArg Fin.val h)) ((hin ⟨r, hr⟩).mpr hir)

/-- Ranks in front have as much as those behind them, or one position more. -/
theorem length_antitone (extent size : Nat) (hrq : r ≤ q) :
    (balanced extent q size).length ≤ (balanced extent r size).length ∧
      (balanced extent r size).length ≤ (balanced extent q size).length + 1 := by
  rw [length_balanced, length_balanced]
  constructor
  · split <;> split <;> omega
  · split <;> split <;> omega

/-- **Balanced chunks partition the axis.**  They begin at its first position, follow each other
without gaps and end with it, so that every position belongs to exactly one rank of the group; their
lengths do not grow from rank to rank and differ by at most one.  No sum or product in the
computation of a chunk reaches the number of machine sizes, so the chunk is the one of the unbounded
computation. -/
theorem balanced_partition (he : extent < Size.modulus) (hs : 0 < size) :
    (balanced extent 0 size).start = 0 ∧
    (∀ r, r + 1 < size → (balanced extent r size).stop = (balanced extent (r + 1) size).start) ∧
    (balanced extent (size - 1) size).stop = extent ∧
    (∀ i, i < extent → ∃! r, r < size ∧
      (balanced extent r size).start ≤ i ∧ i < (balanced extent r size).stop) ∧
    (∀ r q, r ≤ q → q < size →
      (balanced extent q size).length ≤ (balanced extent r size).length ∧
      (balanced extent r size).length ≤ (balanced extent q size).length + 1) ∧
    ∀ r, r < size →
      let base := extent / size
      let start := r * base + min r (extent % size)
      let len := base + if r < extent % size then 1 else 0
      balanced? extent r size = .ok ⟨start, start + len⟩ ∧
      balanced extent r size = ⟨start, start + len⟩ ∧
      r * base < Size.modulus ∧ start < Size.modulus ∧ len < Size.modulus ∧
      start + len < Size.modulus ∧ start + len ≤ extent := by
  refine ⟨?_, fun r _ => stop_eq_start extent r size, stop_last extent hs,
    fun i => existsUnique_rank hs, fun r q hrq _ => length_antitone extent size hrq, ?_⟩
  · rw [balanced_start, Nat.zero_mul, Nat.zero_min]
  · intro r hr base start len
    obtain ⟨hproduct, hstart, hlen, hstop⟩ := steps_le extent hr
    exact ⟨balanced?_eq he hr, rfl,
      Nat.lt_of_le_of_lt hproduct he, Nat.lt_of_le_of_lt hstart he, Nat.lt_of_le_of_lt hlen he,
      Nat.lt_of_le_of_lt hstop he, hstop⟩

/-- The greatest extent there is, shared out among ten ranks: the last position belongs to one rank,
and the chunk of rank 4 is longer than that of rank 9. -/
theorem balanced_partition_ten_ranks :
    (∃! r, r < 10 ∧ (balanced (Size.modulus - 1) r 10).start ≤ Size.modulus - 2 ∧
      Size.modulus - 2 < (balanced (Size.modulus - 1) r 10).stop) ∧
    (balanced (Size.modulus - 1) 4 10).stop = (balanced (Size.modulus - 1) 5 10).start ∧
    (balanced (Size.modulus - 1) 4 10).length
      ≤ (balanced (Size.modulus - 1) 9 10).length + 1 ∧
    balanced? (Size.modulus - 1) 9 10 = .ok ⟨16602069666338596454, 18446744073709551615⟩ := by
  obtain ⟨-, hnext, -, hunique, hlengths, hchunk⟩ :=
    balanced_partition (show Size.modulus - 1 < Size.modulus by decide) (show 0 < 10 by decide)
  exact ⟨hunique (Size.modulus - 2) (by decide), hnext 4 (by decide),
    (hlengths 4 9 (by decide) (by decide)).2, (hchunk 9 (by decide)).1.trans (by decide)⟩

end Chunk

end SpmdArray
