import SpmdArray.Proofs.Soundness

/-!
# Well-formed handles

The parts of a handle agree with each other when it is made.  The functions of handles rely on it:
they subtract offsets and look up extents without asking.  The functions that need no exchange
keep it: applied to well-formed handles they do not break down, except when a size overflows,
whatever the functions of tensors are that they are given, as long as these do not break down
themselves, and they give well-formed handles.

## Main definitions

* `Comm.Of c r n` — the communicator `c` belongs to rank `r` of a group of `n` ranks.
* `Sharded.WellFormed` — the parts of a handle agree with each other; `Sharded.HeldBy r` — and its
  group is one of rank `r`.

## Main results

* `Sharded.sound_create`, `Sharded.sound_ofGlobal`, `Sharded.sound_assign` — handles are made
  well formed, and stay well formed.
* `Sharded.sound_mapShard`, `Sharded.sound_mapShardInto` — the functions of one handle.
-/

namespace SpmdArray

/-- `Of c r n` says that the communicator `c` belongs to rank `r` of a group of `n` ranks, or to a
group of this rank alone. -/
def Comm.Of (c : Comm) (r n : Nat) : Prop := (∃ g, c = .solo g) ∨ ∃ g, c = .member g r n

theorem Comm.Of.rank_lt {c : Comm} {n : Nat} {r : Fin n} (h : c.Of r n) : c.rank < c.size := by
  rcases h with ⟨g, rfl⟩ | ⟨g, rfl⟩
  · exact Nat.one_pos
  · exact r.isLt

namespace Sharded

/-- The parts of a handle agree with each other: the shard is split along an axis that exists, it
has the element type and the number of axes of the handle, and its extents are the global ones,
except that the one along the split axis may be smaller. -/
structure WellFormed (x : Sharded) : Prop where
  /-- The shard has an element for each of its coordinates. -/
  stored : x.shard.Stored
  /-- The shard has the element type of the handle. -/
  dtype : x.shard.dtype = x.dtype
  /-- The split axis exists. -/
  axis : ∀ s, x.split = some s → s < x.ndim
  /-- The shard has as many axes as the global tensor. -/
  rank : x.shard.ndim = x.ndim
  /-- The extents of the shard agree with the global ones. -/
  agree : ∀ i < x.ndim, if x.split = some i then x.shard.shape.getD i 1 ≤ x.gshape.getD i 1
    else x.shard.shape.getD i 1 = x.gshape.getD i 1
  /-- The global extents are machine sizes. -/
  extents : ∀ e ∈ x.gshape, e < Size.modulus

/-- A well-formed handle of rank `r` of a group of `n` ranks. -/
def HeldBy {n : Nat} (r : Fin n) (x : Sharded) : Prop := x.WellFormed ∧ x.comm.Of r n

variable {n : Nat} {r : Fin n} {t : Tensor} {g : Shape} {d : DType} {k : Option Nat}
  {dev : Device} {c : Comm} {x out : Sharded}

/-- **What the constructor accepts is well formed.** -/
theorem sound_create (ht : t.Stored) (hg : ∀ e ∈ g, e < Size.modulus) (hc : c.Of r n) :
    Sound (HeldBy r) (create t g d k dev c) := by
  refine .of_eq_ok ?_ fun x hx => ?_
  · unfold create
    cases k with
    | none => exact .check fun _ => .check fun _ => trivial
    | some s => exact .check fun _ => .check fun _ => .check fun _ => trivial
  · obtain ⟨rfl, haxis, hdtype, hrank, hagree⟩ := create_eq_ok_iff.mp hx
    exact ⟨⟨ht, hdtype, haxis, hrank, hagree, hg⟩, hc⟩

theorem sound_ofGlobal (ht : t.Stored) (hc : c.Of r n) :
    Sound (HeldBy r) (ofGlobal t k c) := by
  have hlast : ∀ shard : Tensor, shard.Stored →
      Sound (HeldBy r) (create shard t.shape t.dtype k .cpu c) :=
    fun shard hshard => sound_create hshard ht.extents hc
  unfold ofGlobal
  split
  · exact (Tensor.sound_narrow ht _ _ _).bind fun shard _ hshard => hlast shard hshard
  · exact hlast t ht

/-- **Overwriting the shard** keeps a handle well formed. -/
theorem sound_assign (hx : x.HeldBy r) (ht : t.Stored) :
    Sound (fun _ => True) (x.assign t).result ∧ (x.assign t).dest.HeldBy r := by
  obtain ⟨hwf, hc⟩ := hx
  obtain ⟨hresult, hstored⟩ := Tensor.sound_assign hwf.stored t ht
  have hsame : (x.shard.assign t).dest.shape = x.shard.shape ∧
      (x.shard.assign t).dest.dtype = x.shard.dtype := by
    unfold Tensor.assign
    split
    · exact ⟨rfl, rfl⟩
    · exact ⟨rfl, rfl⟩
  refine ⟨hresult, ⟨hstored, hsame.2.trans hwf.dtype, hwf.axis, ?_, ?_, hwf.extents⟩, hc⟩
  · exact (congrArg List.length hsame.1).trans hwf.rank
  · show ∀ i < x.ndim, if x.split = some i then
      (x.shard.assign t).dest.shape.getD i 1 ≤ x.gshape.getD i 1
      else (x.shard.assign t).dest.shape.getD i 1 = x.gshape.getD i 1
    rw [hsame.1]
    exact hwf.agree

/-! ### Functions of one handle -/

section

variable {f : Tensor → Except Failure Tensor}

theorem sound_mapShard (hf : ∀ t : Tensor, t.Stored → Sound Tensor.Stored (f t))
    (hx : x.HeldBy r) : Sound (HeldBy r) (x.mapShard f) :=
  (hf _ (hx.1.stored.cast _)).bind fun _ _ ht => sound_create ht hx.1.extents hx.2

theorem sound_shardFor (hf : ∀ t : Tensor, t.Stored → Sound Tensor.Stored (f t))
    (hx : x.WellFormed) : Sound Tensor.Stored (shardFor f x out) := by
  refine .check fun _ => (Tensor.sound_commonShape _ _).bind fun s _ h => ?_
  have htile := ((hx.stored.cast x.dtype.toFloat).tileTo_eq_or (Shape.broadcastsTo_left h))
  refine (Sound.of_eq_or htile id).bind fun u _ hu => (hf u hu).bind fun t _ ht => ?_
  exact .check fun _ => ht

theorem sound_mapShardInto (hf : ∀ t : Tensor, t.Stored → Sound Tensor.Stored (f t))
    (hx : x.WellFormed) (hout : out.HeldBy r) :
    Sound (HeldBy r) (x.mapShardInto f out).result ∧ (x.mapShardInto f out).dest.HeldBy r := by
  have hshard : Sound Tensor.Stored (shardFor f x out) := sound_shardFor hf hx
  unfold mapShardInto
  cases h : shardFor f x out with
  | error e =>
    rw [h] at hshard
    refine ⟨?_, hout⟩
    cases e with
    | error e => trivial
    | fault f => exact hshard
  | ok t =>
    rw [h] at hshard
    obtain ⟨hresult, hdest⟩ := sound_assign hout hshard
    exact ⟨hresult.map fun _ _ => hdest, hdest⟩

end

end Sharded

end SpmdArray
