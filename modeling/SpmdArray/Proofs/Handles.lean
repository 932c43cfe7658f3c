import SpmdArray.Proofs.Collectives
import SpmdArray.Proofs.Stored
import SpmdArray.Sharded.Binary

/-!
# Handles of a whole group

The ranks of a group hold one handle each on a global tensor.  The constructor compares the
parts of a handle with each other, but not with those of other ranks: what the ranks hold
along the split axis may be anything.

## Main definitions

* `Sharded.Agree x g d k c` — `x` lists handles of all ranks on one tensor.
* `Sharded.ofWhole` — the handle that a rank gets on a tensor that it knows in full.

## Main results

* `Sharded.create_eq_ok_iff` — what the constructor checks.
* `Sharded.ofGlobal_eq` — the handles on a tensor that all ranks know in full.
* `Side.replicate_runs` — all ranks send an operand around, or all of them refuse to.
-/

namespace SpmdArray

theorem Shape.extent_eq {s : Shape} {axis : Nat} (h : axis < s.length) :
    s.extent axis = .ok (s.getD axis 1) := by
  rw [extent, List.getElem?_eq_getElem h, List.getD_eq_getElem _ _ h]
  rfl

/-- A shape that differs from another one along one axis at most. -/
theorem Shape.eq_set_of_eq {l g : Shape} {s : Nat} (hlen : l.length = g.length)
    (h : ∀ i < g.length, i ≠ s → l.getD i 1 = g.getD i 1) : l = g.set s (l.getD s 1) := by
  refine List.ext_getElem (by rw [List.length_set, hlen]) fun i h₁ h₂ => ?_
  have hi : i < g.length := hlen ▸ h₁
  rw [← List.getD_eq_getElem _ 1 h₁, ← List.getD_eq_getElem _ 1 h₂, Shape.getD_set hi]
  split
  · next his => rw [his]
  · next his => exact h i hi his

/-- A check that has to be passed first. -/
theorem Error.check_eq_ok_iff {α : Type} {p : Prop} [Decidable p] {e : Error}
    {rest : Except Failure α} {x : α} :
    (do if p then Error.raise e
        rest) = .ok x ↔ ¬ p ∧ rest = .ok x := by
  by_cases h : p
  · rw [if_pos h]
    exact iff_of_false (fun hx => nomatch hx) fun hx => hx.1 h
  · rw [if_neg h]
    exact ⟨fun hx => ⟨h, hx⟩, fun hx => hx.2⟩

namespace Sharded

/-! ### The constructor -/

theorem extentsAgree_iff {k : Option Nat} {l g : Shape} :
    extentsAgree k l g = true ↔ l.length = g.length ∧
      ∀ i < g.length, if k = some i then l.getD i 1 ≤ g.getD i 1 else l.getD i 1 = g.getD i 1 := by
  unfold extentsAgree
  rw [Bool.and_eq_true, beq_iff_eq]
  refine and_congr_right fun hlen => ?_
  rw [List.all_eq_true]
  constructor
  -- the zipped list is read at the axis, and an axis is found in the zipped list
  · intro h i hi
    have hil : i < l.length := by omega
    have hmem : ((l[i], g[i]), i) ∈ (l.zip g).zipIdx := by
      rw [List.mem_zipIdx_iff_getElem?, List.getElem?_zip_eq_some]
      exact ⟨List.getElem?_eq_getElem hil, List.getElem?_eq_getElem hi⟩
    have hi' := h _ hmem
    rw [List.getD_eq_getElem _ _ (by omega), List.getD_eq_getElem _ _ hi]
    split
    · next hk => simpa [hk] using hi'
    · next hk => simpa [hk] using hi'
  · rintro h ⟨⟨a, b⟩, i⟩ hmem
    rw [List.mem_zipIdx_iff_getElem?, List.getElem?_zip_eq_some] at hmem
    obtain ⟨hl, hg⟩ := hmem
    simp only at hl hg
    have hi := (List.getElem?_eq_some_iff.mp hg).1
    have h' := h i hi
    rw [List.getD_eq_getElem?_getD, List.getD_eq_getElem?_getD, hl, hg] at h'
    by_cases hk : k = some i
    · simpa [hk] using h'
    · simpa [hk] using h'

variable {t : Tensor} {g : Shape} {d : DType} {k : Option Nat} {dev : Device}

/-- **What the constructor checks.** -/
theorem create_eq_ok_iff {x : Sharded} {c : Comm} :
    create t g d k dev c = .ok x ↔ x = ⟨t, g, d, k, dev, c⟩ ∧ (∀ s, k = some s → s < g.length) ∧
      t.dtype = d ∧ t.shape.length = g.length ∧
      ∀ i < g.length,
        if k = some i then t.shape.getD i 1 ≤ g.getD i 1 else t.shape.getD i 1 = g.getD i 1 := by
  rw [← extentsAgree_iff]
  have hhandle : (pure ⟨t, g, d, k, dev, c⟩ : Except Failure Sharded) = .ok x ↔
      x = ⟨t, g, d, k, dev, c⟩ :=
    ⟨fun h => (Except.ok.inj h).symm, fun h => congrArg Except.ok h.symm⟩
  unfold create
  cases k with
  | none =>
    simp only [Error.check_eq_ok_iff, hhandle]
    grind
  | some s =>
    simp only [Error.check_eq_ok_iff, hhandle]
    grind

/-! ### Handles on one tensor -/

variable {n : Nat}

/-- `Agree x g d k c` says that the ranks hold handles on one tensor of shape `g` and
element type `d`, split along `k`: each rank has built its handle with the constructor, from
a shard whose elements have been counted. -/
structure Agree (x : Fin n → Sharded) (g : Shape) (d : DType) (k : Option Nat)
    (c : Fin n → Comm) : Prop where
  /-- The ranks are those of a group. -/
  spans : Comm.Spans c
  /-- The constructor accepts the handles. -/
  created : ∀ r, create (x r).shard g d k (x r).device (c r) = .ok (x r)
  /-- The shards are tensors. -/
  counted : ∀ r, (x r).shard.shape.numel = .ok (x r).shard.numel
  /-- The extents are machine sizes. -/
  extents : ∀ e ∈ g, e < Size.modulus

namespace Agree

variable {x : Fin n → Sharded} {c : Fin n → Comm}

theorem gshape (h : Agree x g d k c) (r : Fin n) : (x r).gshape = g :=
  congrArg Sharded.gshape (create_eq_ok_iff.mp (h.created r)).1

theorem dtype (h : Agree x g d k c) (r : Fin n) : (x r).dtype = d :=
  congrArg Sharded.dtype (create_eq_ok_iff.mp (h.created r)).1

theorem split (h : Agree x g d k c) (r : Fin n) : (x r).split = k :=
  congrArg Sharded.split (create_eq_ok_iff.mp (h.created r)).1

theorem comm (h : Agree x g d k c) (r : Fin n) : (x r).comm = c r :=
  congrArg Sharded.comm (create_eq_ok_iff.mp (h.created r)).1

theorem axis_lt [NeZero n] (h : Agree x g d k c) {s : Nat} (hs : k = some s) : s < g.length :=
  (create_eq_ok_iff.mp (h.created 0)).2.1 s hs

theorem shard_dtype (h : Agree x g d k c) (r : Fin n) : (x r).shard.dtype = d :=
  (create_eq_ok_iff.mp (h.created r)).2.2.1

theorem length_shape (h : Agree x g d k c) (r : Fin n) :
    (x r).shard.shape.length = g.length :=
  (create_eq_ok_iff.mp (h.created r)).2.2.2.1

theorem extent_eq (h : Agree x g d k c) (r : Fin n) {i : Nat} (hi : i < g.length)
    (hk : k ≠ some i) : (x r).shard.shape.getD i 1 = g.getD i 1 := by
  have := (create_eq_ok_iff.mp (h.created r)).2.2.2.2 i hi
  rwa [if_neg hk] at this

theorem extent_le (h : Agree x g d k c) (r : Fin n) {i : Nat} (hi : i < g.length) :
    (x r).shard.shape.getD i 1 ≤ g.getD i 1 := by
  have := (create_eq_ok_iff.mp (h.created r)).2.2.2.2 i hi
  split at this
  · exact this
  · exact Nat.le_of_eq this

/-- A shard that has everything along the split axis has the global shape. -/
theorem shape_eq (h : Agree x g d k c) (r : Fin n)
    (hk : ∀ s, k = some s → (x r).shard.shape.getD s 1 = g.getD s 1) :
    (x r).shard.shape = g := by
  refine List.ext_getElem (h.length_shape r) fun i h₁ h₂ => ?_
  rw [← List.getD_eq_getElem _ 1 h₁, ← List.getD_eq_getElem _ 1 h₂]
  by_cases hi : k = some i
  · exact hk i hi
  · exact h.extent_eq r h₂ hi

/-- A shard has the global shape except along the split axis. -/
theorem shape_set [NeZero n] {s : Nat} (h : Agree x g d (some s) c) (r : Fin n) :
    (x r).shard.shape = g.set s ((x r).shard.shape.getD s 1) :=
  Shape.eq_set_of_eq (h.length_shape r) fun _ hi his =>
    h.extent_eq r hi fun hs => his (Option.some.inj hs).symm

/-- The shard of a rank. -/
theorem stored (h : Agree x g d k c) (r : Fin n) : (x r).shard.Stored where
  count := h.counted r
  extents e he := by
    obtain ⟨i, hi, rfl⟩ := List.getElem_of_mem he
    rw [← List.getD_eq_getElem _ 1 hi]
    exact Nat.lt_of_le_of_lt (h.extent_le r (h.length_shape r ▸ hi))
      (Shape.getD_lt_modulus h.extents i)

/-- A shard whose volume is a size. -/
theorem exact (h : Agree x g d k c) (r : Fin n) (hsize : (x r).shard.shape.volume < Size.modulus) :
    (x r).shard.Exact :=
  (h.stored r).exact hsize

end Agree

end Sharded

/-! ### Tensors that all ranks know in full -/

namespace Tensor

/-- The `len` entries from `start` on along the axis `k`, or everything if there is no axis. -/
def slice (t : Tensor) (k : Option Nat) (start len : Nat) : Tensor :=
  match k with
  | none => t
  | some s => t.window s start len

/-- What a rank of a group keeps of a tensor that is split along `k`. -/
def part (t : Tensor) (k : Option Nat) (rank size : Nat) : Tensor :=
  match k with
  | none => t
  | some s =>
    let c := Chunk.balanced (t.shape.getD s 1) rank size
    t.window s c.start c.length

variable {t : Tensor} {k : Option Nat} {rank size : Nat}

theorem part_eq_slice (t : Tensor) (k : Option Nat) (rank size : Nat) :
    t.part k rank size
      = let c := Chunk.balanced (t.shape.getD (k.getD 0) 1) rank size
        t.slice k c.start c.length := by
  cases k <;> rfl

theorem dtype_slice (t : Tensor) (k : Option Nat) (start len : Nat) :
    (t.slice k start len).dtype = t.dtype := by
  cases k <;> rfl

theorem Exact.slice (ht : t.Exact) {start len : Nat}
    (h : ∀ s, k = some s → len ≤ t.shape.getD s 1) : (t.slice k start len).Exact := by
  cases k with
  | none => exact ht
  | some s => exact ht.window (h s rfl)

theorem cast_slice (ht : t.Exact) {start len : Nat}
    (h : ∀ s, k = some s → start + len ≤ t.shape.getD s 1) (d : DType) :
    (t.slice k start len).cast d = (t.cast d).slice k start len := by
  cases k with
  | none => rfl
  | some s => exact cast_window ht (h s rfl) d

theorem dtype_part (t : Tensor) (k : Option Nat) (rank size : Nat) :
    (t.part k rank size).dtype = t.dtype := by
  cases k <;> rfl

theorem Exact.part (ht : t.Exact) (h : rank < size) : (t.part k rank size).Exact := by
  rw [part_eq_slice]
  refine ht.slice fun s hs => ?_
  subst hs
  exact Chunk.length_balanced_le h

/-- The only rank of a group keeps everything. -/
theorem Exact.part_of_one (ht : t.Exact) : t.part k 0 1 = t := by
  cases k with
  | none => rfl
  | some s =>
    rw [Tensor.part, Chunk.balanced_of_one]
    exact ht.window_self

/-- What a rank needs of an operand for its part of a result of shape `s` that is split along
axis `i`. -/
def share (t : Tensor) (s : Shape) (i rank size : Nat) : Tensor :=
  let c := Chunk.balanced (s.getD i 1) rank size
  t.cut s i c.start c.length

theorem Exact.share_of_one (ht : t.Exact) (s : Shape) (i : Nat) :
    t.share s i 0 1 = t := by
  rw [Tensor.share, Chunk.balanced_of_one]
  exact ht.cut_self i

theorem getD_shape_slice (t : Tensor) (s : Nat) {start len i : Nat} (hi : i < t.ndim) :
    (t.slice (some s) start len).shape.getD i 1 = if i = s then len else t.shape.getD i 1 :=
  Shape.getD_set hi

theorem getD_shape_part (t : Tensor) (s : Nat) {i : Nat} (hi : i < t.ndim) :
    (t.part (some s) rank size).shape.getD i 1
      = if i = s then (Chunk.balanced (t.shape.getD s 1) rank size).length
        else t.shape.getD i 1 :=
  t.getD_shape_slice s hi

end Tensor

namespace Sharded

/-- The handle of a rank on a tensor that it knows in full. -/
def ofWhole (t : Tensor) (k : Option Nat) (c : Comm) : Sharded :=
  ⟨t.part k c.rank c.size, t.shape, t.dtype, k, .cpu, c⟩

variable {t : Tensor} {k : Option Nat}

theorem create_slice {start len : Nat} (dev : Device) (c : Comm)
    (hk : ∀ s, k = some s → s < t.ndim ∧ len ≤ t.shape.getD s 1) :
    create (t.slice k start len) t.shape t.dtype k dev c
      = .ok ⟨t.slice k start len, t.shape, t.dtype, k, dev, c⟩ := by
  refine create_eq_ok_iff.mpr ⟨rfl, fun s hs => (hk s hs).1, t.dtype_slice k _ _, ?_, ?_⟩
  · cases k with
    | none => rfl
    | some s => exact List.length_set
  · intro i hi
    cases k with
    | none =>
      rw [if_neg (by simp)]
      rfl
    | some s =>
      rw [t.getD_shape_slice s hi]
      by_cases his : i = s
      · rw [if_pos (by rw [his]), if_pos his, his]
        exact (hk s rfl).2
      · rw [if_neg (by simpa using Ne.symm his), if_neg his]

theorem create_part {rank size : Nat} (dev : Device) (c : Comm)
    (hk : ∀ s, k = some s → s < t.ndim) (h : rank < size) :
    create (t.part k rank size) t.shape t.dtype k dev c
      = .ok ⟨t.part k rank size, t.shape, t.dtype, k, dev, c⟩ := by
  rw [Tensor.part_eq_slice]
  refine create_slice dev c fun s hs => ⟨hk s hs, ?_⟩
  subst hs
  exact Chunk.length_balanced_le h

/-- **The handles on a tensor that all ranks know in full.** -/
theorem ofGlobal_eq {c : Comm} (ht : t.Exact) (hk : ∀ s, k = some s → s < t.ndim)
    (hc : c.rank < c.size) : ofGlobal t k c = .ok (ofWhole t k c) := by
  have hcreate := create_part .cpu c hk hc
  cases k with
  | none => exact hcreate
  | some s =>
    have hs : s < t.ndim := hk s rfl
    have hext : t.shape[s]? = some (t.shape.getD s 1) := by
      rw [List.getD_eq_getElem _ _ hs, List.getElem?_eq_getElem hs]
    have hnarrow := ht.narrow_eq hs (Chunk.start_add_length_le hc)
    unfold ofGlobal
    simp only [Option.bind_some, hext, Option.map_some, Comm.chunk, hnarrow]
    exact hcreate

theorem agree_ofWhole {n : Nat} {c : Fin n → Comm} (ht : t.Exact)
    (hk : ∀ s, k = some s → s < t.ndim) (hc : Comm.Spans c) :
    Agree (fun r => ofWhole t k (c r)) t.shape t.dtype k c where
  spans := hc
  created r := create_part .cpu (c r) hk (by rw [hc.rank_eq, hc.size_eq]; exact r.isLt)
  counted r :=
    (ht.part (by rw [hc.rank_eq, hc.size_eq]; exact r.isLt) :
      (t.part k (c r).rank (c r).size).Exact).numel_shape
  extents := ht.extents

end Sharded

/-! ### Sending an operand around -/

namespace Side

variable {s : Side} {x : Sharded}

/-- An operand stays where it is unless it is split along an axis of extent 1. -/
theorem replicate_of_ne (hs : s.origin = some x) (hk : ∀ i, x.split = some i →
    i < x.gshape.length ∧ (x.gshape.getD i 1 ≠ 1 ∨ x.comm.isDistributed = false)) :
    s.replicate = pure s := by
  unfold replicate
  simp only [hs]
  cases hsplit : x.split with
  | none => rfl
  | some i =>
    obtain ⟨hi, hne⟩ := hk i hsplit
    simp only [Shape.extent_eq hi]
    show (if _ then _ else _) = _
    rw [if_pos]
    simpa using hne

/-- An operand stays where it is unless several ranks have parts of an axis of extent 1. -/
theorem replicate_of_agree {n : Nat} [NeZero n] {xs : Fin n → Sharded} {g : Shape} {d : DType}
    {k : Option Nat} {c : Fin n → Comm} (hx : Sharded.Agree xs g d k c) {r : Fin n}
    (hs : s.origin = some (xs r)) (hk : ∀ i, k = some i → n = 1 ∨ g.getD i 1 ≠ 1) :
    s.replicate = pure s := by
  refine replicate_of_ne hs fun i hi => ?_
  rw [hx.split] at hi
  rw [hx.gshape, hx.comm, hx.spans.isDistributed_eq, decide_eq_false_iff_not]
  refine ⟨hx.axis_lt hi, ?_⟩
  rcases hk i hi with hone | hne
  · exact .inr (by omega)
  · exact .inl hne

theorem replicate_of_scalar (hs : s.origin = none) : s.replicate = pure s := by
  unfold replicate
  rw [hs]

/-- Once the ranks know whether rank 0 holds the operand, it sends it around. -/
def sendFrom (s : Side) (x : Sharded) (axis : Nat) (agreed : Buffer) : Attempt Side := do
  if agreed ≠ ⟨.bool, [true]⟩ then throw (.error (.misplacedSlice axis))
  let mine ←
    if x.comm.rank = 0 then pure x.shard.buffer
    else (return .zeros x.dtype (← x.gshape.numel) : Except Fault Buffer)
  let b ← Comm.leftBy (x.comm.broadcast 0 mine)
  let shard ← ExceptT.mk (pure (Tensor.ofBuffer x.gshape b))
  return { s with shard, split := none }

theorem replicate_eq {i : Nat} (hs : s.origin = some x) (hk : x.split = some i)
    (hi : i < x.gshape.length) (hone : x.gshape.getD i 1 = 1) (hd : x.comm.isDistributed = true)
    (hlen : i < x.shard.shape.length) :
    s.replicate = (do
      ExceptT.lift (Spmd.note .warning)
      let agreed ← Comm.leftBy (x.comm.allReduce .all
        ⟨.bool, [x.shard.shape.getD i 1 == (x.comm.chunk 1).length]⟩)
      s.sendFrom x i agreed) := by
  unfold replicate sendFrom
  simp only [hs, hk, Shape.extent_eq hi, Shape.extent_eq hlen, hone, hd]
  rfl

variable {n : Nat} [NeZero n] {ss : Fin n → Side} {xs : Fin n → Sharded} {g : Shape} {d : DType}
  {c : Fin n → Comm} {i : Nat}

/-- Whether rank 0, and no other rank, holds the only slice along axis `i`. -/
def HeldByFirst (xs : Fin n → Sharded) (i : Nat) : Prop :=
  ∀ r : Fin n, (xs r).shard.shape.getD i 1 = if (r : Nat) = 0 then 1 else 0

instance (xs : Fin n → Sharded) (i : Nat) : Decidable (HeldByFirst xs i) :=
  inferInstanceAs (Decidable (∀ _, _))

theorem sendFrom_runs (hx : Sharded.Agree xs g d (some i) c) (hone : g.getD i 1 = 1)
    {group : Nat} (hc : ∀ r, c r = .member group r n) (hheld : HeldByFirst xs i) :
    Attempt.Runs (fun r => (ss r).sendFrom (xs r) i ⟨.bool, [true]⟩)
      fun r => ([.broadcast group d g.prod 0],
        .ok { ss r with shard := ⟨g, (xs 0).shard.buffer⟩, split := none }) := by
  -- all ranks but the first contribute zeros, of which only the number counts
  let mine : Fin n → Buffer := fun r =>
    if (r : Nat) = 0 then (xs r).shard.buffer else .zeros d g.prod
  have hshape : (xs 0).shard.shape = g := by
    refine hx.shape_eq 0 fun j hj => ?_
    obtain rfl : i = j := Option.some.inj hj
    rw [hone]
    exact hheld 0
  -- rank 0 has counted the elements of the whole, so the count is a size on every rank
  have hstored := hx.stored 0
  have hfirst : (xs 0).shard.buffer.length = g.prod := by
    rw [← hshape]
    exact hstored.numel_eq
  have hcount : Shape.numel g = .ok g.prod := by
    rw [← hfirst, ← hshape]
    exact hstored.count
  have hsent := Comm.broadcast_runs (d := d) group g.prod mine
    (fun r => by
      by_cases hr : (r : Nat) = 0
      · simp only [mine, if_pos hr]
        exact hx.shard_dtype r
      · simp only [mine, if_neg hr]
        rfl)
    (fun r => by
      by_cases hr : (r : Nat) = 0
      · obtain rfl : r = 0 := Fin.ext (by simpa using hr)
        simp only [mine, if_pos hr, hfirst]
      · simp only [mine, if_neg hr, Buffer.length_zeros])
  have hbuffer : mine 0 = (xs 0).shard.buffer := if_pos rfl
  rw [hbuffer] at hsent
  have hrest : Attempt.Runs
      (fun r => do
        let shard ← ExceptT.mk (pure (Tensor.ofBuffer (xs r).gshape (xs 0).shard.buffer))
        return ({ ss r with shard, split := none } : Side))
      fun r => ([], .ok { ss r with shard := ⟨g, (xs 0).shard.buffer⟩, split := none }) := by
    simp only [hx.gshape, Tensor.ofBuffer_of_numel (hcount.trans (congrArg Except.ok hfirst.symm))]
    exact Attempt.Runs.pure _
  have hrun := hsent.bind (k := fun r b => do
    let shard ← ExceptT.mk (pure (Tensor.ofBuffer (xs r).gshape b))
    return ({ ss r with shard, split := none } : Side)) hrest
  simp only [List.append_nil] at hrun
  have hprog : (fun r => (ss r).sendFrom (xs r) i ⟨.bool, [true]⟩) = fun r => do
      let b ← Comm.leftBy ((Comm.member group r n).broadcast 0 (mine r))
      let shard ← ExceptT.mk (pure (Tensor.ofBuffer (xs r).gshape b))
      return { ss r with shard, split := none } := by
    funext r
    unfold sendFrom
    rw [if_neg (fun h => h rfl)]
    simp only [hx.comm, hc, hx.dtype, hx.gshape]
    by_cases hr : (r : Nat) = 0
    · simp only [mine, if_pos hr, show (Comm.member group r n).rank = 0 from hr]
      rfl
    · simp only [mine, if_neg hr, show (Comm.member group r n).rank ≠ 0 from hr, hcount]
      rfl
  rw [hprog]
  exact hrun

/-- **All ranks send an operand around, or all of them refuse to.** -/
theorem replicate_runs (ss : Fin n → Side) (hs : ∀ r, (ss r).origin = some (xs r))
    (hx : Sharded.Agree xs g d (some i) c) (hone : g.getD i 1 = 1)
    {group : Nat} (hc : ∀ r, c r = .member group r n) (hn : 1 < n) :
    Attempt.Runs (fun r => (ss r).replicate) fun r =>
      if HeldByFirst xs i then
        ([.warning, .allReduce group .bool 1 .all, .broadcast group d g.prod 0],
          .ok { ss r with shard := ⟨g, (xs 0).shard.buffer⟩, split := none })
      else ([.warning, .allReduce group .bool 1 .all], .error (.error (.misplacedSlice i))) := by
  have hi : i < g.length := hx.axis_lt rfl
  -- the ranks first agree on whether the entry lies with the first of them
  have hvote := @Comm.allReduce_runs n .bool .all rfl group 1
    (fun r => [(xs r).shard.shape.getD i 1 == ((c r).chunk 1).length]) fun _ => rfl
  rw [Comm.foldRanks_all] at hvote
  have hheld : (∀ r, ((xs r).shard.shape.getD i 1 == ((c r).chunk 1).length) = true)
      ↔ HeldByFirst xs i := by
    refine forall_congr' fun r => ?_
    rw [beq_iff_eq, hx.spans.chunk_eq, Chunk.length_balanced_singleton hn]
  have hprog : (fun r => (ss r).replicate) = fun r => (do
      ExceptT.lift (Spmd.note .warning)
      let agreed ← Comm.leftBy ((Comm.member group r n).allReduce .all
        ⟨.bool, [(xs r).shard.shape.getD i 1 == ((c r).chunk 1).length]⟩)
      (ss r).sendFrom (xs r) i agreed) := by
    funext r
    rw [replicate_eq (hs r) (hx.split r) (by rw [hx.gshape]; exact hi)
      (by rw [hx.gshape]; exact hone) (by rw [hx.comm, hx.spans.isDistributed_eq]; simpa using hn)
      (by rw [hx.length_shape]; exact hi), hx.comm, hc]
  rw [hprog]
  by_cases hall : HeldByFirst xs i
  · rw [decide_eq_true (hheld.mpr hall)] at hvote
    simp only [if_pos hall]
    exact (hvote.bind (sendFrom_runs hx hone hc hall)).note fun _ => .warning
  · rw [decide_eq_false (fun h => hall (hheld.mp h))] at hvote
    simp only [if_neg hall]
    have hrefuse : Attempt.Runs (fun r => (ss r).sendFrom (xs r) i ⟨.bool, [false]⟩)
        fun _ => ([], .error (.error (.misplacedSlice i))) :=
      Attempt.Runs.ofExcept fun _ => .error (.error (.misplacedSlice i))
    exact (hvote.bind hrefuse).note fun _ => .warning

end Side

end SpmdArray
