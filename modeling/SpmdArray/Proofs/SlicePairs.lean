import SpmdArray.Proofs.Verdicts

/-!
# Functions of consecutive slices

The ranks of a group hold consecutive slices of two tensors that are split along the same axis of
the result.  Nobody compares the lengths of the slices: a rank combines its own two slices, or
finds that their shapes do not broadcast.  If no slice of one entry meets slices of another length,
slices that broadcast have the same length, and the ranks compute consecutive slices of the result.

## Main results

* `Sharded.shardOf_slice` — a rank without a part in the result has its slice too.
* `Sharded.finish_slices`, `Sharded.finish_of_slices` — slices of the same lengths make a slice of
  the result.
* `Sharded.decides_of_slices`, `Sharded.runs_of_slices` — the same for all ranks.
* `Sharded.binary_slices` — what the ranks make of slices of any lengths.
-/

namespace SpmdArray

namespace Sharded

variable {n : Nat} {t u v : Tensor} {i j : Nat} {s : Shape} {lhs rhs : Side} {op : BinaryFn}
  {d : DType}

/-- A rank that has nothing of an operand has an empty slice of the result. -/
theorem shardOf_slice (hv : v.Exact) (hd : v.dtype = d) (hi : i < v.ndim) {start len : Nat}
    (hlen : len ≤ v.shape.getD i 1) (hvacant : lhs.vacant ∨ rhs.vacant → len = 0) :
    shardOf d lhs rhs (v.slice (some i) start len) = v.slice (some i) start len := by
  unfold shardOf
  split
  · next hempty =>
    have hzero : len = 0 := hvacant (by simpa using hempty)
    have hprod : (v.slice (some i) start len).shape.prod = 0 := by
      refine List.prod_eq_zero ?_
      rw [hzero]
      exact List.mem_set hi 0
    have hexact : (v.slice (some i) start len).Exact := by
      refine hv.slice fun k hk => ?_
      obtain rfl : i = k := Option.some.inj hk
      exact hlen
    rw [hexact.eq_zeros hprod, v.dtype_slice, hd]
  · rfl

/-- A rank that has nothing of a split operand has an empty slice of it. -/
theorem length_of_vacant {side : Side} {off start len : Nat} (hsplit : side.split = some i)
    (hoff : side.offset = off) (hi : i - off < t.ndim)
    (hshard : side.shard = t.slice (some (i - off)) start len) (h : side.vacant) : len = 0 := by
  subst hoff
  rw [Side.vacant, hsplit] at h
  simp only [hshard, t.getD_shape_slice _ hi, if_true] at h
  exact eq_of_beq h

/-- **Slices of the same lengths make a slice of the result.** -/
theorem finish_slices (world : Comm) {start len : Nat} (ht : t.Exact) (hu : u.Exact)
    (h : t.shape.broadcast u.shape = some v.shape) (hv : v.Exact) (hd : v.dtype = d)
    (hrun : kernel op (t.cast d) (u.cast d) = .ok v)
    (hct : t.shape.Covers v.shape i) (hcu : u.shape.Covers v.shape i) (hi : i < v.ndim)
    (hfit : start + len ≤ v.shape.getD i 1)
    (hlhs : lhs.shard = t.slice (some (i - (v.shape.length - t.shape.length))) start len)
    (hrhs : rhs.shard = u.slice (some (i - (v.shape.length - u.shape.length))) start len)
    (hl : lhs.split = some i) (hr : rhs.split = some i)
    (hlo : lhs.offset = v.shape.length - t.shape.length)
    (hro : rhs.offset = v.shape.length - u.shape.length) :
    finish (kernel op) d v.shape world lhs rhs
      = .ok ⟨v.slice (some i) start len, v.shape, d, some i, deviceOf lhs rhs,
          commOf world lhs rhs⟩ := by
  have hlt : v.shape.length = max t.shape.length u.shape.length :=
    (Shape.broadcast_eq_some_iff.mp h).1
  have hil : i < v.shape.length := hi
  have hct₁ := hct.1
  have hcu₁ := hcu.1
  have halign : align lhs rhs = .ok (lhs, rhs) := align_of_isSome_eq (by rw [hl, hr])
  have hlcut : lhs.shard = t.cut v.shape i start len := by
    rw [hlhs, Tensor.cut, if_pos hct]
    rfl
  have hrcut : rhs.shard = u.cut v.shape i start len := by
    rw [hrhs, Tensor.cut, if_pos hcu]
    rfl
  have hcombine : combineShards (kernel op) d lhs rhs
      = .ok (shardOf d lhs rhs (v.slice (some i) start len)) := by
    refine combine_cuts ht hu h hv hrun hil hfit hlcut hrcut ?_ ?_
    · intro k hk
      obtain rfl : i = k := Option.some.inj (hl.symm.trans hk)
      omega
    · intro k hk
      obtain rfl : i = k := Option.some.inj (hr.symm.trans hk)
      omega
  -- both shards have `len` entries along the axis
  have hvacant : lhs.vacant ∨ rhs.vacant → len = 0 := by
    have hjt : i - (v.shape.length - t.shape.length) < t.ndim := by
      show _ < t.shape.length
      omega
    have hju : i - (v.shape.length - u.shape.length) < u.ndim := by
      show _ < u.shape.length
      omega
    rintro (hempty | hempty)
    · exact length_of_vacant hl hlo hjt hlhs hempty
    · exact length_of_vacant hr hro hju hrhs hempty
  rw [shardOf_slice hv hd hi (by omega) hvacant] at hcombine
  rw [finish_of_align halign hcombine, splitOf_of_some hl, v.dtype_slice, create_slice, hd]
  intro k hk
  obtain rfl : i = k := Option.some.inj hk
  exact ⟨hi, by omega⟩

/-- What a rank has of a tensor that stays split. -/
theorem side_of_slices [NeZero n] {x : Fin n → Sharded} {start len : Fin n → Nat}
    {c : Fin n → Comm} (hx : Slices x t (some i) start len c) (hne : t.shape.getD i 1 ≠ 1)
    (d : DType) (ndim : Nat) (r : Fin n) :
    (Spread.handles x t.shape t.dtype (some i) c).side d ndim r
      = ⟨t.slice (some i) (start r) (len r), some (i + (ndim - t.shape.length)),
          ndim - t.shape.length, some (x r)⟩ := by
  have hkept : (Spread.handles x t.shape t.dtype (some i) c).kept = some i :=
    Spread.kept_eq_some_iff.mpr ⟨rfl, .inr hne⟩
  rw [Spread.side, if_pos hkept, Side.ofOperand, hx.handle r]
  rfl

theorem portion_of_slices {x : Fin n → Sharded} {start len : Fin n → Nat} {c : Fin n → Comm}
    (hx : Slices x t (some i) start len c) (hne : t.shape.getD i 1 ≠ 1) (r : Fin n) :
    (Spread.handles x t.shape t.dtype (some i) c).portion r = ⟨t.shape, some i, len r⟩ := by
  have hkept : (Spread.handles x t.shape t.dtype (some i) c).kept = some i :=
    Spread.kept_eq_some_iff.mpr ⟨rfl, .inr hne⟩
  have hlen : (x r).shard.shape.getD i 1 = len r := by
    rw [hx.handle r]
    exact (t.getD_shape_slice i (hx.axis_lt i rfl)).trans (if_pos rfl)
  unfold Spread.portion
  rw [hkept]
  exact congrArg (Portion.mk t.shape (some i)) hlen

/-- A rank with slices of the same length gets a slice of the result. -/
theorem finish_of_slices [NeZero n] {x y : Fin n → Sharded} {start len : Fin n → Nat}
    {c c' : Fin n → Comm} (hx : Slices x t (some i) start len c)
    (hy : Slices y u (some j) start len c') (hnet : t.shape.getD i 1 ≠ 1)
    (hneu : u.shape.getD j 1 ≠ 1) (h : t.shape.broadcast u.shape = some v.shape) (hv : v.Exact)
    (hd : v.dtype = d) (hrun : kernel op (t.cast d) (u.cast d) = .ok v)
    (haxis : i + (v.ndim - t.ndim) = j + (v.ndim - u.ndim)) (world : Comm) (d₁ d₂ : DType)
    (r : Fin n) :
    let k := i + (v.ndim - t.ndim)
    ∃ dev comm, finish (kernel op) d v.shape world
        ((Spread.handles x t.shape t.dtype (some i) c).side d₁ v.ndim r)
        ((Spread.handles y u.shape u.dtype (some j) c').side d₂ v.ndim r)
      = .ok ⟨v.slice (some k) (start r) (len r), v.shape, d, some k, dev, comm⟩ := by
  intro k
  obtain ⟨hct, hk, hext⟩ :=
    Shape.covers_axis (Shape.broadcastsTo_left h) (hx.axis_lt i rfl) hnet
  obtain ⟨hcu, -, -⟩ := Shape.covers_axis (Shape.broadcastsTo_right h) (hy.axis_lt j rfl) hneu
  rw [show j + (v.shape.length - u.shape.length) = k from haxis.symm] at hcu
  have hki : k - (v.shape.length - t.shape.length) = i := Nat.add_sub_cancel _ _
  have hkj : k - (v.shape.length - u.shape.length) = j := by
    rw [show k = j + (v.shape.length - u.shape.length) from haxis, Nat.add_sub_cancel]
  have hfit : start r + len r ≤ v.shape.getD k 1 := by
    rw [show v.shape.getD k 1 = t.shape.getD i 1 from hext]
    exact hx.fits i rfl r
  rw [side_of_slices hx hnet, side_of_slices hy hneu]
  refine ⟨_, _, finish_slices world hx.exact hy.exact h hv hd hrun hct hcu hk hfit ?_ ?_ rfl ?_
    rfl rfl⟩
  · rw [hki]
  · rw [hkj]
  · exact congrArg some haxis.symm

/-! ### All ranks -/

section

variable [NeZero n] {a b : Fin n → Nat} {c c' : Fin n → Comm} {x y : Fin n → Sharded}

omit [NeZero n] in
/-- Slices that make up an axis of several entries need not be sent around. -/
theorem placed_of_slices (hx : Slices x t (some i) (fun r => Comm.before a r) a c)
    (ha : (List.ofFn a).sum = t.shape.getD i 1) (hnet : t.shape.getD i 1 ≠ 1) :
    (Spread.handles x t.shape t.dtype (some i) c).Valid ∧
      (Spread.handles x t.shape t.dtype (some i) c).Placed := by
  refine ⟨Spread.valid_of_slices hx fun s hs => Option.some.inj hs ▸ ha, ?_⟩
  rintro k ⟨⟩ - hone
  exact absurd hone hnet

omit [NeZero n] in
/-- The tensors are split along one axis of the result. -/
theorem axes_of_slices (h : t.shape.broadcast u.shape = some s)
    (haxis : i + (s.length - t.ndim) = j + (s.length - u.ndim)) :
    let A : Spread n := .handles x t.shape t.dtype (some i) c
    let B : Spread n := .handles y u.shape u.dtype (some j) c'
    Spread.ndim A B = s.length ∧ ∀ k k', A.axisIn (Spread.ndim A B) = some k →
      B.axisIn (Spread.ndim A B) = some k' → k = k' := by
  intro A B
  have hndim : Spread.ndim A B = s.length := (Shape.broadcast_eq_some_iff.mp h).1.symm
  refine ⟨hndim, ?_⟩
  rw [hndim]
  rintro k k' ⟨⟩ ⟨⟩
  exact haxis

/-- **Each rank looks at its own two slices.**  It succeeds if they have the same length. -/
theorem decides_of_slices (op : BinaryFn) (world : Fin n → Comm)
    (hx : Slices x t (some i) (fun r => Comm.before a r) a c)
    (hy : Slices y u (some j) (fun r => Comm.before b r) b c')
    (ha : (List.ofFn a).sum = t.shape.getD i 1) (hb : (List.ofFn b).sum = u.shape.getD j 1)
    (hnet : t.shape.getD i 1 ≠ 1) (hneu : u.shape.getD j 1 ≠ 1)
    (h : t.shape.broadcast u.shape = some s) (hs : s.volume < Size.modulus)
    (haxis : i + (s.length - t.ndim) = j + (s.length - u.ndim)) :
    ∃ (ev : List Event) (res : Fin n → Except Failure Sharded),
      Attempt.Runs (fun r => binary op (.tensor (x r)) (.tensor (y r)) (world r))
        (fun r => (ev, res r)) ∧
      (∀ r, a r = b r → ∃ z, res r = .ok z) ∧
      ∀ r, a r ≠ b r → a r ≠ 1 → b r ≠ 1 →
        ∃ e : Error, e.kind = .broadcast ∧ res r = .error (.error e) := by
  obtain ⟨hA, hpA⟩ := placed_of_slices hx ha hnet
  obtain ⟨hB, hpB⟩ := placed_of_slices hy hb hneu
  obtain ⟨-, hsplit⟩ := axes_of_slices h haxis
  obtain ⟨ev, res, hrun, hres⟩ := Spread.binary_decides hA hB hsplit h op world hpA hpB
  simp only [portion_of_slices hx hnet, portion_of_slices hy hneu] at hres
  refine ⟨ev, res, hrun, fun r heq => ?_, fun r hne => (hres r).2.2 ⟨rfl, rfl, hne⟩⟩
  refine ((hres r).1 (.inr ⟨?_, fun hne => hne.2.2 heq⟩)).exists_ok hs
  rintro (⟨hnone, -⟩ | ⟨hnone, -⟩)
  · cases hnone
  · cases hnone

/-- **Slices of the same lengths make consecutive slices of the result.** -/
theorem runs_of_slices (world : Fin n → Comm)
    (hx : Slices x t (some i) (fun r => Comm.before a r) a c)
    (hy : Slices y u (some j) (fun r => Comm.before a r) a c')
    (ha : (List.ofFn a).sum = t.shape.getD i 1) (hb : (List.ofFn a).sum = u.shape.getD j 1)
    (hnet : t.shape.getD i 1 ≠ 1) (hneu : u.shape.getD j 1 ≠ 1)
    (h : t.shape.broadcast u.shape = some v.shape)
    (haxis : i + (v.ndim - t.ndim) = j + (v.ndim - u.ndim)) (hv : v.Exact)
    (hd : v.dtype = DType.promote t.dtype u.dtype)
    (hrun : kernel op (t.cast (DType.promote t.dtype u.dtype))
      (u.cast (DType.promote t.dtype u.dtype)) = .ok v) :
    let k := i + (v.ndim - t.ndim)
    ∃ (ev : List Event) (dev : Fin n → Device) (comm : Fin n → Comm),
      Attempt.Runs (fun r => binary op (.tensor (x r)) (.tensor (y r)) (world r)) fun r =>
        (ev, .ok ⟨v.slice (some k) (Comm.before a r) (a r), v.shape,
          DType.promote t.dtype u.dtype, some k, dev r, comm r⟩) := by
  intro k
  obtain ⟨hA, hpA⟩ := placed_of_slices hx ha hnet
  obtain ⟨hB, hpB⟩ := placed_of_slices hy hb hneu
  obtain ⟨hndim, hsplit⟩ := axes_of_slices h haxis
  obtain ⟨d₁, d₂, hdtypes, hruns⟩ :=
    hA.agreed.zipShards_runs (kernel op) hB.agreed world hsplit h hpA hpB
  have hpromote : DType.promote d₁ d₂ = DType.promote t.dtype u.dtype := by
    have hdt := hdtypes 0
    rw [show (Spread.handles x _ _ _ c).operand 0 = .tensor (x 0) from rfl,
      show (Spread.handles y _ _ _ c').operand 0 = .tensor (y 0) from rfl,
      hx.handle 0, hy.handle 0] at hdt
    obtain ⟨rfl, rfl⟩ := Prod.mk.inj hdt
    rfl
  rw [hpromote, hndim] at hruns
  have hfinish := fun r =>
    finish_of_slices hx hy hnet hneu h hv hd hrun haxis (world r) d₁ d₂ r
  choose dev comm hfinish using hfinish
  exact ⟨_, dev, comm, hruns.congr hfinish⟩

omit [NeZero n] in
/-- What the lengths of consecutive slices tell. -/
theorem lengths_of_slices {z : Fin n → Sharded} {dev : Fin n → Device} {k : Nat} (hv : v.Exact)
    (hk : k < v.ndim) (ha : (List.ofFn a).sum = v.shape.getD k 1)
    (hz : ∀ r : Fin n, z r = ⟨v.slice (some k) (Comm.before a r) (a r), v.shape, d, some k, dev r,
      c r⟩) :
    let len : Fin n → Nat := fun r => (z r).shard.shape.getD k 1
    (List.ofFn len).sum = v.shape.getD k 1 ∧
      ∀ r : Fin n, (z r).gshape = v.shape ∧ (z r).dtype = d ∧ (z r).split = some k ∧
        v.narrow k (Comm.before len r) (len r) = .ok (z r).shard := by
  intro len
  have hlen : len = a := by
    funext r
    show (z r).shard.shape.getD k 1 = a r
    rw [hz r]
    exact (v.getD_shape_slice k hk).trans (if_pos rfl)
  rw [hlen]
  refine ⟨ha, fun r => ?_⟩
  rw [hz r]
  refine ⟨rfl, rfl, rfl, hv.narrow_eq hk ?_⟩
  rw [← ha]
  exact Comm.before_add_le a r

end

/-- **Functions of consecutive slices.**  The tensors `t` and `u` are split along one axis of the
result, of which they have several entries, and the ranks hold consecutive slices of any lengths.
A rank succeeds if its two slices have the same length, and cannot combine slices of different
lengths, unless one of them has one entry.  If all ranks succeed, and no slice of one entry meets a
slice of another length, they have consecutive slices of the result that make up its axis. -/
theorem binary_slices [NeZero n] {a b : Fin n → Nat} {c c' : Fin n → Comm}
    {dev dev' : Fin n → Device} {x y : Fin n → Sharded} (hop : op ≠ .div)
    (world : Fin n → Comm) (ht : t.Exact) (hu : u.Exact) (hc : Comm.Spans c)
    (hc' : Comm.Spans c') (ha : (List.ofFn a).sum = t.shape.getD i 1)
    (hb : (List.ofFn b).sum = u.shape.getD j 1)
    (hx : ∀ r : Fin n, create (t.slice (some i) (Comm.before a r) (a r)) t.shape t.dtype (some i)
      (dev r) (c r) = .ok (x r))
    (hy : ∀ r : Fin n, create (u.slice (some j) (Comm.before b r) (b r)) u.shape u.dtype (some j)
      (dev' r) (c' r) = .ok (y r))
    (h : t.shape.broadcast u.shape = some s) (hs : s.volume < Size.modulus)
    (haxis : i + (s.length - t.ndim) = j + (s.length - u.ndim))
    (hext : t.shape.getD i 1 = u.shape.getD j 1) (htwo : 2 ≤ t.shape.getD i 1) :
    let d := DType.promote t.dtype u.dtype
    let k := i + (s.length - t.ndim)
    ∃ (v : Tensor) (ev : List Event) (res : Fin n → Except Failure Sharded),
      (t.cast d).binary op (u.cast d) = .ok v ∧
      Attempt.Runs (fun r => binary op (.tensor (x r)) (.tensor (y r)) (world r))
        (fun r => (ev, res r)) ∧
      (∀ r, a r = b r → ∃ z, res r = .ok z) ∧
      (∀ r, a r ≠ b r → a r ≠ 1 → b r ≠ 1 →
        ∃ e : Error, e.kind = .broadcast ∧ res r = .error (.error e)) ∧
      ∀ z : Fin n → Sharded, (∀ r, res r = .ok (z r)) → (∀ r, a r = 1 ∨ b r = 1 → a r = b r) →
        let len : Fin n → Nat := fun r => (z r).shard.shape.getD k 1
        (List.ofFn len).sum = s.getD k 1 ∧
        ∀ r : Fin n, (z r).gshape = s ∧ (z r).dtype = d ∧ (z r).split = some k ∧
          v.narrow k (Comm.before len r) (len r) = .ok (z r).shard := by
  intro d k
  have hsx := slices_of_create ht hc (fun s hs => Option.some.inj hs ▸ ha) hx
  have hsy := slices_of_create hu hc' (fun s hs => Option.some.inj hs ▸ hb) hy
  have hnet : t.shape.getD i 1 ≠ 1 := by omega
  have hneu : u.shape.getD j 1 ≠ 1 := by omega
  obtain ⟨v, hv, hvx, rfl, hvd, -⟩ := (ht.cast d).binary_cut op (hu.cast d) rfl h hs
  obtain ⟨ev, res, hrun, hok, hrefuse⟩ :=
    decides_of_slices op world hsx hsy ha hb hnet hneu h hs haxis
  refine ⟨v, ev, res, hv, hrun, hok, hrefuse, fun z hz hone => ?_⟩
  -- a rank with different lengths would have failed
  have heq : a = b := by
    funext r
    by_contra hne
    obtain ⟨e, -, he⟩ := hrefuse r hne (fun h1 => hne (hone r (.inl h1)))
      fun h1 => hne (hone r (.inr h1))
    exact nomatch he.symm.trans (hz r)
  subst heq
  obtain ⟨ev', dev, comm, hrun'⟩ := runs_of_slices world hsx hsy ha hb hnet hneu h haxis hvx hvd
    ((kernel_of_ne hop _ _).trans hv)
  have hslice : ∀ r, z r = ⟨v.slice (some k) (Comm.before a r) (a r), v.shape, d, some k, dev r,
      comm r⟩ := by
    intro r
    have hres := congrArg Prod.snd (congrFun (hrun.unique hrun') r)
    rw [hz r] at hres
    exact Except.ok.inj hres
  obtain ⟨-, hk, hkv⟩ := Shape.covers_axis (Shape.broadcastsTo_left h) (hsx.axis_lt i rfl) hnet
  exact lengths_of_slices hvx hk (ha.trans hkv.symm) hslice

/-- Three words next to three words, of which the first rank has one and the second rank two. -/
theorem binary_slices_three_words :
    let t : Tensor := ⟨[3], ⟨.i64, [.ofInt 1, .ofInt 2, .ofInt 3]⟩⟩
    let u : Tensor := ⟨[3], ⟨.i64, [.ofInt 10, .ofInt 20, .ofInt 30]⟩⟩
    let len : Fin 2 → Nat := ![1, 2]
    let x (w : Tensor) (r : Fin 2) : Sharded :=
      ⟨w.slice (some 0) (Comm.before len r) (len r), [3], .i64, some 0, .cpu, .member 0 r 2⟩
    ∃ (v : Tensor) (ev : List Event) (z : Fin 2 → Sharded),
      (t.cast .i64).binary .add (u.cast .i64) = .ok v ∧
      Attempt.Runs (fun r => binary .add (.tensor (x t r)) (.tensor (x u r)) (.member 0 r 2))
        (fun r => (ev, .ok (z r))) ∧
      ∀ r : Fin 2, (z r).split = some 0 ∧
        v.narrow 0 (Comm.before (fun r => (z r).shard.shape.getD 0 1) r)
          ((z r).shard.shape.getD 0 1) = .ok (z r).shard := by
  intro t u len x
  have hexact : ∀ i j k : Int,
      (⟨[3], ⟨.i64, [.ofInt i, .ofInt j, .ofInt k]⟩⟩ : Tensor).Exact := fun _ _ _ =>
    ⟨rfl, (by decide : Shape.volume [3] < Size.modulus)⟩
  have hc : Comm.Spans fun r : Fin 2 => .member 0 r 2 := .inl ⟨0, fun _ => rfl⟩
  have hcreate : ∀ (w : Tensor), w.shape = [3] → w.dtype = .i64 → ∀ r : Fin 2,
      create (w.slice (some 0) (Comm.before len r) (len r)) w.shape w.dtype (some 0) .cpu
        (.member 0 r 2) = .ok (x w r) := by
    intro w hshape hd r
    rw [create_slice, hshape, hd]
    rintro s ⟨⟩
    rw [Tensor.ndim, hshape]
    exact ⟨Nat.one_pos, by revert r; decide⟩
  obtain ⟨v, ev, res, hv, hrun, hok, -, hslices⟩ := binary_slices
    (by decide : BinaryFn.add ≠ .div) (fun r => .member 0 r 2) (hexact 1 2 3) (hexact 10 20 30)
    hc hc (a := len) (b := len) (by decide) (by decide) (hcreate t rfl rfl) (hcreate u rfl rfl)
    (s := [3]) rfl (by decide) rfl rfl (by decide)
  choose z hz using fun r => hok r rfl
  obtain ⟨-, hz'⟩ := hslices z hz fun _ _ => rfl
  simp only [hz] at hrun
  refine ⟨v, ev, z, hv, hrun, fun r => ?_⟩
  obtain ⟨-, -, hsplit, hslice⟩ := hz' r
  exact ⟨hsplit, hslice⟩

end Sharded

end SpmdArray
