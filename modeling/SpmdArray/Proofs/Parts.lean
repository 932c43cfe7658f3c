import SpmdArray.Proofs.GroupReduction
import SpmdArray.Proofs.Sources
import SpmdArray.Sharded.Unary

/-!
# Handles on the parts of one tensor

Handles on which all ranks hold their balanced parts of one tensor are closed under the
functions of this library: whatever the ranks make of them, all of them fail in the same way,
or they hold the parts of another tensor.

## Main definitions

* `Sharded.Coherent x` — what the ranks can rely on without having checked it.
* `Sharded.Parts x` — the handles `x` are on the parts of one tensor.
* `Attempt.Together` — all ranks fail in the same way, or they hold the parts of one tensor.

## Main results

* `Sharded.Parts.coherent` — parts of one tensor are coherent.
* `Sharded.Parts.unary`, `Source.binary_together`, `Sharded.Parts.reduce_together` — what the
  functions make of parts.
-/

namespace SpmdArray

namespace Sharded

variable {n : Nat} {x : Fin n → Sharded}

/-- What the ranks of a group take for granted about their handles on one tensor. -/
structure Coherent (x : Fin n → Sharded) : Prop where
  /-- The global shape is the same on all ranks. -/
  gshape : ∀ r q, (x r).gshape = (x q).gshape
  /-- The split axis is the same on all ranks. -/
  split : ∀ r q, (x r).split = (x q).split
  /-- The element type is the same on all ranks. -/
  dtype : ∀ r q, (x r).dtype = (x q).dtype
  /-- The device is the same on all ranks. -/
  device : ∀ r q, (x r).device = (x q).device
  /-- An unsplit tensor is the same on all ranks. -/
  unsplit : ∀ r q, (x r).split = none → (x r).shard = (x q).shard
  /-- A split tensor is shared out in balanced chunks. -/
  balanced : ∀ r s, (x r).split = some s → s < (x r).gshape.length ∧ (x r).shard.shape
    = (x r).gshape.set s (Chunk.balanced ((x r).gshape.getD s 1) r n).length

/-- `Parts x` says that all ranks have the handles that they would have made of one tensor. -/
def Parts (x : Fin n → Sharded) : Prop :=
  ∃ t k c, t.Exact ∧ (∀ s, k = some s → s < t.ndim) ∧ Comm.Spans c ∧ ∀ r, x r = ofWhole t k (c r)

theorem ofWhole_eq {c : Fin n → Comm} (hc : Comm.Spans c) (t : Tensor) (k : Option Nat)
    (r : Fin n) : ofWhole t k (c r) = ⟨t.part k r n, t.shape, t.dtype, k, .cpu, c r⟩ := by
  rw [ofWhole, hc.rank_eq, hc.size_eq]

/-- **Parts of one tensor are coherent.** -/
theorem Parts.coherent (h : Parts x) : Coherent x := by
  obtain ⟨t, k, c, ht, hk, hc, hx⟩ := h
  have hx : ∀ r, x r = ⟨t.part k r n, t.shape, t.dtype, k, .cpu, c r⟩ := fun r =>
    (hx r).trans (ofWhole_eq hc t k r)
  refine ⟨fun r q => by rw [hx r, hx q], fun r q => by rw [hx r, hx q],
    fun r q => by rw [hx r, hx q], fun r q => by rw [hx r, hx q], fun r q hnone => ?_,
    fun r s hs => ?_⟩
  · rw [hx r] at hnone
    obtain rfl : k = none := hnone
    rw [hx r, hx q]
    rfl
  · rw [hx r] at hs ⊢
    obtain rfl : k = some s := hs
    exact ⟨hk s rfl, rfl⟩

end Sharded

namespace Sharded

variable {n : Nat}

theorem ofGlobal_of_invalid {t : Tensor} {s : Nat} (h : t.ndim ≤ s) (c : Comm) :
    ofGlobal t (some s) c = .error (.error (.invalidAxis (Size.signed s) t.ndim)) := by
  have hnone : t.shape[s]? = none := List.getElem?_eq_none h
  unfold ofGlobal
  simp only [Option.bind_some, hnone, Option.map_none]
  exact if_pos h

/-- The handles on a tensor that all ranks know in full are on its parts, or are refused. -/
theorem ofGlobal_together {t : Tensor} {k : Option Nat} {c : Fin n → Comm} (ht : t.Exact)
    (hc : Comm.Spans c) :
    (∃ e : Error, ∀ r, ofGlobal t k (c r) = .error (.error e)) ∨
      ∃ x, Parts x ∧ ∀ r, ofGlobal t k (c r) = .ok (x r) := by
  by_cases hk : ∀ s, k = some s → s < t.ndim
  · refine .inr ⟨fun r => ofWhole t k (c r), ⟨t, k, c, ht, hk, hc, fun _ => rfl⟩, fun r => ?_⟩
    exact ofGlobal_eq ht hk (by rw [hc.rank_eq, hc.size_eq]; exact r.isLt)
  · push Not at hk
    obtain ⟨s, rfl, hs⟩ := hk
    exact .inl ⟨_, fun r => ofGlobal_of_invalid hs (c r)⟩

end Sharded

/-! ### Functions of one tensor -/

namespace Tensor

variable {t : Tensor} {k : Option Nat} {rank size : Nat}

theorem Exact.unary (ht : t.Exact) (f : UnaryFn) : (t.unary f).Exact :=
  ⟨(List.length_map _).trans ht.count, ht.sized⟩

theorem unary_window {axis start len : Nat} (ht : t.Exact)
    (h : start + len ≤ t.shape.getD axis 1) (f : UnaryFn) :
    (t.window axis start len).unary f = (t.unary f).window axis start len := by
  rw [ht.eq_tabulate, window_tabulate h, unary_tabulate, unary_tabulate, window_tabulate h]

theorem cast_part (ht : t.Exact) (hr : rank < size) (d : DType) :
    (t.part k rank size).cast d = (t.cast d).part k rank size := by
  cases k with
  | none => rfl
  | some s =>
    exact cast_window ht (Chunk.start_add_length_le hr) d

theorem unary_part (ht : t.Exact) (hr : rank < size) (f : UnaryFn) :
    (t.part k rank size).unary f = (t.unary f).part k rank size := by
  cases k with
  | none => rfl
  | some s =>
    exact unary_window ht (Chunk.start_add_length_le hr) f

end Tensor

namespace Sharded

variable {n : Nat} {x : Fin n → Sharded}

theorem Parts.unary (h : Parts x) (f : UnaryFn) :
    ∃ y, Parts y ∧ ∀ r, (x r).unary f = .ok (y r) := by
  obtain ⟨t, k, c, ht, hk, hc, hx⟩ := h
  have hv := (ht.cast t.dtype.toFloat).unary f
  refine ⟨fun r => ofWhole ((t.cast t.dtype.toFloat).unary f) k (c r),
    ⟨_, k, c, hv, hk, hc, fun r => rfl⟩, fun r => ?_⟩
  have hcreate := create_part (t := (t.cast t.dtype.toFloat).unary f) .cpu (c r) hk r.isLt
  rw [← ofWhole_eq hc, ← Tensor.unary_part (ht.cast _) r.isLt,
    ← Tensor.cast_part ht r.isLt] at hcreate
  rw [hx r, ofWhole_eq hc]
  exact hcreate

end Sharded

/-- All ranks of a group fail in the same way, or they have the handles that they would have
made of one tensor. -/
def Attempt.Together {n : Nat} (ps : Fin n → Attempt Sharded) : Prop :=
  (∃ (ev : Fin n → List Event) (e : Error),
    Attempt.Runs ps fun r => (ev r, .error (.error e))) ∨
  ∃ (ev : Fin n → List Event) (x : Fin n → Sharded),
    Sharded.Parts x ∧ Attempt.Runs ps fun r => (ev r, .ok (x r))

/-! ### Functions of two operands -/

namespace Source

variable {n : Nat} {a b : Source n}

/-- A side comes from no tensor on any rank, or from the parts of one. -/
theorem origin_cases (ha : a.Valid) : (∀ r, a.origin r = none) ∨
    ∃ t k c, Comm.Spans c ∧ ∀ r, a.origin r = some (Sharded.ofWhole t k (c r)) := by
  cases a with
  | scalar s => exact .inl fun _ => rfl
  | tensor t k c => exact .inr ⟨t, k, c, ha.2.2, fun _ => rfl⟩

theorem resultOrigin_cases (ha : a.Valid) (hb : b.Valid) (da db : DType) (ndim : Nat) :
    (∀ r, Sharded.resultOrigin (a.side da ndim r) (b.side db ndim r) = none) ∨
    ∃ t k c, Comm.Spans c ∧ ∀ r, Sharded.resultOrigin (a.side da ndim r) (b.side db ndim r)
      = some (Sharded.ofWhole t k (c r)) := by
  have horigin : ∀ r, Sharded.resultOrigin (a.side da ndim r) (b.side db ndim r)
      = if (a.axisIn ndim a.kept).isSome then a.origin r
        else if (b.axisIn ndim b.kept).isSome then b.origin r
        else a.origin r <|> b.origin r := fun r => rfl
  simp only [horigin]
  split
  · exact origin_cases ha
  · split
    · exact origin_cases hb
    · rcases origin_cases ha with hnone | ⟨t, k, c, hc, hsome⟩
      · simp only [hnone]
        exact origin_cases hb
      · simp only [hsome]
        exact .inr ⟨t, k, c, hc, fun _ => rfl⟩

theorem parts_result {v : Tensor} {world : Fin n → Comm} (ha : a.Valid) (hb : b.Valid)
    (hw : Comm.Spans world) (hv : v.Exact) (haxis : ∀ i, resultSplit a b = some i → i < v.ndim) :
    Sharded.Parts (result a b v world) := by
  rcases resultOrigin_cases ha hb (dtypes a b).1 (dtypes a b).2 (ndim a b)
    with hnone | ⟨t, k, c, hc, hsome⟩
  · refine ⟨v, _, world, hv, haxis, hw, fun r => ?_⟩
    rw [Sharded.ofWhole_eq hw, result]
    simp only [Sharded.commOf, Sharded.deviceOf, hnone]
    rfl
  · refine ⟨v, _, c, hv, haxis, hc, fun r => ?_⟩
    rw [Sharded.ofWhole_eq hc, result]
    simp only [Sharded.commOf, Sharded.deviceOf, hsome]
    rfl

/-- **A function of two operands** if the volume of the result is a size. -/
theorem binary_together [NeZero n] {op : BinaryFn} (hop : op ≠ .div) (ha : a.Valid) (hb : b.Valid)
    {world : Fin n → Comm} (hw : Comm.Spans world)
    (hs : ∀ s, a.gshape.broadcast b.gshape = some s → s.volume < Size.modulus) :
    Attempt.Together fun r => Sharded.binary op (a.operand r) (b.operand r) (world r) := by
  by_cases hsplit : ∀ i j, a.axisIn (ndim a b) a.split = some i →
      b.axisIn (ndim a b) b.split = some j → i = j
  · cases h : a.gshape.broadcast b.gshape with
    | none => exact .inl ⟨_, _, binary_runs_of_none op world hsplit h⟩
    | some s =>
      obtain ⟨v, ev, -, hv, -, -, haxis, hrun⟩ := binary_runs hop ha hb world h (hs s h) hsplit
      exact .inr ⟨_, _, parts_result ha hb hw hv haxis, hrun⟩
  · push Not at hsplit
    obtain ⟨i, j, hi, hj, hne⟩ := hsplit
    exact .inl ⟨_, _, binary_runs_of_ne op world hi hj hne⟩

end Source

/-! ### Reductions -/

namespace Sharded

variable {n : Nat} {x : Fin n → Sharded} {axis : Axis} {keepdim : Bool}

/-- Parts are consecutive slices. -/
theorem slices_ofWhole {t : Tensor} {k : Option Nat} {c : Fin n → Comm} (ht : t.Exact)
    (hk : ∀ s, k = some s → s < t.ndim) (hc : Comm.Spans c) (hx : ∀ r, x r = ofWhole t k (c r)) :
    Slices x t k (fun r => (Chunk.balanced (t.shape.getD (k.getD 0) 1) r n).start)
      (fun r => (Chunk.balanced (t.shape.getD (k.getD 0) 1) r n).length) c where
  exact := ht
  spans := hc
  axis_lt := hk
  fits s hs r := by
    subst hs
    exact Chunk.start_add_length_le r.isLt
  handle r := by
    rw [hx r, ofWhole_eq hc, Tensor.part_eq_slice]

/-- The slices of a result are its parts. -/
theorem slice_eq_part {p : Plan} {s : Shape} {k : Option Nat} {v : Tensor} (hp : p.Valid s)
    (hv : v.shape = p.gshape s) (r : Fin n) :
    v.slice (p.split k) (Chunk.balanced (s.getD (k.getD 0) 1) r n).start
        (Chunk.balanced (s.getD (k.getD 0) 1) r n).length
      = v.part (p.split k) r n := by
  rw [Tensor.part_eq_slice]
  cases hi : p.split k with
  | none => rfl
  | some i =>
    obtain ⟨j, rfl, hkeeps, rfl⟩ := Plan.split_eq_some hi
    simp only [Option.getD_some, hv, Plan.getD_gshape_moved hp hkeeps]

theorem reduce_parts [NeZero n] {t : Tensor} {k : Option Nat} {c : Fin n → Comm} (ht : t.Exact)
    (hk : ∀ s, k = some s → s < t.ndim) (hc : Comm.Spans c) (hx : ∀ r, x r = ofWhole t k (c r))
    (how : Fin n → Grouping) (stat : Statistic) {axes : Option (List Nat)}
    (haxes : axis.resolve t.shape = .ok axes)
    (hsettled : Plan.Settled ⟨axes, keepdim⟩ how stat t k) {outs : Fin n → Option Sharded}
    (hout : ∀ r o, outs r = some o → o.gshape = Plan.gshape ⟨axes, keepdim⟩ t.shape) :
    ∃ (ev : Fin n → List Event) (y : Fin n → Sharded), Parts y ∧ Attempt.Runs
      (fun r => reduceFor (stat.reduceTensor (how r)) stat.reducer (x r) axis keepdim (outs r))
      fun r => (ev r, .ok (y r)) := by
  have hp := Axis.valid_of_resolve haxes keepdim
  let start : Fin n → Nat := fun r => (Chunk.balanced (t.shape.getD (k.getD 0) 1) r n).start
  let len : Fin n → Nat := fun r => (Chunk.balanced (t.shape.getD (k.getD 0) 1) r n).length
  let v := Plan.whole ⟨axes, keepdim⟩ how stat t k start len 0
  have hwhole : ∀ r, Plan.whole ⟨axes, keepdim⟩ how stat t k start len r = v :=
    fun r => Plan.whole_eq hsettled r 0
  have hrun := reduceFor_runs how stat outs (slices_ofWhole ht hk hc hx) haxes hout
  -- consecutive balanced slices of the result are its parts again
  have hhandle : ∀ r, (⟨v.slice (Plan.split ⟨axes, keepdim⟩ k) (start r) (len r), v.shape,
      v.dtype, Plan.split ⟨axes, keepdim⟩ k, (x r).device, c r⟩ : Sharded)
      = ofWhole v (Plan.split ⟨axes, keepdim⟩ k) (c r) := by
    intro r
    rw [ofWhole_eq hc, slice_eq_part hp Plan.shape_whole, hx r]
    rfl
  simp only [start, len] at hhandle hwhole
  simp only [hwhole, hhandle] at hrun
  have hexact : v.Exact := (Plan.exact_gathered how stat k start len 0 ht).cast _
  refine ⟨_, _, ⟨v, _, c, hexact, fun i hi => ?_, hc, fun r => rfl⟩, hrun⟩
  obtain ⟨s, hs, hkeeps, rfl⟩ := Plan.split_eq_some hi
  rw [Tensor.ndim, Plan.shape_whole]
  exact Plan.moved_lt hp hkeeps (hk s hs)

/-- **A reduction** over which the ranks agree. -/
theorem Parts.reduce_together [NeZero n] (h : Parts x) (how : Fin n → Grouping) (stat : Statistic)
    (hsettled : axis = .all → (x 0).split = none →
      stat.reducer.Divisible (stat.workType (x 0).dtype) ∨
        (x 0).gshape.prod < Buffer.parallelThreshold ∨ ∀ r q, how r = how q)
    {outs : Fin n → Option Sharded}
    (hout : (∀ r, outs r = none) ∨ ∃ o, Parts o ∧ ∀ r, outs r = some (o r)) :
    Attempt.Together fun r =>
      reduceFor (stat.reduceTensor (how r)) stat.reducer (x r) axis keepdim (outs r) := by
  obtain ⟨t, k, c, ht, hk, hc, hx⟩ := h
  have hg : ∀ r, (x r).gshape = t.shape := fun r => by rw [hx r]; rfl
  rw [hx 0] at hsettled
  cases hres : axis.resolve t.shape with
  -- the argument and the output are the same on all ranks, so all of them refuse
  | error e =>
    refine .inl ⟨fun _ => [], e, ?_⟩
    have hthrow : ∀ r, reduceFor (stat.reduceTensor (how r)) stat.reducer (x r) axis keepdim
        (outs r) = throw (.error e) := fun r => reduceFor_of_invalid (by rw [hg r, hres])
    simp only [hthrow]
    exact Attempt.Runs.ofExcept fun _ => .error (.error e)
  | ok axes =>
    have hsettled : Plan.Settled ⟨axes, keepdim⟩ how stat t k := by
      rintro ⟨⟩ hnone
      exact hsettled (Axis.eq_all_of_resolve hres) hnone
    rcases hout with hnone | ⟨o, ⟨u, l, e, -, -, -, ho⟩, hsome⟩
    · exact .inr (reduce_parts ht hk hc hx how stat hres hsettled fun r o h => by
        rw [hnone r] at h
        cases h)
    · have hor : ∀ r, (o r).gshape = u.shape := fun r => by rw [ho r]; rfl
      by_cases hshape : u.shape = Plan.gshape ⟨axes, keepdim⟩ t.shape
      · refine .inr (reduce_parts ht hk hc hx how stat hres hsettled fun r q h => ?_)
        rw [hsome r] at h
        obtain rfl := Option.some.inj h
        exact (hor r).trans hshape
      · refine .inl ⟨fun _ => [],
          .shapeMismatch (Plan.gshape ⟨axes, keepdim⟩ t.shape) u.shape, ?_⟩
        have hthrow : ∀ r, reduceFor (stat.reduceTensor (how r)) stat.reducer (x r) axis keepdim
            (outs r)
            = throw (.error (.shapeMismatch (Plan.gshape ⟨axes, keepdim⟩ t.shape) u.shape)) := by
          intro r
          rw [hsome r, reduceFor_of_ne (by rw [hg r, hres]) (by rw [hg r, hor r]; exact hshape),
            hg r, hor r]
        simp only [hthrow]
        exact Attempt.Runs.ofExcept fun _ =>
          .error (.error (.shapeMismatch (Plan.gshape ⟨axes, keepdim⟩ t.shape) u.shape))

end Sharded

end SpmdArray
