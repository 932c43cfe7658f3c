import SpmdArray.Proofs.Assembly
import SpmdArray.Proofs.ExactReduction
import SpmdArray.Proofs.Parts

/-!
# Taking a tensor apart and putting it together again

Each rank writes its shard into zeros of the global shape.  Consecutive slices are written to
positions that no other rank writes to and leave no position out, so that the sum over the
ranks has the entries of the tensor.

## Main definitions

* `Tensor.held` — the entries of a slice, and zeros elsewhere.

## Main results

* `Buffer.put_coords`, `Tensor.scatter_slice` — what writing a slice into zeros leaves.
* `Tensor.foldRanks_held` — the entries that the ranks hold add up to the tensor.
* `Sharded.toGlobal_eq_assembled`, `Sharded.Parts.toGlobal_runs` — consecutive slices, and the
  parts of a tensor, are put together.
* `Sharded.toGlobal_roundTrip` — the same from the constructor, and for balanced slices.
-/

namespace SpmdArray

/-! ### Writing a slice -/

namespace Buffer

variable {α γ : Type}

/-- Writing one entry changes the value at one coordinate. -/
theorem set_coords {s : Shape} (z : List Nat → α) {e : List Nat} (he : s.Within e) (a : α) :
    (s.coords.map z).set (s.position e) a = s.coords.map (Function.update z e a) := by
  apply List.ext_getElem?
  intro i
  rw [List.getElem?_set, List.getElem?_map, List.getElem?_map, List.length_map,
    Shape.length_coords]
  rcases Nat.lt_or_ge i s.prod with hi | hi
  · rw [Shape.getElem?_coords hi, Option.map_some, Option.map_some]
    by_cases hpos : s.position e = i
    · rw [if_pos hpos, if_pos (hpos ▸ hi), ← hpos, Shape.digits_position he,
        Function.update_self]
    · have hne : s.digits i ≠ e := by
        rintro rfl
        exact hpos (Shape.position_digits hi)
      rw [if_neg hpos, Function.update_of_ne hne]
  · have hpos : s.position e ≠ i := by
      have := Shape.position_lt he
      omega
    have hnone : s.coords[i]? = none := List.getElem?_eq_none (by simpa using hi)
    rw [if_neg hpos, hnone]
    rfl

/-- **Writing entries of a tensor to their positions** leaves these entries, and what was there
before at the other positions. -/
theorem put_coords {s : Shape} (z f : List Nat → α) {l : List γ} {h : γ → List Nat}
    (hw : ∀ c ∈ l, s.Within (h c)) :
    put (s.coords.map z).toArray (l.map fun c => (s.position (h c), f (h c)))
      = (pure (), (s.coords.map fun e => if e ∈ l.map h then f e else z e).toArray) := by
  induction l generalizing z with
  | nil => rfl
  | cons c l ih =>
    have hc : s.Within (h c) := hw c List.mem_cons_self
    have hpos : s.position (h c) < (s.coords.map z).toArray.size := by
      simpa using Shape.position_lt hc
    have hset : (s.coords.map z).toArray.setIfInBounds (s.position (h c)) (f (h c))
        = (s.coords.map (Function.update z (h c) (f (h c)))).toArray := by
      rw [List.setIfInBounds_toArray, set_coords z hc]
    have hrest : ∀ c' ∈ l, s.Within (h c') := by
      intro c' hc'
      exact hw c' (List.mem_cons_of_mem _ hc')
    rw [List.map_cons, put, if_pos hpos, hset, ih _ hrest]
    congr 3
    funext e
    -- a later write to the same position writes the same entry
    by_cases he : e = h c
    · subst he
      rw [Function.update_self, ite_self, List.map_cons, if_pos List.mem_cons_self]
    · rw [Function.update_of_ne he]
      simp only [List.map_cons, List.mem_cons, he, false_or]

end Buffer

namespace Comm

variable {n : Nat} {len : Fin n → Nat}

/-- The slices of two ranks do not overlap. -/
theorem exists_owner {i : Nat} (hi : i < (List.ofFn len).sum) :
    ∃ q : Fin n, (before len q ≤ i ∧ i < before len q + len q) ∧
      ∀ r, r ≠ q → ¬ (before len r ≤ i ∧ i < before len r + len r) := by
  rw [← before_size] at hi
  obtain ⟨q, hq⟩ := exists_slice Nat.le.refl hi
  refine ⟨q, hq, ?_⟩
  intro r hr hin
  rcases Nat.lt_or_gt_of_ne (fun h => hr (Fin.ext h)) with hlt | hgt
  · have := slice_le len (show r < q from hlt)
    omega
  · have := slice_le len (show q < r from hgt)
    omega

end Comm

namespace Tensor

variable {n : Nat} {t : Tensor} {k start len : Nat}

/-- The entries of the slice `start..start + len` along axis `k`, and zeros elsewhere. -/
def held (t : Tensor) (k start len : Nat) : List (Elem t.dtype) :=
  t.shape.coords.map fun e =>
    if start ≤ e.getD k 0 ∧ e.getD k 0 < start + len then t.get e else Elem.zero t.dtype

@[simp] theorem length_held : (t.held k start len).length = t.shape.prod := by
  rw [held, List.length_map, Shape.length_coords]

/-- Zeros of the shape of a tensor. -/
theorem zeros_eq (t : Tensor) : Buffer.zeros t.dtype t.shape.prod
    = ⟨t.dtype, t.shape.coords.map fun _ => Elem.zero t.dtype⟩ := by
  rw [Buffer.zeros, List.map_const', Shape.length_coords]

/-- **A slice that is written into zeros** of the global shape. -/
theorem scatter_slice (ht : t.Exact) (hk : k < t.ndim) (hfit : start + len ≤ t.shape.getD k 1) :
    ∃ offsets, t.shape.narrowOffsets k start len = .ok offsets ∧
      (Buffer.zeros t.dtype t.shape.prod).scatter offsets (t.window k start len).buffer
        = ⟨.ok (), ⟨t.dtype, t.held k start len⟩⟩ := by
  let l : List (List Nat) := Shape.coords (t.shape.set k len)
  let h : List Nat → List Nat := Shape.shift k start
  refine ⟨_, Shape.narrowOffsets_eq ht.sized hk hfit, ?_⟩
  have hw : ∀ c ∈ l, t.shape.Within (h c) := by
    intro c hc
    exact Shape.within_shift hfit (Shape.mem_coords.mp hc)
  -- scattering the slice at its own coordinates leaves zeros at all others
  have hput := Buffer.put_coords (fun _ => Elem.zero t.dtype) t.get hw
  have hpairs : (l.map fun c => t.shape.position (h c)).zip (l.map fun c => t.get (h c))
      = l.map fun c => (t.shape.position (h c), t.get (h c)) := by
    rw [List.zip_map']
  have hheld : (t.shape.coords.map fun e => if e ∈ l.map h then t.get e else Elem.zero t.dtype)
      = t.held k start len := by
    refine List.map_congr_left fun e he => ?_
    have hmem := Shape.mem_map_shift (x := e) hk hfit
    simp only [Shape.mem_coords.mp he, true_and] at hmem
    simp only [l, h, hmem]
  have hsrc : Buffer.as? t.dtype (t.window k start len).buffer
      = some (l.map fun c => t.get (h c)) := Buffer.as?_self (t.window k start len).buffer
  have hlen : (l.map fun c => t.get (h c)).length
      = (l.map fun c => t.shape.position (h c)).length := by
    rw [List.length_map, List.length_map]
  rw [zeros_eq]
  unfold Buffer.scatter
  simp only [hsrc]
  rw [if_neg (fun hne => hne hlen), hpairs, hput, hheld]
  rfl

/-- Entries are held by the rank in whose slice they lie. -/
theorem across_held [NeZero n] {len : Fin n → Nat} (hk : k < t.ndim)
    (hlen : (List.ofFn len).sum = t.shape.getD k 1) (hd : t.dtype.isFloat = false)
    {e : List Nat} (he : t.shape.Within e) :
    @Comm.across t.dtype n .sum (fun r => if Comm.before len r ≤ e.getD k 0 ∧
        e.getD k 0 < Comm.before len r + len r then t.get e else Elem.zero t.dtype)
      = t.get e := by
  have hlawful : Reducer.Lawful .sum t.dtype := Reducer.lawful_sum hd
  obtain ⟨q, hq, hother⟩ := Comm.exists_owner (hlen ▸ (Shape.within_iff.mp he).2 k hk)
  rw [Comm.across_eq_total hlawful, hlawful.total_ofFn_eq_single _ q, if_pos hq]
  intro r hr
  exact if_neg (hother r hr)

/-- **The entries that the ranks hold add up to the tensor.** -/
theorem foldRanks_held [NeZero n] (ht : t.Exact) (hd : t.dtype.isFloat = false)
    {len : Fin n → Nat} (hk : k < t.ndim) (hlen : (List.ofFn len).sum = t.shape.getD k 1) :
    (⟨t.shape, ⟨t.dtype, Comm.foldRanks .sum
      (List.ofFn fun r : Fin n => t.held k (Comm.before len r) (len r))⟩⟩ : Tensor) = t := by
  have hfold : Comm.foldRanks .sum
      (List.ofFn fun r : Fin n => t.held k (Comm.before len r) (len r))
      = t.shape.coords.map t.get := by
    unfold held
    rw [Comm.foldRanks_ofFn]
    refine List.map_congr_left fun e he => ?_
    exact across_held hk hlen hd (Shape.mem_coords.mp he)
  rw [hfold]
  exact ht.eq_tabulate.symm

end Tensor

namespace Comm

variable {n : Nat}

/-- Balanced chunks are consecutive. -/
theorem before_balanced (extent : Nat) {m : Nat} (hm : m ≤ n) :
    before (fun r : Fin n => (Chunk.balanced extent r n).length) m
      = m * (extent / n) + min m (extent % n) := by
  induction m with
  | zero =>
    rw [Nat.zero_mul, Nat.zero_min]
    rfl
  | succ m ih =>
    have hlt : m < n := hm
    rw [before_succ _ ⟨m, hlt⟩, ih (Nat.le_of_lt hlt), Chunk.length_balanced, Nat.succ_mul]
    simp only
    split <;> omega

theorem before_balanced_eq_start (extent : Nat) (r : Fin n) :
    before (fun q : Fin n => (Chunk.balanced extent q n).length) r
      = (Chunk.balanced extent r n).start := by
  rw [before_balanced extent (Nat.le_of_lt r.isLt), Chunk.balanced_start]

/-- Balanced chunks make up the axis. -/
theorem sum_length_balanced [NeZero n] (extent : Nat) :
    (List.ofFn fun r : Fin n => (Chunk.balanced extent r n).length).sum = extent := by
  have hpos : 0 < n := Nat.pos_of_neZero n
  rw [← before_size, before_balanced extent Nat.le.refl,
    Nat.min_eq_right (Nat.le_of_lt (Nat.mod_lt _ hpos))]
  exact Nat.div_add_mod extent n

end Comm

/-! ### Putting the slices together -/

namespace Sharded

variable {n : Nat} {x : Fin n → Sharded} {t : Tensor} {k : Option Nat} {start len : Fin n → Nat}
  {c : Fin n → Comm}

/-- Handles on slices of one tensor agree. -/
theorem Slices.agree (hx : Slices x t k start len c) : Agree x t.shape t.dtype k c := by
  have hle : ∀ r s, k = some s → len r ≤ t.shape.getD s 1 := by
    intro r s hs
    have := hx.fits s hs r
    omega
  have hshard : ∀ r, (x r).shard = t.slice k (start r) (len r) := fun r =>
    congrArg Sharded.shard (hx.handle r)
  refine ⟨hx.spans, ?_, ?_, hx.exact.extents⟩
  · intro r
    rw [hshard, create_slice _ _ fun s hs => ⟨hx.axis_lt s hs, hle r s hs⟩]
    exact congrArg Except.ok (hx.handle r).symm
  · intro r
    have hexact : (t.slice k (start r) (len r)).Exact := hx.exact.slice (hle r)
    rw [hshard]
    exact hexact.numel_shape

/-- The collectives by which a group puts a tensor together. -/
def assembleEvents (t : Tensor) (k : Option Nat) (c : Fin n → Comm) (r : Fin n) : List Event :=
  if k.isSome ∧ 1 < n then
    [.allReduce (c r).group .i64 n .sum, .allReduce (c r).group t.dtype t.numel .sum]
  else []

/-- What a rank adds to the tensor: the entries that it holds. -/
theorem placed_slice {x : Sharded} {s start len : Nat} (ht : t.Exact) (hs : s < t.ndim)
    (hfit : start + len ≤ t.shape.getD s 1) (hshard : x.shard = t.window s start len)
    (hg : x.gshape = t.shape) (hd : x.dtype = t.dtype) :
    x.placed s start len = .ok ⟨t.dtype, t.held s start len⟩ := by
  obtain ⟨offsets, hoff, hput⟩ := Tensor.scatter_slice ht hs hfit
  unfold placed
  simp only [hg, hd, hshard, Shape.numel_of_volume_lt ht.sized, hoff, hput, lift_ok, ok_bind]
  rfl

/-- Without a split, and in a group of one rank, every rank has everything. -/
theorem slice_eq_whole [NeZero n] (ht : t.Exact) (hmeet : ¬ (k.isSome ∧ 1 < n))
    (hlen : ∀ s, k = some s → (List.ofFn len).sum = t.shape.getD s 1) (r : Fin n) :
    t.slice k (Comm.before len r) (len r) = t := by
  cases k with
  | none => rfl
  | some s =>
    have hone : n = 1 := by
      have := Nat.pos_of_neZero n
      have : ¬ 1 < n := fun hn => hmeet ⟨rfl, hn⟩
      omega
    subst hone
    obtain rfl : r = 0 := Fin.fin_one_eq_zero r
    have hall : len 0 = t.shape.getD s 1 := by
      rw [← hlen s rfl]
      simp
    show t.window s 0 (len 0) = t
    rw [hall, ht.window_self]

/-- What a group makes of consecutive slices: the sum of the entries that the ranks hold. -/
def assembled (t : Tensor) (k : Option Nat) (len : Fin n → Nat) : Tensor :=
  if k.isSome ∧ 1 < n then
    ⟨t.shape, ⟨t.dtype, Comm.foldRanks .sum
      (List.ofFn fun r : Fin n => t.held (k.getD 0) (Comm.before len r) (len r))⟩⟩
  else t

/-- **Consecutive slices of any lengths are put together** on every rank. -/
theorem toGlobal_eq_assembled [NeZero n] (hx : Slices x t k (fun r => Comm.before len r) len c)
    (hlen : ∀ s, k = some s → (List.ofFn len).sum = t.shape.getD s 1)
    (hroom : ∀ s, k = some s → t.shape.getD s 1 < 2 ^ 63) :
    Attempt.Runs (fun r => (x r).toGlobal) fun r =>
      (assembleEvents t k c r, .ok (assembled t k len)) := by
  have hagree := hx.agree
  have hshard : ∀ r, (x r).shard = t.slice k (Comm.before len r) (len r) := fun r =>
    congrArg Sharded.shard (hx.handle r)
  unfold assembled
  -- only a split tensor on several ranks is assembled; otherwise each shard is the tensor
  by_cases hmeet : k.isSome ∧ 1 < n
  · obtain ⟨hsome, hn⟩ := hmeet
    obtain ⟨s, rfl⟩ := Option.isSome_iff_exists.mp hsome
    obtain ⟨group, hc⟩ := hx.spans.members hn
    have hs : s < t.ndim := hx.axis_lt s rfl
    have hsum := hlen s rfl
    have hroom := hroom s rfl
    have hown : (fun r => (x r).shard.shape.getD s 1) = len := by
      funext r
      rw [hshard, t.getD_shape_slice s hs, if_pos rfl]
    -- all positions of entries of the axis are sizes, and read as such
    have hmod : Size.modulus = 2 ^ 64 := rfl
    have hplaced : ∀ r : Fin n, (x r).placed s
        (Comm.before (fun q => (x q).shard.shape.getD s 1) r % Size.modulus)
        ((x r).shard.shape.getD s 1) = .ok ⟨t.dtype, t.held s (Comm.before len r) (len r)⟩ := by
      intro r
      have hfit : Comm.before len r + len r ≤ t.shape.getD s 1 := hx.fits s rfl r
      rw [hown, congrFun hown r, Nat.mod_eq_of_lt (by omega)]
      exact placed_slice hx.exact hs hfit (hshard r) (hagree.gshape r) (hagree.dtype r)
    have hheld : ∀ r : Fin n, (t.held s (Comm.before len r) (len r)).length = t.shape.prod :=
      fun r => Tensor.length_held
    have hcomplete : total (lengthWords (List.ofFn fun r => (x r).shard.shape.getD s 1))
        = .ok (Size.signed (t.shape.getD s 1)) := by
      rw [hown]
      exact total_of_complete hsum hroom
    have hrun := toGlobal_of_placed hagree hc hn (Shape.numel_of_volume_lt hx.exact.sized) hcomplete
      _ hheld hplaced
    rw [← hx.exact.count] at hrun
    rw [if_pos ⟨hsome, hn⟩]
    simp only [assembleEvents, hn, hc]
    exact hrun
  · have hwhole : ∀ r, (x r).toGlobal = pure t := by
      intro r
      have hsplit : (x r).split = none ∨ (x r).comm.isDistributed = false := by
        rw [hagree.split, hagree.comm, hx.spans.isDistributed_eq]
        cases k with
        | none => exact .inl rfl
        | some s => exact .inr (decide_eq_false fun hn => hmeet ⟨rfl, hn⟩)
      rw [toGlobal_of_whole hsplit, hshard, slice_eq_whole hx.exact hmeet hlen]
    rw [if_neg hmeet]
    simp only [hwhole, assembleEvents, if_neg hmeet]
    exact Attempt.Runs.pure fun _ => t

/-- Consecutive slices are put together to a tensor of the shape and type of the one that they
are from; sums of integers leave its entries as they are. -/
theorem toGlobal_of_slices [NeZero n] (hx : Slices x t k (fun r => Comm.before len r) len c)
    (hlen : ∀ s, k = some s → (List.ofFn len).sum = t.shape.getD s 1)
    (hroom : ∀ s, k = some s → t.shape.getD s 1 < 2 ^ 63) :
    ∃ u : Tensor, u.shape = t.shape ∧ u.dtype = t.dtype ∧ (t.dtype.isFloat = false → u = t) ∧
      Attempt.Runs (fun r => (x r).toGlobal) fun r => (assembleEvents t k c r, .ok u) := by
  refine ⟨assembled t k len, ?_, ?_, ?_, toGlobal_eq_assembled hx hlen hroom⟩
  · unfold assembled
    split <;> rfl
  · unfold assembled
    split <;> rfl
  · intro hd
    unfold assembled
    split
    · next hmeet =>
      obtain ⟨s, rfl⟩ := Option.isSome_iff_exists.mp hmeet.1
      exact Tensor.foldRanks_held hx.exact hd (hx.axis_lt s rfl) (hlen s rfl)
    · rfl

/-- How much the ranks of a group hold of a tensor in balanced chunks. -/
def balancedLengths (n : Nat) (t : Tensor) (k : Option Nat) : Fin n → Nat := fun r =>
  (Chunk.balanced (t.shape.getD (k.getD 0) 1) r n).length

theorem sum_balancedLengths [NeZero n] (t : Tensor) {s : Nat} (hs : k = some s) :
    (List.ofFn (balancedLengths n t k)).sum = t.shape.getD s 1 := by
  subst hs
  exact Comm.sum_length_balanced _

/-- Balanced chunks are consecutive slices. -/
theorem slices_balanced (ht : t.Exact) (hk : ∀ s, k = some s → s < t.ndim) (hc : Comm.Spans c)
    (hx : ∀ r, x r = ofWhole t k (c r)) :
    Slices x t k (fun r => Comm.before (balancedLengths n t k) r) (balancedLengths n t k) c := by
  have hslices := slices_ofWhole ht hk hc hx
  simp only [← Comm.before_balanced_eq_start] at hslices
  exact hslices

/-- **The parts of a tensor are put together** on every rank. -/
theorem Parts.toGlobal_runs [NeZero n] (h : Parts x)
    (hroom : ∀ s, (x 0).split = some s → (x 0).gshape.getD s 1 < 2 ^ 63) :
    ∃ (ev : Fin n → List Event) (u : Tensor), u.shape = (x 0).gshape ∧ u.dtype = (x 0).dtype ∧
      Attempt.Runs (fun r => (x r).toGlobal) fun r => (ev r, .ok u) := by
  obtain ⟨t, k, c, ht, hk, hc, hx⟩ := h
  rw [hx 0] at hroom
  obtain ⟨u, hshape, hd, -, hrun⟩ :=
    toGlobal_of_slices (slices_balanced ht hk hc hx) (fun s hs => sum_balancedLengths t hs) hroom
  refine ⟨_, u, ?_, ?_, hrun⟩
  · rw [hshape, hx 0]
    rfl
  · rw [hd, hx 0]
    rfl

/-- **Whatever slices the ranks hold of a tensor of truth values or integers, each of them gets
the tensor back.**  The slices may have any lengths, zero among them, as long as they are
consecutive and make up the split axis.  In particular, a tensor that is taken apart in balanced
chunks comes back unchanged. -/
theorem toGlobal_roundTrip [NeZero n] (ht : t.Exact) (hd : t.dtype.isFloat = false)
    (hc : Comm.Spans c) (hk : ∀ s, k = some s → s < t.ndim)
    (hroom : ∀ s, k = some s → t.shape.getD s 1 < 2 ^ 63) :
    (∀ (len : Fin n → Nat) (dev : Fin n → Device) (x : Fin n → Sharded),
      (∀ s, k = some s → (List.ofFn len).sum = t.shape.getD s 1) →
      (∀ r : Fin n, create (t.slice k (Comm.before len r) (len r)) t.shape t.dtype k (dev r)
        (c r) = .ok (x r)) →
      Attempt.Runs (fun r => (x r).toGlobal) fun r => (assembleEvents t k c r, .ok t)) ∧
    Attempt.Runs (fun r => do
        let x ← (ofGlobal t k (c r) : Except Failure Sharded)
        x.toGlobal)
      fun r => (assembleEvents t k c r, .ok t) := by
  refine ⟨?_, ?_⟩
  · intro len dev x hlen hx
    obtain ⟨u, -, -, hu, hrun⟩ := toGlobal_of_slices (slices_of_create ht hc hlen hx) hlen hroom
    obtain rfl := hu hd
    exact hrun
  · have hslices := slices_balanced ht hk hc fun r => rfl
    obtain ⟨u, -, -, hu, hrun⟩ :=
      toGlobal_of_slices hslices (fun s hs => sum_balancedLengths t hs) hroom
    obtain rfl := hu hd
    have hscatter : ∀ r, ofGlobal u k (c r) = .ok (ofWhole u k (c r)) := by
      intro r
      exact ofGlobal_eq ht hk (by rw [hc.rank_eq, hc.size_eq]; exact r.isLt)
    simp only [hscatter]
    exact hrun

/-- Three words, of which the first rank holds none, the second one and the third two. -/
theorem toGlobal_roundTrip_three_words :
    let t : Tensor := ⟨[3], ⟨.u8, [.ofInt 200, .ofInt 50, .ofInt 6]⟩⟩
    let len : Fin 3 → Nat := fun r => r
    Attempt.Runs
      (fun r => toGlobal ⟨t.slice (some 0) (Comm.before len r) (len r), [3], .u8, some 0, .cpu,
        .member 0 r 3⟩)
      fun _ => ([.allReduce 0 .i64 3 .sum, .allReduce 0 .u8 3 .sum], .ok t) := by
  intro t len
  have ht : t.Exact := ⟨rfl, (by decide : Shape.volume [3] < Size.modulus)⟩
  have hk : ∀ s, some 0 = some s → s < t.ndim := by
    rintro s ⟨⟩
    decide
  have hlen : ∀ s, some 0 = some s → (List.ofFn len).sum = t.shape.getD s 1 := by
    rintro s ⟨⟩
    decide
  have hroom : ∀ s, some 0 = some s → t.shape.getD s 1 < 2 ^ 63 := by
    rintro s ⟨⟩
    decide
  have hc : Comm.Spans fun r : Fin 3 => .member 0 r 3 := .inl ⟨0, fun _ => rfl⟩
  refine (toGlobal_roundTrip ht rfl hc hk hroom).1 len (fun _ => .cpu) _ hlen ?_
  intro r
  refine create_slice .cpu (.member 0 r 3) ?_
  rintro s ⟨⟩
  exact ⟨Nat.one_pos, by revert r; decide⟩

end Sharded

end SpmdArray
