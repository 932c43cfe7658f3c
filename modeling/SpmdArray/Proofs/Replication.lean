import SpmdArray.Proofs.Verdicts

/-!
# Operands that rank 0 sends around

An operand that is split along an axis of extent 1 cannot be cut down like the result.  Rank 0
sends it to all ranks, and from then on it counts as an operand that nobody has split.  Nothing is
said here about the lengths that the ranks hold: any of them may have the only slice of such an
axis, or none of them, or several.

## Main definitions

* `Sharded.inLine` — the shards of two operands that have been brought into line.
* `Spread.resent` — the operand with which a rank goes on.

## Main results

* `Sharded.finish_eq_bind` — what is left to do once the operands have been sent around depends on
  their shards, and on the device and the group of one handle.
* `Spread.zipShards_resent` — the ranks go on with what rank 0 has sent, or all of them refuse.
-/

namespace SpmdArray

namespace Side

/-- The shard of an operand that has been cut down to the chunk of the operand `other`. -/
def narrowed (s other : Side) (axis : Nat) : Except Failure Tensor := do
  let some x := other.origin | return s.shard
  if axis < s.offset then return s.shard
  let global ← x.gshape.extent (axis - other.offset)
  let own ← s.extent axis
  if own ≠ global then return s.shard
  let chunk := x.comm.chunk global
  let held ← other.extent axis
  if held ≠ chunk.length then
    Error.raise (.unbalancedShard held axis chunk.start chunk.stop)
  s.shard.narrow (axis - s.offset) chunk.start chunk.length

/-- Cutting down replaces the shard and nothing else. -/
theorem narrowTo_eq_map (s other : Side) (axis : Nat) :
    s.narrowTo other axis = (fun y => { s with shard := y }) <$> s.narrowed other axis := by
  unfold narrowTo narrowed
  cases other.origin with
  | none => rfl
  | some x =>
    simp only [map_bind, map_pure, apply_ite (fun v : Except Failure Tensor =>
      (fun y => ({ s with shard := y } : Side)) <$> v), bind_pure_comp]

end Side

namespace Sharded

/-- The shards of two operands that have been brought into line. -/
def inLine (lhs rhs : Side) : Except Failure (Tensor × Tensor) :=
  match lhs.split, rhs.split with
  | some axis, none => (fun y => (lhs.shard, y)) <$> rhs.narrowed lhs axis
  | none, some axis => (fun x => (x, rhs.shard)) <$> lhs.narrowed rhs axis
  | _, _ => return (lhs.shard, rhs.shard)

variable {f : Tensor → Tensor → Except Failure Tensor} {d : DType} {g : Shape} {world : Comm}
  {lhs rhs : Side} {x x' : Sharded}

/-- Bringing two operands into line replaces their shards and nothing else. -/
theorem align_eq_map (lhs rhs : Side) : align lhs rhs = (fun p : Tensor × Tensor =>
    ({ lhs with shard := p.1 }, { rhs with shard := p.2 })) <$> inLine lhs rhs := by
  obtain ⟨t, k, offset, o⟩ := lhs
  obtain ⟨u, k', offset', o'⟩ := rhs
  cases k with
  | none =>
    cases k' with
    | none => rfl
    | some axis =>
      simp only [align, inLine, Side.narrowTo_eq_map, bind_pure_comp, Functor.map_map]
  | some axis =>
    cases k' with
    | none => simp only [align, inLine, Side.narrowTo_eq_map, bind_pure_comp, Functor.map_map]
    | some axis' => rfl

/-- What is left to do once the operands have been sent around, in terms of their shards. -/
theorem finish_eq_bind (f : Tensor → Tensor → Except Failure Tensor) (d : DType) (g : Shape)
    (world : Comm) (lhs rhs : Side) :
    finish f d g world lhs rhs = (do
      let p ← inLine lhs rhs
      let t ← combineShards f d { lhs with shard := p.1 } { rhs with shard := p.2 }
      create t g t.dtype (splitOf lhs rhs) (deviceOf lhs rhs) (commOf world lhs rhs)) := by
  rw [finish, align_eq_map]
  cases inLine lhs rhs with
  | error e => rfl
  | ok p =>
    show (combineShards f d _ _ >>= _) = (combineShards f d _ _ >>= _)
    refine bind_congr fun t => ?_
    have horigin : resultOrigin { lhs with shard := p.1 } { rhs with shard := p.2 }
        = resultOrigin lhs rhs := rfl
    simp only [horigin, deviceOf, commOf]
    cases resultOrigin lhs rhs <;> rfl

/-- Of the handle of an unsplit operand only the device and the group are used. -/
theorem finish_origin_left (hsplit : lhs.split = none) (o : Option Sharded)
    (hdevice : deviceOf { lhs with origin := o } rhs = deviceOf lhs rhs)
    (hcomm : commOf world { lhs with origin := o } rhs = commOf world lhs rhs) :
    finish f d g world { lhs with origin := o } rhs = finish f d g world lhs rhs := by
  obtain ⟨t, k, offset, o'⟩ := lhs
  subst hsplit
  have hline : inLine ⟨t, none, offset, o⟩ rhs = inLine ⟨t, none, offset, o'⟩ rhs := by
    obtain ⟨u, k', offset', o''⟩ := rhs
    cases k' <;> rfl
  simp only [finish_eq_bind, hdevice, hcomm, hline]
  rfl

theorem finish_origin_right (hsplit : rhs.split = none) (o : Option Sharded)
    (hdevice : deviceOf lhs { rhs with origin := o } = deviceOf lhs rhs)
    (hcomm : commOf world lhs { rhs with origin := o } = commOf world lhs rhs) :
    finish f d g world lhs { rhs with origin := o } = finish f d g world lhs rhs := by
  obtain ⟨u, k', offset', o'⟩ := rhs
  subst hsplit
  have hline : inLine lhs ⟨u, none, offset', o⟩ = inLine lhs ⟨u, none, offset', o'⟩ := by
    obtain ⟨t, k, offset, o''⟩ := lhs
    cases k <;> rfl
  simp only [finish_eq_bind, hdevice, hcomm, hline]
  rfl

theorem finish_left (hsplit : lhs.split = none) (hx : lhs.origin = some x)
    (hdevice : x'.device = x.device) (hcomm : x'.comm = x.comm) :
    finish f d g world { lhs with origin := some x' } rhs = finish f d g world lhs rhs := by
  refine finish_origin_left hsplit (some x') ?_ ?_
  · simp only [deviceOf, resultOrigin, hsplit, hx]
    cases rhs.split with
    | none => exact hdevice
    | some j => rfl
  · simp only [commOf, resultOrigin, hsplit, hx]
    cases rhs.split with
    | none => exact hcomm
    | some j => rfl

theorem finish_right (hsplit : rhs.split = none) (hx : rhs.origin = some x)
    (hdevice : x'.device = x.device) (hcomm : x'.comm = x.comm) :
    finish f d g world lhs { rhs with origin := some x' } = finish f d g world lhs rhs := by
  refine finish_origin_right hsplit (some x') ?_ ?_
  · simp only [deviceOf, resultOrigin, hsplit, hx]
    cases lhs.split with
    | none =>
      cases lhs.origin with
      | none => exact hdevice
      | some y => rfl
    | some j => rfl
  · simp only [commOf, resultOrigin, hsplit, hx]
    cases lhs.split with
    | none =>
      cases lhs.origin with
      | none => exact hcomm
      | some y => rfl
    | some j => rfl

end Sharded

namespace Side

/-- `Stands s s'` says that `s'` may stand for `s` once the operands have been sent around: an
unsplit operand may come with another handle of the same device and group. -/
inductive Stands (s : Side) : Side → Prop where
  | same : Stands s s
  | other {x : Sharded} (x' : Sharded) (hsplit : s.split = none) (hx : s.origin = some x)
      (hdevice : x'.device = x.device) (hcomm : x'.comm = x.comm) :
      Stands s { s with origin := some x' }

end Side

/-- **What is left to do does not depend on the handles of unsplit operands.** -/
theorem Sharded.finish_congr {f : Tensor → Tensor → Except Failure Tensor} {d : DType} {g : Shape}
    {world : Comm} {lhs rhs lhs' rhs' : Side} (hl : lhs.Stands lhs') (hr : rhs.Stands rhs') :
    finish f d g world lhs' rhs' = finish f d g world lhs rhs := by
  cases hl with
  | same =>
    cases hr with
    | same => rfl
    | other y hsplit hy hdevice hcomm => exact finish_right hsplit hy hdevice hcomm
  | other x hsplit hx hdevice hcomm =>
    rw [finish_left hsplit hx hdevice hcomm]
    cases hr with
    | same => rfl
    | other y hsplit hy hdevice hcomm => exact finish_right hsplit hy hdevice hcomm

namespace Spread

variable {n : Nat} [NeZero n] {a b : Spread n}

/-- The operand with which rank `r` goes on: its own one, or a handle on what rank 0 has sent,
which nobody has split. -/
def resent (a : Spread n) (r : Fin n) : Operand :=
  match a with
  | scalar s => .scalar s
  | handles x g d k c =>
    if (handles x g d k c).kept = k then .tensor (x r)
    else .tensor { x r with shard := (x 0).shard, split := none }

/-- An operand of which rank 0 is not asked for anything stays what it is. -/
theorem resent_of_kept {x : Fin n → Sharded} {g : Shape} {d : DType} {k : Option Nat}
    {c : Fin n → Comm} (hk : (handles x g d k c).kept = k) (r : Fin n) :
    (handles x g d k c).resent r = .tensor (x r) :=
  if_pos hk

theorem resent_of_sent {x : Fin n → Sharded} {g : Shape} {d : DType} {i : Nat} {c : Fin n → Comm}
    (hk : (handles x g d (some i) c).kept = none) (r : Fin n) :
    (handles x g d (some i) c).resent r
      = .tensor { x r with shard := (x 0).shard, split := none } :=
  if_neg (by rw [hk]; exact (Option.some_ne_none i).symm)

theorem gshape_resent (a : Spread n) (r : Fin n) :
    (a.resent r).gshape = (a.operand r).gshape := by
  cases a with
  | scalar s => rfl
  | handles x g d k c =>
    unfold resent
    simp only
    split <;> rfl

theorem dtypes_resent (a b : Spread n) (r : Fin n) :
    Operand.dtypes (a.resent r) (b.resent r) = Operand.dtypes (a.operand r) (b.operand r) := by
  unfold resent
  cases a with
  | scalar s =>
    cases b with
    | scalar s' => rfl
    | handles y g d k c =>
      simp only
      split <;> rfl
  | handles x g d k c =>
    cases b with
    | scalar s' =>
      simp only
      split <;> rfl
    | handles y g' d' k' c' =>
      simp only
      split <;> split <;> rfl

/-- What a rank goes on with stands for what it has once the operand has been sent around. -/
theorem Agreed.stands_resent (ha : a.Agreed) (hplaced : a.Placed) (d : DType) (ndim : Nat)
    (r : Fin n) : (a.side d ndim r).Stands (.ofOperand d ndim (a.resent r)) := by
  cases a with
  | scalar s => exact .same
  | handles x g d' k c =>
    rcases @kept_cases n _ x g d' k c with ⟨hk, -⟩ | ⟨hk, i, rfl, hn, hone⟩
    · rw [side_of_kept hk, resent_of_kept hk]
      exact .same
    · have hshard : (⟨g, (x 0).shard.buffer⟩ : Tensor) = (x 0).shard := by
        rw [← shape_first ha hone (hplaced i rfl hn hone)]
      rw [side_of_sent hk, resent_of_sent hk, hshard]
      exact .other { x r with shard := (x 0).shard, split := none } rfl rfl rfl rfl

/-- What a rank goes on with is not sent around again. -/
theorem Agreed.replicate_resent (ha : a.Agreed) (d : DType) (ndim : Nat) (r : Fin n) :
    (Side.ofOperand d ndim (a.resent r)).replicate = pure (.ofOperand d ndim (a.resent r)) := by
  cases a with
  | scalar s => exact Side.replicate_of_scalar rfl
  | handles x g d' k c =>
    rcases @kept_cases n _ x g d' k c with ⟨hk, hone⟩ | ⟨hk, i, rfl, -, -⟩
    · rw [resent_of_kept hk]
      exact Side.replicate_of_agree ha (r := r) rfl hone
    · rw [resent_of_sent hk]
      exact Side.replicate_of_ne rfl nofun

/-- What a rank goes on with is split along the axis of the operand, if it is split. -/
theorem split_resent {d : DType} {ndim : Nat} {r : Fin n} {i : Nat}
    (h : (Side.ofOperand d ndim (a.resent r)).split = some i) :
    (Side.ofOperand d ndim (a.operand r)).split = some i := by
  cases a with
  | scalar s => exact h
  | handles x g d' k c =>
    rcases @kept_cases n _ x g d' k c with ⟨hk, -⟩ | ⟨hk, j, rfl, -, -⟩
    · rw [resent_of_kept hk] at h
      exact h
    · rw [resent_of_sent hk] at h
      cases h

section

variable (f : Tensor → Tensor → Except Failure Tensor) (ha : a.Agreed) (hb : b.Agreed)
  (world : Fin n → Comm)
  (hsplit : ∀ i j, a.axisIn (ndim a b) = some i → b.axisIn (ndim a b) = some j → i = j)
  {s : Shape} (h : a.gshape.broadcast b.gshape = some s)

include ha hb hsplit h

/-- A function of what the ranks go on with is left to each of them. -/
theorem zipShards_of_resent (haplaced : a.Placed) (hbplaced : b.Placed) {d d' : DType} (r : Fin n)
    (hdtypes : Operand.dtypes (a.operand r) (b.operand r) = (d, d')) :
    Sharded.zipShards f (a.resent r) (b.resent r) (world r)
      = ExceptT.mk (pure (Sharded.finish f (DType.promote d d') s (world r)
          (a.side d (ndim a b) r) (b.side d' (ndim a b) r))) := by
  have hga : (a.resent r).gshape = a.gshape := by rw [gshape_resent, ha.gshape_operand]
  have hgb : (b.resent r).gshape = b.gshape := by rw [gshape_resent, hb.gshape_operand]
  have hsides : Sharded.sides (a.resent r) (b.resent r)
      = (.ofOperand d (ndim a b) (a.resent r), .ofOperand d' (ndim a b) (b.resent r)) := by
    simp only [Sharded.sides, dtypes_resent, hdtypes, hga, hgb]
    rfl
  have hagree : ∀ i j, (Sharded.sides (a.resent r) (b.resent r)).1.split = some i →
      (Sharded.sides (a.resent r) (b.resent r)).2.split = some j → i = j := by
    intro i j hi hj
    rw [hsides] at hi hj
    have hi := split_resent hi
    have hj := split_resent hj
    rw [ha.split_ofOperand] at hi
    rw [hb.split_ofOperand] at hj
    exact hsplit i j hi hj
  rw [Sharded.zipShards_eq hagree, hga, hgb, Tensor.commonShape_of_eq_some h, hsides,
    ha.replicate_resent, hb.replicate_resent, dtypes_resent, hdtypes,
    ← Sharded.finish_congr (ha.stands_resent haplaced d (ndim a b) r)
      (hb.stands_resent hbplaced d' (ndim a b) r)]
  rfl

/-- **Operands that rank 0 sends around.**  One after the other, the ranks find out about each
operand that is split along an axis of extent 1 whether rank 0, and nobody else, has the only slice
of it.  If that is so, rank 0 sends the slice to all ranks, which go on with it as an unsplit
operand; otherwise all ranks refuse it, and nothing is sent. -/
theorem zipShards_resent :
    let prog : Fin n → Attempt Sharded := fun r =>
      Sharded.zipShards f (a.operand r) (b.operand r) (world r)
    (¬ a.Placed → ∃ e : Error, e.kind = .unsupportedLayout ∧
      Attempt.Runs prog fun _ => (a.inquiry, .error (.error e))) ∧
    (a.Placed → ¬ b.Placed → ∃ e : Error, e.kind = .unsupportedLayout ∧
      Attempt.Runs prog fun _ => (a.inquiry ++ a.delivery ++ b.inquiry, .error (.error e))) ∧
    (a.Placed → b.Placed → ∃ out : Fin n → Except Failure Sharded,
      Attempt.Runs prog (fun r =>
        (a.inquiry ++ a.delivery ++ (b.inquiry ++ b.delivery), out r)) ∧
      ∀ r, Sharded.zipShards f (a.resent r) (b.resent r) (world r)
        = ExceptT.mk (pure (out r))) := by
  intro prog
  refine ⟨fun haplaced => ?_, fun haplaced hbplaced => ?_, fun haplaced hbplaced => ?_⟩
  · obtain ⟨i, hrun⟩ := ha.zipShards_runs_of_left f hb world hsplit h haplaced
    exact ⟨_, rfl, hrun⟩
  · obtain ⟨i, hrun⟩ := ha.zipShards_runs_of_right f hb world hsplit h haplaced hbplaced
    exact ⟨_, rfl, hrun⟩
  · obtain ⟨d, d', hdtypes, hrun⟩ := ha.zipShards_runs f hb world hsplit h haplaced hbplaced
    refine ⟨_, hrun, fun r => ?_⟩
    exact zipShards_of_resent f ha hb world hsplit h haplaced hbplaced r (hdtypes r)

end

/-- Two ranks share one word: rank 0 sends it around, to be added to two words.  They do not get
as far as that with another word of which rank 1 has the only slice. -/
theorem zipShards_resent_two_words :
    let c : Fin 2 → Comm := fun r => .member 0 r 2
    let t : Tensor := ⟨[1], ⟨.i64, [.ofInt 7]⟩⟩
    let x := ofSlices t (some 0) ![1, 0] c
    let y := ofSlices t (some 0) ![0, 1] c
    let z := ofSlices ⟨[2], ⟨.i64, [.ofInt 1, .ofInt 2]⟩⟩ none ![2, 2] c
    let sum (a b : Spread 2) : Fin 2 → Attempt Sharded := fun r =>
      Sharded.zipShards (Sharded.kernel .add) (a.operand r) (b.operand r) (c r)
    (∃ out : Fin 2 → Except Failure Sharded,
      Attempt.Runs (sum x z) (fun r =>
        ([.warning, .allReduce 0 .bool 1 .all, .broadcast 0 .i64 1 0], out r)) ∧
      ∀ r, out r = .ok ⟨⟨[2], ⟨.i64, [.ofInt 8, .ofInt 9]⟩⟩, [2], .i64, none, .cpu, c r⟩) ∧
    (∃ e : Error, e.kind = .unsupportedLayout ∧ Attempt.Runs (sum x y) fun _ =>
      ([.warning, .allReduce 0 .bool 1 .all, .broadcast 0 .i64 1 0, .warning,
        .allReduce 0 .bool 1 .all], .error (.error e))) ∧
    ∃ e : Error, e.kind = .unsupportedLayout ∧ Attempt.Runs (sum y x) fun _ =>
      ([.warning, .allReduce 0 .bool 1 .all], .error (.error e)) := by
  intro c t x y z sum
  have hc : Comm.Spans c := .inl ⟨0, fun _ => rfl⟩
  have hone : ∀ {len : Fin 2 → Nat}, (List.ofFn len).sum = 1 →
      (ofSlices t (some 0) len c).Agreed := by
    intro len hlen
    refine (valid_ofSlices ⟨rfl, (by decide : Shape.volume [1] < Size.modulus)⟩ ?_ ?_ hc).agreed
    · rintro i ⟨⟩
      decide
    · rintro i ⟨⟩
      exact hlen
  have hx : x.Agreed := hone (by decide)
  have hy : y.Agreed := hone (by decide)
  have hzvalid : z.Valid := 
    valid_ofSlices ⟨rfl, (by decide : Shape.volume [2] < Size.modulus)⟩ nofun nofun hc
  have hz : z.Agreed := hzvalid.agreed
  have hxplaced : x.Placed := (placed_iff (by decide) (by decide)).mpr (by decide)
  have hyplaced : ¬ y.Placed :=
    fun h => absurd ((placed_iff (by decide) (by decide)).mp h) (by decide)
  have hzplaced : z.Placed := nofun
  have hxy : ∀ i j, x.axisIn 1 = some i → y.axisIn 1 = some j → i = j := by
    rintro i j ⟨⟩ ⟨⟩
    rfl
  have hxz : ∀ i j, x.axisIn 1 = some i → z.axisIn 1 = some j → i = j := by
    rintro i j - ⟨⟩
  refine ⟨?_, ?_, ?_⟩
  · obtain ⟨out, hrun, hout⟩ :=
      (zipShards_resent (Sharded.kernel .add) hx hz c hxz rfl).2.2 hxplaced hzplaced
    refine ⟨out, hrun, fun r => ?_⟩
    exact Spmd.done.inj ((hout r).symm.trans rfl)
  · exact (zipShards_resent (Sharded.kernel .add) hx hy c hxy rfl).2.1 hxplaced hyplaced
  · exact (zipShards_resent (Sharded.kernel .add) hy hx c (fun i j hi hj => (hxy j i hj hi).symm)
      rfl).1 hyplaced

end Spread

end SpmdArray
