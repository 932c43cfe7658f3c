import SpmdArray.Proofs.Assembly
import SpmdArray.Proofs.Pauses
import SpmdArray.Proofs.ReductionTypes
import SpmdArray.Proofs.WellFormed

/-!
# Functions of handles that do not break down

The functions of handles that exchange anything do not break down either, except when a size
overflows, whatever a rank is told by the others.  The only exception is putting the global tensor
together, which places the shard where the lengths of the other ranks say: there it matters that the
others take part in the same call.

## Main definitions

* `Attempt.Sound n post p` — whatever is heard of `n` ranks, the attempt `p` ends without a fault,
  unless something overflows.
* `Side.Ready` — an operand whose axes are where a function of two operands looks for them.

## Main results

* `Comm.sound_allReduce`, `Comm.sound_broadcast` — collectives do not break down.
* `Sharded.sound_zipShards`, `Sharded.sound_reduceFor` — nor do the functions of two operands and
  the reductions.
* `Sharded.yields_toGlobal` — a tensor that is put together has all of its elements.
* `Sharded.toGlobal_ensures` — a group that puts a tensor together does not break down.
-/

namespace SpmdArray

/-! ### Attempts -/

namespace Attempt

variable {α β : Type} {n : Nat} {mid : α → Prop} {post : β → Prop}

/-- `Sound n post p` says that the attempt `p` ends without a fault, unless something overflows, and
with a result of which `post` holds if it succeeds, whatever the rank is told in exchanges with `n`
ranks. -/
def Sound (n : Nat) (post : α → Prop) (p : Attempt α) : Prop :=
  Spmd.Always (fun l => l.length = n) (SpmdArray.Sound post) p.run

namespace Sound

theorem ofExcept {x : Except Failure β} (h : SpmdArray.Sound post x) :
    Sound n post (ExceptT.mk (pure x)) := h

theorem pure {b : β} (h : post b) : Sound n post (Pure.pure b) := h

theorem raise (e : Error) : Sound n post (throw (.error e)) := trivial

theorem lift {p : Spmd α} (h : Spmd.Always (fun l => l.length = n) mid p) :
    Sound n mid (ExceptT.lift p) :=
  Spmd.Always.bind h fun _ ha => ha

/-- Attempts in sequence. -/
theorem bind {p : Attempt α} {k : α → Attempt β} (hp : Sound n mid p)
    (hk : ∀ a, mid a → Sound n post (k a)) : Sound n post (p >>= k) := by
  refine Spmd.Always.bind hp fun r hr => ?_
  rcases r with (e | f) | a
  · trivial
  · exact hr
  · exact hk a hr

theorem ite {p : Prop} [Decidable p] {y z : Attempt β} (hy : p → Sound n post y)
    (hz : ¬ p → Sound n post z) : Sound n post (if p then y else z) := by
  split
  · next h => exact hy h
  · next h => exact hz h

/-- A check that has to be passed first. -/
theorem check {p : Prop} [Decidable p] {e : Error} {y : Attempt β} (hy : ¬ p → Sound n post y) :
    Sound n post (do if p then throw (.error e)
                     y) :=
  ite (fun _ => trivial) hy

end Sound

end Attempt

/-! ### Collectives -/

namespace Comm

theorem sound_decode (rank : Nat) (d : DType) (p : Payload) :
    Sound (fun _ => True) (p.decode rank d) := by
  refine .ite (fun _ => trivial) fun _ => ?_
  cases Buffer.ofBytes p.dtype p.bytes <;> trivial

theorem sound_combine (b other : Buffer) (op : Reducer) :
    Sound (fun _ => True) (b.combine other op).result := by
  unfold Buffer.combine
  cases other.as? b.dtype with
  | none => trivial
  | some ys =>
    dsimp only
    split
    · trivial
    · split <;> trivial

theorem sound_foldPayloads (op : Reducer) (ps : List Payload) (rank : Nat) (acc : Buffer) :
    Sound (fun _ => True) (foldPayloads op rank acc ps) := by
  induction ps generalizing rank acc with
  | nil => trivial
  | cons p ps ih =>
    refine (sound_decode rank _ p).bind fun part _ _ => .check fun _ => ?_
    exact (sound_combine acc part op).bind fun _ _ _ => ih _ _

theorem sound_combineAll (op : Reducer) (b : Buffer) {ps : List Payload} (hps : ps ≠ []) :
    Sound (fun _ => True) (combineAll op b ps) := by
  refine .check fun _ => ?_
  cases ps with
  | nil => exact absurd rfl hps
  | cons p ps =>
    refine (sound_decode 0 _ p).bind fun first _ _ => ?_
    exact (sound_foldPayloads op ps 1 first).bind fun acc _ _ => .check fun _ => trivial

variable {n : Nat}

/-- A call does not break down if its outcome is no fault. -/
theorem sound_leftBy {call : Spmd (InPlace Buffer Unit)}
    (h : Spmd.Always (fun l => l.length = n) (fun w => Sound (fun _ => True) w.result) call) :
    Attempt.Sound n (fun _ => True) (leftBy call) := by
  refine (Attempt.Sound.lift h).bind fun w hw => ?_
  exact (Attempt.Sound.ofExcept hw).bind fun _ _ => .pure trivial

variable [NeZero n]

theorem ne_nil_of_heard {ps : List Payload} (h : ps.length = n) : ps ≠ [] := by
  rintro rfl
  exact NeZero.ne n h.symm

theorem sound_allReduce (c : Comm) (op : Reducer) (b : Buffer) :
    Attempt.Sound n (fun _ => True) (leftBy (c.allReduce op b)) := by
  refine sound_leftBy ?_
  cases c with
  | solo g =>
    show Spmd.Always _ _ (if Buffer.supports op b.dtype then _ else _)
    split <;> trivial
  | member g r m =>
    intro ps hps
    have hall := sound_combineAll op b (ne_nil_of_heard hps)
    show Spmd.Always _ _ (afterAllReduce op b ps)
    unfold afterAllReduce
    cases hacc : combineAll op b ps with
    | ok acc => trivial
    | error e =>
      rw [hacc] at hall
      cases e with
      | error e => trivial
      | fault f => exact hall

theorem sound_received (root : Nat) (b : Buffer) (p : Payload) :
    Sound (fun _ => True) (received root b p).result := by
  have hd := sound_decode root b.dtype p
  unfold received
  cases h : p.decode root b.dtype with
  | ok d =>
    dsimp only
    split <;> trivial
  | error e =>
    rw [h] at hd
    cases e with
    | error e => trivial
    | fault f => exact hd

theorem sound_broadcast (c : Comm) (b : Buffer) :
    Attempt.Sound n (fun _ => True) (leftBy (c.broadcast 0 b)) := by
  refine sound_leftBy ?_
  show Spmd.Always _ _ (if c.size ≤ 0 then _ else _)
  split
  · trivial
  · cases c with
    | solo g => trivial
    | member g r m =>
      intro ps hps
      show Spmd.Always _ _ (afterBroadcast 0 r b ps)
      unfold afterBroadcast
      split
      · trivial
      · rw [List.getElem?_eq_getElem (List.length_pos_iff.mpr (ne_nil_of_heard hps))]
        exact sound_received 0 b _

end Comm

/-! ### Functions of two operands -/

/-- A tensor among the operands is well formed, and its group is one of rank `r`. -/
def Operand.HeldBy {n : Nat} (r : Fin n) (a : Operand) : Prop :=
  ∀ x, a = .tensor x → x.HeldBy r

theorem Operand.HeldBy.extents {n : Nat} {r : Fin n} {a : Operand}
    (ha : a.HeldBy r) :
    ∀ e ∈ a.gshape, e < Size.modulus := by
  cases a with
  | scalar v =>
    intro e he
    rw [List.mem_singleton.mp he]
    decide
  | tensor x => exact (ha x rfl).1.extents

namespace Side

variable {n ndim : Nat} {r : Fin n} {s other : Side}

/-- The axes of an operand are where a function of two operands with a result of `ndim` axes looks
for them. -/
structure Ready (r : Fin n) (ndim : Nat) (s : Side) : Prop where
  /-- The shard has an element for each of its coordinates. -/
  stored : s.shard.Stored
  /-- The axes of the shard are the last ones of the result. -/
  aligned : s.shard.ndim + s.offset = ndim
  /-- The split axis is one of them. -/
  axis : ∀ i, s.split = some i → s.offset ≤ i ∧ i < ndim
  /-- The handle has as many axes as the shard. -/
  origin : ∀ x, s.origin = some x → x.HeldBy r ∧ x.ndim + s.offset = ndim

theorem ready_ofOperand {a : Operand} (ha : a.HeldBy r) (d : DType)
    (hn : a.gshape.ndim ≤ ndim) : (ofOperand d ndim a).Ready r ndim := by
  cases a with
  | scalar v =>
    have hone : (v.toTensor d).ndim = 1 := by cases v <;> rfl
    have hpos : 1 ≤ ndim := hn
    refine ⟨(v.exact_toTensor d).stored, ?_, fun i hi => (nomatch hi), fun x hx => (nomatch hx)⟩
    show (v.toTensor d).ndim + (ndim - 1) = ndim
    omega
  | tensor x =>
    obtain ⟨hx, hc⟩ := ha x rfl
    have hle : x.ndim ≤ ndim := hn
    have hrank := hx.rank
    refine ⟨hx.stored, ?_, fun i hi => ?_, fun y hy => ?_⟩
    · show x.shard.ndim + (ndim - x.ndim) = ndim
      omega
    · obtain ⟨k, hk, rfl⟩ := Option.map_eq_some_iff.mp hi
      have := hx.axis k hk
      show ndim - x.ndim ≤ k + (ndim - x.ndim) ∧ k + (ndim - x.ndim) < ndim
      omega
    · obtain rfl : x = y := Option.some.inj hy
      refine ⟨⟨hx, hc⟩, ?_⟩
      show x.ndim + (ndim - x.ndim) = ndim
      omega

theorem Ready.extent_eq (hs : s.Ready r ndim) {i : Nat} (hle : s.offset ≤ i) (hi : i < ndim) :
    s.extent i = .ok (s.shard.shape.getD (i - s.offset) 1) := by
  have haligned : s.shard.shape.length + s.offset = ndim := hs.aligned
  exact Shape.extent_eq (by omega)

/-- An operand that has got the whole tensor, or another part of it. -/
theorem Ready.with (hs : s.Ready r ndim) {t : Tensor} {k : Option Nat} (ht : t.Stored)
    (hn : t.ndim = s.shard.ndim) (hk : k = s.split ∨ k = none) :
    Ready r ndim { s with shard := t, split := k } where
  stored := ht
  aligned := by
    show t.ndim + s.offset = ndim
    rw [hn, hs.aligned]
  axis i hi := by
    rcases hk with rfl | rfl
    · exact hs.axis i hi
    · cases hi
  origin := hs.origin

theorem sound_sendFrom [NeZero n] {x : Sharded} (hs : s.Ready r ndim) (hx : s.origin = some x)
    (i : Nat) (agreed : Buffer) : Attempt.Sound n (Ready r ndim) (s.sendFrom x i agreed) := by
  obtain ⟨⟨hwf, -⟩, hn⟩ := hs.origin x hx
  have hlast : ∀ mine : Buffer, Attempt.Sound n (Ready r ndim) (do
      let b ← Comm.leftBy (x.comm.broadcast 0 mine)
      let shard ← ExceptT.mk (pure (Tensor.ofBuffer x.gshape b))
      return { s with shard, split := none }) := by
    refine fun mine => (Comm.sound_broadcast _ _).bind fun b _ => ?_
    have hshard : Sound (fun t => t.Stored ∧ t.ndim = s.shard.ndim)
        (Tensor.ofBuffer x.gshape b) := by
      refine (Tensor.sound_ofBuffer hwf.extents).imp fun t ht hstored => ⟨hstored, ?_⟩
      obtain ⟨-, rfl⟩ := Tensor.ofBufferOn_eq_ok_iff.mp ht
      have haligned := hs.aligned
      show x.ndim = s.shard.ndim
      omega
    exact (Attempt.Sound.ofExcept hshard).bind fun t ht => .pure (hs.with ht.1 ht.2 (.inr rfl))
  unfold sendFrom
  refine .check fun _ => .ite (fun _ => hlast _) fun _ => ?_
  -- a rank that only receives makes zeros, of which there may be too many
  rcases x.gshape.numel_eq_ok_or with h | h
  · rw [h]
    exact hlast _
  · rw [h]
    exact (Sound.overflow : Sound (Ready r ndim) _)

/-- **An operand that is sent around** stays ready. -/
theorem sound_replicate [NeZero n] (hs : s.Ready r ndim) :
    Attempt.Sound n (Ready r ndim) s.replicate := by
  cases hx : s.origin with
  | none =>
    rw [replicate_of_scalar hx]
    exact .pure hs
  | some x =>
    obtain ⟨⟨hwf, -⟩, -⟩ := hs.origin x hx
    by_cases hsent : ∃ i, x.split = some i ∧ x.gshape.getD i 1 = 1 ∧ x.comm.isDistributed = true
    · obtain ⟨i, hi, hone, hd⟩ := hsent
      have hlt : i < x.gshape.length := hwf.axis i hi
      have hrank : x.shard.shape.length = x.gshape.length := hwf.rank
      rw [replicate_eq hx hi hlt hone hd (by omega)]
      refine (Attempt.Sound.lift (Spmd.always_true _)).bind fun _ _ => ?_
      refine (Comm.sound_allReduce _ _ _).bind fun agreed _ => ?_
      exact sound_sendFrom hs hx i agreed
    · rw [replicate_of_ne hx fun i hi => ⟨hwf.axis i hi, ?_⟩]
      · exact .pure hs
      · by_contra hboth
        rw [not_or, not_not, Bool.not_eq_false] at hboth
        exact hsent ⟨i, hi, hboth⟩

/-- **An operand that is cut down** stays ready. -/
theorem sound_narrowTo (hs : s.Ready r ndim) (ho : other.Ready r ndim) {i : Nat}
    (hi : other.split = some i) : Sound (Ready r ndim) (s.narrowTo other i) := by
  unfold narrowTo
  cases hx : other.origin with
  | none => exact hs
  | some x =>
    obtain ⟨⟨hwf, hc⟩, hn⟩ := ho.origin x hx
    obtain ⟨hle, hlt⟩ := ho.axis i hi
    refine .ite (fun _ => hs) fun hge => ?_
    have hoff : s.offset ≤ i := Nat.le_of_not_lt hge
    have haligned : s.shard.shape.length + s.offset = ndim := hs.aligned
    have hrank : x.gshape.length + other.offset = ndim := hn
    refine .lift_bind (Shape.extent_eq (by omega)) ?_
    refine .lift_bind (hs.extent_eq hoff hlt) (.ite (fun _ => hs) fun hsame => ?_)
    refine .lift_bind (ho.extent_eq hle hlt) (.check fun _ => ?_)
    refine (Tensor.sound_narrow hs.stored _ _ _).bind fun t ht hstored => ?_
    exact hs.with hstored (Tensor.ndim_narrow ht) (.inl rfl)

theorem sound_align {lhs rhs : Side} (hl : lhs.Ready r ndim) (hr : rhs.Ready r ndim) :
    Sound (fun p => p.1.Ready r ndim ∧ p.2.Ready r ndim) (Sharded.align lhs rhs) := by
  unfold Sharded.align
  split
  · next i hi _ => exact (sound_narrowTo hr hl hi).bind fun _ _ hs => ⟨hl, hs⟩
  · next i _ hi => exact (sound_narrowTo hl hr hi).bind fun _ _ hs => ⟨hs, hr⟩
  · exact ⟨hl, hr⟩

/-- Whether a rank holds nothing of an operand. -/
theorem Ready.exists_isEmpty (hs : s.Ready r ndim) :
    ∃ b, s.isEmpty = .ok b := by
  unfold isEmpty
  cases hk : s.split with
  | none => exact ⟨false, rfl⟩
  | some i =>
    obtain ⟨hle, hlt⟩ := hs.axis i hk
    simp only [hs.extent_eq hle hlt]
    exact ⟨_, rfl⟩

end Side

namespace Sharded

variable {n ndim : Nat} {r : Fin n}

section

variable {f : Tensor → Tensor → Except Failure Tensor} {lhs rhs : Side}

theorem sound_combineShards
    (hf : ∀ t u : Tensor, t.Stored → u.Stored → Sound Tensor.Stored (f t u)) (d : DType)
    (hl : lhs.Ready r ndim) (hr : rhs.Ready r ndim) :
    Sound Tensor.Stored (combineShards f d lhs rhs) := by
  refine (Tensor.sound_commonShape _ _).bind fun s _ h => ?_
  have he := Shape.mem_lt_of_broadcast hl.stored.extents hr.stored.extents h
  have hlast : ∀ {v : Except Failure Tensor}, Sound Tensor.Stored v → Sound Tensor.Stored (do
      let t ← v
      if t.shape ≠ s then Error.raise (.shapeMismatch s t.shape)
      return t) := fun hv => hv.bind fun t _ ht => .check fun _ => ht
  have hspared := hlast (Tensor.sound_zeros he d)
  have hasked := hlast (hf _ _ (hl.stored.cast d) (hr.stored.cast d))
  obtain ⟨b, hb⟩ := hl.exists_isEmpty
  obtain ⟨b', hb'⟩ := hr.exists_isEmpty
  simp only [hb, hb']
  cases b with
  | true => exact hspared
  | false =>
    cases b' with
    | true => exact hspared
    | false => exact hasked

theorem sound_finish
    (hf : ∀ t u : Tensor, t.Stored → u.Stored → Sound Tensor.Stored (f t u)) (d : DType)
    {g : Shape} (hg : ∀ e ∈ g, e < Size.modulus) {world : Comm} (hworld : world.Of r n)
    (hl : lhs.Ready r ndim) (hr : rhs.Ready r ndim) :
    Sound (HeldBy r) (finish f d g world lhs rhs) := by
  refine (Side.sound_align hl hr).bind fun ⟨lhs, rhs⟩ _ ⟨hl, hr⟩ => ?_
  refine (sound_combineShards hf d hl hr).bind fun t _ ht => ?_
  have horigin : ∀ x, resultOrigin lhs rhs = some x → x.comm.Of r n := by
    intro x hx
    unfold resultOrigin at hx
    split at hx
    · exact (hl.origin x hx).1.2
    · split at hx
      · exact (hr.origin x hx).1.2
      · cases ho : lhs.origin with
        | some y =>
          rw [ho] at hx
          obtain rfl : y = x := Option.some.inj hx
          exact (hl.origin y ho).1.2
        | none =>
          rw [ho] at hx
          exact (hr.origin x hx).1.2
  cases hx : resultOrigin lhs rhs with
  | none => exact sound_create ht hg hworld
  | some x => exact sound_create ht hg (horigin x hx)

end

/-- **Functions of two operands do not break down**, except when a size overflows. -/
theorem sound_zipShards [NeZero n] {f : Tensor → Tensor → Except Failure Tensor}
    (hf : ∀ t u : Tensor, t.Stored → u.Stored → Sound Tensor.Stored (f t u)) {a b : Operand}
    (ha : a.HeldBy r) (hb : b.HeldBy r) {world : Comm}
    (hworld : world.Of r n) :
    Attempt.Sound n (HeldBy r) (zipShards f a b world) := by
  by_cases hsplit : ∀ i j, (sides a b).1.split = some i → (sides a b).2.split = some j → i = j
  · rw [zipShards_eq hsplit]
    refine (Attempt.Sound.ofExcept (Tensor.sound_commonShape _ _)).bind fun g hg => ?_
    have hg := Shape.mem_lt_of_broadcast ha.extents hb.extents hg
    have hl := Side.ready_ofOperand ha (Operand.dtypes a b).1 (Nat.le_max_left _ b.gshape.ndim)
    have hr := Side.ready_ofOperand hb (Operand.dtypes a b).2 (Nat.le_max_right a.gshape.ndim _)
    refine (Side.sound_replicate hl).bind fun lhs hl => ?_
    refine (Side.sound_replicate hr).bind fun rhs hr => ?_
    exact .ofExcept (sound_finish hf _ hg hworld hl hr)
  · push Not at hsplit
    obtain ⟨i, j, hi, hj, hne⟩ := hsplit
    rw [zipShards_of_ne hi hj hne]
    exact .raise _

end Sharded

/-! ### Reductions -/

namespace Plan

variable {p : Plan} {f : Tensor → Option Nat → Except Failure Tensor} {t : Tensor} {g : Shape}

theorem gshape_lt (p : Plan) {s : Shape} (hs : ∀ e ∈ s, e < Size.modulus) :
    ∀ e ∈ p.gshape s, e < Size.modulus := by
  intro e he
  rcases mem_gshape he with rfl | he
  · decide
  · exact hs e he

theorem sound_reduceShard
    (hf : ∀ (t : Tensor) (dim : Option Nat), t.Stored → Sound Tensor.Stored (f t dim))
    (ht : t.Stored) (hg : ∀ e ∈ g, e < Size.modulus) :
    Sound Tensor.Stored (p.reduceShard f t g) := by
  unfold reduceShard
  split
  · exact (hf t none ht).bind fun _ _ _ => Tensor.sound_reshape hg
  · next axes haxes =>
    have hfold := Sound.foldlM (fun u axis hu => hf u (some axis) hu) axes t ht
    refine hfold.bind fun u _ hu => .ite (fun _ => hu) fun _ => ?_
    exact Tensor.sound_reshape (gshape_lt ⟨some axes, false⟩ hu.extents)

end Plan

namespace Sharded

variable {n : Nat} {r : Fin n} {f : Tensor → Option Nat → Except Failure Tensor} {x : Sharded}

theorem sound_combinePartials [NeZero n] (c : Comm) (op : Reducer) {t : Tensor} (ht : t.Stored) :
    Attempt.Sound n Tensor.Stored (combinePartials c op t) :=
  (Comm.sound_allReduce c op _).bind fun _ _ =>
    .check fun _ => .ofExcept (Tensor.sound_ofBuffer ht.extents)

/-- **Reductions do not break down**, except when a size overflows. -/
theorem sound_reduceFor [NeZero n]
    (hf : ∀ (t : Tensor) (dim : Option Nat), t.Stored → Sound Tensor.Stored (f t dim))
    (hx : x.HeldBy r) (op : Reducer) (axis : Axis) (keepdim : Bool) (out : Option Sharded) :
    Attempt.Sound n (HeldBy r) (reduceFor f op x axis keepdim out) := by
  cases haxes : axis.resolve x.gshape with
  | error e =>
    rw [reduceFor_of_invalid haxes]
    exact .raise _
  | ok axes =>
    by_cases hout : ∀ o, out = some o → o.gshape = Plan.gshape ⟨axes, keepdim⟩ x.gshape
    · have hg := Plan.gshape_lt ⟨axes, keepdim⟩ hx.1.extents
      rw [reduceFor_eq haxes hout]
      refine (Attempt.Sound.ofExcept (Plan.sound_reduceShard hf hx.1.stored hg)).bind fun t ht => ?_
      have hmeet : Attempt.Sound n Tensor.Stored (meet ⟨axes, keepdim⟩ op x t) :=
        .ite (fun _ => sound_combinePartials x.comm op ht) fun _ => .pure ht
      exact hmeet.bind fun u hu => .ofExcept (sound_create (hu.cast _) hg hx.2)
    · push Not at hout
      obtain ⟨o, rfl, hne⟩ := hout
      rw [reduceFor_of_ne haxes hne]
      exact .raise _

/-- A reduction that puts its result in the place of an output leaves the output as it was, or the
result. -/
theorem sound_reduceShardsInto [NeZero n]
    (hf : ∀ (t : Tensor) (dim : Option Nat), t.Stored → Sound Tensor.Stored (f t dim))
    (hx : x.HeldBy r) (op : Reducer) (axis : Axis) (keepdim : Bool) {out : Sharded}
    (hout : out.HeldBy r) :
    Spmd.Always (fun l => l.length = n)
      (fun w => Sound (HeldBy r) w.result ∧ w.dest.HeldBy r)
      (reduceShardsInto f op x axis keepdim out) := by
  refine Spmd.Always.bind (sound_reduceFor hf hx op axis keepdim (some out)) fun y hy => ?_
  cases y with
  | ok y => exact ⟨hy, hy⟩
  | error e => exact ⟨hy, hout⟩

end Sharded

/-! ### Putting a tensor together -/

namespace Comm

/-- A group of which all ranks begin with an all-reduce of equally long buffers of one type. -/
theorem ensures_allReduce {n : Nat} [NeZero n] {α : Type} {post : Fin n → Except Failure α → Prop}
    {op : Reducer} {d : DType} (hop : Buffer.supports op d = true) {l : Nat} (g : Fin n → Nat)
    {b : Fin n → List (Elem d)} (hb : ∀ r, (b r).length = l) {k : Fin n → Buffer → Attempt α}
    (h : Spmd.Ensures post fun r => (k r ⟨d, foldRanks op (List.ofFn b)⟩).run) :
    Spmd.Ensures post fun r => (leftBy ((member (g r) r n).allReduce op ⟨d, b r⟩) >>= k r).run := by
  have hwait : ∀ r : Fin n,
      (leftBy ((member (g r) r n).allReduce op ⟨d, b r⟩) >>= k r).run.settle.2
        = .waiting (g r) (.ofBuffer ⟨d, b r⟩) fun ps =>
          (leftBy (afterAllReduce op ⟨d, b r⟩ ps) >>= k r).run := fun r => rfl
  refine .intro (fun r a ha => nomatch (hwait r).symm.trans ha) fun g' q next hmet => ?_
  -- so what each rank is told is what the ranks have contributed
  have hq : ∀ r, Payload.ofBuffer ⟨d, b r⟩ = q r ∧
      (fun ps => (leftBy (afterAllReduce op ⟨d, b r⟩ ps) >>= k r).run) = next r := fun r =>
    (Spmd.Pause.waiting.inj ((hwait r).symm.trans (hmet r))).2
  obtain rfl : (fun r => Payload.ofBuffer ⟨d, b r⟩) = q := funext fun r => (hq r).1
  obtain rfl : (fun r ps => (leftBy (afterAllReduce op ⟨d, b r⟩ ps) >>= k r).run) = next :=
    funext fun r => (hq r).2
  simp only [afterAllReduce_eq hop hb]
  exact h

end Comm

namespace Sharded

variable {n : Nat} {r : Fin n} {x : Sharded} {s : Nat}

/-- How many entries of the split axis a rank holds. -/
def held (x : Sharded) : Nat :=
  match x.split with
  | none => 0
  | some s => x.shard.shape.getD s 1

/-- A shard has the global shape except along the split axis. -/
theorem WellFormed.shape_set (h : x.WellFormed) (hs : x.split = some s) :
    x.shard.shape = x.gshape.set s (x.shard.shape.getD s 1) := by
  refine Shape.eq_set_of_eq h.rank fun i hi his => ?_
  have hagree := h.agree i hi
  rwa [hs, if_neg fun hsi => his (Option.some.inj hsi).symm] at hagree

/-- A shard that lies inside of the tensor is placed. -/
theorem sound_placed (hx : x.WellFormed) (hs : x.split = some s) {start : Nat}
    (hfit : start + x.shard.shape.getD s 1 ≤ x.gshape.getD s 1) :
    Sound (fun _ => True) (x.placed s start (x.shard.shape.getD s 1)) := by
  have hown : x.shard.numel = List.prod (x.gshape.set s (x.shard.shape.getD s 1)) := by
    rw [← hx.shape_set hs]
    exact hx.stored.numel_eq
  rcases placed_cases rfl rfl hx.dtype hown (hx.axis s hs) start
    with ⟨-, ys, -, hok⟩ | ⟨⟨e, he, hle⟩, -⟩ | hover
  · rw [hok]
    trivial
  · -- no position is outside of the tensor
    exact absurd (Shape.position_lt (Shape.within_shift hfit (Shape.mem_coords.mp he)))
      (Nat.not_lt.mpr hle)
  · rw [hover]
    exact .overflow

/-- **A rank that knows how much all ranks hold** either refuses to go on or has room for its
shard. -/
theorem sound_assemble [NeZero n] {own : Fin n → Nat} (hx : x.HeldBy r) (hs : x.split = some s)
    (hrank : x.comm.rank = r) (hown : own r = x.shard.shape.getD s 1)
    (hsum : (List.ofFn own).sum < Size.modulus) :
    Attempt.Sound n Tensor.Stored (x.assemble s (lengthWords (List.ofFn own))) := by
  obtain ⟨hwf, -⟩ := hx
  cases hv : total (lengthWords (List.ofFn own)) with
  | error f =>
    obtain rfl := total_eq_error hv
    unfold assemble
    rw [hv]
    exact (Sound.overflow : Sound Tensor.Stored _)
  | ok v =>
    obtain ⟨u, hu, hstart⟩ := exists_start hv r
    rw [assemble_eq hv (hrank ▸ hu)]
    refine .ite (fun _ => .raise _) fun hall => ?_
    -- the ranks hold the whole axis, so that the shard ends where the next one starts
    have he := Shape.getD_lt_modulus hwf.extents s
    rw [not_not.mp hall] at hv
    have htotal := sum_mod_of_complete he hv
    have hbefore := Comm.before_add_le own r
    rw [Nat.mod_eq_of_lt hsum] at htotal
    rw [Nat.mod_eq_of_lt (by omega)] at hstart
    have hfit : Size.unsigned u + x.shard.shape.getD s 1 ≤ x.gshape.getD s 1 := by omega
    refine (Attempt.Sound.ofExcept (sound_placed hwf hs hfit)).bind fun mine _ => ?_
    refine (Comm.sound_allReduce _ _ _).bind fun b _ => .ofExcept ?_
    exact Tensor.sound_ofBuffer hwf.extents

/-- A rank of a group begins with telling the others how much it holds. -/
theorem toGlobal_waits (hx : x.HeldBy r) (hd : x.isDistributed = true) :
    ∃ s g, x.split = some s ∧ x.comm = .member g r n ∧
      x.toGlobal = (do
        let b ← Comm.leftBy ((Comm.member g r n).allReduce .sum
          ⟨.i64, (List.range n).map fun i : Nat => .ofInt (if i = r then x.held else 0)⟩)
        x.assemble s (b.values .i64)) := by
  obtain ⟨hwf, hc⟩ := hx
  obtain ⟨hsome, hdist⟩ := Bool.and_eq_true_iff.mp hd
  obtain ⟨s, hs⟩ := Option.isSome_iff_exists.mp hsome
  rcases hc with ⟨g, hg⟩ | ⟨g, hg⟩
  · rw [hg] at hdist
    cases hdist
  · have haxis := hwf.axis s hs
    have hlt : s < x.shard.ndim := by rwa [hwf.rank]
    have hheld : x.held = x.shard.shape.getD s 1 := by rw [held, hs]
    refine ⟨s, g, hs, hg, ?_⟩
    rw [toGlobal_eq hs hdist haxis hlt, hg, ← hheld]
    unfold lengths
    rw [bind_assoc]
    simp only [pure_bind]
    rfl

/-- A rank that has everything exchanges nothing. -/
theorem toGlobal_of_not_distributed (h : ¬ x.isDistributed = true) : x.toGlobal = pure x.shard := by
  refine toGlobal_of_whole ?_
  rw [isDistributed, Bool.and_eq_true, not_and_or] at h
  refine h.imp (fun h => ?_) fun h => ?_
  · simpa using h
  · simpa using h

/-- **Whatever a rank is told**, a tensor that it puts together has all of its elements. -/
theorem yields_toGlobal (hx : x.WellFormed) : x.toGlobal.Yields Tensor.Stored := by
  unfold toGlobal
  split
  · exact .pure hx.stored
  · refine .ite (.pure hx.stored) ?_
    refine .after _ fun own => .after _ fun lens => .after _ fun extent => .after _ fun sum => ?_
    refine .ite (.raise _) (.after _ fun start => .after _ fun m => .after _ fun offsets => ?_)
    refine .after _ fun _ => .after _ fun b => .ofExcept fun t ht => ?_
    obtain ⟨hn, rfl⟩ := Tensor.ofBufferOn_eq_ok_iff.mp ht
    exact ⟨hn, hx.extents⟩

/-- **No rank of a group that puts a tensor together breaks down**, except when a size overflows, as
long as the sum of what the ranks hold is a size. -/
theorem toGlobal_ensures [NeZero n] {x : Fin n → Sharded} (hx : ∀ r, (x r).HeldBy r)
    (hsum : (∀ r, (x r).isDistributed = true) → ∑ r, (x r).held < Size.modulus) :
    Spmd.Ensures (fun _ => Sound Tensor.Stored) fun r => (x r).toGlobal.run := by
  by_cases hall : ∀ r, (x r).isDistributed = true
  · have hsum := hsum hall
    rw [← List.sum_ofFn] at hsum
    choose s g hs hg hstart using fun r => toGlobal_waits (hx r) (hall r)
    simp only [hstart]
    refine Comm.ensures_allReduce rfl g (l := n) (fun r => by simp) ?_
    rw [foldRanks_entered fun r => (x r).held]
    refine .of_always fun r => ?_
    have hheld : (x r).held = (x r).shard.shape.getD (s r) 1 := by rw [held, hs]
    have hrank : (x r).comm.rank = r := by rw [hg]; rfl
    exact sound_assemble (hx r) (hs r) hrank hheld hsum
  · -- a rank that has everything meets nobody
    obtain ⟨q, hq⟩ := not_forall.mp hall
    refine .intro (fun r a ha => ?_) fun g p k hk => ?_
    · by_cases hr : (x r).isDistributed = true
      · obtain ⟨s, g, -, -, hstart⟩ := toGlobal_waits (hx r) hr
        rw [hstart] at ha
        cases ha
      · rw [toGlobal_of_not_distributed hr] at ha
        obtain rfl := Spmd.Pause.done.inj ha
        exact (hx r).1.stored
    · have := hk q
      rw [toGlobal_of_not_distributed hq] at this
      cases this

end Sharded

end SpmdArray
