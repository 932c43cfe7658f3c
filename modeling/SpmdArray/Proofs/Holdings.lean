import SpmdArray.Proofs.Routines
import SpmdArray.Proofs.SoundAttempts

/-!
# What a rank holds

A rank comes by tensors and handles through calls only, and it decides what to call next by
itself.  The ranks of a group are supposed to make the same calls in the same order, but nothing
makes sure that they do: a function that a caller supplies may fail on one rank, which then goes on
to its next call while the others still wait in an exchange, and is told what they have contributed
to another call.

Whatever a rank does, and whatever it is told, what it holds is well formed, and with one exception
no call breaks down except when a size overflows.  The exception is putting a tensor together.  It
does not break down if all ranks take part in it; if one of them takes part in another call instead,
it can.

## Main definitions

* `Holdings` — what a rank holds; `Holdings.Valid` — and that it is well formed.
* `Call` — a call of one rank; `Call.program`.
* `Call.Proper` — the numbers among the arguments of the call are sizes.
* `Call.Defined` — the differences and quotients that it computes are defined.
* `Reaches` — what a rank can come to hold.

## Main results

* `Call.sound_program` — what a call does, whatever the rank is told.
* `Call.ensures_gather` — what a group does that puts a tensor together.
* `Reaches.sound` — no program of calls breaks down, as long as all ranks take part when a tensor is
  put together.
* `Reaches.gather_out_of_step` — a program that breaks down otherwise.
-/

namespace SpmdArray

/-! ### Holdings -/

/-- The tensors and the handles that a rank holds, in the order in which it has come by them. -/
structure Holdings where
  /-- The tensors. -/
  tensors : List Tensor
  /-- The handles. -/
  handles : List Sharded

namespace Holdings

variable {n : Nat} {r : Fin n} {h : Holdings}

/-- The tensor in the place `i`. -/
def tensor (h : Holdings) (i : Nat) : Tensor := .nth h.tensors i

/-- The handle in the place `i`.  A place that there is not counts as a handle on a vector without
elements. -/
def handle (h : Holdings) (i : Nat) : Sharded :=
  h.handles.getD i ⟨.vector ⟨.bool, []⟩, [0], .bool, none, .cpu, .solo 0⟩

/-- The outcome of a call on the tensors. -/
def onTensors (h : Holdings) (w : InPlace (List Tensor) Unit) : InPlace Holdings Unit :=
  ⟨w.result, { h with tensors := w.dest }⟩

/-- The outcome of a call that gives a handle, which takes the next place. -/
def keep (h : Holdings) (x : Except Failure Sharded) : InPlace Holdings Unit :=
  match x with
  | .ok y => ⟨.ok (), { h with handles := h.handles ++ [y] }⟩
  | .error e => ⟨.error e, h⟩

/-- The holdings with another handle in the place `i`. -/
def put (h : Holdings) (i : Nat) (x : Sharded) : Holdings :=
  { h with handles := h.handles.set i x }

/-- Rank `r` holds tensors that have an element for each of their coordinates, and well-formed
handles. -/
structure Valid (r : Fin n) (h : Holdings) : Prop where
  /-- The tensors have an element for each of their coordinates. -/
  tensors : ∀ t ∈ h.tensors, t.Stored
  /-- The handles are well formed. -/
  handles : ∀ x ∈ h.handles, x.HeldBy r

theorem Valid.tensor (hh : h.Valid r) (i : Nat) : (h.tensor i).Stored :=
  TensorCall.stored_nth hh.tensors i

theorem Valid.handle (hh : h.Valid r) (i : Nat) : (h.handle i).HeldBy r := by
  have hvector : Tensor.Stored (.vector ⟨.bool, []⟩) := Tensor.stored_vector (by decide)
  refine getD_of_forall hh.handles ?_ i
  refine ⟨⟨hvector, rfl, nofun, rfl, fun i hi => ?_, hvector.extents⟩, .inl ⟨0, rfl⟩⟩
  rw [if_neg nofun]
  rfl

theorem Valid.onTensors (hh : h.Valid r) {w : InPlace (List Tensor) Unit}
    (hw : w.Sound fun ts => ∀ t ∈ ts, t.Stored) : (h.onTensors w).Sound (Valid r) :=
  ⟨hw.1, hw.2, hh.handles⟩

theorem Valid.keep (hh : h.Valid r) {x : Except Failure Sharded} (hx : Sound (·.HeldBy r) x) :
    (h.keep x).Sound (Valid r) := by
  rcases x with (e | f) | y
  · exact ⟨trivial, hh⟩
  · exact ⟨hx, hh⟩
  · refine ⟨trivial, hh.tensors, fun z hz => ?_⟩
    rcases List.mem_append.mp hz with hz | hz
    · exact hh.handles z hz
    · exact List.mem_singleton.mp hz ▸ hx

theorem Valid.put (hh : h.Valid r) (i : Nat) {x : Sharded} (hx : x.HeldBy r) :
    (h.put i x).Valid r := by
  refine ⟨hh.tensors, fun y hy => ?_⟩
  rcases List.mem_or_eq_of_mem_set hy with hy | rfl
  · exact hh.handles y hy
  · exact hx

/-- A function that a caller has put together, which can use what the caller holds beside its own
arguments. -/
theorem Valid.sound_apply (hh : h.Valid r) (k : List Tensor → Routine) {ts : List Tensor}
    (hts : ∀ t ∈ ts, t.Stored) : Sound Tensor.Stored (Routine.apply k (ts ++ h.tensors)) := by
  refine Routine.sound_apply k fun t ht => ?_
  rcases List.mem_append.mp ht with ht | ht
  · exact hts t ht
  · exact hh.tensors t ht

end Holdings

/-! ### Calls -/

/-- Whom a rank shares a handle with, and the number of their group. -/
inductive Peers where
  /-- Nobody. -/
  | nobody (group : Nat)
  /-- All ranks. -/
  | everybody (group : Nat)

/-- The communicator of rank `r` in a group. -/
def Peers.comm {n : Nat} (r : Fin n) : Peers → Comm
  | nobody g => .solo g
  | everybody g => .member g r n

theorem Peers.comm_of {n : Nat} (r : Fin n) (p : Peers) : (p.comm r).Of r n := by
  cases p with
  | nobody g => exact .inl ⟨g, rfl⟩
  | everybody g => exact .inr ⟨g, rfl⟩

/-- An operand of a call. -/
inductive Argument where
  /-- A bare value. -/
  | scalar (v : Scalar)
  /-- The handle in a place. -/
  | handle (x : Nat)

/-- The operand that an argument stands for. -/
def Argument.operand (h : Holdings) : Argument → Operand
  | scalar v => .scalar v
  | handle x => .tensor (h.handle x)

theorem Argument.heldBy_operand {n : Nat} {r : Fin n} {h : Holdings} (hh : h.Valid r)
    (a : Argument) : (a.operand h).HeldBy r := by
  intro x hx
  cases a with
  | scalar v => cases hx
  | handle i =>
    obtain rfl := Operand.tensor.inj hx
    exact hh.handle i

/-- A call of one rank, on tensors and handles that are given by their places. -/
inductive Call where
  /-- Nothing is called. -/
  | idle
  /-- A function of tensors. -/
  | tensor (c : TensorCall)
  /-- The shard of a handle. -/
  | shard (x : Nat)
  /-- A copy of a handle. -/
  | copy (x : Nat)
  /-- The handle with the given parts. -/
  | create (t : Nat) (g : Shape) (d : DType) (k : Option Nat) (dev : Device) (p : Peers)
  /-- The handle on a tensor that all ranks hold in full. -/
  | ofGlobal (t : Nat) (k : Option Nat) (p : Peers)
  /-- Overwrite a shard. -/
  | assign (x t : Nat)
  /-- A function of two operands. -/
  | zip (k : List Tensor → Routine) (a b : Argument) (world : Peers)
  /-- A function of one handle. -/
  | map (k : List Tensor → Routine) (x : Nat)
  /-- A function of one handle, with the result written over the shard of an output. -/
  | mapInto (k : List Tensor → Routine) (x out : Nat)
  /-- A reduction. -/
  | reduce (k : Option Nat → List Tensor → Routine) (op : Reducer) (x : Nat) (axis : Axis)
    (keepdim : Bool)
  /-- A reduction, with the result put in the place of an output. -/
  | reduceInto (k : Option Nat → List Tensor → Routine) (op : Reducer) (x : Nat) (axis : Axis)
    (keepdim : Bool) (out : Nat)
  /-- Put the tensor of a handle together. -/
  | gather (x : Nat)

namespace Call

variable {n : Nat}

/-- What a function of one tensor does that a caller with the given holdings has put together. -/
def unary (h : Holdings) (k : List Tensor → Routine) (t : Tensor) : Except Failure Tensor :=
  Routine.apply k ([t] ++ h.tensors)

/-- What a function of two tensors does. -/
def binary (h : Holdings) (k : List Tensor → Routine) (t u : Tensor) : Except Failure Tensor :=
  Routine.apply k ([t, u] ++ h.tensors)

/-- What a function of a tensor and an axis does. -/
def reduction (h : Holdings) (k : Option Nat → List Tensor → Routine) (t : Tensor)
    (dim : Option Nat) : Except Failure Tensor :=
  unary h (k dim) t

/-- The program of a call of rank `r`. -/
def program (r : Fin n) (h : Holdings) : Call → Spmd (InPlace Holdings Unit)
  | idle => pure ⟨.ok (), h⟩
  | tensor c => pure (h.onTensors (c.run h.tensors))
  | shard x => pure (h.onTensors (TensorCall.keep h.tensors (.ok (h.handle x).shard)))
  | copy x => pure (h.keep (.ok (h.handle x)))
  | create t g d k dev p => pure (h.keep (Sharded.create (h.tensor t) g d k dev (p.comm r)))
  | ofGlobal t k p => pure (h.keep (Sharded.ofGlobal (h.tensor t) k (p.comm r)))
  | assign x t =>
    let w := (h.handle x).assign (h.tensor t)
    pure ⟨w.result, h.put x w.dest⟩
  | zip k a b world => do
    let y ← (Sharded.zipShards (binary h k) (a.operand h) (b.operand h) (world.comm r)).run
    return h.keep y
  | map k x => pure (h.keep ((h.handle x).mapShard (unary h k)))
  | mapInto k x out =>
    let w := (h.handle x).mapShardInto (unary h k) (h.handle out)
    pure ((h.put out w.dest).keep w.result)
  | reduce k op x axis keepdim => do
    let y ← (Sharded.reduceShards (reduction h k) op (h.handle x) axis keepdim).run
    return h.keep y
  | reduceInto k op x axis keepdim out => do
    let w ← Sharded.reduceShardsInto (reduction h k) op (h.handle x) axis keepdim (h.handle out)
    return (h.put out w.dest).keep w.result
  | gather x => do
    let t ← (h.handle x).toGlobal.run
    return h.onTensors (TensorCall.keep h.tensors t)

/-- `c.Proper` says that the numbers among the arguments of the call `c` are sizes, which on a
machine they always are. -/
def Proper : Call → Prop
  | tensor c => c.Proper
  | create _ g _ _ _ _ => ∀ e ∈ g, e < Size.modulus
  | idle | shard _ | copy _ | ofGlobal _ _ _ | assign _ _ | zip _ _ _ _ | map _ _ | mapInto _ _ _
  | reduce _ _ _ _ _ | reduceInto _ _ _ _ _ _ | gather _ => True

section

variable {r : Fin n} {h : Holdings}

theorem sound_unary (hh : h.Valid r) (k : List Tensor → Routine) (t : Tensor) (ht : t.Stored) :
    Sound Tensor.Stored (unary h k t) := by
  refine hh.sound_apply k fun u hu => ?_
  exact List.mem_singleton.mp hu ▸ ht

theorem sound_binary (hh : h.Valid r) (k : List Tensor → Routine) (t u : Tensor) (ht : t.Stored)
    (hu : u.Stored) : Sound Tensor.Stored (binary h k t u) := by
  refine hh.sound_apply k fun v hv => ?_
  rcases List.mem_pair.mp hv with rfl | rfl
  · exact ht
  · exact hu

theorem sound_reduction (hh : h.Valid r) (k : Option Nat → List Tensor → Routine) (t : Tensor)
    (dim : Option Nat) (ht : t.Stored) : Sound Tensor.Stored (reduction h k t dim) :=
  sound_unary hh (k dim) t ht

/-- **A call does not break down**, whatever the rank is told by others, except when a size
overflows, and leaves holdings that are valid.  Putting a tensor together is not among the calls of
which this holds. -/
theorem sound_program [NeZero n] (hh : h.Valid r) {c : Call} (hc : c.Proper)
    (hgather : ∀ x, c ≠ gather x) :
    Spmd.Always (fun l => l.length = n) (InPlace.Sound (Holdings.Valid r)) (c.program r h) := by
  -- one case for each call: the function is sound, and its result is kept with the rest
  cases c with
  | idle => exact ⟨trivial, hh⟩
  | tensor c => exact hh.onTensors (TensorCall.sound_run hh.tensors hc)
  | shard x =>
    have hshard : Sound Tensor.Stored (.ok (h.handle x).shard) := (hh.handle x).1.stored
    exact hh.onTensors (TensorCall.sound_keep hh.tensors hshard)
  | copy x => exact hh.keep (hh.handle x)
  | create t g d k dev p => exact hh.keep (Sharded.sound_create (hh.tensor t) hc (p.comm_of r))
  | ofGlobal t k p => exact hh.keep (Sharded.sound_ofGlobal (hh.tensor t) (p.comm_of r))
  | assign x t =>
    obtain ⟨hresult, hdest⟩ := Sharded.sound_assign (hh.handle x) (hh.tensor t)
    exact ⟨hresult, hh.put x hdest⟩
  | zip k a b world =>
    have hzip := Sharded.sound_zipShards (sound_binary hh k) (a.heldBy_operand hh)
      (b.heldBy_operand hh) (world.comm_of r)
    exact Spmd.Always.bind hzip fun y hy => hh.keep hy
  | map k x => exact hh.keep (Sharded.sound_mapShard (sound_unary hh k) (hh.handle x))
  | mapInto k x out =>
    obtain ⟨hresult, hdest⟩ :=
      Sharded.sound_mapShardInto (sound_unary hh k) (hh.handle x).1 (hh.handle out)
    exact (hh.put out hdest).keep hresult
  | reduce k op x axis keepdim =>
    have hreduce :=
      Sharded.sound_reduceFor (sound_reduction hh k) (hh.handle x) op axis keepdim none
    exact Spmd.Always.bind hreduce fun y hy => hh.keep hy
  | reduceInto k op x axis keepdim out =>
    have hreduce := Sharded.sound_reduceShardsInto (sound_reduction hh k) (hh.handle x) op axis
      keepdim (hh.handle out)
    exact Spmd.Always.bind hreduce fun w hw => (hh.put out hw.2).keep hw.1
  | gather x => exact absurd rfl (hgather x)

/-- **What a call leaves is valid**, whatever the rank is told by others, also if a tensor is put
together. -/
theorem valid_program [NeZero n] (hh : h.Valid r) {c : Call} (hc : c.Proper) :
    Spmd.Always (fun l => l.length = n) (fun w => w.dest.Valid r) (c.program r h) := by
  by_cases hgather : ∃ x, c = gather x
  · obtain ⟨x, rfl⟩ := hgather
    have hyields : Spmd.Always (fun l => l.length = n)
        (fun res => ∀ t : Tensor, res = .ok t → t.Stored) (h.handle x).toGlobal.run :=
      Spmd.Always.imp (Sharded.yields_toGlobal (hh.handle x).1) (fun _ _ => trivial) fun _ ht => ht
    refine Spmd.Always.bind hyields fun res hres => ?_
    cases res with
    | error e => exact hh
    | ok t =>
      have hkeep := TensorCall.sound_keep hh.tensors (x := .ok t) (hres t rfl)
      exact (hh.onTensors hkeep).2
  · exact (sound_program hh hc fun x hx => hgather ⟨x, hx⟩).imp (fun _ hl => hl) fun _ hw => hw.2

/-- **A group that puts a tensor together does not break down**, except when a size overflows, as
long as the sum of what the ranks hold is a size. -/
theorem ensures_gather [NeZero n] {hands : Fin n → Holdings} (hh : ∀ r, (hands r).Valid r)
    {x : Fin n → Nat}
    (hsum : (∀ r, ((hands r).handle (x r)).isDistributed = true) →
      ∑ r, ((hands r).handle (x r)).held < Size.modulus) :
    Spmd.Ensures (fun r => InPlace.Sound (Holdings.Valid r))
      fun r => (gather (x r)).program r (hands r) := by
  have htensor := Sharded.toGlobal_ensures (fun r => (hh r).handle (x r)) hsum
  exact htensor.map fun r t ht => (hh r).onTensors (TensorCall.sound_keep (hh r).tensors ht)

end

end Call

/-! ### Differences and quotients

A difference of sizes is truncated here, but on a machine there is none if it would be negative.
Where a function subtracts without asking, or divides, it is not so. -/

/-- The differences and quotients that a function of two operands with a result of `ndim` axes
computes for one of them are defined. -/
structure Operand.Defined (ndim : Nat) (a : Operand) : Prop where
  /-- The operand has no more axes than the result. -/
  padding : a.gshape.ndim ≤ ndim
  /-- The split axis is not in front of its axes. -/
  axis : ∀ d i, (Side.ofOperand d ndim a).split = some i → (Side.ofOperand d ndim a).offset ≤ i
  /-- Its group is not empty, so that it has chunks. -/
  chunk : ∀ x, a = .tensor x → x.comm.size ≠ 0

theorem Operand.HeldBy.defined {n ndim : Nat} {r : Fin n} {a : Operand} (ha : a.HeldBy r)
    (hn : a.gshape.ndim ≤ ndim) : a.Defined ndim where
  padding := hn
  axis d i hi := ((Side.ready_ofOperand ha d hn).axis i hi).1
  chunk x hx := Nat.ne_of_gt (Nat.zero_lt_of_lt (ha x hx).2.rank_lt)

/-- The split axis of a reduction can be moved past the axes that are dropped. -/
def Axis.Defined (axis : Axis) (x : Sharded) : Prop :=
  ∀ axes i, axis.resolve x.gshape = .ok (some axes) → x.split = some i →
    (axes.filter (· < i)).length ≤ i

theorem Axis.defined (axis : Axis) (x : Sharded) : axis.Defined x := by
  intro axes i haxes _
  obtain ⟨hnodup, -⟩ := Axis.valid_of_resolve haxes false axes rfl
  rw [Shape.length_filter_lt]
  exact Shape.countFrom_le hnodup 0 i

namespace Call

variable {n : Nat}

/-- The differences and quotients of sizes that the call `c` of rank `r` computes are defined. -/
def Defined (r : Fin n) (h : Holdings) : Call → Prop
  | ofGlobal _ _ p => (p.comm r).size ≠ 0
  | zip _ a b _ =>
    let ndim := max (a.operand h).gshape.ndim (b.operand h).gshape.ndim
    (a.operand h).Defined ndim ∧ (b.operand h).Defined ndim
  | mapInto _ x out => ∀ s, (h.handle x).shard.shape.broadcast (h.handle out).shard.shape = some s →
    (h.handle x).shard.ndim ≤ s.length
  | reduce _ _ x axis _ | reduceInto _ _ x axis _ _ => axis.Defined (h.handle x)
  -- what a rank holds is entered into a list with a place for each rank
  | gather x => (h.handle x).comm.rank < (h.handle x).comm.size
  | _ => True

theorem defined {r : Fin n} {h : Holdings} (hh : h.Valid r) (c : Call) : c.Defined r h := by
  cases c with
  | ofGlobal t k p => exact Nat.ne_of_gt (Nat.zero_lt_of_lt (p.comm_of r).rank_lt)
  | zip k a b world =>
    have ha := (a.heldBy_operand hh).defined (Nat.le_max_left _ (b.operand h).gshape.ndim)
    have hb := (b.heldBy_operand hh).defined (Nat.le_max_right (a.operand h).gshape.ndim _)
    exact ⟨ha, hb⟩
  | mapInto k x out => exact fun s hs => (Shape.broadcastsTo_left hs).1
  | reduce k op x axis keepdim => exact axis.defined _
  | reduceInto k op x axis keepdim out => exact axis.defined _
  | gather x => exact (hh.handle x).2.rank_lt
  | _ => trivial

end Call

/-! ### Runs -/

/-- `Reaches r h` says that rank `r` can come to hold `h`: it begins with nothing and makes calls,
in which it may be told anything by the others. -/
inductive Reaches {n : Nat} (r : Fin n) : Holdings → Prop where
  /-- In the beginning a rank holds nothing. -/
  | start : Reaches r ⟨[], []⟩
  /-- After a call it holds what the call has left. -/
  | call {h : Holdings} {c : Call} {w : InPlace Holdings Unit} (hr : Reaches r h) (hc : c.Proper)
    (hend : Spmd.MayEnd (fun l => l.length = n) w (c.program r h)) : Reaches r w.dest

namespace Reaches

variable {n : Nat} {r : Fin n} {h : Holdings}

/-- A call in which a rank does not wait for the others. -/
theorem call_alone (hr : Reaches r h) {c : Call} (hc : c.Proper) {h' : Holdings}
    (hdone : c.program r h = .done ⟨.ok (), h'⟩) : Reaches r h' :=
  hr.call (w := ⟨.ok (), h'⟩) hc (hdone ▸ rfl)

/-- What a rank can come to hold is valid. -/
theorem valid [NeZero n] (hr : Reaches r h) : h.Valid r := by
  induction hr with
  | start => exact ⟨nofun, nofun⟩
  | call _ hc hend ih => exact (Call.valid_program ih hc).of_mayEnd hend

/-- What the ranks of a group come to hold that get through a call of each of them. -/
theorem of_runs [NeZero n] {hands : Fin n → Holdings} (hr : ∀ r, Reaches r (hands r))
    {calls : Fin n → Call} (hcalls : ∀ r, (calls r).Proper)
    {rs : Fin n → List Event × InPlace Holdings Unit}
    (hruns : Spmd.Runs (fun r => (calls r).program r (hands r)) rs) (r : Fin n) :
    Reaches r (rs r).2.dest :=
  (hr r).call (hcalls r) (.of_runs hruns r)

/-- **No program of calls breaks down**, except when a size overflows, as long as all ranks take
part when a tensor is put together.  Whatever a rank has done and been told, its tensors have an
element for each of their coordinates and its handles are well formed; it subtracts no size from a
smaller one and divides by nothing that is zero, and a call other than `Call.gather` runs into no
fault, whatever the rank is told.  Neither does any rank if all of them put a tensor together and
the sum of what they hold is a size.  A repetition of a tensor without elements divides by nothing,
since it visits nothing. -/
theorem sound [NeZero n] :
    (∀ (r : Fin n) (h : Holdings), Reaches r h → h.Valid r ∧
      ∀ c : Call, c.Proper → c.Defined r h ∧ ((∀ x, c ≠ .gather x) →
        Spmd.Always (fun l => l.length = n) (InPlace.Sound (Holdings.Valid r)) (c.program r h))) ∧
    (∀ (hands : Fin n → Holdings) (x : Fin n → Nat), (∀ r, Reaches r (hands r)) →
      ((∀ r, ((hands r).handle (x r)).isDistributed = true) →
        ∑ r, ((hands r).handle (x r)).held < Size.modulus) →
      Spmd.Ensures (fun r => InPlace.Sound (Holdings.Valid r))
        fun r => (Call.gather (x r)).program r (hands r)) ∧
    ∀ (s : Shape) (ms offsets : List Nat), s.length = ms.length → 0 ∈ s →
      s.repeatOffsets ms = .ok offsets → offsets = [] := by
  refine ⟨fun r h hr => ⟨hr.valid, fun c hc => ⟨c.defined hr.valid, ?_⟩⟩, ?_, ?_⟩
  · exact Call.sound_program hr.valid hc
  · exact fun hands x hr hsum => Call.ensures_gather (fun r => (hr r).valid) hsum
  · exact fun _ _ _ => Shape.repeatOffsets_of_zero_mem

/-- Two ranks make a tensor of three truth values, share it out and put it together again. -/
theorem sound_two_ranks :
    let t : Tensor := ⟨[3], ⟨.bool, [true, false, true]⟩⟩
    let shard : Fin 2 → Tensor := fun r =>
      if r = 0 then ⟨[2], ⟨.bool, [true, false]⟩⟩ else ⟨[1], ⟨.bool, [true]⟩⟩
    let hands : Fin 2 → Holdings := fun r =>
      ⟨[t], [⟨shard r, [3], .bool, some 0, .cpu, .member 0 r 2⟩]⟩
    (∀ r, Reaches r (hands r) ∧ (hands r).Valid r) ∧
      ∑ r, ((hands r).handle 0).held < Size.modulus ∧
      Spmd.Ensures (fun r => InPlace.Sound (Holdings.Valid r))
        fun r => (Call.gather 0).program r (hands r) := by
  intro t shard hands
  have hmade (r : Fin 2) : Reaches r ⟨[t], []⟩ :=
    start.call_alone (c := .tensor (.vector t.buffer)) (show 3 < Size.modulus by decide) rfl
  let share : Call := .ofGlobal 0 (some 0) (.everybody 0)
  have hshared : ∀ r, share.program r ⟨[t], []⟩ = .done ⟨.ok (), hands r⟩ :=
    Fin.forall_fin_two.mpr ⟨rfl, rfl⟩
  have hreach (r : Fin 2) : Reaches r (hands r) :=
    (hmade r).call_alone (c := share) trivial (hshared r)
  have hsum : ∑ r, ((hands r).handle 0).held < Size.modulus := by decide
  obtain ⟨hvalid, hgather, -⟩ := sound (n := 2)
  exact ⟨fun r => ⟨hreach r, (hvalid r _ (hreach r)).1⟩, hsum,
    hgather hands (fun _ => 0) hreach fun _ => hsum⟩

/-- **Ranks that are out of step.**  Two ranks reduce a tensor of which rank 0 has all, with a
function that fails for a rank that has nothing.  So rank 1 goes on and puts another tensor
together, while rank 0 waits for the others' partial results.  The elements `-1` and `2` that rank 0
contributes are lengths to rank 1: with its own length 1 they make up the extent 2, and what rank 1
has starts at `-1`. -/
theorem gather_out_of_step :
    let slice : Option Nat → List Tensor → Routine := fun _ _ => .last (.narrow 0 0 0 1)
    let half : Tensor := ⟨[1], ⟨.i64, [.ofInt 0]⟩⟩
    let shard : Fin 2 → Tensor := fun r =>
      if r = 0 then ⟨[1, 2], ⟨.i64, [.ofInt (-1), .ofInt 2]⟩⟩ else ⟨[0, 2], ⟨.i64, []⟩⟩
    let hands : Fin 2 → Holdings := fun r =>
      ⟨[half, shard r], [⟨half, [2], .i64, some 0, .cpu, .member 0 r 2⟩,
        ⟨shard r, [1, 2], .i64, some 0, .cpu, .member 0 r 2⟩]⟩
    (∀ r, Reaches r (hands r)) ∧
      Spmd.Runs
        (fun r => do
          let w ← (Call.reduce slice .sum 1 (.many [0]) true).program r (hands r)
          match w.result with
          | .ok () => return w.result
          | .error _ => return (← (Call.gather 0).program r w.dest).result)
        fun r => ([.allReduce 0 .i64 2 .sum],
          if r = 0 then .ok () else .error (.fault .outOfRange)) := by
  intro slice half shard hands
  let mine (r : Fin 2) : Sharded := (hands r).handle 0
  let store (r : Fin 2) : TensorCall := .ofBuffer (shard r).shape (shard r).buffer
  let split (t : Nat) (g : Shape) : Call := .create t g .i64 (some 0) .cpu (.everybody 0)
  refine ⟨fun r => ?_, ?_⟩
  · have hmade : Reaches r ⟨[half], []⟩ :=
      start.call_alone (c := .tensor (.vector half.buffer)) (show 1 < Size.modulus by decide) rfl
    have hhalf : Reaches r ⟨[half], [mine r]⟩ :=
      hmade.call_alone (c := split 0 [2]) (show ∀ e ∈ [2], e < Size.modulus by decide) rfl
    have hproper : ∀ r, (store r).Proper := by decide
    have hstore : ∀ r, (Call.tensor (store r)).program r ⟨[half], [mine r]⟩
        = .done ⟨.ok (), ⟨[half, shard r], [mine r]⟩⟩ := Fin.forall_fin_two.mpr ⟨rfl, rfl⟩
    have hsplit : ∀ r, (split 1 [1, 2]).program r ⟨[half, shard r], [mine r]⟩
        = .done ⟨.ok (), hands r⟩ := Fin.forall_fin_two.mpr ⟨rfl, rfl⟩
    have hboth : Reaches r ⟨[half, shard r], [mine r]⟩ :=
      hhalf.call_alone (c := .tensor (store r)) (hproper r) (hstore r)
    have hsizes : ∀ e ∈ [1, 2], e < Size.modulus := by decide
    exact hboth.call_alone (c := split 1 [1, 2]) hsizes (hsplit r)
  · show Spmd.run (List.ofFn _) = some (List.ofFn _)
    decide +kernel

end Reaches

end SpmdArray
