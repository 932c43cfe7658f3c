import SpmdArray.Proofs.GroupReduction
import SpmdArray.Proofs.Failures

/-!
# Operations that fail leave their destination alone

An operation that writes to a destination checks everything before it writes.  So it leaves the
destination as it was if it fails, whatever the functions that it is given do, and whatever comes
of the exchange with other ranks.

## Main definitions

* `InPlace.Keeps`, `InPlace.Returns` — a failed operation has not touched its destination; a
  successful one hands it out.
* `Sharded.reduceBy`, `Sharded.reduceIntoBy` — a reduction by a function that may do anything a
  program may do, over a communicator of which nothing is known.

## Main results

* `Sharded.reduceFor_eq_reduceBy` — reductions are reductions of this kind.
* `Sharded.outputs_atomic` — which operations leave their destination alone when they fail.
-/

namespace SpmdArray

namespace InPlace

variable {σ α : Type}

/-- The operation has left its destination as it was before if it has failed. -/
def Keeps (w : InPlace σ α) (before : σ) : Prop := ∀ e, w.result = .error e → w.dest = before

/-- The operation has returned its destination if it has succeeded. -/
def Returns (w : InPlace σ σ) : Prop := ∀ a, w.result = .ok a → a = w.dest

theorem keeps_self (r : Except Failure α) (d : σ) : Keeps ⟨r, d⟩ d := fun _ _ => rfl

theorem keeps_ok (a : α) (d before : σ) : Keeps ⟨.ok a, d⟩ before := fun _ h => nomatch h

theorem returns_ok (d : σ) : Returns ⟨.ok d, d⟩ := fun _ h => (Except.ok.inj h).symm

theorem returns_error (e : Failure) (d : σ) : Returns ⟨.error e, d⟩ := fun _ h => nomatch h

end InPlace

/-! ### Buffers and tensors -/

namespace Buffer

/-- Positions that are in range are written without a fault. -/
theorem put_fst {α : Type} (xs : Array α) (ws : List (Nat × α)) (h : ∀ w ∈ ws, w.1 < xs.size) :
    (put xs ws).1 = .ok () := by
  induction ws generalizing xs with
  | nil => rfl
  | cons w ws ih =>
    obtain ⟨i, x⟩ := w
    rw [put, if_pos (h _ List.mem_cons_self)]
    refine ih _ fun w hw => ?_
    rw [Array.size_setIfInBounds]
    exact h w (List.mem_cons_of_mem _ hw)

/-- A buffer is scattered to positions in range, or it is left alone. -/
theorem scatter_keeps {b : Buffer} {offsets : List Nat} (src : Buffer)
    (h : ∀ i ∈ offsets, i < b.length) : (b.scatter offsets src).Keeps b := by
  unfold scatter
  cases src.as? b.dtype with
  | none => exact InPlace.keeps_self _ b
  | some xs =>
    simp only
    split
    · exact InPlace.keeps_self _ b
    · have hput : (put b.data.toArray (offsets.zip xs)).1 = .ok () := by
        refine put_fst _ _ fun w hw => ?_
        exact h w.1 (List.of_mem_zip hw).1
      rw [hput]
      exact InPlace.keeps_ok () _ b

/-- A buffer is folded into another one, or that one is left alone. -/
theorem combine_keeps (b other : Buffer) (r : Reducer) : (b.combine other r).Keeps b := by
  unfold combine
  cases other.as? b.dtype with
  | none => exact InPlace.keeps_self _ b
  | some ys =>
    simp only
    split
    · exact InPlace.keeps_self _ b
    · split
      · exact InPlace.keeps_self _ b
      · exact InPlace.keeps_ok () _ b

end Buffer

theorem Tensor.assign_keeps (t src : Tensor) : (t.assign src).Keeps t := by
  unfold assign
  split
  · exact InPlace.keeps_self _ t
  · exact InPlace.keeps_ok () _ t

namespace Sharded

theorem assign_keeps (x : Sharded) (src : Tensor) : (x.assign src).Keeps x := by
  intro e he
  have hshard : (x.shard.assign src).dest = x.shard := Tensor.assign_keeps x.shard src e he
  show { x with shard := (x.shard.assign src).dest } = x
  rw [hshard]

/-! ### Functions of one tensor -/

variable {x out : Sharded}

theorem mapShardInto_keeps (f : Tensor → Except Failure Tensor) (x out : Sharded) :
    (mapShardInto f x out).Keeps out ∧ (mapShardInto f x out).Returns := by
  unfold mapShardInto
  cases shardFor f x out with
  | error e => exact ⟨InPlace.keeps_self _ out, InPlace.returns_error e out⟩
  | ok t =>
    have hkeeps := assign_keeps out t
    dsimp only
    generalize out.assign t = w at hkeeps ⊢
    obtain ⟨r, d⟩ := w
    cases r with
    | error e => exact ⟨fun e' _ => hkeeps e rfl, InPlace.returns_error e d⟩
    | ok u => exact ⟨InPlace.keeps_ok d d out, InPlace.returns_ok d⟩

end Sharded

/-! ### Reductions -/

/-- The reduction of a shard by a function that may do anything that a program may do. -/
def Plan.reduceShardBy (p : Plan) (f : Tensor → Option Nat → Attempt Tensor) (t : Tensor)
    (gshape : Shape) : Attempt Tensor := do
  match p.axes with
  | none =>
    let r ← f t none
    ExceptT.mk (pure (r.reshape gshape))
  | some axes =>
    let r ← axes.foldlM (fun acc axis => f acc (some axis)) t
    if p.keepdim then return r else ExceptT.mk (pure (r.reshape (r.shape.dropAxes axes)))

/-- A function that does not exchange anything is a special case. -/
theorem Plan.reduceShardBy_mk (p : Plan) (f : Tensor → Option Nat → Except Failure Tensor)
    (t : Tensor) (gshape : Shape) :
    p.reduceShardBy (fun t dim => ExceptT.mk (pure (f t dim))) t gshape
      = ExceptT.mk (pure (p.reduceShard f t gshape)) := by
  have hfold : ∀ (axes : List Nat) (t : Tensor),
      axes.foldlM (fun acc axis => (ExceptT.mk (pure (f acc (some axis))) : Attempt Tensor)) t
        = ExceptT.mk (pure (axes.foldlM (fun acc axis => f acc (some axis)) t)) := by
    intro axes
    induction axes with
    | nil => intro t; rfl
    | cons axis axes ih =>
      intro t
      rw [List.foldlM_cons, List.foldlM_cons]
      cases f t (some axis) with
      | error e => rfl
      | ok r => exact ih r
  unfold reduceShardBy reduceShard
  cases p.axes with
  | none =>
    dsimp only
    rw [Attempt.mk_bind]
    rfl
  | some axes =>
    dsimp only
    rw [Attempt.mk_bind, hfold]
    refine bind_congr fun r => ?_
    cases p.keepdim <;> rfl

namespace Sharded

/-- Combine the partial results of all ranks by `call`. -/
def combineBy (call : Buffer → Spmd (InPlace Buffer Unit)) (t : Tensor) : Attempt Tensor := do
  let b ← Comm.leftBy (call t.buffer)
  if b.length ≠ t.numel then throw (.error (.reducedLength b.length t.numel))
  ExceptT.mk (pure (Tensor.ofBuffer t.shape b))

/-- The reduction by a function `f` of one tensor over a communicator whose `call` combines the
partial results of the ranks.  Both may do anything that a program may do. -/
def reduceBy (f : Tensor → Option Nat → Attempt Tensor)
    (call : Buffer → Spmd (InPlace Buffer Unit)) (combine : Reducer) (x : Sharded) (axis : Axis)
    (keepdim : Bool) (out : Option Sharded) : Attempt Sharded := do
  let axes ← ((axis.resolve x.gshape).mapError .error : Except Failure _)
  let p : Plan := ⟨axes, keepdim⟩
  let gshape := p.gshape x.gshape
  if let some o := out then
    if o.gshape ≠ gshape then throw (.error (.shapeMismatch gshape o.gshape))
  let t ← p.reduceShardBy f x.shard gshape
  let t ←
    if p.reducesSplit x.split ∧ x.comm.isDistributed then combineBy call t
    else pure t
  let d := if combine.isBoolean then .bool else t.dtype
  ExceptT.mk (pure (create (t.cast d) gshape d (p.split x.split) x.device x.comm))

/-- The same, with the result put in the place of `out`. -/
def reduceIntoBy (f : Tensor → Option Nat → Attempt Tensor)
    (call : Buffer → Spmd (InPlace Buffer Unit)) (combine : Reducer) (x : Sharded) (axis : Axis)
    (keepdim : Bool) (out : Sharded) : Spmd (InPlace Sharded Sharded) := do
  match ← (reduceBy f call combine x axis keepdim (some out)).run with
  | .ok r => return ⟨.ok r, r⟩
  | .error e => return ⟨.error e, out⟩

theorem reduceFor_eq_reduceBy (f : Tensor → Option Nat → Except Failure Tensor)
    (combine : Reducer) (x : Sharded) (axis : Axis) (keepdim : Bool) (out : Option Sharded) :
    reduceFor f combine x axis keepdim out
      = reduceBy (fun t dim => ExceptT.mk (pure (f t dim))) (x.comm.allReduce combine) combine x
          axis keepdim out := by
  simp only [reduceBy, Plan.reduceShardBy_mk]
  rfl

theorem reduceShardsInto_eq (f : Tensor → Option Nat → Except Failure Tensor) (combine : Reducer)
    (x : Sharded) (axis : Axis) (keepdim : Bool) (out : Sharded) :
    reduceShardsInto f combine x axis keepdim out
      = reduceIntoBy (fun t dim => ExceptT.mk (pure (f t dim))) (x.comm.allReduce combine) combine
          x axis keepdim out := by
  have hrun := reduceFor_eq_reduceBy f combine x axis keepdim (some out)
  unfold reduceShardsInto
  exact hrun ▸ rfl

section

variable (f : Tensor → Option Nat → Attempt Tensor) (call : Buffer → Spmd (InPlace Buffer Unit))
  (combine : Reducer) {x : Sharded} {axis : Axis} (keepdim : Bool)

/-- An axis that does not exist is refused before anything else happens. -/
theorem reduceBy_of_invalid (out : Option Sharded) {e : Error}
    (h : axis.resolve x.gshape = .error e) :
    reduceBy f call combine x axis keepdim out = throw (.error e) := by
  unfold reduceBy
  rw [h]
  rfl

/-- An output of another shape than the result is refused before anything else happens. -/
theorem reduceBy_of_ne {out : Sharded} {axes : Option (List Nat)}
    (h : axis.resolve x.gshape = .ok axes)
    (hout : out.gshape ≠ Plan.gshape ⟨axes, keepdim⟩ x.gshape) :
    reduceBy f call combine x axis keepdim (some out)
      = throw (.error (.shapeMismatch (Plan.gshape ⟨axes, keepdim⟩ x.gshape) out.gshape)) := by
  unfold reduceBy
  rw [h]
  show (if out.gshape ≠ Plan.gshape ⟨axes, keepdim⟩ x.gshape then _ else _) = _
  rw [if_pos hout]
  rfl

/-- A refusal goes on to the destination. -/
theorem reduceIntoBy_of_throw {out : Sharded} {e : Failure}
    (h : reduceBy f call combine x axis keepdim (some out) = throw e) :
    reduceIntoBy f call combine x axis keepdim out = pure ⟨.error e, out⟩ := by
  unfold reduceIntoBy
  rw [h]
  rfl

theorem reduceIntoBy_keeps (x : Sharded) (axis : Axis) (out : Sharded) :
    (reduceIntoBy f call combine x axis keepdim out).Always (fun _ => True)
      fun w => w.Keeps out ∧ w.Returns := by
  refine (Spmd.always_true _).bind fun r _ => ?_
  cases r with
  | error e => exact ⟨InPlace.keeps_self _ out, InPlace.returns_error e out⟩
  | ok y => exact ⟨InPlace.keeps_ok y y out, InPlace.returns_ok y⟩

end

/-- **Operations that fail leave their destination alone.**  That holds for functions of one tensor
and reductions that put their result in the place of an output, for overwriting a tensor, for
scattering to positions in range and for folding a buffer into another one; functions and
reductions that succeed return the output itself.  A function that a reduction is given, and its
communicator, may do anything, and the rank may be told anything in exchanges; they are not asked
at all if the axis or the shape of the output is wrong. -/
theorem outputs_atomic :
    (∀ (f : Tensor → Except Failure Tensor) (x out : Sharded),
      (mapShardInto f x out).Keeps out ∧ (mapShardInto f x out).Returns) ∧
    (∀ (f : Tensor → Option Nat → Attempt Tensor) (call : Buffer → Spmd (InPlace Buffer Unit))
        (combine : Reducer) (x : Sharded) (axis : Axis) (keepdim : Bool) (out : Sharded),
      ((reduceIntoBy f call combine x axis keepdim out).Always (fun _ => True)
        fun w => w.Keeps out ∧ w.Returns) ∧
      (∀ e : Error, axis.resolve x.gshape = .error e →
        (∀ o, reduceBy f call combine x axis keepdim o = throw (.error e)) ∧
        reduceIntoBy f call combine x axis keepdim out = pure ⟨.error (.error e), out⟩) ∧
      ∀ axes, axis.resolve x.gshape = .ok axes →
        out.gshape ≠ Plan.gshape ⟨axes, keepdim⟩ x.gshape →
        ∃ e : Error, e.kind = .shapeMismatch ∧
          reduceIntoBy f call combine x axis keepdim out = pure ⟨.error (.error e), out⟩) ∧
    (∀ (f : Tensor → Option Nat → Except Failure Tensor) (combine : Reducer) (x : Sharded)
        (axis : Axis) (keepdim : Bool) (out : Sharded),
      reduceShardsInto f combine x axis keepdim out
        = reduceIntoBy (fun t dim => ExceptT.mk (pure (f t dim))) (x.comm.allReduce combine)
            combine x axis keepdim out ∧
      reduceShards f combine x axis keepdim
        = reduceBy (fun t dim => ExceptT.mk (pure (f t dim))) (x.comm.allReduce combine)
            combine x axis keepdim none) ∧
    (∀ t src : Tensor, (t.assign src).Keeps t) ∧
    (∀ (b src : Buffer) (offsets : List Nat), (∀ i ∈ offsets, i < b.length) →
      (b.scatter offsets src).Keeps b) ∧
    ∀ (b other : Buffer) (r : Reducer), (b.combine other r).Keeps b := by
  refine ⟨mapShardInto_keeps, ?_, ?_, Tensor.assign_keeps, ?_, Buffer.combine_keeps⟩
  · intro f call combine x axis keepdim out
    refine ⟨reduceIntoBy_keeps f call combine keepdim x axis out, ?_, ?_⟩
    · intro e h
      have hrefuse := fun o => reduceBy_of_invalid f call combine keepdim o h
      exact ⟨hrefuse, reduceIntoBy_of_throw f call combine keepdim (hrefuse (some out))⟩
    · intro axes h hout
      exact ⟨_, rfl, reduceIntoBy_of_throw f call combine keepdim
        (reduceBy_of_ne f call combine keepdim h hout)⟩
  · intro f combine x axis keepdim out
    exact ⟨reduceShardsInto_eq f combine x axis keepdim out,
      reduceFor_eq_reduceBy f combine x axis keepdim none⟩
  · intro b src offsets h
    exact Buffer.scatter_keeps src h

/-- Two words are added up along an axis that they do not have, and into an output of three
words; then they are written in the other order. -/
theorem outputs_atomic_two_words :
    let f : Tensor → Option Nat → Attempt Tensor := fun t _ => pure t
    let call : Buffer → Spmd (InPlace Buffer Unit) := fun b => pure ⟨.ok (), b⟩
    let b : Buffer := ⟨.i64, [.ofInt 1, .ofInt 2]⟩
    let x : Sharded := ⟨⟨[2], b⟩, [2], .i64, none, .cpu, .solo 0⟩
    let out : Sharded :=
      ⟨⟨[3], ⟨.i64, [.ofInt 7, .ofInt 8, .ofInt 9]⟩⟩, [3], .i64, none, .cpu, .solo 0⟩
    reduceIntoBy f call .sum x (.single 1) true out
        = pure ⟨.error (.error (.invalidAxis 1 1)), out⟩ ∧
      (∃ e : Error, e.kind = .shapeMismatch ∧
        reduceIntoBy f call .sum x (.single 0) true out = pure ⟨.error (.error e), out⟩) ∧
      (b.scatter [1, 0] b).Keeps b := by
  intro f call b x out
  obtain ⟨-, hreduce, -, -, hscatter, -⟩ := outputs_atomic
  obtain ⟨-, hinvalid, -⟩ := hreduce f call .sum x (.single 1) true out
  obtain ⟨-, -, hshape⟩ := hreduce f call .sum x (.single 0) true out
  exact ⟨(hinvalid (.invalidAxis 1 1) rfl).2, hshape (some [0]) rfl (by decide),
    hscatter b b [1, 0] (by decide)⟩

end Sharded

end SpmdArray
