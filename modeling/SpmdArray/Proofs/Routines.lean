import SpmdArray.Proofs.Soundness

/-!
# Functions that callers put together

The functions of sharded tensors apply functions of tensors that their callers supply.  A caller
can only put such a function together from calls of the functions of this library: it has no other
way to come by a tensor.  What it calls next may depend on everything that it has seen so far, and
it may give up.

## Main definitions

* `TensorCall` — a call on tensors that are given by their places in a list; `TensorCall.run`.
* `TensorCall.Proper` — the numbers among the arguments of the call are sizes.
* `Routine` — calls, one after the other; `Routine.apply`.
* `Routine.binary`, `Routine.unary`, `Routine.statistic` — the functions that have names.

## Main results

* `TensorCall.sound_run` — a call does not break down, except when a size overflows.
* `Routine.sound_apply` — neither does a routine.
* `Routine.apply_binary`, `Routine.apply_unary`, `Routine.apply_statistic` — the functions that
  have names are routines.
-/

namespace SpmdArray

/-- `w.Sound post` says that the operation `w` has not run into a fault, unless something has
overflowed, and that `post` holds of the destination that it has left. -/
def InPlace.Sound {σ α : Type} (post : σ → Prop) (w : InPlace σ α) : Prop :=
  SpmdArray.Sound (fun _ => True) w.result ∧ post w.dest

/-- The tensor in the place `i` of a list.  A place that the list does not have counts as a vector
without elements. -/
def Tensor.nth (ts : List Tensor) (i : Nat) : Tensor := ts.getD i (.vector ⟨.bool, []⟩)

/-- What holds of the members of a list and of the default holds in every place. -/
theorem getD_of_forall {α : Type} {p : α → Prop} {l : List α} (hl : ∀ a ∈ l, p a) {d : α}
    (hd : p d) (i : Nat) : p (l.getD i d) := by
  rcases Nat.lt_or_ge i l.length with hi | hi
  · rw [List.getD_eq_getElem _ _ hi]
    exact hl _ (List.getElem_mem hi)
  · rwa [List.getD_eq_default _ _ hi]

/-! ### Calls -/

/-- A call of a function of tensors, which are given by their places in a list. -/
inductive TensorCall where
  /-- The tensor of a shape and a buffer. -/
  | ofBuffer (s : Shape) (b : Buffer)
  /-- The one-dimensional tensor of a buffer. -/
  | vector (b : Buffer)
  /-- Zeros. -/
  | zeros (s : Shape) (d : DType)
  /-- A scalar as a tensor. -/
  | scalar (x : Scalar) (d : DType)
  /-- A conversion. -/
  | cast (t : Nat) (d : DType)
  /-- A change of shape. -/
  | reshape (t : Nat) (s : Shape)
  /-- A broadcast. -/
  | broadcastTo (t : Nat) (s : Shape)
  /-- A repetition. -/
  | tile (t : Nat) (multiples : List Nat)
  /-- A slice. -/
  | narrow (t dim start len : Nat)
  /-- An element-wise function of one tensor. -/
  | unary (f : UnaryFn) (t : Nat)
  /-- An element-wise function of two tensors. -/
  | binary (f : BinaryFn) (t u : Nat)
  /-- A reduction, in which threads may share out the elements. -/
  | reduce (how : Grouping) (op : Reducer) (t : Nat) (dim : Option Nat)
  /-- Overwrite a tensor. -/
  | assign (t src : Nat)

namespace TensorCall

variable {ts : List Tensor}

/-- The outcome of a call that gives a new tensor, which takes the next place of the list. -/
def keep (ts : List Tensor) (x : Except Failure Tensor) : InPlace (List Tensor) Unit :=
  match x with
  | .ok t => ⟨.ok (), ts ++ [t]⟩
  | .error e => ⟨.error e, ts⟩

/-- Make a call on the tensors of a list. -/
def run (ts : List Tensor) : TensorCall → InPlace (List Tensor) Unit
  | ofBuffer s b => keep ts (Tensor.ofBuffer s b)
  | vector b => keep ts (.ok (.vector b))
  | zeros s d => keep ts (liftM (Tensor.zeros s d))
  | scalar x d => keep ts (.ok (x.toTensor d))
  | cast t d => keep ts (.ok ((Tensor.nth ts t).cast d))
  | reshape t s => keep ts ((Tensor.nth ts t).reshape s)
  | broadcastTo t s => keep ts ((Tensor.nth ts t).broadcastTo s)
  | tile t ms => keep ts ((Tensor.nth ts t).tile ms)
  | narrow t dim start len => keep ts ((Tensor.nth ts t).narrow dim start len)
  | unary f t => keep ts (.ok ((Tensor.nth ts t).unary f))
  | binary f t u => keep ts ((Tensor.nth ts t).binary f (Tensor.nth ts u))
  | reduce how op t dim => keep ts ((Tensor.nth ts t).reduce how op dim)
  | assign t src =>
    let w := (Tensor.nth ts t).assign (Tensor.nth ts src)
    ⟨w.result, ts.set t w.dest⟩

/-- `c.Proper` says that the numbers among the arguments of the call `c` are sizes, which on a
machine they always are. -/
def Proper : TensorCall → Prop
  | ofBuffer s _ | zeros s _ | reshape _ s | broadcastTo _ s => ∀ e ∈ s, e < Size.modulus
  | vector b => b.length < Size.modulus
  | scalar _ _ | cast _ _ | tile _ _ | narrow _ _ _ _ | unary _ _ | binary _ _ _
  | reduce _ _ _ _ | assign _ _ => True

instance : DecidablePred Proper
  | ofBuffer s _ | zeros s _ | reshape _ s | broadcastTo _ s =>
    inferInstanceAs (Decidable (∀ e ∈ s, e < Size.modulus))
  | vector b => inferInstanceAs (Decidable (b.length < Size.modulus))
  | scalar _ _ | cast _ _ | tile _ _ | narrow _ _ _ _ | unary _ _ | binary _ _ _
  | reduce _ _ _ _ | assign _ _ => inferInstanceAs (Decidable True)

theorem stored_nth (hts : ∀ t ∈ ts, t.Stored) (i : Nat) : (Tensor.nth ts i).Stored :=
  getD_of_forall hts (Tensor.stored_vector (by decide)) i

theorem sound_keep {x : Except Failure Tensor} (hts : ∀ t ∈ ts, t.Stored)
    (hx : Sound Tensor.Stored x) : (keep ts x).Sound fun ts => ∀ t ∈ ts, t.Stored := by
  rcases x with (e | f) | t
  · exact ⟨trivial, hts⟩
  · exact ⟨hx, hts⟩
  · refine ⟨trivial, fun u hu => ?_⟩
    rcases List.mem_append.mp hu with hu | hu
    · exact hts u hu
    · exact List.mem_singleton.mp hu ▸ hx

/-- **A call does not break down**, except when a size overflows, and leaves tensors that have an
element for each of their coordinates. -/
theorem sound_run (hts : ∀ t ∈ ts, t.Stored) {c : TensorCall} (hc : c.Proper) :
    (c.run ts).Sound fun ts => ∀ t ∈ ts, t.Stored := by
  have hnth := stored_nth hts
  cases c with
  | ofBuffer s b => exact sound_keep hts (Tensor.sound_ofBuffer hc)
  | vector b => exact sound_keep hts (Tensor.stored_vector hc)
  | zeros s d => exact sound_keep hts (Tensor.sound_zeros hc d)
  | scalar x d => exact sound_keep hts (x.exact_toTensor d).stored
  | cast t d => exact sound_keep hts ((hnth t).cast d)
  | reshape t s => exact sound_keep hts (Tensor.sound_reshape hc)
  | broadcastTo t s => exact sound_keep hts (Tensor.sound_broadcastTo (hnth t) hc)
  | tile t ms => exact sound_keep hts (Tensor.sound_tile (hnth t) ms)
  | narrow t dim start len => exact sound_keep hts (Tensor.sound_narrow (hnth t) dim start len)
  | unary f t => exact sound_keep hts ((hnth t).unary f)
  | binary f t u => exact sound_keep hts (Tensor.sound_binary (hnth t) (hnth u) f)
  | reduce how op t dim => exact sound_keep hts (Tensor.sound_reduce (hnth t) how op dim)
  | assign t src =>
    obtain ⟨hresult, hdest⟩ := Tensor.sound_assign (hnth t) _ (hnth src)
    refine ⟨hresult, fun u hu => ?_⟩
    rcases List.mem_or_eq_of_mem_set hu with hu | rfl
    · exact hts u hu
    · exact hdest

end TensorCall

/-! ### Routines -/

/-- What a caller does with the tensors of a list. -/
inductive Routine where
  /-- Return the tensor in a place of the list. -/
  | give (t : Nat)
  /-- Report an error. -/
  | fail (e : Error)
  /-- Make a call, and go on with the error that it has reported, if it has reported one, and with
  the tensors that there are then. -/
  | call (c : TensorCall) (next : Option Error → List Tensor → Routine)

namespace Routine

/-- Run a routine.  It is given up at a call with a number that is no size. -/
def run : Routine → List Tensor → Except Failure Tensor
  | give t, ts => .ok (Tensor.nth ts t)
  | fail e, _ => Error.raise e
  | call c next, ts =>
    if c.Proper then
      let w := c.run ts
      match w.result with
      | .ok () => (next none w.dest).run w.dest
      | .error (.error e) => (next (some e) w.dest).run w.dest
      | .error (.fault f) => throw (.fault f)
    else Error.raise .kernelFailed

/-- Apply the routine that `k` chooses for the tensors of a list. -/
def apply (k : List Tensor → Routine) (ts : List Tensor) : Except Failure Tensor := (k ts).run ts

/-- **A routine does not break down**, except when a size overflows, and what it returns has an
element for each of its coordinates. -/
theorem sound_run (k : Routine) {ts : List Tensor} (hts : ∀ t ∈ ts, t.Stored) :
    Sound Tensor.Stored (k.run ts) := by
  induction k generalizing ts with
  | give t => exact TensorCall.stored_nth hts t
  | fail e => exact Sound.raise e
  | call c next ih =>
    unfold run
    refine .ite (fun hc => ?_) fun _ => .raise _
    obtain ⟨hresult, hdest⟩ := TensorCall.sound_run hts hc
    dsimp only
    generalize c.run ts = w at hresult hdest
    obtain ⟨(e | f) | ⟨⟩, ts'⟩ := w
    · exact ih _ _ hdest
    · exact hresult
    · exact ih _ _ hdest

theorem sound_apply (k : List Tensor → Routine) {ts : List Tensor} (hts : ∀ t ∈ ts, t.Stored) :
    Sound Tensor.Stored (apply k ts) :=
  (k ts).sound_run hts

/-! ### Functions that have names -/

section

variable {t u : Tensor} {ts : List Tensor}

/-- Make a call and return the tensor that it gives. -/
def last (c : TensorCall) : Routine :=
  .call c fun e ts =>
    match e with
    | some e => .fail e
    | none => .give (ts.length - 1)

theorem nth_append (ts us : List Tensor) (i : Nat) :
    Tensor.nth (ts ++ us) (ts.length + i) = Tensor.nth us i := by
  unfold Tensor.nth
  rw [List.getD_append_right _ _ _ _ (Nat.le_add_right _ _), Nat.add_sub_cancel_left]

theorem run_last {c : TensorCall} {x : Except Failure Tensor} (hc : c.Proper)
    (hx : c.run ts = TensorCall.keep ts x) : (last c).run ts = x := by
  unfold last run
  rw [if_pos hc, hx]
  rcases x with (e | f) | t
  · rfl
  · rfl
  · refine congrArg Except.ok ?_
    rw [TensorCall.keep, List.length_append]
    exact nth_append ts [t] 0

/-- The function of the first two tensors with a given name. -/
def binary (f : BinaryFn) (ts : List Tensor) : Routine :=
  match f with
  | .div =>
    let d := (Tensor.nth ts 0).dtype.toFloat
    .call (.cast 0 d) fun _ _ => .call (.cast 1 d) fun _ _ =>
      last (.binary .div ts.length (ts.length + 1))
  | f => last (.binary f 0 1)

/-- The function of the first tensor with a given name. -/
def unary (f : UnaryFn) : Routine := last (.unary f 0)

/-- The reduction of the first tensor with a given name. -/
def statistic (stat : Statistic) (how : Grouping) (dim : Option Nat) (ts : List Tensor) : Routine :=
  .call (.cast 0 (stat.workType (Tensor.nth ts 0).dtype)) fun _ _ =>
    last (.reduce how stat.reducer ts.length dim)

theorem run_cast (i : Nat) (d : DType) (next : Option Error → List Tensor → Routine) :
    (call (.cast i d) next).run ts
      = let us := ts ++ [(Tensor.nth ts i).cast d]
        (next none us).run us := by
  rw [run, if_pos (show (TensorCall.cast i d).Proper from trivial)]
  rfl

theorem run_binary {i j : Nat} (f : BinaryFn) (ht : Tensor.nth ts i = t)
    (hu : Tensor.nth ts j = u) : (last (.binary f i j)).run ts = t.binary f u := by
  subst ht hu
  exact run_last trivial rfl

theorem apply_binary (f : BinaryFn) :
    apply (binary f) (t :: u :: ts) = Sharded.kernel f t u := by
  cases f with
  | div =>
    -- the converted operands take the two places behind the others
    let d := t.dtype.toFloat
    have hplace := nth_append (t :: u :: ts) [t.cast d, u.cast d]
    show (call (.cast 0 d) _).run (t :: u :: ts) = _
    rw [run_cast, run_cast, List.append_assoc]
    exact run_binary .div (hplace 0) (hplace 1)
  | _ => exact run_binary _ rfl rfl

theorem apply_unary (f : UnaryFn) : apply (fun _ => unary f) (t :: ts) = .ok (t.unary f) :=
  run_last trivial rfl

theorem apply_statistic (stat : Statistic) (how : Grouping) (dim : Option Nat) :
    apply (statistic stat how dim) (t :: ts) = stat.reduceTensor how t dim := by
  let d := stat.workType t.dtype
  have hplace : Tensor.nth ((t :: ts) ++ [t.cast d]) (t :: ts).length = t.cast d :=
    nth_append (t :: ts) [t.cast d] 0
  show (call (.cast 0 d) _).run (t :: ts) = _
  rw [run_cast, Statistic.reduceTensor, ← hplace]
  exact run_last trivial rfl

end

end Routine

end SpmdArray
