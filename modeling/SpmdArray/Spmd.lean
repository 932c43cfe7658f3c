import SpmdArray.Buffer

/-!
# Programs of a group of ranks

Every rank of a group runs its own program.  The ranks meet in exchanges: in an exchange
each rank contributes a payload, and it goes on with the payloads of all ranks in rank
order once all of them have contributed.  Since an exchange involves the whole group,
the ranks can be run in step with each other.

## Main definitions

* `Event` — what a rank does that an observer can count.
* `Payload` — elements in transit.
* `Spmd α` — the program of one rank with a result of type `α`; it is a monad.
* `Attempt α` — a program that may fail.
* `Spmd.run` — a group of programs, run to completion in lockstep; there is no result
  if some rank waits for an exchange that another one does not enter.

## Main results

* `Spmd.bind_assoc` and the instance `LawfulMonad Spmd`.
* `Spmd.run_map_done` — programs without exchanges do not wait for each other.
-/

namespace SpmdArray

/-- What a rank does that an observer can count. -/
inductive Event where
  /-- A warning. -/
  | warning
  /-- A call that replaces a buffer by the one of the root. -/
  | broadcast (group : Nat) (dtype : DType) (length root : Nat)
  /-- A call that combines the buffers of all ranks. -/
  | allReduce (group : Nat) (dtype : DType) (length : Nat) (reducer : Reducer)
  deriving DecidableEq, Repr

/-- Elements in transit: their type and their byte string. -/
structure Payload where
  /-- The element type. -/
  dtype : DType
  /-- The byte string. -/
  bytes : List UInt8
  deriving DecidableEq

/-- The program of one rank. -/
inductive Spmd (α : Type) where
  /-- The program is through. -/
  | done (a : α)
  /-- Something worth counting happens. -/
  | log (e : Event) (next : Spmd α)
  /-- The rank contributes `p` to an exchange of a group, and goes on with the payloads of
  all ranks. -/
  | exchange (group : Nat) (p : Payload) (next : List Payload → Spmd α)

namespace Spmd

variable {α β γ : Type}

/-- Run a program and go on with its result. -/
def bind : Spmd α → (α → Spmd β) → Spmd β
  | done a, f => f a
  | log e next, f => log e (bind next f)
  | exchange g p next, f => exchange g p fun ps => bind (next ps) f

instance : Monad Spmd where
  pure := done
  bind := bind

theorem bind_done (p : Spmd α) : p.bind done = p := by
  induction p with
  | done a => rfl
  | log e next ih => rw [bind, ih]
  | exchange g p next ih => rw [bind]; congr 1; funext ps; exact ih ps

theorem bind_assoc (p : Spmd α) (f : α → Spmd β) (g : β → Spmd γ) :
    (p.bind f).bind g = p.bind fun a => (f a).bind g := by
  induction p with
  | done a => rfl
  | log e next ih => simp only [bind, ih]
  | exchange _ _ next ih => simp only [bind, ih]

instance : LawfulMonad Spmd :=
  LawfulMonad.mk' Spmd bind_done (fun _ _ => rfl) bind_assoc

/-- Note an event. -/
def note (e : Event) : Spmd Unit := log e (done ())

/-- Contribute to an exchange and receive all payloads. -/
def gatherAll (group : Nat) (p : Payload) : Spmd (List Payload) := exchange group p done

/-! ### Running a group -/

/-- Where a rank stands when it can do nothing more on its own. -/
inductive Pause (α : Type) where
  /-- Its program is through. -/
  | done (a : α)
  /-- It waits in an exchange. -/
  | waiting (group : Nat) (p : Payload) (next : List Payload → Spmd α)

/-- Run a program up to its end or its next exchange. -/
def settle : Spmd α → List Event × Pause α
  | done a => ([], .done a)
  | log e next => let (es, r) := settle next; (e :: es, r)
  | exchange g p next => ([], .waiting g p next)

/-- The result of a program that needs no exchange, after the events `t`. -/
def finished? (t : List Event) (p : Spmd α) : Option (List Event × α) :=
  match p.settle with
  | (es, .done a) => some (t ++ es, a)
  | (_, .waiting _ _ _) => none

/-- The payload and the rest of a program that goes on with an exchange of the group `g`,
after the events `t`. -/
def waiting? (g : Nat) (t : List Event) (p : Spmd α) :
    Option (List Event × Payload × (List Payload → Spmd α)) :=
  match p.settle with
  | (es, .waiting g' p next) => if g' = g then some (t ++ es, p, next) else none
  | (_, .done _) => none

/-- Run the first rank, which has noted the events `t`, in step with the others, which
have noted their own events. -/
def lockstep : List Event → Spmd α → List (List Event × Spmd α) →
    Option (List (List Event × α))
  | t, done a, others => do
    let rest ← others.mapM fun (u, q) => finished? u q
    return (t, a) :: rest
  | t, log e next, others => lockstep (t ++ [e]) next others
  | t, exchange g p next, others => do
    let met ← others.mapM fun (u, q) => waiting? g u q
    let payloads := p :: met.map fun (_, q, _) => q
    lockstep t (next payloads) (met.map fun (u, _, k) => (u, k payloads))

/-- Run the programs of all ranks; the result of each rank comes with its events.  There
is no result if the ranks block each other. -/
def run : List (Spmd α) → Option (List (List Event × α))
  | [] => some []
  | p :: ps => lockstep [] p (ps.map fun q => ([], q))

theorem mapM_finished?_done (as : List α) :
    ((as.map done).map fun p => (([] : List Event), p)).mapM (fun (t, p) => finished? t p)
      = some (as.map fun a => ([], a)) := by
  induction as with
  | nil => rfl
  | cons a as ih =>
    simp only [List.map_cons, List.mapM_cons, ih]
    rfl

theorem run_map_done (as : List α) : run (as.map done) = some (as.map fun a => ([], a)) := by
  cases as with
  | nil => rfl
  | cons a as =>
    rw [List.map_cons, run, lockstep, mapM_finished?_done]
    rfl

end Spmd

/-- A program of one rank that may fail. -/
abbrev Attempt (α : Type) := ExceptT Failure Spmd α

/-- Lift computations that can only fault. -/
instance : MonadLift (Except Fault) (ExceptT Failure Spmd) :=
  ⟨fun x => ExceptT.mk (pure (x.mapError .fault))⟩

end SpmdArray
