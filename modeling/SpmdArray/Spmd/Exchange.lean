import SpmdArray.Spmd

/-!
# Exchanges through shared memory

The ranks of a group are threads of one process, which run at their own pace.  They meet in an
area with a slot for each rank: in an exchange, a rank writes its payload to its own slot, waits
at a barrier until all ranks have done so, copies all slots, and waits again, so that no rank
writes to the area for the next exchange while another one has still to copy it.  The slots are
never cleared.

A rank takes one step at a time, and a schedule says whose turn it is.

## Main definitions

* `Exchange.Barrier` — a barrier that lets the ranks through when all of them have arrived.
* `Exchange.Place`, `Exchange.Rank` — where a rank is, and what it has got so far.
* `Exchange.State` — the area and the ranks.
* `Exchange.step`, `Exchange.follow` — one step of a rank, and the steps of a schedule.
-/

namespace SpmdArray

namespace Exchange

/-! ### The barrier -/

/-- A barrier counts the arrivals since it opened last. -/
structure Barrier where
  /-- How many ranks have arrived. -/
  arrivals : Nat
  /-- How often the barrier has opened. -/
  generation : Nat
  deriving DecidableEq, Repr

/-- A rank of a group of `n` arrives; the last one opens the barrier. -/
def Barrier.arrive (n : Nat) (b : Barrier) : Barrier :=
  if b.arrivals + 1 < n then { b with arrivals := b.arrivals + 1 }
  else ⟨0, b.generation + 1⟩

/-! ### The ranks -/

/-- Where a rank is. -/
inductive Place where
  /-- Between two exchanges. -/
  | outside
  /-- It has written its slot. -/
  | published
  /-- It waits for the slots of the others, since the barrier has opened `generation` times. -/
  | entering (generation : Nat)
  /-- It has been let through. -/
  | reading
  /-- It has copied the slots; there is no copy if one of them was empty. -/
  | copied (all : Option (List Payload))
  /-- It waits until the others have copied the slots, too. -/
  | leaving (generation : Nat) (all : Option (List Payload))
  deriving DecidableEq

/-- A rank and its exchanges. -/
structure Rank where
  /-- Where it is. -/
  place : Place
  /-- The payloads that it has yet to write. -/
  todo : List Payload
  /-- The outcomes of its exchanges so far. -/
  outcomes : List (Except Failure (List Payload))

/-- What an exchange returns for a copy of the slots. -/
def outcome : Option (List Payload) → Except Failure (List Payload)
  | some ps => .ok ps
  | none => Error.raise .noContribution

/-! ### The group -/

/-- A group of `n` ranks and the area in which they meet. -/
structure State (n : Nat) where
  /-- The slots, which are empty at first. -/
  slots : Fin n → Option Payload
  /-- The barrier. -/
  barrier : Barrier
  /-- The ranks. -/
  ranks : Fin n → Rank

variable {n : Nat}

/-- The ranks before their first exchange; rank `r` is going to exchange the payloads
`seq r`. -/
def start (seq : Fin n → List Payload) : State n :=
  ⟨fun _ => none, ⟨0, 0⟩, fun r => ⟨.outside, seq r, []⟩⟩

namespace State

/-- The contents of all slots in rank order, unless one of them is empty. -/
def copy (s : State n) : Option (List Payload) := (List.ofFn s.slots).mapM id

/-- Replace a rank. -/
def put (s : State n) (r : Fin n) (x : Rank) : State n :=
  { s with ranks := fun q => if q = r then x else s.ranks q }

/-- Replace a rank that arrives at the barrier. -/
def arrive (s : State n) (r : Fin n) (x : Rank) : State n :=
  { s.put r x with barrier := s.barrier.arrive n }

/-- Replace a rank that writes its slot. -/
def write (s : State n) (r : Fin n) (p : Payload) (x : Rank) : State n :=
  { s.put r x with slots := fun q => if q = r then some p else s.slots q }

end State

/-- The next step of rank `r`.  There is none if it waits at the barrier, or has nothing left to
exchange. -/
def step (s : State n) (r : Fin n) : Option (State n) :=
  let x := s.ranks r
  match x.place with
  | .outside =>
    match x.todo with
    | [] => none
    | p :: ps => some (s.write r p { x with place := .published, todo := ps })
  | .published => some (s.arrive r { x with place := .entering s.barrier.generation })
  | .entering g =>
    if s.barrier.generation = g then none else some (s.put r { x with place := .reading })
  | .reading => some (s.put r { x with place := .copied s.copy })
  | .copied all => some (s.arrive r { x with place := .leaving s.barrier.generation all })
  | .leaving g all =>
    if s.barrier.generation = g then none
    else some (s.put r { x with place := .outside, outcomes := x.outcomes ++ [outcome all] })

/-- Let the ranks take steps in the order of a schedule, if each of them can. -/
def follow (s : State n) : List (Fin n) → Option (State n)
  | [] => some s
  | r :: rs => (step s r).bind fun s' => follow s' rs

end Exchange

end SpmdArray
