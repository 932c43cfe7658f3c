import SpmdArray.Chunk
import SpmdArray.Spmd

/-!
# Collectives

A communicator is a rank's access to its group.  Its collectives work on a buffer of the
rank and have to be called by all ranks in the same order.

## Main definitions

* `Comm` — communicators.
* `Comm.broadcast` — replace the buffer of every rank by the one of the root.
* `Comm.allReduce` — combine the buffers of all ranks, in rank order, on every rank.
-/

namespace SpmdArray

namespace Payload

/-- The payload of a buffer. -/
def ofBuffer (b : Buffer) : Payload := ⟨b.dtype, b.toBytes⟩

/-- The buffer that a rank sent, if its elements are of the expected type. -/
def decode (rank : Nat) (expected : DType) (p : Payload) : Except Failure Buffer :=
  if p.dtype ≠ expected then Error.raise (.unexpectedDType rank p.dtype expected)
  else (Buffer.ofBytes p.dtype p.bytes).mapError .error

end Payload

/-- A rank's access to its group.  Groups are told apart by a number. -/
inductive Comm where
  /-- The only rank of a group that needs no exchange. -/
  | solo (group : Nat)
  /-- A rank in a group of `size` ranks. -/
  | member (group rank size : Nat)
  deriving DecidableEq, Repr

namespace Comm

/-- The number of the group. -/
def group : Comm → Nat
  | solo g => g
  | member g _ _ => g

/-- The position of this rank. -/
def rank : Comm → Nat
  | solo _ => 0
  | member _ r _ => r

/-- The number of ranks. -/
def size : Comm → Nat
  | solo _ => 1
  | member _ _ n => n

/-- Whether there are other ranks. -/
def isDistributed (c : Comm) : Bool := 1 < c.size

/-- This rank's part of an axis. -/
def chunk (c : Comm) (extent : Nat) : Chunk := .balanced extent c.rank c.size

/-- The diagnostic text of a communicator. -/
def render : Comm → String
  | solo _ => "SelfComm"
  | member _ r n => "ThreadComm \x7b rank: " ++ toString r ++ ", size: " ++ toString n ++ " \x7d"

/-! ### Broadcast -/

/-- The buffer of a rank after it received the payload of the root. -/
def received (root : Nat) (b : Buffer) (p : Payload) : InPlace Buffer Unit :=
  match p.decode root b.dtype with
  | .error e => ⟨.error e, b⟩
  | .ok d =>
    if d.length ≠ b.length then ⟨Error.raise (.broadcastLength root d.length b.length), b⟩
    else ⟨pure (), d⟩

/-- Replace the buffer by the one of the root.  Only the root's elements travel. -/
def broadcast (c : Comm) (root : Nat) (b : Buffer) : Spmd (InPlace Buffer Unit) := do
  Spmd.note (.broadcast c.group b.dtype b.length root)
  if c.size ≤ root then return ⟨Error.raise (.noSuchRoot root c.size), b⟩
  match c with
  | solo _ => return ⟨pure (), b⟩
  | member g r _ =>
    let ps ← Spmd.gatherAll g (if r = root then .ofBuffer b else ⟨b.dtype, []⟩)
    if r = root then return ⟨pure (), b⟩
    match ps[root]? with
    | some p => return received root b p
    | none => return ⟨throw (.fault .outOfRange), b⟩

/-! ### All-reduce -/

/-- Fold the payloads of the ranks from `rank` on into `acc`. -/
def foldPayloads (r : Reducer) : Nat → Buffer → List Payload → Except Failure Buffer
  | _, acc, [] => return acc
  | rank, acc, p :: ps => do
    let part ← p.decode rank acc.dtype
    if part.length ≠ acc.length then
      Error.raise (.contributionLength rank part.length acc.length)
    let w := acc.combine part r
    w.result
    foldPayloads r (rank + 1) w.dest ps

/-- The payloads of all ranks combined in rank order, for a rank that contributed `b`. -/
def combineAll (r : Reducer) (b : Buffer) (ps : List Payload) : Except Failure Buffer := do
  if !Buffer.supports r b.dtype then Error.raise (.unsupportedDType b.dtype r)
  match ps with
  | [] => throw (.fault .outOfRange)
  | p :: ps =>
    let first ← p.decode 0 b.dtype
    let acc ← foldPayloads r 1 first ps
    if acc.length ≠ b.length then Error.raise (.combinedLength acc.length b.length)
    return acc

/-- Combine the buffers of all ranks in rank order, and replace the buffer by the
result. -/
def allReduce (c : Comm) (r : Reducer) (b : Buffer) : Spmd (InPlace Buffer Unit) := do
  Spmd.note (.allReduce c.group b.dtype b.length r)
  match c with
  | solo _ =>
    if Buffer.supports r b.dtype then return ⟨pure (), b⟩
    else return ⟨Error.raise (.unsupportedDType b.dtype r), b⟩
  | member g _ _ =>
    let ps ← Spmd.gatherAll g (.ofBuffer b)
    match combineAll r b ps with
    | .ok acc => return ⟨pure (), acc⟩
    | .error e => return ⟨.error e, b⟩

/-- The buffer that a collective leaves if it succeeds. -/
def leftBy (call : Spmd (InPlace Buffer Unit)) : Attempt Buffer := do
  let w ← ExceptT.lift call
  ExceptT.mk (pure w.result)
  return w.dest

end Comm

end SpmdArray
