import SpmdArray.Script.Bindings
import SpmdArray.Script.Kernel
import SpmdArray.Sharded.Binary
import SpmdArray.Sharded.Reduce
import SpmdArray.Sharded.Unary

/-!
# Scripts of a group of ranks

A script is a list of steps, each of which all ranks of a group run to completion before
the next one starts.  Every rank has its own values for the names of the script, and
access to the group through several communicators that work independently.  The script
ends with the first step in which a rank runs into a fault or the ranks block each other.

## Main definitions

* `GroupStep` — steps; `GroupStep.program` is the program of one rank for a step.
* `Reply` — what a step leaves on one rank.
* `Group` — a group between two steps; `Group.step` runs a step on all ranks.
* `Group.runScript` — a whole script.
-/

namespace SpmdArray

/-- An operand of a step: a name or a value, which may have been refused. -/
inductive OperandRef where
  /-- The sharded tensor with a name. -/
  | name (x : String)
  /-- A scalar. -/
  | scalar (s : Except Error Scalar)

/-- A step of a group.  Lists of shards have one member for each rank; communicators are
given by their group. -/
inductive GroupStep where
  /-- The handle on a tensor that all ranks hold. -/
  | ofGlobal (t : Except Failure Tensor) (split : Option Nat) (group : Nat)
  /-- The handle with the given parts. -/
  | create (shards : List (Except Failure Tensor)) (gshape : Shape) (dtype : DType)
      (split : Option Nat) (device : Device) (group : Nat)
  /-- The handle itself. -/
  | copy (x : String)
  /-- The diagnostic text of a handle. -/
  | render (x : String)
  /-- Facts about a handle. -/
  | info (x : String)
  /-- The balanced chunk of an extent. -/
  | chunk (extent group : Nat)
  /-- Facts about an operand. -/
  | operand (a : OperandRef)
  /-- Overwrite the shard of a handle. -/
  | assign (x : String) (shards : List (Except Failure Tensor))
  /-- The global tensor. -/
  | toGlobal (x : String)
  /-- Combine buffers. -/
  | allReduce (shards : List Buffer) (r : Reducer) (group : Nat)
  /-- Replace buffers by the root's. -/
  | broadcast (shards : List Buffer) (root group : Nat)
  /-- A named function of two operands. -/
  | binary (f : BinaryFn) (a b : OperandRef) (world : Nat)
  /-- A function of two operands by a kernel. -/
  | zipShards (k : Kernel) (a b : OperandRef) (world : Nat)
  /-- A named function of one sharded tensor. -/
  | unary (f : UnaryFn) (x : String) (out : Option String)
  /-- A function of one sharded tensor by a kernel. -/
  | mapShard (k : Kernel) (x : String) (out : Option String)
  /-- A named reduction; `how` says how each rank shares out many elements among its
  threads. -/
  | reduce (how : Nat → Grouping) (s : Statistic) (x : String) (axis : Axis) (keepdim : Bool)
      (out : Option String)
  /-- A reduction by a kernel. -/
  | reduceShards (k : Kernel) (combine : Reducer) (x : String) (axis : Axis)
      (keepdim : Bool) (out : Option String)

/-- The answer of one rank to a step that succeeded. -/
inductive RankAnswer where
  /-- A handle. -/
  | handle (x : Sharded)
  /-- A tensor. -/
  | tensor (t : Tensor)
  /-- A buffer. -/
  | buffer (b : Buffer)
  /-- A text. -/
  | text (s : String)
  /-- Facts about a handle. -/
  | info (x : Sharded)
  /-- A chunk. -/
  | chunk (c : Chunk)
  /-- Facts about an operand. -/
  | operand (a : Operand)

/-- What a step leaves on one rank. -/
structure Reply where
  /-- The answer. -/
  result : Except Failure RankAnswer
  /-- What a failed operation in place left of its destination. -/
  left : Option RankAnswer := none
  /-- The output after the step, with its name. -/
  out : Option (String × Sharded) := none

namespace Reply

/-- The reply of an operation that gives a handle. -/
def ofHandle (r : Except Failure Sharded) : Reply := { result := r.map .handle }

/-- The reply of an operation that works on the output called `name`. -/
def ofOutput (name : String) (w : InPlace Sharded Sharded) : Reply :=
  { result := w.result.map .handle, out := some (name, w.dest) }

/-- The reply of an operation in place on a buffer. -/
def ofBuffer (w : InPlace Buffer Unit) : Reply :=
  { result := w.result.map fun _ => .buffer w.dest, left := some (.buffer w.dest) }

/-- The fault that the rank ran into. -/
def fault? (r : Reply) : Option Fault :=
  match r.result with
  | .error (.fault f) => some f
  | _ => none

end Reply

namespace GroupStep

/-- The name that an operand refers to. -/
def refNames : OperandRef → List String
  | .name x => [x]
  | .scalar _ => []

/-- The names that have to have values. -/
def names : GroupStep → List String
  | ofGlobal _ _ _ | create _ _ _ _ _ _ | chunk _ _ | allReduce _ _ _ | broadcast _ _ _ => []
  | copy x | render x | info x | assign x _ | toGlobal x => [x]
  | operand a => refNames a
  | binary _ a b _ | zipShards _ a b _ => refNames a ++ refNames b
  | unary _ x out | mapShard _ x out | reduce _ _ x _ _ out | reduceShards _ _ x _ _ out =>
    x :: out.toList

/-- The value of a name.  Steps are only run when their names have values. -/
def value (b : Bindings Sharded) (x : String) : Except Failure Sharded :=
  match b.get? x with
  | some v => return v
  | none => throw (.fault .outOfRange)

/-- The value of an operand. -/
def operandValue (b : Bindings Sharded) : OperandRef → Except Failure Operand
  | .name x => .tensor <$> value b x
  | .scalar s => .scalar <$> s.mapError .error

/-- The member of a list for this rank. -/
def own {α : Type} (rank : Nat) (xs : List α) : Except Failure α :=
  match xs[rank]? with
  | some x => return x
  | none => throw (.fault .outOfRange)

/-- The program of one rank for a step that gives a handle. -/
def handleProgram (p : Attempt Sharded) : Spmd Reply := do
  return .ofHandle (← p.run)

/-- The program of one rank that takes no part in any exchange. -/
def localProgram (r : Except Failure RankAnswer) : Spmd Reply := return { result := r }

/-- The program of one rank for a step on the shard of a handle, with or without an
output. -/
def mapProgram (b : Bindings Sharded) (x : String) (out : Option String)
    (fresh : Sharded → Except Failure Sharded)
    (into : Sharded → Sharded → InPlace Sharded Sharded) : Spmd Reply :=
  match value b x, out.map fun o => (o, value b o) with
  | .ok v, none => return .ofHandle (fresh v)
  | .ok v, some (o, .ok w) => return .ofOutput o (into v w)
  | .error e, _ | _, some (_, .error e) => return { result := .error e }

/-- The program of one rank for a reduction, with or without an output. -/
def reduceProgram (b : Bindings Sharded) (x : String) (out : Option String)
    (fresh : Sharded → Attempt Sharded)
    (into : Sharded → Sharded → Spmd (InPlace Sharded Sharded)) : Spmd Reply :=
  match value b x, out.map fun o => (o, value b o) with
  | .ok v, none => handleProgram (fresh v)
  | .ok v, some (o, .ok w) => do return .ofOutput o (← into v w)
  | .error e, _ | _, some (_, .error e) => return { result := .error e }

/-- The program of one rank for an operation in place on a buffer of its own. -/
def bufferProgram (rank : Nat) (shards : List Buffer)
    (call : Buffer → Spmd (InPlace Buffer Unit)) : Spmd Reply :=
  match own rank shards with
  | .ok d => do return .ofBuffer (← call d)
  | .error e => return { result := .error e }

/-- The program of one rank for a step.  `comm` gives the communicators by their
groups. -/
def program (b : Bindings Sharded) (comm : Nat → Comm) (step : GroupStep) : Spmd Reply :=
  let rank := (comm 0).rank
  match step with
  | ofGlobal t split g => return .ofHandle (do Sharded.ofGlobal (← t) split (comm g))
  | create shards gshape d split device g =>
    return .ofHandle (do
      Sharded.create (← (← own rank shards)) gshape d split device (comm g))
  | copy x => return .ofHandle (value b x)
  | render x => localProgram (do return .text (← value b x).render)
  | info x => localProgram (do return .info (← value b x))
  | chunk extent g => localProgram (.ok (.chunk ((comm g).chunk extent)))
  | operand a => localProgram (do return .operand (← operandValue b a))
  | assign x shards =>
    match value b x with
    | .error e => return { result := .error e }
    | .ok v =>
      match (do (← own rank shards) : Except Failure Tensor) with
      | .error e => return { result := .error e, left := some (.handle v) }
      | .ok t =>
        let w := v.assign t
        return { result := w.result.map fun _ => .handle w.dest
                 left := some (.handle w.dest)
                 out := some (x, w.dest) }
  | toGlobal x => do
    let p : Attempt Tensor := do (← (value b x : Except Failure Sharded)).toGlobal
    return { result := (← p.run).map .tensor }
  | allReduce shards r g => bufferProgram rank shards ((comm g).allReduce r)
  | broadcast shards root g => bufferProgram rank shards ((comm g).broadcast root)
  | binary f x y g => handleProgram do
    let u ← (operandValue b x : Except Failure Operand)
    let v ← (operandValue b y : Except Failure Operand)
    Sharded.binary f u v (comm g)
  | zipShards k x y g => handleProgram do
    let u ← (operandValue b x : Except Failure Operand)
    let v ← (operandValue b y : Except Failure Operand)
    Sharded.zipShards k.binary u v (comm g)
  | unary f x out => mapProgram b x out (·.unary f) (·.unaryInto f)
  | mapShard k x out => mapProgram b x out (·.mapShard k.unary) (·.mapShardInto k.unary)
  | reduce how s x axis keepdim out =>
    reduceProgram b x out (·.reduce (how rank) s axis keepdim)
      (·.reduceInto (how rank) s axis keepdim)
  | reduceShards k combine x axis keepdim out =>
    reduceProgram b x out (·.reduceShards k.partialReduce combine axis keepdim)
      (·.reduceShardsInto k.partialReduce combine axis keepdim)

end GroupStep

/-- A group between two steps. -/
structure Group where
  /-- The communicators of each rank, by their groups. -/
  comms : List (Nat → Comm)
  /-- The names of each rank. -/
  names : List (Bindings Sharded)

/-- What a step answers. -/
inductive GroupAnswer where
  /-- Some rank has no value for a name of the step. -/
  | skipped
  /-- The ranks block each other. -/
  | stuck
  /-- The events and the reply of each rank. -/
  | ranks (rs : List (List Event × Reply))

/-- Whether the script ends with this answer. -/
def GroupAnswer.isLast : GroupAnswer → Bool
  | skipped => false
  | stuck => true
  | ranks rs => rs.any fun r => r.2.fault?.isSome

namespace Group

/-- A group of one rank that needs no exchange. -/
def solo : Group := ⟨[Comm.solo], [[]]⟩

/-- A group of `size` ranks. -/
def ofSize (size : Nat) : Except Error Group :=
  if size = 0 then throw .emptyGroup
  else
    return ⟨(List.range size).map fun r g => Comm.member g r size, List.replicate size []⟩

/-- The names of a rank after a reply to a step whose result is called `name`. -/
def update (name : Option String) (b : Bindings Sharded) (r : Reply) : Bindings Sharded :=
  let b := match r.out with
    | some (o, x) => b.put o x
    | none => b
  match name, r.result with
  | some n, .ok (.handle x) => b.put n x
  | some n, .error _ => b.erase n
  | _, _ => b

/-- The programs of all ranks for a step. -/
def programs (g : Group) (s : GroupStep) : List (Spmd Reply) :=
  List.zipWith (fun b comm => s.program b comm) g.names g.comms

/-- Run a step, whose result may have a name, on all ranks. -/
def step (g : Group) (s : GroupStep) (name : Option String) : Group × GroupAnswer :=
  if g.names.any fun b => s.names.any fun x => (b.get? x).isNone then (g, .skipped)
  else
    match Spmd.run (g.programs s) with
    | none => (g, .stuck)
    | some rs =>
      (⟨g.comms, List.zipWith (fun b r => update name b r.2) g.names rs⟩, .ranks rs)

/-- Run a script. -/
def runScript (g : Group) : List (GroupStep × Option String) → List GroupAnswer
  | [] => []
  | (s, name) :: steps =>
    let (h, answer) := g.step s name
    if answer.isLast then [answer] else answer :: h.runScript steps

end Group

end SpmdArray
