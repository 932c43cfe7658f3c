import SpmdArray.Buffer

/-!
# Scripts on one buffer

A script is a list of operations on one buffer, whose answers are collected.  A fault
ends the script.

## Main definitions

* `BufferStep` — operations; `BufferAnswer` — answers.
* `BufferStep.run` — one operation.
* `Buffer.runScript` — a whole script.
-/

namespace SpmdArray

/-- An operation on a buffer. -/
inductive BufferStep where
  /-- Show the buffer. -/
  | view
  /-- Start over with zeros. -/
  | zeros (d : DType) (n : Nat)
  /-- Convert the elements. -/
  | cast (d : DType)
  /-- Keep the elements at the given positions. -/
  | gather (offsets : List Nat)
  /-- Overwrite the elements at the given positions. -/
  | scatter (offsets : List Nat) (src : Buffer)
  /-- Fold another buffer into this one. -/
  | combine (other : Buffer) (r : Reducer)
  /-- Start over with the elements of a byte string. -/
  | ofBytes (d : DType) (bytes : List UInt8)
  /-- The byte string of the buffer. -/
  | toBytes
  /-- The converted elements. -/
  | values (d : DType)
  /-- Length and element type. -/
  | length
  /-- Whether another buffer holds the same values. -/
  | same (other : Buffer)

/-- The answer to an operation on a buffer. -/
inductive BufferAnswer where
  /-- A buffer. -/
  | buffer (b : Buffer)
  /-- A byte string. -/
  | bytes (bs : List UInt8)
  /-- Length and element type. -/
  | length (n : Nat) (d : DType)
  /-- A truth value. -/
  | flag (b : Bool)
  /-- An error, and the buffer that it left. -/
  | failed (e : Error) (left : Buffer)
  /-- A fault, with which the script ends. -/
  | lost (f : Fault)

namespace BufferAnswer

/-- The answer of an operation that left the buffer `b`. -/
def ofResult (b : Buffer) : Except Failure Unit → BufferAnswer
  | .ok _ => buffer b
  | .error (.error e) => failed e b
  | .error (.fault f) => lost f

/-- Whether the script ends with this answer. -/
def isLast : BufferAnswer → Bool
  | lost _ => true
  | _ => false

end BufferAnswer

namespace BufferStep

/-- The buffer after an operation in place, and the answer. -/
def settleInPlace (w : InPlace Buffer Unit) : Buffer × BufferAnswer :=
  (w.dest, .ofResult w.dest w.result)

/-- The buffer after an operation that gives a new one, and the answer. -/
def settle (b : Buffer) : Except Failure Buffer → Buffer × BufferAnswer
  | .ok c => settleInPlace ⟨pure (), c⟩
  | .error e => settleInPlace ⟨.error e, b⟩

/-- Run an operation: the buffer after it, and the answer. -/
def run (b : Buffer) : BufferStep → Buffer × BufferAnswer
  | view => (b, .buffer b)
  | zeros d n => settle b (.ok (.zeros d n))
  | cast d => settle b (.ok (b.cast d))
  | gather offsets => settle b ((b.gather offsets).mapError .fault)
  | scatter offsets src => settleInPlace (b.scatter offsets src)
  | combine other r => settleInPlace (b.combine other r)
  | ofBytes d bytes => settle b ((Buffer.ofBytes d bytes).mapError .error)
  | toBytes => (b, .bytes b.toBytes)
  | values d => (b, .buffer (b.cast d))
  | length => (b, .length b.length b.dtype)
  | same other => (b, .flag (b.sameValues other))

end BufferStep

/-- Run a script on a buffer. -/
def Buffer.runScript (b : Buffer) : List BufferStep → List BufferAnswer
  | [] => []
  | step :: steps =>
    let (c, answer) := step.run b
    if answer.isLast then [answer] else answer :: c.runScript steps

end SpmdArray
