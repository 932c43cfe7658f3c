import SpmdArray.Proofs.Lockstep
import SpmdArray.Script.Groups

/-!
# Steps of a script on known handles

A step looks up the handles that it works on by their names.  Once they are found, it is a
call of one function of sharded tensors, whose outcome goes into the reply.

## Main definitions

* `Sharded.leave` — what a reduction leaves in the place of an output.

## Main results

* `GroupStep.program_unary`, `GroupStep.program_reduce` and their companions — the programs of
  the steps.
* `GroupStep.handleProgram_runs`, `Sharded.reduceInto_runs` — the replies of a whole group.
-/

namespace SpmdArray

/-- **A run whose results are put to use** without another exchange. -/
theorem Spmd.Runs.map {α β : Type} {n : Nat} {ps : Fin n → Spmd α}
    {rs : Fin n → List Event × α} (h : Runs ps rs) (f : Fin n → α → β) :
    Runs (fun r => do return f r (← ps r)) fun r => ((rs r).1, f r (rs r).2) := by
  have hb := h.bind (k := fun r a => .done (f r a)) (Runs.done fun r => f r (rs r).2)
  simp only [List.append_nil] at hb
  exact hb

namespace Sharded

/-- What a reduction leaves in the place of an output: the result, or the output as it was. -/
def leave (out : Sharded) (res : Except Failure Sharded) : InPlace Sharded Sharded :=
  match res with
  | .ok y => ⟨.ok y, y⟩
  | .error e => ⟨.error e, out⟩

theorem reduceInto_eq (how : Grouping) (stat : Statistic) (x : Sharded) (axis : Axis)
    (keepdim : Bool) (out : Sharded) :
    reduceInto how stat x axis keepdim out = (do
      return out.leave (← (reduceFor (stat.reduceTensor how) stat.reducer x axis keepdim
        (some out)).run)) := by
  unfold reduceInto reduceShardsInto
  refine bind_congr fun res => ?_
  cases res <;> rfl

/-- A reduction of a whole group, with an output. -/
theorem reduceInto_runs {n : Nat} {x out : Fin n → Sharded} {how : Fin n → Grouping}
    {stat : Statistic} {axis : Axis} {keepdim : Bool}
    {rs : Fin n → List Event × Except Failure Sharded}
    (h : Attempt.Runs (fun r => reduceFor (stat.reduceTensor (how r)) stat.reducer (x r) axis
      keepdim (some (out r))) rs) :
    Spmd.Runs (fun r => reduceInto (how r) stat (x r) axis keepdim (out r))
      fun r => ((rs r).1, (out r).leave (rs r).2) := by
  simp only [reduceInto_eq]
  exact Spmd.Runs.map h fun r => (out r).leave

end Sharded

namespace GroupStep

variable {b : Bindings Sharded} {x o : String} {v w : Sharded}

/-! ### The programs of the steps -/

theorem value_eq (h : b.get? x = some v) : value b x = .ok v := by
  rw [value, h]
  rfl

theorem program_unary (comm : Nat → Comm) (hx : b.get? x = some v) (f : UnaryFn) :
    (unary f x none).program b comm = .done (.ofHandle (v.unary f)) := by
  show mapProgram b x none _ _ = _
  rw [mapProgram, value_eq hx]
  rfl

theorem program_unaryInto (comm : Nat → Comm) (hx : b.get? x = some v) (ho : b.get? o = some w)
    (f : UnaryFn) :
    (unary f x (some o)).program b comm = .done (.ofOutput o (v.unaryInto f w)) := by
  show mapProgram b x (some o) _ _ = _
  rw [mapProgram, Option.map_some, value_eq hx, value_eq ho]
  rfl

theorem program_reduce (comm : Nat → Comm) (hx : b.get? x = some v) (how : Nat → Grouping)
    (stat : Statistic) (axis : Axis) (keepdim : Bool) :
    (reduce how stat x axis keepdim none).program b comm
      = handleProgram (Sharded.reduceFor (stat.reduceTensor (how (comm 0).rank)) stat.reducer v
          axis keepdim none) := by
  show reduceProgram b x none _ _ = _
  rw [reduceProgram, value_eq hx]
  rfl

theorem program_reduceInto (comm : Nat → Comm) (hx : b.get? x = some v) (ho : b.get? o = some w)
    (how : Nat → Grouping) (stat : Statistic) (axis : Axis) (keepdim : Bool) :
    (reduce how stat x axis keepdim (some o)).program b comm
      = (do return .ofOutput o (← v.reduceInto (how (comm 0).rank) stat axis keepdim w)) := by
  show reduceProgram b x (some o) _ _ = _
  rw [reduceProgram, Option.map_some, value_eq hx, value_eq ho]

theorem program_toGlobal (comm : Nat → Comm) (hx : b.get? x = some v) :
    (toGlobal x).program b comm
      = (do return { result := (← v.toGlobal.run).map .tensor } : Spmd Reply) := by
  show (do
    let p : Attempt Tensor := do (← (value b x : Except Failure Sharded)).toGlobal
    return { result := (← p.run).map .tensor } : Spmd Reply) = _
  rw [value_eq hx]
  rfl

/-! ### The replies of a group -/

variable {n : Nat}

theorem handleProgram_runs {ps : Fin n → Attempt Sharded}
    {rs : Fin n → List Event × Except Failure Sharded} (h : Attempt.Runs ps rs) :
    Spmd.Runs (fun r => handleProgram (ps r)) fun r => ((rs r).1, .ofHandle (rs r).2) :=
  Spmd.Runs.map h fun _ => Reply.ofHandle

end GroupStep

end SpmdArray
