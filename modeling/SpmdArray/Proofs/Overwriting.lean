import SpmdArray.Proofs.Tiling
import SpmdArray.Proofs.Windows

/-!
# Writing over a shard

A function of one tensor with an output writes over the shard of the output.  The rank checks that
the output can hold the float type in which the function is evaluated, and that the two shards
broadcast to the shape of the output.  It reports whichever check fails first, and then the output
is as before; the function is not applied before both of the types and the shapes have been
compared with each other.

## Main definitions

* `Sharded.Stored` — what is known of the shard of every handle.
* `Sharded.written` — what is left of an output to which a shard is repeated.

## Main results

* `Sharded.mapShardInto_of_narrow`, `Sharded.mapShardInto_of_eq_none` — the checks in their order.
* `Sharded.mapShardInto_eq_or`, `Sharded.mapShardInto_of_volume_lt` — what is written.
* `Sharded.mapShardInto_fails` — when a rank leaves the output alone.
* `Sharded.mapShardInto_outcome` — when a rank writes, what it writes, and what it reports
  otherwise.
-/

namespace SpmdArray

namespace Sharded

/-- What is known of the shard of every handle: its elements are counted, and have the element type
of the handle. -/
structure Stored (x : Sharded) : Prop where
  /-- The elements of the shard are counted. -/
  shard : x.shard.Stored
  /-- The shard has the element type of the handle. -/
  dtype : x.shard.dtype = x.dtype

variable {x out : Sharded} {s : Shape} {t w : Tensor} {g : Tensor → Except Failure Tensor}
  {f : Tensor → Tensor} {e : Failure}

/-! ### What becomes of the output -/

theorem mapShardInto_of_error (h : x.shardFor g out = .error e) :
    x.mapShardInto g out = ⟨.error e, out⟩ := by
  unfold mapShardInto
  rw [h]

theorem mapShardInto_of_ok (h : x.shardFor g out = .ok t) (ht : t.shape = out.shard.shape) :
    x.mapShardInto g out =
      let y := { out with shard := t.cast out.shard.dtype }
      ⟨.ok y, y⟩ := by
  unfold mapShardInto
  rw [h]
  simp only [assign, Tensor.assign_of_shape_eq ht.symm, ← ht]
  rfl

/-! ### The checks, one after the other -/

/-- The function is not applied if the output is too narrow. -/
theorem mapShardInto_of_narrow (g : Tensor → Except Failure Tensor)
    (hd : DType.promote x.dtype.toFloat out.dtype ≠ out.dtype) :
    x.mapShardInto g out
      = ⟨.error (.error (.outputTooNarrow x.dtype.toFloat out.dtype)), out⟩ := by
  apply mapShardInto_of_error
  unfold shardFor
  rw [if_pos hd]
  rfl

section Wide

variable (hd : DType.promote x.dtype.toFloat out.dtype = out.dtype)

include hd

/-- Nor is it applied if the shards do not broadcast. -/
theorem mapShardInto_of_eq_none (g : Tensor → Except Failure Tensor)
    (hb : x.shard.shape.broadcast out.shard.shape = none) :
    x.mapShardInto g out
      = ⟨.error (.error (.cannotBroadcast x.shard.shape out.shard.shape)), out⟩ := by
  apply mapShardInto_of_error
  unfold shardFor
  rw [if_neg (not_not.mpr hd), Tensor.commonShape_of_eq_none hb]
  rfl

/-- **Repeating the shard is broadcasting it**, and a function that keeps shapes does not change
the shape that is compared with the one of the output. -/
theorem shardFor_of_tileTo (hf : ∀ t, (f t).shape = t.shape)
    (hb : x.shard.shape.broadcast out.shard.shape = some s)
    (hw : (x.shard.cast x.dtype.toFloat).tileTo s
      = .ok ((x.shard.cast x.dtype.toFloat).stretch s)) :
    x.shardFor (fun t => .ok (f t)) out
      = if s = out.shard.shape then .ok (f ((x.shard.cast x.dtype.toFloat).stretch s))
        else .error (.error (.shapeMismatch out.shard.shape s)) := by
  have hshape : (f ((x.shard.cast x.dtype.toFloat).stretch s)).shape = s := hf _
  unfold shardFor
  simp only [if_neg (not_not.mpr hd), Tensor.commonShape_of_eq_some hb, hw, ok_bind, hshape]
  by_cases hs : s = out.shard.shape
  · simp only [hs, ne_eq, not_true_eq_false, if_false, if_true]
    rfl
  · simp only [ne_eq, hs, not_false_eq_true, if_true, if_false, raise_eq_error, error_bind]

/-- A shard that overflows when it is repeated. -/
theorem mapShardInto_of_fault {g : Tensor → Except Failure Tensor}
    (hb : x.shard.shape.broadcast out.shard.shape = some s)
    (hw : (x.shard.cast x.dtype.toFloat).tileTo s = .error e) :
    x.mapShardInto g out = ⟨.error e, out⟩ := by
  apply mapShardInto_of_error
  unfold shardFor
  simp only [if_neg (not_not.mpr hd), Tensor.commonShape_of_eq_some hb, hw, ok_bind, error_bind]

end Wide

/-- What is left of an output to which a shard of shape `s` is repeated: the function of the shard
is written over the one of the output, unless that has another shape. -/
def written (f : Tensor → Tensor) (x out : Sharded) (s : Shape) : InPlace Sharded Sharded :=
  if s = out.shard.shape then
    let w := (x.shard.cast x.dtype.toFloat).stretch s
    let y := { out with shard := (f w).cast out.dtype }
    ⟨.ok y, y⟩
  else ⟨.error (.error (.shapeMismatch out.shard.shape s)), out⟩

/-- **What is written over the shard of the output.** -/
theorem mapShardInto_of_tileTo (hf : ∀ t, (f t).shape = t.shape)
    (hd : DType.promote x.dtype.toFloat out.dtype = out.dtype)
    (hdtype : out.shard.dtype = out.dtype)
    (hb : x.shard.shape.broadcast out.shard.shape = some s)
    (hw : (x.shard.cast x.dtype.toFloat).tileTo s
      = .ok ((x.shard.cast x.dtype.toFloat).stretch s)) :
    x.mapShardInto (fun t => .ok (f t)) out = written f x out s := by
  have hshard := shardFor_of_tileTo hd hf hb hw
  unfold written
  split
  · next hs =>
    rw [if_pos hs] at hshard
    rw [mapShardInto_of_ok hshard ((hf _).trans hs), hdtype]
  · next hs =>
    rw [if_neg hs] at hshard
    exact mapShardInto_of_error hshard

section

variable (hx : x.Stored) (hout : out.Stored)

include hx hout

/-- **A rank writes what it should**, or something overflows. -/
theorem mapShardInto_eq_or (hf : ∀ t, (f t).shape = t.shape)
    (hd : DType.promote x.dtype.toFloat out.dtype = out.dtype)
    (hb : x.shard.shape.broadcast out.shard.shape = some s) :
    x.mapShardInto (fun t => .ok (f t)) out = written f x out s ∨
      x.mapShardInto (fun t => .ok (f t)) out = ⟨.error (.fault .overflow), out⟩ ∧
        Size.modulus ≤ s.volume := by
  have hcast := hx.shard.cast x.dtype.toFloat
  rcases hcast.tileTo_eq_or (Shape.broadcastsTo_left hb) with ⟨-, hw⟩ | ⟨hw, hvol⟩
  · exact .inl (mapShardInto_of_tileTo hf hd hout.dtype hb hw)
  · exact .inr ⟨mapShardInto_of_fault hd hb hw, hvol⟩

/-- Nothing overflows if the volume of the common shape is a size. -/
theorem mapShardInto_of_volume_lt (hf : ∀ t, (f t).shape = t.shape)
    (hd : DType.promote x.dtype.toFloat out.dtype = out.dtype)
    (hb : x.shard.shape.broadcast out.shard.shape = some s) (hs : s.volume < Size.modulus) :
    (x.shard.cast x.dtype.toFloat).broadcastTo s
        = .ok ((x.shard.cast x.dtype.toFloat).stretch s) ∧
      x.mapShardInto (fun t => .ok (f t)) out = written f x out s := by
  have hleft : (x.shard.cast x.dtype.toFloat).shape.BroadcastsTo s := Shape.broadcastsTo_left hb
  have hexact := (hx.shard.cast x.dtype.toFloat).exact_of_broadcastsTo hleft hs
  exact ⟨hexact.broadcastTo_eq hs hleft, (mapShardInto_eq_or hx hout hf hd hb).resolve_right
    fun hover => Nat.not_lt.mpr hover.2 hs⟩

/-- **A rank refuses an output** whose type is too narrow, or to whose shard its own does not
broadcast, and leaves it alone. -/
theorem mapShardInto_fails (hf : ∀ t, (f t).shape = t.shape)
    (h : ¬ (DType.promote x.dtype.toFloat out.dtype = out.dtype ∧
      x.shard.shape.broadcast out.shard.shape = some out.shard.shape)) :
    ∃ e, x.mapShardInto (fun t => .ok (f t)) out = ⟨.error e, out⟩ := by
  by_cases hd : DType.promote x.dtype.toFloat out.dtype = out.dtype
  · cases hb : x.shard.shape.broadcast out.shard.shape with
    | none => exact ⟨_, mapShardInto_of_eq_none hd _ hb⟩
    | some s =>
      have hs : s ≠ out.shard.shape := fun hs => h ⟨hd, hb.trans (congrArg some hs)⟩
      rcases mapShardInto_eq_or hx hout hf hd hb with heq | ⟨heq, -⟩
      · rw [heq, written, if_neg hs]
        exact ⟨_, rfl⟩
      · exact ⟨_, heq⟩
  · exact ⟨_, mapShardInto_of_narrow _ hd⟩

end

/-- **When a rank writes over its shard of an output, and what.**  An output that is too narrow is
refused, whatever the function; so is one to whose shard the own shard does not broadcast, and one
with which it broadcasts to a third shape.  In the remaining case the function of the shard, cast
to the float type and broadcast to the shape of the output, is cast to the element type of the
output and written over its shard; everything else about the output stays, and the handle that is
returned is the output.  Something may overflow when the shard is repeated, but not if the volume of
the common shape is a size; so over an exact shard a rank writes in the remaining case and in no
other. -/
theorem mapShardInto_outcome (hx : x.Stored) (hout : out.Stored) :
    let d := x.dtype.toFloat
    let wide := DType.promote d out.dtype = out.dtype
    let common := x.shard.shape.broadcast out.shard.shape
    (¬ wide → ∀ g : Tensor → Except Failure Tensor,
      x.mapShardInto g out = ⟨.error (.error (.outputTooNarrow d out.dtype)), out⟩) ∧
    (wide → common = none → ∀ g : Tensor → Except Failure Tensor,
      x.mapShardInto g out
        = ⟨.error (.error (.cannotBroadcast x.shard.shape out.shard.shape)), out⟩) ∧
    ∀ f : Tensor → Tensor, (∀ t, (f t).shape = t.shape) →
      (∀ s, wide → common = some s → s ≠ out.shard.shape →
        let refused : InPlace Sharded Sharded :=
          ⟨.error (.error (.shapeMismatch out.shard.shape s)), out⟩
        (x.mapShardInto (fun t => .ok (f t)) out = refused ∨
          x.mapShardInto (fun t => .ok (f t)) out = ⟨.error (.fault .overflow), out⟩) ∧
        (s.volume < Size.modulus → x.mapShardInto (fun t => .ok (f t)) out = refused)) ∧
      (wide → common = some out.shard.shape →
        let w := (x.shard.cast d).stretch out.shard.shape
        let y := { out with shard := (f w).cast out.dtype }
        (x.mapShardInto (fun t => .ok (f t)) out = ⟨.ok y, y⟩ ∨
          x.mapShardInto (fun t => .ok (f t)) out = ⟨.error (.fault .overflow), out⟩) ∧
        (out.shard.Exact → (x.shard.cast d).broadcastTo out.shard.shape = .ok w ∧
          x.mapShardInto (fun t => .ok (f t)) out = ⟨.ok y, y⟩)) ∧
      (out.shard.Exact → ((∃ y, (x.mapShardInto (fun t => .ok (f t)) out).result = .ok y) ↔
        wide ∧ common = some out.shard.shape)) := by
  intro d wide common
  refine ⟨fun hd g => mapShardInto_of_narrow g hd, fun hd hb g => mapShardInto_of_eq_none hd g hb,
    fun f hf => ⟨fun s hd hb hs => ?_, fun hd hb => ?_, fun hexact => ⟨?_, ?_⟩⟩⟩
  · have hwritten : written f x out s
        = ⟨.error (.error (.shapeMismatch out.shard.shape s)), out⟩ := if_neg hs
    rw [← hwritten]
    exact ⟨(mapShardInto_eq_or hx hout hf hd hb).imp_right And.left,
      fun hvol => (mapShardInto_of_volume_lt hx hout hf hd hb hvol).2⟩
  · intro w y
    have hwritten : written f x out out.shard.shape = ⟨.ok y, y⟩ := if_pos rfl
    rw [← hwritten]
    exact ⟨(mapShardInto_eq_or hx hout hf hd hb).imp_right And.left,
      fun hexact => mapShardInto_of_volume_lt hx hout hf hd hb hexact.sized⟩
  -- a success rules out every reason to fail
  · rintro ⟨y, hy⟩
    by_contra hfit
    obtain ⟨e, he⟩ := mapShardInto_fails hx hout hf hfit
    rw [he] at hy
    cases hy
  · rintro ⟨hd, hb⟩
    rw [(mapShardInto_of_volume_lt hx hout hf hd hb hexact.sized).2, written, if_pos rfl]
    exact ⟨_, rfl⟩

/-- Whether two integers are true, written over two rows of doubles. -/
theorem mapShardInto_outcome_two_integers :
    let x : Sharded := ⟨⟨[2], ⟨.i32, [.ofInt 0, .ofInt 5]⟩⟩, [2], .i32, none, .cpu, .solo 0⟩
    let out : Sharded :=
      ⟨⟨[2, 2], ⟨.f64, [⟨0⟩, ⟨0⟩, ⟨0⟩, ⟨0⟩]⟩⟩, [2, 2], .f64, none, .cpu, .solo 0⟩
    let y := { out with shard :=
      ⟨[2, 2], ⟨.f64, [⟨0⟩, ⟨0x3ff0000000000000⟩, ⟨0⟩, ⟨0x3ff0000000000000⟩]⟩⟩ }
    (∀ t : Tensor, (t.cast .bool).shape = t.shape) ∧
      x.mapShardInto (fun t => .ok (t.cast .bool)) out = ⟨.ok y, y⟩ := by
  intro x out y
  have hx : x.Stored := ⟨⟨rfl, (by decide : ∀ e ∈ [2], e < Size.modulus)⟩, rfl⟩
  have hexact : out.shard.Exact := ⟨rfl, (by decide : Shape.volume [2, 2] < Size.modulus)⟩
  have hout : out.Stored := ⟨hexact.stored, rfl⟩
  have hwrite := (((mapShardInto_outcome hx hout).2.2 (Tensor.cast .bool) fun _ => rfl).2.1
    (by decide) (by decide)).2 hexact
  have hy : y = { out with shard := Tensor.cast out.dtype (Tensor.cast .bool
      ((x.shard.cast x.dtype.toFloat).stretch out.shard.shape)) } := by decide
  rw [hy]
  exact ⟨fun _ => rfl, hwrite.2⟩

end Sharded

end SpmdArray
