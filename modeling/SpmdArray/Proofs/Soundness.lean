import SpmdArray.Proofs.Outputs
import SpmdArray.Proofs.TiledEntries

/-!
# Functions of tensors that do not break down

A tensor that is built by the functions of this library has an element for each of its coordinates,
and the functions rely on nothing else: applied to such tensors they give such a tensor or report
an error, as long as no sum or product of sizes overflows.

## Main definitions

* `Sound post x` — the outcome `x` is no fault except an overflow, and its result, if there is one,
  is as `post` says.

## Main results

* `Tensor.sound_ofBuffer`, `Tensor.sound_reshape`, `Tensor.sound_broadcastTo`, `Tensor.sound_tile`,
  `Tensor.sound_narrow`, `Tensor.sound_binary`, `Tensor.sound_reduce` — the functions of tensors.
-/

namespace SpmdArray

/-! ### Sound outcomes -/

/-- `Sound post x` says that the outcome `x` is no fault, unless something has overflowed, and that
`post` holds of its result if it has one. -/
def Sound {α : Type} (post : α → Prop) : Except Failure α → Prop
  | .ok a => post a
  | .error (.error _) => True
  | .error (.fault f) => f = .overflow

namespace Sound

variable {α β : Type} {mid : α → Prop} {post : β → Prop} {x : Except Failure α}
  {y z : Except Failure β}

theorem raise (e : Error) : Sound post (Error.raise e) := trivial

theorem imp (h : Sound mid x) {mid' : α → Prop} (himp : ∀ a, x = .ok a → mid a → mid' a) :
    Sound mid' x := by
  rcases x with (e | f) | a
  · trivial
  · exact h
  · exact himp a rfl h

/-- Outcomes in sequence. -/
theorem bind {f : α → Except Failure β} (hx : Sound mid x)
    (hf : ∀ a, x = .ok a → mid a → Sound post (f a)) : Sound post (x >>= f) := by
  rcases x with (e | f') | a
  · trivial
  · exact hx
  · exact hf a rfl hx

theorem map (hx : Sound mid x) {f : α → β} (hf : ∀ a, mid a → post (f a)) :
    Sound post (x.map f) := by
  rcases x with (e | f') | a
  · trivial
  · exact hx
  · exact hf a hx

theorem ite {p : Prop} [Decidable p] (hy : p → Sound post y) (hz : ¬ p → Sound post z) :
    Sound post (if p then y else z) := by
  split
  · next h => exact hy h
  · next h => exact hz h

/-- A check that has to be passed first. -/
theorem check {p : Prop} [Decidable p] {e : Error} (hy : ¬ p → Sound post y) :
    Sound post (do if p then Error.raise e
                   y) :=
  ite (fun _ => trivial) hy

/-- A computation that could have run into a fault, but has not. -/
theorem lift_bind {v : Except Fault α} {a : α} {f : α → Except Failure β} (hv : v = .ok a)
    (h : Sound post (f a)) : Sound post ((liftM v : Except Failure α) >>= f) := by
  subst hv
  exact h

theorem of_eq {b : β} (hy : y = .ok b) (h : post b) : Sound post y := hy ▸ h

theorem overflow : Sound post (.error (.fault .overflow)) := rfl

/-- An outcome that is as it should be, unless something has overflowed. -/
theorem of_eq_or {q q' : Prop} {b : β}
    (h : q ∧ y = .ok b ∨ y = .error (.fault .overflow) ∧ q') (hb : q → post b) :
    Sound post y := by
  rcases h with ⟨hq, rfl⟩ | ⟨rfl, -⟩
  · exact hb hq
  · exact overflow

/-- An outcome that is no fault, with what is known of its result. -/
theorem of_eq_ok (hy : Sound (fun _ => True) y) (h : ∀ b, y = .ok b → post b) : Sound post y :=
  hy.imp fun b hb _ => h b hb

theorem foldlM {γ : Type} {f : β → γ → Except Failure β}
    (hf : ∀ b c, post b → Sound post (f b c)) (cs : List γ) (b : β) (hb : post b) :
    Sound post (cs.foldlM f b) := by
  induction cs generalizing b with
  | nil => exact hb
  | cons c cs ih =>
    rw [List.foldlM_cons]
    exact (hf b c hb).bind fun b' _ hb' => ih b' hb'

end Sound

/-! ### Functions of tensors -/

/-- Extents do not grow when shapes are broadcast. -/
theorem Shape.mem_lt_of_broadcast {a b s : Shape} (ha : ∀ e ∈ a, e < Size.modulus)
    (hb : ∀ e ∈ b, e < Size.modulus) (h : a.broadcast b = some s) :
    ∀ e ∈ s, e < Size.modulus := by
  intro e he
  obtain ⟨i, hi, rfl⟩ := List.getElem_of_mem he
  rw [← List.getD_eq_getElem _ 1 hi]
  rcases Shape.covers_or h hi with hc | hc
  · rw [← Shape.getD_of_covers hc]
    exact Shape.getD_lt_modulus ha _
  · rw [← Shape.getD_of_covers hc]
    exact Shape.getD_lt_modulus hb _

namespace Tensor

variable {t u : Tensor} {s : Shape}

/-- The elements of a shape are counted, or something overflows. -/
theorem sound_numel (s : Shape) :
    Sound (fun n => s.numel = .ok n) (liftM s.numel : Except Failure Nat) := by
  rcases s.numel_eq_ok_or with h | h
  · exact .of_eq (congrArg liftM h) h
  · rw [h]
    exact .overflow

theorem stored_vector {b : Buffer} (h : b.length < Size.modulus) : (vector b).Stored := by
  have hcount : Shape.numel [b.length] = .ok (List.prod [b.length]) :=
    Shape.numel_of_volume_lt (by
      rw [Shape.volume_cons, Shape.volume_nil, Nat.mul_one]
      exact Nat.max_lt.mpr ⟨by decide, h⟩)
  exact ⟨hcount.trans (congrArg Except.ok List.prod_singleton), by simpa [vector] using h⟩

theorem Stored.unary (ht : t.Stored) (f : UnaryFn) : (t.unary f).Stored where
  count := ht.count.trans (congrArg Except.ok (List.length_map _).symm)
  extents := ht.extents

theorem sound_zeros (he : ∀ e ∈ s, e < Size.modulus) (d : DType) :
    Sound Stored (liftM (zeros s d) : Except Failure Tensor) := by
  unfold zeros
  rcases s.numel_eq_ok_or with h | h
  · rw [h]
    exact ⟨h.trans (congrArg Except.ok (Buffer.length_zeros d _).symm), he⟩
  · rw [h]
    exact .overflow

theorem sound_ofBuffer {b : Buffer} (he : ∀ e ∈ s, e < Size.modulus) :
    Sound Stored (ofBuffer s b) :=
  (sound_numel s).bind fun _ _ hn => .check fun h =>
    ⟨hn.trans (congrArg Except.ok (not_not.mp h)), he⟩

theorem sound_reshape (he : ∀ e ∈ s, e < Size.modulus) : Sound Stored (t.reshape s) :=
  (sound_numel s).bind fun _ _ hn => .check fun h =>
    ⟨hn.trans (congrArg Except.ok (not_not.mp h)), he⟩

theorem sound_commonShape (a b : Shape) :
    Sound (fun s => a.broadcast b = some s) (commonShape a b) := by
  unfold commonShape
  split
  · next s h => exact h
  · trivial

theorem sound_broadcastTo (ht : t.Stored) (he : ∀ e ∈ s, e < Size.modulus) :
    Sound Stored (t.broadcastTo s) := by
  by_cases h : t.shape.broadcast s = some s
  · have hb := Shape.broadcast_self_iff.mp h
    exact .of_eq_or (ht.broadcastTo_eq_or hb) fun hs => stored_tabulate hs he
  · -- shapes that broadcast to another one, or not at all, are refused
    refine (sound_commonShape _ _).bind fun target _ htarget => .check fun hne => ?_
    exact absurd (htarget.trans (congrArg some (not_not.mp hne))) h

theorem sound_narrow (ht : t.Stored) (dim start len : Nat) :
    Sound Stored (t.narrow dim start len) := by
  rcases Nat.lt_or_ge dim t.ndim with hdim | hdim
  · have hext : t.shape[dim]? = some (t.shape.getD dim 1) := by
      rw [List.getD_eq_getElem _ _ hdim, List.getElem?_eq_getElem hdim]
    by_cases hlen : start + len ≤ t.shape.getD dim 1
    · exact .of_eq_or (ht.narrow_eq_or hdim hlen) id
    · -- the end of the slice overflows, or the slice is refused
      rw [narrow, hext]
      rcases Nat.lt_or_ge (start + len) Size.modulus with hlt | hge
      · exact .lift_bind (Size.add_of_lt hlt) (.check fun hle => absurd (Nat.le_of_not_lt hle) hlen)
      · simp only [show Size.add start len = _ from Size.store_of_le hge]
        exact .overflow
  · rw [narrow, List.getElem?_eq_none hdim]
    trivial

/-- A slice has as many axes as the tensor. -/
theorem ndim_narrow {dim start len : Nat} (h : t.narrow dim start len = .ok u) :
    u.ndim = t.ndim := by
  unfold narrow at h
  split at h
  · cases h
  · obtain ⟨stop, -, h⟩ := bind_eq_ok h
    obtain ⟨-, h⟩ := Error.check_eq_ok_iff.mp h
    split at h
    · obtain rfl := Except.ok.inj h
      rfl
    · obtain ⟨offsets, -, h⟩ := bind_eq_ok h
      obtain ⟨b, -, h⟩ := bind_eq_ok h
      obtain rfl := Except.ok.inj h
      exact List.length_set

theorem sound_tile (ht : t.Stored) (ms : List Nat) : Sound Stored (t.tile ms) := by
  rcases Nat.lt_or_ge ms.length t.ndim with hlt | hle
  · rw [tile_of_lt hlt]
    trivial
  · exact .of_eq_or (ht.tile_eq_or hle) id

theorem sound_binary (ht : t.Stored) (hu : u.Stored) (op : BinaryFn) :
    Sound Stored (t.binary op u) := by
  by_cases hd : t.dtype = u.dtype
  · cases h : t.shape.broadcast u.shape with
    | none =>
      rw [binary_of_eq_none hd h]
      trivial
    | some s =>
      have he := Shape.mem_lt_of_broadcast ht.extents hu.extents h
      obtain ⟨a, f, hf⟩ := ht.exists_tabulate rfl
      obtain ⟨b, g, hg⟩ := hu.exists_tabulate hd.symm
      generalize t.dtype = d at f hf g hg
      subst hf hg
      exact .of_eq_or (binary_tabulate_eq_or ht.counted hu.counted h) fun hs =>
        stored_tabulate hs he
  · exact .check fun hne => absurd (not_not.mp hne) hd

theorem sound_reduce (ht : t.Stored) (how : Grouping) (op : Reducer) (dim : Option Nat) :
    Sound Stored (t.reduce how op dim) := by
  cases hop : Buffer.supports op t.dtype with
  | false =>
    unfold reduce
    rw [hop]
    trivial
  | true =>
    cases dim with
    | none =>
      refine .check fun _ => sound_ofBuffer fun e he => ?_
      rw [List.mem_singleton.mp he]
      decide
    | some a =>
      rcases Nat.lt_or_ge a t.ndim with ha | ha
      · obtain ⟨s, f, hf⟩ := ht.exists_tabulate rfl
        generalize t.dtype = d at f hf hop
        subst hf
        have hs : s.numel = .ok s.prod := ht.counted
        have he : ∀ e ∈ s.set a 1, e < Size.modulus := mem_set_lt ht.extents (by decide)
        exact .of_eq_or (reduce_tabulate_eq_or hop ha hs) fun hset => stored_tabulate hset he
      · rw [reduce_axis_of_ge hop ha]
        trivial

theorem sound_assign (ht : t.Stored) (src : Tensor) (hsrc : src.Stored) :
    Sound (fun _ => True) (t.assign src).result ∧ (t.assign src).dest.Stored := by
  unfold assign
  split
  · exact ⟨trivial, ht⟩
  · next hshape =>
    refine ⟨trivial, ?_, ht.extents⟩
    rw [not_not.mp hshape]
    exact (hsrc.cast t.dtype).count

end Tensor

end SpmdArray
