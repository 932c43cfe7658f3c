import SpmdArray.Proofs.Stored

/-!
# Entries of tensors

A tensor is read at a coordinate: the element is the one in storage at the position of the
coordinate, if storage reaches that far and holds elements of the expected type.  Broadcasting and
the functions of two tensors are described by what is read from their results, if there is one:
something may overflow on the way to a result whose volume is no size.

## Main definitions

* `Tensor.read?` — the element at a coordinate, if there is one.

## Main results

* `Tensor.read?_tabulate`, `Tensor.Stored.exists_tabulate` — stored tensors are read at every
  coordinate.
* `Shape.broadcastOffsets_lt` — a broadcast reads storage in range.
* `Tensor.Stored.broadcastTo_entries`, `Tensor.Stored.binary_entries` — what is read from a
  broadcast tensor, and from a function of two tensors.
* `Tensor.broadcasting_entries` — when broadcasting succeeds, and what it gives.
-/

namespace SpmdArray

namespace Tensor

/-- The element of type `d` at the coordinate `c`, if storage holds one. -/
def read? (t : Tensor) (d : DType) (c : List Nat) : Option (Elem d) :=
  (t.buffer.as? d).bind fun xs => xs[t.shape.position c]?

variable {d : DType} {s : Shape} {t : Tensor} {f : List Nat → Elem d} {c : List Nat}

theorem read?_tabulate (h : s.Within c) : (tabulate d s f).read? d c = some (f c) := by
  have hk := Shape.position_lt h
  have hown : (tabulate d s f).buffer.as? d = some (s.coords.map f) :=
    Buffer.as?_self (tabulate d s f).buffer
  rw [read?, hown, Option.bind_some, shape_tabulate, List.getElem?_map, Shape.getElem?_coords hk,
    Option.map_some, Shape.digits_position h]

/-- A stored tensor of type `d` is the tensor of a function with values of type `d`. -/
theorem Stored.exists_tabulate (ht : t.Stored) (hd : t.dtype = d) :
    ∃ (s : Shape) (f : List Nat → Elem d), t = tabulate d s f := by
  subst hd
  exact ⟨t.shape, t.get, ht.eq_tabulate⟩

/-- What is read from a tensor that is given by the elements of another one. -/
theorem read?_tabulate_get {g : List Nat → List Nat} (ht : t.Stored) (hc : s.Within c)
    (hg : t.shape.Within (g c)) :
    ∃ x, t.read? t.dtype (g c) = some x ∧
      (tabulate t.dtype s fun c => t.get (g c)).read? t.dtype c = some x := by
  have hread := congrArg (fun w : Tensor => w.read? t.dtype (g c)) ht.eq_tabulate
  exact ⟨t.get (g c), hread.trans (read?_tabulate hg), read?_tabulate hc⟩

end Tensor

/-! ### Broadcasting -/

namespace Shape

/-- **A broadcast reads storage in range**, once for each coordinate of the result. -/
theorem broadcastOffsets_lt {s t : Shape} {offsets : List Nat} (h : s.BroadcastsTo t)
    (hoff : broadcastOffsets s t = .ok offsets) :
    offsets.length = t.prod ∧ ∀ i ∈ offsets, i < s.prod := by
  rcases broadcastOffsets_eq_ok_or h with ⟨-, heq⟩ | heq
  · obtain rfl := Except.ok.inj (hoff.symm.trans heq)
    refine ⟨by simp, fun i hi => ?_⟩
    obtain ⟨c, hc, rfl⟩ := List.mem_map.mp hi
    exact position_lt (within_align h (mem_coords.mp hc))
  · rw [heq] at hoff
    cases hoff

end Shape

namespace Tensor

variable {d : DType} {s : Shape} {t a b : Tensor} {op : BinaryFn}

/-- Shapes that do not broadcast to `s` are refused. -/
theorem broadcastTo_of_not (h : ¬ t.shape.BroadcastsTo s) :
    t.broadcastTo s = .error (.error (.cannotBroadcast t.shape s)) := by
  have hself := mt Shape.broadcast_self_iff.mp h
  unfold broadcastTo
  cases hcommon : t.shape.broadcast s with
  | none =>
    rw [commonShape_of_eq_none hcommon]
    rfl
  | some target =>
    have hne : target ≠ s := fun heq => hself (heq ▸ hcommon)
    rw [commonShape_of_eq_some hcommon]
    show (if target ≠ s then _ else _) = _
    rw [if_pos hne]
    rfl

/-- **What is read from a broadcast tensor** is what is read from the tensor at the aligned
coordinate. -/
theorem Stored.broadcastTo_entries (ht : t.Stored) (h : t.shape.BroadcastsTo s) :
    (∃ r, t.broadcastTo s = .ok r ∧ r.shape = s ∧ r.dtype = t.dtype ∧ r.numel = s.prod ∧
      ∀ c, s.Within c → ∃ x, t.read? t.dtype (t.shape.align c) = some x ∧
        r.read? t.dtype c = some x) ∨
      t.broadcastTo s = .error (.fault .overflow) ∧ Size.modulus ≤ s.volume := by
  refine (ht.broadcastTo_eq_or h).imp_left fun ⟨_, hr⟩ => ?_
  exact ⟨_, hr, rfl, rfl, numel_tabulate, fun c hc =>
    read?_tabulate_get ht hc (Shape.within_align h hc)⟩

/-- A function of two tensors is refused where their shapes do not broadcast. -/
theorem binary_of_eq_none (hd : a.dtype = b.dtype) (h : a.shape.broadcast b.shape = none) :
    a.binary op b = .error (.error (.cannotBroadcast a.shape b.shape)) := by
  rw [binary, if_neg (not_not.mpr hd), commonShape_of_eq_none h]
  rfl

/-- **What is read from a function of two tensors** is the function of what is read from them at
the aligned coordinates. -/
theorem Stored.binary_entries (op : BinaryFn) (ha : a.Stored) (hb : b.Stored)
    (hd : a.dtype = b.dtype) (h : a.shape.broadcast b.shape = some s) :
    (∃ r, a.binary op b = .ok r ∧ r.shape = s ∧ r.dtype = a.dtype ∧ r.numel = s.prod ∧
      ∀ c, s.Within c → ∃ x y, a.read? a.dtype (a.shape.align c) = some x ∧
        b.read? a.dtype (b.shape.align c) = some y ∧
        r.read? a.dtype c = some (Elem.binary op x y)) ∨
      a.binary op b = .error (.fault .overflow) ∧ Size.modulus ≤ s.volume := by
  obtain ⟨u, f, hf⟩ := ha.exists_tabulate rfl
  obtain ⟨v, g, hg⟩ := hb.exists_tabulate hd.symm
  generalize a.dtype = d at f hf g hg ⊢
  subst hf hg
  refine (binary_tabulate_eq_or ha.counted hb.counted h).imp_left fun ⟨_, hr⟩ => ?_
  refine ⟨_, hr, rfl, rfl, numel_tabulate, fun c hc =>
    ⟨f (u.align c), g (v.align c), ?_, ?_, read?_tabulate hc⟩⟩
  · exact read?_tabulate (Shape.within_align (Shape.broadcastsTo_left h) hc)
  · exact read?_tabulate (Shape.within_align (Shape.broadcastsTo_right h) hc)

/-- **Broadcasting follows the rule of aligned shapes.**  A tensor is refused exactly if its shape
does not become the other one by repetition.  Otherwise it is broadcast, unless something overflows
on the way to a shape whose volume is no size; each entry of the result is the one at the aligned
coordinate, and storage is read in range.  A function of two tensors of one type is refused exactly
if their shapes have no common shape.  Otherwise it gives a tensor of the common shape, again unless
its volume is no size; each of its entries is the function of the two aligned ones. -/
theorem broadcasting_entries (op : BinaryFn) :
    (∀ (t : Tensor) (s : Shape), t.Stored →
      (¬ t.shape.BroadcastsTo s →
        t.broadcastTo s = .error (.error (.cannotBroadcast t.shape s))) ∧
      (t.shape.BroadcastsTo s →
        (∀ offsets, Shape.broadcastOffsets t.shape s = .ok offsets →
          offsets.length = s.prod ∧ ∀ i ∈ offsets, i < t.numel) ∧
        ((∃ r, t.broadcastTo s = .ok r ∧ r.shape = s ∧ r.dtype = t.dtype ∧ r.numel = s.prod ∧
          ∀ c, s.Within c → ∃ x, t.read? t.dtype (t.shape.align c) = some x ∧
            r.read? t.dtype c = some x) ∨
          t.broadcastTo s = .error (.fault .overflow))) ∧
      (s.volume < Size.modulus →
        ((∃ r, t.broadcastTo s = .ok r) ↔ t.shape.BroadcastsTo s) ∧
        (t.shape.BroadcastsTo s → ∃ offsets, Shape.broadcastOffsets t.shape s = .ok offsets))) ∧
    ∀ a b : Tensor, a.Stored → b.Stored → a.dtype = b.dtype →
      (a.shape.broadcast b.shape = none →
        a.binary op b = .error (.error (.cannotBroadcast a.shape b.shape))) ∧
      (∀ s, a.shape.broadcast b.shape = some s →
        a.shape.BroadcastsTo s ∧ b.shape.BroadcastsTo s ∧
        ((∃ r, a.binary op b = .ok r ∧ r.shape = s ∧ r.dtype = a.dtype ∧ r.numel = s.prod ∧
          ∀ c, s.Within c → ∃ x y, a.read? a.dtype (a.shape.align c) = some x ∧
            b.read? a.dtype (b.shape.align c) = some y ∧
            r.read? a.dtype c = some (Elem.binary op x y)) ∨
          a.binary op b = .error (.fault .overflow))) ∧
      ((∀ s, a.shape.broadcast b.shape = some s → s.volume < Size.modulus) →
        ((∃ r, a.binary op b = .ok r) ↔ ∃ s, a.shape.broadcast b.shape = some s)) := by
  refine ⟨fun t s ht => ⟨broadcastTo_of_not,
    fun h => ⟨?_, (ht.broadcastTo_entries h).imp_right And.left⟩,
    fun hs => ⟨⟨?_, fun h => ?_⟩, fun h => ?_⟩⟩,
    fun a b ha hb hd => ⟨binary_of_eq_none hd, fun s h => ?_, fun hsized => ⟨?_, ?_⟩⟩⟩
  · rw [ht.numel_eq]
    exact fun offsets => Shape.broadcastOffsets_lt h
  · rintro ⟨r, hr⟩
    by_contra hnot
    rw [broadcastTo_of_not hnot] at hr
    cases hr
  · exact ⟨_, (ht.exact_of_broadcastsTo h hs).broadcastTo_eq hs h⟩
  · exact ⟨_, Shape.broadcastOffsets_eq (h.volume_le.trans_lt hs) hs h⟩
  · exact ⟨Shape.broadcastsTo_left h, Shape.broadcastsTo_right h,
      (ha.binary_entries op hb hd h).imp_right And.left⟩
  · rintro ⟨r, hr⟩
    by_contra hnot
    rw [binary_of_eq_none hd (by simpa [Option.eq_none_iff_forall_not_mem] using hnot)] at hr
    cases hr
  · rintro ⟨s, h⟩
    obtain ⟨r, hr, -⟩ := (ha.binary_entries op hb hd h).resolve_right fun hover =>
      Nat.not_lt.mpr hover.2 (hsized s h)
    exact ⟨r, hr⟩

/-- A column of two words is repeated along three columns, and added to a row of three words. -/
theorem broadcasting_entries_five_words :
    let a : Tensor := ⟨[2, 1], ⟨.u8, [.ofInt 3, .ofInt 4]⟩⟩
    let b : Tensor := ⟨[3], ⟨.u8, [.ofInt 10, .ofInt 20, .ofInt 255]⟩⟩
    (∃ r, a.broadcastTo [2, 3] = .ok r ∧ r.read? .u8 [1, 2] = some (.ofInt 4)) ∧
    (¬ ∃ r, a.broadcastTo [3, 3] = .ok r) ∧
    ∃ r, a.binary .add b = .ok r ∧ r.shape = [2, 3] ∧
      r.read? .u8 [0, 1] = some (.ofInt 23) ∧ r.read? .u8 [1, 2] = some (.ofInt 3) := by
  intro a b
  have ha : a.Stored := ⟨rfl, (by decide : ∀ e ∈ [2, 1], e < Size.modulus)⟩
  have hb : b.Stored := ⟨rfl, (by decide : ∀ e ∈ [3], e < Size.modulus)⟩
  have hshape : Shape.broadcast [2, 1] [3] = some [2, 3] := by decide
  obtain ⟨hbroadcast, hbinary⟩ := broadcasting_entries .add
  obtain ⟨-, hentries, hsucceeds⟩ := hbinary a b ha hb rfl
  obtain ⟨sum, hsum⟩ := (hsucceeds fun s hs => by
    obtain rfl : [2, 3] = s := Option.some.inj (hshape.symm.trans hs)
    decide).mpr ⟨_, hshape⟩
  refine ⟨?_, ?_, ?_⟩
  · have hto : Shape.BroadcastsTo [2, 1] [2, 3] := Shape.broadcast_self_iff.mp (by decide)
    obtain ⟨-, hread, hok⟩ := hbroadcast a [2, 3] ha
    obtain ⟨w, hw⟩ := (hok (by decide)).1.mpr hto
    obtain ⟨r, hr, -, -, -, hentry⟩ := (hread hto).2.resolve_right (by rw [hw]; nofun)
    obtain ⟨x, hx, hrx⟩ := hentry [1, 2] (by simp [Shape.Within])
    exact ⟨r, hr, hrx.trans (hx.symm.trans rfl)⟩
  · rw [((hbroadcast a [3, 3] ha).2.2 (by decide)).1, ← Shape.broadcast_self_iff]
    decide
  · obtain ⟨-, -, hor⟩ := hentries [2, 3] hshape
    obtain ⟨r, hr, hrs, -, -, hentry⟩ := hor.resolve_right (by rw [hsum]; nofun)
    refine ⟨r, hr, hrs, ?_, ?_⟩
    · obtain ⟨x, y, hx, hy, hrxy⟩ := hentry [0, 1] (by simp [Shape.Within])
      obtain rfl : .ofInt 3 = x := Option.some.inj hx
      obtain rfl : .ofInt 20 = y := Option.some.inj hy
      exact hrxy
    · obtain ⟨x, y, hx, hy, hrxy⟩ := hentry [1, 2] (by simp [Shape.Within])
      obtain rfl : .ofInt 4 = x := Option.some.inj hx
      obtain rfl : .ofInt 255 = y := Option.some.inj hy
      exact hrxy

/-- The volume of this shape is no size, although it has no elements. -/
example : (⟨[0, 2 ^ 63, 2], ⟨.u8, []⟩⟩ : Tensor).broadcastTo [3, 0, 2 ^ 63, 2]
    = .error (.fault .overflow) := by
  decide

end Tensor

end SpmdArray
