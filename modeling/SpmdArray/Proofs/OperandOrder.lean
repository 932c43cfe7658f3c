import SpmdArray.Proofs.Outcomes
import SpmdArray.Proofs.Replication

/-!
# Operands in either order

A function of two operands treats both alike: with its arguments exchanged and its operands in the
other order, each rank fails for the same kind of reason or ends up with the same part of the
result.  The operand that stays split decides the device and the group of the result; only if both
of them stay split, or none, it is the first one.

## Main definitions

* `Failure.Alike` — failures that a caller does not tell apart.
* `Matched R` — computations that fail alike, or have results that `R` relates.
* `Sharded.Mirrors` — handles that are equal up to the device and the group.

## Main results

* `Sharded.inLine_swap`, `Sharded.combineShards_swap` — the stages in either order.
* `Sharded.finish_swap` — what a rank does on its own, in either order.
* `Spread.zipShards_swap` — what a group does, in either order.
-/

namespace SpmdArray

/-! ### Related outcomes -/

/-- Failures that a caller does not tell apart: errors of one kind, or one fault. -/
def Failure.Alike : Failure → Failure → Prop
  | .error e, .error e' => e.kind = e'.kind
  | .fault x, .fault x' => x = x'
  | _, _ => False

@[refl] theorem Failure.Alike.refl (e : Failure) : e.Alike e := by
  cases e <;> rfl

/-- Two computations fail alike, or have results that `R` relates. -/
def Matched {α β : Type} (R : α → β → Prop) : Except Failure α → Except Failure β → Prop
  | .ok a, .ok b => R a b
  | .error e, .error e' => e.Alike e'
  | _, _ => False

namespace Matched

variable {α β γ δ : Type} {R : α → β → Prop} {S : γ → δ → Prop}

theorem of_eq {R : α → α → Prop} (h : ∀ a, R a a) (x : Except Failure α) : Matched R x x := by
  cases x with
  | ok a => exact h a
  | error e => exact .refl e

/-- Computations in sequence. -/
theorem bind {x : Except Failure α} {y : Except Failure β} {k : α → Except Failure γ}
    {k' : β → Except Failure δ} (h : Matched R x y)
    (hk : ∀ a b, x = .ok a → R a b → Matched S (k a) (k' b)) : Matched S (x >>= k) (y >>= k') := by
  cases x with
  | ok a =>
    cases y with
    | ok b => exact hk a b rfl h
    | error e => exact h.elim
  | error e =>
    cases y with
    | ok b => exact h.elim
    | error e' => exact h

/-- A check that has to be passed first. -/
theorem check {p : Prop} [Decidable p] {e : Error} {x : Except Failure α} {y : Except Failure β}
    (h : Matched R x y) :
    Matched R (do if p then Error.raise e
                  x) (do if p then Error.raise e
                         y) := by
  by_cases hp : p
  · simp only [if_pos hp]
    exact (rfl : e.kind = e.kind)
  · simp only [if_neg hp]
    exact h

end Matched

namespace Sharded

variable {f : Tensor → Tensor → Except Failure Tensor} {d : DType} {g : Shape} {world : Comm}
  {lhs rhs : Side}

/-! ### The stages of one rank -/

/-- The same operand is cut down. -/
theorem inLine_swap (lhs rhs : Side) : inLine rhs lhs = Prod.swap <$> inLine lhs rhs := by
  unfold inLine
  cases lhs.split <;> cases rhs.split <;> simp only [Functor.map_map] <;> rfl

/-- A split operand is not cut down. -/
theorem inLine_eq_ok {p : Tensor × Tensor} (h : inLine lhs rhs = .ok p) :
    (lhs.split.isSome → p.1 = lhs.shard) ∧ (rhs.split.isSome → p.2 = rhs.shard) := by
  unfold inLine at h
  cases hl : lhs.split <;> cases hr : rhs.split <;>
    simp only [hl, hr, map_eq_pure_bind] at h
  case none.none => exact ⟨nofun, nofun⟩
  case none.some i =>
    obtain ⟨x, -, hx⟩ := bind_eq_ok h
    obtain rfl := Except.ok.inj hx
    exact ⟨nofun, fun _ => rfl⟩
  case some.none i =>
    obtain ⟨y, -, hy⟩ := bind_eq_ok h
    obtain rfl := Except.ok.inj hy
    exact ⟨fun _ => rfl, nofun⟩
  case some.some i j =>
    obtain rfl := Except.ok.inj h
    exact ⟨fun _ => rfl, fun _ => rfl⟩

/-- The shards are combined to the same shard. -/
theorem combineShards_swap (f : Tensor → Tensor → Except Failure Tensor) (d : DType)
    (hl : ∀ i, lhs.split = some i → i - lhs.offset < lhs.shard.shape.length)
    (hr : ∀ i, rhs.split = some i → i - rhs.offset < rhs.shard.shape.length) :
    Matched Eq (combineShards f d lhs rhs) (combineShards (fun x y => f y x) d rhs lhs) := by
  cases h : lhs.shard.shape.broadcast rhs.shard.shape with
  | none =>
    have h' : rhs.shard.shape.broadcast lhs.shard.shape = none := by
      rw [Shape.broadcast_comm, h]
    rw [combineShards_of_none h, combineShards_of_none h']
    exact rfl
  | some s =>
    have h' : rhs.shard.shape.broadcast lhs.shard.shape = some s := by
      rw [Shape.broadcast_comm, h]
    have heq : combineShards f d lhs rhs = combineShards (fun x y => f y x) d rhs lhs := by
      unfold combineShards
      simp only [Tensor.commonShape_of_eq_some h, Tensor.commonShape_of_eq_some h',
        Side.isEmpty_eq hl, Side.isEmpty_eq hr]
      cases lhs.vacant <;> cases rhs.vacant <;> rfl
    rw [heq]
    exact .of_eq (fun _ => rfl) _

/-- `Mirrors p x y` says that two handles are equal, the device and the group included if `p`
holds. -/
structure Mirrors (p : Prop) (x y : Sharded) : Prop where
  /-- The extents of the global tensor. -/
  gshape : x.gshape = y.gshape
  /-- The split axis. -/
  split : x.split = y.split
  /-- The element type. -/
  dtype : x.dtype = y.dtype
  /-- The part of this rank. -/
  shard : x.shard = y.shard
  /-- The device. -/
  device : p → x.device = y.device
  /-- The group. -/
  comm : p → x.comm = y.comm

/-- The constructor does not look at the device and the group. -/
theorem create_mirrors {p : Prop} (t : Tensor) (g : Shape) (d : DType) (k : Option Nat)
    {dev dev' : Device} {c c' : Comm} (hdev : p → dev = dev') (hc : p → c = c') :
    Matched (Mirrors p) (create t g d k dev c) (create t g d k dev' c') := by
  have hhandle : Matched (Mirrors p) (.ok ⟨t, g, d, k, dev, c⟩) (.ok ⟨t, g, d, k, dev', c'⟩) :=
    ⟨rfl, rfl, rfl, rfl, hdev, hc⟩
  unfold create
  cases k with
  | none => exact .check (.check hhandle)
  | some i => exact .check (.check (.check hhandle))

theorem splitOf_swap (hsplit : ∀ i j, lhs.split = some i → rhs.split = some j → i = j) :
    splitOf rhs lhs = splitOf lhs rhs := by
  unfold splitOf
  cases hl : lhs.split with
  | none => cases rhs.split <;> rfl
  | some i =>
    cases hr : rhs.split with
    | none => rfl
    | some j => rw [hsplit i j hl hr]

/-- The operand that stays split comes first, if there is just one. -/
theorem resultOrigin_swap (h : lhs.split.isSome ≠ rhs.split.isSome) :
    resultOrigin rhs lhs = resultOrigin lhs rhs := by
  unfold resultOrigin
  cases hl : lhs.split.isSome <;> cases hr : rhs.split.isSome
  case false.false => exact absurd (hl.trans hr.symm) h
  case true.true => exact absurd (hl.trans hr.symm) h
  all_goals rfl

/-- **What a rank does on its own**, in either order. -/
theorem finish_swap (f : Tensor → Tensor → Except Failure Tensor) (d : DType) (g : Shape)
    (world : Comm) (hsplit : ∀ i j, lhs.split = some i → rhs.split = some j → i = j)
    (hl : ∀ i, lhs.split = some i → i - lhs.offset < lhs.shard.shape.length)
    (hr : ∀ i, rhs.split = some i → i - rhs.offset < rhs.shard.shape.length) :
    Matched (Mirrors (lhs.split.isSome ≠ rhs.split.isSome)) (finish f d g world lhs rhs)
      (finish (fun x y => f y x) d g world rhs lhs) := by
  -- the two runs cut down the same operand, combine the same shards and build the same handle
  rw [finish_eq_bind, finish_eq_bind, inLine_swap lhs rhs, bind_map_left, splitOf_swap hsplit]
  refine (Matched.of_eq (R := Eq) (fun _ => rfl) _).bind fun p q hp hpq => ?_
  subst hpq
  obtain ⟨hp₁, hp₂⟩ := inLine_eq_ok hp
  refine (combineShards_swap f d (fun i hi => ?_) (fun i hi => ?_)).bind fun t u _ htu => ?_
  · rw [hp₁ (Option.isSome_iff_exists.mpr ⟨i, hi⟩)]
    exact hl i hi
  · rw [hp₂ (Option.isSome_iff_exists.mpr ⟨i, hi⟩)]
    exact hr i hi
  · subst htu
    refine create_mirrors t g t.dtype _ (fun h => ?_) fun h => ?_
    · rw [deviceOf, deviceOf, resultOrigin_swap h]
    · rw [commOf, commOf, resultOrigin_swap h]

end Sharded

/-! ### The stages of a group -/

/-- The types that two operands take do not depend on their order. -/
theorem Operand.dtypes_swap (a b : Operand) : dtypes b a = (dtypes a b).swap := by
  cases a with
  | scalar s =>
    cases b with
    | scalar s' =>
      simp only [dtypes, DType.promote_comm (s'.dtypeAlongside s.dtype)]
      rfl
    | tensor y => rfl
  | tensor x => cases b <;> rfl

namespace Spread

variable {n : Nat} [NeZero n] {a b : Spread n}

/-- **A function of two operands does not depend on their order.**  With its arguments exchanged
and the operands in the other order, each rank fails alike or ends up with the same handle, up to
the device and the group; these are the same as well if just one of the operands stays split. -/
theorem zipShards_swap (f : Tensor → Tensor → Except Failure Tensor) (ha : a.Agreed)
    (hb : b.Agreed) (world : Fin n → Comm) :
    ∃ (ev ev' : List Event) (out out' : Fin n → Except Failure Sharded),
      Attempt.Runs (fun r => Sharded.zipShards f (a.operand r) (b.operand r) (world r))
        (fun r => (ev, out r)) ∧
      Attempt.Runs (fun r => Sharded.zipShards (fun x y => f y x) (b.operand r) (a.operand r)
          (world r))
        (fun r => (ev', out' r)) ∧
      ∀ r, Matched (Sharded.Mirrors (a.kept.isSome ≠ b.kept.isSome)) (out r) (out' r) := by
  have hndim : ndim b a = ndim a b := Nat.max_comm _ _
  -- the reasons for which all ranks refuse the operands do not depend on their order, although
  -- the ranks may exchange more or less before they find one
  by_cases hsplit : ∀ i j, a.axisIn (ndim a b) = some i → b.axisIn (ndim a b) = some j → i = j
  · have hsplit' : ∀ i j, b.axisIn (ndim b a) = some i → a.axisIn (ndim b a) = some j → i = j := by
      rw [hndim]
      exact fun i j hi hj => (hsplit j i hj hi).symm
    cases h : a.gshape.broadcast b.gshape with
    | none =>
      have h' : b.gshape.broadcast a.gshape = none := by rw [Shape.broadcast_comm, h]
      exact ⟨_, _, _, _, ha.zipShards_runs_of_none f hb world hsplit h,
        hb.zipShards_runs_of_none (fun x y => f y x) ha world hsplit' h', fun r => rfl⟩
    | some s =>
      have h' : b.gshape.broadcast a.gshape = some s := by rw [Shape.broadcast_comm, h]
      by_cases hp : a.Placed ∧ b.Placed
      · obtain ⟨d, d', hdtypes, hrun⟩ := ha.zipShards_runs f hb world hsplit h hp.1 hp.2
        obtain ⟨e', e, hdtypes', hrun'⟩ :=
          hb.zipShards_runs (fun x y => f y x) ha world hsplit' h' hp.2 hp.1
        obtain ⟨rfl, rfl⟩ : e' = d' ∧ e = d := by
          have hswap := Operand.dtypes_swap (a.operand 0) (b.operand 0)
          rw [hdtypes, hdtypes'] at hswap
          exact Prod.mk.inj hswap
        rw [hndim, DType.promote_comm] at hrun'
        refine ⟨_, _, _, _, hrun, hrun', fun r => ?_⟩
        obtain ⟨haxis, hlt⟩ := ha.split_side e (ndim a b) r
        obtain ⟨haxis', hlt'⟩ := hb.split_side e' (ndim a b) r
        have hkept : ∀ (o : Option Nat) (k : Nat), (o.map (· + k)).isSome = o.isSome :=
          fun o k => Option.isSome_map
        have hfinish := Sharded.finish_swap f (DType.promote e e') s (world r)
          (ha.split_side_eq hb hsplit e e' r) hlt hlt'
        rwa [haxis, haxis', hkept, hkept] at hfinish
      · obtain ⟨ev, i, hrun⟩ := ha.zipShards_runs_of_misplaced f hb world hsplit h hp
        obtain ⟨ev', j, hrun'⟩ := hb.zipShards_runs_of_misplaced (fun x y => f y x) ha world hsplit'
          h' fun hp' => hp hp'.symm
        exact ⟨ev, ev', _, _, hrun, hrun', fun r => rfl⟩
  · push Not at hsplit
    obtain ⟨i, j, hi, hj, hij⟩ := hsplit
    exact ⟨_, _, _, _, ha.zipShards_runs_of_ne f hb world hi hj hij,
      hb.zipShards_runs_of_ne (fun x y => f y x) ha world (hndim ▸ hj) (hndim ▸ hi) hij.symm,
      fun r => rfl⟩

/-- Two ranks subtract two words that both of them have from two words that they share. -/
theorem zipShards_swap_two_words :
    let c : Fin 2 → Comm := fun r => .member 0 r 2
    let x := ofSlices ⟨[2], ⟨.i64, [.ofInt 10, .ofInt 20]⟩⟩ (some 0) ![1, 1] c
    let y := ofSlices ⟨[2], ⟨.i64, [.ofInt 1, .ofInt 2]⟩⟩ none ![2, 2] c
    let minus : Tensor → Tensor → Except Failure Tensor := Sharded.kernel .sub
    ∃ (ev ev' : List Event) (out out' : Fin 2 → Except Failure Sharded),
      Attempt.Runs (fun r => Sharded.zipShards minus (x.operand r) (y.operand r) (c r))
        (fun r => (ev, out r)) ∧
      Attempt.Runs (fun r => Sharded.zipShards (fun t u => minus u t) (y.operand r) (x.operand r)
          (c r))
        (fun r => (ev', out' r)) ∧
      ∀ r, Matched (Sharded.Mirrors True) (out r) (out' r) := by
  intro c x y minus
  have hc : Comm.Spans c := .inl ⟨0, fun _ => rfl⟩
  have hx : x.Valid := by
    refine valid_ofSlices ⟨rfl, (by decide : Shape.volume [2] < Size.modulus)⟩ ?_ ?_ hc
    · rintro i ⟨⟩
      decide
    · rintro i ⟨⟩
      decide
  have hy : y.Valid := 
    valid_ofSlices ⟨rfl, (by decide : Shape.volume [2] < Size.modulus)⟩ nofun nofun hc
  have hkept : x.kept.isSome ≠ y.kept.isSome := by decide
  have hswap := zipShards_swap minus hx.agreed hy.agreed c
  rwa [eq_true hkept] at hswap

end Spread

end SpmdArray
