import SpmdArray.Proofs.Assembly
import SpmdArray.Proofs.Binary
import SpmdArray.Proofs.Failures
import SpmdArray.Proofs.Outcomes
import SpmdArray.Proofs.Replies

/-!
# Calls on which no rank waits in vain

The shards of a group may be of any lengths, so that the ranks do not all find the same when
they look at their own.  Nevertheless all of them issue the same collectives in the same order:
what depends on a shard is decided after the last collective, or by all ranks together.

## Main definitions

* `Attempt.InStep ps` — all ranks note the same events, and none blames another one.
* `GroupStep.Agrees b` — calls on handles that agree about everything but the lengths of shards.
* `GroupStep.BreaksDown b r` — calls over which rank `r` breaks down, for lack of machine sizes.

## Main results

* `Sharded.zipShards_inStep`, `Sharded.reduceFor_inStep`, `Sharded.toGlobal_inStep` — the
  functions that exchange anything.
* `GroupStep.program_inStep` — all calls.
-/

namespace SpmdArray

namespace Attempt

variable {α β : Type} {n : Nat}

/-- `InStep ps` says that the group of attempts `ps` runs to completion, that all ranks note the
same events, and that no rank fails over what another one has sent. -/
def InStep (ps : Fin n → Attempt α) : Prop :=
  ∃ (ev : List Event) (res : Fin n → Except Failure α),
    Runs ps (fun r => (ev, res r)) ∧ ∀ r, Local (res r)

namespace InStep

theorem ofExcept {x : Fin n → Except Failure α} (h : ∀ r, Local (x r)) :
    InStep fun r => ExceptT.mk (pure (x r)) :=
  ⟨[], x, Runs.ofExcept x, h⟩

theorem bind {ps : Fin n → Attempt α} {ev : List Event} {a : Fin n → α}
    {k : Fin n → α → Attempt β} (hp : Runs ps fun r => (ev, .ok (a r)))
    (hk : InStep fun r => k r (a r)) : InStep fun r => ps r >>= k r := by
  obtain ⟨ev', res, hrun, hres⟩ := hk
  exact ⟨ev ++ ev', res, hp.bind hrun, hres⟩

theorem bind_error {ps : Fin n → Attempt α} {ev : List Event} {e : Error}
    (k : Fin n → α → Attempt β) (hp : Runs ps fun _ => (ev, .error (.error e)))
    (he : e.kind ≠ .communication) : InStep fun r => ps r >>= k r :=
  ⟨ev, fun _ => .error (.error e), hp.bind_error k, fun _ => .raise he⟩

/-- All ranks refuse. -/
theorem refuse {e : Error} (he : e.kind ≠ .communication) :
    InStep fun _ : Fin n => (throw (.error e) : Attempt α) :=
  ofExcept fun _ => .raise he

end InStep

end Attempt

/-! ### Functions of two operands -/

namespace Operand

variable {n : Nat}

/-- The ranks have the same value, or handles on one tensor. -/
def Agree (a : Fin n → Operand) : Prop :=
  (∃ s, ∀ r, a r = .scalar s) ∨
    ∃ x g d k c, Sharded.Agree x g d k c ∧ ∀ r, a r = .tensor (x r)

variable {a b : Fin n → Operand}

theorem Agree.gshape (h : Agree a) (r q : Fin n) : (a r).gshape = (a q).gshape := by
  rcases h with ⟨s, hs⟩ | ⟨x, g, d, k, c, hx, ha⟩
  · rw [hs, hs]
  · rw [ha, ha]
    exact (hx.gshape r).trans (hx.gshape q).symm

theorem Agree.dtypes (ha : Agree a) (hb : Agree b) (r q : Fin n) :
    dtypes (a r) (b r) = dtypes (a q) (b q) := by
  rcases ha with ⟨s, hs⟩ | ⟨x, g, d, k, c, hx, ha⟩
  · rcases hb with ⟨t, ht⟩ | ⟨y, g', d', k', c', hy, hb⟩
    · rw [hs, hs, ht, ht]
    · rw [hs, hs, hb, hb, Operand.dtypes, Operand.dtypes, hy.dtype, hy.dtype]
  · rcases hb with ⟨t, ht⟩ | ⟨y, g', d', k', c', hy, hb⟩
    · rw [ha, ha, ht, ht, Operand.dtypes, Operand.dtypes, hx.dtype, hx.dtype]
    · rw [ha, ha, hb, hb, Operand.dtypes, Operand.dtypes, hx.dtype, hx.dtype, hy.dtype, hy.dtype]

theorem Agree.split_ofOperand (h : Agree a) (d : DType) (ndim : Nat) (r q : Fin n) :
    (Side.ofOperand d ndim (a r)).split = (Side.ofOperand d ndim (a q)).split := by
  rcases h with ⟨s, hs⟩ | ⟨x, g, e, k, c, hx, ha⟩
  · rw [hs, hs]
  · rw [ha, ha]
    simp only [Side.ofOperand, Sharded.ndim, hx.split, hx.gshape]

end Operand

namespace Side

variable {n : Nat} [NeZero n] {a : Fin n → Operand}

/-- **All ranks send an operand around, or all of them refuse to**, or it stays where it is. -/
theorem replicate_agree (h : Operand.Agree a) (d : DType) (ndim : Nat) :
    (∃ (ev : List Event) (s : Fin n → Side),
      Attempt.Runs (fun r => (ofOperand d ndim (a r)).replicate) fun r => (ev, .ok (s r))) ∨
    ∃ (ev : List Event) (e : Error), e.kind ≠ .communication ∧
      Attempt.Runs (fun r => (ofOperand d ndim (a r)).replicate)
        fun _ => (ev, .error (.error e)) := by
  have hstay : (∀ r, (ofOperand d ndim (a r)).replicate = pure (ofOperand d ndim (a r))) →
      ∃ (ev : List Event) (s : Fin n → Side),
        Attempt.Runs (fun r => (ofOperand d ndim (a r)).replicate) fun r => (ev, .ok (s r)) := by
    intro hpure
    simp only [hpure]
    exact ⟨[], _, Attempt.Runs.pure _⟩
  rcases h with ⟨s, hs⟩ | ⟨x, g, e, k, c, hx, ha⟩
  · exact .inl (hstay fun r => by rw [hs]; exact replicate_of_scalar rfl)
  -- only a split axis of extent 1 on several ranks has to be sent around
  · by_cases hsent : ∃ i, k = some i ∧ g.getD i 1 = 1 ∧ 1 < n
    · obtain ⟨i, rfl, hone, hn⟩ := hsent
      obtain ⟨group, hc⟩ := hx.spans.members hn
      have hrun := replicate_runs (fun r => ofOperand d ndim (a r)) (fun r => by rw [ha]; rfl) hx
        hone hc hn
      by_cases hheld : HeldByFirst x i
      · simp only [if_pos hheld] at hrun
        exact .inl ⟨_, _, hrun⟩
      · simp only [if_neg hheld] at hrun
        refine .inr ⟨_, _, ?_, hrun⟩
        nofun
    · refine .inl (hstay fun r => replicate_of_agree hx (by rw [ha]; rfl) fun i hi => ?_)
      by_contra hboth
      rw [not_or, not_not] at hboth
      have := Nat.pos_of_neZero n
      exact hsent ⟨i, hi, hboth.2, by omega⟩

end Side

namespace Sharded

variable {n : Nat} [NeZero n]

theorem local_finish {f : Tensor → Tensor → Except Failure Tensor} (hf : ∀ t u, Local (f t u))
    (d : DType) (g : Shape) (world : Comm) (lhs rhs : Side) :
    Local (finish f d g world lhs rhs) := by
  unfold finish
  refine .bind (local_align _ _) fun p => ?_
  exact .bind (local_combineShards hf _ _ _) fun t => local_create _ _ _ _ _ _

/-- **Functions of two operands** keep the ranks in step. -/
theorem zipShards_inStep {f : Tensor → Tensor → Except Failure Tensor}
    (hf : ∀ t u, Local (f t u)) {a b : Fin n → Operand} (ha : Operand.Agree a)
    (hb : Operand.Agree b) (world : Fin n → Comm) :
    Attempt.InStep fun r => zipShards f (a r) (b r) (world r) := by
  let da := (Operand.dtypes (a 0) (b 0)).1
  let db := (Operand.dtypes (a 0) (b 0)).2
  let ndim := max (a 0).gshape.ndim (b 0).gshape.ndim
  have hsides : ∀ r, sides (a r) (b r) = (.ofOperand da ndim (a r), .ofOperand db ndim (b r)) := by
    intro r
    rw [sides, ha.dtypes hb r 0, ha.gshape r 0, hb.gshape r 0]
  -- differing splits are refused before anything is sent
  by_cases hsplit : ∀ i j, (Side.ofOperand da ndim (a 0)).split = some i →
      (Side.ofOperand db ndim (b 0)).split = some j → i = j
  · let last (g : Shape) (lhs rhs : Side) (r : Fin n) : Attempt Sharded :=
      ExceptT.mk (pure (finish f (DType.promote da db) g (world r) lhs rhs))
    have hprog : ∀ r, zipShards f (a r) (b r) (world r) = (do
        let g ← (Tensor.commonShape (a 0).gshape (b 0).gshape : Except Failure Shape)
        let lhs ← (Side.ofOperand da ndim (a r)).replicate
        let rhs ← (Side.ofOperand db ndim (b r)).replicate
        last g lhs rhs r) := by
      intro r
      rw [zipShards_eq, hsides, ha.gshape r 0, hb.gshape r 0, ha.dtypes hb r 0]
      rw [hsides]
      simp only [ha.split_ofOperand da ndim r 0, hb.split_ofOperand db ndim r 0]
      exact hsplit
    simp only [hprog]
    -- the global shapes decide whether anything is sent around
    cases hg : (a 0).gshape.broadcast (b 0).gshape with
    | none =>
      simp only [Tensor.commonShape_of_eq_none hg]
      exact Attempt.InStep.refuse nofun
    | some g =>
      simp only [Tensor.commonShape_of_eq_some hg]
      rcases Side.replicate_agree ha da ndim with ⟨ev, lhs, hlhs⟩ | ⟨ev, e, he, hlhs⟩
      · refine .bind hlhs (k := fun r lhs => do
          let rhs ← (Side.ofOperand db ndim (b r)).replicate
          last g lhs rhs r) ?_
        rcases Side.replicate_agree hb db ndim with ⟨ev', rhs, hrhs⟩ | ⟨ev', e, he, hrhs⟩
        · refine .bind hrhs (k := fun r rhs => last g (lhs r) rhs r) ?_
          exact .ofExcept fun r => local_finish hf _ _ _ _ _
        · exact .bind_error (fun r rhs => last g (lhs r) rhs r) hrhs he
      · exact .bind_error (fun r lhs => do
          let rhs ← (Side.ofOperand db ndim (b r)).replicate
          last g lhs rhs r) hlhs he
  · push Not at hsplit
    obtain ⟨i, j, hi, hj, hne⟩ := hsplit
    have hprog : ∀ r, zipShards f (a r) (b r) (world r)
        = throw (.error (.differentSplits i j)) := by
      intro r
      exact zipShards_of_ne (by rw [hsides, ha.split_ofOperand da ndim r 0, hi])
        (by rw [hsides, hb.split_ofOperand db ndim r 0, hj]) hne
    simp only [hprog]
    exact Attempt.InStep.refuse nofun

end Sharded

/-! ### Reductions -/

namespace Axis

theorem kind_of_normalize {ndim : Nat} {a : Int} {e : Error} (h : normalize ndim a = .error e) :
    e.kind ≠ .communication := by
  unfold normalize at h
  split at h
  · obtain rfl := Except.error.inj h
    simp [Error.kind]
  · cases h

theorem kind_of_resolveFrom {ndim : Nat} {seen : List Nat} {as : List Int} {e : Error}
    (h : resolveFrom ndim seen as = .error e) : e.kind ≠ .communication := by
  induction as generalizing seen with
  | nil => cases h
  | cons a as ih =>
    cases hp : normalize ndim a with
    | error e' =>
      rw [resolveFrom_cons_of_error hp] at h
      obtain rfl := Except.error.inj h
      exact kind_of_normalize hp
    | ok p =>
      rw [resolveFrom_cons_of_ok hp] at h
      split at h
      · obtain rfl := Except.error.inj h
        simp [Error.kind]
      · exact ih h

theorem kind_of_resolve {s : Shape} {axis : Axis} {e : Error} (h : axis.resolve s = .error e) :
    e.kind ≠ .communication := by
  have hmany : ∀ as, some <$> resolveFrom s.ndim [] as = .error e → e.kind ≠ .communication := by
    intro as has
    cases hr : resolveFrom s.ndim [] as with
    | error e' =>
      rw [hr] at has
      obtain rfl := Except.error.inj has
      exact kind_of_resolveFrom hr
    | ok axes =>
      rw [hr] at has
      cases has
  cases axis with
  | all => cases h
  | single a => exact hmany [a] h
  | many as => exact hmany as h

end Axis

namespace Sharded

variable {n : Nat} [NeZero n] {x : Fin n → Sharded} {g : Shape} {d : DType} {k : Option Nat}
  {c : Fin n → Comm} {p : Plan}

/-- `x.Abandons p how stat` says that a rank with the handle `x` breaks down over its shard before
it meets the others, who wait for it. -/
def Abandons (x : Sharded) (p : Plan) (how : Grouping) (stat : Statistic) : Prop :=
  p.reducesSplit x.split = true ∧ x.comm.isDistributed = true ∧ p.Overflows how stat x

theorem local_conclude (p : Plan) (combine : Reducer) (x : Sharded) (g : Shape) (t : Tensor) :
    Local (conclude p combine x g t) := local_create _ _ _ _ _ _

/-- What is left to do once a reduction is known to make sense. -/
theorem meet_inStep (how : Fin n → Grouping) (stat : Statistic) (hx : Agree x g d k c)
    (hp : p.Valid g) :
    (Attempt.InStep fun r => (do
      let t ← (p.reduceShard (stat.reduceTensor (how r)) (x r).shard (p.gshape g) :
        Except Failure Tensor)
      let t ← meet p stat.reducer (x r) t
      ExceptT.mk (pure (conclude p stat.reducer (x r) (p.gshape g) t)) : Attempt Sharded)) ∨
    ∃ r, (x r).Abandons p (how r) stat := by
  simp only [meet_eq hx]
  -- ranks that do not meet exchange nothing and may fail as they like
  by_cases hmet : p.reducesSplit k ∧ 1 < n
  · obtain ⟨hred, hn⟩ := hmet
    obtain ⟨group, hc⟩ := hx.spans.members hn
    by_cases hall : ∀ r, ¬ p.Overflows (how r) stat (x r)
    · left
      -- the ranks meet with results of one shape and one type
      have hshard := fun r => reduceShard_of_not_overflows hx hp (hall r)
      obtain ⟨u, -, hrun⟩ := combinePartials_agree
        (t := fun r => p.result (how r) stat (x r).shard)
        (stat.supports_reducer (p.workType stat d)) hc (gshape_shard hx hred 0 ▸ (hshard 0).1)
        fun r => by
          rw [← gshape_shard hx hred r, ← hx.shard_dtype r]
          exact ⟨rfl, rfl, Tensor.numel_tabulate⟩
      simp only [fun r => (hshard r).2, if_pos (And.intro hred hn)]
      exact Attempt.InStep.bind
        (k := fun r t => ExceptT.mk (pure (conclude p stat.reducer (x r) (p.gshape g) t))) hrun
        (.ofExcept fun r => local_conclude _ _ _ _ _)
    -- a rank that breaks down before the exchange leaves the others waiting
    · right
      obtain ⟨r, hr⟩ := not_forall.mp hall
      refine ⟨r, by rwa [hx.split], ?_, not_not.mp hr⟩
      rw [hx.comm, hx.spans.isDistributed_eq]
      exact decide_eq_true hn
  · left
    simp only [if_neg hmet]
    have hprog : ∀ r, (do
        let t ← (p.reduceShard (stat.reduceTensor (how r)) (x r).shard (p.gshape g) :
          Except Failure Tensor)
        let t ← (pure t : Attempt Tensor)
        ExceptT.mk (pure (conclude p stat.reducer (x r) (p.gshape g) t)) : Attempt Sharded)
        = ExceptT.mk (pure (do
          let t ← p.reduceShard (stat.reduceTensor (how r)) (x r).shard (p.gshape g)
          conclude p stat.reducer (x r) (p.gshape g) t)) := by
      intro r
      rw [Attempt.mk_bind]
      rfl
    simp only [hprog]
    exact .ofExcept fun r => .bind (Plan.local_reduceShard (stat.local_reduceTensor (how r)) _ _ _)
      fun t => local_conclude _ _ _ _ _

/-- **Reductions** keep the ranks in step, unless one of them breaks down on its own. -/
theorem reduceFor_inStep (how : Fin n → Grouping) (stat : Statistic) (axis : Axis)
    (keepdim : Bool) (hx : Agree x g d k c) {outs : Fin n → Option Sharded}
    (hout : (∀ r, outs r = none) ∨
      ∃ (o : Fin n → Sharded) (u : Shape), ∀ r, outs r = some (o r) ∧ (o r).gshape = u) :
    (Attempt.InStep fun r =>
      reduceFor (stat.reduceTensor (how r)) stat.reducer (x r) axis keepdim (outs r)) ∨
    ∃ axes, axis.resolve g = .ok axes ∧ ∃ r, (x r).Abandons ⟨axes, keepdim⟩ (how r) stat := by
  cases hres : axis.resolve g with
  | error e =>
    left
    have hprog : ∀ r,
        reduceFor (stat.reduceTensor (how r)) stat.reducer (x r) axis keepdim (outs r)
          = throw (.error e) := fun r => reduceFor_of_invalid (by rw [hx.gshape, hres])
    simp only [hprog]
    exact .refuse (Axis.kind_of_resolve hres)
  | ok axes =>
    -- once the output fits, what remains are the elements, with or without an output
    have hgo : (∀ r o, outs r = some o → o.gshape = Plan.gshape ⟨axes, keepdim⟩ g) →
        (Attempt.InStep fun r =>
          reduceFor (stat.reduceTensor (how r)) stat.reducer (x r) axis keepdim (outs r)) ∨
        ∃ r, (x r).Abandons ⟨axes, keepdim⟩ (how r) stat := by
      intro hfit
      have hprog : ∀ r,
          reduceFor (stat.reduceTensor (how r)) stat.reducer (x r) axis keepdim (outs r) = _ :=
        fun r => reduceFor_eq (by rw [hx.gshape, hres]) (by rw [hx.gshape]; exact hfit r)
      simp only [hprog, hx.gshape]
      exact meet_inStep how stat hx (Axis.valid_of_resolve hres keepdim)
    have hresolved : ∀ {P : Prop}, (P ∨ ∃ r, (x r).Abandons ⟨axes, keepdim⟩ (how r) stat) →
        P ∨ ∃ as, Except.ok (ε := Error) axes = .ok as ∧
          ∃ r, (x r).Abandons ⟨as, keepdim⟩ (how r) stat :=
      fun h => h.imp_right fun hbroken => ⟨axes, rfl, hbroken⟩
    rcases hout with hnone | ⟨o, u, ho⟩
    · exact hresolved (hgo fun r q hq => nomatch (hnone r).symm.trans hq)
    · by_cases hu : u = Plan.gshape ⟨axes, keepdim⟩ g
      · refine hresolved (hgo fun r q hq => ?_)
        obtain rfl := Option.some.inj ((ho r).1.symm.trans hq)
        exact (ho r).2.trans hu
      · left
        have hprog : ∀ r,
            reduceFor (stat.reduceTensor (how r)) stat.reducer (x r) axis keepdim (outs r)
              = throw (.error (.shapeMismatch (Plan.gshape ⟨axes, keepdim⟩ g) u)) := by
          intro r
          rw [(ho r).1, reduceFor_of_ne (by rw [hx.gshape, hres])
            (by rw [hx.gshape, (ho r).2]; exact hu), hx.gshape, (ho r).2]
        simp only [hprog]
        exact .refuse nofun

/-! ### Putting a tensor together -/

/-- `Misplaces x r` says that rank `r` breaks down when the tensor is put together: a size overflows
when it looks for the place of its shard, or the shard does not lie inside of the tensor. -/
def Misplaces (x : Fin n → Sharded) (r : Fin n) : Prop :=
  ∃ s f, (x r).split = some s ∧ (x r).comm.isDistributed = true ∧
    (x r).placed s (Comm.before (fun q => (x q).shard.shape.getD s 1) r % Size.modulus)
      ((x r).shard.shape.getD s 1) = .error (.fault f) ∧
    (f = .overflow ∨ f = .outOfRange ∧ ¬ ∑ q, (x q).shard.shape.prod < Size.modulus)

/-- **Putting a tensor together** keeps the ranks in step, unless one of them breaks down over
sizes that overflow, or over shards that have more elements in total than there are sizes. -/
theorem toGlobal_inStep (hx : Agree x g d k c) :
    (Attempt.InStep fun r => (x r).toGlobal) ∨ ∃ r, Misplaces x r := by
  by_cases hsent : k ≠ none ∧ 1 < n
  · obtain ⟨hk, hn⟩ := hsent
    obtain ⟨s, rfl⟩ := Option.ne_none_iff_exists'.mp hk
    obtain ⟨group, hc⟩ := hx.spans.members hn
    rcases toGlobal_runs hx hc hn with ⟨e, he, hrun⟩ | ⟨t, hrun⟩ | ⟨r, f, hr, hf⟩
    · refine .inl ⟨_, _, hrun, fun r e' he' => ?_⟩
      rw [he e' (Except.error.inj he')]
      nofun
    · exact .inl ⟨_, _, hrun, fun r => .ok t⟩
    · refine .inr ⟨r, s, f, hx.split r, ?_, hr, hf⟩
      rw [hx.comm, hx.spans.isDistributed_eq]
      exact decide_eq_true hn
  · left
    have hprog : ∀ r, (x r).toGlobal = pure (x r).shard := by
      intro r
      refine toGlobal_of_whole ?_
      rw [hx.split, hx.comm, hx.spans.isDistributed_eq, decide_eq_false_iff_not]
      exact or_iff_not_and_not.mpr fun h => hsent ⟨h.1, not_not.mp h.2⟩
    simp only [hprog]
    exact ⟨_, _, Attempt.Runs.pure _, fun r => .ok _⟩

end Sharded

/-! ### Calls -/

/-- All ranks have handles on one tensor for the name, with shards of any lengths. -/
def Bindings.Agree {n : Nat} (b : Fin n → Bindings Sharded) (name : String) : Prop :=
  ∃ x g d k c, Sharded.Agree x g d k c ∧ ∀ r, (b r).get? name = some (x r)

/-- A value, or a name for which all ranks have handles on one tensor. -/
def OperandRef.Agree {n : Nat} (b : Fin n → Bindings Sharded) : OperandRef → Prop
  | .name x => Bindings.Agree b x
  | .scalar s => ∃ v, s = .ok v

namespace GroupStep

variable {n : Nat} {b : Fin n → Bindings Sharded}

/-- The calls of functions of two tensors, functions of one tensor, reductions, and the assembly
of a tensor, on handles that agree about everything but the lengths of the shards. -/
def Agrees (b : Fin n → Bindings Sharded) : GroupStep → Prop
  | binary _ u v _ => u.Agree b ∧ v.Agree b
  | unary _ x out => Bindings.Agree b x ∧ ∀ o, out = some o → Bindings.Agree b o
  | reduce _ _ x _ _ out => Bindings.Agree b x ∧ ∀ o, out = some o → Bindings.Agree b o
  | toGlobal x => Bindings.Agree b x
  | _ => False

/-- `step.BreaksDown b comm r` says that rank `r` does not get as far as the last exchange of the
step, as a size overflows when it reduces its shard or puts it in its place, or as the shards have
more elements in total than there are sizes. -/
def BreaksDown (b : Fin n → Bindings Sharded) (comm : Fin n → Nat → Comm) (r : Fin n) :
    GroupStep → Prop
  | reduce how stat x axis keepdim _ =>
    ∃ v axes, (b r).get? x = some v ∧ axis.resolve v.gshape = .ok axes ∧
      v.Abandons ⟨axes, keepdim⟩ (how (comm r 0).rank) stat
  | toGlobal x =>
    ∃ v : Fin n → Sharded, (∀ q, (b q).get? x = some (v q)) ∧ Sharded.Misplaces v r
  | _ => False

/-- The replies of all ranks to a step that keeps them in step. -/
def InStep (ps : Fin n → Spmd Reply) : Prop :=
  ∃ (ev : List Event) (reply : Fin n → Reply),
    Spmd.Runs ps (fun r => (ev, reply r)) ∧ ∀ r, Local (reply r).result

theorem InStep.done {reply : Fin n → Reply} (h : ∀ r, Local (reply r).result) :
    InStep fun r => .done (reply r) :=
  ⟨[], reply, Spmd.Runs.done reply, h⟩

theorem InStep.handle {ps : Fin n → Attempt Sharded} (h : Attempt.InStep ps) :
    InStep fun r => handleProgram (ps r) := by
  obtain ⟨ev, res, hrun, hres⟩ := h
  exact ⟨ev, _, handleProgram_runs hrun, fun r => (hres r).map _⟩

theorem operandValue_agree {a : OperandRef} (h : a.Agree b) :
    ∃ u : Fin n → Operand, Operand.Agree u ∧ ∀ r, operandValue (b r) a = .ok (u r) := by
  cases a with
  | name x =>
    obtain ⟨v, g, d, k, c, hv, hsome⟩ := h
    refine ⟨fun r => .tensor (v r), .inr ⟨v, g, d, k, c, hv, fun r => rfl⟩, fun r => ?_⟩
    rw [operandValue, value_eq (hsome r)]
    rfl
  | scalar s =>
    obtain ⟨v, rfl⟩ := h
    exact ⟨fun _ => .scalar v, .inl ⟨v, fun r => rfl⟩, fun r => rfl⟩

theorem local_leave {out : Sharded} {res : Except Failure Sharded} (h : Local res) :
    Local (out.leave res).result := by
  cases res with
  | ok y => exact .ok y
  | error e => exact h

variable [NeZero n] (comm : Fin n → Nat → Comm)

theorem binary_inStep {u v : OperandRef} (hu : u.Agree b) (hv : v.Agree b) (f : BinaryFn)
    (group : Nat) : InStep fun r => (binary f u v group).program (b r) (comm r) := by
  obtain ⟨x, hx, hu⟩ := operandValue_agree hu
  obtain ⟨y, hy, hv⟩ := operandValue_agree hv
  have hprog : ∀ r, (binary f u v group).program (b r) (comm r)
      = handleProgram (Sharded.binary f (x r) (y r) (comm r group)) := by
    intro r
    show handleProgram (do
      let u ← (operandValue (b r) u : Except Failure Operand)
      let v ← (operandValue (b r) v : Except Failure Operand)
      Sharded.binary f u v (comm r group)) = _
    rw [hu, hv]
    rfl
  simp only [hprog]
  exact .handle (Sharded.zipShards_inStep (Sharded.local_kernel f) hx hy _)

omit [NeZero n] in
theorem unary_inStep {x : String} {out : Option String} (hx : Bindings.Agree b x)
    (hout : ∀ o, out = some o → Bindings.Agree b o) (f : UnaryFn) :
    InStep fun r => (unary f x out).program (b r) (comm r) := by
  obtain ⟨v, g, d, k, c, hv, hx⟩ := hx
  cases out with
  | none =>
    simp only [fun r => program_unary (comm r) (hx r) f]
    exact .done fun r => (Sharded.local_mapShard (fun t => .ok _) _).map _
  | some o =>
    obtain ⟨w, u, e, l, c₂, hw, ho⟩ := hout o rfl
    simp only [fun r => program_unaryInto (comm r) (hx r) (ho r) f]
    exact .done fun r => (Sharded.local_mapShardInto (fun t => .ok _) _ _).map _

theorem reduce_inStep {x : String} {out : Option String} (hx : Bindings.Agree b x)
    (hout : ∀ o, out = some o → Bindings.Agree b o) (how : Nat → Grouping) (stat : Statistic)
    (axis : Axis) (keepdim : Bool) :
    (InStep fun r => (reduce how stat x axis keepdim out).program (b r) (comm r)) ∨
      ∃ r, (reduce how stat x axis keepdim out).BreaksDown b comm r := by
  obtain ⟨v, g, d, k, c, hv, hx⟩ := hx
  have hbroken : (∃ axes, axis.resolve g = .ok axes ∧
      ∃ r, (v r).Abandons ⟨axes, keepdim⟩ (how (comm r 0).rank) stat) →
      ∃ r, (reduce how stat x axis keepdim out).BreaksDown b comm r := by
    rintro ⟨axes, haxes, r, hr⟩
    exact ⟨r, v r, axes, hx r, by rwa [hv.gshape], hr⟩
  cases out with
  | none =>
    simp only [fun r => program_reduce (comm r) (hx r) how stat axis keepdim]
    exact (Sharded.reduceFor_inStep (fun r => how (comm r 0).rank) stat axis keepdim hv
      (.inl fun _ => rfl)).imp .handle hbroken
  | some o =>
    obtain ⟨w, u, e, l, c₂, hw, ho⟩ := hout o rfl
    simp only [fun r => program_reduceInto (comm r) (hx r) (ho r) how stat axis keepdim]
    have hstep := Sharded.reduceFor_inStep (fun r => how (comm r 0).rank) stat axis keepdim hv
      (.inr ⟨w, u, fun r => ⟨rfl, hw.gshape r⟩⟩)
    refine hstep.imp (fun ⟨ev, res, hrun, hres⟩ => ?_) hbroken
    exact ⟨ev, _, (Sharded.reduceInto_runs hrun).map fun _ => Reply.ofOutput o,
      fun r => (local_leave (hres r)).map _⟩

theorem toGlobal_inStep {x : String} (hx : Bindings.Agree b x) :
    (InStep fun r => (toGlobal x).program (b r) (comm r)) ∨
      ∃ r, (toGlobal x).BreaksDown b comm r := by
  obtain ⟨v, g, d, k, c, hv, hx⟩ := hx
  simp only [fun r => program_toGlobal (comm r) (hx r)]
  rcases Sharded.toGlobal_inStep hv with ⟨ev, res, hrun, hres⟩ | ⟨r, hr⟩
  · left
    exact ⟨ev, _, Spmd.Runs.map hrun fun _ t => ({ result := t.map .tensor } : Reply),
      fun r => (hres r).map _⟩
  · exact .inr ⟨r, v, hx, hr⟩

/-- **All ranks issue the same collectives**, whether the call succeeds or fails, and all of them
return from it, unless one of them breaks down over sizes that overflow.  No collective fails over
what another rank has sent. -/
theorem program_inStep {step : GroupStep} (h : step.Agrees b) :
    (∃ (ev : List Event) (reply : Fin n → Reply),
      Spmd.Runs (fun r => step.program (b r) (comm r)) (fun r => (ev, reply r)) ∧
      ∀ r e, (reply r).result = .error (.error e) → e.kind ≠ .communication) ∨
    ∃ r, step.BreaksDown b comm r := by
  show (InStep fun r => step.program (b r) (comm r)) ∨ _
  cases step with
  | binary f u v group => exact .inl (binary_inStep comm h.1 h.2 f group)
  | unary f x out => exact .inl (unary_inStep comm h.1 h.2 f)
  | reduce how stat x axis keepdim out => exact reduce_inStep comm h.1 h.2 how stat axis keepdim
  | toGlobal x => exact toGlobal_inStep comm h
  | ofGlobal | create | copy | render | info | chunk | operand | assign | allReduce | broadcast
  | zipShards | mapShard | reduceShards => exact h.elim

/-- Two ranks that hold one word each of a tensor of three words ask for the tensor. -/
theorem program_inStep_three_words :
    let x : Fin 2 → Sharded := fun r =>
      ⟨⟨[1], ⟨.i64, [.ofInt 7]⟩⟩, [3], .i64, some 0, .cpu, .member 0 r 2⟩
    ∃ (ev : List Event) (reply : Fin 2 → Reply),
      Spmd.Runs (fun r => (toGlobal "x").program [("x", x r)] fun i => .member i r 2)
        (fun r => (ev, reply r)) ∧
      ∀ r e, (reply r).result = .error (.error e) → e.kind ≠ .communication := by
  intro x
  have hx : Sharded.Agree x [3] .i64 (some 0) fun r => .member 0 r 2 :=
    ⟨.inl ⟨0, fun r => rfl⟩, fun r => rfl, fun r => rfl, by decide⟩
  have hstep : (toGlobal "x").Agrees fun r => [("x", x r)] := ⟨x, _, _, _, _, hx, fun r => rfl⟩
  rcases program_inStep (fun r i => .member i r 2) hstep with hrun | ⟨r, v, hv, s, f, hs, -, hr, -⟩
  · exact hrun
  -- both words lie inside of the tensor, so that no rank breaks down
  · obtain rfl : v = x := funext fun q => Option.some.inj (hv q).symm
    obtain rfl : 0 = s := Option.some.inj hs
    have hfit : ∀ r : Fin 2, Comm.before (fun q => (x q).shard.shape.getD 0 1) r % Size.modulus
        + (x r).shard.shape.getD 0 1 ≤ [3].getD 0 1 := by decide
    obtain ⟨ys, -, hplaced⟩ := Sharded.placed_of_fits hx (by decide) r (hfit r)
    exact nomatch hplaced.symm.trans hr

end GroupStep

end SpmdArray
