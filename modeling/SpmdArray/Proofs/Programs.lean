import Mathlib.Data.List.FinRange
import SpmdArray.Proofs.Parts
import SpmdArray.Proofs.Replies

/-!
# Programs that keep the ranks together

The constructor of handles compares nothing with other ranks, so that ranks could hold
anything.  In a program that only scatters tensors which all ranks know in full, and applies
functions to the results, every step leaves them with the parts of tensors, or fails on all of
them.

## Main definitions

* `GroupStep.Fits` — the steps of such programs; no tensor on the way has more elements than
  there are sizes.
* `Group.Together` — all ranks have the same names, for the parts of the same tensors.
* `Group.after` — a group after a program.

## Main results

* `GroupStep.program_together` — what one step does.
* `Group.step_together` — a step keeps the ranks together.
* `Group.run_coherent` — so does a whole program.
-/

namespace SpmdArray

/-! ### Names -/

namespace Bindings

variable {n : Nat}

/-- All ranks have the same names, for the parts of the same tensors. -/
def Together (b : Fin n → Bindings Sharded) : Prop :=
  ∀ name, (∀ r, (b r).get? name = none) ∨
    ∃ x, Sharded.Parts x ∧ ∀ r, (b r).get? name = some (x r)

variable {b : Fin n → Bindings Sharded}

theorem Together.put (h : Together b) (name : String) {x : Fin n → Sharded}
    (hx : Sharded.Parts x) : Together fun r => (b r).put name (x r) := by
  intro other
  by_cases ho : other = name
  · refine .inr ⟨x, hx, fun r => ?_⟩
    rw [get?_put, if_pos ho]
  · rcases h other with hnone | ⟨y, hy, hsome⟩
    · exact .inl fun r => by rw [get?_put, if_neg ho, hnone r]
    · exact .inr ⟨y, hy, fun r => by rw [get?_put, if_neg ho, hsome r]⟩

theorem Together.erase (h : Together b) (name : String) :
    Together fun r => (b r).erase name := by
  intro other
  by_cases ho : other = name
  · exact .inl fun r => by rw [get?_erase, if_pos ho]
  · rcases h other with hnone | ⟨y, hy, hsome⟩
    · exact .inl fun r => by rw [get?_erase, if_neg ho, hnone r]
    · exact .inr ⟨y, hy, fun r => by rw [get?_erase, if_neg ho, hsome r]⟩

end Bindings

/-! ### Replies -/

namespace Reply

variable {n : Nat}

/-- All ranks fail in the same way or answer with the parts of one tensor, and so do the outputs
that they leave. -/
structure Together (reply : Fin n → Reply) : Prop where
  /-- The answers. -/
  result : (∃ e : Error, ∀ r, (reply r).result = .error (.error e)) ∨
    ∃ x, Sharded.Parts x ∧ ∀ r, (reply r).result = .ok (.handle (x r))
  /-- The outputs. -/
  out : (∀ r, (reply r).out = none) ∨
    ∃ name x, Sharded.Parts x ∧ ∀ r, (reply r).out = some (name, x r)

variable {reply : Fin n → Reply} {b : Fin n → Bindings Sharded}

/-- The names of a rank with the output of a step. -/
def withOutput (b : Bindings Sharded) (out : Option (String × Sharded)) : Bindings Sharded :=
  match out with
  | some (o, x) => b.put o x
  | none => b

/-- **A step whose replies go together leaves names that go together.** -/
theorem Together.update (h : Together reply) (hb : Bindings.Together b) (name : Option String) :
    Bindings.Together fun r => Group.update name (b r) (reply r) := by
  have hout : Bindings.Together fun r => withOutput (b r) (reply r).out := by
    rcases h.out with hnone | ⟨o, x, hx, hsome⟩
    · simp only [hnone]
      exact hb
    · simp only [hsome]
      exact hb.put o hx
  unfold Group.update
  rcases h.result with ⟨e, he⟩ | ⟨x, hx, hok⟩
  · simp only [he]
    cases name with
    | none => exact hout
    | some m => exact hout.erase m
  · simp only [hok]
    cases name with
    | none => exact hout
    | some m => exact hout.put m hx

end Reply

/-! ### One step -/

/-- The global shape of an operand. -/
def OperandRef.gshape? (b : Bindings Sharded) : OperandRef → Option Shape
  | .name x => (b.get? x).map Sharded.gshape
  | .scalar _ => some [1]

namespace GroupStep

/-- The steps that keep the ranks together: tensors are scattered, copied, and put into functions
of two tensors, functions of one tensor without an output, and reductions.  The volumes of the
tensors are sizes, and if all ranks reduce a tensor that each of them has in full, it does not
matter how they share it out among their threads. -/
def Fits (b : Bindings Sharded) : GroupStep → Prop
  | ofGlobal (.ok u) _ _ => u.Exact
  | ofGlobal (.error (.error _)) _ _ => True
  | copy _ => True
  | binary f x y _ => f ≠ .div ∧ ∀ u v s, x.gshape? b = some u → y.gshape? b = some v →
      u.broadcast v = some s → s.volume < Size.modulus
  | unary _ _ out => out = none
  | reduce how stat x axis _ _ => ∀ v, b.get? x = some v → axis = .all → v.split = none →
      stat.reducer.Divisible (stat.workType v.dtype) ∨
        v.gshape.prod < Buffer.parallelThreshold ∨ ∀ r q, how r = how q
  | _ => False

variable {n : Nat} {b : Fin n → Bindings Sharded} {comm : Fin n → Nat → Comm}

theorem operand_cases (hb : Bindings.Together b) (a : OperandRef)
    (hset : ∀ name ∈ refNames a, ∀ r, (b r).get? name ≠ none) :
    (∃ e : Error, ∀ r, operandValue (b r) a = .error (.error e)) ∨
    ∃ src : Source n, src.Valid ∧ ∀ r, operandValue (b r) a = .ok (src.operand r) ∧
      a.gshape? (b r) = some src.gshape := by
  cases a with
  | name x =>
    rcases Nat.eq_zero_or_pos n with rfl | hn
    · exact .inl ⟨.emptyGroup, fun r => r.elim0⟩
    · rcases hb x with hnone | ⟨v, ⟨t, k, c, ht, hk, hc, hv⟩, hsome⟩
      · exact absurd (hnone ⟨0, hn⟩) (hset x (List.mem_singleton_self x) ⟨0, hn⟩)
      · refine .inr ⟨.tensor t k c, ⟨ht, hk, hc⟩, fun r => ⟨?_, ?_⟩⟩
        · rw [operandValue, value_eq (hsome r), hv r]
          rfl
        · rw [OperandRef.gshape?, hsome r, hv r]
          rfl
  | scalar s =>
    cases s with
    | error e => exact .inl ⟨e, fun r => rfl⟩
    | ok s => exact .inr ⟨.scalar s, trivial, fun r => ⟨rfl, rfl⟩⟩

/-- The replies to a step without exchanges. -/
theorem done_together {rep : Fin n → Reply} (h : Reply.Together rep) :
    ∃ (ev : Fin n → List Event) (reply : Fin n → Reply), Reply.Together reply ∧
      Spmd.Runs (fun r => (.done (rep r) : Spmd Reply)) fun r => (ev r, reply r) :=
  ⟨fun _ => [], rep, h, Spmd.Runs.done rep⟩

/-- The replies to a step that gives a handle. -/
theorem handle_together {ps : Fin n → Attempt Sharded} (h : Attempt.Together ps) :
    ∃ (ev : Fin n → List Event) (reply : Fin n → Reply), Reply.Together reply ∧
      Spmd.Runs (fun r => handleProgram (ps r)) fun r => (ev r, reply r) := by
  rcases h with ⟨ev, e, he⟩ | ⟨ev, x, hx, hok⟩
  · exact ⟨ev, _, ⟨.inl ⟨e, fun r => rfl⟩, .inl fun r => rfl⟩, handleProgram_runs he⟩
  · exact ⟨ev, _, ⟨.inr ⟨x, hx, fun r => rfl⟩, .inl fun r => rfl⟩, handleProgram_runs hok⟩

/-- The replies to a reduction with an output. -/
theorem reduceInto_together {x o : Fin n → Sharded} (ho : Sharded.Parts o)
    (how : Fin n → Grouping) (stat : Statistic) (axis : Axis) (keepdim : Bool) (name : String)
    (h : Attempt.Together fun r => Sharded.reduceFor (stat.reduceTensor (how r)) stat.reducer (x r)
      axis keepdim (some (o r))) :
    ∃ (ev : Fin n → List Event) (reply : Fin n → Reply), Reply.Together reply ∧
      Spmd.Runs
        (fun r => do return .ofOutput name (← (x r).reduceInto (how r) stat axis keepdim (o r)))
        fun r => (ev r, reply r) := by
  rcases h with ⟨ev, e, he⟩ | ⟨ev, y, hy, hok⟩
  · exact ⟨ev, _, ⟨.inl ⟨e, fun r => rfl⟩, .inr ⟨name, o, ho, fun r => rfl⟩⟩,
      (Sharded.reduceInto_runs he).map fun _ => Reply.ofOutput name⟩
  · exact ⟨ev, _, ⟨.inr ⟨y, hy, fun r => rfl⟩, .inr ⟨name, y, hy, fun r => rfl⟩⟩,
      (Sharded.reduceInto_runs hok).map fun _ => Reply.ofOutput name⟩

/-- **One step of a program** goes well on all ranks or fails on all of them. -/
theorem program_together [NeZero n] (hb : Bindings.Together b)
    (hcomm : ∀ g, Comm.Spans fun r => comm r g) {step : GroupStep} (hfit : ∀ r, step.Fits (b r))
    (hset : ∀ name ∈ step.names, ∀ r, (b r).get? name ≠ none) :
    ∃ (ev : Fin n → List Event) (reply : Fin n → Reply), Reply.Together reply ∧
      Spmd.Runs (fun r => step.program (b r) (comm r)) fun r => (ev r, reply r) := by
  have hvalue : ∀ x ∈ step.names, ∃ v, Sharded.Parts v ∧ ∀ r, (b r).get? x = some (v r) := by
    intro x hx
    exact (hb x).resolve_left fun hnone => hset x hx 0 (hnone 0)
  -- one case for each call that a client can make; those outside of the fragment do not fit
  cases step with
  | ofGlobal t split g =>
    refine done_together ⟨?_, .inl fun r => rfl⟩
    rcases t with (e | f) | t
    · exact .inl ⟨e, fun r => rfl⟩
    · exact (hfit 0).elim
    · rcases Sharded.ofGlobal_together (k := split) (hfit 0) (hcomm g)
        with ⟨e, he⟩ | ⟨x, hx, hok⟩
      · exact .inl ⟨e, fun r => congrArg (Except.map RankAnswer.handle) (he r)⟩
      · exact .inr ⟨x, hx, fun r => congrArg (Except.map RankAnswer.handle) (hok r)⟩
  | copy x =>
    obtain ⟨v, hv, hsome⟩ := hvalue x (List.mem_singleton_self x)
    refine done_together ⟨.inr ⟨v, hv, fun r => ?_⟩, .inl fun r => rfl⟩
    rw [value_eq (hsome r)]
    rfl
  | binary f x y g =>
    refine handle_together ?_
    -- the operands are read one after the other, and a value that cannot be read is refused alike
    rcases operand_cases hb x fun z hz => hset z (List.mem_append_left _ hz)
      with ⟨e, he⟩ | ⟨u, hu, hxu⟩
    · refine .inl ⟨fun _ => [], e, ?_⟩
      simp only [he]
      exact Attempt.Runs.ofExcept fun _ => .error (.error e)
    · rcases operand_cases hb y fun z hz => hset z (List.mem_append_right _ hz)
        with ⟨e, he⟩ | ⟨v, hv, hyv⟩
      · refine .inl ⟨fun _ => [], e, ?_⟩
        simp only [fun r => (hxu r).1, he]
        exact Attempt.Runs.ofExcept fun _ => .error (.error e)
      · simp only [fun r => (hxu r).1, fun r => (hyv r).1]
        exact Source.binary_together (hfit 0).1 hu hv (hcomm g) fun s hs =>
          (hfit 0).2 _ _ s (hxu 0).2 (hyv 0).2 hs
  | unary f x out =>
    obtain rfl : out = none := hfit 0
    obtain ⟨v, hv, hsome⟩ := hvalue x List.mem_cons_self
    obtain ⟨y, hy, hok⟩ := hv.unary f
    simp only [fun r => program_unary (comm r) (hsome r) f, hok]
    exact done_together ⟨.inr ⟨y, hy, fun r => rfl⟩, .inl fun r => rfl⟩
  | reduce how stat x axis keepdim out =>
    obtain ⟨v, hv, hsome⟩ := hvalue x List.mem_cons_self
    -- what each rank knows of its own threads
    let how' : Fin n → Grouping := fun r => how (comm r 0).rank
    have hsettled : axis = .all → (v 0).split = none →
        stat.reducer.Divisible (stat.workType (v 0).dtype) ∨
          (v 0).gshape.prod < Buffer.parallelThreshold ∨ ∀ r q, how' r = how' q :=
      fun hall hnone => (hfit 0 _ (hsome 0) hall hnone).imp_right fun h =>
        h.imp_right fun hsame r q => hsame _ _
    cases out with
    | none =>
      simp only [fun r => program_reduce (comm r) (hsome r) how stat axis keepdim]
      exact handle_together (hv.reduce_together how' stat hsettled (.inl fun _ => rfl))
    | some o =>
      obtain ⟨w, hw, hout⟩ := hvalue o (List.mem_cons_of_mem _ (List.mem_singleton_self o))
      simp only [fun r => program_reduceInto (comm r) (hsome r) (hout r) how stat axis keepdim]
      exact reduceInto_together hw how' stat axis keepdim o
        (hv.reduce_together how' stat hsettled (.inr ⟨w, hw, fun _ => rfl⟩))
  | create | render | info | chunk | operand | assign | toGlobal | allReduce | broadcast
  | zipShards | mapShard | reduceShards => exact (hfit 0).elim

end GroupStep

/-! ### Whole programs -/

/-- All `n` ranks answered, and all of them with success or all with an error. -/
def GroupAnswer.Uniform (n : Nat) : GroupAnswer → Prop
  | .skipped => True
  | .stuck => False
  | .ranks rs => rs.length = n ∧
      ((∀ r ∈ rs, ∃ a, r.2.result = .ok a) ∨ ∀ r ∈ rs, ∃ e, r.2.result = .error (.error e))

theorem GroupAnswer.Uniform.isLast_eq {n : Nat} {a : GroupAnswer} (h : a.Uniform n) :
    a.isLast = false := by
  cases a with
  | skipped => rfl
  | stuck => exact h.elim
  | ranks rs =>
    refine List.any_eq_false.mpr fun r hr => ?_
    rw [Reply.fault?]
    rcases h.2 with hok | herr
    · obtain ⟨x, hx⟩ := hok r hr
      rw [hx]
      exact Bool.false_ne_true
    · obtain ⟨e, he⟩ := herr r hr
      rw [he]
      exact Bool.false_ne_true

namespace Group

variable {n : Nat} {g : Group}

/-- `g.Coherent n` says that `n` ranks have the same names, and that the handles that they have
for a name are coherent. -/
def Coherent (g : Group) (n : Nat) : Prop :=
  ∃ b : Fin n → Bindings Sharded, g.names = List.ofFn b ∧
    ∀ name, (∀ r, (b r).get? name = none) ∨
      ∃ x, Sharded.Coherent x ∧ ∀ r, (b r).get? name = some (x r)

/-- `g.Together n` says that `n` ranks have the same names for the parts of the same tensors, and
communicators for all of them. -/
def Together (g : Group) (n : Nat) : Prop :=
  ∃ (b : Fin n → Bindings Sharded) (comm : Fin n → Nat → Comm),
    g.names = List.ofFn b ∧ g.comms = List.ofFn comm ∧ Bindings.Together b ∧
      ∀ i, Comm.Spans fun r => comm r i

theorem Together.coherent (h : g.Together n) : g.Coherent n := by
  obtain ⟨b, -, hb, -, hnames, -⟩ := h
  exact ⟨b, hb, fun name => (hnames name).imp_right fun ⟨x, hx, hsome⟩ =>
    ⟨x, hx.coherent, hsome⟩⟩

/-- **A step keeps the ranks together.** -/
theorem step_together [NeZero n] (h : g.Together n) {s : GroupStep}
    (hfit : ∀ b ∈ g.names, s.Fits b) (name : Option String) :
    (g.step s name).1.Together n ∧ (g.step s name).2.Uniform n := by
  obtain ⟨b, comm, hb, hc, hnames, hspans⟩ := h
  unfold step
  -- one rank that lacks a name is enough for the whole group to skip the call
  by_cases hskip : g.names.any fun b => s.names.any fun x => (b.get? x).isNone
  · rw [if_pos hskip]
    exact ⟨⟨b, comm, hb, hc, hnames, hspans⟩, trivial⟩
  · have hset : ∀ x ∈ s.names, ∀ r, (b r).get? x ≠ none := by
      intro x hx r hnone
      refine hskip (List.any_eq_true.mpr ⟨b r, ?_, List.any_eq_true.mpr ⟨x, hx, ?_⟩⟩)
      · rw [hb]
        exact List.mem_ofFn.mpr ⟨r, rfl⟩
      · rw [hnone]
        rfl
    obtain ⟨ev, reply, hreply, hrun⟩ := GroupStep.program_together hnames hspans
      (fun r => hfit (b r) (by rw [hb]; exact List.mem_ofFn.mpr ⟨r, rfl⟩)) hset
    have hrun : Spmd.run (g.programs s) = some (List.ofFn fun r => (ev r, reply r)) := by
      rw [programs, hb, hc, Spmd.zipWith_ofFn]
      exact hrun
    rw [if_neg hskip, hrun]
    refine ⟨⟨_, comm, ?_, hc, hreply.update hnames name, hspans⟩, ?_, ?_⟩
    · show List.zipWith _ g.names _ = _
      rw [hb, Spmd.zipWith_ofFn]
    · exact List.length_ofFn
    -- the verdict is the same wherever it is read: all ranks fail, or each of them has something
    · rcases hreply.result with ⟨e, he⟩ | ⟨x, -, hok⟩
      · refine .inr fun q hq => ?_
        obtain ⟨r, rfl⟩ := List.mem_ofFn.mp hq
        exact ⟨e, he r⟩
      · refine .inl fun q hq => ?_
        obtain ⟨r, rfl⟩ := List.mem_ofFn.mp hq
        exact ⟨_, hok r⟩

/-- A group after a program. -/
def after (g : Group) (steps : List (GroupStep × Option String)) : Group :=
  steps.foldl (fun g s => (g.step s.1 s.2).1) g

/-- Each step of a program fits the names that the ranks have when it is run. -/
def Fits : Group → List (GroupStep × Option String) → Prop
  | _, [] => True
  | g, (s, name) :: steps => (∀ b ∈ g.names, s.Fits b) ∧ Fits (g.step s name).1 steps

theorem run_together [NeZero n] (h : g.Together n) {steps : List (GroupStep × Option String)}
    (hfit : g.Fits steps) : (g.runScript steps).length = steps.length ∧
      ∀ a ∈ g.runScript steps, a.Uniform n := by
  induction steps generalizing g with
  | nil => exact ⟨rfl, fun a ha => nomatch ha⟩
  | cons s steps ih =>
    obtain ⟨hs, hrest⟩ := hfit
    obtain ⟨hnext, hanswer⟩ := step_together h hs s.2
    obtain ⟨hlen, hall⟩ := ih hnext hrest
    -- no rank breaks down, so that the script goes on
    have hrun : g.runScript (s :: steps)
        = (g.step s.1 s.2).2 :: (g.step s.1 s.2).1.runScript steps := by
      simp only [runScript, hanswer.isLast_eq, Bool.false_eq_true, if_false]
    rw [hrun]
    exact ⟨congrArg (· + 1) hlen, List.forall_mem_cons.mpr ⟨hanswer, hall⟩⟩

theorem after_together [NeZero n] (h : g.Together n) {steps done : List (GroupStep × Option String)}
    (hfit : g.Fits steps) (hdone : done <+: steps) : (g.after done).Together n := by
  induction done generalizing g steps with
  | nil => exact h
  | cons s done ih =>
    obtain ⟨rest, rfl⟩ := hdone
    exact ih (step_together h hfit.1 s.2).1 hfit.2 (List.prefix_append done rest)

theorem together_ofSize (h : ofSize n = .ok g) : g.Together n := by
  unfold ofSize at h
  split at h
  · cases h
  · obtain rfl := Except.ok.inj h
    refine ⟨fun _ => [], fun r i => .member i r n, ?_, ?_, fun name => .inl fun r => rfl,
      fun i => .inl ⟨i, fun r => rfl⟩⟩
    · exact (List.ofFn_const n []).symm
    · rw [← List.map_coe_finRange_eq_range, List.map_map, List.ofFn_eq_map]
      rfl

theorem together_solo : solo.Together 1 :=
  ⟨fun _ => [], fun _ => .solo, rfl, rfl, fun _ => .inl fun _ => rfl,
    fun i => .inr ⟨rfl, i, fun _ => rfl⟩⟩

/-- **All ranks stay coherent.** -/
theorem run_coherent [NeZero n] (hg : ofSize n = .ok g ∨ n = 1 ∧ g = solo)
    {steps : List (GroupStep × Option String)} (hfit : g.Fits steps) :
    (g.runScript steps).length = steps.length ∧ (∀ a ∈ g.runScript steps, a.Uniform n) ∧
      ∀ done, done <+: steps → (g.after done).Coherent n := by
  have h : g.Together n := by
    rcases hg with hg | ⟨rfl, rfl⟩
    · exact together_ofSize hg
    · exact together_solo
  obtain ⟨hlen, hall⟩ := run_together h hfit
  exact ⟨hlen, hall, fun done hdone => (after_together h hfit hdone).coherent⟩

/-- Two ranks scatter three words and add them up. -/
theorem run_coherent_three_words :
    let steps : List (GroupStep × Option String) :=
      [(.ofGlobal (.ok ⟨[3], ⟨.i64, [.ofInt 1, .ofInt 2, .ofInt 3]⟩⟩) (some 0) 0, some "x"),
        (.reduce (fun _ => .block) .sum "x" .all false none, some "y")]
    ∀ g, ofSize 2 = .ok g → (g.runScript steps).length = 2 ∧
      (∀ a ∈ g.runScript steps, a.Uniform 2) ∧
      ∀ done, done <+: steps → (g.after done).Coherent 2 := by
  intro steps g hg
  refine run_coherent (.inl hg) ⟨fun b hb => ?_, fun b hb v hv _ _ => ?_, trivial⟩
  · exact ⟨rfl, (by decide : Shape.volume [3] < Size.modulus)⟩
  · exact .inr (.inr fun _ _ => rfl)

end Group

end SpmdArray
