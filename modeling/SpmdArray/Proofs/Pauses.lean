import SpmdArray.Proofs.Lockstep

/-!
# Groups that need not get through

The ranks of a group run their programs up to the next exchange.  If all of them wait in an
exchange of one group, they go on with each other's payloads; otherwise those that wait are stuck,
and the others may be through.  What is said here about the ranks that get through does not depend
on whether the others do.

## Main definitions

* `Spmd.MayEnd heard a p` — the program `p` of one rank can end with `a`, for something that the
  rank is told.
* `Spmd.Ensures post ps` — whatever ranks of the group of programs `ps` get through, their results
  are what `post` says.

## Main results

* `Spmd.Ensures.of_always` — a property that each rank has on its own.
* `Spmd.Ensures.map` — the results, put to use.
* `Spmd.lockstep_pauses` — a group that gets through pauses in step.
* `Spmd.Ensures.of_runs` — the results of a group that gets through.
-/

namespace SpmdArray

namespace Spmd

variable {α : Type} {heard : List Payload → Prop} {post : α → Prop}

/-! ### The next pause of one rank -/

theorem Always.of_done {p : Spmd α} {a : α} (h : Always heard post p)
    (hp : p.settle.2 = .done a) : post a := by
  induction p with
  | done b =>
    obtain rfl : b = a := Pause.done.inj hp
    exact h
  | log e next ih => exact ih h hp
  | exchange g q next ih => cases hp

theorem Always.of_waiting {p : Spmd α} {g : Nat} {q : Payload} {k : List Payload → Spmd α}
    (h : Always heard post p) (hp : p.settle.2 = .waiting g q k) {l : List Payload}
    (hl : heard l) : Always heard post (k l) := by
  induction p with
  | done b => cases hp
  | log e next ih => exact ih h hp
  | exchange g' q' next ih =>
    obtain ⟨-, -, rfl⟩ := Pause.waiting.inj hp
    exact h l hl

/-- `MayEnd heard a p` says that the program `p` of one rank ends with the result `a` if the rank is
given certain payloads in exchanges, of which `heard` holds. -/
def MayEnd (heard : List Payload → Prop) (a : α) : Spmd α → Prop
  | done b => b = a
  | log _ next => MayEnd heard a next
  | exchange _ _ next => ∃ ps, heard ps ∧ MayEnd heard a (next ps)

/-- What holds of all results holds of each of them. -/
theorem Always.of_mayEnd {p : Spmd α} {a : α} (h : Always heard post p) (ha : MayEnd heard a p) :
    post a := by
  induction p with
  | done b =>
    obtain rfl : b = a := ha
    exact h
  | log e next ih => exact ih h ha
  | exchange g q next ih =>
    obtain ⟨ps, hps, ha⟩ := ha
    exact ih ps (h ps hps) ha

theorem always_mayEnd (p : Spmd α) : Always heard (fun a => MayEnd heard a p) p := by
  induction p with
  | done a => rfl
  | log e next ih => exact ih
  | exchange g q next ih =>
    exact fun ps hps => (ih ps).imp (fun _ h => h) fun a ha => ⟨ps, hps, ha⟩

/-- Where a program pauses of which the result is still to be put to use. -/
theorem settle_bind_done {β : Type} (p : Spmd α) (f : α → β) :
    (p >>= fun a => done (f a)).settle.2 =
      match p.settle.2 with
      | .done a => .done (f a)
      | .waiting g q k => .waiting g q fun l => k l >>= fun a => done (f a) := by
  induction p with
  | done a => rfl
  | log e next ih => exact ih
  | exchange g q next ih => rfl

/-! ### Groups -/

variable {n : Nat}

/-- `Ensures post ps` says that a rank `r` of the group of programs `ps` that gets through has a
result of which `post r` holds, also if other ranks are stuck. -/
inductive Ensures (post : Fin n → α → Prop) : (Fin n → Spmd α) → Prop where
  | intro {ps : Fin n → Spmd α} (hdone : ∀ r a, (ps r).settle.2 = .done a → post r a)
      (hmeet : ∀ (g : Nat) (q : Fin n → Payload) (k : Fin n → List Payload → Spmd α),
        (∀ r, (ps r).settle.2 = .waiting g (q r) (k r)) →
          Ensures post fun r => k r (List.ofFn q)) : Ensures post ps

/-- **What each rank ensures on its own**, the group ensures. -/
theorem Ensures.of_always [NeZero n] {post : Fin n → α → Prop} {ps : Fin n → Spmd α}
    (h : ∀ r, Always (fun l => l.length = n) (post r) (ps r)) : Ensures post ps := by
  -- by induction on what rank 0 still has to do
  have hall : ∀ (p : Spmd α) (ps : Fin n → Spmd α), (ps 0).settle.2 = p.settle.2 →
      (∀ r, Always (fun l => l.length = n) (post r) (ps r)) → Ensures post ps := by
    intro p
    induction p with
    | done a =>
      intro ps h0 hps
      refine .intro (fun r b hb => (hps r).of_done hb) fun g q k hk => ?_
      cases h0.symm.trans (hk 0)
    | log e next ih => exact fun ps h0 hps => ih ps h0 hps
    | exchange g q next ih =>
      intro ps h0 hps
      refine .intro (fun r b hb => (hps r).of_done hb) fun g' q' k hk => ?_
      obtain ⟨-, -, hnext⟩ := Pause.waiting.inj (h0.symm.trans (hk 0))
      refine ih (List.ofFn q') _ (by rw [hnext]) fun r => ?_
      exact (hps r).of_waiting (hk r) List.length_ofFn
  exact hall (ps 0) ps rfl h

/-- The results of a group, put to use. -/
theorem Ensures.map {β : Type} {post : Fin n → α → Prop} {post' : Fin n → β → Prop}
    {ps : Fin n → Spmd α} (h : Ensures post ps) {f : Fin n → α → β}
    (hf : ∀ r a, post r a → post' r (f r a)) :
    Ensures post' fun r => ps r >>= fun a => done (f r a) := by
  -- each meeting of the mapped programs is one of the programs
  induction h with
  | @intro ps hdone hmeet ih =>
    refine .intro (fun r b hb => ?_) fun g q k hk => ?_
    · rw [settle_bind_done] at hb
      cases hp : (ps r).settle.2 with
      | done a =>
        rw [hp] at hb
        obtain rfl := Pause.done.inj hb
        exact hf r a (hdone r a hp)
      | waiting g q next =>
        rw [hp] at hb
        cases hb
    -- the step that is added never waits, so a rank waits where its program waits
    · have hnext : ∀ r, ∃ next, (ps r).settle.2 = .waiting g (q r) next ∧
          (fun l => next l >>= fun a => done (f r a)) = k r := by
        intro r
        have hr := hk r
        rw [settle_bind_done] at hr
        cases hp : (ps r).settle.2 with
        | done a =>
          rw [hp] at hr
          cases hr
        | waiting g' q' next =>
          rw [hp] at hr
          obtain ⟨rfl, rfl, hk⟩ := Pause.waiting.inj hr
          exact ⟨next, rfl, hk⟩
      choose next hp hkeq using hnext
      obtain rfl : (fun r l => next r l >>= fun a => done (f r a)) = k := funext hkeq
      exact ih g q next hp

/-! ### Groups that get through -/

theorem mapM_ofFn_eq_some {γ δ : Type} {f : γ → Option δ} {c : Fin n → γ} {l : List δ}
    (h : (List.ofFn c).mapM f = some l) :
    ∃ v : Fin n → δ, l = List.ofFn v ∧ ∀ i, f (c i) = some (v i) := by
  induction n generalizing l with
  | zero =>
    obtain rfl : [] = l := by simpa using h
    exact ⟨Fin.elim0, rfl, fun i => i.elim0⟩
  | succ n ih =>
    rw [List.ofFn_succ, List.mapM_cons] at h
    cases hf : f (c 0) with
    | none =>
      rw [hf] at h
      cases h
    | some v₀ =>
      cases hrest : (List.ofFn fun i : Fin n => c i.succ).mapM f with
      | none =>
        rw [hf, hrest] at h
        cases h
      | some l' =>
        rw [hf, hrest] at h
        obtain rfl : v₀ :: l' = l := Option.some.inj h
        obtain ⟨v, rfl, hv⟩ := ih hrest
        refine ⟨Fin.cons v₀ v, by rw [List.ofFn_succ]; rfl, fun i => ?_⟩
        refine i.cases hf fun j => ?_
        exact hv j

/-- Where the ranks of a group that gets through have paused: all of them are through, or all of
them wait in an exchange of one group. -/
theorem lockstep_pauses {m : Nat} {t : List Event} {p : Spmd α} {c : Fin m → List Event × Spmd α}
    {l : List (List Event × α)} (h : lockstep t p (List.ofFn c) = some l) :
    (∃ (a : List Event × α) (b : Fin m → List Event × α), p.settle.2 = .done a.2 ∧
      (∀ i, (c i).2.settle.2 = .done (b i).2) ∧ l = a :: List.ofFn b) ∨
    ∃ (g : Nat) (q : Payload) (k : List Payload → Spmd α) (u : Fin m → List Event)
      (v : Fin m → Payload) (w : Fin m → List Payload → Spmd α) (t' : List Event),
      p.settle.2 = .waiting g q k ∧ (∀ i, (c i).2.settle.2 = .waiting g (v i) (w i)) ∧
      lockstep t' (k (q :: List.ofFn v)) (List.ofFn fun i => (u i, w i (q :: List.ofFn v)))
        = some l := by
  -- the first rank leads: the others have to stand where it stands
  induction p generalizing t with
  | done a =>
    simp only [lockstep, Option.bind_eq_bind, Option.bind_eq_some_iff, Option.pure_def,
      Option.some.injEq] at h
    obtain ⟨rest, hrest, rfl⟩ := h
    obtain ⟨b, rfl, hb⟩ := mapM_ofFn_eq_some hrest
    refine .inl ⟨(t, a), b, rfl, fun i => ?_, rfl⟩
    have := hb i
    unfold finished? at this
    split at this
    · next hs => rw [hs, ← Option.some.inj this]
    · cases this
  | log e next ih => exact ih h
  | exchange g q next ih =>
    simp only [lockstep, Option.bind_eq_bind, Option.bind_eq_some_iff] at h
    obtain ⟨met, hmet, h⟩ := h
    obtain ⟨v, rfl, hv⟩ := mapM_ofFn_eq_some hmet
    refine .inr ⟨g, q, next, fun i => (v i).1, fun i => (v i).2.1, fun i => (v i).2.2, t, rfl,
      fun i => ?_, ?_⟩
    · have := hv i
      unfold waiting? at this
      split at this
      · next hs =>
        split at this
        · next hg =>
          have hw := Option.some.inj this
          simp only [← hw, hs, hg]
        · cases this
      · cases this
    · simpa only [List.map_ofFn, Function.comp_def] using h

/-- **What a group ensures holds of its results** if it gets through. -/
theorem Ensures.of_runs [NeZero n] {post : Fin n → α → Prop} {ps : Fin n → Spmd α}
    {rs : Fin n → List Event × α} (h : Ensures post ps) (hruns : Runs ps rs) (r : Fin n) :
    post r (rs r).2 := by
  obtain ⟨m, rfl⟩ := Nat.exists_eq_succ_of_ne_zero (NeZero.ne n)
  -- the same for ranks that have noted some events before
  have hall : ∀ (t : List Event) (u : Fin m → List Event),
      lockstep t (ps 0) (List.ofFn fun i => (u i, ps i.succ)) = some (List.ofFn rs) →
      ∀ r, post r (rs r).2 := by
    clear hruns
    induction h with
    | intro hdone hmeet ih =>
      intro t u hrun r
      rcases lockstep_pauses hrun with ⟨a, b, ha, hb, hl⟩ | ⟨g, q, k, u', v, w, t', hq, hv, hrun⟩
      · have hrs : rs = Fin.cons a b := by
          refine List.ofFn_injective (hl.trans ?_)
          rw [List.ofFn_succ]
          rfl
        subst hrs
        refine Fin.cases ?_ (fun i => ?_) r
        · exact hdone 0 _ ha
        · exact hdone i.succ _ (hb i)
      · have hofFn : List.ofFn (Fin.cons q v : Fin (m + 1) → Payload) = q :: List.ofFn v := by
          rw [List.ofFn_succ]
          rfl
        refine ih g (Fin.cons q v) (Fin.cons k w) (fun r => ?_) t' u' ?_ r
        · refine Fin.cases ?_ (fun i => ?_) r
          · exact hq
          · exact hv i
        · rw [hofFn]
          exact hrun
  refine hall [] (fun _ => []) ?_ r
  have hrun : run (List.ofFn ps) = some (List.ofFn rs) := hruns
  rw [List.ofFn_succ (f := ps), run, List.map_ofFn] at hrun
  exact hrun

/-- A rank of a group that gets through has been told a payload of each rank. -/
theorem MayEnd.of_runs [NeZero n] {ps : Fin n → Spmd α} {rs : Fin n → List Event × α}
    (hruns : Runs ps rs) (r : Fin n) : MayEnd (fun l => l.length = n) (rs r).2 (ps r) :=
  (Ensures.of_always fun r => always_mayEnd (ps r)).of_runs hruns r

end Spmd

end SpmdArray
