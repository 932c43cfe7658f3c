import Mathlib.Algebra.Ring.Nat
import Mathlib.Data.List.OfFn
import SpmdArray.Spmd

/-!
# Running a group rank by rank

`Spmd.run` drives the first rank of a group and lets the others catch up at each
exchange.  Here the same runs are described rank by rank: what the ranks log, when they
meet, and how a run goes on with the results of another one.

## Main definitions

* `Spmd.Runs ps rs` — the group of programs `ps` runs to completion, and leaves rank `r`
  with the events and the result `rs r`.
* `Attempt.Runs` — the same for programs that may fail.
* `Spmd.Always heard post p` — what the program of one rank ends with, whatever it hears from the
  others.

## Main results

* `Spmd.Runs.done`, `Spmd.Runs.log`, `Spmd.Runs.exchange`, `Spmd.Runs.bind` — a run is put
  together step by step.
* `Attempt.Runs.bind`, `Attempt.Runs.bind_error` — the same for attempts.
-/

namespace SpmdArray

namespace Spmd

variable {α β : Type}

/-! ### What the first rank sees of the others -/

/-- Where a rank stands that has noted some events: all its events up to its next pause,
and the pause. -/
def stand (c : List Event × Spmd α) : List Event × Pause α :=
  (c.1 ++ c.2.settle.1, c.2.settle.2)

/-- The outcome of a stand that is the end of a program. -/
def ended? (s : List Event × Pause α) : Option (List Event × α) :=
  match s with
  | (t, .done a) => some (t, a)
  | (_, .waiting _ _ _) => none

/-- The payload and the rest of a stand in an exchange of the group `g`. -/
def meets? (g : Nat) (s : List Event × Pause α) :
    Option (List Event × Payload × (List Payload → Spmd α)) :=
  match s with
  | (t, .waiting g' p next) => if g' = g then some (t, p, next) else none
  | (_, .done _) => none

theorem finished?_eq (t : List Event) (p : Spmd α) : finished? t p = ended? (stand (t, p)) := by
  unfold finished? ended? stand
  rcases p.settle with ⟨es, a | ⟨g, q, next⟩⟩ <;> rfl

theorem waiting?_eq (g : Nat) (t : List Event) (p : Spmd α) :
    waiting? g t p = meets? g (stand (t, p)) := by
  unfold waiting? meets? stand
  rcases p.settle with ⟨es, a | ⟨g', q, next⟩⟩ <;> rfl

theorem mapM_finished? (cs : List (List Event × Spmd α)) :
    cs.mapM (fun (u, q) => finished? u q) = (cs.map stand).mapM ended? := by
  rw [List.mapM_map]
  exact congrArg (fun f => cs.mapM f) (funext fun c => finished?_eq c.1 c.2)

theorem mapM_waiting? (g : Nat) (cs : List (List Event × Spmd α)) :
    cs.mapM (fun (u, q) => waiting? g u q) = (cs.map stand).mapM (meets? g) := by
  rw [List.mapM_map]
  exact congrArg (fun f => cs.mapM f) (funext fun c => waiting?_eq g c.1 c.2)

/-- A run depends on the other ranks only through where they stand. -/
theorem lockstep_congr {t : List Event} {p : Spmd α} {cs ds : List (List Event × Spmd α)}
    (h : cs.map stand = ds.map stand) : lockstep t p cs = lockstep t p ds := by
  induction p generalizing t cs ds with
  | done a => simp only [lockstep, mapM_finished?, h]
  | log e next ih => simp only [lockstep]; exact ih h
  | exchange g x next ih => simp only [lockstep, mapM_waiting?, h]

/-! ### Going on with the results of a run -/

/-- A rank that has noted the events `k.1` before its program, and goes on with `k.2`
after it. -/
def extend (c : List Event × Spmd α) (k : List Event × (α → Spmd β)) : List Event × Spmd β :=
  (k.1 ++ c.1, c.2.bind k.2)

/-- What is left to run of such a rank when its program is through. -/
def resume (r : List Event × α) (k : List Event × (α → Spmd β)) : List Event × Spmd β :=
  (k.1 ++ r.1, k.2 r.2)

theorem settle_bind (p : Spmd α) (k : α → Spmd β) :
    (p.bind k).settle = match p.settle with
      | (es, .done a) => (es ++ (k a).settle.1, (k a).settle.2)
      | (es, .waiting g x next) => (es, .waiting g x fun ps => (next ps).bind k) := by
  induction p with
  | done a => rfl
  | log e next ih =>
    rw [bind, settle, ih, settle]
    rcases next.settle with ⟨es, a | ⟨g, x, n⟩⟩ <;> rfl
  | exchange g x next ih => rfl

theorem stand_extend_of_ended {c : List Event × Spmd α} {r : List Event × α}
    (h : ended? (stand c) = some r) (k : List Event × (α → Spmd β)) :
    stand (extend c k) = stand (resume r k) := by
  unfold ended? stand at h
  rw [stand, extend, settle_bind]
  rcases hs : c.2.settle with ⟨es, a | ⟨g, x, next⟩⟩ <;> rw [hs] at h
  · obtain rfl := Option.some.inj h
    simp [stand, resume]
  · cases h

/-- What a rank in an exchange becomes when it is extended. -/
def extendMet (m : List Event × Payload × (List Payload → Spmd α))
    (k : List Event × (α → Spmd β)) : List Event × Payload × (List Payload → Spmd β) :=
  (k.1 ++ m.1, m.2.1, fun ps => (m.2.2 ps).bind k.2)

theorem meets?_extend {c : List Event × Spmd α} {g : Nat}
    {m : List Event × Payload × (List Payload → Spmd α)} (h : meets? g (stand c) = some m)
    (k : List Event × (α → Spmd β)) :
    meets? g (stand (extend c k)) = some (extendMet m k) := by
  unfold meets? stand at h
  unfold meets?
  rw [stand, extend, settle_bind]
  rcases hs : c.2.settle with ⟨es, a | ⟨g', x, next⟩⟩ <;> rw [hs] at h
  · cases h
  · by_cases hg : g' = g
    · simp only [hg, if_true, Option.some.injEq] at h ⊢
      rw [← h, extendMet, List.append_assoc]
    · simp [hg] at h

theorem map_stand_extend {cs : List (List Event × Spmd α)} {rest : List (List Event × α)}
    (h : (cs.map stand).mapM ended? = some rest) (ks : List (List Event × (α → Spmd β))) :
    (List.zipWith extend cs ks).map stand = (List.zipWith resume rest ks).map stand := by
  induction cs generalizing rest ks with
  | nil =>
    obtain rfl : [] = rest := by simpa using h
    rfl
  | cons c cs ih =>
    simp only [List.map_cons, List.mapM_cons, Option.bind_eq_bind, Option.bind_eq_some_iff,
      Option.pure_def, Option.some.injEq] at h
    obtain ⟨r, hr, rest', hrest, rfl⟩ := h
    cases ks with
    | nil => rfl
    | cons k ks =>
      simp only [List.zipWith_cons_cons, List.map_cons, stand_extend_of_ended hr k, ih hrest ks]

theorem mapM_meets?_extend {g : Nat} {cs : List (List Event × Spmd α)}
    {met : List (List Event × Payload × (List Payload → Spmd α))}
    (h : (cs.map stand).mapM (meets? g) = some met) (ks : List (List Event × (α → Spmd β))) :
    ((List.zipWith extend cs ks).map stand).mapM (meets? g)
      = some (List.zipWith extendMet met ks) := by
  induction cs generalizing met ks with
  | nil =>
    obtain rfl : [] = met := by simpa using h
    rfl
  | cons c cs ih =>
    simp only [List.map_cons, List.mapM_cons, Option.bind_eq_bind, Option.bind_eq_some_iff,
      Option.pure_def, Option.some.injEq] at h
    obtain ⟨m, hm, met', hmet, rfl⟩ := h
    cases ks with
    | nil => rfl
    | cons k ks =>
      simp only [List.zipWith_cons_cons, List.map_cons, List.mapM_cons, meets?_extend hm k,
        ih hmet ks]
      rfl

theorem length_of_mapM_eq_some {γ δ : Type} {f : γ → Option δ} {xs : List γ} {ys : List δ}
    (h : xs.mapM f = some ys) : ys.length = xs.length := by
  induction xs generalizing ys with
  | nil =>
    obtain rfl : [] = ys := by simpa using h
    rfl
  | cons x xs ih =>
    simp only [List.mapM_cons, Option.bind_eq_bind, Option.bind_eq_some_iff, Option.pure_def,
      Option.some.injEq] at h
    obtain ⟨y, -, ys', hys, rfl⟩ := h
    rw [List.length_cons, List.length_cons, ih hys]

/-- What follows an exchange changes nothing about what the ranks contribute to it. -/
theorem map_payload_extendMet {met : List (List Event × Payload × (List Payload → Spmd α))}
    {ks : List (List Event × (α → Spmd β))} (h : ks.length = met.length) :
    (List.zipWith extendMet met ks).map (fun (_, q, _) => q) = met.map fun (_, q, _) => q := by
  rw [List.map_zipWith]
  apply List.ext_getElem
  · simp [h]
  · intro i h₁ h₂
    simp [extendMet]

/-- **A group goes on with the results of its first part.** -/
theorem lockstep_bind {t : List Event} {p : Spmd α} {cs : List (List Event × Spmd α)}
    {r : List Event × α} {rest : List (List Event × α)}
    (h : lockstep t p cs = some (r :: rest)) (k : List Event × (α → Spmd β))
    (ks : List (List Event × (α → Spmd β))) (hks : ks.length = cs.length) :
    lockstep (k.1 ++ t) (p.bind k.2) (List.zipWith extend cs ks)
      = lockstep (k.1 ++ r.1) (k.2 r.2) (List.zipWith resume rest ks) := by
  -- the continuations of all ranks wait behind the first program until it is done
  induction p generalizing t cs with
  | done a =>
    simp only [lockstep, mapM_finished?, Option.bind_eq_bind, Option.bind_eq_some_iff,
      Option.pure_def, Option.some.injEq, List.cons.injEq] at h
    obtain ⟨rest', hrest, rfl, rfl⟩ := h
    exact lockstep_congr (map_stand_extend hrest ks)
  | log e next ih =>
    simp only [lockstep] at h
    simp only [bind, lockstep, List.append_assoc]
    exact ih h hks
  | exchange g x next ih =>
    simp only [lockstep, mapM_waiting?, Option.bind_eq_bind, Option.bind_eq_some_iff] at h
    obtain ⟨met, hmet, hrun⟩ := h
    have hlen : ks.length = met.length := by
      rw [hks, length_of_mapM_eq_some hmet, List.length_map]
    simp only [bind, lockstep, mapM_waiting?, mapM_meets?_extend hmet, Option.bind_eq_bind,
      Option.bind_some, map_payload_extendMet hlen]
    rw [← ih _ hrun (by simpa using hlen)]
    congr 1
    rw [List.map_zipWith, List.zipWith_map_left]
    rfl

theorem lockstep_done (t : List Event) (a : α) (rest : List (List Event × α)) :
    lockstep t (done a) (rest.map fun r => (r.1, done r.2)) = some ((t, a) :: rest) := by
  have hrest : (rest.map fun r => (r.1, done r.2)).mapM (fun (u, q) => finished? u q)
      = some rest := by
    induction rest with
    | nil => rfl
    | cons r rest ih =>
      simp only [List.map_cons, List.mapM_cons, ih]
      simp [finished?, settle]
  rw [lockstep, hrest]
  rfl

theorem mapM_waiting?_exchange (g : Nat) (ms : List (Payload × (List Payload → Spmd α))) :
    (ms.map fun m => (([] : List Event), exchange g m.1 m.2)).mapM
        (fun (u, q) => waiting? g u q)
      = some (ms.map fun m => ([], m.1, m.2)) := by
  induction ms with
  | nil => rfl
  | cons m ms ih =>
    simp only [List.map_cons, List.mapM_cons, ih]
    simp [waiting?, settle]

/-! ### Runs, rank by rank -/

variable {n : Nat}

/-- `Runs ps rs` says that the group of programs `ps` runs to completion, and leaves rank
`r` with the events and the result `rs r`. -/
def Runs (ps : Fin n → Spmd α) (rs : Fin n → List Event × α) : Prop :=
  run (List.ofFn ps) = some (List.ofFn rs)

theorem zipWith_ofFn {γ δ ε : Type} (f : γ → δ → ε) (xs : Fin n → γ) (ys : Fin n → δ) :
    List.zipWith f (List.ofFn xs) (List.ofFn ys) = List.ofFn fun i => f (xs i) (ys i) := by
  apply List.ext_getElem
  · simp
  · intro i h₁ h₂
    simp

namespace Runs

theorem done (a : Fin n → α) : Runs (fun r => .done (a r)) fun r => ([], a r) := by
  have h := run_map_done (List.ofFn a)
  rw [List.map_ofFn, List.map_ofFn] at h
  exact h

/-- A run has one outcome. -/
theorem unique {ps : Fin n → Spmd α} {rs us : Fin n → List Event × α} (h : Runs ps rs)
    (h' : Runs ps us) : rs = us :=
  List.ofFn_injective (Option.some.inj (h.symm.trans h'))

/-- **Runs in sequence.** -/
theorem bind {ps : Fin n → Spmd α} {rs : Fin n → List Event × α} {k : Fin n → α → Spmd β}
    {us : Fin n → List Event × β} (hp : Runs ps rs) (hk : Runs (fun r => k r (rs r).2) us) :
    Runs (fun r => (ps r).bind (k r)) fun r => ((rs r).1 ++ (us r).1, (us r).2) := by
  cases n with
  | zero => simp [Runs, run]
  | succ m =>
    unfold Runs run at hp hk ⊢
    simp only [List.ofFn_succ, List.map_ofFn] at hp hk ⊢
    -- first part: no rank has noted anything yet
    have h₁ := lockstep_bind hp ([], k 0) (List.ofFn fun i : Fin m => ([], k i.succ))
      (by simp)
    -- second part: every rank has noted the events of the first part
    have h₂ := lockstep_bind hk ((rs 0).1, Spmd.done)
      (List.ofFn fun i : Fin m => ((rs i.succ).1, Spmd.done)) (by simp)
    simp only [zipWith_ofFn, extend, resume, Function.comp_apply, bind_done, List.nil_append,
      List.append_nil] at h₁ h₂
    have h₃ := lockstep_done ((rs 0).1 ++ (us 0).1) (us 0).2
      (List.ofFn fun i : Fin m => ((rs i.succ).1 ++ (us i.succ).1, (us i.succ).2))
    rw [List.map_ofFn] at h₃
    exact h₁.trans (h₂.trans h₃)

theorem log {ps : Fin n → Spmd α} {rs : Fin n → List Event × α} (e : Fin n → Event)
    (h : Runs ps rs) : Runs (fun r => .log (e r) (ps r)) fun r => (e r :: (rs r).1, (rs r).2) := by
  have hnote : Runs (fun r => note (e r)) fun r => ([e r], ()) := by
    cases n with
    | zero => simp [Runs, run]
    | succ m =>
      unfold Runs run note
      simp only [List.ofFn_succ, List.map_ofFn]
      rw [lockstep]
      have hdone := lockstep_done [e 0] () (List.ofFn fun i : Fin m => ([e i.succ], ()))
      refine (lockstep_congr ?_).trans hdone
      simp only [List.map_ofFn]
      rfl
  exact hnote.bind (k := fun r _ => ps r) h

/-- **All ranks meet in an exchange** and go on with the payloads of all of them. -/
theorem exchange (g : Nat) (x : Fin n → Payload) {k : Fin n → List Payload → Spmd α}
    {rs : Fin n → List Event × α} (h : Runs (fun r => k r (List.ofFn x)) rs) :
    Runs (fun r => .exchange g (x r) (k r)) rs := by
  cases n with
  | zero => simp [Runs, run] at h ⊢
  | succ m =>
    unfold Runs run at h ⊢
    simp only [List.ofFn_succ, List.map_ofFn] at h ⊢
    have hmeet := mapM_waiting?_exchange g (List.ofFn fun i : Fin m => (x i.succ, k i.succ))
    simp only [List.map_ofFn, Function.comp_def] at h hmeet ⊢
    rw [lockstep, hmeet]
    simp only [Option.bind_eq_bind, Option.bind_some, List.map_ofFn, Function.comp_def]
    exact h

end Runs

end Spmd

namespace Spmd

variable {α β : Type} {heard : List Payload → Prop} {mid : α → Prop} {post : β → Prop}

/-- `Always heard post p` says that the program `p` of one rank ends with a result for which `post`
holds, whatever payloads the rank is given in exchanges, as long as `heard` holds of them. -/
def Always (heard : List Payload → Prop) (post : α → Prop) : Spmd α → Prop
  | done a => post a
  | log _ next => Always heard post next
  | exchange _ _ next => ∀ ps, heard ps → Always heard post (next ps)

/-- Programs in sequence. -/
theorem Always.bind {p : Spmd α} {k : α → Spmd β} (hp : Always heard mid p)
    (hk : ∀ a, mid a → Always heard post (k a)) : Always heard post (p >>= k) := by
  induction p with
  | done a => exact hk a hp
  | log e next ih => exact ih hp
  | exchange g q next ih => exact fun ps hps => ih ps (hp ps hps)

/-- What holds of all results still holds if less is asked, or less is heard. -/
theorem Always.imp {heard' : List Payload → Prop} {post' : α → Prop} {p : Spmd α}
    (h : Always heard mid p) (hheard : ∀ ps, heard' ps → heard ps) (hpost : ∀ a, mid a → post' a) :
    Always heard' post' p := by
  induction p with
  | done a => exact hpost a h
  | log e next ih => exact ih h
  | exchange g q next ih => exact fun ps hps => ih ps (h ps (hheard ps hps))

/-- What a program ends with does not matter if it is not used. -/
theorem always_true (p : Spmd α) : Always heard (fun _ => True) p := by
  induction p with
  | done a => trivial
  | log e next ih => exact ih
  | exchange g q next ih => exact fun ps _ => ih ps

end Spmd

namespace Attempt

variable {α β : Type} {n : Nat}

/-- Outcomes in sequence that need no other rank. -/
theorem mk_bind (x : Except Failure α) (k : α → Except Failure β) :
    (ExceptT.mk (pure (x >>= k)) : Attempt β)
      = (liftM x : Attempt α) >>= fun a => ExceptT.mk (pure (k a)) := by
  cases x <;> rfl

/-- `Runs ps rs` says that the group of attempts `ps` runs to completion, and leaves rank
`r` with the events and the outcome `rs r`. -/
def Runs (ps : Fin n → Attempt α) (rs : Fin n → List Event × Except Failure α) : Prop :=
  Spmd.Runs (fun r => (ps r).run) rs

namespace Runs

/-- Outcomes that need no other rank. -/
theorem ofExcept (x : Fin n → Except Failure α) :
    Runs (fun r => ExceptT.mk (pure (x r))) fun r => ([], x r) :=
  Spmd.Runs.done x

theorem pure (a : Fin n → α) : Runs (fun r => Pure.pure (a r)) fun r => ([], .ok (a r)) :=
  Spmd.Runs.done fun r => (Except.ok (a r) : Except Failure α)

/-- Other names for the outcomes. -/
theorem congr {ps : Fin n → Attempt α} {t : Fin n → List Event} {x y : Fin n → Except Failure α}
    (h : Runs ps fun r => (t r, x r)) (hxy : ∀ r, x r = y r) : Runs ps fun r => (t r, y r) := by
  rwa [← funext hxy]

/-- A program that cannot fail, as an attempt. -/
theorem lift {ps : Fin n → Spmd α} {rs : Fin n → List Event × α} (h : Spmd.Runs ps rs) :
    Runs (fun r => ExceptT.lift (ps r)) fun r => ((rs r).1, .ok (rs r).2) := by
  have hb := h.bind (k := fun _ a => .done (Except.ok a : Except Failure α))
    (Spmd.Runs.done fun r => Except.ok (rs r).2)
  simp only [List.append_nil] at hb
  exact hb

/-- **Attempts in sequence**, of which the first succeeds on every rank. -/
theorem bind {ps : Fin n → Attempt α} {t : Fin n → List Event} {a : Fin n → α}
    {k : Fin n → α → Attempt β} {us : Fin n → List Event × Except Failure β}
    (hp : Runs ps fun r => (t r, .ok (a r))) (hk : Runs (fun r => k r (a r)) us) :
    Runs (fun r => ps r >>= k r) fun r => (t r ++ (us r).1, (us r).2) :=
  Spmd.Runs.bind (k := fun r => ExceptT.bindCont (k r)) hp hk

/-- Something worth counting happens first. -/
theorem note (e : Fin n → Event) {ps : Fin n → Attempt α}
    {us : Fin n → List Event × Except Failure α} (h : Runs ps us) :
    Runs (fun r => ExceptT.lift (Spmd.note (e r)) >>= fun _ => ps r)
      fun r => (e r :: (us r).1, (us r).2) :=
  (lift ((Spmd.Runs.done fun _ => ()).log e)).bind (k := fun r _ => ps r) h

/-- **Attempts in sequence**, of which the first fails on every rank. -/
theorem bind_error {ps : Fin n → Attempt α} {t : Fin n → List Event} {e : Fin n → Failure}
    (k : Fin n → α → Attempt β) (hp : Runs ps fun r => (t r, .error (e r))) :
    Runs (fun r => ps r >>= k r) fun r => (t r, .error (e r)) := by
  have hb := Spmd.Runs.bind (k := fun r => ExceptT.bindCont (k r)) hp
    (Spmd.Runs.done fun r => Except.error (e r))
  simp only [List.append_nil] at hb
  exact hb

end Runs

end Attempt

end SpmdArray
