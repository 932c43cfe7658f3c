import SpmdArray.Proofs.Lockstep
import SpmdArray.Spmd.Collective

/-!
# Collectives of a whole group

What the collectives do to the buffers of all ranks when all of them take part.

## Main definitions

* `Comm.Spans c` — `c` lists the communicators of all ranks of a group.
* `Comm.foldRanks` — the buffers of all ranks, folded in rank order.

## Main results

* `Comm.allReduce_runs` — equally long buffers of one type are folded on every rank.
* `Comm.broadcast_runs` — every rank is left with the buffer of rank 0.
-/

namespace SpmdArray

namespace Comm

variable {n : Nat}

/-- `Spans c` says that `c` lists the communicators of all ranks of a group, which needs
no exchange if it has one rank. -/
def Spans (c : Fin n → Comm) : Prop :=
  (∃ g, ∀ r, c r = .member g r n) ∨ (n = 1 ∧ ∃ g, ∀ r, c r = .solo g)

namespace Spans

variable {c : Fin n → Comm}

theorem rank_eq (h : Spans c) (r : Fin n) : (c r).rank = r := by
  rcases h with ⟨g, hc⟩ | ⟨rfl, g, hc⟩
  · rw [hc]
    rfl
  · rw [hc, Fin.fin_one_eq_zero r]
    rfl

theorem size_eq (h : Spans c) (r : Fin n) : (c r).size = n := by
  rcases h with ⟨g, hc⟩ | ⟨rfl, g, hc⟩
  · rw [hc]
    rfl
  · rw [hc]
    rfl

theorem isDistributed_eq (h : Spans c) (r : Fin n) : (c r).isDistributed = decide (1 < n) := by
  rw [isDistributed, h.size_eq]

theorem chunk_eq (h : Spans c) (r : Fin n) (extent : Nat) :
    (c r).chunk extent = .balanced extent r n := by
  rw [chunk, h.rank_eq, h.size_eq]

/-- A group of more than one rank meets in exchanges. -/
theorem members (h : Spans c) (hn : 1 < n) : ∃ g, ∀ r, c r = .member g r n := by
  rcases h with h | ⟨rfl, -⟩
  · exact h
  · omega

end Spans

/-! ### All-reduce -/

/-- The lists of all ranks, folded element by element in rank order. -/
def foldRanks {d : DType} (op : Reducer) : List (List (Elem d)) → List (Elem d)
  | [] => []
  | x :: xs => xs.foldl (List.zipWith (Elem.fold op)) x

variable {d : DType} {op : Reducer}

theorem decode_ofBuffer (rank : Nat) (b : Buffer) :
    (Payload.ofBuffer b).decode rank b.dtype = .ok b := by
  rw [Payload.decode, Payload.ofBuffer, if_neg (fun h => h rfl), Buffer.ofBytes_toBytes]
  rfl

theorem combine_of_length_eq (hop : Buffer.supports op d = true) {xs ys : List (Elem d)}
    (h : xs.length = ys.length) :
    Buffer.combine ⟨d, xs⟩ ⟨d, ys⟩ op = ⟨.ok (), ⟨d, List.zipWith (Elem.fold op) xs ys⟩⟩ := by
  rw [Buffer.combine, show Buffer.as? d ⟨d, ys⟩ = some ys from Buffer.as?_self ⟨d, ys⟩]
  simp only [Buffer.length, h, ne_eq, not_true_eq_false, if_false, hop]
  rfl

theorem foldPayloads_eq (hop : Buffer.supports op d = true) (rank : Nat) (acc : List (Elem d))
    (xs : List (List (Elem d))) (h : ∀ x ∈ xs, x.length = acc.length) :
    foldPayloads op rank ⟨d, acc⟩ (xs.map fun x => .ofBuffer ⟨d, x⟩)
      = .ok ⟨d, xs.foldl (List.zipWith (Elem.fold op)) acc⟩ := by
  induction xs generalizing rank acc with
  | nil => rfl
  | cons x xs ih =>
    have hx : x.length = acc.length := h x List.mem_cons_self
    have hz : (List.zipWith (Elem.fold op) acc x).length = acc.length := by simp [hx]
    rw [List.map_cons, foldPayloads, decode_ofBuffer rank ⟨d, x⟩]
    show (do
      if x.length ≠ acc.length then Error.raise (.contributionLength rank x.length acc.length)
      let w := Buffer.combine ⟨d, acc⟩ ⟨d, x⟩ op
      w.result
      foldPayloads op (rank + 1) w.dest (xs.map fun x => .ofBuffer ⟨d, x⟩)) = _
    rw [if_neg (fun hne => hne hx), combine_of_length_eq hop hx.symm]
    exact ih (rank + 1) _ fun y hy => (h y (List.mem_cons_of_mem _ hy)).trans hz.symm

theorem length_foldRanks {l : Nat} {xs : List (List (Elem d))} (hne : xs ≠ [])
    (h : ∀ x ∈ xs, x.length = l) : (foldRanks op xs).length = l := by
  cases xs with
  | nil => exact absurd rfl hne
  | cons x xs =>
    have hx : x.length = l := h x List.mem_cons_self
    have hxs : ∀ y ∈ xs, y.length = l := fun y hy => h y (List.mem_cons_of_mem _ hy)
    clear h hne
    rw [foldRanks]
    induction xs generalizing x with
    | nil => exact hx
    | cons y xs ih =>
      have hy : y.length = l := hxs y List.mem_cons_self
      exact ih _ (by simp [hx, hy]) fun z hz => hxs z (List.mem_cons_of_mem _ hz)

/-- A group of ranks with equally long lists is left with one as long. -/
theorem length_foldRanks_ofFn [NeZero n] {l : Nat} {xs : Fin n → List (Elem d)}
    (h : ∀ r, (xs r).length = l) : (foldRanks op (List.ofFn xs)).length = l := by
  refine length_foldRanks (fun hnil => ?_) fun y hy => ?_
  · exact NeZero.ne n (List.ofFn_eq_nil_iff.mp hnil)
  · obtain ⟨r, rfl⟩ := List.mem_ofFn.mp hy
    exact h r

theorem combineAll_eq (hop : Buffer.supports op d = true) {b : List (Elem d)}
    {xs : List (List (Elem d))} (hne : xs ≠ []) (h : ∀ x ∈ xs, x.length = b.length) :
    combineAll op ⟨d, b⟩ (xs.map fun x => .ofBuffer ⟨d, x⟩) = .ok ⟨d, foldRanks op xs⟩ := by
  have hlen : (foldRanks op xs).length = b.length := length_foldRanks hne h
  -- the first payload starts the fold, and the others are folded into it in order
  cases xs with
  | nil => exact absurd rfl hne
  | cons x xs =>
    have hxs : ∀ y ∈ xs, y.length = x.length := fun y hy =>
      (h y (List.mem_cons_of_mem _ hy)).trans (h x List.mem_cons_self).symm
    unfold combineAll
    rw [show Buffer.supports op (Buffer.dtype ⟨d, b⟩) = true from hop, List.map_cons]
    show (do
      let first ← (Payload.ofBuffer ⟨d, x⟩).decode 0 d
      let acc ← foldPayloads op 1 first (xs.map fun x => .ofBuffer ⟨d, x⟩)
      if acc.length ≠ b.length then Error.raise (.combinedLength acc.length b.length)
      return acc) = _
    rw [decode_ofBuffer 0 ⟨d, x⟩]
    show (do
      let acc ← foldPayloads op 1 ⟨d, x⟩ (xs.map fun x => .ofBuffer ⟨d, x⟩)
      if acc.length ≠ b.length then Error.raise (.combinedLength acc.length b.length)
      return acc) = _
    rw [foldPayloads_eq hop 1 x xs hxs]
    show (do
      if (foldRanks op (x :: xs)).length ≠ b.length then
        Error.raise (.combinedLength (foldRanks op (x :: xs)).length b.length)
      return ⟨d, foldRanks op (x :: xs)⟩ : Except Failure Buffer) = _
    rw [if_neg (fun hne => hne hlen)]
    rfl

/-- The fold works on each position of its own. -/
theorem foldRanks_map {γ ρ : Type} (f : ρ → γ → Elem d) (l : List γ) (q : ρ) (rs : List ρ) :
    foldRanks op ((q :: rs).map fun r => l.map (f r))
      = l.map fun c => rs.foldl (fun acc r => Elem.fold op acc (f r c)) (f q c) := by
  have hacc : ∀ a : γ → Elem d,
      (rs.map fun r => l.map (f r)).foldl (List.zipWith (Elem.fold op)) (l.map a)
        = l.map fun c => rs.foldl (fun acc r => Elem.fold op acc (f r c)) (a c) := by
    induction rs with
    | nil => intro a; rfl
    | cons r rs ih =>
      intro a
      rw [List.map_cons, List.foldl_cons, List.zipWith_map, List.zipWith_self, ih]
      rfl
  exact hacc (f q)

/-- The conjunction of a truth value of each rank. -/
theorem foldRanks_all [NeZero n] (p : Fin n → Bool) :
    foldRanks (d := .bool) .all (List.ofFn fun r => [p r]) = [decide (∀ r, p r = true)] := by
  have hfold : ∀ (bs : List Bool) (a : Bool),
      bs.foldl (Elem.fold (d := .bool) .all) a = (a && bs.all id) := by
    intro bs
    induction bs with
    | nil => intro a; exact (Bool.and_true a).symm
    | cons b bs ih =>
      intro a
      rw [List.foldl_cons, ih, List.all_cons, id, ← Bool.and_assoc]
      congr 1
      revert a b
      decide
  have hmap := @foldRanks_map .bool .all Unit Bool (fun b _ => b) [()]
  obtain ⟨m, rfl⟩ := Nat.exists_eq_succ_of_ne_zero (NeZero.ne n)
  rw [List.ofFn_succ, show [p 0] :: List.ofFn (fun r : Fin m => [p r.succ])
    = (p 0 :: List.ofFn fun r : Fin m => p r.succ).map fun b => [()].map fun _ => b by
      simp [Function.comp_def], hmap]
  show [(List.ofFn fun r : Fin m => p r.succ).foldl (Elem.fold (d := .bool) .all) (p 0)] = _
  rw [hfold]
  congr 1
  rw [Bool.eq_iff_iff]
  simp [Fin.forall_fin_succ]

/-- A call on a buffer, for its result alone. -/
theorem leftBy_runs {call : Fin n → Spmd (InPlace Buffer Unit)} {t : Fin n → List Event}
    {w : Fin n → InPlace Buffer Unit} (h : Spmd.Runs call fun r => (t r, w r)) :
    Attempt.Runs (fun r => leftBy (call r))
      fun r => (t r, (w r).result.map fun _ => (w r).dest) := by
  have hrest : Attempt.Runs
      (fun r => (ExceptT.mk (pure (w r).result) >>= fun _ => pure (w r).dest : Attempt Buffer))
      fun r => ([], (w r).result.map fun _ => (w r).dest) := by
    have hdone : (fun r => (ExceptT.mk (pure (w r).result) >>= fun _ => pure (w r).dest :
        Attempt Buffer))
        = fun r => ExceptT.mk (pure ((w r).result.map fun _ => (w r).dest)) := by
      funext r
      rcases (w r).result with e | ⟨⟩ <;> rfl
    rw [hdone]
    exact Attempt.Runs.ofExcept _
  have hb := (Attempt.Runs.lift h).bind
    (k := fun _ v => ExceptT.mk (pure v.result) >>= fun _ => pure v.dest) hrest
  simp only [List.append_nil] at hb
  exact hb

/-- What a rank makes of the payloads of an all-reduce. -/
def afterAllReduce (op : Reducer) (own : Buffer) (ps : List Payload) :
    Spmd (InPlace Buffer Unit) :=
  match combineAll op own ps with
  | .ok acc => .done ⟨pure (), acc⟩
  | .error e => .done ⟨.error e, own⟩

theorem afterAllReduce_eq (hop : Buffer.supports op d = true) {l : Nat}
    {b : Fin n → List (Elem d)} (h : ∀ r, (b r).length = l) (r : Fin n) :
    afterAllReduce op ⟨d, b r⟩ (List.ofFn fun q => .ofBuffer ⟨d, b q⟩)
      = .done ⟨pure (), ⟨d, foldRanks op (List.ofFn b)⟩⟩ := by
  have hne : List.ofFn b ≠ [] := by
    intro h0
    have := List.ofFn_eq_nil_iff.mp h0
    have := r.isLt
    omega
  have hlen : ∀ x ∈ List.ofFn b, x.length = (b r).length := by
    intro x hx
    obtain ⟨q, rfl⟩ := List.mem_ofFn.mp hx
    rw [h, h]
  have hall := combineAll_eq hop hne hlen
  rw [List.map_ofFn] at hall
  simp only [Function.comp_def] at hall
  rw [afterAllReduce, hall]

/-- An all-reduce of a group in which every rank knows what to make of all payloads. -/
theorem allReduce_meets (g : Nat) (op : Reducer) {b : Fin n → Buffer}
    {w : Fin n → InPlace Buffer Unit}
    (h : ∀ r, afterAllReduce op (b r) (List.ofFn fun q => .ofBuffer (b q)) = .done (w r)) :
    Spmd.Runs (fun r => (member g r n).allReduce op (b r))
      fun r => ([.allReduce g (b r).dtype (b r).length op], w r) := by
  have hdone : Spmd.Runs (fun r => afterAllReduce op (b r)
      (List.ofFn fun q => .ofBuffer (b q))) fun r => ([], w r) := by
    simp only [h]
    exact Spmd.Runs.done w
  exact (hdone.exchange g _).log fun r => .allReduce g (b r).dtype (b r).length op

/-- **An all-reduce of equally long buffers of one type** leaves their fold in rank order
on every rank. -/
theorem allReduce_runs (hop : Buffer.supports op d = true) (g l : Nat)
    (b : Fin n → List (Elem d)) (h : ∀ r, (b r).length = l) :
    Attempt.Runs (fun r => leftBy ((member g r n).allReduce op ⟨d, b r⟩))
      fun _ => ([.allReduce g d l op], .ok ⟨d, foldRanks op (List.ofFn b)⟩) := by
  have hrun := allReduce_meets g op (b := fun r => ⟨d, b r⟩) (afterAllReduce_eq hop h)
  simp only [Buffer.length, h] at hrun
  exact leftBy_runs hrun

/-! ### Broadcast -/

/-- What a rank sends in a broadcast. -/
def sent (root r : Nat) (own : Buffer) : Payload :=
  if r = root then .ofBuffer own else ⟨own.dtype, []⟩

/-- What a rank makes of the payloads of a broadcast. -/
def afterBroadcast (root r : Nat) (own : Buffer) (ps : List Payload) :
    Spmd (InPlace Buffer Unit) :=
  if r = root then .done ⟨pure (), own⟩
  else match ps[root]? with
    | some p => .done (received root own p)
    | none => .done ⟨throw (.fault .outOfRange), own⟩

/-- A rank is left with what it makes of the root's buffer, and the root with its own. -/
theorem afterBroadcast_eq (root : Fin n) (b : Fin n → Buffer) (r : Fin n) :
    afterBroadcast root r (b r) (List.ofFn fun q : Fin n => sent root q (b q))
      = .done (if r = root then ⟨pure (), b root⟩
        else received root (b r) (.ofBuffer (b root))) := by
  have hroot : (List.ofFn fun q : Fin n => sent root q (b q))[(root : Nat)]?
      = some (.ofBuffer (b root)) := by
    rw [List.getElem?_ofFn, dif_pos root.isLt, sent, if_pos rfl]
  by_cases hr : r = root
  · subst hr
    rw [afterBroadcast, if_pos rfl, if_pos rfl]
  · have hval : ¬ (r : Nat) = root := fun h => hr (Fin.ext h)
    rw [afterBroadcast, if_neg hval, if_neg hr, hroot]

/-- **A broadcast of a whole group**: the root keeps its buffer, and every other rank looks
at the payload of the root. -/
theorem broadcast_meets (g : Nat) (root : Fin n) (b : Fin n → Buffer) :
    Spmd.Runs (fun r => (member g r n).broadcast root (b r)) fun r =>
      ([.broadcast g (b r).dtype (b r).length root],
        if r = root then ⟨pure (), b root⟩ else received root (b r) (.ofBuffer (b root))) := by
  have hdone : Spmd.Runs (fun r : Fin n => afterBroadcast root r (b r)
      (List.ofFn fun q : Fin n => sent root q (b q))) fun r => ([],
        if r = root then ⟨pure (), b root⟩ else received root (b r) (.ofBuffer (b root))) := by
    simp only [afterBroadcast_eq]
    exact Spmd.Runs.done _
  have hrun := (hdone.exchange g _).log fun r : Fin n =>
    .broadcast g (b r).dtype (b r).length root
  have hcall : (fun r : Fin n => (member g r n).broadcast root (b r)) = fun r : Fin n =>
      .log (.broadcast g (b r).dtype (b r).length root) (.exchange g (sent root r (b r))
        (afterBroadcast root r (b r))) := by
    funext r
    have hroot : ¬ (member g r n).size ≤ root := Nat.not_le.mpr root.isLt
    rw [broadcast, if_neg hroot]
    rfl
  rw [← hcall] at hrun
  exact hrun

theorem received_of_eq {root : Nat} {own sent : Buffer} (hd : sent.dtype = own.dtype)
    (hl : sent.length = own.length) :
    received root own (.ofBuffer sent) = ⟨pure (), sent⟩ := by
  rw [received, ← hd, decode_ofBuffer root sent]
  exact if_neg fun hne => hne hl

/-- **A broadcast of equally long buffers of one type** leaves the buffer of rank 0 on every
rank. -/
theorem broadcast_runs [NeZero n] (g l : Nat) (b : Fin n → Buffer) (hd : ∀ r, (b r).dtype = d)
    (hl : ∀ r, (b r).length = l) :
    Attempt.Runs (fun r => leftBy ((member g r n).broadcast 0 (b r)))
      fun _ => ([.broadcast g d l 0], .ok (b 0)) := by
  have hw : ∀ r : Fin n, (if r = 0 then ⟨pure (), b 0⟩
      else received (0 : Fin n) (b r) (.ofBuffer (b 0))) = ⟨pure (), b 0⟩ := by
    intro r
    rw [received_of_eq ((hd 0).trans (hd r).symm) ((hl 0).trans (hl r).symm), ite_self]
  have hrun := broadcast_meets g 0 b
  simp only [hw, hd, hl] at hrun
  exact leftBy_runs hrun

end Comm

end SpmdArray
