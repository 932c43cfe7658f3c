import SpmdArray.Proofs.Collectives

/-!
# Agreement of the collectives

The ranks check what they receive each on its own, in an order that starts from its own
buffer.  They come to the same verdict all the same: an all-reduce succeeds on every rank or
on none, and a broadcast reaches exactly the ranks whose buffers are like the root's.

## Main definitions

* `Buffer.Alike a b` — the buffers have one type and one length.
* `Comm.folded` — the buffers of all ranks, folded in rank order.
* `Comm.refusal` — the class of the error by which a rank refuses to combine buffers.

## Main results

* `Comm.combineAll_error` — a rank refuses payloads that are not all like its own buffer.
* `Comm.allReduce_alike`, `Comm.allReduce_unlike` — the verdict on an all-reduce.
* `Comm.broadcast_all` — the verdict on a broadcast.
* `Comm.run_allReduce_single`, `Comm.run_broadcast_single` — a group of one rank.
* `Comm.collectives_agree` — all of it together.
-/

namespace SpmdArray

/-- `Alike a b` says that the buffers `a` and `b` have one type and one length. -/
def Buffer.Alike (a b : Buffer) : Prop := a.dtype = b.dtype ∧ a.length = b.length

instance (a b : Buffer) : Decidable (Buffer.Alike a b) :=
  inferInstanceAs (Decidable (a.dtype = b.dtype ∧ a.length = b.length))

namespace Buffer.Alike

theorem symm {a b : Buffer} (h : Alike a b) : Alike b a := ⟨h.1.symm, h.2.symm⟩

theorem trans {a b c : Buffer} (hab : Alike a b) (hbc : Alike b c) : Alike a c :=
  ⟨hab.1.trans hbc.1, hab.2.trans hbc.2⟩

end Buffer.Alike

namespace Comm

open Buffer (Alike)

variable {op : Reducer} {own acc : Buffer} {bs : List Buffer}

/-! ### What a rank makes of the payloads -/

theorem decode_of_ne (rank : Nat) {b : Buffer} {d : DType} (h : b.dtype ≠ d) :
    (Payload.ofBuffer b).decode rank d = Error.raise (.unexpectedDType rank b.dtype d) := by
  rw [Payload.decode, Payload.ofBuffer, if_pos h]

/-- A buffer that is like the accumulator is folded in, and leaves one that is like it. -/
theorem combine_alike (hop : Buffer.supports op acc.dtype = true) {b : Buffer}
    (h : Alike b acc) :
    ∃ acc', acc.combine b op = ⟨.ok (), acc'⟩ ∧ Alike acc' acc := by
  obtain ⟨d, xs⟩ := acc
  obtain ⟨e, ys⟩ := b
  obtain ⟨hd, hl⟩ := h
  obtain rfl : e = d := hd
  have hl : ys.length = xs.length := hl
  refine ⟨_, combine_of_length_eq hop hl.symm, rfl, ?_⟩
  simp [Buffer.length, hl]

/-- One step of the fold, over a payload that matches the accumulator. -/
theorem foldPayloads_cons (rank : Nat) {b acc' : Buffer} (h : Alike b acc)
    (hcomb : acc.combine b op = ⟨.ok (), acc'⟩) :
    foldPayloads op rank acc ((b :: bs).map .ofBuffer)
      = foldPayloads op (rank + 1) acc' (bs.map .ofBuffer) := by
  rw [List.map_cons, foldPayloads, ← h.1, decode_ofBuffer]
  show (do
    if b.length ≠ acc.length then
      Error.raise (.contributionLength rank b.length acc.length)
    let w := acc.combine b op
    w.result
    foldPayloads op (rank + 1) w.dest (bs.map .ofBuffer) : Except Failure Buffer) = _
  rw [if_neg (fun hne => hne h.2), hcomb]
  rfl

/-- One step of the fold, over a payload that does not match the accumulator. -/
theorem foldPayloads_unlike (rank : Nat) {b : Buffer} (h : ¬ Alike b acc) :
    ∃ e : Error, e.kind = .communication ∧
      foldPayloads op rank acc ((b :: bs).map .ofBuffer) = .error (.error e) := by
  rw [List.map_cons, foldPayloads]
  by_cases hd : b.dtype = acc.dtype
  · have hl : b.length ≠ acc.length := fun hl => h ⟨hd, hl⟩
    refine ⟨.contributionLength rank b.length acc.length, rfl, ?_⟩
    rw [← hd, decode_ofBuffer]
    show (do
      if b.length ≠ acc.length then
        Error.raise (.contributionLength rank b.length acc.length)
      let w := acc.combine b op
      w.result
      foldPayloads op (rank + 1) w.dest (bs.map .ofBuffer) : Except Failure Buffer) = _
    rw [if_pos hl]
    rfl
  · refine ⟨.unexpectedDType rank b.dtype acc.dtype, rfl, ?_⟩
    rw [decode_of_ne rank hd]
    rfl

/-- The fold goes through over payloads that all match the accumulator, and leaves a buffer
that matches them too. -/
theorem foldPayloads_alike (hop : Buffer.supports op acc.dtype = true) (rank : Nat)
    (h : ∀ b ∈ bs, Alike b acc) :
    ∃ last, foldPayloads op rank acc (bs.map .ofBuffer) = .ok last ∧ Alike last acc := by
  induction bs generalizing rank acc with
  | nil => exact ⟨acc, rfl, rfl, rfl⟩
  | cons b bs ih =>
    have hb : Alike b acc := h b List.mem_cons_self
    obtain ⟨acc', hcomb, hacc⟩ := combine_alike hop hb
    have hop' : Buffer.supports op acc'.dtype = true := by rwa [hacc.1]
    have hrest : ∀ x ∈ bs, Alike x acc' := by
      intro x hx
      exact (h x (List.mem_cons_of_mem _ hx)).trans hacc.symm
    obtain ⟨last, hlast, hlike⟩ := ih hop' (rank + 1) hrest
    exact ⟨last, (foldPayloads_cons rank hb hcomb).trans hlast, hlike.trans hacc⟩

/-- The fold fails over payloads one of which does not match the accumulator: what was folded
in before still matches it, so the first such payload is refused. -/
theorem foldPayloads_error (hop : Buffer.supports op acc.dtype = true) (rank : Nat)
    (h : ∃ b ∈ bs, ¬ Alike b acc) :
    ∃ e : Error, e.kind = .communication ∧
      foldPayloads op rank acc (bs.map .ofBuffer) = .error (.error e) := by
  induction bs generalizing rank acc with
  | nil =>
    obtain ⟨b, hb, -⟩ := h
    cases hb
  | cons b bs ih =>
    by_cases hb : Alike b acc
    · obtain ⟨acc', hcomb, hacc⟩ := combine_alike hop hb
      have hop' : Buffer.supports op acc'.dtype = true := by rwa [hacc.1]
      obtain ⟨x, hx, hne⟩ := h
      have hx' : x ∈ bs := by
        rcases List.mem_cons.mp hx with rfl | hx
        · exact absurd hb hne
        · exact hx
      have hne' : ¬ Alike x acc' := fun hlike => hne (hlike.trans hacc)
      obtain ⟨e, hkind, he⟩ := ih hop' (rank + 1) ⟨x, hx', hne'⟩
      exact ⟨e, hkind, (foldPayloads_cons rank hb hcomb).trans he⟩
    · exact foldPayloads_unlike rank hb

/-- A rank that accepts the payload of the first rank folds the others into it. -/
theorem combineAll_cons (hop : Buffer.supports op own.dtype = true) {first : Buffer}
    (hd : first.dtype = own.dtype) :
    combineAll op own ((first :: bs).map .ofBuffer) = (do
      let last ← foldPayloads op 1 first (bs.map .ofBuffer)
      if last.length ≠ own.length then Error.raise (.combinedLength last.length own.length)
      return last) := by
  unfold combineAll
  rw [hop, List.map_cons, ← hd]
  show (do
    let acc ← (Payload.ofBuffer first).decode 0 first.dtype
    let last ← foldPayloads op 1 acc (bs.map .ofBuffer)
    if last.length ≠ own.length then Error.raise (.combinedLength last.length own.length)
    return last) = _
  rw [decode_ofBuffer]
  rfl

/-- A rank whose own buffer the reducer is not offered for looks at no payload. -/
theorem combineAll_of_unsupported (hop : Buffer.supports op own.dtype = false)
    (ps : List Payload) :
    combineAll op own ps = Error.raise (.unsupportedDType own.dtype op) := by
  unfold combineAll
  rw [hop]
  rfl

/-- A rank accepts only payloads of its own type from the first rank. -/
theorem combineAll_of_ne (hop : Buffer.supports op own.dtype = true) {first : Buffer}
    (hd : first.dtype ≠ own.dtype) : combineAll op own ((first :: bs).map .ofBuffer)
      = Error.raise (.unexpectedDType 0 first.dtype own.dtype) := by
  unfold combineAll
  rw [hop, List.map_cons]
  show (do
    let acc ← (Payload.ofBuffer first).decode 0 own.dtype
    let last ← foldPayloads op 1 acc (bs.map .ofBuffer)
    if last.length ≠ own.length then Error.raise (.combinedLength last.length own.length)
    return last) = _
  rw [decode_of_ne 0 hd]
  rfl

/-- The class of the error by which a rank refuses to combine buffers of type `d`. -/
def refusal (op : Reducer) (d : DType) : ErrorKind :=
  if Buffer.supports op d then .communication else .unsupportedDType

/-- **A rank refuses the payloads** with an error, unless its reducer is offered for its own
element type and all buffers are like its own. -/
theorem combineAll_error (hne : bs ≠ [])
    (h : ¬ (Buffer.supports op own.dtype = true ∧ ∀ b ∈ bs, Alike b own)) :
    ∃ e : Error, e.kind = refusal op own.dtype ∧
      combineAll op own (bs.map .ofBuffer) = .error (.error e) := by
  obtain ⟨first, rest, rfl⟩ := List.exists_cons_of_ne_nil hne
  unfold refusal
  by_cases hop : Buffer.supports op own.dtype = true
  · rw [if_pos hop]
    by_cases hd : first.dtype = own.dtype
    · have hop' : Buffer.supports op first.dtype = true := by rwa [hd]
      rw [combineAll_cons hop hd]
      by_cases hrest : ∀ b ∈ rest, Alike b first
      · -- all ranks are like the first one, so it is the length that this rank objects to
        obtain ⟨last, hfold, hlike⟩ := foldPayloads_alike hop' 1 hrest
        have hl : last.length ≠ own.length := by
          intro hl
          have hfirst : Alike first own := ⟨hd, hlike.2.symm.trans hl⟩
          refine h ⟨hop, ?_⟩
          intro b hb
          rcases List.mem_cons.mp hb with rfl | hb
          · exact hfirst
          · exact (hrest b hb).trans hfirst
        refine ⟨.combinedLength last.length own.length, rfl, ?_⟩
        rw [hfold]
        show (do
          if last.length ≠ own.length then
            Error.raise (.combinedLength last.length own.length)
          return last : Except Failure Buffer) = _
        rw [if_pos hl]
        rfl
      · have hbad : ∃ b ∈ rest, ¬ Alike b first := by
          simpa only [not_forall, exists_prop] using hrest
        obtain ⟨e, hkind, he⟩ := foldPayloads_error hop' 1 hbad
        refine ⟨e, hkind, ?_⟩
        rw [he]
        rfl
    · exact ⟨.unexpectedDType 0 first.dtype own.dtype, rfl, combineAll_of_ne hop hd⟩
  · rw [if_neg hop]
    exact ⟨.unsupportedDType own.dtype op, rfl,
      combineAll_of_unsupported (Bool.eq_false_iff.mpr hop) _⟩

/-! ### The verdict of all ranks -/

variable {n : Nat} {b : Fin n → Buffer}

/-- The buffers of all ranks, folded in rank order in the type of the first one. -/
def folded [NeZero n] (op : Reducer) (b : Fin n → Buffer) : Buffer :=
  ⟨(b 0).dtype, foldRanks op (List.ofFn fun r => (b r).values (b 0).dtype)⟩

/-- **An all-reduce of buffers that are alike** leaves their fold on every rank. -/
theorem allReduce_alike [NeZero n] (g : Nat) (hop : Buffer.supports op (b 0).dtype = true)
    (h : ∀ r, Alike (b r) (b 0)) :
    Spmd.Runs (fun r => (member g r n).allReduce op (b r)) fun r =>
      ([.allReduce g (b r).dtype (b r).length op], ⟨.ok (), folded op b⟩) := by
  -- the buffers as lists of elements of one type
  have hvalues : ∀ r, b r = ⟨(b 0).dtype, (b r).values (b 0).dtype⟩ := by
    intro r
    rw [← (h r).1, Buffer.values_self]
  have hlen : ∀ r, ((b r).values (b 0).dtype).length = (b 0).length := by
    intro r
    exact (Buffer.length_cast (b 0).dtype (b r)).trans (h r).2
  refine allReduce_meets g op ?_
  intro r
  have hdone := afterAllReduce_eq hop hlen r
  simp only [← hvalues] at hdone
  exact hdone

/-- **An all-reduce of buffers that are not alike**, or with a reducer that is not offered for
their type, fails on every rank with an error and changes no buffer. -/
theorem allReduce_unlike [NeZero n] (g : Nat)
    (h : ¬ (Buffer.supports op (b 0).dtype = true ∧ ∀ r, Alike (b r) (b 0))) :
    ∃ e : Fin n → Error, (∀ r, (e r).kind = refusal op (b r).dtype) ∧
      Spmd.Runs (fun r => (member g r n).allReduce op (b r)) fun r =>
        ([.allReduce g (b r).dtype (b r).length op], ⟨.error (.error (e r)), b r⟩) := by
  have hne : List.ofFn b ≠ [] := List.ofFn_eq_nil_iff.not.mpr (NeZero.ne n)
  have hrefused : ∀ r, ∃ e : Error, e.kind = refusal op (b r).dtype ∧
      combineAll op (b r) ((List.ofFn b).map .ofBuffer) = .error (.error e) := by
    intro r
    refine combineAll_error hne ?_
    rintro ⟨hop, hall⟩
    -- what is like the buffer of one rank is like the buffer of rank 0
    have hlike : ∀ q, Alike (b q) (b r) := fun q => hall (b q) (List.mem_ofFn.mpr ⟨q, rfl⟩)
    refine h ⟨?_, fun q => (hlike q).trans (hlike 0).symm⟩
    rwa [(hlike 0).1]
  choose e hkind he using hrefused
  refine ⟨e, hkind, allReduce_meets g op ?_⟩
  intro r
  have hr := he r
  rw [List.map_ofFn] at hr
  rw [afterAllReduce, show (List.ofFn fun q => Payload.ofBuffer (b q))
    = List.ofFn (Payload.ofBuffer ∘ b) from rfl, hr]

/-- What a rank makes of a buffer that is not like its own. -/
theorem received_unlike (root : Nat) {b own : Buffer} (h : ¬ Alike own b) :
    ∃ e : Error, e.kind = .communication ∧
      received root own (.ofBuffer b) = ⟨.error (.error e), own⟩ := by
  by_cases hd : b.dtype = own.dtype
  · have hl : b.length ≠ own.length := fun hl => h ⟨hd.symm, hl.symm⟩
    refine ⟨.broadcastLength root b.length own.length, rfl, ?_⟩
    rw [received, ← hd, decode_ofBuffer]
    exact if_pos hl
  · refine ⟨.unexpectedDType root b.dtype own.dtype, rfl, ?_⟩
    rw [received, decode_of_ne root hd]
    rfl

/-- **A broadcast** leaves the root's buffer on the ranks whose buffers are like it, and fails
on the others with a communication error, where it changes nothing. -/
theorem broadcast_all (g : Nat) (root : Fin n) (b : Fin n → Buffer) :
    ∃ e : Fin n → Error, (∀ r, (e r).kind = .communication) ∧
      Spmd.Runs (fun r => (member g r n).broadcast root (b r)) fun r =>
        ([.broadcast g (b r).dtype (b r).length root],
          if Alike (b r) (b root) then ⟨.ok (), b root⟩ else ⟨.error (.error (e r)), b r⟩) := by
  have hverdict : ∀ r, ∃ e : Error, e.kind = .communication ∧
      (if r = root then ⟨pure (), b root⟩ else received root (b r) (.ofBuffer (b root)))
        = if Alike (b r) (b root) then ⟨.ok (), b root⟩ else ⟨.error (.error e), b r⟩ := by
    intro r
    by_cases hlike : Alike (b r) (b root)
    · refine ⟨.broadcastLength root 0 0, rfl, ?_⟩
      rw [if_pos hlike, received_of_eq hlike.symm.1 hlike.symm.2, ite_self]
      rfl
    · have hr : r ≠ root := by
        rintro rfl
        exact hlike ⟨rfl, rfl⟩
      obtain ⟨e, hkind, he⟩ := received_unlike (root : Nat) hlike
      exact ⟨e, hkind, by rw [if_neg hr, if_neg hlike, he]⟩
  choose e hkind he using hverdict
  have hrun := broadcast_meets g root b
  simp only [he] at hrun
  exact ⟨e, hkind, hrun⟩

/-! ### Groups of one rank -/

/-- An all-reduce of one rank is the one that needs no exchange. -/
theorem run_allReduce_single (g : Nat) (op : Reducer) (own : Buffer) :
    Spmd.run [(member g 0 1).allReduce op own] = Spmd.run [(solo g).allReduce op own] := by
  have hmember : Spmd.run [(member g 0 1).allReduce op own]
      = Spmd.lockstep [.allReduce g own.dtype own.length op]
        (afterAllReduce op own [.ofBuffer own]) [] := rfl
  rw [hmember]
  by_cases hop : Buffer.supports op own.dtype = true
  · have hdone : afterAllReduce op own [.ofBuffer own] = .done ⟨pure (), own⟩ := by
      have hcomb : combineAll op own [.ofBuffer own] = .ok own := by
        show combineAll op own ([own.data].map fun x => .ofBuffer ⟨own.dtype, x⟩)
          = .ok ⟨own.dtype, foldRanks op [own.data]⟩
        exact combineAll_eq hop (by simp) (by simp)
      rw [afterAllReduce, hcomb]
    rw [hdone, allReduce, Spmd.run]
    simp only [hop, if_true]
    rfl
  · have hdone : afterAllReduce op own [.ofBuffer own]
        = .done ⟨Error.raise (.unsupportedDType own.dtype op), own⟩ := by
      rw [afterAllReduce, combineAll_of_unsupported (Bool.eq_false_iff.mpr hop)]
      rfl
    rw [hdone, allReduce, Spmd.run]
    simp only [hop]
    rfl

/-- A broadcast of one rank is the one that needs no exchange. -/
theorem run_broadcast_single (g root : Nat) (own : Buffer) :
    Spmd.run [(member g 0 1).broadcast root own] = Spmd.run [(solo g).broadcast root own] := by
  by_cases hroot : 1 ≤ root
  · have hmember : (member g 0 1).size ≤ root := hroot
    have hsolo : (solo g).size ≤ root := hroot
    rw [broadcast, broadcast, if_pos hmember, if_pos hsolo]
    rfl
  · obtain rfl : root = 0 := by omega
    rfl

/-! ### Agreement -/

/-- **The ranks agree on the outcome of a collective.**  An all-reduce leaves the fold in rank
order on every rank if all buffers are alike and the reducer is offered for their type, and
otherwise fails with an error on every rank and leaves every buffer as it was.  A broadcast
leaves the root's buffer on the ranks, the root among them, whose buffers are like it, and
fails with a communication error on the others, whose buffers stay as they were.  A group of
one rank behaves like one that needs no exchange. -/
theorem collectives_agree [NeZero n] (g : Nat) (op : Reducer) (b : Fin n → Buffer) :
    ((Buffer.supports op (b 0).dtype = true ∧ ∀ r, Alike (b r) (b 0)) →
      Spmd.Runs (fun r => (member g r n).allReduce op (b r)) fun r =>
        ([.allReduce g (b r).dtype (b r).length op], ⟨.ok (), folded op b⟩)) ∧
    (¬ (Buffer.supports op (b 0).dtype = true ∧ ∀ r, Alike (b r) (b 0)) →
      ∃ e : Fin n → Error, (∀ r, (e r).kind = refusal op (b r).dtype) ∧
        Spmd.Runs (fun r => (member g r n).allReduce op (b r)) fun r =>
          ([.allReduce g (b r).dtype (b r).length op], ⟨.error (.error (e r)), b r⟩)) ∧
    (∀ root : Fin n, ∃ e : Fin n → Error, (∀ r, (e r).kind = .communication) ∧
      Spmd.Runs (fun r => (member g r n).broadcast root (b r)) fun r =>
        ([.broadcast g (b r).dtype (b r).length root],
          if Alike (b r) (b root) then ⟨.ok (), b root⟩
          else ⟨.error (.error (e r)), b r⟩)) ∧
    (∀ own : Buffer,
      Spmd.run [(member g 0 1).allReduce op own] = Spmd.run [(solo g).allReduce op own] ∧
      ∀ root, Spmd.run [(member g 0 1).broadcast root own]
        = Spmd.run [(solo g).broadcast root own]) := by
  refine ⟨?_, ?_, ?_, ?_⟩
  · intro h
    exact allReduce_alike g h.1 h.2
  · intro h
    exact allReduce_unlike g h
  · intro root
    exact broadcast_all g root b
  · intro own
    exact ⟨run_allReduce_single g op own, fun root => run_broadcast_single g root own⟩

/-- Two ranks add up two words each, and then one word of rank 0 and two words of rank 1. -/
theorem collectives_agree_two_words :
    let b : Fin 2 → Buffer := fun r => ⟨.i64, [.ofInt (r + 1), .ofInt 10]⟩
    let u : Fin 2 → Buffer := fun r => ⟨.i64, List.replicate (r + 1) (.ofInt 7)⟩
    Spmd.Runs (fun r => (member 0 r 2).allReduce .sum (b r))
      (fun r => ([.allReduce 0 (b r).dtype (b r).length .sum],
        ⟨.ok (), ⟨.i64, [.ofInt 3, .ofInt 20]⟩⟩)) ∧
    ∃ e : Fin 2 → Error, (∀ r, (e r).kind = refusal .sum (u r).dtype) ∧
      Spmd.Runs (fun r => (member 0 r 2).allReduce .sum (u r)) fun r =>
        ([.allReduce 0 (u r).dtype (u r).length .sum], ⟨.error (.error (e r)), u r⟩) := by
  intro b u
  have hb : Buffer.supports .sum (b 0).dtype = true ∧ ∀ r, Alike (b r) (b 0) := by decide
  have hu : ¬ (Buffer.supports .sum (u 0).dtype = true ∧ ∀ r, Alike (u r) (u 0)) := by decide
  have hsum : folded .sum b = ⟨.i64, [.ofInt 3, .ofInt 20]⟩ := by decide
  have hrun := (collectives_agree 0 .sum b).1 hb
  rw [hsum] at hrun
  exact ⟨hrun, (collectives_agree 0 .sum u).2.1 hu⟩

end Comm

end SpmdArray
