import Mathlib.Algebra.BigOperators.Fin
import Mathlib.Algebra.Order.BigOperators.Group.Finset
import SpmdArray.Proofs.Lockstep
import SpmdArray.Spmd.Exchange

/-!
# Exchanges at any pace

However the steps of the ranks are interleaved, an exchange gives every rank the payloads of
this exchange in rank order.  The generation of the barrier tells what the ranks are about: as
long as it is even, they write their slots and nobody reads; as long as it is odd, they read and
nobody writes.  A rank that is late in leaving does neither.

## Main definitions

* `Exchange.rounds` — the payloads of all ranks, exchange by exchange.
* `Exchange.Fits` — where a rank can be while the barrier is in a generation.
* `Exchange.Inv` — what holds in every state.
* `Exchange.State.progress` — how many steps the ranks have taken.

## Main results

* `Exchange.Inv.step`, `Exchange.Inv.follow` — every schedule keeps the invariant.
* `Exchange.Inv.complete` — ranks that cannot go on are through.
* `Exchange.follow_start` — what the exchanges return, for every schedule.
* `Exchange.follow_eq_lockstep` — the threads get what they would get in lockstep.
-/

namespace SpmdArray

namespace Exchange

variable {n m : Nat}

/-! ### Rounds -/

/-- The payloads of exchange `k`, in rank order. -/
def round (payload : Fin n → Fin m → Payload) (k : Fin m) : List Payload :=
  List.ofFn fun q => payload q k

/-- The payloads of all exchanges. -/
def rounds (payload : Fin n → Fin m → Payload) : List (List Payload) := List.ofFn (round payload)

/-- What `k` exchanges should have returned. -/
def returned (payload : Fin n → Fin m → Payload) (k : Nat) : List (Except Failure (List Payload)) :=
  ((rounds payload).take k).map .ok

variable {payload : Fin n → Fin m → Payload} {k : Nat}

theorem getElem?_rounds (hk : k < m) : (rounds payload)[k]? = some (round payload ⟨k, hk⟩) := by
  rw [rounds, List.getElem?_ofFn, dif_pos hk]

theorem length_returned (hk : k ≤ m) : (returned payload k).length = k := by
  simpa [returned, rounds] using hk

theorem returned_succ (hk : k < m) : returned payload (k + 1)
    = returned payload k ++ [.ok (round payload ⟨k, hk⟩)] := by
  rw [returned, List.take_add_one, getElem?_rounds hk, List.map_append]
  rfl

theorem returned_all (hk : m ≤ k) : returned payload k = (rounds payload).map .ok := by
  rw [returned, List.take_of_length_le (by simpa [rounds] using hk)]

/-- The payloads that a rank has yet to write. -/
theorem drop_cons (r : Fin n) (hk : k < m) : (List.ofFn (payload r)).drop k
    = payload r ⟨k, hk⟩ :: (List.ofFn (payload r)).drop (k + 1) := by
  rw [List.drop_eq_getElem_cons (by simpa using hk), List.getElem_ofFn]

/-- A copy of slots that hold the payloads of one exchange. -/
theorem copy_eq {s : State n} (hk : k < m)
    (h : ∀ q, s.slots q = some (payload q ⟨k, hk⟩)) : s.copy = some (round payload ⟨k, hk⟩) := by
  have hsome : ∀ ps : List Payload, (ps.map some).mapM id = some ps := by
    intro ps
    induction ps with
    | nil => rfl
    | cons p ps ih =>
      rw [List.map_cons, List.mapM_cons, ih]
      rfl
  have hslots : s.slots = some ∘ fun q => payload q ⟨k, hk⟩ := funext h
  rw [State.copy, hslots, ← List.map_ofFn]
  exact hsome _

/-! ### Where the ranks can be -/

/-- `Fits payload r g slot x` says that rank `r` can be in the state `x`, and its slot can hold
`slot`, while the barrier is in generation `g`.  In generation `2 * k` the ranks enter exchange
`k`, and in generation `2 * k + 1` they leave it. -/
inductive Fits (payload : Fin n → Fin m → Payload) (r : Fin n) (g : Nat) (slot : Option Payload) :
    Rank → Prop where
  /-- It has not written its payload. -/
  | outside (k : Nat) (hk : k ≤ m) (hg : g = 2 * k) :
    Fits payload r g slot ⟨.outside, (List.ofFn (payload r)).drop k, returned payload k⟩
  /-- It has written its payload. -/
  | published (k : Nat) (hk : k < m) (hg : g = 2 * k) (hslot : slot = some (payload r ⟨k, hk⟩)) :
    Fits payload r g slot
      ⟨.published, (List.ofFn (payload r)).drop (k + 1), returned payload k⟩
  /-- It waits for the others to write theirs. -/
  | entering (k : Nat) (hk : k < m) (hg : g = 2 * k) (hslot : slot = some (payload r ⟨k, hk⟩)) :
    Fits payload r g slot
      ⟨.entering (2 * k), (List.ofFn (payload r)).drop (k + 1), returned payload k⟩
  /-- All have written their payloads. -/
  | entered (k : Nat) (hk : k < m) (hg : g = 2 * k + 1)
    (hslot : slot = some (payload r ⟨k, hk⟩)) :
    Fits payload r g slot
      ⟨.entering (2 * k), (List.ofFn (payload r)).drop (k + 1), returned payload k⟩
  /-- It is about to copy the slots. -/
  | reading (k : Nat) (hk : k < m) (hg : g = 2 * k + 1)
    (hslot : slot = some (payload r ⟨k, hk⟩)) :
    Fits payload r g slot
      ⟨.reading, (List.ofFn (payload r)).drop (k + 1), returned payload k⟩
  /-- It has copied the slots. -/
  | copied (k : Nat) (hk : k < m) (hg : g = 2 * k + 1) (hslot : slot = some (payload r ⟨k, hk⟩)) :
    Fits payload r g slot ⟨.copied (some (round payload ⟨k, hk⟩)),
      (List.ofFn (payload r)).drop (k + 1), returned payload k⟩
  /-- It waits for the others to copy the slots. -/
  | leaving (k : Nat) (hk : k < m) (hg : g = 2 * k + 1)
    (hslot : slot = some (payload r ⟨k, hk⟩)) :
    Fits payload r g slot ⟨.leaving (2 * k + 1) (some (round payload ⟨k, hk⟩)),
      (List.ofFn (payload r)).drop (k + 1), returned payload k⟩
  /-- All have copied the slots, and some may already write to them. -/
  | late (k : Nat) (hk : k < m) (hg : g = 2 * (k + 1)) :
    Fits payload r g slot ⟨.leaving (2 * k + 1) (some (round payload ⟨k, hk⟩)),
      (List.ofFn (payload r)).drop (k + 1), returned payload k⟩

/-- Whether a rank waits for the barrier to leave generation `g`. -/
def Rank.waits (x : Rank) (g : Nat) : Bool :=
  match x.place with
  | .entering w | .leaving w _ => w == g
  | _ => false

variable {r : Fin n} {g : Nat} {slot : Option Payload} {x : Rank}

/-- While the ranks leave an exchange, their slots hold its payloads. -/
theorem Fits.slot_eq (h : Fits payload r g slot x) (hk : k < m) (hg : g = 2 * k + 1) :
    slot = some (payload r ⟨k, hk⟩) := by
  cases h with
  -- here the generation is even
  | outside j _ hj => omega
  | published j _ hj _ => omega
  | entering j _ hj _ => omega
  | late j _ hj => omega
  | entered j _ hj hslot | reading j _ hj hslot | copied j _ hj hslot | leaving j _ hj hslot =>
    obtain rfl : j = k := by omega
    exact hslot

/-- When the barrier opens, it lets the ranks through that have waited for it. -/
theorem Fits.opens (h : Fits payload r g slot x) (hw : x.waits g = true) :
    Fits payload r (g + 1) slot x := by
  cases h with
  | entering k hk hg hslot => exact .entered k hk (by omega) hslot
  | leaving k hk hg hslot => exact .late k hk (by omega)
  | entered k hk hg hslot =>
    -- it waited for an earlier generation
    have hsame : 2 * k = g := by simpa [Rank.waits] using hw
    omega
  | late k hk hg =>
    have hsame : 2 * k + 1 = g := by simpa [Rank.waits] using hw
    omega
  | outside | published | reading | copied => cases hw

/-- Nobody waits for the barrier to open once more after the last exchange. -/
theorem Fits.not_waits_end (h : Fits payload r (2 * m) slot x) : x.waits (2 * m) = false := by
  cases h with
  | outside | published | reading | copied => rfl
  | entering k hk hg _ | entered k hk hg _ | leaving k hk hg _ | late k hk hg =>
    simp only [Rank.waits, beq_eq_false_iff_ne]
    omega

theorem Rank.not_waits_succ (hw : x.waits g = true) : x.waits (g + 1) = false := by
  unfold waits at hw ⊢
  split at hw <;> simp_all

/-! ### The invariant -/

/-- The ranks that wait for the barrier to open. -/
def State.waiting (s : State n) : Finset (Fin n) :=
  Finset.univ.filter fun r => (s.ranks r).waits s.barrier.generation = true

/-- What holds in every state. -/
structure Inv (payload : Fin n → Fin m → Payload) (s : State n) : Prop where
  /-- Every rank is where it can be in this generation. -/
  fits : ∀ r, Fits payload r s.barrier.generation (s.slots r) (s.ranks r)
  /-- The barrier has counted the ranks that wait for it. -/
  arrivals : s.barrier.arrivals = s.waiting.card
  /-- The barrier opens when the last rank arrives. -/
  closed : s.barrier.arrivals < n

theorem inv_start [NeZero n] (payload : Fin n → Fin m → Payload) :
    Inv payload (start fun r => List.ofFn (payload r)) where
  fits r := .outside 0 (Nat.zero_le m) rfl
  arrivals := by
    rw [State.waiting, Finset.filter_false_of_mem]
    · rfl
    · intro r _ hw
      cases hw
  closed := Nat.pos_of_neZero n

variable {s s' : State n}

theorem State.put_ranks_self (s : State n) (r : Fin n) (x : Rank) : (s.put r x).ranks r = x :=
  if_pos rfl

theorem State.put_ranks_of_ne {q : Fin n} (hq : q ≠ r) : (s.put r x).ranks q = s.ranks q :=
  if_neg hq

theorem State.mem_waiting : r ∈ s.waiting ↔ (s.ranks r).waits s.barrier.generation = true := by
  simp [waiting]

theorem State.waiting_put (s : State n) (r : Fin n) (x : Rank) : (s.put r x).waiting
    = if x.waits s.barrier.generation then insert r s.waiting else s.waiting.erase r := by
  ext q
  rw [mem_waiting]
  by_cases hq : q = r
  · subst hq
    rw [put_ranks_self]
    split <;> rename_i hx <;> simp [put, hx]
  · rw [put_ranks_of_ne hq]
    split <;> simp [put, hq, mem_waiting]

namespace Inv

/-- Only rank `r` changes. -/
theorem fits_put (hs : Inv payload s) (hx : Fits payload r s.barrier.generation (s.slots r) x)
    (q : Fin n) : Fits payload q s.barrier.generation (s.slots q) ((s.put r x).ranks q) := by
  by_cases hq : q = r
  · subst hq
    rwa [State.put_ranks_self]
  · rw [State.put_ranks_of_ne hq]
    exact hs.fits q

/-- A rank that has not waited and does not wait now is not counted. -/
theorem waiting_eq (hold : (s.ranks r).waits s.barrier.generation = false)
    (hnew : x.waits s.barrier.generation = false) : (s.put r x).waiting = s.waiting := by
  have hr : r ∉ s.waiting := by simp [State.mem_waiting, hold]
  rw [State.waiting_put, hnew, if_neg Bool.false_ne_true, Finset.erase_eq_of_notMem hr]

/-- A rank goes on without the barrier. -/
theorem put (hs : Inv payload s) (hold : (s.ranks r).waits s.barrier.generation = false)
    (hx : Fits payload r s.barrier.generation (s.slots r) x)
    (hnew : x.waits s.barrier.generation = false) : Inv payload (s.put r x) where
  fits := hs.fits_put hx
  arrivals := by
    rw [waiting_eq hold hnew]
    exact hs.arrivals
  closed := hs.closed

/-- A rank writes its slot. -/
theorem write (hs : Inv payload s) {p : Payload}
    (hold : (s.ranks r).waits s.barrier.generation = false)
    (hx : Fits payload r s.barrier.generation (some p) x)
    (hnew : x.waits s.barrier.generation = false) : Inv payload (s.write r p x) where
  fits q := by
    by_cases hq : q = r
    · subst hq
      simpa [State.write, State.put] using hx
    · simpa [State.write, State.put, hq] using hs.fits q
  arrivals := by
    have hsame : (s.write r p x).waiting = s.waiting := waiting_eq hold hnew
    rw [hsame]
    exact hs.arrivals
  closed := hs.closed

/-- **A rank arrives at the barrier**, and opens it if it is the last one. -/
theorem arrive (hs : Inv payload s) (hold : (s.ranks r).waits s.barrier.generation = false)
    (hx : Fits payload r s.barrier.generation (s.slots r) x)
    (hnew : x.waits s.barrier.generation = true) : Inv payload (s.arrive r x) := by
  have hcard : (s.put r x).waiting.card = s.barrier.arrivals + 1 := by
    have hr : r ∉ s.waiting := by simp [State.mem_waiting, hold]
    rw [State.waiting_put, if_pos hnew, Finset.card_insert_of_notMem hr, hs.arrivals]
  by_cases hlast : s.barrier.arrivals + 1 < n
  · have hbar : s.barrier.arrive n = { s.barrier with arrivals := s.barrier.arrivals + 1 } :=
      if_pos hlast
    rw [State.arrive, hbar]
    exact ⟨hs.fits_put hx, hcard.symm, hlast⟩
  · have hbar : s.barrier.arrive n = ⟨0, s.barrier.generation + 1⟩ := if_neg hlast
    -- all ranks wait, so that the barrier lets all of them through
    have hall : (s.put r x).waiting = Finset.univ := by
      apply Finset.eq_univ_of_card
      have hclosed := hs.closed
      rw [hcard, Fintype.card_fin]
      omega
    have hwaits : ∀ q, ((s.put r x).ranks q).waits s.barrier.generation = true := by
      intro q
      exact State.mem_waiting.mp (hall ▸ Finset.mem_univ q)
    rw [State.arrive, hbar]
    refine ⟨fun q => (hs.fits_put hx q).opens (hwaits q), ?_, Nat.zero_lt_of_lt r.isLt⟩
    -- and nobody waits for the next opening
    symm
    rw [Finset.card_eq_zero, State.waiting, Finset.filter_eq_empty_iff]
    intro q _
    simp [Rank.not_waits_succ (hwaits q)]

/-- **Every step keeps the invariant.** -/
theorem step (hs : Inv payload s) (h : step s r = some s') : Inv payload s' := by
  have hx := hs.fits r
  generalize hrank : s.ranks r = x at hx
  simp only [Exchange.step, hrank] at h
  cases hx with
  | outside k hk hg =>
    -- nobody relies on the slots before the barrier opens
    rcases Nat.lt_or_ge k m with hlt | hge
    · simp only [drop_cons r hlt, Option.some.injEq] at h
      subst h
      exact hs.write (by rw [hrank]; rfl) (.published k hlt hg rfl) rfl
    · rw [List.drop_of_length_le (by simpa using hge)] at h
      cases h
  | published k hk hg hslot =>
    simp only [Option.some.injEq] at h
    subst h
    rw [hg]
    exact hs.arrive (by rw [hrank]; rfl) (.entering k hk hg hslot) (by simp [Rank.waits, hg])
  | entering k hk hg hslot => simp [hg] at h
  | entered k hk hg hslot =>
    have hopen : s.barrier.generation ≠ 2 * k := by omega
    simp only [if_neg hopen, Option.some.injEq] at h
    subst h
    exact hs.put (by simp [hrank, Rank.waits, hg]) (.reading k hk hg hslot) rfl
  | reading k hk hg hslot =>
    -- nobody has written to the slots since the barrier opened
    have hcopy : s.copy = some (round payload ⟨k, hk⟩) :=
      copy_eq hk fun q => (hs.fits q).slot_eq hk hg
    simp only [hcopy, Option.some.injEq] at h
    subst h
    exact hs.put (by rw [hrank]; rfl) (.copied k hk hg hslot) rfl
  | copied k hk hg hslot =>
    simp only [Option.some.injEq] at h
    subst h
    rw [hg]
    exact hs.arrive (by rw [hrank]; rfl) (.leaving k hk hg hslot) (by simp [Rank.waits, hg])
  | leaving k hk hg hslot => simp [hg] at h
  | late k hk hg =>
    have hopen : s.barrier.generation ≠ 2 * k + 1 := by omega
    simp only [if_neg hopen, Option.some.injEq] at h
    subst h
    refine hs.put ?_ ?_ rfl
    · simp only [hrank, Rank.waits, hg, beq_eq_false_iff_ne]
      omega
    · rw [outcome, ← returned_succ hk]
      exact .outside (k + 1) hk hg

/-- **Every schedule keeps the invariant.** -/
theorem follow (hs : Inv payload s) {turns : List (Fin n)} (h : follow s turns = some s') :
    Inv payload s' := by
  induction turns generalizing s with
  | nil =>
    obtain rfl : s = s' := Option.some.inj h
    exact hs
  | cons r turns ih =>
    obtain ⟨u, hu, hrest⟩ := Option.bind_eq_some_iff.mp h
    exact ih (hs.step hu) hrest

/-! ### The results -/

/-- A rank has got what its exchanges should have returned so far. -/
theorem outcomes_eq (hs : Inv payload s) (r : Fin n) :
    ∃ k ≤ m, (s.ranks r).outcomes = returned payload k := by
  have hx := hs.fits r
  generalize s.ranks r = x at hx ⊢
  cases hx with
  | outside k hk _ => exact ⟨k, hk, rfl⟩
  | published k hk _ _ | entering k hk _ _ | entered k hk _ _ | reading k hk _ _
  | copied k hk _ _ | leaving k hk _ _ | late k hk _ => exact ⟨k, hk.le, rfl⟩

/-- A copy of the slots holds the payloads of the exchange that the rank is in. -/
theorem copied_eq (hs : Inv payload s) {all : Option (List Payload)}
    (h : (s.ranks r).place = .copied all ∨ ∃ g, (s.ranks r).place = .leaving g all) :
    ∃ k : Fin m, (s.ranks r).outcomes.length = k ∧ all = some (round payload k) := by
  have hx := hs.fits r
  generalize s.ranks r = x at hx h ⊢
  cases hx with
  | outside | published | entering | entered | reading => simp at h
  | copied k hk _ _ | leaving k hk _ _ | late k hk _ =>
    obtain rfl : some (round payload ⟨k, hk⟩) = all := by simpa using h
    exact ⟨⟨k, hk⟩, length_returned hk.le, rfl⟩

/-- A rank that cannot go on waits for the barrier, or is through. -/
theorem stuck (hs : Inv payload s) (h : Exchange.step s r = none) :
    (s.ranks r).waits s.barrier.generation = true
      ∨ s.barrier.generation = 2 * m ∧ (s.ranks r).outcomes = returned payload m := by
  have hx := hs.fits r
  generalize hrank : s.ranks r = x at hx
  simp only [Exchange.step, hrank] at h
  cases hx with
  | outside k hk hg =>
    rcases hk.lt_or_eq with hlt | rfl
    · simp [drop_cons r hlt] at h
    · exact .inr ⟨hg, rfl⟩
  | entering k hk hg hslot => exact .inl (by simp [Rank.waits, hg])
  | leaving k hk hg hslot => exact .inl (by simp [Rank.waits, hg])
  | entered k hk hg hslot =>
    have hopen : s.barrier.generation ≠ 2 * k := by omega
    simp [if_neg hopen] at h
  | late k hk hg =>
    have hopen : s.barrier.generation ≠ 2 * k + 1 := by omega
    simp [if_neg hopen] at h
  | published | reading | copied => cases h

/-- **Ranks that cannot go on are through.** -/
theorem complete (hs : Inv payload s) (h : ∀ r, Exchange.step s r = none) (r : Fin n) :
    (s.ranks r).outcomes = (rounds payload).map .ok := by
  -- the barrier is closed, so that some rank does not wait for it
  have hfew : s.waiting.card < (Finset.univ : Finset (Fin n)).card := by
    rw [← hs.arrivals, Finset.card_univ, Fintype.card_fin]
    exact hs.closed
  obtain ⟨q, -, hq⟩ := Finset.exists_mem_notMem_of_card_lt_card hfew
  rw [State.mem_waiting] at hq
  -- this rank is through, so that the barrier has opened for the last time
  obtain ⟨hend, -⟩ := (hs.stuck (h q)).resolve_left hq
  rcases hs.stuck (h r) with hwait | ⟨-, hall⟩
  · have hx := hs.fits r
    rw [hend] at hx hwait
    rw [hx.not_waits_end] at hwait
    cases hwait
  · rw [hall, returned_all le_rfl]

end Inv

/-! ### Progress -/

/-- How many steps of an exchange a rank has taken. -/
def Place.index : Place → Nat
  | .outside => 0
  | .published => 1
  | .entering _ => 2
  | .reading => 3
  | .copied _ => 4
  | .leaving _ _ => 5

/-- How many steps a rank has taken; an exchange takes six of them. -/
def Rank.progress (x : Rank) : Nat := 6 * x.outcomes.length + x.place.index

/-- How many steps the ranks have taken. -/
def State.progress (s : State n) : Nat := ∑ r, (s.ranks r).progress

theorem State.progress_put {s : State n} (hx : x.progress = (s.ranks r).progress + 1) :
    (s.put r x).progress = s.progress + 1 := by
  have hrest : ∀ q ∈ Finset.univ.erase r,
      ((s.put r x).ranks q).progress = (s.ranks q).progress := by
    intro q hq
    rw [put_ranks_of_ne (Finset.ne_of_mem_erase hq)]
  have hr : ((s.put r x).ranks r).progress = (s.ranks r).progress + 1 := by
    rw [put_ranks_self, hx]
  rw [progress, progress, ← Finset.add_sum_erase _ _ (Finset.mem_univ r), hr,
    Finset.sum_congr rfl hrest, ← Finset.add_sum_erase _ _ (Finset.mem_univ r)]
  omega

theorem progress_start (seq : Fin n → List Payload) : (start seq).progress = 0 :=
  Finset.sum_eq_zero fun _ _ => rfl

theorem progress_step (h : step s r = some s') : s'.progress = s.progress + 1 := by
  simp only [step] at h
  cases hplace : (s.ranks r).place with
  | outside =>
    cases htodo : (s.ranks r).todo with
    | nil => simp [hplace, htodo] at h
    | cons p ps =>
      simp only [hplace, htodo, Option.some.injEq] at h
      subst h
      exact State.progress_put (by simp [Rank.progress, Place.index, hplace])
  | published | reading | copied =>
    simp only [hplace, Option.some.injEq] at h
    subst h
    exact State.progress_put (by simp [Rank.progress, Place.index, hplace])
  | entering g =>
    simp only [hplace, Option.ite_none_left_eq_some, Option.some.injEq] at h
    obtain ⟨-, rfl⟩ := h
    exact State.progress_put (by simp [Rank.progress, Place.index, hplace])
  | leaving g all =>
    simp only [hplace, Option.ite_none_left_eq_some, Option.some.injEq] at h
    obtain ⟨-, rfl⟩ := h
    refine State.progress_put ?_
    simp only [Rank.progress, Place.index, hplace, List.length_append, List.length_singleton]
    omega

theorem progress_follow {turns : List (Fin n)} (h : follow s turns = some s') :
    s'.progress = s.progress + turns.length := by
  induction turns generalizing s with
  | nil =>
    obtain rfl : s = s' := Option.some.inj h
    rfl
  | cons r turns ih =>
    obtain ⟨u, hu, hrest⟩ := Option.bind_eq_some_iff.mp h
    rw [ih hrest, progress_step hu, List.length_cons]
    omega

/-- A rank takes six steps for each exchange. -/
theorem Fits.progress_le (h : Fits payload r g slot x) : x.progress ≤ 6 * m := by
  cases h with
  | outside k hk _ =>
    simp only [Rank.progress, Place.index, length_returned hk]
    omega
  | published k hk _ _ | entering k hk _ _ | entered k hk _ _ | reading k hk _ _
  | copied k hk _ _ | leaving k hk _ _ | late k hk _ =>
    simp only [Rank.progress, Place.index, length_returned hk.le]
    omega

theorem Inv.progress_le (hs : Inv payload s) : s.progress ≤ n * (6 * m) := by
  have hsum := Finset.sum_le_card_nsmul Finset.univ (fun r => (s.ranks r).progress) (6 * m)
    fun r _ => (hs.fits r).progress_le
  simpa [State.progress] using hsum

/-! ### Exchanges of a group -/

/-- **Exchanges return the payloads of all ranks**, exchange by exchange and in rank order, for
every schedule: no rank ever copies a payload of another exchange or finds an empty slot, no
schedule is longer than the exchanges need, and when no rank can go on, all exchanges of all
ranks have returned. -/
theorem follow_start [NeZero n] (payload : Fin n → Fin m → Payload) {turns : List (Fin n)}
    {s : State n} (h : follow (start fun r => List.ofFn (payload r)) turns = some s) :
    (∀ r, (s.ranks r).outcomes <+: (rounds payload).map .ok)
      ∧ (∀ r all, ((s.ranks r).place = .copied all ∨ ∃ g, (s.ranks r).place = .leaving g all) →
        ∃ k : Fin m, (s.ranks r).outcomes.length = k ∧ all = some (round payload k))
      ∧ turns.length ≤ n * (6 * m)
      ∧ ((∀ r, step s r = none) → ∀ r, (s.ranks r).outcomes = (rounds payload).map .ok) := by
  have hs : Inv payload s := (inv_start payload).follow h
  refine ⟨fun r => ?_, fun r all => hs.copied_eq, ?_, hs.complete⟩
  · obtain ⟨k, -, hk⟩ := hs.outcomes_eq r
    rw [hk, returned]
    exact (List.take_prefix k _).map _
  · have hsteps := progress_follow h
    rw [progress_start, Nat.zero_add] at hsteps
    exact hsteps ▸ hs.progress_le

/-- Two ranks exchange twice.  Rank `0` comes first to the first exchange, and it is still leaving
it when rank `1` has written its slot for the second one. -/
theorem follow_start_twice :
    let payload : Fin 2 → Fin 2 → Payload := fun r k => ⟨.u8, [(10 * k.val + r.val).toUInt8]⟩
    let turns : List (Fin 2) :=
      [0, 0, 1, 1, 1, 1, 0, 0, 0, 1, 1, 1, 1, 0, 0, 0, 0, 0, 0, 1, 1, 1, 1, 0]
    ∃ s, follow (start fun r => List.ofFn (payload r)) turns = some s
      ∧ ∀ r, (s.ranks r).outcomes
        = [.ok [⟨.u8, [0]⟩, ⟨.u8, [1]⟩], .ok [⟨.u8, [10]⟩, ⟨.u8, [11]⟩]] := by
  intro payload turns
  have hrun : (follow (start fun r => List.ofFn (payload r)) turns).any
      (fun s => (step s 0).isNone && (step s 1).isNone) = true := by decide
  obtain ⟨s, hs, hend⟩ := (Option.any_eq_true _ _).mp hrun
  have hstuck : ∀ r, step s r = none := by
    simpa [Fin.forall_fin_two, Option.isNone_iff_eq_none] using hend
  exact ⟨s, hs, (follow_start payload hs).2.2.2 hstuck⟩

/-! ### Exchanges in lockstep -/

/-- What the ranks get when they run in step with each other. -/
theorem runs_gatherAll (group : Nat) (payload : Fin n → Fin m → Payload) :
    Spmd.Runs (fun r => (List.ofFn (payload r)).mapM (Spmd.gatherAll group))
      fun _ => ([], rounds payload) := by
  induction m with
  | zero => exact Spmd.Runs.done fun _ => []
  | succ m ih =>
    have hrest := (ih fun r k => payload r k.succ).bind
      (k := fun _ all => .done (round payload 0 :: all)) (Spmd.Runs.done fun _ => _)
    have h := Spmd.Runs.exchange group (fun r => payload r 0)
      (k := fun r first => ((List.ofFn fun k => payload r k.succ).mapM (Spmd.gatherAll group)).bind
        fun all => .done (first :: all)) hrest
    simp only [List.ofFn_succ, List.mapM_cons, rounds]
    exact h

/-- **Threads get what they would get in lockstep**, whatever their schedule is. -/
theorem follow_eq_lockstep [NeZero n] (group : Nat) {turns : List (Fin n)} {s : State n}
    {rs : Fin n → List Event × List (List Payload)}
    (h : follow (start fun r => List.ofFn (payload r)) turns = some s)
    (hend : ∀ r, step s r = none)
    (hrun : Spmd.Runs (fun r => (List.ofFn (payload r)).mapM (Spmd.gatherAll group)) rs) :
    ∀ r, (s.ranks r).outcomes = (rs r).2.map .ok := by
  intro r
  rw [((inv_start payload).follow h).complete hend r, hrun.unique (runs_gatherAll group payload)]

end Exchange

end SpmdArray
