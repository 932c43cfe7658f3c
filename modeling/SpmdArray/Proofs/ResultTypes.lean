import SpmdArray.Proofs.Agreement
import SpmdArray.Proofs.RoundTrip

/-!
# The element type of a result

The shard of a result takes its element type from the function, unless the function is not
asked because the rank has nothing of a split operand.  The two types are the same except for
quotients of truth values and integers: there, the ranks may disagree about the type, and
cannot put the result together any more.

## Main results

* `Sharded.toGlobal_of_mixed` — ranks that disagree about the type all fail.
* `Source.apply_resultType` — the element type on every rank, and what it means for putting the
  result together.
-/

namespace SpmdArray

namespace Sharded

variable {n : Nat} {x : Fin n → Sharded} {u : Fin n → Tensor} {g : Shape} {s group : Nat}
  {len : Fin n → Nat} {dev : Fin n → Device}

/-- A rank that holds a slice begins with an exchange of the lengths. -/
theorem toGlobal_window {t : Tensor} {start l : Nat} {d : Device} (r : Fin n) (hs : s < t.ndim)
    (hn : 1 < n) :
    let x : Sharded := ⟨t.window s start l, t.shape, t.dtype, some s, d, .member group r n⟩
    x.toGlobal = lengths (Comm.member group r n) l >>= x.assemble s := by
  intro x
  have hs' : s < x.shard.shape.length := by
    show s < List.length (t.shape.set s l)
    rwa [List.length_set]
  have hown : x.shard.shape.getD s 1 = l := by
    show List.getD (t.shape.set s l) s 1 = l
    rw [Shape.getD_set hs, if_pos rfl]
  have hmeets : x.comm.isDistributed = true := decide_eq_true hn
  rw [toGlobal_eq rfl hmeets hs hs', hown]

/-- It goes on with a sum of what the ranks hold, in its own element type. -/
theorem assemble_window {t : Tensor} {d : Device} (ht : t.Exact) (hs : s < t.ndim)
    (hlen : (List.ofFn len).sum = t.shape.getD s 1) (hroom : t.shape.getD s 1 < 2 ^ 63)
    (r : Fin n) :
    let x : Sharded := ⟨t.window s (Comm.before len r) (len r), t.shape, t.dtype, some s, d,
      .member group r n⟩
    x.assemble s (lengthWords (List.ofFn len)) = (do
      let b ← Comm.leftBy ((Comm.member group r n).allReduce .sum
        ⟨t.dtype, t.held s (Comm.before len r) (len r)⟩)
      ExceptT.mk (pure (Tensor.ofBuffer t.shape b))) := by
  intro x
  have hfit : Comm.before len r + len r ≤ t.shape.getD s 1 := by
    rw [← hlen]
    exact Comm.before_add_le len r
  have hmod : Size.modulus = 2 ^ 64 := rfl
  have hown : x.shard.shape.getD s 1 = len r := by
    show List.getD (t.shape.set s (len r)) s 1 = len r
    rw [Shape.getD_set hs, if_pos rfl]
  have hplaced : x.placed s (Comm.before len r) (len r)
      = .ok ⟨t.dtype, t.held s (Comm.before len r) (len r)⟩ := placed_slice ht hs hfit rfl rfl rfl
  rw [assemble_of_complete rfl (total_of_complete hlen hroom), hown, Nat.mod_eq_of_lt (by omega),
    place, hplaced]
  rfl

/-- **Ranks that disagree about the element type** cannot put a tensor together: all of them
fail over what the others have sent. -/
theorem toGlobal_of_mixed [NeZero n] (hu : ∀ r, (u r).Exact) (hg : ∀ r, (u r).shape = g)
    (hs : s < g.length) (hlen : (List.ofFn len).sum = g.getD s 1) (hroom : g.getD s 1 < 2 ^ 63)
    (hn : 1 < n)
    (hx : ∀ r : Fin n, x r = ⟨(u r).window s (Comm.before len r) (len r), g, (u r).dtype, some s,
      dev r, .member group r n⟩)
    (hmixed : ¬ ∀ r q, (u r).dtype = (u q).dtype) :
    ∃ e : Fin n → Error, (∀ r, (e r).kind = .communication) ∧
      Attempt.Runs (fun r => (x r).toGlobal) fun r =>
        ([.allReduce group .i64 n .sum, .allReduce group (u r).dtype g.prod .sum],
          .error (.error (e r))) := by
  have hx' : ∀ r : Fin n, x r = ⟨(u r).window s (Comm.before len r) (len r), (u r).shape,
      (u r).dtype, some s, dev r, .member group r n⟩ := by
    intro r
    rw [hx r, hg r]
  have hs' : ∀ r, s < (u r).ndim := by
    intro r
    rwa [Tensor.ndim, hg r]
  have hlen' : ∀ r, (List.ofFn len).sum = (u r).shape.getD s 1 := by
    intro r
    rw [hg r, hlen]
  -- what the ranks add up
  let mine : Fin n → Buffer := fun r =>
    ⟨(u r).dtype, (u r).held s (Comm.before len r) (len r)⟩
  have hmine : ∀ r, (mine r).length = g.prod := by
    intro r
    rw [← hg r]
    exact Tensor.length_held
  have hunlike : ¬ (Buffer.supports .sum (mine 0).dtype = true ∧
      ∀ r, Buffer.Alike (mine r) (mine 0)) := by
    rintro ⟨-, hall⟩
    exact hmixed fun r q => (hall r).1.trans (hall q).1.symm
  -- the lengths still add up; it is the exchange of the elements that meets two types
  obtain ⟨e, hkind, hsum⟩ := Comm.allReduce_unlike group hunlike
  simp only [hmine] at hsum
  have hassemble : ∀ r, (x r).assemble s (lengthWords (List.ofFn len)) = (do
      let b ← Comm.leftBy ((Comm.member group r n).allReduce .sum (mine r))
      ExceptT.mk (pure (Tensor.ofBuffer g b))) := by
    intro r
    rw [hx' r, ← hg r]
    exact assemble_window (hu r) (hs' r) (hlen' r) (by rwa [hg r]) r
  have hfail := (Comm.leftBy_runs hsum).bind_error
    fun _ b => ExceptT.mk (pure (Tensor.ofBuffer g b))
  simp only [← hassemble] at hfail
  have hlens : Attempt.Runs (fun r : Fin n => lengths (Comm.member group r n) (len r)) fun _ =>
      ([.allReduce group .i64 n .sum], .ok (lengthWords (List.ofFn len))) :=
    lengths_runs (fun r => rfl) len
  have hrun := hlens.bind (k := fun r => (x r).assemble s) hfail
  have hprog : ∀ r, (x r).toGlobal
      = lengths (Comm.member group r n) (len r) >>= (x r).assemble s := by
    intro r
    rw [hx' r]
    exact toGlobal_window r (hs' r) hn
  simp only [← hprog] at hrun
  exact ⟨e, hkind, hrun⟩

end Sharded

namespace Source

variable {n : Nat} {a b : Source n}

theorem dtype_valueOn (a b : Source n) (v : Tensor) (r : Fin n) :
    (valueOn a b v r).dtype = if a.lacks r || b.lacks r then resultDType a b else v.dtype := by
  unfold valueOn
  split <;> rfl

theorem shape_valueOn (a b : Source n) (v : Tensor) (r : Fin n) :
    (valueOn a b v r).shape = v.shape := by
  unfold valueOn
  split <;> rfl

theorem exact_valueOn (a b : Source n) {v : Tensor} (hv : v.Exact) (r : Fin n) :
    (valueOn a b v r).Exact := by
  unfold valueOn
  split
  · exact hv.cast _
  · exact hv

/-- Ranks that agree about the type get parts of the same tensor. -/
theorem valueOn_congr {v : Tensor} {r q : Fin n}
    (h : (valueOn a b v r).dtype = (valueOn a b v q).dtype) :
    valueOn a b v r = valueOn a b v q := by
  unfold valueOn at h ⊢
  by_cases hr : (a.lacks r || b.lacks r) = true
  · by_cases hq : (a.lacks q || b.lacks q) = true
    · rw [if_pos hr, if_pos hq]
    · rw [if_pos hr, if_neg hq] at h ⊢
      exact Tensor.cast_self h.symm
  · by_cases hq : (a.lacks q || b.lacks q) = true
    · rw [if_neg hr, if_pos hq] at h ⊢
      exact (Tensor.cast_self h).symm
    · rw [if_neg hr, if_neg hq]

/-- A split result, with the slices of the ranks written out. -/
theorem result_eq_window (v : Tensor) (world : Fin n → Comm) {i : Nat}
    (hi : resultSplit a b = some i) (r : Fin n) :
    result a b v world r = ⟨v.window i
      (Comm.before (Sharded.balancedLengths n v (some i)) r)
      (Sharded.balancedLengths n v (some i) r), v.shape, v.dtype, some i,
      (result a b v world r).device, (result a b v world r).comm⟩ := by
  have hstart := Comm.before_balanced_eq_start (v.shape.getD i 1) r
  unfold result Sharded.balancedLengths
  rw [hi, Option.getD_some, hstart]
  rfl

/-- The ranks that get a result are those of a group. -/
theorem spans_result (ha : a.Valid) (hb : b.Valid) {world : Fin n → Comm} (hw : Comm.Spans world)
    {v : Tensor} (hv : v.Exact) (haxis : ∀ i, resultSplit a b = some i → i < v.ndim) :
    Comm.Spans fun r => (result a b v world r).comm := by
  obtain ⟨t, k, c, -, -, hc, hx⟩ := parts_result ha hb hw hv haxis
  have hcomm : (fun r => (result a b v world r).comm) = c := by
    funext r
    rw [hx r]
    rfl
  rw [hcomm]
  exact hc

section

variable [NeZero n] (ha : a.Valid) (hb : b.Valid) {world : Fin n → Comm} (hw : Comm.Spans world)
  {v : Tensor} (hv : v.Exact) (h : a.gshape.broadcast b.gshape = some v.shape)
  (hsplit : ∀ i j, a.axisIn (ndim a b) a.split = some i →
    b.axisIn (ndim a b) b.split = some j → i = j)
  (haxis : ∀ i, resultSplit a b = some i → i < v.ndim)
  (hroom : ∀ i, resultSplit a b = some i → v.shape.getD i 1 < 2 ^ 63)

include ha hb hw hv h hsplit haxis hroom

/-- **Ranks that agree about the type** put their result together. -/
theorem toGlobal_outcome (hsame : ∀ r q : Fin n,
      (outcome a b v world r).dtype = (outcome a b v world q).dtype) :
    ∃ (ev : Fin n → List Event) (t : Tensor), t.shape = v.shape ∧
      t.dtype = (outcome a b v world 0).dtype ∧
      Attempt.Runs (fun r => (outcome a b v world r).toGlobal) fun r => (ev r, .ok t) := by
  have hx : ∀ r, outcome a b v world r = result a b (valueOn a b v 0) world r := by
    intro r
    have hr0 := hsame r 0
    rw [outcome_eq ha hb hv h hsplit, outcome_eq ha hb hv h hsplit] at hr0
    rw [outcome_eq ha hb hv h hsplit, valueOn_congr hr0]
  have haxis' : ∀ i, resultSplit a b = some i → i < (valueOn a b v 0).ndim := by
    intro i hi
    rw [Tensor.ndim, shape_valueOn]
    exact haxis i hi
  have hparts := parts_result ha hb hw (exact_valueOn a b hv 0) haxis'
  simp only [hx]
  obtain ⟨ev, t, ht, htd, hrun⟩ := hparts.toGlobal_runs fun i hi => by
    show (valueOn a b v 0).shape.getD i 1 < 2 ^ 63
    rw [shape_valueOn]
    exact hroom i hi
  exact ⟨ev, t, ht.trans (shape_valueOn a b v 0), htd, hrun⟩

/-- **Ranks that disagree about the type** of their result all fail to put it together. -/
theorem toGlobal_outcome_of_mixed (hmixed : ¬ ∀ r q : Fin n,
      (outcome a b v world r).dtype = (outcome a b v world q).dtype) :
    ∃ (ev : Fin n → List Event) (e : Fin n → Error), (∀ r, (e r).kind = .communication) ∧
      Attempt.Runs (fun r => (outcome a b v world r).toGlobal)
        fun r => (ev r, .error (.error (e r))) := by
  have hdtype : ∀ r, (outcome a b v world r).dtype = (valueOn a b v r).dtype := by
    intro r
    rw [outcome_eq ha hb hv h hsplit]
    rfl
  simp only [hdtype] at hmixed
  have hn : 1 < n := by
    by_contra hn
    have hpos := Nat.pos_of_neZero n
    obtain rfl : n = 1 := by omega
    exact hmixed fun r q => by rw [Fin.fin_one_eq_zero r, Fin.fin_one_eq_zero q]
  -- some rank has nothing of an operand, so the result is split
  obtain ⟨r₀, hr₀⟩ : ∃ r, a.lacks r = true ∨ b.lacks r = true := by
    by_contra hnone
    have hall : ∀ r, (a.lacks r || b.lacks r) = false := by simpa using hnone
    refine hmixed fun r q => ?_
    rw [dtype_valueOn, dtype_valueOn, hall, hall]
  obtain ⟨i, hi, -⟩ := resultSplit_of_lacks h hsplit hr₀
  obtain ⟨group, hc⟩ := (spans_result ha hb hw hv haxis).members hn
  have hx : ∀ r : Fin n, outcome a b v world r = ⟨(valueOn a b v r).window i
      (Comm.before (Sharded.balancedLengths n v (some i)) r)
      (Sharded.balancedLengths n v (some i) r), v.shape, (valueOn a b v r).dtype, some i,
      (result a b v world r).device, .member group r n⟩ := by
    intro r
    have hlens : Sharded.balancedLengths n (valueOn a b v r) (some i)
        = Sharded.balancedLengths n v (some i) := by
      unfold Sharded.balancedLengths
      rw [shape_valueOn]
    have hwindow := result_eq_window (valueOn a b v r) world hi r
    rw [hlens, shape_valueOn] at hwindow
    rw [outcome_eq ha hb hv h hsplit, hwindow, ← hc r]
    rfl
  obtain ⟨e, hkind, hrun⟩ := Sharded.toGlobal_of_mixed (exact_valueOn a b hv) (shape_valueOn a b v)
    (haxis i hi) (Sharded.sum_balancedLengths v rfl) (hroom i hi) hn hx hmixed
  exact ⟨_, e, hkind, hrun⟩

end

/-- **The element type of a result.**  For all functions but the quotient, every rank gets a
handle of the common element type of the operands.  A quotient is a float on the ranks that
have something of each split operand; the others get an empty shard of the common type.  If the
extent of a split axis is a signed word, the ranks can put the result together if they agree about
its type, and all of them fail with a communication error otherwise. -/
theorem apply_resultType [NeZero n] (op : BinaryFn) (ha : a.Valid) (hb : b.Valid)
    {world : Fin n → Comm} (hw : Comm.Spans world) {s : Shape}
    (h : a.gshape.broadcast b.gshape = some s) (hs : s.volume < Size.modulus)
    (hsplit : ∀ i j, a.axisIn (ndim a b) a.split = some i →
      b.axisIn (ndim a b) b.split = some j → i = j) :
    ∃ (ev : List Event) (x : Fin n → Sharded),
      Attempt.Runs (apply op a b world) (fun r => (ev, .ok (x r))) ∧
      (op ≠ .div → ∀ r, (x r).dtype = resultDType a b) ∧
      (op = .div → ∀ r, (x r).dtype
        = if a.lacks r || b.lacks r then resultDType a b else (resultDType a b).toFloat) ∧
      ((∀ i, resultSplit a b = some i → s.getD i 1 < 2 ^ 63) →
        ((∀ r q, (x r).dtype = (x q).dtype) → ∃ (ev' : Fin n → List Event) (t : Tensor),
          t.shape = s ∧ t.dtype = (x 0).dtype ∧
            Attempt.Runs (fun r => (x r).toGlobal) fun r => (ev' r, .ok t)) ∧
        (¬ (∀ r q, (x r).dtype = (x q).dtype) →
          ∃ (ev' : Fin n → List Event) (e : Fin n → Error), (∀ r, (e r).kind = .communication) ∧
            Attempt.Runs (fun r => (x r).toGlobal) fun r =>
              (ev' r, .error (.error (e r))))) := by
  obtain ⟨v, ev, -, hv, rfl, hvd, haxis, hrun⟩ := binary_runs_outcome op ha hb world h hs hsplit
  -- a rank without elements never runs the kernel, so it reports the type before the function
  have hdtype : ∀ r, (outcome a b v world r).dtype
      = if a.lacks r || b.lacks r then resultDType a b else op.resultType (resultDType a b) := by
    intro r
    rw [outcome_eq ha hb hv h hsplit, ← hvd]
    exact dtype_valueOn a b v r
  refine ⟨ev, outcome a b v world, ?_, ?_, ?_, fun hroom => ⟨?_, ?_⟩⟩
  · rw [apply_eq op ha hb]
    exact hrun
  · intro hop r
    rw [hdtype, BinaryFn.resultType_of_ne hop, ite_self]
  · rintro rfl r
    exact hdtype r
  · intro hsame
    exact toGlobal_outcome ha hb hw hv h hsplit haxis hroom hsame
  · intro hmixed
    exact toGlobal_outcome_of_mixed ha hb hw hv h hsplit haxis hroom hmixed

/-- Two words on three ranks, halved: the last rank has nothing to halve. -/
theorem apply_resultType_two_words :
    ∃ (ev : List Event) (x : Fin 3 → Sharded),
      Attempt.Runs (apply .div
          (.tensor ⟨[2], ⟨.i32, [.ofInt 1, .ofInt 2]⟩⟩ (some 0) fun r => .member 0 r 3)
          (.scalar (.int (.ofInt 2))) fun r => .member 0 r 3)
        (fun r => (ev, .ok (x r))) ∧
      (x 0).dtype = .f32 ∧ (x 2).dtype = .i32 ∧
      ∃ (ev' : Fin 3 → List Event) (e : Fin 3 → Error), (∀ r, (e r).kind = .communication) ∧
        Attempt.Runs (fun r => (x r).toGlobal) fun r => (ev' r, .error (.error (e r))) := by
  let a : Source 3 :=
    .tensor ⟨[2], ⟨.i32, [.ofInt 1, .ofInt 2]⟩⟩ (some 0) fun r => .member 0 r 3
  let b : Source 3 := .scalar (.int (.ofInt 2))
  have ht : Tensor.Exact ⟨[2], ⟨.i32, [.ofInt 1, .ofInt 2]⟩⟩ :=
    ⟨rfl, (by decide : Shape.volume [2] < Size.modulus)⟩
  have hc : Comm.Spans fun r : Fin 3 => .member 0 r 3 := .inl ⟨0, fun _ => rfl⟩
  have ha : a.Valid := ⟨ht, fun i hi => Option.some.inj hi ▸ Nat.one_pos, hc⟩
  obtain ⟨ev, x, hrun, -, hdtype, hassembled⟩ := apply_resultType .div (b := b) ha trivial hc
    (s := [2]) rfl (by decide) (fun i j _ hj => nomatch hj)
  have h0 : (x 0).dtype = .f32 := (hdtype rfl 0).trans (by decide)
  have h2 : (x 2).dtype = .i32 := (hdtype rfl 2).trans (by decide)
  have hne : ¬ ∀ r q, (x r).dtype = (x q).dtype := by
    intro hsame
    have h02 := hsame 0 2
    rw [h0, h2] at h02
    exact absurd h02 (by decide)
  have hroom : ∀ i, resultSplit a b = some i → [2].getD i 1 < 2 ^ 63 := by
    intro i hi
    obtain rfl : 0 = i := Option.some.inj hi
    decide
  exact ⟨ev, x, hrun, h0, h2, (hassembled hroom).2 hne⟩

end Source

end SpmdArray
