/-
`eina_promise_all_array` and `eina_promise_race_array`: promises made of an array of futures.

Each future of the array is followed by one with `_all_then_cb` or `_race_then_cb`, which share a
context.  The callbacks find their place in it by the future that is dispatched, and free it:
the race with its first future, by cancelling the others, whose callbacks come back to the
context while its loop goes on.  A read of freed memory has no result here.

There are fewer than 2 ^ 32 futures, memory is always there, and the values are ones that can be
copied into the struct of the race and the array of all: for a value that cannot, `err_set` delivers
ENOMEM to the race, and the array keeps its empty value at that place.
-/
import Mathlib.Data.List.Perm.Basic
import Mathlib.Data.List.Nodup

namespace Eina.Promise

open List

/-- The world of one composed promise: its context and itself until they are freed, the futures
of the array that are neither delivered nor cancelled, those that were cancelled, and what
the promise was delivered. -/
structure World (C R : Type) where
  ctx : Option C
  promise : Bool := true
  live : List Nat
  cancels : List Nat := []
  delivered : List R := []

variable {C R V : Type}

/-- `_eina_promise_clean_dispatch` -/
def World.cleanDispatch (w : World C R) (result : R) : Option (World C R) :=
  if w.promise then some { w with promise := false, delivered := w.delivered ++ [result] }
  else none

/-- `_eina_future_cancel` of a future of the context: the chain of the future of the array is
cancelled, and `cb` is called for it. -/
def World.futureCancel (cb : World C R → Nat → Option (World C R)) (w : World C R) (f : Nat) :
    Option (World C R) :=
  if f ∈ w.live then cb { w with live := w.live.erase f, cancels := w.cancels ++ [f] } f else none

/-- The loop of `_base_ctx_clean`. -/
def baseCtxClean (futures : C → List (Option Nat)) (cb : World C R → Nat → Option (World C R))
    (w : World C R) (i : Nat) : Option (World C R) :=
  w.ctx.bind fun ctx =>
    match (futures ctx)[i]? with
    | some (some f) => w.futureCancel cb f
    | _ => some w

/-- `_all_promise_ctx_free` and `_race_promise_ctx_free` -/
def promiseCtxFree (futures : C → List (Option Nat))
    (cb : World C R → Nat → Option (World C R)) (w : World C R) : Option (World C R) :=
  w.ctx.bind fun ctx =>
    ((range (futures ctx).length).foldlM (baseCtxClean futures cb) w).map fun w =>
      { w with ctx := none }

/-- `_future_unset` -/
def futureUnset (futures : List (Option Nat)) (dead : Nat) : Option (Nat × List (Option Nat)) :=
  (futures.findIdx? (· == some dead)).map fun i => (i, futures.set i none)

/-- `All_Promise_Ctx` -/
structure AllCtx (V : Type) where
  futures : List (Option Nat)
  cancelled : Bool := false
  values : List V
  processed : Nat := 0

/-- `Race_Promise_Ctx` -/
structure RaceCtx where
  futures : List (Option Nat)
  cancelled : Bool := false
  dispatching : Bool := false

variable (ecanceled : V)

/-- `_all_then_cb`, with callbacks in callbacks down to a depth. -/
def allThenCb : Nat → V → World (AllCtx V) (List V) → Nat → Option (World (AllCtx V) (List V))
  | 0, _, _, _ => none
  | depth + 1, v, w, dead =>
    w.ctx.bind fun ctx =>
      (futureUnset ctx.futures dead).bind fun (i, futures) =>
        let ctx := { ctx with
          futures := futures, processed := ctx.processed + 1, values := ctx.values.set i v }
        if ctx.processed = futures.length then
          ({ w with ctx := some ctx }.cleanDispatch ctx.values).bind fun w =>
            let w := { w with ctx := some { ctx with values := [] } }
            if ctx.cancelled then some w
            else promiseCtxFree AllCtx.futures (allThenCb depth ecanceled) w
        else some { w with ctx := some ctx }

/-- `_race_then_cb`, which gives the promise the value and the index. -/
def raceThenCb : Nat → V → World RaceCtx (V × Nat) → Nat → Option (World RaceCtx (V × Nat))
  | 0, _, _, _ => none
  | depth + 1, v, w, dead =>
    w.ctx.bind fun ctx =>
      (futureUnset ctx.futures dead).bind fun (i, futures) =>
        if ctx.dispatching then some { w with ctx := some { ctx with futures := futures } }
        else
          let ctx := { ctx with futures := futures, dispatching := true }
          let w := { w with ctx := some ctx }
          (if ctx.cancelled then some w
            else promiseCtxFree RaceCtx.futures (raceThenCb depth ecanceled) w).bind fun w =>
              w.cleanDispatch (v, i)

/-- `eina_promise_all_array` of `n` futures. -/
def allArray (n : Nat) (stub : V) : World (AllCtx V) (List V) where
  ctx := some { futures := (range n).map some, values := replicate n stub }
  live := range n

/-- `eina_promise_race_array` of `n` futures. -/
def raceArray (n : Nat) : World RaceCtx (V × Nat) where
  ctx := some { futures := (range n).map some }
  live := range n

/-- A future of the array is delivered, which calls `cb` unless it was cancelled before. -/
def World.deliver (cb : World C R → Nat → Option (World C R)) (w : World C R) (i : Nat) :
    Option (World C R) :=
  if i ∈ w.live then cb { w with live := w.live.erase i } i else some w

/-- The futures of the array are delivered in an order, the `i`-th one with `v i`. -/
def deliverAll (v : Nat → V) (w : World (AllCtx V) (List V)) (order : List Nat) :
    Option (World (AllCtx V) (List V)) :=
  order.foldlM (World.deliver fun w i => allThenCb ecanceled 2 (v i) w i) w

def deliverRace (v : Nat → V) (w : World RaceCtx (V × Nat)) (order : List Nat) :
    Option (World RaceCtx (V × Nat)) :=
  order.foldlM (World.deliver fun w i => raceThenCb ecanceled 2 (v i) w i) w

/-! ### The places of a context -/

/-- The futures of a context when some of `n` are gone. -/
def slots (n : Nat) (gone : List Nat) : List (Option Nat) :=
  (range n).map fun i => if i ∈ gone then none else some i

variable {ecanceled} {n i : Nat} {gone : List Nat} {stub : V} {v : Nat → V} {k : Nat}

@[simp] theorem length_slots (n : Nat) (gone : List Nat) : (slots n gone).length = n := by
  simp [slots]

theorem getElem_slots (hi : i < n) (gone : List Nat) :
    (slots n gone)[i]? = some (if i ∈ gone then none else some i) := by
  simp [slots, hi]

theorem futureUnset_slots (hi : i < n) (hleft : i ∉ gone) :
    futureUnset (slots n gone) i = some (i, slots n (i :: gone)) := by
  have hfound : (slots n gone).findIdx? (· == some i) = some i := by
    rw [findIdx?_eq_some_iff_getElem]
    refine ⟨by simpa using hi, by simp [slots, hleft], fun j hj => ?_⟩
    by_cases hgone : j ∈ gone
    · simp [slots, hgone]
    · simp [slots, Nat.ne_of_lt hj]
  have hset : (slots n gone).set i none = slots n (i :: gone) := by
    refine ext_getElem (by simp) fun j hj _ => ?_
    rw [getElem_set]
    split
    · simp [slots, *]
    · simp [slots, Ne.symm ‹_›]
  rw [futureUnset, hfound, Option.map_some, hset]

theorem filter_erase_range (n i : Nat) (gone : List Nat) :
    ((range n).filter (· ∉ gone)).erase i = (range n).filter (· ∉ i :: gone) := by
  rw [(nodup_range.filter _).erase_eq_filter, filter_filter]
  refine filter_congr fun j _ => ?_
  by_cases hj : j = i <;> simp [hj]

/-! ### All -/

/-- The values of a context when some of `n` futures were delivered. -/
def filled (n : Nat) (stub : V) (v : Nat → V) (gone : List Nat) : List V :=
  (range n).map fun i => if i ∈ gone then v i else stub

theorem filled_set (n i : Nat) (gone : List Nat) :
    (filled n stub v gone).set i (v i) = filled n stub v (i :: gone) := by
  refine ext_getElem (by simp [filled]) fun j hj _ => ?_
  rw [getElem_set]
  split
  · simp [filled, *]
  · simp [filled, Ne.symm ‹_›]

/-- The world of `eina_promise_all_array` when some futures are delivered. -/
def pending (n : Nat) (stub : V) (v : Nat → V) (gone : List Nat) : World (AllCtx V) (List V) where
  ctx := some
    { futures := slots n gone, values := filled n stub v gone, processed := gone.length }
  live := (range n).filter (· ∉ gone)

theorem allArray_eq (n : Nat) (stub : V) (v : Nat → V) : allArray n stub = pending n stub v [] := by
  simp [allArray, pending, slots, filled]

theorem deliver_pending (hi : i < n) (hleft : i ∉ gone) (hmore : gone.length + 1 ≠ n) :
    (pending n stub v gone).deliver (fun w i => allThenCb ecanceled 2 (v i) w i) i =
      some (pending n stub v (i :: gone)) := by
  have hlive : i ∈ (pending n stub v gone).live := by simp [pending, hi, hleft]
  rw [World.deliver, if_pos hlive]
  simp only [pending, allThenCb, Option.bind_some, futureUnset_slots hi hleft, length_slots, hmore,
    if_false, filled_set, filter_erase_range, length_cons]

theorem promiseCtxFree_gone {futures : C → List (Option Nat)} {ctx : C} {w : World C R}
    {cb : World C R → Nat → Option (World C R)} (hctx : w.ctx = some ctx)
    (hfutures : futures ctx = slots n gone) (hgone : ∀ j < n, j ∈ gone) :
    promiseCtxFree futures cb w = some { w with ctx := none } := by
  have hstay : ∀ l : List Nat, (∀ j ∈ l, j < n) →
      l.foldlM (baseCtxClean futures cb) w = some w := by
    intro l hl
    induction l with
    | nil => rfl
    | cons j l ih =>
      have hj := hl j mem_cons_self
      have hstep : baseCtxClean futures cb w j = some w := by
        simp [baseCtxClean, hctx, hfutures, getElem_slots hj, hgone j hj]
      rw [foldlM_cons, hstep]
      exact ih fun k hk => hl k (mem_cons_of_mem _ hk)
  rw [promiseCtxFree, hctx, Option.bind_some, hstay _ (by simp [hfutures])]
  rfl

theorem deliver_last (hi : i < n) (hleft : i ∉ gone) (hall : ∀ j < n, j ∈ i :: gone)
    (hlen : gone.length + 1 = n) :
    (pending n stub v gone).deliver (fun w i => allThenCb ecanceled 2 (v i) w i) i =
      some { ctx := none, promise := false, live := [], delivered := [(range n).map v] } := by
  have hlive : i ∈ (pending n stub v gone).live := by simp [pending, hi, hleft]
  have hvalues : filled n stub v (i :: gone) = (range n).map v :=
    map_congr_left fun j hj => if_pos (hall j (mem_range.1 hj))
  have hnone : (range n).filter (· ∉ i :: gone) = [] :=
    filter_eq_nil_iff.2 fun j hj => by
      simpa [or_iff_not_imp_left] using hall j (mem_range.1 hj)
  rw [World.deliver, if_pos hlive, allThenCb]
  simp only [pending, Option.bind_some, futureUnset_slots hi hleft, length_slots, hlen, if_true,
    filled_set, World.cleanDispatch, hvalues, filter_erase_range, hnone]
  rw [if_neg (by simp)]
  exact promiseCtxFree_gone rfl rfl hall

/-- Before the last delivery the promise of all is pending. -/
theorem deliverAll_take {order : List Nat} (horder : order ~ range n) (hk : k < n) :
    deliverAll ecanceled v (allArray n stub) (order.take k) =
      some (pending n stub v (order.take k).reverse) := by
  have hlen : order.length = n := by simpa using horder.length_eq
  have hnodup : order.Nodup := horder.nodup_iff.2 nodup_range
  induction k with
  | zero => rw [allArray_eq n stub]; rfl
  | succ k ih =>
    have hlt : k < order.length := by omega
    have hmem : order[k] < n := mem_range.1 (horder.subset (getElem_mem hlt))
    have hnew : order[k] ∉ (order.take k).reverse := by
      rw [mem_reverse, mem_take_iff_getElem]
      rintro ⟨j, hj, heq⟩
      have := (hnodup.getElem_inj_iff).1 heq
      omega
    rw [take_succ_eq_append_getElem, deliverAll, foldlM_append]
    have ih := ih (by omega)
    rw [deliverAll] at ih
    rw [ih]
    simp only [Option.bind_eq_bind, Option.bind_some, foldlM_cons]
    rw [deliver_pending hmem hnew (by simp; omega), reverse_append]
    rfl

theorem deliverAll_order {order : List Nat} (horder : order ~ range n) (hn : 0 < n) :
    deliverAll ecanceled v (allArray n stub) order =
      some { ctx := none, promise := false, live := [], delivered := [(range n).map v] } := by
  have hlen : order.length = n := by simpa using horder.length_eq
  have hnodup : order.Nodup := horder.nodup_iff.2 nodup_range
  obtain ⟨front, i, rfl⟩ : ∃ front i, order = front ++ [i] :=
    ⟨_, _, (dropLast_append_getLast (ne_nil_of_length_pos (by omega))).symm⟩
  have hfront : front.length + 1 = n := by simpa using hlen
  have hprefix : deliverAll ecanceled v (allArray n stub) ((front ++ [i]).take front.length) =
      some (pending n stub v ((front ++ [i]).take front.length).reverse) :=
    deliverAll_take horder (by omega)
  rw [take_left, deliverAll] at hprefix
  rw [deliverAll, foldlM_append, hprefix]
  simp only [Option.bind_eq_bind, Option.bind_some, foldlM_cons]
  rw [deliver_last (mem_range.1 (horder.subset (by simp)))
    (fun hi => (nodup_append.1 hnodup).2.2 i (by simpa using hi) i (by simp) rfl)
    (fun j hj => ?_) (by simpa using hfront)]
  · rfl
  · simpa [or_comm] using horder.symm.subset (mem_range.2 hj)

/-! ### The race -/

/-- The world of `eina_promise_race_array` while the first future's callback cancels the others. -/
def dispatching (n : Nat) (first : Nat) (gone : List Nat) : World RaceCtx (V × Nat) where
  ctx := some { futures := slots n (first :: gone), dispatching := true }
  live := (range n).filter (· ∉ first :: gone)
  cancels := gone

variable {first : Nat}

theorem slots_congr {gone' : List Nat} (h : ∀ j, j ∈ gone ↔ j ∈ gone') :
    slots n gone = slots n gone' := by
  simp [slots, h]

theorem baseCtxClean_first (hi : first < n) :
    baseCtxClean RaceCtx.futures (raceThenCb ecanceled 1 ecanceled) (dispatching n first gone)
      first = some (dispatching n first gone) := by
  simp only [baseCtxClean, dispatching, Option.bind_some, getElem_slots hi, mem_cons_self, if_true]

theorem baseCtxClean_other (hi : i < n) (hfirst : i ≠ first) (hleft : i ∉ gone) :
    baseCtxClean RaceCtx.futures (raceThenCb ecanceled 1 ecanceled) (dispatching n first gone) i =
      some (dispatching n first (gone ++ [i])) := by
  have hslot : i ∉ first :: gone := by simp [hfirst, hleft]
  have hmem : i ∈ (dispatching (V := V) n first gone).live :=
    mem_filter.2 ⟨mem_range.2 hi, by simpa using hslot⟩
  have hgone : ∀ j, j ∈ i :: first :: gone ↔ j ∈ first :: (gone ++ [i]) := by
    simp only [mem_cons, mem_append]
    tauto
  have hlive : ((range n).filter (· ∉ first :: gone)).erase i =
      (range n).filter (· ∉ first :: (gone ++ [i])) := by
    rw [filter_erase_range]
    exact filter_congr fun j _ => by rw [decide_eq_decide, hgone]
  have hclean : baseCtxClean RaceCtx.futures (raceThenCb ecanceled 1 ecanceled)
      (dispatching n first gone) i =
        (dispatching n first gone).futureCancel (raceThenCb ecanceled 1 ecanceled) i := by
    simp only [baseCtxClean, dispatching, Option.bind_some, getElem_slots hi, if_neg hslot]
  rw [hclean, World.futureCancel, if_pos hmem]
  simp only [raceThenCb, dispatching, Option.bind_some, futureUnset_slots hi hslot, if_true,
    slots_congr hgone, hlive]

theorem foldlM_baseCtxClean (hfirst : first < n) (hk : k ≤ n) :
    (range k).foldlM (baseCtxClean RaceCtx.futures (raceThenCb ecanceled 1 ecanceled))
      (dispatching n first []) = some (dispatching n first ((range k).filter (· ≠ first))) := by
  induction k with
  | zero => rfl
  | succ k ih =>
    rw [range_succ, foldlM_append, ih (by omega)]
    simp only [Option.bind_eq_bind, Option.bind_some, foldlM_cons]
    by_cases h : k = first
    · rw [h, baseCtxClean_first hfirst]
      simp
    · rw [baseCtxClean_other (by omega) h (by simp)]
      simp [h]

/-- The world after a race that the `first` future won. -/
def won (n : Nat) (v : Nat → V) (first : Nat) : World RaceCtx (V × Nat) where
  ctx := none
  promise := false
  live := []
  cancels := (range n).filter (· ≠ first)
  delivered := [(v first, first)]

/-- The first delivery wins, and cancels the others. -/
theorem deliver_raceArray (hi : first < n) :
    (raceArray n).deliver (fun w i => raceThenCb ecanceled 2 (v i) w i) first =
      some (won n v first) := by
  have hstart : raceArray (V := V) n =
      { ctx := some { futures := slots n [] }, live := range n } := by
    simp [raceArray, slots]
  have hlive : (range n).erase first = (range n).filter (· ∉ [first]) := by
    simpa using filter_erase_range n first []
  have hnone : (range n).filter (· ∉ first :: (range n).filter (· ≠ first)) = [] :=
    filter_eq_nil_iff.2 fun j hj => by
      by_cases h : j = first <;> simp_all
  have hcb : (raceArray n).deliver (fun w i => raceThenCb ecanceled 2 (v i) w i) first =
      (promiseCtxFree RaceCtx.futures (raceThenCb ecanceled 1 ecanceled)
        (dispatching n first [])).bind fun w => w.cleanDispatch (v first, first) := by
    rw [hstart, World.deliver, if_pos (mem_range.2 hi), raceThenCb]
    simp only [Option.bind_some, futureUnset_slots hi not_mem_nil, hlive]
    rfl
  have hfree : promiseCtxFree RaceCtx.futures (raceThenCb ecanceled 1 ecanceled)
      (dispatching n first []) =
        some { dispatching n first ((range n).filter (· ≠ first)) with ctx := none } := by
    rw [promiseCtxFree, dispatching, Option.bind_some, length_slots, ← dispatching,
      foldlM_baseCtxClean hi n.le_refl]
    rfl
  rw [hcb, hfree, Option.bind_some]
  simp only [World.cleanDispatch, dispatching, hnone, if_true, nil_append, won]

theorem deliverRace_cons (hi : first < n) (order : List Nat) :
    deliverRace ecanceled v (raceArray n) (first :: order) = some (won n v first) := by
  rw [deliverRace, foldlM_cons, deliver_raceArray hi]
  simp only [Option.bind_eq_bind]
  induction order with
  | nil => rfl
  | cons i order ih => exact ih

/-- **The promise of all the futures is delivered once, with the last of them, the array of their
values; the promise of a race once, with the first of them, which cancels the others once.** -/
theorem allArray_raceArray (ecanceled stub : V) (v : Nat → V) (hn : 0 < n) {order : List Nat}
    (horder : order ~ range n) :
    (∀ k < n, ∃ w, deliverAll ecanceled v (allArray n stub) (order.take k) = some w ∧
      w.delivered = []) ∧
    (∃ w, deliverAll ecanceled v (allArray n stub) order = some w ∧
      w.delivered = [(range n).map v]) ∧
    ∃ first, order.head? = some first ∧ ∀ k, 0 < k → ∃ w,
      deliverRace ecanceled v (raceArray n) (order.take k) = some w ∧
        w.delivered = [(v first, first)] ∧
        ∀ i, w.cancels.count i = if i < n ∧ i ≠ first then 1 else 0 := by
  refine ⟨fun k hk => ⟨_, deliverAll_take horder hk, rfl⟩,
    ⟨_, deliverAll_order horder hn, rfl⟩, ?_⟩
  cases order with
  | nil => exact absurd horder.length_eq (by simpa using Nat.ne_of_lt hn)
  | cons first order =>
    have hi : first < n := mem_range.1 (horder.subset mem_cons_self)
    refine ⟨first, rfl, fun k hk => ?_⟩
    obtain ⟨k, rfl⟩ := Nat.exists_eq_succ_of_ne_zero (Nat.ne_of_gt hk)
    refine ⟨won n v first, by rw [take_succ_cons]; exact deliverRace_cons hi _, rfl, fun i => ?_⟩
    rw [won, (nodup_range.filter _).count]
    simp

theorem allArray_raceArray_two :
    (∀ k < 2, ∃ w, deliverAll 9 (· + 5) (allArray 2 0) ([1, 0].take k) = some w ∧
      w.delivered = []) ∧
    (∃ w, deliverAll 9 (· + 5) (allArray 2 0) [1, 0] = some w ∧
      w.delivered = [(range 2).map (· + 5)]) ∧
    ∃ first, [1, 0].head? = some first ∧ ∀ k, 0 < k → ∃ w,
      deliverRace 9 (· + 5) (raceArray 2) ([1, 0].take k) = some w ∧
        w.delivered = [(first + 5, first)] ∧
        ∀ i, w.cancels.count i = if i < 2 ∧ i ≠ first then 1 else 0 :=
  allArray_raceArray 9 0 (· + 5) (by decide) (by decide)

end Eina.Promise
