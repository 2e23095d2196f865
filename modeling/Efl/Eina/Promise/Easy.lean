/-
`eina_future_chain_easy_array` and what it calls when it fails.

Entries are released in three places: the futures that are linked already are cancelled, the
entry that failed is dispatched as a fake future, and a last loop goes through the rest.  The
first loop takes an entry for the end of the array that has nothing set, but the last one any
entry without `error` and `free`; and an entry whose copy was not allocated is lost.
-/
import Mathlib.Data.List.Nodup
import Mathlib.Data.List.Enum
import Mathlib.Data.Nat.Find

namespace Eina.Promise

open List

/-- A call of a callback of an entry. -/
inductive Call where
  | success (entry : Nat)
  | error (entry : Nat)
  | free (entry : Nat)
  deriving DecidableEq, Repr

/-- `Eina_Future_Cb_Easy_Desc`: which callbacks are set, and the type of values it expects.
The array ends with the first entry that has nothing set. -/
structure CbEasyDesc where
  success : Bool := false
  error : Bool := false
  free : Bool := false
  successType : Option Nat := none
  given : success || error || free || successType.isSome := by decide
  deriving DecidableEq

/-- What a future gets: an error, or a value of a type. -/
inductive Value where
  | error
  | typed (type : Option Nat)

/-- `ERROR_DISPATCH` -/
def errorDispatch (cbs : CbEasyDesc) (entry : Nat) : List Call :=
  if cbs.error then [.error entry] else []

/-- `EASY_FUTURE_DISPATCH` -/
def easyFutureDispatch (value : Value) (cbs : CbEasyDesc) (entry : Nat) : List Call :=
  (match value with
    | .error => errorDispatch cbs entry
    | .typed type =>
      if cbs.successType = none ∨ type = cbs.successType then
        if cbs.success then [.success entry] else []
      else errorDispatch cbs entry) ++
    if cbs.free then [.free entry] else []

/-- A future of the array: the copy of the entry, if there was memory for it. -/
structure Future where
  data : Option CbEasyDesc
  entry : Nat

/-- `_eina_future_cb_easy` -/
def Future.cbEasy (value : Value) (f : Future) : List Call :=
  match f.data with
  | none => []
  | some d => easyFutureDispatch value d f.entry

/-- Which requests are granted: of `eina_future_cb_easy_from_desc` for the copy of an entry, and
of `_eina_future_new` for its future. -/
structure Memory where
  desc : Nat → Bool
  future : Nat → Bool

variable (mem : Memory)

/-- `eina_future_cb_easy_from_desc` -/
def cbEasyFromDesc (x : CbEasyDesc × Nat) : Future :=
  ⟨if mem.desc x.2 then some x.1 else none, x.2⟩

/-- The future the array is chained to.  A live one may be in its own callback. -/
inductive Prev where
  | null
  | dead
  | chained
  | live (dispatched : Bool)
  deriving DecidableEq

/-- `_eina_future_cancel` of a chain, which stops at a future in its callback. -/
def futureCancel (dispatched : Bool) (linked : List Future) : List Call :=
  if dispatched then [] else linked.flatMap (Future.cbEasy .error)

/-- `_eina_future_then`: the futures linked so far, or the calls of `_fake_future_dispatch` and
of the cancelled chain. -/
def futureThen (dispatched : Bool) (linked : List Future) (f : Future) :
    Except (List Call) (List Future) :=
  if mem.future f.entry then .ok (linked ++ [f])
  else .error (f.cbEasy .error ++ futureCancel dispatched linked)

/-- The last loop, from an entry on. -/
def releaseRest : List CbEasyDesc → Nat → List Call
  | [], _ => []
  | d :: ds, i =>
    if d.error || d.free then
      (if d.error then [.error i] else []) ++ (if d.free then [.free i] else []) ++
        releaseRest ds (i + 1)
    else []

/-- The first loop. -/
def chainRest (dispatched : Bool) :
    List CbEasyDesc → Nat → List Future → Except (List Call) (List Future)
  | [], _, linked => .ok linked
  | d :: ds, i, linked =>
    match futureThen mem dispatched linked (cbEasyFromDesc mem (d, i)) with
    | .ok linked => chainRest dispatched ds (i + 1) linked
    | .error calls => .error (calls ++ releaseRest ds (i + 1))

/-- `eina_future_chain_easy_array`: the futures, or the calls of a failure that returns `NULL`.
What a chain behind a chained `prev` calls is not of this array. -/
def futureChainEasyArray (prev : Prev) (descs : List CbEasyDesc) :
    Except (List Call) (List Future) :=
  match prev with
  | .live dispatched => chainRest mem dispatched descs 0 []
  | _ => .error (releaseRest descs 0)

/-! ### The entries that are released -/

/-- The calls that release an entry. -/
def releaseCalls (x : CbEasyDesc × Nat) : List Call := easyFutureDispatch .error x.1 x.2

/-- The free callback is called once, and the error callback once and before it. -/
def Released (calls : List Call) (d : CbEasyDesc) (i : Nat) : Prop :=
  (d.free → calls.count (.free i) = 1) ∧ (d.error → calls.count (.error i) = 1) ∧
    (d.error → d.free → [.error i, .free i] <+ calls)

variable {xs : List (CbEasyDesc × Nat)} {d : CbEasyDesc} {i n : Nat} {mem} (x : CbEasyDesc × Nat)
  (ds : List CbEasyDesc)

theorem count_error (i : Nat) :
    (releaseCalls x).count (.error i) = if x.1.error ∧ x.2 = i then 1 else 0 := by
  unfold releaseCalls easyFutureDispatch errorDispatch
  cases x.1.error <;> cases x.1.free <;> simp [count_cons]

theorem count_free (i : Nat) :
    (releaseCalls x).count (.free i) = if x.1.free ∧ x.2 = i then 1 else 0 := by
  unfold releaseCalls easyFutureDispatch errorDispatch
  cases x.1.error <;> cases x.1.free <;> simp [count_cons]

/-- Entries are told apart by their index. -/
def Indexed (xs : List (CbEasyDesc × Nat)) (d : CbEasyDesc) (i : Nat) : Prop :=
  (xs.map Prod.snd).Nodup ∧ ∀ x ∈ xs, x.2 = i → x.1 = d

theorem Indexed.tail {x : CbEasyDesc × Nat} (h : Indexed (x :: xs) d i) : Indexed xs d i :=
  ⟨(nodup_cons.mp h.1).2, fun y hy => h.2 y (mem_cons_of_mem x hy)⟩

theorem count_calls {c : Call} {p : CbEasyDesc → Bool}
    (hc : ∀ x, (releaseCalls x).count c = if p x.1 ∧ x.2 = i then 1 else 0)
    (h : Indexed xs d i) :
    (xs.flatMap releaseCalls).count c = if p d ∧ (d, i) ∈ xs then 1 else 0 := by
  induction xs with
  | nil => simp
  | cons x xs ih =>
    rw [flatMap_cons, count_append, hc, ih h.tail]
    by_cases hx : x.2 = i
    · obtain rfl := hx
      obtain rfl := h.2 x mem_cons_self rfl
      have hnot : (x.1, x.2) ∉ xs := fun hmem =>
        (nodup_cons.mp h.1).1 (mem_map.mpr ⟨_, hmem, rfl⟩)
      simp [hnot]
    · have hne : (d, i) ≠ x := fun heq => hx (by rw [← heq])
      simp [hx, hne]

/-- **Of the entries with something to call, those of the list are released.** -/
theorem released_iff (h : Indexed xs d i) : Released (xs.flatMap releaseCalls) d i ↔
    (d.error ∨ d.free → (d, i) ∈ xs) := by
  rw [Released, count_calls (fun x => count_free x i) h, count_calls (fun x => count_error x i) h]
  by_cases hmem : (d, i) ∈ xs
  · refine iff_of_true ⟨by simp_all, by simp_all, fun herror hfree => ?_⟩ fun _ => hmem
    have hcalls : releaseCalls (d, i) = [.error i, .free i] := by
      simp [releaseCalls, easyFutureDispatch, errorDispatch, herror, hfree]
    rw [← hcalls]
    exact sublist_flatten_of_mem (mem_map_of_mem hmem)
  · simp only [hmem, and_false]
    constructor
    · rintro ⟨hfree, herror, -⟩ (h | h)
      · exact absurd (herror h) (by decide)
      · exact absurd (hfree h) (by decide)
    · intro hnone
      refine ⟨fun h => absurd (.inr h) hnone, fun h => absurd (.inl h) hnone, fun h => ?_⟩
      exact absurd (.inl h) hnone

/-! ### The loops -/

/-- An entry the last loop does not stop at. -/
def noisy (x : CbEasyDesc × Nat) : Bool := x.1.error || x.1.free

theorem releaseRest_eq (i : Nat) :
    releaseRest ds i = ((ds.zipIdx i).takeWhile noisy).flatMap releaseCalls := by
  induction ds generalizing i with
  | nil => rfl
  | cons d ds ih =>
    rw [zipIdx_cons, takeWhile_cons, releaseRest, ih]
    cases h : noisy (d, i)
    · rw [if_neg (by simpa [noisy] using h)]
      rfl
    · rw [if_pos (by simpa [noisy] using h)]
      rfl

theorem cbEasy_error (mem : Memory) (xs : List (CbEasyDesc × Nat)) :
    (xs.map (cbEasyFromDesc mem)).flatMap (Future.cbEasy .error) =
      (xs.filter fun x => mem.desc x.2).flatMap releaseCalls := by
  induction xs with
  | nil => rfl
  | cons x xs ih =>
    rw [map_cons, flatMap_cons, ih, filter_cons]
    by_cases h : mem.desc x.2 = true
    · simp [Future.cbEasy, cbEasyFromDesc, h, releaseCalls]
    · simp [Future.cbEasy, cbEasyFromDesc, h]

theorem mem_takeWhile_noisy (i : Nat) (x : CbEasyDesc × Nat) :
    x ∈ (ds.zipIdx i).takeWhile noisy ↔
      x ∈ ds.zipIdx i ∧ ∀ y ∈ ds.zipIdx i, y.2 ≤ x.2 → noisy y := by
  induction ds generalizing i with
  | nil => simp
  | cons d ds ih =>
    have hlow : ∀ y ∈ ds.zipIdx (i + 1), i < y.2 := fun y hy => le_snd_of_mem_zipIdx hy
    rw [zipIdx_cons, takeWhile_cons]
    cases hd : noisy (d, i) with
    | false =>
      simp only [not_mem_nil, false_iff, if_false, Bool.false_eq_true]
      rintro ⟨hx, hall⟩
      have hle : i ≤ x.2 := by
        rcases mem_cons.mp hx with rfl | hx
        · exact le_rfl
        · exact le_of_lt (hlow x hx)
      exact absurd (hall _ mem_cons_self hle) (by simp [hd])
    | true =>
      simp only [if_true, mem_cons, ih]
      constructor
      · rintro (rfl | ⟨hx, hall⟩)
        · refine ⟨.inl rfl, ?_⟩
          rintro y (rfl | hy) hle
          · exact hd
          · exact absurd (hlow y hy) (not_lt.mpr hle)
        · refine ⟨.inr hx, ?_⟩
          rintro y (rfl | hy) hle
          · exact hd
          · exact hall y hy hle
      · rintro ⟨rfl | hx, hall⟩
        · exact .inl rfl
        · exact .inr ⟨hx, fun y hy => hall y (.inr hy)⟩

variable {dispatched : Bool} {descs front tail : List CbEasyDesc} {calls : List Call} {prev : Prev}

theorem chainRest_ok (dispatched : Bool) (ds : List CbEasyDesc) (i : Nat) (linked : List Future)
    (h : ∀ j < ds.length, mem.future (i + j) = true) :
    ∃ fs, chainRest mem dispatched ds i linked = .ok fs := by
  induction ds generalizing i linked with
  | nil => exact ⟨linked, rfl⟩
  | cons d ds ih =>
    have hi : mem.future i = true := h 0 (by simp)
    simp only [chainRest, futureThen, cbEasyFromDesc, hi]
    refine ih (i + 1) _ fun j hj => ?_
    have hj := h (j + 1) (by simpa using hj)
    rwa [Nat.add_comm j, ← Nat.add_assoc] at hj

theorem chainRest_error (front : List CbEasyDesc) (i : Nat) (linked : List Future)
    (hfail : mem.future (i + front.length) = false)
    (hbefore : ∀ j < front.length, mem.future (i + j) = true) :
    chainRest mem dispatched (front ++ d :: tail) i linked =
      .error ((cbEasyFromDesc mem (d, i + front.length)).cbEasy .error ++
        futureCancel dispatched (linked ++ (front.zipIdx i).map (cbEasyFromDesc mem)) ++
          releaseRest tail (i + front.length + 1)) := by
  induction front generalizing i linked with
  | nil =>
    have hi : mem.future i = false := hfail
    simp [chainRest, futureThen, cbEasyFromDesc, hi]
  | cons e front ih =>
    have hi : mem.future i = true := hbefore 0 (by simp)
    have hstep := ih (i + 1) (linked ++ [cbEasyFromDesc mem (e, i)])
    simp only [length_cons, cons_append, zipIdx_cons, map_cons, chainRest] at hfail hbefore ⊢
    have hlength : i + 1 + front.length = i + (front.length + 1) := by omega
    rw [hlength] at hstep
    simp only [futureThen, cbEasyFromDesc, hi, if_true] at hstep ⊢
    rw [hstep hfail fun j hj => ?_]
    · simp
    · have hj := hbefore (j + 1) (by omega)
      rwa [Nat.add_comm j, ← Nat.add_assoc] at hj

/-! ### When all are released -/

/-- The last loop starts at `rest`: at once, or behind the first future without memory. -/
def FailsAt (mem : Memory) (prev : Prev) (descs : List CbEasyDesc) (rest : Nat) : Prop :=
  match prev with
  | .live _ => ∃ n < descs.length, rest = n + 1 ∧ mem.future n = false ∧
      ∀ j < n, mem.future j = true
  | _ => rest = 0

/-- An entry is released: there was memory for its copy, its chain is not in a callback, and the
last loop does not stop in front of it. -/
def Reached (mem : Memory) (prev : Prev) (descs : List CbEasyDesc) (rest : Nat)
    (x : CbEasyDesc × Nat) : Prop :=
  (x.2 < rest → mem.desc x.2 = true) ∧ (x.2 + 1 < rest → prev ≠ .live true) ∧
    (rest ≤ x.2 → ∀ y ∈ descs.zipIdx, rest ≤ y.2 → y.2 ≤ x.2 → noisy y)

theorem released_of_list {Q : CbEasyDesc × Nat → Prop}
    (hcalls : calls = xs.flatMap releaseCalls) (hnodup : (xs.map Prod.snd).Nodup)
    (hsub : ∀ x ∈ xs, x ∈ descs.zipIdx)
    (hmem : ∀ x ∈ descs.zipIdx, noisy x → (x ∈ xs ↔ Q x)) :
    (∀ x ∈ descs.zipIdx, Released calls x.1 x.2) ↔ ∀ x ∈ descs.zipIdx, noisy x → Q x := by
  refine forall₂_congr fun x hx => ?_
  have hindexed : Indexed xs x.1 x.2 := by
    refine ⟨hnodup, fun y hy hyx => ?_⟩
    have hy := mem_zipIdx_iff_getElem?.mp (hsub y hy)
    rw [hyx, mem_zipIdx_iff_getElem?.mp hx] at hy
    exact (Option.some.inj hy).symm
  rw [hcalls, released_iff hindexed]
  have hnoisy : (x.1.error = true ∨ x.1.free = true) ↔ noisy x = true := by simp [noisy]
  rw [hnoisy]
  exact forall_congr' fun h => hmem x hx h

theorem nodup_indices (descs : List CbEasyDesc) : (descs.zipIdx.map Prod.snd).Nodup := by
  rw [zipIdx_map_snd]
  exact nodup_range'

theorem released_at (dispatched : Bool) (front tail : List CbEasyDesc) (d : CbEasyDesc) :
    (∀ x ∈ (front ++ d :: tail).zipIdx, Released
        ((cbEasyFromDesc mem (d, front.length)).cbEasy .error ++
          futureCancel dispatched (front.zipIdx.map (cbEasyFromDesc mem)) ++
            releaseRest tail (front.length + 1)) x.1 x.2) ↔
      ∀ x ∈ (front ++ d :: tail).zipIdx, noisy x →
        Reached mem (.live dispatched) (front ++ d :: tail) (front.length + 1) x := by
  let granted : CbEasyDesc × Nat → Bool := fun x => mem.desc x.2
  let linked := if dispatched then [] else front.zipIdx.filter granted
  let rest := (tail.zipIdx (front.length + 1)).takeWhile noisy
  have hzip : (front ++ d :: tail).zipIdx =
      front.zipIdx ++ ([(d, front.length)] ++ tail.zipIdx (front.length + 1)) := by
    simp [zipIdx_append]
  have hfront : ∀ x ∈ front.zipIdx, x.2 < front.length := fun x hx => by
    simpa using snd_lt_of_mem_zipIdx hx
  have htail : ∀ x ∈ tail.zipIdx (front.length + 1), front.length < x.2 := fun x hx =>
    le_snd_of_mem_zipIdx hx
  have hlinked : linked <+ front.zipIdx := by
    unfold linked
    split
    · exact nil_sublist _
    · exact filter_sublist
  have hsublist : linked ++ ([(d, front.length)].filter granted ++ rest) <+
      (front ++ d :: tail).zipIdx := by
    rw [hzip]
    exact hlinked.append (filter_sublist.append (takeWhile_sublist _))
  have hperm : [(d, front.length)].filter granted ++ linked ++ rest ~
      linked ++ ([(d, front.length)].filter granted ++ rest) := by
    rw [← append_assoc]
    exact perm_append_comm.append_right _
  have hcancel : futureCancel dispatched (front.zipIdx.map (cbEasyFromDesc mem)) =
      linked.flatMap releaseCalls := by
    cases dispatched
    · exact cbEasy_error mem _
    · rfl
  have hcalls : (cbEasyFromDesc mem (d, front.length)).cbEasy .error ++
      futureCancel dispatched (front.zipIdx.map (cbEasyFromDesc mem)) ++
        releaseRest tail (front.length + 1) =
      ([(d, front.length)].filter granted ++ linked ++ rest).flatMap releaseCalls := by
    rw [flatMap_append, flatMap_append, releaseRest_eq]
    congr 2
    simpa using cbEasy_error mem [(d, front.length)]
  refine released_of_list hcalls ?_ (fun x hx => hsublist.subset (hperm.mem_iff.mp hx)) ?_
  · rw [(hperm.map _).nodup_iff]
    exact (hsublist.map _).nodup (nodup_indices _)
  · have hlinkedmem : ∀ x, x ∈ linked ↔
        dispatched = false ∧ x ∈ front.zipIdx ∧ mem.desc x.2 = true := by
      unfold linked granted
      cases dispatched <;> simp
    have hrestmem : ∀ x, x ∈ rest ↔ _ := mem_takeWhile_noisy tail (front.length + 1)
    intro x hx _
    rw [hzip, mem_append, mem_append, mem_singleton] at hx
    simp only [mem_append, mem_filter, mem_singleton, Reached, hlinkedmem, hrestmem]
    rcases hx with hx | rfl | hx
    · have hlt := hfront x hx
      have hne : x ≠ (d, front.length) := fun heq => absurd hlt (by simp [heq])
      have hnot : x ∉ tail.zipIdx (front.length + 1) := fun hmem =>
        absurd (htail x hmem) (lt_asymm hlt)
      simp [hne, hnot, hx, Nat.lt_succ_of_lt hlt, hlt, not_le.mpr (Nat.lt_succ_of_lt hlt),
        and_comm]
    · have hnot : (d, front.length) ∉ front.zipIdx := fun hmem =>
        lt_irrefl _ (hfront _ hmem)
      have hnot' : (d, front.length) ∉ tail.zipIdx (front.length + 1) := fun hmem =>
        lt_irrefl _ (htail _ hmem)
      simp only [hnot, hnot', granted, Nat.lt_succ_self, lt_irrefl, Nat.not_succ_le_self,
        true_and, false_and, and_false, or_false, false_imp_iff, and_true, true_imp_iff]
    · have hlt := htail x hx
      have hne : x ≠ (d, front.length) := fun heq => absurd hlt (by simp [heq])
      have hnot : x ∉ front.zipIdx := fun hmem => absurd (hfront x hmem) (lt_asymm hlt)
      have hlate : ∀ y ∈ (front ++ d :: tail).zipIdx, front.length + 1 ≤ y.2 →
          y ∈ tail.zipIdx (front.length + 1) := by
        intro y hy hle
        rw [hzip, mem_append, mem_append, mem_singleton] at hy
        rcases hy with hy | rfl | hy
        · exact absurd (hfront y hy) (by omega)
        · exact absurd hle (by simp)
        · exact hy
      have hhigh : ¬x.2 < front.length + 1 := by omega
      have hhigh' : ¬x.2 + 1 < front.length + 1 := by omega
      simp only [hne, hnot, hx, hhigh, hhigh', false_and, and_false, false_or, true_and,
        false_imp_iff]
      constructor
      · intro hall _ y hy hle
        exact hall y (hlate y hy hle)
      · intro hall y hy
        refine hall (Nat.le_of_not_lt hhigh) y ?_ (htail y hy)
        rw [hzip]
        exact mem_append_right _ (mem_append_right _ hy)

theorem released_of_fails {rest : Nat} (h : FailsAt mem prev descs rest) :
    ∃ calls, futureChainEasyArray mem prev descs = .error calls ∧
      ((∀ x ∈ descs.zipIdx, Released calls x.1 x.2) ↔
        ∀ x ∈ descs.zipIdx, noisy x → Reached mem prev descs rest x) := by
  have hidle : ∀ prev, (∀ dispatched, prev ≠ .live dispatched) →
      ((∀ x ∈ descs.zipIdx, Released (releaseRest descs 0) x.1 x.2) ↔
        ∀ x ∈ descs.zipIdx, noisy x → Reached mem prev descs 0 x) := by
    intro prev hprev
    refine released_of_list (releaseRest_eq descs 0) ?_ ?_ ?_
    · exact ((takeWhile_sublist _).map _).nodup (nodup_indices _)
    · exact fun x hx => (takeWhile_sublist _).subset hx
    · intro x hx
      rw [mem_takeWhile_noisy]
      simp [Reached, hx]
  cases prev with
  | null =>
    obtain rfl : rest = 0 := h
    exact ⟨_, rfl, hidle _ nofun⟩
  | dead =>
    obtain rfl : rest = 0 := h
    exact ⟨_, rfl, hidle _ nofun⟩
  | chained =>
    obtain rfl : rest = 0 := h
    exact ⟨_, rfl, hidle _ nofun⟩
  | live dispatched =>
    obtain ⟨n, hn, rfl, hfail, hbefore⟩ := h
    obtain ⟨front, d, tail, rfl, rfl⟩ : ∃ front d tail, descs = front ++ d :: tail ∧
        n = front.length := by
      refine ⟨descs.take n, descs[n], descs.drop (n + 1), ?_, ?_⟩
      · simp
      · rw [length_take, min_eq_left (le_of_lt hn)]
    refine ⟨_, ?_, released_at dispatched front tail d⟩
    rw [futureChainEasyArray, chainRest_error front 0 [] (by simpa using hfail)
      (by simpa using hbefore)]
    simp

theorem fails_of_error
    (h : futureChainEasyArray mem prev descs = .error calls) :
    ∃ rest, FailsAt mem prev descs rest := by
  cases prev with
  | null | dead | chained => exact ⟨0, rfl⟩
  | live dispatched =>
    by_cases hall : ∀ j < descs.length, mem.future j = true
    · obtain ⟨fs, hfs⟩ := chainRest_ok dispatched descs 0 [] (by simpa using hall)
      rw [futureChainEasyArray, hfs] at h
      cases h
    · have hsome : ∃ n < descs.length, mem.future n = false := by simpa using hall
      refine ⟨Nat.find hsome + 1, Nat.find hsome, (Nat.find_spec hsome).1, rfl,
        (Nat.find_spec hsome).2, fun j hj => ?_⟩
      have hlt := (Nat.find_spec hsome).1
      simpa using not_and.mp (Nat.find_min hsome hj) (lt_trans hj hlt)

/-- **When the call returns `NULL`, all callbacks have been called that should, exactly if no
entry was lost**: each that has a copy, unless the chain is in a callback, and of the rest those
up to the first without error and free callback. -/
theorem futureChainEasyArray_iff (mem : Memory) (prev : Prev) (descs : List CbEasyDesc) :
    (∀ calls, futureChainEasyArray mem prev descs = .error calls →
      ∀ x ∈ descs.zipIdx, Released calls x.1 x.2) ↔
    ∀ rest, FailsAt mem prev descs rest →
      ∀ x ∈ descs.zipIdx, noisy x → Reached mem prev descs rest x := by
  constructor
  · intro hall rest hrest
    obtain ⟨calls, hcalls, hiff⟩ := released_of_fails hrest
    exact hiff.mp (hall calls hcalls)
  · intro hall calls hcalls
    obtain ⟨rest, hrest⟩ := fails_of_error hcalls
    obtain ⟨calls', hcalls', hiff⟩ := released_of_fails hrest
    obtain rfl : calls = calls' := Except.error.inj (hcalls.symm.trans hcalls')
    exact hiff.mpr (hall rest hrest)

/-- Without `prev`, an entry with only a success callback hides the free callback behind it. -/
theorem free_forgotten : ¬∀ (mem : Memory) (prev : Prev) (descs : List CbEasyDesc)
    (calls : List Call), futureChainEasyArray mem prev descs = .error calls →
      ∀ x ∈ descs.zipIdx, Released calls x.1 x.2 := by
  intro hall
  have hreleased := hall ⟨fun _ => true, fun _ => true⟩ .null
    [{ success := true }, { free := true }] _ rfl ({ free := true }, 1) (by simp)
  exact absurd (hreleased.1 rfl) (by decide)

end Eina.Promise
