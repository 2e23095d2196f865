/-
`eina_inlist_sorted_state_insert`, which keeps the jump table while items are inserted.

The entries behind the new item are moved one node back, and the end of the table is built
again from its third last entry on.  That walk stops before the last node, so the table
may end up to `jump_div` nodes before the end of the list, and one more right after the
table was made smaller.
-/
import Mathlib.Algebra.Group.Nat.Defs
import Efl.Eina.Inlist.SortedInsert

namespace Eina.Inlist

open Chain Compare List Option Function

variable {A : Type}

namespace SortedState

/-! ### The code -/

/-- `for (; idx < state->jump_limit; idx++)`, of which `m` rounds are left. -/
def shiftFrom (H : Heap A) : Nat → Nat → SortedState A → Option (SortedState A)
  | 0, _, state => some state
  | m + 1, idx, state => (state.entry idx).bind fun x => (H x).bind fun c =>
    (state.setEntry idx c.prev).bind fun state => shiftFrom H m (idx + 1) state

/-- `for (jump_count = 0; last->next != NULL; last = last->next, jump_count++)` -/
def rebuildTail (H : Heap A) : Nat → SortedState A → A → Nat → Nat → Option (SortedState A)
  | 0, _, _, _, _ => none
  | n + 1, state, last, start, jumpCount => (H last).bind fun c =>
    match c.next with
    | none => some state
    | some next =>
      if jumpCount = state.jumpDiv then
        if state.jumpLimit = start then
          if state.jumpLimit = 256 then
            rebuildTail H n state.compact next (state.compact.jumpLimit - 1) (jumpCount + 1)
          else
            (state.push last).bind fun state => rebuildTail H n state next (start + 1) 1
        else
          (state.setEntry start (some last)).bind fun state =>
            rebuildTail H n state next (start + 1) 1
      else rebuildTail H n state next start (jumpCount + 1)

/-- `_eina_inlist_sorted_state_insert` -/
def insert (n : Nat) (H : Heap A) (state : SortedState A) (idx offset : Nat) :
    Option (SortedState A) :=
  let idx := if offset ≠ 0 then idx + 1 else idx
  (shiftFrom H (state.jumpLimit - idx) idx { state with inserted := state.inserted + 1 }).bind
    fun state => (state.entry (state.jumpLimit - 3)).bind fun last =>
      rebuildTail H n state last (state.jumpLimit - 3 + 1) 0

/-- The first item: `inserted`, `jump_limit` and the first entry. -/
def first (state : SortedState A) (item : A) : SortedState A where
  jumpTable := update state.jumpTable 0 (some item)
  jumpLimit := 1
  jumpDiv := state.jumpDiv
  inserted := 1
  limit_le := by omega
  div_pos := state.div_pos

/-- The second item goes behind the first one. -/
def secondAfter (state : SortedState A) (item : A) : SortedState A where
  jumpTable := update state.jumpTable 1 (some item)
  jumpLimit := 2
  jumpDiv := state.jumpDiv
  inserted := 2
  limit_le := by omega
  div_pos := state.div_pos

/-- The second item goes before the first one. -/
def secondBefore (state : SortedState A) (item : A) : SortedState A where
  jumpTable := update (update state.jumpTable 1 (state.jumpTable 0)) 0 (some item)
  jumpLimit := 2
  jumpDiv := state.jumpDiv
  inserted := 2
  limit_le := by omega
  div_pos := state.div_pos

end SortedState

/-- The arguments of `_eina_inlist_sorted_state_insert`. -/
def Place.index (state : SortedState A) : Place A → Nat × Nat
  | Place.first _ => (0, 0)
  | Place.last => (state.jumpLimit - 1, 1)
  | Place.behind cur _ => ((cur + 1) / state.jumpDiv, (cur + 1) % state.jumpDiv)
  | Place.before cur _ => (cur / state.jumpDiv, cur % state.jumpDiv)

/-- `eina_inlist_sorted_state_insert` -/
def sortedStateInsert [DecidableEq A] (func : A → A → Int) (n : Nat) (H : Heap A)
    (list : Option A) (item : A) (state : SortedState A) :
    Option (Heap A × Option A × SortedState A) :=
  match list with
  | none => (append n H none item).map fun r => (r.1, r.2, state.first item)
  | some head => (H head).bind fun c =>
    match c.next with
    | none =>
      if func head item < 0 then
        (append n H (some head) item).map fun r => (r.1, r.2, state.secondAfter item)
      else (prepend H (some head) item).map fun r => (r.1, r.2, state.secondBefore item)
    | some _ => (locate func n H state head item state.inserted).bind fun p =>
      (insertAt n H (some head) item p).bind fun r =>
        (state.insert n r.1 (p.index state).1 (p.index state).2).map fun state =>
          (r.1, r.2, state)

namespace SortedState

/-! ### Moving entries back -/

variable {i : Nat}

theorem setEntry_eq (state : SortedState A) (hi : i < 256) (ct : Option A) :
    state.setEntry i ct = some { state with jumpTable := update state.jumpTable i ct } :=
  if_pos hi

variable {H : Heap A} {list : Option A} {ys : List A}

theorem shiftFrom_spec (h : Linked H list ys) (m idx : Nat) (state : SortedState A)
    (hm : idx + m ≤ state.jumpLimit)
    (hoff : ∀ k, idx ≤ k → k < idx + m → ∃ x, state.jumpTable k = some x ∧
      ys[k * state.jumpDiv + 1]? = some x) :
    ∃ table, shiftFrom H m idx state = some { state with jumpTable := table } ∧
      ∀ k, table k =
        if idx ≤ k ∧ k < idx + m then ys[k * state.jumpDiv]? else state.jumpTable k := by
  induction m generalizing idx state with
  | zero =>
    refine ⟨state.jumpTable, rfl, fun k => ?_⟩
    rw [if_neg (by omega)]
  | succ m ih =>
    obtain ⟨x, hx, hget⟩ := hoff idx (Nat.le_refl _) (by omega)
    obtain ⟨c, hc, hprev⟩ := h.prev hget
    have hin : idx < 256 := Nat.lt_of_lt_of_le (by omega) state.limit_le
    rw [shiftFrom, entry, if_pos hin, hx, bind_some, hc, bind_some,
      setEntry_eq state hin]
    obtain ⟨table, hshift, htable⟩ := ih (idx + 1)
      { state with jumpTable := update state.jumpTable idx c.prev }
      (by show idx + 1 + m ≤ state.jumpLimit; omega) (fun k hk hkm => by
        obtain ⟨y, hy, hplace⟩ := hoff k (by omega) (by omega)
        refine ⟨y, ?_, hplace⟩
        dsimp only
        rw [update_of_ne (by omega), hy])
    refine ⟨table, hshift, fun k => ?_⟩
    rw [htable]
    dsimp only
    by_cases hk : k = idx
    · subst hk
      rw [if_neg (by omega), if_pos (by omega), update_self, hprev]
    rw [update_of_ne hk]
    by_cases hkin : idx + 1 ≤ k ∧ k < idx + 1 + m
    · rw [if_pos hkin, if_pos (by omega)]
    · rw [if_neg hkin, if_neg (by omega)]

variable {xs : List A} {item : A} {j : Nat}

theorem get_before (hj : j < i) (hi : i ≤ xs.length) :
    (xs.take i ++ item :: xs.drop i)[j]? = xs[j]? := by
  rw [getElem?_append_left (by rw [length_take]; omega), getElem?_take_of_lt hj]

theorem get_behind (hj : i ≤ j) (hi : i ≤ xs.length) :
    (xs.take i ++ item :: xs.drop i)[j + 1]? = xs[j]? := by
  have hlen : (xs.take i).length = i := by rw [length_take]; omega
  rw [getElem?_append_right (by omega), hlen, Nat.succ_sub hj, getElem?_cons_succ,
    getElem?_drop]
  congr 1
  omega

variable {state : SortedState A} {count : Nat}

/-- The entries behind the new item move one node back. -/
theorem Entries.shift (hentries : state.Entries xs)
    (h : Linked H list (xs.take i ++ item :: xs.drop i)) (hi : i ≤ xs.length) {idx : Nat}
    (hidx : ∀ k < state.jumpLimit, k < idx ↔ k * state.jumpDiv < i) :
    ∃ table, shiftFrom H (state.jumpLimit - idx) idx state = some
      { state with jumpTable := table } ∧
      Entries { state with jumpTable := table } (xs.take i ++ item :: xs.drop i) := by
  by_cases hend : state.jumpLimit ≤ idx
  · have hnone : state.jumpLimit - idx = 0 := by omega
    rw [hnone]
    refine ⟨state.jumpTable, rfl, fun k hk => ?_⟩
    have hk' : k < state.jumpLimit := hk
    obtain ⟨x, hx, hget⟩ := hentries k hk'
    exact ⟨x, hx, (get_before ((hidx k hk').mp (by omega)) hi).trans hget⟩
  · obtain ⟨table, hshift, htable⟩ := shiftFrom_spec h (state.jumpLimit - idx) idx state (by omega)
      (fun k hk hkm => by
        have hk' : k < state.jumpLimit := by omega
        obtain ⟨x, hx, hget⟩ := hentries k hk'
        refine ⟨x, hx, (get_behind ?_ hi).trans hget⟩
        exact Nat.le_of_not_lt fun hlt => absurd ((hidx k hk').mpr hlt) (by omega))
    refine ⟨table, hshift, fun k hk => ?_⟩
    have hk' : k < state.jumpLimit := hk
    obtain ⟨x, hx, hget⟩ := hentries k hk'
    dsimp only
    rw [htable]
    by_cases hki : k < idx
    · rw [if_neg (by omega)]
      exact ⟨x, hx, (get_before ((hidx k hk').mp hki) hi).trans hget⟩
    rw [if_pos (by omega)]
    obtain ⟨hbound, -⟩ := List.getElem?_eq_some_iff.mp hget
    refine ⟨_, getElem?_eq_getElem ?_, getElem?_eq_getElem ?_⟩
    · simp
      omega
    · simp
      omega

/-! ### The end of the table -/

/-- The end of the table is near the end of the list: there may be one more node right after the
table was made smaller. -/
def Near (state : SortedState A) (count : Nat) : Prop :=
  count ≤ state.jumpLimit * state.jumpDiv + 1 ∨
    state.jumpLimit = 128 ∧ count = state.jumpLimit * state.jumpDiv + 2

/-- Nodes are skipped only while the table has more than one entry. -/
def Wide (state : SortedState A) : Prop := state.jumpDiv = 1 ∨ 2 ≤ state.jumpLimit

theorem Entries.setEntry (h : state.Entries ys) {k : Nat} {x : A} (hk : k < state.jumpLimit)
    (hx : ys[k * state.jumpDiv]? = some x) :
    ∃ table, state.setEntry k (some x) = some { state with jumpTable := table } ∧
      Entries { state with jumpTable := table } ys := by
  refine ⟨_, setEntry_eq state (Nat.lt_of_lt_of_le hk state.limit_le) _, fun j hj => ?_⟩
  have hj' : j < state.jumpLimit := hj
  dsimp only
  by_cases hjk : j = k
  · subst hjk
    rw [update_self]
    exact ⟨x, rfl, hx⟩
  · rw [update_of_ne hjk]
    exact h j hj'

/-- The end of the table is right again. -/
theorem rebuildTail_spec (h : Linked H list ys) {n : Nat} {last : A} {q start jumpCount : Nat}
    (hlast : ys[q]? = some last) (hn : ys.length - q ≤ n) (hentries : state.Entries ys)
    (hplace : q + state.jumpDiv = start * state.jumpDiv + jumpCount)
    (hcount : jumpCount ≤ state.jumpDiv) (hstart : start ≤ state.jumpLimit)
    (hpos : 0 < state.jumpLimit) (hroom : ys.length ≤ 256 * state.jumpDiv + 2) :
    ∃ state', rebuildTail H n state last start jumpCount = some state' ∧ state'.Entries ys ∧
      0 < state'.jumpLimit ∧ state'.inserted = state.inserted ∧ state'.Near ys.length ∧
      (state.Wide → state'.Wide) := by
  obtain ⟨hq, -⟩ := List.getElem?_eq_some_iff.mp hlast
  induction n generalizing state last q start jumpCount with
  | zero => omega
  | succ n ih =>
    obtain ⟨c, hc, hnext⟩ := h.next hlast
    have hmul : start * state.jumpDiv ≤ state.jumpLimit * state.jumpDiv :=
      Nat.mul_le_mul_right _ hstart
    rw [rebuildTail, hc, bind_some, hnext]
    cases hy : ys[q + 1]? with
    | none =>
      have hend := getElem?_eq_none_iff.mp hy
      exact ⟨state, rfl, hentries, hpos, rfl, .inl (by omega), id⟩
    | some y =>
      obtain ⟨hq', -⟩ := List.getElem?_eq_some_iff.mp hy
      dsimp only
      by_cases hjump : jumpCount = state.jumpDiv
      · rw [if_pos hjump]
        have hq0 : q = start * state.jumpDiv := by omega
        by_cases hnew : state.jumpLimit = start
        · rw [if_pos hnew]
          by_cases hfull : state.jumpLimit = 256
          · -- the next node is the last one
            rw [if_pos hfull]
            rw [← hnew, hfull] at hq0
            obtain ⟨n, rfl⟩ : ∃ m, n = m + 1 := ⟨n - 1, by omega⟩
            obtain ⟨d, hd, hdnext⟩ := h.next hy
            rw [getElem?_eq_none (by omega)] at hdnext
            refine ⟨state.compact, ?_, hentries.compact hfull, ?_, rfl, .inr ⟨?_, ?_⟩,
              fun _ => .inr ?_⟩
            · rw [rebuildTail, hd, bind_some, hdnext]
            · show 0 < state.jumpLimit / 2
              omega
            · show state.jumpLimit / 2 = 128
              omega
            · show ys.length = state.jumpLimit / 2 * (state.jumpDiv * 2) + 2
              rw [hfull]
              omega
            · show 2 ≤ state.jumpLimit / 2
              omega
          · rw [if_neg hfull]
            have hle := state.limit_le
            have hget : ys[state.jumpLimit * state.jumpDiv]? = some last := by
              rw [hnew, ← hq0, hlast]
            obtain ⟨state1, hpush, hentries1, hlimit1, hdiv1, hins1⟩ :=
              hentries.push (by omega) hget
            rw [hpush, ← hins1]
            have hwide : state.Wide → state1.Wide := fun _ => .inr (by omega)
            have hplace1 : q + 1 + state1.jumpDiv = (start + 1) * state1.jumpDiv + 1 := by
              rw [hdiv1, Nat.add_mul]
              omega
            obtain ⟨state', hrun, hkept, hpos', hins, hnear, hwide'⟩ := ih hy (by omega) hentries1
              hplace1 (by rw [hdiv1]; exact state.div_pos) (by omega) (by omega)
              (by rw [hdiv1]; exact hroom) hq'
            exact ⟨state', hrun, hkept, hpos', hins, hnear, hwide' ∘ hwide⟩
        · rw [if_neg hnew]
          have hget : ys[start * state.jumpDiv]? = some last := by rw [← hq0, hlast]
          obtain ⟨table, hset, hentries1⟩ := hentries.setEntry (by omega) hget
          rw [hset]
          refine ih hy (by omega) hentries1 ?_
            state.div_pos ?_ hpos hroom hq'
          · dsimp only
            rw [Nat.add_mul]
            omega
          · show start + 1 ≤ state.jumpLimit
            omega
      · rw [if_neg hjump]
        exact ih hy (by omega) hentries (by omega) (by omega) hstart hpos hroom hq'

theorem Near.room (h : state.Near count) :
    count + 1 ≤ 256 * state.jumpDiv + 2 := by
  have hdiv := state.div_pos
  rcases h with h | ⟨hlimit, h⟩
  · have hmul : state.jumpLimit * state.jumpDiv ≤ 256 * state.jumpDiv :=
      Nat.mul_le_mul_right _ state.limit_le
    omega
  · rw [hlimit] at h
    omega

theorem index_spec {div k : Nat} (hdiv : 0 < div) :
    k < (if i % div ≠ 0 then i / div + 1 else i / div) ↔ k * div < i := by
  by_cases hmod : i % div = 0
  · rw [if_neg (by simpa using hmod)]
    have hi : i / div * div = i := Nat.div_mul_cancel (Nat.dvd_of_mod_eq_zero hmod)
    constructor
    · intro hk
      rw [← hi]
      exact Nat.mul_lt_mul_of_pos_right hk hdiv
    · intro hk
      rw [← hi] at hk
      exact Nat.lt_of_mul_lt_mul_right hk
  · rw [if_pos hmod, Nat.lt_succ_iff, Nat.le_div_iff_mul_le hdiv]
    constructor
    · intro hk
      refine Nat.lt_of_le_of_ne hk fun heq => hmod ?_
      rw [← heq, Nat.mul_mod_left]
    · exact Nat.le_of_lt

/-- **The table follows an insertion.** -/
theorem insert_spec (h : Linked H list (xs.take i ++ item :: xs.drop i)) (hi : i ≤ xs.length)
    (hentries : state.Entries xs) (hpos : 0 < state.jumpLimit) (hnear : state.Near xs.length)
    {idx offset : Nat}
    (hidx : ∀ k < state.jumpLimit, k < (if offset ≠ 0 then idx + 1 else idx) ↔
      k * state.jumpDiv < i)
    {n : Nat} (hn : xs.length < n) :
    ∃ state', state.insert n H idx offset = some state' ∧
      state'.Entries (xs.take i ++ item :: xs.drop i) ∧ 0 < state'.jumpLimit ∧
      state'.inserted = state.inserted + 1 ∧ state'.Near (xs.length + 1) ∧
      (state.Wide → state'.Wide) := by
  have hlen : (xs.take i ++ item :: xs.drop i).length = xs.length + 1 := by
    simp
    omega
  have hcounted : Entries { state with inserted := state.inserted + 1 } xs := hentries
  obtain ⟨table, hshift, hmoved⟩ := hcounted.shift h hi hidx
  obtain ⟨last, hlast, hget⟩ := hmoved (state.jumpLimit - 3) (by show _ < state.jumpLimit; omega)
  have hthird : state.jumpLimit - 3 < 256 := Nat.lt_of_lt_of_le (by omega) state.limit_le
  have hplace : (state.jumpLimit - 3) * state.jumpDiv + state.jumpDiv =
      (state.jumpLimit - 3 + 1) * state.jumpDiv + 0 := by
    rw [Nat.add_mul, Nat.one_mul, Nat.add_zero]
  obtain ⟨state', hrebuild, hentries', hpos', hins, hnear', hwide⟩ := rebuildTail_spec h (n := n)
    hget (by rw [hlen]; omega) hmoved hplace
    (Nat.zero_le _) (by show _ ≤ state.jumpLimit; omega) hpos (by rw [hlen]; exact hnear.room)
  rw [hlen] at hnear'
  refine ⟨state', ?_, hentries', hpos', hins, hnear', hwide⟩
  unfold insert
  dsimp only at hshift ⊢
  rw [hshift, bind_some]
  rw [entry, if_pos hthird]
  rw [hlast, bind_some, hrebuild]

/-! ### Inserting with a state -/

theorem first_entry (state : SortedState A) (item : A) :
    (state.first item).jumpTable 0 = some item := by
  unfold first
  dsimp only
  rw [update_self]

theorem secondAfter_entries (state : SortedState A) (item : A) :
    (state.secondAfter item).jumpTable 0 = state.jumpTable 0 ∧
      (state.secondAfter item).jumpTable 1 = some item := by
  exact ⟨rfl, rfl⟩

theorem secondBefore_entries (state : SortedState A) (item : A) :
    (state.secondBefore item).jumpTable 0 = some item ∧
      (state.secondBefore item).jumpTable 1 = state.jumpTable 0 := by
  exact ⟨rfl, rfl⟩

/-- What holds between insertions. -/
structure Kept (state : SortedState A) (xs : List A) : Prop where
  entries : state.Entries xs
  positive : xs ≠ [] → 0 < state.jumpLimit
  near : state.Near xs.length
  inserted : state.inserted = xs.length
  small : xs.length ≤ 2 → state.jumpDiv = 1
  wide : state.Wide

/-- As many nodes as there are items are skipped at most. -/
theorem Kept.jumpDiv_le {xs : List A} (h : state.Kept xs) (hxs : xs ≠ []) :
    state.jumpDiv ≤ xs.length := by
  rcases h.wide with hone | htwo
  · rw [hone]
    exact length_pos_of_ne_nil hxs
  · obtain ⟨x, -, hget⟩ := h.entries 1 htwo
    rw [Nat.one_mul] at hget
    exact Nat.le_of_lt (List.getElem?_eq_some_iff.mp hget).1

theorem kept_new : (new : SortedState A).Kept [] := by
  refine ⟨fun k hk => absurd hk (Nat.not_lt_zero k), fun h => absurd rfl h, .inl ?_, rfl,
    fun _ => rfl, .inl rfl⟩
  exact Nat.zero_le _

theorem Near.slack (h : state.Near count) :
    count ≤ state.jumpLimit * state.jumpDiv + 2 := by
  rcases h with h | ⟨-, h⟩ <;> omega

theorem kept_two {x y : A} (hlimit : state.jumpLimit = 2) (hdiv : state.jumpDiv = 1)
    (hins : state.inserted = 2) (hx : state.jumpTable 0 = some x)
      (hy : state.jumpTable 1 = some y) :
    state.Kept [x, y] := by
  refine ⟨fun k hk => ?_, fun _ => by omega, .inl ?_, hins, fun _ => hdiv, .inl hdiv⟩
  · rw [hdiv]
    match k, hk with
    | 0, _ => exact ⟨x, hx, rfl⟩
    | 1, _ => exact ⟨y, hy, rfl⟩
    | k + 2, hk => omega
  · rw [hlimit, hdiv]
    exact Nat.le_succ 2

end SortedState

theorem Place.index_spec {state : SortedState A} {xs : List A} (hentries : state.Entries xs)
    (hpos : 0 < state.jumpLimit) {p : Place A} {i : Nat} (hp : p.At xs i) :
    ∀ k < state.jumpLimit,
      k < (if (p.index state).2 ≠ 0 then (p.index state).1 + 1 else (p.index state).1) ↔
        k * state.jumpDiv < i := by
  intro k hk
  cases p with
  | first ct =>
    obtain ⟨rfl, -⟩ := hp
    exact ⟨fun h => absurd h (Nat.not_lt_zero k), fun h => absurd h (Nat.not_lt_zero _)⟩
  | last =>
    obtain rfl := hp
    obtain ⟨x, -, hx⟩ := hentries k hk
    have hin : k < state.jumpLimit - 1 + 1 := by omega
    exact ⟨fun _ => (List.getElem?_eq_some_iff.mp hx).1, fun _ => hin⟩
  | behind cur ct =>
    obtain ⟨rfl, -⟩ := hp
    exact SortedState.index_spec state.div_pos
  | before cur ct =>
    obtain ⟨rfl, -⟩ := hp
    exact SortedState.index_spec state.div_pos

section Insert

variable [DecidableEq A]

variable {n : Nat} {func : A → A → Int} {items : List A}

/-- **One insertion**: the list is linked and sorted, and the state follows. -/
theorem sortedStateInsert_spec (func : A → A → Int) {H : Heap A} {list : Option A} {xs : List A}
    (h : Linked H list xs) {state : SortedState A} (hkept : state.Kept xs) {item : A}
    (hitem : item ∉ xs) (halive : H item ≠ none) (hn : xs.length < n) :
    ∃ H' i state', i ≤ xs.length ∧
      sortedStateInsert func n H list item state =
        some (H', (xs.take i ++ item :: xs.drop i).head?, state') ∧
      Linked H' (xs.take i ++ item :: xs.drop i).head? (xs.take i ++ item :: xs.drop i) ∧
      Rewires H H' (item :: xs) ∧ state'.Kept (xs.take i ++ item :: xs.drop i) ∧
      (Total func → Sorted func xs → Sorted func (xs.take i ++ item :: xs.drop i)) := by
  match xs, h, hkept with
  | [], h, hkept =>
    obtain rfl : list = none := h.first
    obtain ⟨H', hadd, hlist, hw⟩ := append_spec h hitem halive n
    refine ⟨H', 0, state.first item, Nat.le_refl _, ?_, hlist, hw, ?_,
      fun _ _ => sorted_singleton item⟩
    · rw [sortedStateInsert, hadd]
      rfl
    · refine ⟨fun k hk => ?_, fun _ => Nat.zero_lt_one, .inl ?_, rfl, fun _ => hkept.small ?_,
        .inl (hkept.small (Nat.zero_le 2))⟩
      · obtain rfl : k = 0 := Nat.lt_one_iff.mp hk
        exact ⟨item, state.first_entry item, by rw [Nat.zero_mul]; rfl⟩
      · exact Nat.le_add_left 1 _
      · exact Nat.zero_le 2
  | [x], h, hkept =>
    obtain rfl : list = some x := h.first
    obtain ⟨y, hy, hget⟩ := hkept.entries 0 (hkept.positive (by simp))
    rw [Nat.zero_mul] at hget
    obtain rfl : x = y := some.inj hget
    have hdiv := hkept.small (by simp)
    unfold sortedStateInsert
    dsimp only
    rw [h.head]
    by_cases hlt : func x item < 0
    · obtain ⟨H', hadd, hlist, hw⟩ := append_spec h hitem halive n
      rw [if_pos hlt, hadd]
      refine ⟨H', 1, state.secondAfter item, Nat.le_refl _, rfl, hlist, hw, ?_, fun _ _ => ?_⟩
      · exact SortedState.kept_two rfl hdiv rfl ((state.secondAfter_entries item).1.trans hy)
          (state.secondAfter_entries item).2
      · exact sorted_cons.mpr ⟨by simp [Int.le_of_lt hlt], sorted_singleton item⟩
    · obtain ⟨H', hadd, hlist, hw⟩ := prepend_spec h hitem halive
      rw [if_neg hlt, hadd]
      refine ⟨H', 0, state.secondBefore item, Nat.zero_le _, rfl, hlist, hw, ?_, fun hfunc _ => ?_⟩
      · exact SortedState.kept_two rfl hdiv rfl (state.secondBefore_entries item).1
          ((state.secondBefore_entries item).2.trans hy)
      · exact sorted_cons.mpr ⟨by simp [hfunc.le_of_not_lt hlt], sorted_singleton x⟩
  | x :: y :: r, h, hkept =>
    obtain rfl : list = some x := h.first
    have hpos := hkept.positive (by simp)
    obtain ⟨p, i, hlocate, hp, hi, hbelongs⟩ :=
      locate_spec func item h hkept.entries hpos hkept.near.slack hn
    obtain ⟨H', hadd, hlist, hw⟩ := insertAt_spec h hitem halive n hp
    obtain ⟨state', hinsert, hentries', hpos', hins, hnear', hwide⟩ :=
      SortedState.insert_spec hlist hi
      hkept.entries hpos hkept.near (Place.index_spec hkept.entries hpos hp) hn
    refine ⟨H', i, state', hi, ?_, hlist, hw,
      ⟨hentries', fun _ => hpos', ?_, ?_, ?_, hwide hkept.wide⟩,
      fun hfunc hsorted => (hbelongs hfunc hsorted).sorted hfunc hi hsorted⟩
    · unfold sortedStateInsert
      dsimp only
      rw [h.head, bind_some]
      rw [hkept.inserted, hlocate, bind_some, hadd, bind_some, hinsert]
      rfl
    all_goals
      have hlen : ((x :: y :: r).take i ++ item :: (x :: y :: r).drop i).length =
          (x :: y :: r).length + 1 := by
        simp only [length_append, length_take, length_cons, length_drop] at hi ⊢
        omega
      rw [hlen]
    · exact hnear'
    · rw [hins, hkept.inserted]
    · intro hsmall
      simp only [length_cons] at hsmall
      omega

/-- Items are inserted one after another. -/
def sortedStateInsertAll (func : A → A → Int) (n : Nat) : Heap A → Option A → SortedState A →
    List A → Option (Heap A × Option A × SortedState A)
  | H, list, state, [] => some (H, list, state)
  | H, list, state, item :: items => (sortedStateInsert func n H list item state).bind fun r =>
    sortedStateInsertAll func n r.1 r.2.1 r.2.2 items

theorem sortedStateInsertAll_spec (hfunc : Total func) {H : Heap A}
    {list : Option A} {xs : List A} (h : Linked H list xs) {state : SortedState A}
    (hkept : state.Kept xs) (hsorted : Sorted func xs)
    (hnodup : (items ++ xs).Nodup) (halive : ∀ item ∈ items, H item ≠ none)
    (hn : items.length + xs.length ≤ n) :
    ∃ H' list' state' ys, sortedStateInsertAll func n H list state items = some
      (H', list', state') ∧
      Linked H' list' ys ∧ ys.Perm (items ++ xs) ∧ Sorted func ys ∧ state'.Kept ys := by
  induction items generalizing H list xs state with
  | nil => exact ⟨H, list, state, xs, rfl, h, List.Perm.refl _, hsorted, hkept⟩
  | cons item items ih =>
    obtain ⟨hitem, hrest⟩ := nodup_cons.mp hnodup
    simp only [length_cons] at hn
    obtain ⟨H1, i, state1, hi, hinsert, hlist, hw, hkept1, hsorted1⟩ :=
      sortedStateInsert_spec func h hkept (fun hx => hitem (mem_append_right _ hx))
        (halive item mem_cons_self) (n := n) (by omega)
    have hperm : (xs.take i ++ item :: xs.drop i).Perm (item :: xs) := by
      refine perm_middle.trans ?_
      rw [take_append_drop]
    have hall : (items ++ (xs.take i ++ item :: xs.drop i)).Perm (item :: items ++ xs) :=
      (hperm.append_left items).trans perm_middle
    obtain ⟨H', list', state', ys, hrun, hlist', hys, hsorted', hkept'⟩ := ih hlist hkept1
      (hsorted1 hfunc hsorted) (hall.nodup_iff.mpr hnodup)
      (fun x hx => by
        rw [Ne, hw.alive]
        exact halive x (mem_cons_of_mem _ hx))
      (by rw [hperm.length_eq, length_cons]; omega)
    refine ⟨H', list', state', ys, ?_, hlist', hys.trans hall, hsorted', hkept'⟩
    rw [sortedStateInsertAll, hinsert, bind_some, hrun]

/-- **A list that is kept with a state stays sorted, and the table stays near its end.**  The
numbers of the state fit their `int` while the number of items does. -/
theorem sortedStateInsertAll_sorted (hfunc : Total func) (H : Heap A) (hnodup : items.Nodup)
    (halive : ∀ item ∈ items, H item ≠ none) {n : Nat}
    (hn : items.length ≤ n) :
    ∃ H' list state xs,
      sortedStateInsertAll func n H none SortedState.new items = some (H', list, state) ∧
      Linked H' list xs ∧ xs.Perm items ∧ Sorted func xs ∧
      (∀ k < state.jumpLimit, ∃ x, state.jumpTable k = some x ∧
        xs[k * state.jumpDiv]? = some x) ∧
      state.jumpLimit ≤ 256 ∧
      xs.length - ((state.jumpLimit - 1) * state.jumpDiv + 1) ≤ state.jumpDiv + 1 ∧
      state.inserted = xs.length ∧
      (items.length < 2 ^ 31 → state.inserted < 2 ^ 31 ∧ state.jumpDiv < 2 ^ 31) := by
  have hall : (items ++ []).Nodup := by rwa [append_nil]
  obtain ⟨H', list, state, xs, hrun, hlist, hperm, hsorted, hkept⟩ := sortedStateInsertAll_spec
    hfunc linked_nil SortedState.kept_new sorted_nil hall halive hn
  rw [append_nil] at hperm
  refine ⟨H', list, state, xs, hrun, hlist, hperm, hsorted, hkept.entries, state.limit_le, ?_,
    hkept.inserted, fun hsmall => ?_⟩
  case refine_2 =>
    rw [← hperm.length_eq] at hsmall
    by_cases hxs : xs = []
    · rw [hkept.inserted, hkept.small (by rw [hxs]; exact Nat.zero_le 2)]
      exact ⟨hsmall, by decide⟩
    · rw [hkept.inserted]
      exact ⟨hsmall, Nat.lt_of_le_of_lt (hkept.jumpDiv_le hxs) hsmall⟩
  by_cases hxs : xs = []
  · rw [hxs, length_nil, Nat.zero_sub]
    exact Nat.zero_le _
  have hslack := hkept.near.slack
  obtain ⟨limit, hlimit⟩ := Nat.exists_eq_succ_of_ne_zero (Nat.ne_of_gt (hkept.positive hxs))
  rw [hlimit, Nat.succ_mul] at hslack
  rw [hlimit, Nat.succ_sub_one]
  omega

/-- Numbers, compared by their difference. -/
def difference (x y : Nat) : Int := x - y

theorem total_difference : Total difference := by
  refine ⟨fun x y => ?_, fun {x y z} h h' => ?_⟩
  · unfold difference
    omega
  · unfold difference at h h' ⊢
    omega

theorem sortedStateInsertAll_sorted_three :
    ∃ (H' : Heap Nat) (list : Option Nat) (state : SortedState Nat) (xs : List Nat),
      sortedStateInsertAll difference 3 (fun _ => some ⟨none, none, none⟩) none SortedState.new
        [2, 0, 1] = some (H', list, state) ∧
      Linked H' list xs ∧ xs.Perm [2, 0, 1] ∧ Sorted difference xs ∧
      (∀ k < state.jumpLimit, ∃ x, state.jumpTable k = some x ∧
        xs[k * state.jumpDiv]? = some x) ∧
      state.jumpLimit ≤ 256 ∧
      xs.length - ((state.jumpLimit - 1) * state.jumpDiv + 1) ≤ state.jumpDiv + 1 ∧
      state.inserted = xs.length ∧
      ([2, 0, 1].length < 2 ^ 31 → state.inserted < 2 ^ 31 ∧ state.jumpDiv < 2 ^ 31) :=
  sortedStateInsertAll_sorted total_difference _ (by decide) (by simp) (Nat.le_refl 3)

end Insert

end Eina.Inlist
