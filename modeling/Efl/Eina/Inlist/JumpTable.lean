/-
The state of sorted lists in `eina_inlist.c`: a table of every `jump_div`-th node.

The table has 256 slots.  When it is full every other entry is dropped and the distance
between the entries is doubled.  `eina_inlist_sorted_state_init` walks over a list and puts
down what it passes, behind the entries that the state has already.
-/
import Mathlib.Algebra.Group.Nat.Defs
import Efl.Eina.Inlist.Basic

namespace Eina.Inlist

open List Option Function Int

variable {A : Type}

/-! ### The code -/

/-- `Eina_Inlist_Sorted_State`; a slot that was never written is `none`. -/
structure SortedState (A : Type) where
  jumpTable : Nat → Option A
  jumpLimit : Nat
  jumpDiv : Nat
  inserted : Nat
  limit_le : jumpLimit ≤ 256
  div_pos : 0 < jumpDiv

namespace SortedState

/-- `eina_inlist_sorted_state_new` -/
def new : SortedState A where
  jumpTable := fun _ => none
  jumpLimit := 0
  jumpDiv := 1
  inserted := 0
  limit_le := by omega
  div_pos := by omega

/-- `for (i = 2, j = 1; i < EINA_INLIST_JUMP_SIZE; i += 2, j++)`, of which `n` rounds are left. -/
def compactFrom : Nat → Nat → (Nat → Option A) → Nat → Option A
  | 0, _, table => table
  | n + 1, j, table => compactFrom n (j + 1) (update table j (table (2 * j)))

/-- `_eina_inlist_sorted_state_compact` -/
def compact (state : SortedState A) : SortedState A where
  jumpTable := compactFrom 127 1 state.jumpTable
  jumpLimit := state.jumpLimit / 2
  jumpDiv := state.jumpDiv * 2
  inserted := state.inserted
  limit_le := by have := state.limit_le; omega
  div_pos := by have := state.div_pos; omega

/-- `state->jump_table[state->jump_limit] = ct; state->jump_limit++` -/
def push (state : SortedState A) (ct : A) : Option (SortedState A) :=
  if h : state.jumpLimit < 256 then
    some { state with
      jumpTable := update state.jumpTable state.jumpLimit (some ct)
      jumpLimit := state.jumpLimit + 1
      limit_le := h }
  else none

/-- `state->jump_table[i] = ct` -/
def setEntry (state : SortedState A) (i : Nat) (ct : Option A) : Option (SortedState A) :=
  if i < 256 then some { state with jumpTable := update state.jumpTable i ct } else none

/-- `state->jump_table[i]` -/
def entry (state : SortedState A) (i : Nat) : Option A :=
  if i < 256 then state.jumpTable i else none

/-- The loop of `eina_inlist_sorted_state_init`. -/
def initLoop (H : Heap A) :
    Nat → SortedState A → Option A → Nat → Nat → Option (SortedState A × Nat)
  | _, state, none, count, _ => some (state, count)
  | 0, _, some _, _, _ => none
  | n + 1, state, some ct, count, jumpCount => (H ct).bind fun c =>
    if jumpCount = state.jumpDiv then
      let state := if state.jumpLimit = 256 then state.compact else state
      (state.push ct).bind fun state => initLoop H n state c.next (count + 1) 1
    else initLoop H n state c.next (count + 1) (jumpCount + 1)

/-- `eina_inlist_sorted_state_init` -/
def init (n : Nat) (H : Heap A) (state : SortedState A) (list : Option A) :
    Option (SortedState A × Nat) :=
  (initLoop H n state list 0 1).map fun r => ({ r.1 with inserted := r.2 }, r.2)

/-! ### What the table says -/

/-- The entries are the nodes at the multiples of `jump_div`. -/
def Entries (state : SortedState A) (xs : List A) : Prop :=
  ∀ k < state.jumpLimit, ∃ x, state.jumpTable k = some x ∧ xs[k * state.jumpDiv]? = some x

/-- The state belongs to the list: its entries are right and reach the end. -/
structure Matches (state : SortedState A) (xs : List A) : Prop where
  entries : state.Entries xs
  limit : state.jumpLimit ≤ 256
  reach : xs.length ≤ state.jumpLimit * state.jumpDiv
  inserted : state.inserted = xs.length

theorem compactFrom_get (n j : Nat) (table : Nat → Option A) (k : Nat) (hj : 0 < j) :
    compactFrom n j table k = if j ≤ k ∧ k < j + n then table (2 * k) else table k := by
  induction n generalizing j table with
  | zero =>
    rw [compactFrom, if_neg]
    omega
  | succ n ih =>
    rw [compactFrom, ih _ _ (Nat.succ_pos j)]
    by_cases hk : k = j
    · subst hk
      rw [if_neg (by omega), if_pos (by omega), update_self]
    by_cases hin : j + 1 ≤ k ∧ k < j + 1 + n
    · rw [if_pos hin, if_pos (by omega), update_of_ne (by omega)]
    · rw [if_neg hin, if_neg (by omega), update_of_ne hk]

variable {state : SortedState A} {xs : List A} {off : Int} {x : A}

theorem Entries.compact (h : state.Entries xs) (hfull : state.jumpLimit = 256) :
    state.compact.Entries xs := by
  intro k hk
  have hk' : k < state.jumpLimit / 2 := hk
  obtain ⟨x, hx, hget⟩ := h (2 * k) (by omega)
  refine ⟨x, ?_, ?_⟩
  · have htable : state.compact.jumpTable k = compactFrom 127 1 state.jumpTable k := rfl
    rw [htable, compactFrom_get _ _ _ _ (by omega)]
    split
    · exact hx
    · obtain rfl : k = 0 := by omega
      exact hx
  · have hdiv : state.compact.jumpDiv = state.jumpDiv * 2 := rfl
    rw [hdiv, ← hget, Nat.mul_comm state.jumpDiv, ← Nat.mul_assoc, Nat.mul_comm k]

theorem push_eq (h : state.jumpLimit < 256) (ct : A) :
    state.push ct = some { state with
      jumpTable := update state.jumpTable state.jumpLimit (some ct)
      jumpLimit := state.jumpLimit + 1
      limit_le := h } := dif_pos h

theorem Entries.push (h : state.Entries xs) (hroom : state.jumpLimit < 256)
    (hx : xs[state.jumpLimit * state.jumpDiv]? = some x) :
    ∃ state', state.push x = some state' ∧ state'.Entries xs ∧
      state'.jumpLimit = state.jumpLimit + 1 ∧ state'.jumpDiv = state.jumpDiv ∧
      state'.inserted = state.inserted := by
  refine ⟨_, push_eq hroom x, ?_, rfl, rfl, rfl⟩
  intro k hk
  have hk' : k < state.jumpLimit + 1 := hk
  dsimp only
  rcases Nat.lt_succ_iff_lt_or_eq.mp hk' with hlt | rfl
  · rw [update_of_ne (Nat.ne_of_lt hlt)]
    exact h k hlt
  · rw [update_self]
    exact ⟨x, rfl, hx⟩

theorem entry_eq (h : state.Entries xs) {k : Nat} (hk : k < state.jumpLimit) :
    state.entry k = xs[k * state.jumpDiv]? := by
  obtain ⟨x, hx, hget⟩ := h k hk
  rw [entry, if_pos (Nat.lt_of_lt_of_le hk state.limit_le), hx, hget]

/-! ### The walk of `eina_inlist_sorted_state_init` -/

/-- `count` nodes are passed, `jumpCount - 1` of them behind the place of the last entry.  The
entries that the walk makes are `off` nodes behind the multiples of `jump_div`. -/
structure Walked (off : Int) (state : SortedState A) (xs : List A) (count jumpCount : Nat) :
    Prop where
  passed : (count : Int) + state.jumpDiv = state.jumpLimit * state.jumpDiv + jumpCount + off
  within : jumpCount ≤ state.jumpDiv
  entries : off = 0 → state.Entries xs

/-- A walk doubles the distance when the table is full, and leaves half of the entries. -/
def Grown (d : Nat) (state : SortedState A) : Prop := state.jumpDiv = d ∨ 128 ≤ state.jumpLimit

/-- Where the last entry is. -/
def LastAt (off : Int) (state : SortedState A) (xs : List A) : Prop :=
  ∃ (k e : Nat) (x : A), state.jumpLimit = k + 1 ∧ state.jumpTable k = some x ∧ xs[e]? = some x ∧
    (e : Int) = k * state.jumpDiv + off

theorem Walked.push {count : Nat} (h : Walked off state xs count state.jumpDiv)
    (hx : xs[count]? = some x) :
    ∃ state', (if state.jumpLimit = 256 then state.compact else state).push x = some state' ∧
      Walked off state' xs (count + 1) 1 ∧ LastAt off state' xs ∧
      ∀ d, Grown d state → Grown d state' := by
  obtain ⟨s, hs, hroom, hplace, hentries, hgrown⟩ : ∃ s : SortedState A,
      (if state.jumpLimit = 256 then state.compact else state) = s ∧ s.jumpLimit < 256 ∧
        (count : Int) = s.jumpLimit * s.jumpDiv + off ∧ (off = 0 → s.Entries xs) ∧
        ∀ d, Grown d state → Grown d s := by
    have hpassed := h.passed
    by_cases hfull : state.jumpLimit = 256
    · refine ⟨state.compact, if_pos hfull, ?_, ?_, fun hoff => (h.entries hoff).compact hfull,
        fun d _ => .inr ?_⟩
      · have hlimit : state.compact.jumpLimit = state.jumpLimit / 2 := rfl
        omega
      · have hlimit : state.compact.jumpLimit = state.jumpLimit / 2 := rfl
        have hdiv : state.compact.jumpDiv = state.jumpDiv * 2 := rfl
        rw [hlimit, hfull]
        rw [hfull] at hpassed
        omega
      · have hlimit : state.compact.jumpLimit = state.jumpLimit / 2 := rfl
        omega
    · have hle := state.limit_le
      exact ⟨state, if_neg hfull, by omega, by omega, h.entries, fun _ h => h⟩
  rw [hs, push_eq hroom]
  refine ⟨_, rfl, ⟨?_, s.div_pos, fun hoff => ?_⟩, ⟨s.jumpLimit, count, x, rfl, ?_, hx, hplace⟩,
    fun d hd => (hgrown d hd).imp_right Nat.le_succ_of_le⟩
  · dsimp only
    rw [natCast_succ, natCast_succ, Int.add_mul]
    omega
  · have hx' : xs[s.jumpLimit * s.jumpDiv]? = some x := by
      rw [← hx]
      congr 1
      rw [hoff] at hplace
      exact_mod_cast hplace.symm
    obtain ⟨state', hpush, hentries', -⟩ := (hentries hoff).push hroom hx'
    rw [push_eq hroom] at hpush
    rwa [some.inj hpush]
  · exact update_self _ _ _

variable {H : Heap A} {list : Option A} {n : Nat} {jumpCount : Nat} {s : SortedState A}

theorem initLoop_spec (hlist : Linked H list xs) {l r : List A}
    (hxs : xs = l ++ r) (hn : r.length ≤ n) (h : Walked off state xs l.length jumpCount) :
    ∃ state' jumpCount', initLoop H n state r.head? l.length jumpCount = some (state', xs.length) ∧
      Walked off state' xs xs.length jumpCount' ∧
      (state.jumpDiv < jumpCount + r.length ∧ LastAt off state' xs ∨
        state' = state ∧ jumpCount' = jumpCount + r.length) ∧
      ∀ d, Grown d state → Grown d state' := by
  induction r generalizing n state l jumpCount with
  | nil =>
    rw [append_nil] at hxs
    subst hxs
    exact ⟨state, jumpCount, by cases n <;> rfl, h, .inr ⟨rfl, rfl⟩, fun _ h => h⟩
  | cons x r ih =>
    obtain ⟨n, rfl⟩ : ∃ m, n = m + 1 := by
      cases n with
      | zero => simp at hn
      | succ m => exact ⟨m, rfl⟩
    have hcell := hlist
    rw [hxs] at hcell
    obtain ⟨v, hv⟩ := hcell.get
    have hget : xs[l.length]? = some x := by rw [hxs]; simp
    have hxs' : xs = (l ++ [x]) ++ r := by rw [hxs, append_assoc]; rfl
    have hlen : (l ++ [x]).length = l.length + 1 := by simp
    have hn' : r.length ≤ n := by simpa using hn
    rw [head?_cons, initLoop, hv, bind_some]
    dsimp only
    by_cases hfull : jumpCount = state.jumpDiv
    · subst hfull
      obtain ⟨state1, hpush, hwalked, hat, hgrown⟩ := h.push hget
      rw [← hlen] at hwalked
      obtain ⟨state', jumpCount', hloop, hwalked', hor, hgrown'⟩ := ih hxs' hn' hwalked
      rw [if_pos rfl, hpush, bind_some, ← hlen, hloop]
      refine ⟨state', jumpCount', rfl, hwalked', .inl ⟨by simp, ?_⟩,
        fun d hd => hgrown' d (hgrown d hd)⟩
      rcases hor with ⟨-, hlast⟩ | ⟨rfl, -⟩
      · exact hlast
      · exact hat
    · have hwalked : Walked off state xs (l ++ [x]).length (jumpCount + 1) := by
        have hpassed := h.passed
        have hwithin := h.within
        exact ⟨by rw [hlen]; omega, by omega, h.entries⟩
      obtain ⟨state', jumpCount', hloop, hwalked', hor, hgrown⟩ := ih hxs' hn' hwalked
      rw [if_neg hfull, ← hlen, hloop]
      refine ⟨state', jumpCount', rfl, hwalked', ?_, hgrown⟩
      rw [length_cons]
      rcases hor with ⟨hlt, hlast⟩ | ⟨hsame, hjump⟩
      · exact .inl ⟨by omega, hlast⟩
      · exact .inr ⟨hsame, by omega⟩

/-- The states that `eina_inlist_sorted_state_init` makes belong to the list: fresh ones, and by
chance ones that no entry is added to. -/
def Suits (state : SortedState A) (xs : List A) : Prop :=
  (state.jumpLimit = 0 ∧ state.jumpDiv = 1) ∨ (state.jumpLimit = 0 ∧ xs = []) ∨
    (state.jumpLimit = 1 ∧ xs ≠ [] ∧ xs.length < state.jumpDiv ∧ state.jumpTable 0 = xs.head?)

/-- How far the entries will be off. -/
def offset (state : SortedState A) : Int := state.jumpDiv - 1 - state.jumpLimit * state.jumpDiv

theorem offset_eq_zero :
    state.offset = 0 ↔ state.jumpLimit = 0 ∧ state.jumpDiv = 1 := by
  unfold offset
  constructor
  · intro h
    cases hlimit : state.jumpLimit with
    | zero =>
      rw [hlimit] at h
      exact ⟨rfl, by omega⟩
    | succ k =>
      rw [hlimit, natCast_succ, Int.add_mul] at h
      have hk : 0 ≤ (k : Int) * state.jumpDiv := Int.mul_nonneg (by omega) (by omega)
      omega
  · rintro ⟨hlimit, hdiv⟩
    rw [hlimit, hdiv]
    rfl

theorem walked_start (state : SortedState A) (xs : List A) : Walked state.offset state xs 0 1 := by
  refine ⟨?_, state.div_pos, fun hoff k hk => ?_⟩
  · unfold offset
    omega
  · rw [(offset_eq_zero.mp hoff).1] at hk
    exact absurd hk (Nat.not_lt_zero k)

theorem init_walk (hlist : Linked H list xs) (state : SortedState A) (hn : xs.length ≤ n) :
    ∃ s jumpCount, init n H state list = some ({ s with inserted := xs.length }, xs.length) ∧
      Walked state.offset s xs xs.length jumpCount ∧
      (state.jumpDiv < 1 + xs.length ∧ LastAt state.offset s xs ∨
        s = state ∧ jumpCount = 1 + xs.length) ∧ Grown state.jumpDiv s := by
  have hzero : Walked state.offset state xs ([] : List A).length 1 := walked_start state xs
  obtain ⟨s, jumpCount, hloop, hwalked, hor, hgrown⟩ := initLoop_spec hlist rfl hn hzero
  rw [length_nil, ← hlist.first] at hloop
  exact ⟨s, jumpCount, by rw [init, hloop]; rfl, hwalked, hor, hgrown _ (.inl rfl)⟩

/-- In a list whose length is an `int`, `jump_div` stays one. -/
theorem Walked.jumpDiv_lt (h : Walked s.offset state xs xs.length jumpCount)
    (hgrown : Grown s.jumpDiv state) (hlen : xs.length < 2 ^ 31) (hdiv : s.jumpDiv ≤ 2 ^ 29) :
    state.jumpDiv < 2 ^ 31 := by
  rcases hgrown with hsame | hlimit
  · omega
  have hpassed := h.passed
  unfold offset at hpassed
  have hused : (s.jumpLimit : Int) * s.jumpDiv ≤ 256 * s.jumpDiv :=
    Int.mul_le_mul_of_nonneg_right (by have := s.limit_le; omega) (by omega)
  have hnew : (128 : Int) * state.jumpDiv ≤ state.jumpLimit * state.jumpDiv :=
    Int.mul_le_mul_of_nonneg_right (by omega) (by omega)
  omega

theorem Walked.matches (h : Walked 0 state xs xs.length jumpCount) :
    Matches { state with inserted := xs.length } xs := by
  refine ⟨h.entries rfl, state.limit_le, ?_, rfl⟩
  have hpassed := h.passed
  have hwithin := h.within
  have hle : (xs.length : Int) ≤ state.jumpLimit * state.jumpDiv := by omega
  exact_mod_cast hle

theorem init_new (hlist : Linked H list xs) (hn : xs.length ≤ n) :
    ∃ state, init n H new list = some (state, xs.length) ∧ state.Matches xs := by
  obtain ⟨s, jumpCount, hinit, hwalked, -, -⟩ := init_walk hlist new hn
  rw [offset_eq_zero.mpr ⟨rfl, rfl⟩] at hwalked
  exact ⟨_, hinit, hwalked.matches⟩

/-- **Exactly which states come to belong to the list**; no counter leaves its `int`, in a list of
fewer than `2 ^ 31` nodes and from a state that such lists lead to. -/
theorem init_exact {H : Heap A} {list : Option A} {xs : List A} (hlist : Linked H list xs)
    (state : SortedState A) {n : Nat} (hn : xs.length ≤ n) :
    ∃ state', init n H state list = some (state', xs.length) ∧
      (state'.Matches xs ↔ state.Suits xs) ∧
      (xs.length < 2 ^ 31 → state.jumpDiv ≤ 2 ^ 29 →
        state'.jumpDiv < 2 ^ 31 ∧ state'.inserted < 2 ^ 31) := by
  obtain ⟨s, jumpCount, hinit, hwalked, hor, hgrown⟩ := init_walk hlist state hn
  refine ⟨_, hinit, ?_, fun hlen hdiv => ⟨hwalked.jumpDiv_lt hgrown hlen hdiv, hlen⟩⟩
  constructor
  · intro hmatches
    rcases hor with ⟨-, k, e, x, hlimit, htable, hget, he⟩ | ⟨rfl, hjump⟩
    · -- the last entry is right, so none is off
      obtain ⟨y, hy, hplace⟩ := hmatches.entries k (by show k < s.jumpLimit; omega)
      obtain rfl := some.inj (htable.symm.trans hy)
      have hsame : e = k * s.jumpDiv := by
        obtain ⟨he1, he2⟩ := List.getElem?_eq_some_iff.mp hget
        obtain ⟨hk1, hk2⟩ := List.getElem?_eq_some_iff.mp hplace
        exact (List.Nodup.getElem_inj_iff hlist.nodup).mp (he2.trans hk2.symm)
      refine .inl (offset_eq_zero.mp ?_)
      rw [hsame] at he
      push_cast at he
      omega
    · -- nothing was added
      have hwithin := hwalked.within
      have hlt : xs.length < s.jumpDiv := by omega
      have hentries : s.Entries xs := hmatches.entries
      cases xs with
      | nil =>
        refine .inr (.inl ⟨Nat.eq_zero_of_not_pos fun hpos => ?_, rfl⟩)
        obtain ⟨y, -, hy⟩ := hentries 0 hpos
        simp at hy
      | cons x xs =>
        have hpos : 0 < s.jumpLimit := by
          by_contra hzero
          have hreach : (x :: xs).length ≤ s.jumpLimit * s.jumpDiv := hmatches.reach
          rw [Nat.eq_zero_of_not_pos hzero] at hreach
          simp at hreach
        have hone : s.jumpLimit = 1 := by
          by_contra hne
          obtain ⟨y, -, hy⟩ := hentries 1 (by omega)
          obtain ⟨hbound, -⟩ := List.getElem?_eq_some_iff.mp hy
          omega
        obtain ⟨y, htable, hy⟩ := hentries 0 hpos
        refine .inr (.inr ⟨hone, cons_ne_nil _ _, hlt, ?_⟩)
        rw [htable, ← hy, Nat.zero_mul]
        rfl
  · intro hsuits
    rcases hsuits with hfresh | ⟨hlimit, rfl⟩ | ⟨hlimit, hne, hlt, hfirst⟩
    · rw [offset_eq_zero.mpr hfresh] at hwalked
      exact hwalked.matches
    · obtain rfl : s = state := by
        rcases hor with ⟨hbad, -⟩ | ⟨hsame, -⟩
        · have hpos := state.div_pos
          rw [length_nil] at hbad
          omega
        · exact hsame
      refine ⟨fun k hk => ?_, s.limit_le, Nat.zero_le _, rfl⟩
      have hk' : k < s.jumpLimit := hk
      omega
    · obtain rfl : s = state := by
        rcases hor with ⟨hbad, -⟩ | ⟨hsame, -⟩
        · omega
        · exact hsame
      refine ⟨fun k hk => ?_, s.limit_le, ?_, rfl⟩
      · have hk' : k < s.jumpLimit := hk
        obtain rfl : k = 0 := by omega
        obtain ⟨x, hx⟩ := ne_none_iff_exists'.mp (fun h => hne (head?_eq_none_iff.mp h))
        refine ⟨x, hfirst.trans hx, ?_⟩
        rw [Nat.zero_mul, ← head?_eq_getElem?, hx]
      · show xs.length ≤ s.jumpLimit * s.jumpDiv
        rw [hlimit]
        omega

/-- Nodes in a row, from `a` on. -/
def row (a n : Nat) : Heap Nat := fun i =>
  if a ≤ i ∧ i < a + n then
    some ⟨if i + 1 < a + n then some (i + 1) else none, if i = a then none else some (i - 1),
      if i = a then some (a + n - 1) else none⟩
  else none

theorem seg_row (a n m : Nat) : ∀ k, a ≤ k → k + m = a + n →
    Chain.Seg (row a n) (if k = a then none else some (k - 1))
      ((range' k m).map fun i => (i, if i = a then some (a + n - 1) else none)) none := by
  induction m with
  | zero => exact fun _ _ _ => trivial
  | succ m ih =>
    intro k hak hk
    refine ⟨?_, ?_⟩
    · rw [row, if_pos ⟨hak, by omega⟩]
      cases m with
      | zero =>
        rw [if_neg (by omega)]
        rfl
      | succ m =>
        rw [if_pos (by omega)]
        rfl
    · have hrest := ih (k + 1) (by omega) (by omega)
      rw [if_neg (by omega)] at hrest
      exact hrest

theorem last_row (f : Nat → Option Nat) (m : Nat) : ∀ k p,
    Chain.last p ((range' k (m + 1)).map fun i => (i, f i)) = some (k + m) := by
  induction m with
  | zero => exact fun _ _ => rfl
  | succ m ih =>
    intro k p
    have hrest := ih (k + 1) (some k)
    rw [show k + 1 + m = k + (m + 1) by omega] at hrest
    exact hrest

theorem linked_row (a n : Nat) : Linked (row a (n + 1)) (some a) (range' a (n + 1)) := by
  have hseg := seg_row a (n + 1) (n + 1) a (Nat.le_refl a) rfl
  rw [if_pos rfl] at hseg
  show Linked (row a (n + 1)) (range' a (n + 1)).head? (range' a (n + 1))
  refine linked_of_seg ?_ hseg nodup_range' ?_
  · rw [keys, List.map_map]
    exact map_id _
  · intro z u rest heq
    rw [last_row]
    obtain ⟨hpair, -⟩ := cons.inj heq
    obtain ⟨rfl, rfl⟩ := Prod.mk.inj hpair
    exact if_pos rfl

/-- A list of 300 nodes and one of four. -/
def longAndShort : Heap Nat := fun i => if i < 300 then row 0 300 i else row 300 4 i

theorem linked_long : Linked longAndShort (some 0) (range' 0 300) :=
  (linked_row 0 299).congr fun _ hx => if_pos (by simpa using hx)

theorem linked_short : Linked longAndShort (some 300) (range' 300 4) :=
  (linked_row 300 3).congr fun _ hx => if_neg (by simp at hx; omega)

/-- The long list fills the table of a new state, which then does not come to belong to the short
one. -/
theorem init_exact_used : ∃ state, init 300 longAndShort new (some 0) = some (state, 300) ∧
    state.Matches (range' 0 300) ∧ state.jumpLimit = 150 ∧ state.jumpDiv = 2 ∧
    ∃ state', init 4 longAndShort state (some 300) = some (state', 4) ∧
      ¬state'.Matches (range' 300 4) := by
  obtain ⟨state, hinit, hmatches, -⟩ :=
    init_exact linked_long new (n := 300) (Nat.le_of_eq length_range')
  rw [length_range'] at hinit
  have hcounters : (init 300 longAndShort new (some 0)).map
      (fun r => (r.1.jumpLimit, r.1.jumpDiv)) = some (150, 2) := by decide +kernel
  rw [hinit] at hcounters
  obtain ⟨hlimit, hdiv⟩ := Prod.mk.inj (some.inj hcounters)
  dsimp only at hlimit hdiv
  obtain ⟨state', hinit', hmatches', -⟩ :=
    init_exact linked_short state (n := 4) (Nat.le_of_eq length_range')
  rw [length_range'] at hinit'
  refine ⟨state, hinit, hmatches.mpr (.inl ⟨rfl, rfl⟩), hlimit, hdiv, state', hinit', ?_⟩
  rw [hmatches']
  rintro (⟨hzero, -⟩ | ⟨hzero, -⟩ | ⟨hone, -⟩) <;> omega

/-- Two nodes, each on its own. -/
def twoLists : Heap Nat
  | 0 => some ⟨none, none, some 0⟩
  | 1 => some ⟨none, none, some 1⟩
  | _ => none

/-- A state that was used with one list does not come to belong to another. -/
theorem init_used : ¬∀ (H : Heap Nat) (list list' : Option Nat) (xs xs' : List Nat) (n : Nat),
    Linked H list xs → Linked H list' xs' → ∀ state count, init n H new list = some (state, count) →
      ∀ state' count', init n H state list' = some (state', count') → state'.Matches xs' := by
  intro hall
  have hmatches := hall twoLists (some 0) (some 1) [0] [1] 1 (linked_single rfl)
    (linked_single rfl) _ _ rfl _ _ rfl
  obtain ⟨x, -, hx⟩ := hmatches.entries 1 (by decide)
  have hplace : ([1] : List Nat)[1]? = some x := hx
  simp at hplace

end SortedState

end Eina.Inlist
