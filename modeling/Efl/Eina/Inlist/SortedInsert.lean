/-
`eina_inlist_sorted_insert` and the searches it shares with
`eina_inlist_sorted_state_insert`.

The place of a new item is searched twice, in the jump table and then between the nodes
around the entry that was found.  The searches end at some place of their window whatever
the callback answers; when it compares the items of a total preorder and the list is
sorted, the item belongs there.
-/
import Efl.Eina.Inlist.JumpTable
import Efl.Eina.Inlist.Move
import Efl.Lib.Compare

namespace Eina.Inlist

open Chain Compare List Option Int

variable {A : Type}

/-! ### The code -/

/-- `while (inf <= sup)`: `ct` is the node at `cur`, and `get` leads to the one at another place. -/
def dichotomic (func : A → A → Int) (item : A) (get : Nat → A → Nat → Option A) :
    Nat → Int → Int → Nat → A → Int → Option (Nat × A × Int)
  | n, inf, sup, tmp, ct, cmp =>
    if inf ≤ sup then
      match n with
      | 0 => none
      | n + 1 =>
        let cur := (inf + (sup - inf) / 2).toNat
        (get tmp ct cur).bind fun ct =>
          let cmp := func ct item
          if cmp = 0 then some (cur, ct, cmp)
          else if cmp < 0 then dichotomic func item get n (cur + 1) sup cur ct cmp
          else if 0 < cur then dichotomic func item get n inf (cur - 1) cur ct cmp
          else some (cur, ct, cmp)
    else some (tmp, ct, cmp)

/-- `ct = ct->next`, `k` times. -/
def forward (H : Heap A) : Nat → A → Option A
  | 0, ct => some ct
  | k + 1, ct => (H ct).bind fun c => c.next.bind fun ct => forward H k ct

/-- `ct = ct->prev`, `k` times. -/
def backward (H : Heap A) : Nat → A → Option A
  | 0, ct => some ct
  | k + 1, ct => (H ct).bind fun c => c.prev.bind fun ct => backward H k ct

/-- From the node at `tmp` to the one at `cur`. -/
def walk (H : Heap A) (tmp : Nat) (ct : A) (cur : Nat) : Option A :=
  if tmp < cur then forward H (cur - tmp) ct else backward H (tmp - cur) ct

/-- Where the item goes. -/
inductive Place (A : Type) where
  | first (ct : A)
  | last
  | behind (cur : Nat) (ct : A)
  | before (cur : Nat) (ct : A)

/-- The searches for the place of `item` in a list of `count` nodes. -/
def locate [DecidableEq A] (func : A → A → Int) (n : Nat) (H : Heap A) (state : SortedState A)
    (list item : A) (count : Nat) : Option (Place A) :=
  (state.entry 0).bind fun ct =>
    (dichotomic func item (fun _ _ cur => state.entry cur) n 0 (state.jumpLimit - 1) 0 ct
      (func ct item)).bind fun r =>
        if r.1 = 0 ∧ 0 < r.2.2 then some (Place.first r.2.1)
        else (H list).bind fun c =>
          if r.2.2 < 0 ∧ c.val = some r.2.1 then some Place.last
          else
            let cur := r.1 * state.jumpDiv
            let inf : Int := cur - state.jumpDiv - 1
            let sup : Int := cur + state.jumpDiv + 1
            let sup := if (count : Int) - 1 < sup then (count : Int) - 1 else sup
            let inf := if inf < 0 then 0 else inf
            (dichotomic func item (walk H) n inf sup cur r.2.1 r.2.2).map fun r =>
              if r.2.2 ≤ 0 then Place.behind r.1 r.2.1 else Place.before r.1 r.2.1

/-- The operation that a place asks for. -/
def insertAt [DecidableEq A] (n : Nat) (H : Heap A) (list : Option A) (item : A) :
    Place A → Option (Heap A × Option A)
  | Place.first ct => prependRelative H list item (some ct)
  | Place.last => append n H list item
  | Place.behind _ ct => appendRelative n H list item (some ct)
  | Place.before _ ct => prependRelative H list item (some ct)

/-- `eina_inlist_sorted_insert` -/
def sortedInsert [DecidableEq A] (func : A → A → Int) (n : Nat) (H : Heap A) (list : Option A)
    (item : A) : Option (Heap A × Option A) :=
  match list with
  | none => append n H none item
  | some head => (H head).bind fun c =>
    match c.next with
    | none =>
      if func head item < 0 then append n H (some head) item else prepend H (some head) item
    | some _ => (SortedState.new.init n H (some head)).bind fun s =>
      (locate func n H s.1 head item s.2).bind fun p => insertAt n H (some head) item p

/-! ### Searching -/

/-- A place of the window that no neighbour speaks against. -/
structure Settled (func : A → A → Int) (item : A) (view : Nat → Option A) (lo hi cur : Nat)
    (ct : A) : Prop where
  low : lo ≤ cur
  high : cur ≤ hi
  node : view cur = some ct
  after : func ct item < 0 → cur = hi ∨ ∃ y, view (cur + 1) = some y ∧ 0 < func y item
  before : 0 < func ct item → cur = lo ∨ ∃ k y, cur = k + 1 ∧ view k = some y ∧ func y item < 0

variable {func : A → A → Int} {item : A} {get : Nat → A → Nat → Option A} {view : Nat → Option A}
  {lo hi : Nat} {n : Nat} {ct : A}

theorem dichotomic_loop
    (hget : ∀ tmp ct cur, view tmp = some ct → lo ≤ cur → cur ≤ hi →
      ∃ y, get tmp ct cur = some y ∧ view cur = some y)
    (n : Nat) (inf sup : Int) (tmp : Nat) (ct : A) (htmp : view tmp = some ct)
    (hn : sup - inf < n) (hinf : (lo : Int) ≤ inf) (hsup : sup ≤ hi)
    (hlow : inf = lo ∨ ∃ (k : Nat) (y : A), inf = k + 1 ∧ view k = some y ∧ func y item < 0)
    (hhigh : sup = hi ∨ ∃ (k : Nat) (y : A), sup + 1 = k ∧ view k = some y ∧ 0 < func y item)
    (hdone : sup < inf → Settled func item view lo hi tmp ct) :
    ∃ cur ct', dichotomic func item get n inf sup tmp ct (func ct item) =
      some (cur, ct', func ct' item) ∧ Settled func item view lo hi cur ct' := by
  induction n generalizing inf sup tmp ct with
  | zero =>
    have hlt : sup < inf := by omega
    refine ⟨tmp, ct, ?_, hdone hlt⟩
    rw [dichotomic, if_neg (by omega)]
  | succ n ih =>
    rw [dichotomic]
    by_cases hle : inf ≤ sup
    · rw [if_pos hle]
      dsimp only
      obtain ⟨cur, hcur⟩ : ∃ cur : Nat, (cur : Int) = inf + (sup - inf) / 2 :=
        ⟨(inf + (sup - inf) / 2).toNat, toNat_of_nonneg (by omega)⟩
      rw [← hcur, toNat_natCast]
      obtain ⟨y, hy, hview⟩ := hget tmp ct cur htmp (by omega) (by omega)
      rw [hy, bind_some]
      by_cases hzero : func y item = 0
      · rw [if_pos hzero]
        refine ⟨cur, y, rfl, by omega, by omega, hview, fun h => ?_, fun h => ?_⟩
        · omega
        · omega
      rw [if_neg hzero]
      by_cases hneg : func y item < 0
      · rw [if_pos hneg]
        refine ih (cur + 1) sup cur y hview (by omega) (by omega) hsup
          (.inr ⟨cur, y, rfl, hview, hneg⟩) hhigh fun hend => ?_
        refine ⟨by omega, by omega, hview, fun _ => ?_, fun h => absurd h (by omega)⟩
        rcases hhigh with h | ⟨k, z, hk, hz, hpos⟩
        · exact .inl (by omega)
        · obtain rfl : k = cur + 1 := by omega
          exact .inr ⟨z, hz, hpos⟩
      · rw [if_neg hneg]
        by_cases hpos : 0 < cur
        · rw [if_pos hpos]
          refine ih inf (cur - 1) cur y hview (by omega) hinf (by omega) hlow
            (.inr ⟨cur, y, by omega, hview, by omega⟩) fun hend => ?_
          refine ⟨by omega, by omega, hview, fun h => absurd h hneg, fun _ => ?_⟩
          rcases hlow with h | ⟨k, z, hk, hz, hneg'⟩
          · exact .inl (by omega)
          · exact .inr ⟨k, z, by omega, hz, hneg'⟩
        · rw [if_neg hpos]
          refine ⟨cur, y, rfl, by omega, by omega, hview, fun h => absurd h hneg, fun _ => ?_⟩
          exact .inl (by omega)
    · rw [if_neg hle]
      exact ⟨tmp, ct, rfl, hdone (by omega)⟩

/-- **The search settles in its window.** -/
theorem dichotomic_spec (func : A → A → Int) (item : A) (get : Nat → A → Nat → Option A)
    (hle : lo ≤ hi)
    (hget : ∀ tmp ct cur, view tmp = some ct → lo ≤ cur → cur ≤ hi →
      ∃ y, get tmp ct cur = some y ∧ view cur = some y) {tmp : Nat} (htmp : view tmp = some ct)
        (hn : hi - lo < n) :
    ∃ cur ct', dichotomic func item get n lo hi tmp ct (func ct item) =
      some (cur, ct', func ct' item) ∧ Settled func item view lo hi cur ct' :=
  dichotomic_loop hget n lo hi tmp ct htmp (by omega) (Int.le_refl _) (Int.le_refl _)
    (.inl rfl) (.inl rfl) fun h => absurd h (by omega)

/-! ### Walking between nodes -/

variable {xs : List A} {i : Nat} {x : A}

theorem cut_at (hx : xs[i]? = some x) :
    xs = xs.take i ++ x :: xs.drop (i + 1) := by
  obtain ⟨hi, rfl⟩ := List.getElem?_eq_some_iff.mp hx
  rw [getElem_cons_drop, take_append_drop]

variable {H : Heap A} {list : Option A}

theorem Linked.next (h : Linked H list xs) (hx : xs[i]? = some x) :
    ∃ c, H x = some c ∧ c.next = xs[i + 1]? := by
  rw [cut_at hx] at h
  obtain ⟨v, hv⟩ := h.get
  exact ⟨_, hv, head?_drop⟩

theorem Linked.prev (h : Linked H list xs) (hx : xs[i + 1]? = some x) :
    ∃ c, H x = some c ∧ c.prev = xs[i]? := by
  obtain ⟨hi, -⟩ := List.getElem?_eq_some_iff.mp hx
  rw [cut_at hx] at h
  obtain ⟨v, hv⟩ := h.get
  refine ⟨_, hv, ?_⟩
  have hlen : (xs.take (i + 1)).length = i + 1 := by rw [length_take]; omega
  rw [getLast?_eq_getElem?, hlen, Nat.add_sub_cancel, getElem?_take_of_lt (by omega)]

theorem forward_spec (h : Linked H list xs) (k : Nat) (hx : xs[i]? = some x)
    (hk : i + k < xs.length) :
    forward H k x = xs[i + k]? := by
  induction k generalizing i x with
  | zero => rw [forward, Nat.add_zero, hx]
  | succ k ih =>
    obtain ⟨c, hc, hnext⟩ := h.next hx
    obtain ⟨y, hy⟩ : ∃ y, xs[i + 1]? = some y := ⟨_, getElem?_eq_getElem (by omega)⟩
    rw [forward, hc, bind_some, hnext, hy, bind_some, ih hy (by omega)]
    congr 1
    omega

theorem backward_spec (h : Linked H list xs) (k : Nat) (hx : xs[i + k]? = some x) :
    backward H k x = xs[i]? := by
  induction k generalizing x with
  | zero => rw [backward, ← hx, Nat.add_zero]
  | succ k ih =>
    rw [← Nat.add_assoc] at hx
    obtain ⟨c, hc, hprev⟩ := h.prev hx
    obtain ⟨hi, -⟩ := List.getElem?_eq_some_iff.mp hx
    obtain ⟨y, hy⟩ : ∃ y, xs[i + k]? = some y := ⟨_, getElem?_eq_getElem (by omega)⟩
    rw [backward, hc, bind_some, hprev, hy, bind_some, ih hy]

theorem walk_spec (h : Linked H list xs) {tmp cur : Nat} (hct : xs[tmp]? = some ct)
    (hcur : cur < xs.length) :
    walk H tmp ct cur = xs[cur]? := by
  unfold walk
  by_cases hlt : tmp < cur
  · rw [if_pos hlt, forward_spec h _ hct (by omega)]
    congr 1
    omega
  · rw [if_neg hlt]
    refine backward_spec h _ ?_
    rw [← hct]
    congr 1
    omega

/-! ### The place of an item -/

/-- Before which node a place of the list `xs` is. -/
def Place.At (xs : List A) : Place A → Nat → Prop
  | Place.first ct, i => i = 0 ∧ xs[0]? = some ct
  | Place.last, i => i = xs.length
  | Place.behind cur ct, i => i = cur + 1 ∧ xs[cur]? = some ct
  | Place.before cur ct, i => i = cur ∧ xs[cur]? = some ct

/-- The nodes in the table, `div` apart. -/
def everyNth (limit div : Nat) (xs : List A) (k : Nat) : Option A :=
  if k < limit then xs[k * div]? else none

theorem everyNth_eq_some {limit div : Nat} {k : Nat} :
    everyNth limit div xs k = some x ↔ k < limit ∧ xs[k * div]? = some x := by
  unfold everyNth
  by_cases hk : k < limit
  · rw [if_pos hk]
    exact ⟨fun h => ⟨hk, h⟩, fun h => h.2⟩
  · rw [if_neg hk]
    exact ⟨fun h => absurd h (by simp), fun h => absurd h.1 hk⟩

section Window

variable (hfunc : Total func) {xs : List A} (hsorted : Sorted func xs) {limit div k : Nat} {x : A}
  (hentry : Settled func item (everyNth limit div xs) 0 (limit - 1) k x) {z : A}
include hfunc hsorted hentry

theorem low_answer (hfirst : ¬(k = 0 ∧ 0 < func x item)) {lo : Nat} (hlo : lo + div ≤ k * div)
    (hz : xs[lo]? = some z) : func z item ≤ 0 := by
  obtain ⟨hk, hx⟩ := everyNth_eq_some.mp hentry.node
  by_cases hpos : 0 < func x item
  · rcases hentry.before hpos with hzero | ⟨j, y, rfl, hy, hneg⟩
    · exact absurd ⟨hzero, hpos⟩ hfirst
    obtain ⟨-, hy⟩ := everyNth_eq_some.mp hy
    rw [Nat.add_mul] at hlo
    exact (answers_mono hfunc hsorted (by omega) hz hy).2 (Int.le_of_lt hneg)
  · exact (answers_mono hfunc hsorted (by omega) hz hx).2 (by omega)

theorem high_answer (hslack : xs.length ≤ limit * div + 2) {hi : Nat}
    (hhi : k * div + div + 1 ≤ hi) (hend : hi + 1 < xs.length) (hz : xs[hi]? = some z) :
    0 ≤ func z item := by
  obtain ⟨hk, hx⟩ := everyNth_eq_some.mp hentry.node
  by_cases hneg : func x item < 0
  · rcases hentry.after hneg with hlast | ⟨y, hy, hpos⟩
    · obtain rfl : limit = k + 1 := by omega
      rw [Nat.add_mul] at hslack
      omega
    · obtain ⟨-, hy⟩ := everyNth_eq_some.mp hy
      rw [Nat.add_mul] at hy
      exact (answers_mono hfunc hsorted (by omega) hy hz).1 (Int.le_of_lt hpos)
  · exact (answers_mono hfunc hsorted (by omega) hx hz).1 (by omega)

theorem belongs_of_settled (hfirst : ¬(k = 0 ∧ 0 < func x item))
    (hslack : xs.length ≤ limit * div + 2) {lo hi cur : Nat} {ct : A}
    (hlo : lo = 0 ∨ lo + div ≤ k * div) (hhi : hi + 1 = xs.length ∨ k * div + div + 1 ≤ hi)
    (h : Settled func item (fun i => xs[i]?) lo hi cur ct) :
    Belongs func item xs (if func ct item ≤ 0 then cur + 1 else cur) := by
  have hnode : xs[cur]? = some ct := h.node
  by_cases hle : func ct item ≤ 0
  · rw [if_pos hle]
    refine ⟨fun j y hj hy => ?_, fun y hy => ?_⟩
    · obtain rfl : j = cur := by omega
      obtain rfl := some.inj (hnode.symm.trans hy)
      exact hle
    · by_cases hneg : func ct item < 0
      · rcases h.after hneg with rfl | ⟨z, hz, hpos⟩
        · obtain ⟨hbound, -⟩ := List.getElem?_eq_some_iff.mp hy
          rcases hhi with hhi | hhi
          · omega
          · have hhigh := high_answer hfunc hsorted hentry hslack hhi hbound hnode
            omega
        · obtain rfl := some.inj (hz.symm.trans hy)
          exact Int.le_of_lt hpos
      · exact (answers_mono hfunc hsorted (Nat.le_succ cur) hnode hy).1 (by omega)
  · rw [if_neg hle]
    refine ⟨fun j y hj hy => ?_, fun y hy => ?_⟩
    · rcases h.before (by omega) with rfl | ⟨i, z, hi, hz, hneg⟩
      · rcases hlo with hlo | hlo
        · omega
        · exact absurd (low_answer hfunc hsorted hentry hfirst hlo hnode) hle
      · obtain rfl : i = j := by omega
        obtain rfl := some.inj (hz.symm.trans hy)
        exact Int.le_of_lt hneg
    · obtain rfl := some.inj (hnode.symm.trans hy)
      omega

end Window

/-- **The searches find a place**, and for a sorted list the one where the item belongs. -/
theorem locate_spec [DecidableEq A] (func : A → A → Int) (item : A) {head : A}
    (h : Linked H (some head) xs) {state : SortedState A} (hentries : state.Entries xs)
    (hlimit : 0 < state.jumpLimit) (hslack : xs.length ≤ state.jumpLimit * state.jumpDiv + 2)
      (hn : xs.length < n) :
    ∃ p i, locate func n H state head item xs.length = some p ∧ p.At xs i ∧ i ≤ xs.length ∧
      (Total func → Sorted func xs → Belongs func item xs i) := by
  have hentry : ∀ k < state.jumpLimit, ∃ y, state.entry k = some y ∧
      everyNth state.jumpLimit state.jumpDiv xs k = some y := by
    intro k hk
    obtain ⟨y, -, hy⟩ := hentries k hk
    exact ⟨y, (SortedState.entry_eq hentries hk).trans hy, everyNth_eq_some.mpr ⟨hk, hy⟩⟩
  obtain ⟨x0, hx0, hview0⟩ := hentry 0 hlimit
  have hlen : state.jumpLimit - 1 < xs.length := by
    obtain ⟨y, -, hy⟩ := hentries (state.jumpLimit - 1) (by omega)
    obtain ⟨hbound, -⟩ := List.getElem?_eq_some_iff.mp hy
    exact Nat.lt_of_le_of_lt (Nat.le_mul_of_pos_right _ state.div_pos) hbound
  obtain ⟨k, x, hsearch, hsettled⟩ := dichotomic_spec func item
    (fun _ _ cur => state.entry cur) (Nat.zero_le (state.jumpLimit - 1)) (n := n)
    (fun _ _ cur _ _ hcur => hentry cur (by omega)) hview0 (by omega)
  have hsup : (state.jumpLimit : Int) - 1 = (state.jumpLimit - 1 : Nat) := by omega
  obtain ⟨hk, hx⟩ := everyNth_eq_some.mp hsettled.node
  unfold locate
  rw [hx0, bind_some, hsup]
  rw [Int.natCast_zero] at hsearch
  rw [hsearch, bind_some]
  dsimp only
  by_cases hfirst : k = 0 ∧ 0 < func x item
  · rw [if_pos hfirst]
    obtain ⟨rfl, hpos⟩ := hfirst
    rw [Nat.zero_mul] at hx
    refine ⟨_, 0, rfl, ⟨rfl, hx⟩, Nat.zero_le _,
      fun _ _ => ⟨fun j y hj => by omega, fun y hy => ?_⟩⟩
    obtain rfl := some.inj (hx.symm.trans hy)
    exact Int.le_of_lt hpos
  · rw [if_neg hfirst]
    obtain ⟨c, hc, hlast⟩ : ∃ c, H head = some c ∧ c.val = xs.getLast? := by
      obtain ⟨ys, hys⟩ := head?_eq_some_iff.mp h.first.symm
      rw [hys] at h ⊢
      exact ⟨_, h.head, rfl⟩
    rw [hc, bind_some]
    by_cases hend : func x item < 0 ∧ c.val = some x
    · rw [if_pos hend]
      refine ⟨_, xs.length, rfl, rfl, Nat.le_refl _,
        fun _ _ => ⟨fun j y hj hy => ?_, fun y hy => ?_⟩⟩
      · rw [hlast, getLast?_eq_getElem?, hj, Nat.add_sub_cancel, hy] at hend
        rw [some.inj hend.2]
        exact Int.le_of_lt hend.1
      · simp at hy
    · rw [if_neg hend]
      obtain ⟨hbound, -⟩ := List.getElem?_eq_some_iff.mp hx
      generalize hlo : k * state.jumpDiv - (state.jumpDiv + 1) = lo
      generalize hhi : min (xs.length - 1) (k * state.jumpDiv + state.jumpDiv + 1) = hi
      have hinf : (if ((k * state.jumpDiv : Nat) : Int) - state.jumpDiv - 1 < 0 then (0 : Int)
          else ((k * state.jumpDiv : Nat) : Int) - state.jumpDiv - 1) = (lo : Int) := by
        split <;> omega
      have hsup' : (if (xs.length : Int) - 1 < ((k * state.jumpDiv : Nat) : Int) + state.jumpDiv + 1
          then (xs.length : Int) - 1
          else ((k * state.jumpDiv : Nat) : Int) + state.jumpDiv + 1) = (hi : Int) := by
        split <;> omega
      have hle : lo ≤ hi := by omega
      have hget : ∀ tmp ct cur, xs[tmp]? = some ct → lo ≤ cur → cur ≤ hi →
          ∃ y, walk H tmp ct cur = some y ∧ xs[cur]? = some y := by
        intro tmp ct cur htmp _ hcur
        obtain ⟨y, hy⟩ : ∃ y, xs[cur]? = some y := ⟨_, getElem?_eq_getElem (by omega)⟩
        exact ⟨y, (walk_spec h htmp (by omega)).trans hy, hy⟩
      obtain ⟨cur, ct, hsearch', hsettled'⟩ := dichotomic_spec func item (walk H)
        hle hget hx (by omega) (n := n)
      rw [hinf, hsup', hsearch']
      have hnode : xs[cur]? = some ct := hsettled'.node
      have hin : cur < xs.length := (List.getElem?_eq_some_iff.mp hnode).1
      refine ⟨_, if func ct item ≤ 0 then cur + 1 else cur, rfl, ?_, ?_, fun hfunc hsorted => ?_⟩
      · dsimp only
        split
        · exact ⟨rfl, hnode⟩
        · exact ⟨rfl, hnode⟩
      · split <;> omega
      · exact belongs_of_settled hfunc hsorted hsettled hfirst hslack (by omega)
          (by omega) hsettled'

/-! ### Inserting -/

section Insert

variable [DecidableEq A]

theorem insertAt_spec {H : Heap A} {list : Option A} {xs : List A} (h : Linked H list xs)
    (hitem : item ∉ xs) (halive : H item ≠ none) (n : Nat) {p : Place A} {i : Nat}
    (hp : p.At xs i) :
    ∃ H', insertAt n H list item p = some (H', (xs.take i ++ item :: xs.drop i).head?) ∧
      Linked H' (xs.take i ++ item :: xs.drop i).head? (xs.take i ++ item :: xs.drop i) ∧
      Rewires H H' (item :: xs) := by
  have hbefore : ∀ ct, xs[i]? = some ct → ∃ H', prependRelative H list item (some ct) =
      some (H', (xs.take i ++ item :: xs.drop i).head?) ∧
        Linked H' (xs.take i ++ item :: xs.drop i).head? (xs.take i ++ item :: xs.drop i) ∧
        Rewires H H' (item :: xs) := by
    intro ct hct
    have hcut := cut_at hct
    have hdrop : xs.drop i = ct :: xs.drop (i + 1) := by
      obtain ⟨hi, rfl⟩ := List.getElem?_eq_some_iff.mp hct
      exact drop_eq_getElem_cons hi
    have h' := h
    rw [hcut] at h'
    obtain ⟨H', hadd, hlist, hw⟩ := prependRelative_spec h' (by rwa [← hcut]) halive
    rw [← hcut] at hw
    rw [hdrop]
    exact ⟨H', hadd, hlist, hw⟩
  cases p with
  | first ct =>
    obtain ⟨rfl, hct⟩ := hp
    exact hbefore ct hct
  | last =>
    obtain rfl := hp
    rw [take_length, drop_length]
    exact append_spec h hitem halive n
  | behind cur ct =>
    obtain ⟨rfl, hct⟩ := hp
    have hcut := cut_at hct
    have htake : xs.take (cur + 1) = xs.take cur ++ [ct] := by
      obtain ⟨hi, rfl⟩ := List.getElem?_eq_some_iff.mp hct
      exact (take_append_getElem hi).symm
    have h' := h
    rw [hcut] at h'
    obtain ⟨H', hadd, hlist, hw⟩ := appendRelative_spec h' (by rwa [← hcut]) halive n
    rw [← hcut] at hw
    have hfirst := hlist.first
    rw [htake, append_assoc, singleton_append, ← hfirst]
    exact ⟨H', hadd, hlist, hw⟩
  | before cur ct =>
    obtain ⟨rfl, hct⟩ := hp
    exact hbefore ct hct

/-- **The item is inserted, and in order where the list is in order.** -/
theorem sortedInsert_spec (func : A → A → Int) {H : Heap A} {list : Option A} {xs : List A}
    (h : Linked H list xs) (hitem : item ∉ xs) (halive : H item ≠ none) {n : Nat}
    (hn : xs.length < n) :
    ∃ H' i, i ≤ xs.length ∧
      sortedInsert func n H list item = some (H', (xs.take i ++ item :: xs.drop i).head?) ∧
      Linked H' (xs.take i ++ item :: xs.drop i).head? (xs.take i ++ item :: xs.drop i) ∧
      Rewires H H' (item :: xs) ∧
      (Total func → Sorted func xs → Sorted func (xs.take i ++ item :: xs.drop i)) := by
  match xs, h with
  | [], h =>
    obtain rfl : list = none := h.first
    obtain ⟨H', hadd, hlist, hw⟩ := append_spec h hitem halive n
    exact ⟨H', 0, Nat.le_refl _, hadd, hlist, hw, fun _ _ => sorted_singleton item⟩
  | [x], h =>
    obtain rfl : list = some x := h.first
    unfold sortedInsert
    dsimp only
    rw [h.head]
    dsimp only [head?_nil]
    by_cases hlt : func x item < 0
    · obtain ⟨H', hadd, hlist, hw⟩ := append_spec h hitem halive n
      rw [if_pos hlt]
      refine ⟨H', 1, Nat.le_refl _, hadd, hlist, hw, fun _ _ => ?_⟩
      exact sorted_cons.mpr ⟨by simp [Int.le_of_lt hlt], sorted_singleton item⟩
    · obtain ⟨H', hadd, hlist, hw⟩ := prepend_spec h hitem halive
      rw [if_neg hlt]
      refine ⟨H', 0, Nat.zero_le _, hadd, hlist, hw, fun hfunc _ => ?_⟩
      exact sorted_cons.mpr ⟨by simp [hfunc.le_of_not_lt hlt], sorted_singleton x⟩
  | x :: y :: r, h =>
    obtain rfl : list = some x := h.first
    obtain ⟨state, hinit, hmatches⟩ := SortedState.init_new h (Nat.le_of_lt hn)
    have hreach := hmatches.reach
    have hlimit : 0 < state.jumpLimit := by
      by_contra hzero
      rw [Nat.eq_zero_of_not_pos hzero] at hreach
      simp at hreach
    obtain ⟨p, i, hlocate, hp, hi, hbelongs⟩ :=
      locate_spec func item h hmatches.entries hlimit (Nat.le_add_right_of_le hreach) hn
    obtain ⟨H', hadd, hlist, hw⟩ := insertAt_spec h hitem halive n hp
    refine ⟨H', i, hi, ?_, hlist, hw, fun hfunc hsorted => ?_⟩
    · unfold sortedInsert
      dsimp only
      rw [h.head, bind_some]
      dsimp only [head?_cons]
      rw [hinit, bind_some, hlocate, bind_some, hadd]
    · exact (hbelongs hfunc hsorted).sorted hfunc hi hsorted

end Insert

end Eina.Inlist
