/-
Searching a sorted list and inserting into it.

The last and the first node are looked at before any others.  The search between them goes
from the node it looked at last to the next one along the links; where it ends depends on
the last node it looked at, not on its bounds.
-/
import Efl.Eina.List.Search

namespace Eina.Lists

open Chain List Option Int

variable {Data : Type}

/-! ### The code -/

namespace Mem

variable (m : Mem Data) (func : Option Data → Option Data → Int) (data : Option Data)

/-- From the node at `tmp` to the one at `cur`. -/
def toward (tmp cur : Nat) (ct : Addr) : Option (Option Addr) :=
  if tmp < cur then m.walk Cell.next (cur - tmp) (some ct)
  else m.walk Cell.prev (tmp - cur) (some ct)

/-- `while (inf <= sup)`: `ct` is the node at `cur`. -/
def searchLoop : Nat → Nat → Nat → Nat → Addr → Int → Option (Option Addr × Int)
  | n, inf, sup, cur, ct, cmp =>
    if inf ≤ sup then
      match n with
      | 0 => none
      | n + 1 =>
        let tmp := cur
        let cur := inf + (sup - inf) / 2
        (m.toward tmp cur ct).bind fun ct => ct.bind fun ct => (m.node ct).bind fun c =>
          let cmp := func c.val.data data
          if cmp = 0 then some (some ct, cmp)
          else if cmp < 0 then searchLoop n (cur + 1) sup cur ct cmp
          else if 0 < cur then searchLoop n inf (cur - 1) cur ct cmp
          else some (some ct, cmp)
    else some (some ct, cmp)

/-- `eina_list_search_sorted_near_list`: the node and `*result_cmp`. -/
def searchSortedNearList (list : Option Addr) : Option (Option Addr × Int) :=
  match list with
  | none => some (none, 0)
  | some list =>
    (m.node list).bind fun head => (m.accounting head.val.accounting).bind fun r =>
      if r.count = 1 then some (some list, func head.val.data data)
      else r.last.bind fun ct => (m.node ct).bind fun c =>
        if func c.val.data data ≤ 0 then some (some ct, func c.val.data data)
        else if 0 ≤ func head.val.data data then some (some list, func head.val.data data)
        else head.next.bind fun ct =>
          let sup := r.count - 2
          if sup < 1 then (m.node ct).map fun c => (some ct, func c.val.data data)
          else m.searchLoop func data sup 1 sup 1 ct (func head.val.data data)

/-- `eina_list_search_sorted_list` -/
def searchSortedList (list : Option Addr) : Option (Option Addr) :=
  (m.searchSortedNearList func data list).map fun (lnear, cmp) =>
    match lnear with
    | none => none
    | some lnear => if cmp = 0 then some lnear else none

/-- `eina_list_sorted_insert` -/
def sortedInsert (list : Option Addr) : Option (Mem Data × Option Addr) :=
  match list with
  | none => m.append none data
  | some list => (m.searchSortedNearList func data (some list)).bind fun (lnear, cmp) =>
    if cmp < 0 then m.appendRelativeList (some list) data lnear
    else m.prependRelativeList (some list) data lnear

end Mem

/-! ### Walking between nodes -/

variable {m : Mem Data} {a z y : Addr} {d e data : Option Data}
  {xs l r : List (Addr × Option Data)} {head : Option Addr}
  {func : Option Data → Option Data → Int} {k : Nat}

theorem toward_eq (h : Seg m.node none (cells a xs) none) {i j : Nat} (hi : xs[i]? = some (z, d))
    (hj : xs[j]? = some (y, e)) : m.toward i j z = some (some y) := by
  obtain ⟨hil, -⟩ := List.getElem?_eq_some_iff.mp hi
  obtain ⟨hjl, -⟩ := List.getElem?_eq_some_iff.mp hj
  unfold Mem.toward
  by_cases hlt : i < j
  · rw [if_pos hlt]
    rw [← take_append_drop i xs, cells_append, seg_append] at h
    have hlen : j - i < (xs.drop i).length := by
      rw [length_drop]
      omega
    obtain ⟨l, z', d', r, hcut, hl, hget⟩ := cut_at hlen
    rw [getElem?_drop, show i + (j - i) = j by omega, hj] at hget
    obtain ⟨rfl, rfl⟩ := Prod.mk.inj (some.inj hget)
    have hfirst : first (xs.drop i) none = some z := by
      rw [drop_eq_getElem_cons hil, first_cons]
      rw [getElem?_eq_getElem hil] at hi
      rw [some.inj hi]
    have hwalk := walk_next (hcut ▸ h.2)
    rwa [← hcut, hl, hfirst] at hwalk
  · rw [if_neg hlt]
    rw [← take_append_drop (i + 1) xs, cells_append, seg_append] at h
    have hlen : j < (xs.take (i + 1)).length := by
      rw [length_take]
      omega
    obtain ⟨l, z', d', r, hcut, hl, hget⟩ := cut_at hlen
    rw [getElem?_take_of_lt (by omega), hj] at hget
    obtain ⟨rfl, rfl⟩ := Prod.mk.inj (some.inj hget)
    have hlast : last none (xs.take (i + 1)) = some z := by
      rw [take_add_one, hi, last_append]
      rfl
    have hr : i - j = r.length := by
      have hlength := congrArg length hcut
      rw [length_take, length_append, length_cons] at hlength
      omega
    have hwalk := walk_prev (hcut ▸ h.1)
    rwa [← hcut, ← hr, hlast] at hwalk

/-! ### The place of the data -/

open Compare

/-- If a node is not equal to the data, the ones before it are smaller and the others larger. -/
def Beside (func : Option Data → Option Data → Int) (data : Option Data)
    (l : List (Addr × Option Data)) (d : Option Data) (r : List (Addr × Option Data)) : Prop :=
  func d data ≠ 0 → (∀ x ∈ l, func x.2 data < 0) ∧ ∀ x ∈ r, 0 < func x.2 data

/-- The call ends at a node that is beside the place of the data. -/
def EndsBeside (func : Option Data → Option Data → Int) (data : Option Data)
    (xs : List (Addr × Option Data)) (call : Option (Option Addr × Int)) : Prop :=
  ∃ l z d r, xs = l ++ (z, d) :: r ∧ call = some (some z, func d data) ∧ Beside func data l d r

theorem endsBeside_at {call : Option (Option Addr × Int)} (hk : xs[k]? = some (z, d))
    (hcall : call = some (some z, func d data))
    (hbelow : func d data ≠ 0 → ∀ j x, j < k → xs[j]? = some x → func x.2 data < 0)
    (habove : func d data ≠ 0 → ∀ j x, k < j → xs[j]? = some x → 0 < func x.2 data) :
    EndsBeside func data xs call := by
  obtain ⟨hlen, -⟩ := List.getElem?_eq_some_iff.mp hk
  obtain ⟨l, z', d', r, rfl, rfl, hget⟩ := cut_at hlen
  obtain ⟨rfl, rfl⟩ := Prod.mk.inj (some.inj (hk.symm.trans hget))
  refine ⟨l, z, d, r, rfl, hcall, fun hne => ⟨fun x hx => ?_, fun x hx => ?_⟩⟩
  · obtain ⟨j, hj⟩ := mem_iff_getElem?.mp hx
    obtain ⟨hjl, -⟩ := List.getElem?_eq_some_iff.mp hj
    exact hbelow hne j x hjl (by rw [getElem?_append_left hjl, hj])
  · obtain ⟨j, hj⟩ := mem_iff_getElem?.mp hx
    refine habove hne (l.length + 1 + j) x (by omega) ?_
    rw [getElem?_append_right (by omega), show l.length + 1 + j - l.length = j + 1 by omega,
      getElem?_cons_succ, hj]

theorem sides_at (hfunc : Total func) (hsorted : Sorted func (datas xs))
    (hk : xs[k]? = some (z, d)) (data : Option Data) :
    (func d data < 0 → ∀ j x, j ≤ k → xs[j]? = some x → func x.2 data < 0) ∧
      (0 < func d data → ∀ j x, k ≤ j → xs[j]? = some x → 0 < func x.2 data) := by
  have hget {j : Nat} {x : Addr × Option Data} (hj : xs[j]? = some x) :
      (datas xs)[j]? = some x.2 := by
    rw [datas, getElem?_map, hj, map_some]
  constructor
  · intro hd j x hjk hj
    have hmono : 0 ≤ func x.2 data → 0 ≤ func d data :=
      (answers_mono hfunc hsorted hjk (hget hj) (hget hk)).1
    exact not_le.mp fun hge => absurd hd (not_lt.mpr (hmono hge))
  · intro hd j x hkj hj
    have hmono : func x.2 data ≤ 0 → func d data ≤ 0 :=
      (answers_mono hfunc hsorted hkj (hget hk) (hget hj)).2
    exact not_le.mp fun hle => absurd hd (not_lt.mpr (hmono hle))

theorem node_at (h : Seg m.node none (cells a xs) none) (hk : xs[k]? = some (z, d)) :
    ∃ v w, m.node z = some ⟨v, w, ⟨d, a⟩⟩ := by
  obtain ⟨hlen, -⟩ := List.getElem?_eq_some_iff.mp hk
  obtain ⟨l, z', d', r, rfl, -, hget⟩ := cut_at hlen
  obtain ⟨rfl, rfl⟩ := Prod.mk.inj (some.inj (hk.symm.trans hget))
  rw [cells_append] at h
  exact ⟨_, _, h.get⟩

/-- **The loop** ends beside the place of the data. -/
theorem searchLoop_spec (hfunc : Total func) (hsorted : Sorted func (datas xs))
    (h : Seg m.node none (cells a xs) none) {n inf sup cur : Nat} {ct : Addr} {cmp : Int}
    (hn : sup + 1 - inf ≤ n) (hinf : 1 ≤ inf) (hle : inf ≤ sup + 1) (hsup : sup < xs.length)
    (hcur : xs[cur]? = some (ct, d))
    (hbelow : ∀ j x, j < inf → xs[j]? = some x → func x.2 data < 0)
    (habove : ∀ j x, sup < j → xs[j]? = some x → 0 < func x.2 data)
    (hdone : sup < inf → cmp = func d data ∧ (cur + 1 = inf ∨ cur = inf)) :
    EndsBeside func data xs (m.searchLoop func data n inf sup cur ct cmp) := by
  induction n generalizing inf sup cur ct cmp d with
  | zero =>
    obtain ⟨rfl, hlast⟩ := hdone (by omega)
    rw [Mem.searchLoop, if_neg (by omega)]
    refine endsBeside_at hcur rfl (fun _ j x hj => hbelow j x (by omega)) ?_
    exact fun _ j x hj => habove j x (by omega)
  | succ n ih =>
    rw [Mem.searchLoop]
    by_cases hin : inf ≤ sup
    · rw [if_pos hin]
      dsimp only
      obtain ⟨mid, hmid⟩ : ∃ mid, mid = inf + (sup - inf) / 2 := ⟨_, rfl⟩
      rw [← hmid]
      have hget : xs[mid]? = some xs[mid] := getElem?_eq_getElem (by omega)
      generalize xs[mid] = ye at hget
      obtain ⟨y, e⟩ := ye
      obtain ⟨v, w, hy⟩ := node_at h hget
      obtain ⟨hsmaller, hlarger⟩ := sides_at hfunc hsorted hget data
      rw [toward_eq h hcur hget, bind_some, bind_some, hy, bind_some]
      by_cases hzero : func e data = 0
      · rw [if_pos hzero]
        exact endsBeside_at hget rfl (fun hne => absurd hzero hne) fun hne => absurd hzero hne
      rw [if_neg hzero]
      by_cases hneg : func e data < 0
      · rw [if_pos hneg]
        refine ih (by omega) (by omega) (by omega) hsup hget (fun j x hj => ?_) habove
          fun _ => ⟨rfl, .inl rfl⟩
        exact hsmaller hneg j x (by omega)
      · rw [if_neg hneg, if_pos (by omega)]
        refine ih (by omega) hinf (by omega) (by omega) hget hbelow (fun j x hj => ?_)
          fun hend => ⟨rfl, .inr (by omega)⟩
        exact hlarger (by omega) j x (by omega)
    · obtain ⟨rfl, hlast⟩ := hdone (by omega)
      rw [if_neg hin]
      refine endsBeside_at hcur rfl (fun _ j x hj => hbelow j x (by omega)) ?_
      exact fun _ j x hj => habove j x (by omega)

/-! ### The calls -/

/-- **The search** ends beside the place of the data. -/
theorem searchSortedNearList_spec (hfunc : Total func) (hsorted : Sorted func (datas xs))
    (h : Filled m a xs) (data : Option Data) :
    EndsBeside func data xs (m.searchSortedNearList func data (first xs none)) := by
  obtain ⟨⟨x, d⟩, rest, rfl⟩ := exists_cons_of_ne_nil h.ne
  have hx : m.node x = some ⟨first rest none, none, ⟨d, a⟩⟩ := by
    have hseg := h.seg.1
    rwa [show map _ rest = cells a rest from rfl, first_cells] at hseg
  have hhead : ((x, d) :: rest)[0]? = some (x, d) := rfl
  obtain ⟨hsmaller, hlarger⟩ := sides_at hfunc hsorted hhead data
  rw [first_cons, Mem.searchSortedNearList, hx, bind_some, h.record, bind_some]
  dsimp only
  rw [length_cons]
  by_cases hone : rest.length + 1 = 1
  · obtain rfl : rest = [] := eq_nil_of_length_eq_zero (by omega)
    exact ⟨[], x, d, [], rfl, rfl, fun _ => ⟨by simp, by simp⟩⟩
  rw [if_neg hone]
  -- the last node
  obtain ⟨front, ⟨y, e⟩, hcut⟩ := (eq_nil_or_concat' rest).resolve_left (by
    rintro rfl
    exact hone rfl)
  have hlast : ((x, d) :: rest)[rest.length]? = some (y, e) := by
    rw [hcut, ← cons_append,
      getElem?_append_right (by simp)]
    simp
  obtain ⟨v, w, hy⟩ := node_at h.seg hlast
  obtain ⟨hsmaller', hlarger'⟩ := sides_at hfunc hsorted hlast data
  have hlen (j : Nat) (u : Addr × Option Data) (hj : ((x, d) :: rest)[j]? = some u) :
      j ≤ rest.length := by
    obtain ⟨hjl, -⟩ := List.getElem?_eq_some_iff.mp hj
    rw [length_cons] at hjl
    omega
  have hlast' : last none ((x, d) :: rest) = some y := by
    rw [hcut, last_cons, last_append, last_cons, last_nil]
  rw [hlast', bind_some, hy, bind_some]
  by_cases htail : func e data ≤ 0
  · rw [if_pos htail]
    refine endsBeside_at hlast rfl (fun hne j u hj => hsmaller' (by omega) j u (by omega)) ?_
    exact fun _ j u hj hu => absurd (hlen j u hu) (by omega)
  rw [if_neg htail]
  by_cases hfirst : 0 ≤ func d data
  · rw [if_pos hfirst]
    refine endsBeside_at hhead rfl (fun _ j u hj => absurd hj (by omega)) ?_
    exact fun hne j u hj => hlarger (by omega) j u (by omega)
  rw [if_neg hfirst]
  obtain ⟨⟨s, f⟩, rest', rfl⟩ : ∃ u rest', rest = u :: rest' :=
    exists_cons_of_ne_nil fun hnil => hone (by simp [hnil])
  have hsecond : ((x, d) :: (s, f) :: rest')[1]? = some (s, f) := rfl
  rw [first_cons, bind_some]
  have hbelow (j : Nat) (u : Addr × Option Data) (hj : j < 1)
      (hu : ((x, d) :: (s, f) :: rest')[j]? = some u) : func u.2 data < 0 :=
    hsmaller (by omega) j u (by omega) hu
  rw [length_cons] at hlast hlarger' ⊢
  by_cases htwo : rest'.length + 1 + 1 - 2 < 1
  · rw [if_pos htwo]
    obtain ⟨v', w', hs⟩ := node_at h.seg hsecond
    refine endsBeside_at hsecond (by rw [hs]; rfl) (fun _ => hbelow) fun _ j u hj => ?_
    exact hlarger' (by omega) j u (by omega)
  · rw [if_neg htwo]
    refine searchLoop_spec hfunc hsorted h.seg (by omega) (by omega) (by omega)
      (by simp only [length_cons]; omega) hsecond hbelow (fun j u hj => ?_)
      fun hend => absurd hend htwo
    exact hlarger' (by omega) j u (by omega)

theorem searchSortedList_spec
    (h : EndsBeside func data xs (m.searchSortedNearList func data head)) :
    ∃ found, m.searchSortedList func data head = some found ∧
      ((∃ z, found = some z) ↔ ∃ x ∈ xs, func x.2 data = 0) ∧
      ∀ z, found = some z → ∃ d, (z, d) ∈ xs ∧ func d data = 0 := by
  obtain ⟨l, z, d, r, rfl, hnear, hbeside⟩ := h
  have hcall : m.searchSortedList func data head =
      some (if func d data = 0 then some z else none) := by
    unfold Mem.searchSortedList
    rw [hnear, map_some]
  refine ⟨_, hcall, ?_, ?_⟩
  · by_cases hzero : func d data = 0
    · rw [if_pos hzero]
      exact ⟨fun _ => ⟨(z, d), by simp, hzero⟩, fun _ => ⟨z, rfl⟩⟩
    rw [if_neg hzero]
    obtain ⟨hl, hr⟩ := hbeside hzero
    refine ⟨fun ⟨y, hy⟩ => absurd hy (by simp), fun ⟨x, hx, heq⟩ => ?_⟩
    rcases mem_append.mp hx with hx | hx
    · exact absurd heq (ne_of_lt (hl x hx))
    rcases mem_cons.mp hx with rfl | hx
    · exact absurd heq hzero
    · exact absurd heq (ne_of_gt (hr x hx))
  · intro y hy
    split at hy
    · rename_i hzero
      obtain rfl := some.inj hy
      exact ⟨d, by simp, hzero⟩
    · simp at hy

theorem sortedInsert_spec (hfunc : Total func) (hsorted : Sorted func (datas xs))
    (h : Filled m a xs) (data : Option Data) :
    ∃ l r, datas xs = l ++ r ∧ Sorted func (l ++ data :: r) ∧
      Yields m (nodes xs) (records a xs) (m.sortedInsert func data (first xs none))
        (l ++ data :: r) := by
  obtain ⟨l, z, d, r, rfl, hnear, hbeside⟩ := searchSortedNearList_spec hfunc hsorted h data
  obtain ⟨list, hlist, -⟩ := h.exists_head
  have hcall : m.sortedInsert func data (first (l ++ (z, d) :: r) none) =
      if func d data < 0 then m.appendRelativeList (some list) data (some z)
      else m.prependRelativeList (some list) data (some z) := by
    rw [hlist] at hnear ⊢
    unfold Mem.sortedInsert
    dsimp only
    rw [hnear, bind_some]
  rw [hcall]
  rw [datas_append] at hsorted ⊢
  by_cases hneg : func d data < 0
  · have hyields := appendRelativeList_yields h data
    rw [if_pos hneg, ← hlist]
    refine ⟨datas l ++ [d], datas r, by simp, ?_, by simpa using hyields⟩
    refine Sorted.insert hfunc (by simpa using hsorted) (fun y hy => ?_) fun y hy => ?_
    · rw [getLast?_concat] at hy
      obtain rfl := some.inj hy
      exact le_of_lt hneg
    · obtain ⟨x, hx, rfl⟩ := mem_map.mp (mem_of_head? hy)
      have hlarger := (hbeside (ne_of_lt hneg)).2 x hx
      exact le_of_lt ((hfunc.swap _ _).mpr hlarger)
  · have hyields := prependRelativeList_yields h data
    rw [if_neg hneg, ← hlist]
    refine ⟨datas l, d :: datas r, rfl, ?_, hyields⟩
    refine Sorted.insert hfunc hsorted (fun y hy => ?_) fun y hy => ?_
    · have hmem := mem_of_getLast? hy
      by_cases hzero : func d data = 0
      · have hyd := (sorted_append.mp hsorted).2.2 y hmem d mem_cons_self
        exact hfunc.trans hyd (le_of_eq hzero)
      · obtain ⟨x, hx, rfl⟩ := mem_map.mp hmem
        exact le_of_lt ((hbeside hzero).1 x hx)
    · obtain rfl := some.inj hy
      exact hfunc.le_of_not_lt hneg

/--
**Sorted lists**: the search ends at a node beside the place of the data, the call for an equal node
returns one if there is one, and the insertion keeps the list sorted.
-/
theorem sorted_search_insert (func : Option Data → Option Data → Int) (hfunc : Total func)
    (m : Mem Data) (head : Option Addr) (a : Addr) (xs : List (Addr × Option Data))
    (h : IsList m head a xs) (hsorted : Sorted func (datas xs)) (data : Option Data) :
    (∃ near, m.searchSortedNearList func data head = some near ∧
      ((xs = [] ∧ near = (none, 0)) ∨ ∃ l z d r, xs = l ++ (z, d) :: r ∧
        near = (some z, func d data) ∧ Beside func data l d r)) ∧
    (∃ found, m.searchSortedList func data head = some found ∧
      ((∃ z, found = some z) ↔ ∃ x ∈ xs, func x.2 data = 0) ∧
      ∀ z, found = some z → ∃ d, (z, d) ∈ xs ∧ func d data = 0) ∧
    ∃ l r, datas xs = l ++ r ∧ Sorted func (l ++ data :: r) ∧
      Yields m (nodes xs) (records a xs) (m.sortedInsert func data head) (l ++ data :: r) := by
  have hlist := h
  obtain ⟨rfl, hfill⟩ := h
  by_cases hne : xs = []
  · subst hne
    refine ⟨⟨(none, 0), rfl, .inl ⟨rfl, rfl⟩⟩, ⟨none, rfl, by simp, by simp⟩, [], [], rfl,
      sorted_singleton data, ?_⟩
    exact append_yields hlist data
  · have hends := searchSortedNearList_spec hfunc hsorted (hfill hne) data
    refine ⟨?_, searchSortedList_spec hends, sortedInsert_spec hfunc hsorted (hfill hne) data⟩
    obtain ⟨l, z, d, r, hcut, hnear, hbeside⟩ := hends
    exact ⟨_, hnear, .inr ⟨l, z, d, r, hcut, rfl, hbeside⟩⟩

theorem sorted_search_insert_three :
    (∃ near, (threeNumbers 1 3 5).searchSortedNearList byNumber (some 4) (some 0) = some near ∧
      (([(0, some 1), (1, some 3), (2, some 5)] = [] ∧ near = (none, 0)) ∨ ∃ l z d r,
        [(0, some 1), (1, some 3), (2, some 5)] = l ++ (z, d) :: r ∧
        near = (some z, byNumber d (some 4)) ∧ Beside byNumber (some 4) l d r)) ∧
    (∃ found, (threeNumbers 1 3 5).searchSortedList byNumber (some 4) (some 0) = some found ∧
      ((∃ z, found = some z) ↔
        ∃ x ∈ [(0, some 1), (1, some 3), (2, some 5)], byNumber x.2 (some 4) = 0) ∧
      ∀ z, found = some z → ∃ d, (z, d) ∈ [(0, some 1), (1, some 3), (2, some 5)] ∧
        byNumber d (some 4) = 0) ∧
    ∃ l r, datas [(0, some 1), (1, some 3), (2, some 5)] = l ++ r ∧
      Sorted byNumber (l ++ some 4 :: r) ∧
      Yields (threeNumbers 1 3 5) (nodes [(0, some 1), (1, some 3), (2, some 5)])
        (records 3 [(0, some 1), (1, some 3), (2, some 5)])
        ((threeNumbers 1 3 5).sortedInsert byNumber (some 4) (some 0)) (l ++ some 4 :: r) :=
  sorted_search_insert byNumber byNumber_total (threeNumbers 1 3 5) (some 0) 3 _
    (threeNumbers_isList 1 3 5) (by decide) (some 4)

end Eina.Lists
