/-
Finding a node by its data or by its position.

The loops follow `next`, or `prev` from the end; each is shown to reach the node that the
list of data tells, within the turns it is given.
-/
import Efl.Eina.List.Edit

namespace Eina.Lists

open Chain List

variable {Data : Type} {m : Mem Data} {a : Addr} {xs l r : List (Addr × Option Data)}
  {head p n : Option Addr} {data : Option Data} {d : Option Data} {z : Addr}

/-! ### By data -/

theorem findFrom_eq [DecidableEq Data] (h : Seg m.node p (cells a xs) none) (data : Option Data)
    {fuel : Nat} (hfuel : xs.length ≤ fuel) :
    m.findFrom data fuel (first xs none) =
      some ((xs.find? fun x => x.2 = data).map Prod.fst) := by
  induction xs generalizing p fuel with
  | nil =>
    rw [first_nil, Mem.findFrom]
    rfl
  | cons x xs ih =>
    obtain ⟨hx, hxs⟩ := h
    rw [length_cons] at hfuel
    obtain ⟨fuel, rfl⟩ : ∃ k, fuel = k + 1 := ⟨fuel - 1, by omega⟩
    rw [first_cons]
    refine bind_of_eq hx ?_
    by_cases hd : x.2 = data
    · rw [if_pos hd, find?_cons_of_pos (by simpa using hd)]
      rfl
    rw [if_neg hd, find?_cons_of_neg (by simpa using hd),
      ← ih hxs (Nat.le_of_succ_le_succ hfuel)]
    exact congrArg _ (first_cells none)

theorem dataFindList_eq [DecidableEq Data] (h : IsList m head a xs) (data : Option Data) :
    m.dataFindList head data = some ((xs.find? fun x => x.2 = data).map Prod.fst) := by
  obtain ⟨rfl, hfill⟩ := h
  by_cases hne : xs = []
  · subst hne
    rw [Mem.dataFindList, first_nil, Mem.findFrom]
    rfl
  · have h := hfill hne
    exact findFrom_eq h.seg data h.length_le

theorem find_cut [DecidableEq Data] {x : Addr × Option Data}
    (h : (xs.find? fun x => x.2 = data) = some x) :
    x.2 = data ∧ ∃ l r, xs = l ++ x :: r ∧ data ∉ datas l := by
  obtain ⟨hx, l, r, rfl, hl⟩ := find?_eq_some_iff_append.mp h
  refine ⟨by simpa using hx, l, r, rfl, ?_⟩
  intro hmem
  obtain ⟨y, hy, hyd⟩ := mem_map.mp hmem
  simpa [hyd] using hl y hy

theorem notMem_of_find [DecidableEq Data]
    (h : (xs.find? fun x => x.2 = data) = none) : data ∉ datas xs := by
  intro hmem
  obtain ⟨y, hy, hyd⟩ := mem_map.mp hmem
  simpa [hyd] using find?_eq_none.mp h y hy

/-! ### By position -/

theorem walk_next
    (h : Seg m.node p (cells a (l ++ (z, d) :: r)) n) :
    m.walk Cell.next l.length (first (l ++ (z, d) :: r) n) = some (some z) := by
  induction l generalizing p with
  | nil => rfl
  | cons x l ih =>
    obtain ⟨hx, hl⟩ := h
    rw [length_cons]
    refine bind_of_eq rfl (bind_of_eq hx ?_)
    rw [← ih hl]
    exact congrArg _ (first_cells n)

theorem walk_prev
    (h : Seg m.node p (cells a (l ++ (z, d) :: r)) n) :
    m.walk Cell.prev r.length (last p (l ++ (z, d) :: r)) = some (some z) := by
  induction r using reverseRecOn generalizing n with
  | nil =>
    rw [last_append]
    rfl
  | append_singleton r y ih =>
    have hsplit : l ++ (z, d) :: (r ++ [y]) = (l ++ (z, d) :: r) ++ [y] := by simp
    rw [hsplit, cells_append, seg_append] at h
    obtain ⟨hlr, hy, -⟩ := h
    rw [hsplit, last_append, length_append]
    refine bind_of_eq rfl (bind_of_eq hy ?_)
    rw [last_cells]
    exact ih hlr

theorem cut_at {k : Nat} (hk : k < xs.length) :
    ∃ l z d r, xs = l ++ (z, d) :: r ∧ l.length = k ∧ xs[k]? = some (z, d) := by
  refine ⟨xs.take k, xs[k].1, xs[k].2, xs.drop (k + 1), ?_, ?_, getElem?_eq_getElem hk⟩
  · rw [← drop_eq_getElem_cons, take_append_drop]
  · rw [length_take, min_eq_left hk.le]

theorem nthList_eq (h : IsList m head a xs) (k : Nat) :
    m.nthList head k = some (xs[k]?.map Prod.fst) := by
  obtain ⟨rfl, hfill⟩ := h
  by_cases hne : xs = []
  · subst hne
    rfl
  have h := hfill hne
  obtain ⟨list, hlist, hmem⟩ := h.exists_head
  have hpos : 0 < xs.length := length_pos_iff.mpr hne
  rw [hlist]
  refine bind_of_eq (h.accountingOf hmem) (bind_of_eq h.record ?_)
  by_cases hk : xs.length - 1 < k
  · refine (if_pos hk).trans ?_
    rw [getElem?_eq_none (by omega)]
    rfl
  refine (if_neg hk).trans ?_
  obtain ⟨l, z, d, r, hsplit, hlen, hget⟩ := cut_at (show k < xs.length by omega)
  have hseg := h.seg
  rw [hsplit] at hseg
  rw [hget]
  by_cases hhalf : xs.length / 2 < k
  · refine (if_pos hhalf).trans ?_
    have hwalk := walk_prev hseg
    have hlength : xs.length - 1 - k = r.length := by
      rw [hsplit, length_append, length_cons]
      omega
    rw [← hsplit, ← hlength] at hwalk
    exact hwalk
  · refine (if_neg hhalf).trans ?_
    have hwalk := walk_next hseg
    rw [← hsplit, hlen, hlist] at hwalk
    exact hwalk

end Eina.Lists
