/-
Adding a node to a list, taking one out and moving one to an end.

Each of these cuts the list at a node and sets the ends of the two parts, so the proofs
follow one scheme: the parts keep their inner links (`Seg.setEnds`), and the record is
changed to fit.
-/
import Efl.Eina.List.Rep

namespace Eina.Lists

open Chain List Option Function

variable {Data : Type} {m m' : Mem Data} {a : Addr} {xs l r : List (Addr × Option Data)}
  {head : Option Addr}

theorem keys_middle (z : Addr) (d : Option Data) :
    (keys (l ++ (z, d) :: r)).Perm (z :: keys (l ++ r)) := by
  rw [keys_append, keys_append]
  exact perm_middle

variable {z : Addr} {d : Option Data}

theorem notMem_middle {y : Addr} :
    y ∉ keys (l ++ (z, d) :: r) ↔ y ≠ z ∧ y ∉ keys (l ++ r) := by
  rw [(keys_middle z d).mem_iff, mem_cons, not_or]

/-! ### Adding -/

/-- The cell of a new node between `l` and `r`. -/
def newCell (a : Addr) (l r : List (Addr × Option Data)) (d : Option Data) :
    Cell Addr (Val Data) :=
  ⟨first r none, last none l, ⟨d, a⟩⟩

theorem Filled.cut (h : Filled m a (l ++ r)) (c : Cell Addr (Val Data)) :
    Seg (m.listNew c).node none (cells a l) (first r none) ∧
      Seg (m.listNew c).node (last none l) (cells a r) none ∧
      (keys (cells a l ++ cells a r)).Nodup ∧ m.next ∉ keys (cells a l ++ cells a r) := by
  have hseg : Seg (m.listNew c).node none (cells a (l ++ r)) none := by
    refine seg_listNew h.seg ?_
    intro x hx
    rw [keys_cells] at hx
    exact h.bound x hx
  rw [cells_append, seg_append, first_cells, last_cells] at hseg
  rw [← cells_append, keys_cells]
  exact ⟨hseg.1, hseg.2, h.nodup, fun hmem => lt_irrefl _ (h.bound _ hmem)⟩

/-- The memory in which the new node is linked and counted. -/
def inserted (m : Mem Data) (H : Heap Addr (Val Data)) (a : Addr)
    (l r : List (Addr × Option Data)) : Mem Data :=
  ⟨H, update m.accounting a (some ⟨last (some m.next) r, (l ++ r).length + 1⟩), m.next + 1⟩

variable {H : Heap Addr (Val Data)}

theorem Filled.inserted (h : Filled m a (l ++ r)) (hl : Seg H none (cells a l) (some m.next))
    (hr : Seg H (some m.next) (cells a r) none)
    (hsame : ∀ y, y ∉ keys (cells a l ++ cells a r) → H y = (m.listNew (newCell a l r d)).node y) :
    Filled (inserted m H a l r) a (l ++ (m.next, d) :: r) ∧
      Change m (inserted m H a l r) (nodes (l ++ r)) (records a (l ++ r)) a
        (l ++ (m.next, d) :: r) := by
  rw [← cells_append, keys_cells] at hsame
  have hfresh : m.next ∉ keys (l ++ r) := fun hmem => lt_irrefl _ (h.bound _ hmem)
  have hperm : (keys (l ++ (m.next, d) :: r)).Perm (m.next :: keys (l ++ r)) := keys_middle _ d
  refine ⟨⟨by simp, ?_, ?_, ?_, ?_, ?_⟩, ⟨⟨?_, ?_, ?_⟩, ?_, ?_⟩⟩
  · rw [cells_append, cells_cons, seg_append]
    refine ⟨hl, ?_, hr⟩
    rw [first_cells, last_cells]
    exact (hsame m.next hfresh).trans (update_self _ _ _)
  · refine (update_self _ _ _).trans ?_
    rw [last_append, last_cons, length_append, length_append, length_cons,
      Nat.add_assoc]
  · rw [hperm.nodup_iff, nodup_cons]
    exact ⟨hfresh, h.nodup⟩
  · intro x hmem
    rw [hperm.mem_iff, mem_cons] at hmem
    rcases hmem with rfl | hmem
    · exact Nat.lt_succ_self _
    · exact Nat.lt_succ_of_lt (h.bound x hmem)
  · exact Nat.lt_succ_of_lt h.recordBound
  · intro x hlt hmem
    rw [show (Lists.inserted m H a l r).node x = H x from rfl, hsame x hmem]
    exact update_of_ne (ne_of_lt hlt) _ _
  · intro b _ hmem
    refine update_of_ne ?_ _ _
    rintro rfl
    exact hmem ⟨rfl, h.ne⟩
  · exact Nat.le_succ _
  · intro x hmem
    have hmem' : x ∈ keys (l ++ (m.next, d) :: r) := hmem
    rw [hperm.mem_iff, mem_cons] at hmem'
    rcases hmem' with rfl | hmem'
    · exact .inr (le_rfl)
    · exact .inl hmem'
  · rintro b ⟨rfl, -⟩
    exact .inl ⟨rfl, h.ne⟩

theorem setup_change (data : Option Data) (a : Addr) :
    IsList (m.setupAccounting data).1 (m.setupAccounting data).2 (m.next + 1) [(m.next, data)] ∧
      Change m (m.setupAccounting data).1 (nodes ([] : List (Addr × Option Data)))
        (records a ([] : List (Addr × Option Data))) (m.next + 1) [(m.next, data)] := by
  refine ⟨⟨rfl, fun _ => ?_⟩, ⟨⟨?_, ?_, ?_⟩, ?_, ?_⟩⟩
  · refine ⟨by simp, ⟨?_, trivial⟩, ?_, by simp, ?_, Nat.lt_succ_self _⟩
    · exact update_self _ _ _
    · exact update_self _ _ _
    · intro x hx
      rw [keys_cons, keys_nil, mem_singleton] at hx
      rw [hx]
      exact Nat.lt_succ_of_lt (Nat.lt_succ_self _)
  · intro x hlt _
    exact update_of_ne (ne_of_lt hlt) _ _
  · intro b hlt _
    exact update_of_ne (ne_of_lt (Nat.lt_succ_of_lt hlt)) _ _
  · exact (Nat.le_succ _).trans (Nat.le_succ _)
  · intro x hx
    have hmem : x ∈ keys [(m.next, data)] := hx
    rw [keys_cons, keys_nil, mem_singleton] at hmem
    exact .inr (le_of_eq hmem.symm)
  · rintro b ⟨rfl, -⟩
    exact .inr (Nat.le_succ _)

theorem append_spec (h : IsList m head a xs) (data : Option Data) :
    ∃ m' head' a', m.append head data = some (m', head') ∧
      IsList m' head' a' (xs ++ [(m.next, data)]) ∧
      Change m m' (nodes xs) (records a xs) a' (xs ++ [(m.next, data)]) := by
  obtain ⟨rfl, hfill⟩ := h
  by_cases hne : xs = []
  · subst hne
    obtain ⟨hlist, hchange⟩ := setup_change data a
    exact ⟨_, _, _, rfl, hlist, hchange⟩
  have h := hfill hne
  obtain ⟨list, hlist, hmem⟩ := h.exists_head
  obtain ⟨l, hl, -⟩ := h.exists_last
  have h' : Filled m a (xs ++ []) := by
    rw [append_nil]
    exact h
  obtain ⟨hseg, -, hnodup, -⟩ := h'.cut (newCell a xs [] data)
  obtain ⟨H, hH, hsegH, hframe⟩ := hseg.setNextOf (by simpa using hnodup) (some m.next)
  rw [last_cells, hl] at hH
  have hins := h'.inserted hsegH trivial (by simpa using hframe)
  rw [append_nil] at hins
  refine ⟨_, _, a, ?_, hins.1.isList, hins.2⟩
  rw [hlist]
  refine bind_of_eq (h.accountingOf hmem) ?_
  refine bind_of_eq h.record ?_
  refine bind_of_eq (setLast_eq (by exact h.record) _) ?_
  refine bind_of_eq hl ?_
  refine bind_of_eq (setNext_eq (by exact hH)) ?_
  refine bind_of_eq (countUp_eq (by exact withRecord_self _)) ?_
  rw [first_append, first_congr h.ne _, hlist]
  simp [withRecord, Lists.inserted]

theorem append_yields (h : IsList m head a xs) (data : Option Data) :
    Yields m (nodes xs) (records a xs) (m.append head data) (datas xs ++ [data]) := by
  obtain ⟨m', head', a', hrun, hlist, hchange⟩ := append_spec h data
  exact ⟨m', head', a', _, hrun, hlist, hchange, datas_append⟩

theorem prepend_yields (h : IsList m head a xs) (data : Option Data) :
    Yields m (nodes xs) (records a xs) (m.prepend head data) (data :: datas xs) := by
  obtain ⟨rfl, hfill⟩ := h
  by_cases hne : xs = []
  · subst hne
    obtain ⟨hlist, hchange⟩ := setup_change data a
    exact ⟨_, _, _, _, rfl, hlist, hchange, rfl⟩
  have h := hfill hne
  obtain ⟨list, hlist, hmem⟩ := h.exists_head
  have h' : Filled m a ([] ++ xs) := h
  obtain ⟨-, hseg, hnodup, -⟩ := h'.cut (newCell a [] xs data)
  obtain ⟨H, hH, hsegH, hframe⟩ := hseg.setPrevOf hnodup (some m.next)
  rw [first_cells] at hH
  have hins := h'.inserted trivial hsegH hframe
  refine ⟨_, _, a, (m.next, data) :: xs, ?_, hins.1.isList, hins.2, rfl⟩
  rw [hlist]
  refine bind_of_eq (h.accountingOf hmem) ?_
  refine bind_of_eq (setPrev_eq (by rw [newCell, hlist] at hH; exact hH)) ?_
  refine bind_of_eq (countUp_eq (by exact h.record)) ?_
  rw [last_congr h.ne none]
  rfl

theorem appendRelativeList_yields (h : Filled m a (l ++ (z, d) :: r)) (data : Option Data) :
    Yields m (nodes (l ++ (z, d) :: r)) (records a (l ++ (z, d) :: r))
      (m.appendRelativeList (first (l ++ (z, d) :: r) none) data (some z))
      (datas l ++ d :: data :: datas r) := by
  obtain ⟨list, hlist, hmem⟩ := h.exists_head
  have h' : Filled m a ((l ++ [(z, d)]) ++ r) := by
    rw [append_assoc]
    exact h
  obtain ⟨hl, hr, hnodup, -⟩ := h'.cut (newCell a (l ++ [(z, d)]) r data)
  obtain ⟨H1, H2, hH1, hH2, hl2, hr2, hframe⟩ := hl.setEnds hr hnodup (some m.next) (some m.next)
  rw [first_cells] at hH1
  rw [last_cells, last_append] at hH2
  have hins := h'.inserted hl2 hr2 hframe
  rw [append_assoc, append_assoc] at hins
  refine ⟨_, _, a, l ++ (z, d) :: (m.next, data) :: r, ?_, hins.1.isList, hins.2, by simp⟩
  rw [hlist]
  refine bind_of_eq (h.accountingOf hmem) ?_
  refine bind_of_eq h.get ?_
  refine bind_of_eq (setPrevOf_eq (by rw [newCell, last_append] at hH1; exact hH1)) ?_
  refine bind_of_eq (setNext_eq (by exact hH2)) ?_
  refine bind_of_eq (countUp_eq (by exact h.record)) ?_
  have hhead : first (l ++ (z, d) :: (m.next, data) :: r) none = some list := by
    rw [← hlist]
    cases l <;> rfl
  simp only [singleton_append, hhead]
  by_cases hnil : first r none = none
  · refine bind_of_eq ((if_pos hnil).trans (setLast_eq (by exact withRecord_self _) _)) ?_
    obtain rfl := first_eq_none.mp hnil
    simp [withRecord, Lists.inserted]
  · refine bind_of_eq (if_neg hnil) ?_
    have hlast : last none (l ++ (z, d) :: r) = last (some m.next) r := by
      rw [last_append, last_cons]
      exact last_congr (fun hr => hnil (by rw [hr]; rfl)) _ _
    rw [hlast]
    simp [withRecord, Lists.inserted]

theorem prependRelativeList_yields (h : Filled m a (l ++ (z, d) :: r)) (data : Option Data) :
    Yields m (nodes (l ++ (z, d) :: r)) (records a (l ++ (z, d) :: r))
      (m.prependRelativeList (first (l ++ (z, d) :: r) none) data (some z))
      (datas l ++ data :: d :: datas r) := by
  obtain ⟨list, hlist, hmem⟩ := h.exists_head
  obtain ⟨hl, hr, hnodup, -⟩ := h.cut (newCell a l ((z, d) :: r) data)
  obtain ⟨H1, H2, hH1, hH2, hl2, hr2, hframe⟩ := hl.setEnds' hr hnodup (some m.next) (some m.next)
  rw [last_cells] at hH1
  have hins := h.inserted hl2 hr2 hframe
  refine ⟨_, _, a, l ++ (m.next, data) :: (z, d) :: r, ?_, hins.1.isList, hins.2, by simp⟩
  rw [hlist]
  refine bind_of_eq (h.accountingOf hmem) ?_
  refine bind_of_eq h.get ?_
  refine bind_of_eq (setNextOf_eq (by exact hH1)) ?_
  refine bind_of_eq (setPrev_eq (by exact hH2)) ?_
  refine bind_of_eq (countUp_eq (by exact h.record)) ?_
  have hhead : first (l ++ (m.next, data) :: (z, d) :: r) none =
      if last none l = none then some m.next else some list := by
    by_cases hnil : l = []
    · subst hnil
      rfl
    rw [if_neg (fun hnone => hnil (last_eq_none.mp hnone).2), ← hlist, first_append,
      first_append]
    exact first_congr hnil _ _
  rw [hhead]
  simp [withRecord, Lists.inserted]

/-! ### Removing -/

theorem Filled.parts (h : Filled m a (l ++ (z, d) :: r)) :
    Seg m.node none (cells a l) (some z) ∧ Seg m.node (some z) (cells a r) none ∧
      (keys (l ++ r)).Nodup ∧ z ∉ keys (l ++ r) := by
  have hseg := h.seg
  rw [cells_append, seg_append] at hseg
  have hnodup := h.nodup
  rw [(keys_middle z d).nodup_iff, nodup_cons] at hnodup
  exact ⟨hseg.1, hseg.2.2, hnodup.2, hnodup.1⟩

theorem last_eq_iff (hz : z ∉ keys (l ++ r)) :
    last none (l ++ (z, d) :: r) = some z ↔ r = [] := by
  rw [last_append, last_cons]
  constructor
  · intro hlast
    by_contra hne
    rw [last_congr hne _ none] at hlast
    have hmem := (last_mem hlast).resolve_left (by simp)
    exact hz (by rw [keys_append]; exact mem_append_right _ hmem)
  · rintro rfl
    rfl

/-- The memory after a node was unlinked and given back. -/
def removed (m : Mem Data) (H : Heap Addr (Val Data)) (a z : Addr)
    (l r : List (Addr × Option Data)) : Mem Data :=
  ⟨update H z none, update m.accounting a
    (if l ++ r = [] then none else some ⟨last none (l ++ r), (l ++ r).length⟩), m.next⟩

theorem Filled.removed (h : Filled m a (l ++ (z, d) :: r))
    (hl : Seg H none (cells a l) (first r none)) (hr : Seg H (last none l) (cells a r) none)
    (hsame : ∀ y, y ∉ keys (l ++ r) → H y = m.node y) :
    IsList (removed m H a z l r) (first (l ++ r) none) a (l ++ r) ∧
      Change m (removed m H a z l r) (nodes (l ++ (z, d) :: r)) (records a (l ++ (z, d) :: r)) a
        (l ++ r) := by
  obtain ⟨-, -, hnodup, hz⟩ := h.parts
  have hsub : ∀ x ∈ keys (l ++ r), x ∈ keys (l ++ (z, d) :: r) :=
    fun x hx => (keys_middle z d).mem_iff.mpr (mem_cons_of_mem _ hx)
  have hseg : Seg H none (cells a (l ++ r)) none := by
    rw [cells_append, seg_append, first_cells, last_cells]
    exact ⟨hl, hr⟩
  refine ⟨⟨rfl, fun hne => ⟨hne, ?_, ?_, hnodup, ?_, h.recordBound⟩⟩, ⟨⟨?_, ?_, ?_⟩, ?_, ?_⟩⟩
  · refine hseg.congr ?_
    intro x hx
    rw [keys_cells] at hx
    refine update_of_ne ?_ _ _
    rintro rfl
    exact hz hx
  · refine (update_self _ _ _).trans ?_
    rw [if_neg hne]
  · intro x hx
    exact h.bound x (hsub x hx)
  · intro x _ hx
    obtain ⟨hxz, hx'⟩ := notMem_middle.mp (show x ∉ keys (l ++ (z, d) :: r) from hx)
    exact (update_of_ne hxz _ _).trans (hsame x hx')
  · intro b _ hb
    refine update_of_ne ?_ _ _
    rintro rfl
    exact hb ⟨rfl, h.ne⟩
  · exact le_rfl
  · intro x hx
    exact .inl (hsub x hx)
  · rintro b ⟨rfl, -⟩
    exact .inl ⟨rfl, h.ne⟩

theorem listFree_eq {n : Addr} {p : Option Addr} {c : Cell Addr (Val Data)} (hz : m.node z = some c)
    (hrecord : m.accounting c.val.accounting = some ⟨p, n + 1⟩) :
    m.listFree z = some ⟨update m.node z none, update m.accounting
      c.val.accounting (if n = 0 then none else some ⟨p, n⟩), m.next⟩ := by
  have ha : m.accountingOf z = some c.val.accounting := by rw [Mem.accountingOf, hz, map_some]
  refine bind_of_eq ha ?_
  refine bind_of_eq hrecord ?_
  refine bind_of_eq (setCount_eq hrecord _) ?_
  by_cases hn : n = 0
  · refine bind_of_eq ((if_pos (by simpa using hn)).trans
      (accountingFree_eq (by exact withRecord_self _))) ?_
    simp [withRecord, hn]
  · simp [withRecord, hn]

theorem removeList_yields (h : Filled m a (l ++ (z, d) :: r)) :
    Yields m (nodes (l ++ (z, d) :: r)) (records a (l ++ (z, d) :: r))
      (m.removeList (first (l ++ (z, d) :: r) none) (some z)) (datas l ++ datas r) := by
  obtain ⟨list, hlist, hmem⟩ := h.exists_head
  obtain ⟨hl, hr, hnodup, hz⟩ := h.parts
  obtain ⟨H1, H2, hH1, hH2, hl2, hr2, hframe⟩ :=
    hl.setEnds hr (by rw [← cells_append, keys_cells]; exact hnodup) (last none l) (first r none)
  rw [first_cells] at hH1
  rw [last_cells] at hH2
  rw [← cells_append, keys_cells] at hframe
  have hrem := h.removed hl2 hr2 hframe
  have hzH : H2 z = some ⟨first r none, last none l, ⟨d, a⟩⟩ := by rw [hframe z hz, h.get]
  refine ⟨_, _, a, l ++ r, ?_, hrem.1, hrem.2, datas_append⟩
  rw [hlist]
  refine bind_of_eq h.get ?_
  refine bind_of_eq (setPrevOf_eq (by exact hH1)) ?_
  refine bind_of_eq (setNextOf_eq (by exact hH2)) ?_
  refine bind_of_eq h.record ?_
  have hhead : first (l ++ r) none = if last none l = none then first r none else some list := by
    by_cases hnil : l = []
    · subst hnil
      rfl
    rw [if_neg (fun hnone => hnil (last_eq_none.mp hnone).2), ← hlist, first_append,
      first_append]
    exact first_congr hnil _ _
  have hcount : (l ++ (z, d) :: r).length = (l ++ r).length + 1 := by
    rw [length_append, length_append, length_cons, Nat.add_assoc]
  have hrecord : m.accounting a = some ⟨last none (l ++ (z, d) :: r), (l ++ r).length + 1⟩ := by
    rw [h.record, hcount]
  have hzero : (l ++ r).length = 0 ↔ l ++ r = [] := length_eq_zero_iff
  rw [hhead]
  by_cases hnil : r = []
  · have hacc : ((m.withNode H1).withNode H2).accountingOf list = some a := by
      rw [hnil, keys_append, keys_cons, mem_append, mem_cons] at hmem
      rcases hmem with hmem | rfl | hmem
      · exact accountingOf_of_seg hl2 hmem
      · rw [Mem.accountingOf, withNode_node, hzH, map_some]
      · simp at hmem
    refine bind_of_eq ((if_pos ((last_eq_iff hz).mpr hnil)).trans
      (bind_of_eq hacc (setLast_eq (by exact hrecord) _))) ?_
    refine bind_of_eq (listFree_eq hzH (by exact withRecord_self _)) ?_
    subst hnil
    simp [withRecord, Lists.removed]
  · refine bind_of_eq (if_neg (fun hlast => hnil ((last_eq_iff hz).mp hlast))) ?_
    refine bind_of_eq (listFree_eq hzH (by exact hrecord)) ?_
    have hlast : last none (l ++ (z, d) :: r) = last none (l ++ r) := by
      rw [last_append, last_append]
      exact last_congr hnil _ _
    rw [hlast]
    simp only [hzero]
    rfl

/-! ### Moving a node to an end -/

/-- The memory with the nodes linked in another order. -/
def rearranged (m : Mem Data) (H : Heap Addr (Val Data)) (a : Addr)
    (ys : List (Addr × Option Data)) : Mem Data :=
  ⟨H, update m.accounting a (some ⟨last none ys, ys.length⟩), m.next⟩

theorem Filled.rearranged (h : Filled m a xs) (ys : List (Addr × Option Data))
    (hperm : (keys ys).Perm (keys xs)) (hseg : Seg H none (cells a ys) none)
    (hsame : ∀ y ∉ keys xs, H y = m.node y) :
    Filled (rearranged m H a ys) a ys ∧ Change m (rearranged m H a ys) (nodes xs)
      (records a xs) a ys := by
  have hne : ys ≠ [] := by
    rintro rfl
    refine h.ne ?_
    have hnil := hperm.length_eq
    rw [length_keys, length_keys] at hnil
    exact length_eq_zero_iff.mp hnil.symm
  refine ⟨⟨hne, hseg, update_self _ _ _, hperm.nodup_iff.mpr h.nodup, ?_,
    h.recordBound⟩, ⟨⟨?_, ?_, ?_⟩, ?_, ?_⟩⟩
  · intro x hx
    exact h.bound x (hperm.mem_iff.mp hx)
  · intro x _ hx
    exact hsame x hx
  · intro b _ hb
    refine update_of_ne ?_ _ _
    rintro rfl
    exact hb ⟨rfl, h.ne⟩
  · exact le_rfl
  · intro x hx
    exact .inl (hperm.mem_iff.mp hx)
  · rintro b ⟨rfl, -⟩
    exact .inl ⟨rfl, h.ne⟩

theorem Filled.unlinked (h : Filled m a (l ++ (z, d) :: r)) :
    ∃ H1 H2, setNextOf m.node (last none l) (first r none) = some H1 ∧
      setPrevOf H1 (first r none) (last none l) = some H2 ∧
      Seg H1 none (cells a l) (first r none) ∧
      Seg H2 none (cells a (l ++ r)) none ∧
      Seg H2 (last none l) (cells a [(z, d)]) (first r none) ∧
      ∀ y, y ∉ keys (l ++ r) → H2 y = m.node y := by
  obtain ⟨hl, hr, hnodup, hz⟩ := h.parts
  have hnodup' : (keys (cells a l ++ cells a r)).Nodup := by
    rw [← cells_append, keys_cells]
    exact hnodup
  obtain ⟨H1, H2, hH1, hH2, hl2, hr2, hframe⟩ :=
    hl.setEnds' hr hnodup' (last none l) (first r none)
  rw [← cells_append, keys_cells] at hframe
  rw [first_cells] at hH2
  rw [last_cells] at hH1
  have hl1 : Seg H1 none (cells a l) (first r none) := by
    obtain ⟨H1', hH1', hl1, -⟩ := hl.setNextOf (hnodup'.sublist (by simp)) (first r none)
    rw [last_cells, hH1] at hH1'
    obtain rfl := some.inj hH1'
    exact hl1
  refine ⟨H1, H2, hH1, hH2, hl1, ?_, ⟨?_, trivial⟩, hframe⟩
  · rw [cells_append, seg_append, first_cells, last_cells]
    exact ⟨hl2, hr2⟩
  · exact (hframe z hz).trans h.get

theorem promoteUnlink_eq {list : Addr} (h : Filled m a (l ++ (z, d) :: r)) (hlist : list ∈ keys l)
    {H1 H2 : Heap Addr (Val Data)} (hH1 : setNextOf m.node (last none l) (first r none) = some H1)
    (hH2 : setPrevOf H1 (first r none) (last none l) = some H2)
    (hl1 : Seg H1 none (cells a l) (first r none)) :
    m.promoteUnlink list z ⟨first r none, last none l, ⟨d, a⟩⟩ = some ⟨H2, update
      m.accounting a (some ⟨last none (l ++ r), (l ++ (z, d) :: r).length⟩), m.next⟩ := by
  obtain ⟨-, -, -, hz⟩ := h.parts
  have hlast : ∃ p, last none l = some p := by
    refine ne_none_iff_exists'.mp ?_
    intro hnone
    rw [(last_eq_none.mp hnone).2] at hlist
    simp at hlist
  obtain ⟨p, hp⟩ := hlast
  rw [hp] at hH1 hH2
  rw [hp]
  refine bind_of_eq (setNext_eq hH1) ?_
  refine bind_of_eq (accountingOf_of_seg hl1 hlist) ?_
  refine bind_of_eq h.record ?_
  by_cases hnil : r = []
  · refine (if_pos ((last_eq_iff hz).mpr hnil)).trans ?_
    subst hnil
    rw [setLast_eq (by exact h.record), append_nil, hp]
    obtain rfl := some.inj hH2
    rfl
  · refine (if_neg (fun hlast => hnil ((last_eq_iff hz).mp hlast))).trans ?_
    obtain ⟨⟨y, e⟩, r', rfl⟩ := exists_cons_of_ne_nil hnil
    refine bind_of_eq rfl ?_
    rw [setPrev_eq hH2]
    have hsame : last none (l ++ (y, e) :: r') = last none (l ++ (z, d) :: (y, e) :: r') := by
      rw [last_append, last_append]
      rfl
    rw [hsame, ← h.record, update_eq_self]
    rfl

theorem promoteList_yields (h : Filled m a (l ++ (z, d) :: r)) :
    Yields m (nodes (l ++ (z, d) :: r)) (records a (l ++ (z, d) :: r))
      (m.promoteList (first (l ++ (z, d) :: r) none) (some z)) (d :: (datas l ++ datas r)) := by
  by_cases hl : l = []
  · subst hl
    refine ⟨m, some z, a, _, ?_, h.isList, Change.refl _ _ _, rfl⟩
    exact if_pos rfl
  obtain ⟨⟨list, e⟩, l', rfl⟩ := exists_cons_of_ne_nil hl
  obtain ⟨-, -, hnodup, hz⟩ := h.parts
  obtain ⟨H1, H2, hH1, hH2, hl1, hlr, hzs, hframe⟩ := h.unlinked
  have hzlist : z ≠ list := by
    rintro rfl
    exact hz (by simp)
  have hnext : first r none ≠ some list := by
    intro hfirst
    have hmem := first_mem hfirst
    rw [keys_append, nodup_append] at hnodup
    exact hnodup.2.2 list (by simp) list hmem rfl
  -- the node taken out is linked in front of the rest
  obtain ⟨H3, hH3, hzs3, hf3⟩ := hzs.setNextOf (by simp) (some list)
  obtain ⟨H4, hH4, hzs4, hf4⟩ := hzs3.setPrevOf (by simp) none
  have hne : ∀ y ≠ z, y ∉ keys (cells a [(z, d)]) := by
    simp
  have hsame : ∀ y ≠ z, H4 y = H2 y := by
    intro y hy
    rw [hf4 y (hne y hy), hf3 y (hne y hy)]
  have hlr4 : Seg H4 none (cells a (((list, e) :: l') ++ r)) none := by
    refine hlr.congr ?_
    intro y hy
    rw [keys_cells] at hy
    exact hsame y (fun hyz => hz (hyz ▸ hy))
  obtain ⟨H5, hH5, hlr5, hf5⟩ := hlr4.setPrevOf (by rw [keys_cells]; exact hnodup) (some z)
  rw [keys_cells] at hf5
  have hins := h.rearranged ((z, d) :: (((list, e) :: l') ++ r)) ?_ ⟨?_, hlr5⟩ ?_
  · refine ⟨_, _, a, _, ?_, hins.1.isList, hins.2, by simp⟩
    refine (if_neg hzlist).trans ?_
    refine bind_of_eq h.get ?_
    refine (if_neg hnext).trans ?_
    refine bind_of_eq (promoteUnlink_eq h (by simp) hH1 hH2 hl1) ?_
    refine bind_of_eq (setNext_eq (by exact hH3)) ?_
    have hlist3 : H3 list = some ⟨first l' (first r none), none, ⟨e, a⟩⟩ := by
      rw [hf3 list (hne list hzlist.symm)]
      have hhead : H2 list = some ⟨first (cells a (l' ++ r)) none, none, ⟨e, a⟩⟩ := hlr.1
      rw [hhead, first_cells, first_append]
    refine bind_of_eq hlist3 ?_
    refine bind_of_eq (setPrev_eq (by exact hH4)) ?_
    refine bind_of_eq (setPrev_eq (by exact hH5)) ?_
    have hlast : last (some list) (l' ++ r) = last none ((z, d) :: (((list, e) :: l') ++ r)) := rfl
    have hcount : (((list, e) :: l') ++ (z, d) :: r).length =
        ((z, d) :: (((list, e) :: l') ++ r)).length := by
      simp only [length_append, length_cons]
      omega
    rw [Lists.rearranged, ← hcount]
    rfl
  · exact (keys_middle z d).symm
  · rw [hf5 z hz]
    exact hzs4.1
  · intro y hy
    obtain ⟨hyz, hylr⟩ := notMem_middle.mp hy
    rw [hf5 y hylr, hsame y hyz, hframe y hylr]

theorem demoteList_yields (h : Filled m a (l ++ (z, d) :: r)) :
    Yields m (nodes (l ++ (z, d) :: r)) (records a (l ++ (z, d) :: r))
      (m.demoteList (first (l ++ (z, d) :: r) none) (some z)) (datas l ++ datas r ++ [d]) := by
  obtain ⟨list, hlist, hmem⟩ := h.exists_head
  obtain ⟨-, -, hnodup, hz⟩ := h.parts
  rw [hlist]
  by_cases hnil : r = []
  · subst hnil
    refine ⟨m, some list, a, _, ?_, ⟨hlist.symm, fun _ => h⟩, Change.refl _ _ _, by simp⟩
    refine bind_of_eq (h.accountingOf hmem) ?_
    refine bind_of_eq h.record ?_
    exact if_pos ((last_eq_iff hz).mpr rfl)
  obtain ⟨H1, H2, hH1, hH2, -, hlr, hzs, hframe⟩ := h.unlinked
  obtain ⟨⟨y, e⟩, r', rfl⟩ := exists_cons_of_ne_nil hnil
  have hlast : last none (l ++ (z, d) :: (y, e) :: r') = last none (l ++ (y, e) :: r') := by
    rw [last_append, last_append]
    rfl
  obtain ⟨t, ht⟩ := ne_none_iff_exists'.mp
    (show last none (l ++ (y, e) :: r') ≠ none from fun hnone =>
      absurd (last_eq_none.mp hnone).2 (by simp))
  -- the node taken out is linked behind the rest
  obtain ⟨H3, hH3, hzs3, hf3⟩ := hzs.setPrevOf (by simp) (some t)
  have hne : ∀ x ≠ z, x ∉ keys (cells a [(z, d)]) := by
    simp
  have hlr3 : Seg H3 none (cells a (l ++ (y, e) :: r')) none := by
    refine hlr.congr ?_
    intro x hx
    rw [keys_cells] at hx
    exact hf3 x (hne x (fun hxz => hz (hxz ▸ hx)))
  obtain ⟨H4, hH4, hlr4, hf4⟩ := hlr3.setNextOf (by rw [keys_cells]; exact hnodup) (some z)
  rw [last_cells, ht] at hH4
  rw [keys_cells] at hf4
  have hzs4 : Seg H4 (some t) (cells a [(z, d)]) (first ((y, e) :: r') none) := by
    refine hzs3.congr ?_
    intro x hx
    obtain rfl : x = z := by simpa using hx
    exact hf4 x hz
  obtain ⟨H5, hH5, hzs5, hf5⟩ := hzs4.setNextOf (by simp) none
  have hlr5 : Seg H5 none (cells a (l ++ (y, e) :: r')) (some z) := by
    refine hlr4.congr ?_
    intro x hx
    rw [keys_cells] at hx
    exact hf5 x (hne x (fun hxz => hz (hxz ▸ hx)))
  have hseg : Seg H5 none (cells a ((l ++ (y, e) :: r') ++ [(z, d)])) none := by
    rw [cells_append, seg_append, last_cells, ht]
    exact ⟨hlr5, hzs5⟩
  have hins := h.rearranged ((l ++ (y, e) :: r') ++ [(z, d)]) ?_ hseg ?_
  · have hhead : (if list = z then some y else some list) = first (l ++ (y, e) :: r') none := by
      cases l with
      | nil =>
        obtain rfl := some.inj hlist
        exact if_pos rfl
      | cons x l' =>
        obtain rfl := some.inj hlist
        refine if_neg ?_
        intro hxz
        exact hz (by rw [← hxz]; simp)
    obtain ⟨list', hlist'⟩ := ne_none_iff_exists'.mp
      (show first (l ++ (y, e) :: r') none ≠ none from fun hnone =>
        absurd (first_eq_none.mp hnone) (by simp))
    refine ⟨_, _, a, _, ?_, hins.1.isList, hins.2, by simp⟩
    refine bind_of_eq (h.accountingOf hmem) ?_
    refine bind_of_eq h.record ?_
    refine (if_neg (fun heq => hnil ((last_eq_iff hz).mp heq))).trans ?_
    refine bind_of_eq h.get ?_
    refine bind_of_eq (hhead.trans hlist') ?_
    refine bind_of_eq (setNextOf_eq hH1) ?_
    refine bind_of_eq rfl ?_
    refine bind_of_eq (setPrev_eq (by exact hH2)) ?_
    refine bind_of_eq (accountingOf_of_seg (by exact hlr) (first_mem hlist')) ?_
    refine bind_of_eq h.record ?_
    rw [hlast, ht]
    refine bind_of_eq (setPrev_eq (by exact hH3)) ?_
    refine bind_of_eq rfl ?_
    refine bind_of_eq (setNext_eq (by exact hH4)) ?_
    refine bind_of_eq (setNext_eq (by exact hH5)) ?_
    refine bind_of_eq (setLast_eq (by exact h.record) _) ?_
    have hfirst : first ((l ++ (y, e) :: r') ++ [(z, d)]) none = some list' := by
      rw [first_append, first_congr (by simp) _, hlist']
    have hcount : (l ++ (z, d) :: (y, e) :: r').length =
        ((l ++ (y, e) :: r') ++ [(z, d)]).length := by
      simp only [length_append, length_cons, length_nil]
      omega
    have hlast' : last none ((l ++ (y, e) :: r') ++ [(z, d)]) = some z := by
      rw [last_append]
      rfl
    rw [hfirst, Lists.rearranged, ← hcount, hlast']
    rfl
  · rw [keys_append]
    exact (perm_append_singleton _ _).trans (keys_middle z d).symm
  · intro x hx
    obtain ⟨hxz, hxlr⟩ := notMem_middle.mp hx
    rw [hf5 x (hne x hxz), hf4 x hxlr, hf3 x (hne x hxz), hframe x hxlr]

end Eina.Lists
