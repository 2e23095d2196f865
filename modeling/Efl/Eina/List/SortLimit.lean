/-
`eina_list_sort`.

The first nodes, as many as the limit says, are cut off from the others, sorted and joined
again with them; the index into the stack of runs stays below its 32 entries.
-/
import Efl.Eina.List.SortLinks
import Efl.Eina.List.SortedMerge

namespace Eina.Lists

open Chain List Option

variable {Data : Type}

/-! ### The code -/

/-- `EINA_LIST_SORT_STACK_SIZE` -/
def sortStackSize : Nat := 32

/-- `func(a->data, b->data)` -/
def compareData (func : Option Data → Option Data → Int) (H : Heap Addr (Val Data)) (a b : Addr) :
    Option Int :=
  (H a).bind fun c => (H b).map fun d => func c.val.data d.val.data

/-- An invalid limit means the whole list. -/
def sortLimit (limit count : Nat) : Nat :=
  if limit = 0 ∨ count < limit then count else limit

namespace Mem

variable (m : Mem Data)

/-- The nodes behind the limit are cut off: the memory and `unsort`. -/
def sortCut (list : Addr) (limit count : Nat) : Option (Mem Data × Option Addr) :=
  if limit = count then some (m, none)
  else (m.nthList (some list) limit).bind fun unsort =>
    match unsort with
    | none => some (m, none)
    | some x => (m.node x).bind fun c => c.prev.bind fun p =>
      (m.setNext p none).map fun m => (m, some x)

/-- What follows the sorting: `unsort` is joined, or the last node of the list is another. -/
def sortJoin (list : Addr) (tail unsort : Option Addr) : Option (Mem Data) :=
  match unsort with
  | some x => tail.bind fun tail => m.link tail x
  | none => (m.accountingOf list).bind fun a => m.setLast a tail

/-- `eina_list_sort` -/
def sort (func : Option Data → Option Data → Int) (list : Option Addr) (limit : Nat) :
    Option (Mem Data × Option Addr) :=
  match list with
  | none => some (m, none)
  | some list =>
    (m.accountingOf list).bind fun a => (m.accounting a).bind fun r =>
      (m.sortCut list (sortLimit limit r.count) r.count).bind fun (m, unsort) =>
        (Links.sortRuns (compareData func) sortStackSize m.next m.node list).bind
          fun (H, list) => (Links.rebuildPrev m.next H none (some list)).bind
            fun (H, tail) => ((m.withNode H).sortJoin list tail unsort).map
              fun m => (m, some list)

end Mem

/-! ### The callback on nodes -/

variable {func : Option Data → Option Data → Int} {m : Mem Data} {a : Addr}
  {xs l r : List (Addr × Option Data)} {head : Option Addr}

/-- The order of the nodes is the one of their data. -/
def nodeOrder (func : Option Data → Option Data → Int) (x y : Addr × Val Data) : Int :=
  func x.2.data y.2.data

theorem compareData_answers (func : Option Data → Option Data → Int) :
    Links.Answers (compareData func) (nodeOrder func) := by
  intro H x y n p v m q w hx hy
  rw [compareData, hx, hy]
  rfl

theorem Total.nodes (hfunc : Compare.Total func) : Compare.Total (nodeOrder func) :=
  ⟨fun x y => hfunc.swap x.2.data y.2.data, fun hxy hyz => hfunc.trans hxy hyz⟩

theorem cells_plain {zs : List (Addr × Val Data)} (h : ∀ z ∈ zs, z.2.accounting = a) :
    cells a (plain zs) = zs := by
  induction zs with
  | nil => rfl
  | cons z zs ih =>
    obtain ⟨x, d, b⟩ := z
    obtain rfl : b = a := h (x, ⟨d, b⟩) mem_cons_self
    exact congrArg _ (ih fun w hw => h w (mem_cons_of_mem _ hw))

theorem sort_cells (hfunc : Compare.Total func) (a : Addr) (l : List (Addr × Option Data)) :
    ∃ ys, Lists.sort (nodeOrder func) (cells a l) = cells a ys ∧ ys.Perm l ∧
      Compare.Sorted func (datas ys) := by
  have hperm := Lists.sort_perm (nodeOrder func) (cells a l)
  have hsorted := Lists.sort_sorted (Total.nodes hfunc) (cells a l)
  have hrecord (z : Addr × Val Data) (hz : z ∈ Lists.sort (nodeOrder func) (cells a l)) :
      z.2.accounting = a := by
    obtain ⟨x, -, rfl⟩ := mem_map.mp (hperm.mem_iff.mp hz)
    rfl
  have hcells := cells_plain hrecord
  refine ⟨_, hcells.symm, ?_, ?_⟩
  · have hplain := hperm.map fun z => (z.1, z.2.data)
    exact hplain.trans (List.Perm.of_eq (plain_cells a l))
  · unfold Compare.Sorted at hsorted ⊢
    rw [datas, pairwise_map, plain, pairwise_map]
    exact hsorted

/-! ### The limit -/

theorem sortCut_eq (h : Filled m a (l ++ r)) (hl : l ≠ []) {x : Addr} (hx : first l none = some x) :
    ∃ H, m.sortCut x l.length (l ++ r).length = some (m.withNode H, first r none) ∧
      Seg H none (cells a l) none ∧ Seg H (last none l) (cells a r) none ∧
      ∀ y, y ∉ keys (l ++ r) → H y = m.node y := by
  have hseg := h.seg
  rw [cells_append, seg_append, last_cells] at hseg
  have hnodup := h.nodup
  rw [keys_append, nodup_append] at hnodup
  cases r with
  | nil =>
    refine ⟨m.node, ?_, hseg.1, hseg.2, fun _ _ => rfl⟩
    rw [Mem.sortCut, if_pos (by simp)]
    rfl
  | cons z r =>
    have hnth := nthList_eq h.isList l.length
    rw [first_append, first_congr hl _, hx, getElem?_append_right (le_rfl),
      Nat.sub_self] at hnth
    have hz := h.get
    obtain ⟨p, hp⟩ := ne_none_iff_exists'.mp fun hnone => hl (last_eq_none.mp hnone).2
    obtain ⟨H, hset, hseg', hsame⟩ := hseg.1.setNextOf (by rw [keys_cells]; exact hnodup.1) none
    rw [last_cells, hp] at hset
    rw [keys_cells] at hsame
    refine ⟨H, ?_, hseg', hseg.2.congr fun y hy => hsame y fun hy' => ?_, fun y hy => ?_⟩
    · rw [Mem.sortCut, if_neg (by simp), hnth, bind_some]
      dsimp only [getElem?_cons_zero, map_some]
      rw [hz, bind_some]
      rw [hp, bind_some, setNext_eq hset]
      rfl
    · rw [keys_cells] at hy
      exact hnodup.2.2 y hy' y hy rfl
    · rw [keys_append, mem_append, not_or] at hy
      exact hsame y hy.1

theorem sortJoin_eq {ys : List (Addr × Option Data)} (h : Filled m a (l ++ r)) (hl : l ≠ [])
    (hys : ys.Perm l) {H : Heap Addr (Val Data)} (hseg : Seg H none (cells a ys) none)
    {p : Option Addr} (hrest : Seg H p (cells a r) none) {y : Addr} (hy : first ys none = some y) :
    ∃ m', (m.withNode H).sortJoin y (last none ys) (first r none) = some m' ∧
      Filled m' a (ys ++ r) ∧ Frame (m.withNode H) m' (nodes (l ++ r)) (records a (l ++ r)) := by
  have hperm : (ys ++ r).Perm (l ++ r) := hys.append_right r
  have hkeys : (keys (ys ++ r)).Perm (keys (l ++ r)) := hperm.map Prod.fst
  have hnodup := hkeys.nodup_iff.mpr h.nodup
  have hne : ys ++ r ≠ [] := by
    intro hnil
    obtain ⟨rfl, -⟩ := append_eq_nil_iff.mp hnil
    simp at hy
  have hbound : ∀ x ∈ keys (ys ++ r), x < m.next := fun x hx =>
    h.bound x (hkeys.mem_iff.mp hx)
  cases r with
  | nil =>
    rw [append_nil] at hne hnodup hbound ⊢
    have hrecord := h.record
    have hlen := hys.length_eq
    rw [append_nil] at hrecord
    refine ⟨withRecord (m.withNode H) a (some ⟨last none ys, ys.length⟩), ?_, ?_, ?_⟩
    · unfold Mem.sortJoin
      rw [first_nil]
      rw [accountingOf_of_seg hseg (first_mem hy), bind_some]
      rw [setLast_eq (m := m.withNode H) hrecord, hlen]
    · exact ⟨hne, hseg, withRecord_self _, hnodup, hbound, h.recordBound⟩
    · refine ⟨fun _ _ _ => rfl, fun b _ hb => withRecord_other _ fun hba => hb ?_, le_rfl⟩
      exact ⟨hba, by simpa using hl⟩
  | cons z r =>
    obtain ⟨H1, H2, hH1, hH2, hd, hz, hsame⟩ :=
      hseg.setEnds' hrest (by rw [← cells_append, keys_cells]; exact hnodup) (last none ys)
        (some z.1)
    rw [last_cells] at hH1
    rw [← cells_append, keys_cells] at hsame
    obtain ⟨t, ht⟩ := ne_none_iff_exists'.mp fun hnone : last none ys = none => by
      obtain rfl := (last_eq_none.mp hnone).2
      simp at hy
    rw [ht] at hH1 hH2
    have hlast : last none (ys ++ z :: r) = last none (l ++ z :: r) := by
      rw [last_append, last_append, last_cons, last_cons]
    have hlink : (m.withNode H).link t z.1 = some (m.withNode H2) :=
      bind_of_eq (setNext_eq hH1) (setPrev_eq hH2)
    refine ⟨m.withNode H2, ?_, ⟨hne, ?_, ?_, hnodup, hbound, h.recordBound⟩, ?_⟩
    · unfold Mem.sortJoin
      rw [first_cons]
      dsimp only
      rw [ht, bind_some, hlink]
    · rw [cells_append, seg_append, last_cells]
      exact ⟨hd, ht ▸ hz⟩
    · rw [hlast, hperm.length_eq]
      exact h.record
    · refine ⟨fun x _ hx => hsame x fun hmem => hx (hkeys.mem_iff.mp hmem), fun _ _ _ => rfl,
        le_rfl⟩

theorem sort_eq (hfunc : Compare.Total func) (h : Filled m a (l ++ r)) (hl : l ≠ [])
    (hcount : (l ++ r).length < 2 ^ sortStackSize) {limit : Nat}
    (hlimit : sortLimit limit (l ++ r).length = l.length) :
    ∃ m' head ys, m.sort func (first l none) limit = some (m', some head) ∧
      first ys none = some head ∧ Filled m' a (ys ++ r) ∧
      Frame m m' (nodes (l ++ r)) (records a (l ++ r)) ∧ ys.Perm l ∧
      Compare.Sorted func (datas ys) := by
  obtain ⟨x, hx⟩ := ne_none_iff_exists'.mp fun hnone => hl (first_eq_none.mp hnone)
  have hxmem : x ∈ keys (l ++ r) := by
    rw [keys_append]
    exact mem_append_left _ (first_mem hx)
  obtain ⟨H1, hcut, hsegl, hsegr, hsame1⟩ := sortCut_eq h hl hx
  have hnodup := h.nodup
  rw [keys_append, nodup_append] at hnodup
  have hlength := h.length_le
  rw [length_append] at hlength hcount
  have hcells : (cells a l).length = l.length := length_map _
  obtain ⟨ys, hsort, hperm, hsorted⟩ := sort_cells hfunc a l
  -- the runs of the first nodes
  have hpath := Links.path_of_seg hsegl
  rw [first_cells, hx] at hpath
  obtain ⟨H2, y, hruns, hpath2, hout2⟩ := Links.sortRuns_spec (compareData_answers func)
    (n := m.next) hpath (by rw [keys_cells]; exact hnodup.1) (by omega)
    (by rw [hcells]; exact lt_of_le_of_lt (Nat.le_add_right _ _) hcount)
  rw [hsort] at hpath2
  rw [keys_cells] at hout2
  have hkeys : (keys ys).Perm (keys l) := hperm.map Prod.fst
  have hcells' : (cells a ys).length = l.length := (length_map _).trans hperm.length_eq
  -- the links back
  obtain ⟨H3, hback, hseg3, hout3⟩ := Links.rebuildPrev_spec none (n := m.next) (by omega) hpath2
    (by rw [keys_cells]; exact hkeys.nodup_iff.mpr hnodup.1)
  rw [keys_cells] at hout3
  rw [last_cells] at hback
  have hy := hpath2.head
  rw [first_cells] at hy
  have hsegr3 : Seg H3 (last none l) (cells a r) none := by
    refine hsegr.congr fun z hz => ?_
    rw [keys_cells] at hz
    have hzl : z ∉ keys l := fun hmem => hnodup.2.2 z hmem z hz rfl
    rw [hout3 z fun hmem => hzl (hkeys.mem_iff.mp hmem), hout2 z hzl]
  obtain ⟨m', hjoin, hfill, hframe⟩ := sortJoin_eq h hl hperm hseg3 hsegr3 hy.symm
  refine ⟨m', y, ys, ?_, hy.symm, hfill, ?_, hperm, hsorted⟩
  · rw [hx]
    unfold Mem.sort
    dsimp only
    rw [h.accountingOf hxmem, bind_some, h.record, bind_some]
    rw [hlimit, hcut, bind_some]
    dsimp only [withNode_node, withNode_next]
    rw [sortStackSize, hruns, bind_some]
    rw [hback, bind_some]
    rw [show (m.withNode H1).withNode H3 = m.withNode H3 from rfl, hjoin, map_some]
  · have hframe3 : Frame m (m.withNode H3) (nodes (l ++ r)) (records a (l ++ r)) := by
      refine ⟨fun z _ hz => ?_, fun _ _ _ => rfl, le_rfl⟩
      have hzlr : z ∉ keys (l ++ r) := hz
      have hzl : z ∉ keys l := fun hmem => hzlr (by simp [hmem])
      rw [withNode_node, hout3 z fun hmem => hzl (hkeys.mem_iff.mp hmem), hout2 z hzl,
        hsame1 z hzlr]
    exact hframe3.trans hframe (fun _ _ hz => hz) fun _ _ hb => hb

/--
**Sorting**: the first nodes of a list, as many as the limit says, are put in order, and the nodes
behind them stay where they are.  All links of the nodes, and what the list knows about its last
node and their number, are right.  Where the stack of runs has no entry left the call would have no
value.
-/
theorem sort_sorts_limit (func : Option Data → Option Data → Int) (hfunc : Compare.Total func)
    (m : Mem Data) (head : Option Addr) (a : Addr) (xs : List (Addr × Option Data))
    (h : IsList m head a xs) (hcount : xs.length < 2 ^ 32) (limit : Nat) :
    ∃ m' head' ys, m.sort func head limit = some (m', head') ∧
      IsList m' head' a (ys ++ xs.drop (sortLimit limit xs.length)) ∧
      Frame m m' (nodes xs) (records a xs) ∧
      ys.Perm (xs.take (sortLimit limit xs.length)) ∧ Compare.Sorted func (datas ys) := by
  obtain ⟨rfl, hfill⟩ := h
  by_cases hne : xs = []
  · subst hne
    refine ⟨m, none, [], rfl, ?_, Frame.refl _ _ _, by simp, Compare.sorted_nil⟩
    rw [drop_nil]
    exact isList_nil m a
  have hpos : 0 < xs.length := length_pos_iff.mpr hne
  have hlimit : sortLimit limit xs.length ≤ xs.length ∧ 0 < sortLimit limit xs.length := by
    unfold sortLimit
    split <;> omega
  have hcut := take_append_drop (sortLimit limit xs.length) xs
  have hlen : (xs.take (sortLimit limit xs.length)).length = sortLimit limit xs.length := by
    rw [length_take]
    omega
  have hl : xs.take (sortLimit limit xs.length) ≠ [] := by
    intro hnil
    rw [hnil, length_nil] at hlen
    omega
  have hfill := hfill hne
  generalize hk : sortLimit limit xs.length = k at hcut hlen hl
  rw [← hcut] at hfill
  rw [← hlen] at hk
  obtain ⟨m', head', ys, hcall, hhead, hfill', hframe, hperm, hsorted⟩ :=
    sort_eq hfunc hfill hl (by rw [hcut]; exact hcount) (by rw [hcut]; exact hk)
  rw [hcut] at hframe
  refine ⟨m', some head', ys, ?_, ⟨?_, fun _ => hfill'⟩, hframe, hperm, hsorted⟩
  · rw [← hcut, first_append, first_congr hl _]
    exact hcall
  · have hys : ys ≠ [] := fun hnil => absurd hhead (by simp [hnil])
    rw [first_append, first_congr hys _, hhead]

theorem sort_sorts_limit_two : ∃ m' head' ys,
    (threeNumbers 3 1 2).sort byNumber (some 0) 2 = some (m', head') ∧
      IsList m' head' 3 (ys ++ [(0, some 3), (1, some 1), (2, some 2)].drop (sortLimit 2 3)) ∧
      Frame (threeNumbers 3 1 2) m' (nodes [(0, some 3), (1, some 1), (2, some 2)])
        (records 3 [(0, some 3), (1, some 1), (2, some 2)]) ∧
      ys.Perm ([(0, some 3), (1, some 1), (2, some 2)].take (sortLimit 2 3)) ∧
      Compare.Sorted byNumber (datas ys) :=
  sort_sorts_limit byNumber byNumber_total (threeNumbers 3 1 2) (some 0) 3 _
    (threeNumbers_isList 3 1 2) (by decide) 2

end Eina.Lists
