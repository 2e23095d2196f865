/-
`eina_list_shuffle`.

A node after the other is taken out of the list, from an end or from the middle, and linked
behind those that were taken before.  Both parts are segments with loose ends: what points
out of the remaining nodes, or from the last taken one onwards, is stale.  The loop knows
where the remaining nodes end only from `list`, `last` and their number, and follows no link
beyond them.
-/
import Efl.Eina.List.Join

namespace Eina.Lists

open Chain List Option

variable {Data : Type}

/-! ### The code -/

namespace Mem

variable (m : Mem Data)

/-- The node that `i` says is taken out: the memory, `list` and `li`. -/
def shuffleTake (a : Addr) (list : Option Addr) (n i : Nat) :
    Option (Mem Data × Option Addr × Addr) :=
  if i = 0 then
    list.bind fun li => (m.node li).map fun c => (m, c.next, li)
  else (m.accounting a).bind fun r =>
    if i = n - 1 ∨ i = n then
      r.last.bind fun li => (m.node li).bind fun c =>
        (m.setLast a c.prev).map fun m => (m, list, li)
    else
      (if n / 2 < i then m.walk Cell.prev (n - 1 - i) r.last else m.walk Cell.next i list).bind
        fun li => li.bind fun li => (m.node li).bind fun c => c.prev.bind fun p =>
          (m.setNext p c.next).bind fun m => (m.node li).bind fun c => c.next.bind fun x =>
            (m.setPrev x c.prev).map fun m => (m, list, li)

/-- It is linked behind the nodes that were taken before: the first and the last of them. -/
def shuffleAppend (shuffled : Option (Addr × Addr)) (li : Addr) :
    Option (Mem Data × Option (Addr × Addr)) :=
  match shuffled with
  | none => (m.setPrev li none).map fun m => (m, some (li, li))
  | some (first, last) => (m.setNext last (some li)).bind fun m =>
    (m.setPrev li (some last)).map fun m => (m, some (first, li))

/--
`while (n > 1)`; `func n` is what the callback answers when `n` nodes are left.  It is asked once
for every number, so it may well remember something from one call to the next.
-/
def shuffleLoop (func : Nat → Nat) (a : Addr) : Nat → Mem Data → Option Addr →
    Option (Addr × Addr) → Option (Mem Data × Option Addr × Option (Addr × Addr))
  | n + 2, m, list, shuffled =>
    (m.shuffleTake a list (n + 2) (func (n + 2))).bind fun (m, list, li) =>
      (m.shuffleAppend shuffled li).bind fun (m, shuffled) =>
        shuffleLoop func a (n + 1) m list shuffled
  | _, m, list, shuffled => some (m, list, shuffled)

/-- `eina_list_shuffle` -/
def shuffle (func : Nat → Nat) (list : Option Addr) : Option (Mem Data × Option Addr) :=
  match list with
  | none => some (m, none)
  | some list =>
    (m.accountingOf list).bind fun a => (m.accounting a).bind fun r =>
      if r.count = 0 then some (m, none)
      else if r.count = 1 then some (m, some list)
      else (shuffleLoop func a r.count m (some list) none).bind fun (m, list, shuffled) =>
        list.bind fun list => shuffled.bind fun (first, last) =>
          (m.setNext list none).bind fun m => (m.setPrev list (some last)).bind fun m =>
            (m.setNext last (some list)).bind fun m => (m.setLast a (some list)).bind fun m =>
              (m.setAccounting first a).map fun m => (m, some first)

end Mem

/-! ### What a turn changes -/

variable {m m' m'' : Mem Data} {a z : Addr} {xs l r rs ss : List (Addr × Option Data)}
  {d : Option Data} {p q : Option Addr} {N : List Addr} {count n i : Nat}

/-- Only nodes in `N` and the record `a` were changed. -/
structure Touches (m m' : Mem Data) (N : List Addr) (a : Addr) : Prop where
  node : ∀ y ∉ N, m'.node y = m.node y
  record : ∀ b ≠ a, m'.accounting b = m.accounting b
  next : m'.next = m.next

theorem Touches.refl (m : Mem Data) (N : List Addr) (a : Addr) : Touches m m N a :=
  ⟨fun _ _ => rfl, fun _ _ => rfl, rfl⟩

theorem Touches.trans (h : Touches m m' N a) (h' : Touches m' m'' N a) : Touches m m'' N a :=
  ⟨fun y hy => (h'.node y hy).trans (h.node y hy),
    fun b hb => (h'.record b hb).trans (h.record b hb), h'.next.trans h.next⟩

theorem Touches.mono {N' : List Addr} (h : Touches m m' N a) (hsub : ∀ y ∈ N, y ∈ N') :
    Touches m m' N' a := ⟨fun y hy => h.node y fun hmem => hy (hsub y hmem), h.record, h.next⟩

theorem touches_withNode {H : Heap Addr (Val Data)} (h : ∀ y ∉ N, H y = m.node y) (a : Addr) :
    Touches m (m.withNode H) N a := ⟨h, fun _ _ => rfl, rfl⟩

theorem touches_withRecord (r : Option Accounting) (N : List Addr) :
    Touches m (withRecord m a r) N a := ⟨fun _ _ => rfl, fun _ hb => withRecord_other r hb, rfl⟩

theorem setNextOf_other {H H' : Heap Addr (Val Data)} {x y : Addr} {v : Option Addr}
    (h : Chain.setNextOf H (some x) v = some H') (hy : y ≠ x) : H' y = H y := by
  obtain ⟨c, -, rfl⟩ := map_eq_some_iff.mp h
  exact Function.update_of_ne hy _ _

/-! ### A node is taken out -/

/-- The links inside of a part of the nodes are right; the two that lead out of it are stale. -/
def Inside (m : Mem Data) (a : Addr) (xs : List (Addr × Option Data)) : Prop :=
  ∃ p q, Seg m.node p (cells a xs) q

/-- The nodes that are left, and what the record knows of them. -/
structure Rest (m : Mem Data) (a count : Nat) (rs : List (Addr × Option Data)) : Prop where
  inside : Inside m a rs
  record : m.accounting a = some ⟨last none rs, count⟩

/-- One of the nodes that are left is taken out. -/
theorem shuffleTake_spec (h : Rest m a count rs) (hnodup : (keys rs).Nodup)
    (hlen : rs.length = n + 2) (hi : i ≤ n + 2) :
    ∃ m' z d l r, rs = l ++ (z, d) :: r ∧
      m.shuffleTake a (first rs none) (n + 2) i = some (m', first (l ++ r) none, z) ∧
      Rest m' a count (l ++ r) ∧ (∃ v w, m'.node z = some ⟨v, w, ⟨d, a⟩⟩) ∧
      Touches m m' (keys rs) a := by
  obtain ⟨⟨p, q, hseg⟩, hrecord⟩ := h
  have hne : rs ≠ [] := by
    rintro rfl
    simp at hlen
  unfold Mem.shuffleTake
  by_cases hzero : i = 0
  · -- the first node
    rw [if_pos hzero]
    match rs, hlen with
    | (z, d) :: r, hlen =>
      have hr : r ≠ [] := by
        rintro rfl
        simp at hlen
      obtain ⟨hz, hrest⟩ := hseg
      refine ⟨m, z, d, [], r, rfl, ?_, ⟨⟨_, _, hrest⟩, ?_⟩, ⟨_, _, hz⟩, Touches.refl _ _ _⟩
      · have hfirst : first (cells a r) q = first r none := by
          rw [first_cells, first_congr hr q]
        rw [first_cons, bind_some, hz]
        exact congrArg (fun v => some (m, v, z)) hfirst
      · rw [hrecord, last_cons, nil_append, last_congr hr _]
  rw [if_neg hzero, hrecord, bind_some]
  by_cases hend : i = n + 2 - 1 ∨ i = n + 2
  · -- the last node
    rw [if_pos hend]
    obtain ⟨l, ⟨z, d⟩, rfl⟩ := (eq_nil_or_concat' rs).resolve_left hne
    have hl : l ≠ [] := by
      rintro rfl
      simp at hlen
    rw [cells_append, seg_append] at hseg
    obtain ⟨hrest, hz, -⟩ := hseg
    have hlast : last p (cells a l) = last none l := by
      rw [last_cells, last_congr hl p]
    refine ⟨withRecord m a (some ⟨last none l, count⟩), z, d, l, [], rfl, ?_,
      ⟨⟨_, _, by rw [append_nil]; exact hrest⟩, ?_⟩, ⟨_, _, hz⟩, touches_withRecord _ _⟩
    · have hset := setLast_eq hrecord (last none l)
      rw [last_append, last_cons, last_nil, bind_some, hz, bind_some]
      rw [hlast, hset, map_some, first_append, append_nil, first_congr hl _]
    · rw [append_nil]
      exact withRecord_self _
  · -- a node with others on both sides
    rw [if_neg hend]
    have hin : i < rs.length := by omega
    obtain ⟨l, z, d, r, rfl, hll, -⟩ := cut_at hin
    have hlr : r.length + i = n + 1 := by
      rw [length_append, length_cons] at hlen
      omega
    have hl : l ≠ [] := by
      rintro rfl
      exact hzero hll.symm
    have hr : r ≠ [] := by
      rintro rfl
      exact hend (.inl (by simpa using hlr))
    obtain ⟨y, hy⟩ := ne_none_iff_exists'.mp fun hnone => hl (last_eq_none.mp hnone).2
    obtain ⟨x, hx⟩ := ne_none_iff_exists'.mp fun hnone => hr (first_eq_none.mp hnone)
    have hwalk : (if (n + 2) / 2 < i then
        m.walk Cell.prev (n + 2 - 1 - i) (last none (l ++ (z, d) :: r))
        else m.walk Cell.next i (first (l ++ (z, d) :: r) none)) = some (some z) := by
      split
      · have hback := walk_prev hseg
        rw [last_append, last_cons] at hback
        rw [last_append, show n + 2 - 1 - i = r.length by omega]
        exact hback
      · have hforward := walk_next hseg
        rw [first_congr (by simp) q, hll] at hforward
        exact hforward
    have hz := hseg
    rw [cells_append, cells_cons] at hz
    have hz := hz.get
    rw [first_cells, last_cells, last_congr hl p, first_congr hr q, hx, hy] at hz
    rw [keys_append, keys_cons] at hnodup
    obtain ⟨hnl, hnr, hapart⟩ := nodup_append.mp hnodup
    obtain ⟨hzr, hnr⟩ := nodup_cons.mp hnr
    have hzl : z ∉ keys l := fun hmem => hapart z hmem z mem_cons_self rfl
    rw [cells_append, cells_cons, seg_append] at hseg
    obtain ⟨hsegl, -, hsegr⟩ := hseg
    have hboth : (keys (cells a l ++ cells a r)).Nodup := by
      rw [← cells_append, keys_cells, keys_append, nodup_append]
      exact ⟨hnl, hnr, fun u hu v hv => hapart u hu v (mem_cons_of_mem _ hv)⟩
    obtain ⟨H1, H2, hH1, hH2, hsegl2, hsegr2, hsame⟩ :=
      hsegl.setEnds' hsegr hboth (some y) (some x)
    rw [last_cells, hy] at hH1
    rw [first_cells, hx] at hH2
    rw [← cells_append, keys_cells, keys_append] at hsame
    have hzy : z ≠ y := by
      rintro rfl
      exact hzl ((last_mem hy).resolve_left (by simp))
    have hz1 : H1 z = some ⟨some x, some y, ⟨d, a⟩⟩ := (setNextOf_other hH1 hzy).trans hz
    have hz2 : H2 z = some ⟨some x, some y, ⟨d, a⟩⟩ := by
      rw [hsame z (by rw [mem_append]; exact fun hmem => hmem.elim hzl hzr)]
      exact hz
    refine ⟨m.withNode H2, z, d, l, r, rfl, ?_, ⟨⟨p, q, ?_⟩, ?_⟩, ⟨_, _, hz2⟩, ?_⟩
    · rw [hwalk, bind_some, bind_some, hz, bind_some]
      rw [bind_some, setNext_eq hH1, bind_some, withNode_node, hz1, bind_some]
      rw [bind_some, setPrev_eq hH2, first_append,
        first_append, first_congr hl _]
      rfl
    · rw [cells_append, seg_append, first_cells, last_cells, first_congr hr q, hx,
        last_congr hl p, hy]
      exact ⟨hsegl2, hsegr2⟩
    · rw [withNode_accounting, hrecord, last_append, last_append, last_cons,
        last_congr hr _]
    · refine touches_withNode (fun u hu => hsame u fun hmem => hu ?_) a
      rw [keys_append]
      rcases mem_append.mp hmem with hmem | hmem
      · exact mem_append_left _ hmem
      · exact mem_append_right _ (mem_cons_of_mem _ hmem)

/-! ### It is linked behind the others -/

/-- `shuffled_list` and `shuffled_last` -/
def ends (ss : List (Addr × Option Data)) : Option (Addr × Addr) :=
  (first ss none).bind fun x => (last none ss).map fun y => (x, y)

/-- The nodes that were taken; what follows the last of them is stale. -/
def Taken (m : Mem Data) (a : Addr) (ss : List (Addr × Option Data)) : Prop :=
  ∃ q, Seg m.node none (cells a ss) q

theorem shuffleAppend_spec (h : Taken m a ss) (hnodup : (keys (ss ++ [(z, d)])).Nodup)
    (hz : m.node z = some ⟨p, q, ⟨d, a⟩⟩) :
    ∃ H, m.shuffleAppend (ends ss) z = some (m.withNode H, ends (ss ++ [(z, d)])) ∧
      Taken (m.withNode H) a (ss ++ [(z, d)]) ∧
      ∀ y, y ∉ keys (ss ++ [(z, d)]) → H y = m.node y := by
  obtain ⟨s, hseg⟩ := h
  have hone : Seg m.node q (cells a [(z, d)]) p := ⟨hz, trivial⟩
  obtain ⟨H1, H2, hH1, hH2, hseg2, hone2, hsame⟩ := hseg.setEnds' hone
    (by rw [← cells_append, keys_cells]; exact hnodup) (last none ss) (some z)
  rw [last_cells] at hH1
  rw [← cells_append, keys_cells] at hsame
  refine ⟨H2, ?_, ⟨p, ?_⟩, hsame⟩
  · unfold Mem.shuffleAppend ends
    rw [last_append, first_append]
    cases hfirst : first ss none with
    | none =>
      obtain rfl := first_eq_none.mp hfirst
      obtain rfl := some.inj hH1
      have hset : m.setPrev z none = some (m.withNode H2) := setPrev_eq hH2
      rw [hset]
      rfl
    | some x =>
      have hne : ss ≠ [] := fun hnil => absurd hfirst (by simp [hnil])
      obtain ⟨y, hy⟩ := ne_none_iff_exists'.mp fun hnone => hne (last_eq_none.mp hnone).2
      rw [hy] at hH1 hH2 ⊢
      rw [first_congr hne _, hfirst, bind_some, map_some]
      dsimp only
      rw [setNext_eq hH1, bind_some, setPrev_eq hH2]
      rfl
  · rw [cells_append, seg_append, last_cells]
    exact ⟨hseg2, hone2⟩

/-! ### The loop -/

theorem shuffleLoop_spec {func : Nat → Nat} (hfunc : ∀ n, 1 < n → func n ≤ n)
    (hlen : rs.length = n + 1) (hrest : Rest m a count rs) (htaken : Taken m a ss)
    (hnodup : (keys (rs ++ ss)).Nodup) :
    ∃ m' x ss', Mem.shuffleLoop func a (n + 1) m (first rs none) (ends ss) =
        some (m', some x.1, ends ss') ∧
      Rest m' a count [x] ∧ Taken m' a ss' ∧ (x :: ss').Perm (rs ++ ss) ∧
      Touches m m' (keys (rs ++ ss)) a := by
  induction n generalizing m rs ss with
  | zero =>
    obtain ⟨x, rfl⟩ := length_eq_one_iff.mp hlen
    exact ⟨m, x, ss, rfl, hrest, htaken, List.Perm.refl _, Touches.refl _ _ _⟩
  | succ n ih =>
    rw [keys_append] at hnodup
    obtain ⟨hnr, hns, hapart⟩ := nodup_append.mp hnodup
    obtain ⟨m1, z, d, l, r, rfl, htake, hrest1, ⟨v, w, hz⟩, htouch1⟩ :=
      shuffleTake_spec hrest hnr hlen (hfunc (n + 2) (by omega))
    have hperm : (l ++ r ++ (ss ++ [(z, d)])).Perm (l ++ (z, d) :: r ++ ss) := by
      have hback : (r ++ (ss ++ [(z, d)])).Perm ((z, d) :: (r ++ ss)) := by
        rw [← append_assoc]
        exact perm_append_singleton _ _
      rw [append_assoc, append_assoc]
      exact hback.append_left l
    have hkeys : (keys (l ++ r ++ (ss ++ [(z, d)]))).Perm (keys (l ++ (z, d) :: r ++ ss)) :=
      hperm.map Prod.fst
    have hnodup1 : (keys (l ++ r ++ (ss ++ [(z, d)]))).Nodup := by
      rw [hkeys.nodup_iff, keys_append]
      exact hnodup
    have htaken1 : Taken m1 a ss := by
      obtain ⟨s, hseg⟩ := htaken
      refine ⟨s, hseg.congr fun y hy => htouch1.node y fun hy' => ?_⟩
      rw [keys_cells] at hy
      exact hapart y hy' y hy rfl
    rw [keys_append] at hnodup1
    obtain ⟨-, hns1, hapart1⟩ := nodup_append.mp hnodup1
    obtain ⟨H, happend, htaken2, hsame⟩ := shuffleAppend_spec htaken1 hns1 hz
    have htouch2 := touches_withNode hsame a
    have hrest2 : Rest (m1.withNode H) a count (l ++ r) := by
      obtain ⟨⟨p, q, hseg⟩, hrecord⟩ := hrest1
      refine ⟨⟨p, q, hseg.congr fun y hy => hsame y fun hy' => ?_⟩, hrecord⟩
      rw [keys_cells] at hy
      exact hapart1 y hy y hy' rfl
    obtain ⟨m', x, ss', hloop, hone, htaken', hperm', htouch'⟩ := ih
      (by simp at hlen ⊢; omega) hrest2 htaken2 (by rw [keys_append]; exact hnodup1)
    refine ⟨m', x, ss', ?_, hone, htaken', hperm'.trans hperm, (htouch1.mono ?_).trans
      ((htouch2.mono ?_).trans (htouch'.mono ?_))⟩
    · rw [Mem.shuffleLoop, htake, bind_some]
      dsimp only
      rw [happend]
      exact hloop
    · intro y hy
      rw [keys_append]
      exact mem_append_left _ hy
    · intro y hy
      refine hkeys.mem_iff.mp ?_
      rw [keys_append]
      exact mem_append_right _ hy
    · intro y hy
      exact hkeys.mem_iff.mp hy

theorem shuffle_close {x : Addr × Option Data} (hrest : Rest m a count [x]) (htaken : Taken m a ss)
    (hss : ss ≠ []) (hnodup : (keys (ss ++ [x])).Nodup) :
    ∃ f t m', ends ss = some (f, t) ∧
      ((m.setNext x.1 none).bind fun m => (m.setPrev x.1 (some t)).bind fun m =>
        (m.setNext t (some x.1)).bind fun m => (m.setLast a (some x.1)).bind fun m =>
          (m.setAccounting f a).map fun m => (m, some f)) = some (m', first (ss ++ [x]) none) ∧
      Seg m'.node none (cells a (ss ++ [x])) none ∧
      m'.accounting a = some ⟨last none (ss ++ [x]), count⟩ ∧
      Touches m m' (keys (ss ++ [x])) a := by
  obtain ⟨⟨p, q, hone⟩, hrecord⟩ := hrest
  obtain ⟨s, hseg⟩ := htaken
  obtain ⟨f, hf⟩ := ne_none_iff_exists'.mp fun hnone => hss (first_eq_none.mp hnone)
  obtain ⟨t, ht⟩ := ne_none_iff_exists'.mp fun hnone => hss (last_eq_none.mp hnone).2
  have hnodup' := hnodup
  rw [keys_append] at hnodup'
  obtain ⟨-, -, hapart⟩ := nodup_append.mp hnodup'
  obtain ⟨H1, hH1, hone1, hsame1⟩ := hone.setNextOf (by simp) none
  have hseg1 : Seg H1 none (cells a ss) s := by
    refine hseg.congr fun y hy => hsame1 y fun hy' => ?_
    rw [keys_cells] at hy hy'
    exact hapart y hy y hy' rfl
  obtain ⟨H2, H3, hH2, hH3, hseg3, hone3, hsame3⟩ := hseg1.setEnds hone1
    (by rw [← cells_append, keys_cells]; exact hnodup) (some t) (some x.1)
  rw [last_cells, ht] at hH3
  rw [← cells_append, keys_cells] at hsame3
  have hjoin : Seg H3 none (cells a (ss ++ [x])) none := by
    rw [cells_append, seg_append, last_cells, ht]
    exact ⟨hseg3, hone3⟩
  obtain ⟨⟨f', d⟩, rest, rfl⟩ := exists_cons_of_ne_nil hss
  obtain rfl : f' = f := some.inj hf
  have hcell : H3 f' = some ⟨first (cells a rest) (some x.1), none, ⟨d, a⟩⟩ := hseg3.1
  have hself :
      Function.update H3 f' (some ⟨first (cells a rest) (some x.1), none, ⟨d, a⟩⟩) = H3 := by
    rw [← hcell]
    exact Function.update_eq_self _ _
  have hlast := setLast_eq (m := m.withNode H3) hrecord (some x.1)
  refine ⟨f', t, withRecord (m.withNode H3) a (some ⟨some x.1, count⟩), ?_, ?_, hjoin, ?_, ?_⟩
  · rw [ends, ht]
    rfl
  · rw [setNext_eq hH1, bind_some, setPrev_eq hH2, bind_some]
    rw [setNext_eq (m := (m.withNode H1).withNode H2) hH3, bind_some]
    rw [show ((m.withNode H1).withNode H2).withNode H3 = m.withNode H3 from rfl, hlast,
      bind_some, setAccounting_eq (by exact hcell)]
    dsimp only [withRecord_node, withNode_node]
    rw [hself]
    rfl
  · rw [withRecord_self, last_append]
    rfl
  · refine ⟨fun y hy => (hsame3 y hy).trans (hsame1 y fun hy' => hy ?_),
      fun b hb => withRecord_other _ hb, rfl⟩
    rw [keys_append]
    exact mem_append_right _ hy'

/--
**Shuffling**: whatever the callback answers, as long as it is at most the number of nodes that are
left, the result is a well-formed list of the same nodes.
-/
theorem shuffle_permutes (func : Nat → Nat) (hfunc : ∀ n, 1 < n → func n ≤ n) (m : Mem Data)
    (head : Option Addr) (a : Addr) (xs : List (Addr × Option Data)) (h : IsList m head a xs) :
    ∃ m' head' ys, m.shuffle func head = some (m', head') ∧ IsList m' head' a ys ∧ ys.Perm xs ∧
      Frame m m' (nodes xs) (records a xs) := by
  obtain ⟨rfl, hfill⟩ := h
  by_cases hne : xs = []
  · subst hne
    exact ⟨m, none, [], rfl, isList_nil m a, List.Perm.refl _, Frame.refl _ _ _⟩
  have h := hfill hne
  obtain ⟨x, hx, hmem⟩ := h.exists_head
  have hpos : 0 < xs.length := length_pos_iff.mpr hne
  by_cases hone : xs.length = 1
  · refine ⟨m, some x, xs, ?_, hx ▸ h.isList, List.Perm.refl _, Frame.refl _ _ _⟩
    unfold Mem.shuffle
    rw [hx]
    dsimp only
    rw [h.accountingOf hmem, bind_some, h.record, bind_some]
    dsimp only
    rw [if_neg (by omega), if_pos hone]
  obtain ⟨n, hn⟩ : ∃ n, xs.length = n + 1 := ⟨xs.length - 1, by omega⟩
  have htaken : Taken m a ([] : List (Addr × Option Data)) := ⟨none, trivial⟩
  obtain ⟨m1, y, ss, hloop, hrest, htaken, hperm, htouch1⟩ := shuffleLoop_spec hfunc hn
    ⟨⟨_, _, h.seg⟩, h.record⟩ htaken (by rw [append_nil]; exact h.nodup)
  rw [append_nil] at hperm htouch1
  have hss : ss ≠ [] := by
    rintro rfl
    exact hone hperm.length_eq.symm
  have hperm' : (ss ++ [y]).Perm xs := (perm_append_singleton y ss).trans hperm
  have hkeys : (keys (ss ++ [y])).Perm (keys xs) := hperm'.map Prod.fst
  have hnodup := hkeys.nodup_iff.mpr h.nodup
  obtain ⟨f, t, m', hends, hclose, hseg, hrecord, htouch2⟩ :=
    shuffle_close hrest htaken hss hnodup
  have hnext : m'.next = m.next := htouch2.next.trans htouch1.next
  refine ⟨m', first (ss ++ [y]) none, ss ++ [y], ?_, ⟨rfl, fun _ => ⟨by simp, hseg, ?_, hnodup, ?_,
    ?_⟩⟩, hperm', ⟨?_, ?_, hnext.ge⟩⟩
  · unfold Mem.shuffle
    rw [hx] at hloop ⊢
    dsimp only
    rw [h.accountingOf hmem, bind_some, h.record, bind_some]
    dsimp only
    have hloop' : Mem.shuffleLoop func a (n + 1) m (some x) none = some (m1, some y.1, ends ss) :=
      hloop
    rw [if_neg hone, hn, hloop']
    rw [hends]
    exact hclose
  · rw [hrecord, hperm'.length_eq]
  · intro z hz
    rw [hnext]
    exact h.bound z (hkeys.mem_iff.mp hz)
  · rw [hnext]
    exact h.recordBound
  · intro z _ hz
    have hzxs : z ∉ keys xs := hz
    rw [htouch2.node z fun hz' => hzxs (hkeys.mem_iff.mp hz'), htouch1.node z hzxs]
  · intro b _ hb
    have hba : b ≠ a := fun hba => hb ⟨hba, hne⟩
    rw [htouch2.record b hba, htouch1.record b hba]

theorem shuffle_permutes_last : ∃ m' head' ys,
    (threeNumbers 3 1 2).shuffle (fun n => n - 1) (some 0) = some (m', head') ∧
      IsList m' head' 3 ys ∧
      ys.Perm [(0, some 3), (1, some 1), (2, some 2)] ∧
      Frame (threeNumbers 3 1 2) m' (nodes [(0, some 3), (1, some 1), (2, some 2)])
        (records 3 [(0, some 3), (1, some 1), (2, some 2)]) :=
  shuffle_permutes (fun n => n - 1) (fun n _ => Nat.sub_le n 1) (threeNumbers 3 1 2) (some 0)
    3 _ (threeNumbers_isList 3 1 2)

end Eina.Lists
