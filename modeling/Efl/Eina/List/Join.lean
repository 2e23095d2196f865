/-
Operations that go over whole lists.

Each loop has a lemma that says what it makes of a segment; `fuel` is enough when it is
at least the length of the segment.  Joining and cutting change the record that nodes
point to, which `cells` makes visible: the loops turn `cells a xs` into `cells b xs`.
-/
import Efl.Eina.List.Search

namespace Eina.Lists

open Chain List Option Function

variable {Data : Type} {m m' : Mem Data} {a b : Addr} {xs ys l r : List (Addr × Option Data)}
  {head p n : Option Addr} {fuel : Nat} {zs : List (Addr × Option Data)} {c : Cell Addr (Val Data)}
  {x : Addr}

/-! ### Reversing -/

theorem first_of_keys (h : keys xs = keys ys) (n : Option Addr) : first xs n = first ys n := by
  cases xs with
  | nil =>
    cases ys with
    | nil => rfl
    | cons y ys => simp at h
  | cons x xs =>
    cases ys with
    | nil => simp at h
    | cons y ys => exact congrArg some (cons.inj h).1

theorem last_of_keys (h : keys xs = keys ys) (p : Option Addr) : last p xs = last p ys := by
  induction xs generalizing ys p with
  | nil =>
    cases ys with
    | nil => rfl
    | cons y ys => simp at h
  | cons x xs ih =>
    cases ys with
    | nil => simp at h
    | cons y ys =>
      obtain ⟨hxy, hrest⟩ := cons.inj h
      rw [last_cons, hxy]
      exact ih hrest _

/-- The same nodes with the data in the other order. -/
def exchange (xs : List (Addr × Option Data)) : List (Addr × Option Data) :=
  (keys xs).zip (datas xs).reverse

@[simp] theorem keys_exchange (xs : List (Addr × Option Data)) : keys (exchange xs) = keys xs := by
  exact map_fst_zip (by simp)

@[simp] theorem datas_exchange (xs : List (Addr × Option Data)) :
    datas (exchange xs) = (datas xs).reverse := by
  exact map_snd_zip (by simp)

theorem exchange_ends (x y : Addr × Option Data) (zs : List (Addr × Option Data)) :
    exchange (x :: (zs ++ [y])) = (x.1, y.2) :: (exchange zs ++ [(y.1, x.2)]) := by
  have hlength : (keys zs).length = (datas zs).reverse.length := by simp
  simp [exchange, zip_append hlength]

theorem setData_eq (h : m.node x = some c)
    (v : Option Data) : m.setData x v =
      some (m.withNode (update m.node x (some ⟨c.next, c.prev, ⟨v, c.val.accounting⟩⟩))) := by
  rw [Mem.setData, modify_eq h, map_some]

/-- The data are exchanged from both ends. -/
theorem reverseLoop_eq {l1 l2 : Addr} (h : Seg m.node p (cells a xs) n)
    (hnodup : (keys xs).Nodup) (h1 : first xs none = some l1) (h2 : last none xs = some l2)
    (hfuel : xs.length ≤ fuel + 1) :
    ∃ H, m.reverseLoop fuel l1 l2 = some (m.withNode H) ∧ Seg H p (cells a (exchange xs)) n ∧
      ∀ y ∉ keys xs, H y = m.node y := by
  induction xs using bidirectionalRec generalizing m p n l1 l2 fuel with
  | nil => simp at h1
  | singleton x =>
    obtain rfl := some.inj h1
    obtain rfl := some.inj h2
    refine ⟨m.node, ?_, h, fun _ _ => rfl⟩
    cases fuel with
    | zero => exact if_pos rfl
    | succ fuel => exact if_pos rfl
  | cons_append x zs y ih =>
    obtain rfl := some.inj h1
    rw [last_cons, last_append] at h2
    obtain rfl := some.inj h2
    rw [length_cons, length_append, length_singleton] at hfuel
    obtain ⟨fuel, rfl⟩ : ∃ k, fuel = k + 1 := ⟨fuel - 1, by omega⟩
    rw [cells_cons, cells_append, cells_cons, seg_cons, first_append, seg_append] at h
    obtain ⟨hx, hzs, hy, -⟩ := h
    simp only [first_cells, last_cells, first_cons, first_nil] at hx hzs hy
    simp only [keys_cons, keys_append, keys_nil, nodup_cons, nodup_append,
      mem_append, mem_singleton, not_or] at hnodup
    obtain ⟨⟨hxzs, hxy⟩, hnzs, -, hzsy⟩ := hnodup
    have hyzs : y.1 ∉ keys zs := fun hmem => hzsy y.1 hmem y.1 rfl rfl
    -- the memory after the two writes
    obtain ⟨H1, hH1⟩ : ∃ H, H = update m.node x.1
      (some ⟨first zs (some y.1), p, ⟨y.2, a⟩⟩) := ⟨_, rfl⟩
    obtain ⟨H2, hH2⟩ : ∃ H, H = update H1 y.1
      (some ⟨n, last (some x.1) zs, ⟨x.2, a⟩⟩) := ⟨_, rfl⟩
    have hy1 : H1 y.1 = some ⟨n, last (some x.1) zs, ⟨y.2, a⟩⟩ := by
      rw [hH1, update_of_ne (symm hxy), hy]
    have hx2 : H2 x.1 = some ⟨first zs (some y.1), p, ⟨y.2, a⟩⟩ := by
      rw [hH2, update_of_ne hxy, hH1, update_self]
    have hy2 : H2 y.1 = some ⟨n, last (some x.1) zs, ⟨x.2, a⟩⟩ := by
      rw [hH2, update_self]
    have hsame2 : ∀ z ≠ x.1, z ≠ y.1 → H2 z = m.node z := by
      intro z hzx hzy
      rw [hH2, update_of_ne hzy, hH1, update_of_ne hzx]
    have hzs2 : Seg H2 (some x.1) (cells a zs) (some y.1) := by
      refine hzs.congr ?_
      intro z hz
      rw [keys_cells] at hz
      exact hsame2 z (fun heq => hxzs (heq ▸ hz)) (fun heq => hyzs (heq ▸ hz))
    have hrun : m.reverseLoop (fuel + 1) x.1 y.1 =
        (first zs (some y.1)).bind fun l1 => if l1 = y.1 then some (m.withNode H2)
          else (last (some x.1) zs).bind fun l2 => (m.withNode H2).reverseLoop fuel l1 l2 := by
      rw [Mem.reverseLoop, if_neg hxy]
      refine bind_of_eq hx (bind_of_eq hy ?_)
      refine bind_of_eq (setData_eq hx _) ?_
      rw [← hH1]
      refine bind_of_eq (setData_eq (by exact hy1) _) ?_
      rw [withNode_node, ← hH2]
      rfl
    -- the inner part is reversed by the rest of the loop
    have hinner : ∃ H, m.reverseLoop (fuel + 1) x.1 y.1 = some (m.withNode H) ∧
        Seg H (some x.1) (cells a (exchange zs)) (some y.1) ∧
        ∀ z ∉ keys zs, H z = H2 z := by
      by_cases hnil : zs = []
      · subst hnil
        refine ⟨H2, ?_, trivial, fun _ _ => rfl⟩
        rw [hrun]
        exact if_pos rfl
      obtain ⟨f, hf⟩ := ne_none_iff_exists'.mp
        (show first zs none ≠ none from fun hnone => hnil (first_eq_none.mp hnone))
      obtain ⟨t, ht⟩ := ne_none_iff_exists'.mp
        (show last none zs ≠ none from fun hnone => hnil (last_eq_none.mp hnone).2)
      obtain ⟨H, hloop, hseg, hsame⟩ := ih (m := m.withNode H2) hzs2 hnzs hf ht
        (show zs.length ≤ fuel + 1 by omega)
      refine ⟨H, ?_, hseg, hsame⟩
      rw [hrun, first_congr hnil _, hf, last_congr hnil _, ht, bind_some,
        if_neg (fun heq : f = y.1 => hyzs (heq ▸ first_mem hf)), bind_some, hloop]
      rfl
    obtain ⟨H, hloop, hseg, hsame⟩ := hinner
    refine ⟨H, hloop, ?_, ?_⟩
    · rw [exchange_ends, cells_cons, cells_append, seg_cons, seg_append, first_append, first_cells,
        last_cells, first_of_keys (keys_exchange zs), last_of_keys (keys_exchange zs)]
      refine ⟨?_, hseg, ?_, trivial⟩
      · rw [hsame x.1 hxzs]
        exact hx2
      · rw [hsame y.1 hyzs]
        exact hy2
    · intro z hz
      simp only [keys_cons, keys_append, keys_nil, mem_cons, mem_append,
        not_mem_nil, or_false, not_or] at hz
      rw [hsame z hz.2.1, hsame2 z hz.1 hz.2.2]

theorem reverse_yields (h : IsList m head a xs) :
    Yields m (nodes xs) (records a xs) (m.reverse head) (datas xs).reverse := by
  obtain ⟨rfl, hfill⟩ := h
  by_cases hne : xs = []
  · subst hne
    exact yields_self (isList_nil m a)
  have h := hfill hne
  obtain ⟨list, hlist, hmem⟩ := h.exists_head
  obtain ⟨t, ht, -⟩ := h.exists_last
  obtain ⟨H, hloop, hseg, hsame⟩ := reverseLoop_eq h.seg h.nodup hlist ht
    (show xs.length ≤ m.next + 1 from Nat.le_succ_of_le h.length_le)
  have hins := h.rearranged (exchange xs) (by rw [keys_exchange]) hseg hsame
  refine ⟨_, _, a, _, ?_, hins.1.isList, hins.2, datas_exchange xs⟩
  rw [hlist]
  refine bind_of_eq (h.accountingOf hmem) (bind_of_eq h.record (bind_of_eq ht ?_))
  refine bind_of_eq hloop ?_
  have hcount : (exchange xs).length = xs.length := by
    rw [← length_keys, keys_exchange, length_keys]
  rw [first_of_keys (keys_exchange xs), hlist, Lists.rearranged, last_of_keys (keys_exchange xs),
    hcount, ← h.record, update_eq_self]
  rfl

/-! ### Joining -/

theorem setAccounting_eq (h : m.node x = some c) (b : Addr) :
    m.setAccounting x b =
      some (m.withNode (update m.node x (some ⟨c.next, c.prev, ⟨c.val.data, b⟩⟩))) := by
  rw [Mem.setAccounting, modify_eq h, map_some]

theorem rehome_next (h : Seg m.node p (cells a xs) none) (hnodup : (keys xs).Nodup)
    (hfuel : xs.length ≤ fuel) (b : Addr) :
    ∃ H, m.rehome Cell.next b fuel (first xs none) = some (m.withNode H) ∧
      Seg H p (cells b xs) none ∧ ∀ y ∉ keys xs, H y = m.node y := by
  induction xs generalizing m p fuel with
  | nil =>
    refine ⟨m.node, ?_, trivial, fun _ _ => rfl⟩
    rw [first_nil, Mem.rehome]
    rfl
  | cons x xs ih =>
    rw [cells_cons, seg_cons, first_cells] at h
    obtain ⟨hx, hxs⟩ := h
    rw [keys_cons, nodup_cons] at hnodup
    rw [length_cons] at hfuel
    obtain ⟨fuel, rfl⟩ : ∃ k, fuel = k + 1 := ⟨fuel - 1, by omega⟩
    obtain ⟨H1, hH1⟩ : ∃ H, H = update m.node x.1
      (some ⟨first xs none, p, ⟨x.2, b⟩⟩) := ⟨_, rfl⟩
    have hxs1 : Seg H1 (some x.1) (cells a xs) none := by
      refine hxs.congr ?_
      intro y hy
      rw [keys_cells] at hy
      have hyx : y ≠ x.1 := by
        rintro rfl
        exact hnodup.1 hy
      rw [hH1, update_of_ne hyx]
    obtain ⟨H, hrun, hseg, hsame⟩ := ih (m := m.withNode H1) hxs1 hnodup.2
      (Nat.le_of_succ_le_succ hfuel)
    refine ⟨H, ?_, ⟨?_, hseg⟩, ?_⟩
    · refine bind_of_eq hx (bind_of_eq (setAccounting_eq hx b) ?_)
      rw [← hH1]
      exact hrun
    · rw [hsame x.1 hnodup.1, withNode_node, hH1, update_self,
        show map _ xs = cells b xs from rfl, first_cells]
    · intro y hy
      rw [keys_cons, mem_cons, not_or] at hy
      rw [hsame y hy.2, withNode_node, hH1, update_of_ne hy.1]

theorem rehome_prev (h : Seg m.node none (cells a xs) n) (hnodup : (keys xs).Nodup)
    (hfuel : xs.length ≤ fuel) (b : Addr) :
    ∃ H, m.rehome Cell.prev b fuel (last none xs) = some (m.withNode H) ∧
      Seg H none (cells b xs) n ∧ ∀ y ∉ keys xs, H y = m.node y := by
  induction xs using reverseRecOn generalizing m n fuel with
  | nil =>
    refine ⟨m.node, ?_, trivial, fun _ _ => rfl⟩
    rw [last_nil, Mem.rehome]
    rfl
  | append_singleton xs x ih =>
    rw [cells_append, cells_cons, cells_nil, seg_append, seg_cons, last_cells, first_nil] at h
    obtain ⟨hxs, hx, -⟩ := h
    rw [keys_append, nodup_append] at hnodup
    have hxxs : x.1 ∉ keys xs := fun hmem => hnodup.2.2 x.1 hmem x.1 (by simp) rfl
    rw [length_append, length_singleton] at hfuel
    obtain ⟨fuel, rfl⟩ : ∃ k, fuel = k + 1 := ⟨fuel - 1, by omega⟩
    obtain ⟨H1, hH1⟩ : ∃ H, H = update m.node x.1
      (some ⟨n, last none xs, ⟨x.2, b⟩⟩) := ⟨_, rfl⟩
    have hxs1 : Seg H1 none (cells a xs) (some x.1) := by
      refine hxs.congr ?_
      intro y hy
      rw [keys_cells] at hy
      have hyx : y ≠ x.1 := by
        rintro rfl
        exact hxxs hy
      rw [hH1, update_of_ne hyx]
    obtain ⟨H, hrun, hseg, hsame⟩ := ih (m := m.withNode H1) hxs1 hnodup.1
      (Nat.le_of_succ_le_succ hfuel)
    refine ⟨H, ?_, ?_, ?_⟩
    · rw [last_append]
      refine bind_of_eq hx (bind_of_eq (setAccounting_eq hx b) ?_)
      rw [← hH1]
      exact hrun
    · rw [cells_append, seg_append, last_cells]
      refine ⟨hseg, ?_, trivial⟩
      rw [hsame x.1 hxxs, withNode_node, hH1, update_self]
      rfl
    · intro y hy
      simp only [keys_append, keys_cons, keys_nil, mem_append, mem_singleton,
        not_or] at hy
      rw [hsame y hy.1, withNode_node, hH1, update_of_ne hy.2]

/-- Two lists made into one that has the record `a`; the record `b` is given back. -/
def joined (m : Mem Data) (H : Heap Addr (Val Data)) (a b : Addr)
    (zs : List (Addr × Option Data)) : Mem Data :=
  ⟨H, update (update m.accounting a (some ⟨last none zs, zs.length⟩)) b none,
    m.next⟩

theorem Filled.joined (h : Filled m a xs) (h' : Filled m b ys)
    (hab : a ≠ b) (hdisjoint : ∀ x ∈ keys xs, x ∉ keys ys)
    (hperm : (keys zs).Perm (keys (xs ++ ys))) {H : Heap Addr (Val Data)}
    (hseg : Seg H none (cells a zs) none) (hsame : ∀ y, y ∉ keys (xs ++ ys) → H y = m.node y) :
    Filled (joined m H a b zs) a zs ∧ Change m (joined m H a b zs) (nodes xs ∪ nodes ys)
      (records a xs ∪ records b ys) a zs := by
  have hne : zs ≠ [] := by
    rintro rfl
    refine h.ne ?_
    have hnil := hperm.length_eq
    rw [length_keys, length_keys, length_append] at hnil
    exact length_eq_zero_iff.mp (Nat.eq_zero_of_add_eq_zero_right hnil.symm)
  have hmem : ∀ x, x ∈ keys zs ↔ x ∈ keys xs ∨ x ∈ keys ys := by
    intro x
    rw [hperm.mem_iff, keys_append, mem_append]
  refine ⟨⟨hne, hseg, ?_, ?_, ?_, h.recordBound⟩, ⟨⟨?_, ?_, ?_⟩, ?_, ?_⟩⟩
  · exact (update_of_ne hab _ _).trans (update_self _ _ _)
  · rw [hperm.nodup_iff, keys_append, nodup_append]
    exact ⟨h.nodup, h'.nodup, fun x hx y hy hxy => hdisjoint x hx (hxy ▸ hy)⟩
  · intro x hx
    exact ((hmem x).mp hx).elim (h.bound x) (h'.bound x)
  · intro x _ hx
    refine hsame x ?_
    rw [keys_append, mem_append]
    exact hx
  · intro c _ hc
    have hca : c ≠ a := fun heq => hc (.inl ⟨heq, h.ne⟩)
    have hcb : c ≠ b := fun heq => hc (.inr ⟨heq, h'.ne⟩)
    exact (update_of_ne hcb _ _).trans (update_of_ne hca _ _)
  · exact le_rfl
  · intro x hx
    exact .inl ((hmem x).mp hx)
  · rintro c ⟨rfl, -⟩
    exact .inl (.inl ⟨rfl, h.ne⟩)

theorem Filled.linked (h : Filled m a xs) (h' : Filled m b ys)
    (hdisjoint : ∀ x ∈ keys xs, x ∉ keys ys) {t right : Addr} (ht : last none xs = some t)
    (hright : first ys none = some right) :
    ∃ H1 H2, setNextOf m.node (some t) (some right) = some H1 ∧
      setPrevOf H1 (some right) (some t) = some H2 ∧
      Seg H2 none (cells a xs) (first ys none) ∧ Seg H2 (last none xs) (cells b ys) none ∧
      ∀ y, y ∉ keys (xs ++ ys) → H2 y = m.node y := by
  have hnodup : (keys (cells a xs ++ cells b ys)).Nodup := by
    rw [keys_append, keys_cells, keys_cells, nodup_append]
    exact ⟨h.nodup, h'.nodup, fun x hx y hy hxy => hdisjoint x hx (hxy ▸ hy)⟩
  obtain ⟨H1, H2, hH1, hH2, hx, hy, hsame⟩ := h.seg.setEnds' h'.seg hnodup (some t) (some right)
  rw [last_cells, ht] at hH1
  rw [first_cells, hright] at hH2
  rw [keys_append, keys_cells, keys_cells, ← keys_append] at hsame
  rw [ht, hright]
  exact ⟨H1, H2, hH1, hH2, hx, hy, hsame⟩

theorem merge_yields {left right : Option Addr} (h : IsList m left a xs) (h' : IsList m right b ys)
    (hdisjoint : ∀ x ∈ nodes xs, x ∉ nodes ys) (hrecords : ∀ c ∈ records a xs, c ∉ records b ys) :
    Yields m (nodes xs ∪ nodes ys) (records a xs ∪ records b ys) (m.merge left right)
      (datas xs ++ datas ys) := by
  by_cases hx : xs = []
  · subst hx
    obtain ⟨rfl, -⟩ := h
    refine (yields_self h').mono Set.subset_union_right Set.subset_union_right
  by_cases hy : ys = []
  · subst hy
    obtain ⟨rfl, -⟩ := h'
    rw [datas_nil, append_nil]
    have hcall : m.merge left (first ([] : List (Addr × Option Data)) none) = some (m, left) := by
      cases left <;> rfl
    rw [hcall]
    exact (yields_self h).mono Set.subset_union_left Set.subset_union_left
  obtain ⟨rfl, hfill⟩ := h
  obtain ⟨rfl, hfill'⟩ := h'
  have h := hfill hx
  have h' := hfill' hy
  have hab : a ≠ b := fun heq => hrecords a ⟨rfl, hx⟩ ⟨heq, hy⟩
  obtain ⟨left, hleft, hlmem⟩ := h.exists_head
  obtain ⟨right, hright, hrmem⟩ := h'.exists_head
  obtain ⟨t, ht, -⟩ := h.exists_last
  obtain ⟨H1, H2, hH1, hH2, hsx, hsy, hsame⟩ := h.linked h' hdisjoint ht hright
  have hhead : first (xs ++ ys) none = some left := by
    rw [first_append, first_congr hx _, hleft]
  have hmem : ∀ z, z ∉ keys (xs ++ ys) → z ∉ keys xs ∧ z ∉ keys ys := by
    intro z hz
    rw [keys_append, mem_append, not_or] at hz
    exact hz
  have hyx : ∀ z ∈ keys ys, z ∉ keys xs := fun z hz hz' => hdisjoint z hz' hz
  by_cases hle : ys.length ≤ xs.length
  · obtain ⟨H3, hH3, hsy3, hsame3⟩ := rehome_next (m := Lists.joined m H2 a b (xs ++ ys)) hsy
      h'.nodup h'.length_le a
    have hseg : Seg H3 none (cells a (xs ++ ys)) none := by
      rw [cells_append, seg_append, first_cells, last_cells]
      refine ⟨hsx.congr ?_, hsy3⟩
      intro z hz
      rw [keys_cells] at hz
      exact hsame3 z (hdisjoint z hz)
    have hjoin := h.joined h' hab hdisjoint (List.Perm.refl _) hseg (fun z hz =>
      (hsame3 z (hmem z hz).2).trans (hsame z hz))
    refine ⟨_, _, a, xs ++ ys, ?_, hjoin.1.isList, hjoin.2, datas_append⟩
    rw [hleft, hright, hhead]
    refine bind_of_eq (h.accountingOf hlmem) (bind_of_eq h.record (bind_of_eq ht ?_))
    refine bind_of_eq (setNext_eq hH1) (bind_of_eq (setPrev_eq (by exact hH2)) ?_)
    refine bind_of_eq (accountingOf_of_seg (by exact hsy) hrmem) (bind_of_eq h'.record ?_)
    refine (if_pos hle).trans ?_
    refine bind_of_eq (setLast_eq (by exact h.record) _) ?_
    refine bind_of_eq (setCount_eq (by exact withRecord_self _) _) ?_
    refine bind_of_eq (accountingFree_eq (((withRecord_other _ hab.symm).trans
      (withRecord_other _ hab.symm)).trans h'.record)) ?_
    have hmem3 : withRecord (withRecord (withRecord ((m.withNode H1).withNode H2) a
        (some ⟨last none ys, xs.length⟩)) a (some ⟨last none ys, xs.length + ys.length⟩)) b none =
        Lists.joined m H2 a b (xs ++ ys) := by
      simp [withRecord, Lists.joined, last_congr hy _ none]
    rw [hmem3]
    refine bind_of_eq (by rw [hright] at hH3; exact hH3) ?_
    rfl
  · obtain ⟨H3, hH3, hsx3, hsame3⟩ := rehome_prev (m := Lists.joined m H2 b a (xs ++ ys)) hsx
      h.nodup h.length_le b
    have hseg : Seg H3 none (cells b (xs ++ ys)) none := by
      rw [cells_append, seg_append, first_cells, last_cells]
      refine ⟨hsx3, hsy.congr ?_⟩
      intro z hz
      rw [keys_cells] at hz
      exact hsame3 z (hyx z hz)
    have hperm : (keys (xs ++ ys)).Perm (keys (ys ++ xs)) := by
      rw [keys_append, keys_append]
      exact perm_append_comm
    have hjoin := h'.joined h hab.symm hyx hperm hseg (fun z hz =>
      (hsame3 z (hmem z (fun hz' => hz (hperm.mem_iff.mp hz'))).1).trans
        (hsame z (fun hz' => hz (hperm.mem_iff.mp hz'))))
    rw [Set.union_comm, Set.union_comm (records b ys)] at hjoin
    refine ⟨_, _, b, xs ++ ys, ?_, hjoin.1.isList, hjoin.2, datas_append⟩
    rw [hleft, hright, hhead]
    refine bind_of_eq (h.accountingOf hlmem) (bind_of_eq h.record (bind_of_eq ht ?_))
    refine bind_of_eq (setNext_eq hH1) (bind_of_eq (setPrev_eq (by exact hH2)) ?_)
    refine bind_of_eq (accountingOf_of_seg (by exact hsy) hrmem) (bind_of_eq h'.record ?_)
    refine (if_neg hle).trans ?_
    refine bind_of_eq (setCount_eq (by exact h'.record) _) ?_
    refine bind_of_eq (accountingFree_eq ((withRecord_other _ hab).trans h.record)) ?_
    have hmem3 : withRecord (withRecord ((m.withNode H1).withNode H2) b
        (some ⟨last none ys, ys.length + xs.length⟩)) a none =
        Lists.joined m H2 b a (xs ++ ys) := by
      simp [withRecord, Lists.joined, last_congr hy _ none, Nat.add_comm]
    rw [hmem3]
    refine bind_of_eq (by rw [ht] at hH3; exact hH3) ?_
    rfl

/-! ### Cutting -/

/-- The nodes of a segment, whatever records they point to. -/
def plain (zs : List (Addr × Val Data)) : List (Addr × Option Data) :=
  zs.map fun z => (z.1, z.2.data)

@[simp] theorem first_plain (zs : List (Addr × Val Data)) (n : Option Addr) :
    first (plain zs) n = first zs n := by
  cases zs <;> rfl

@[simp] theorem plain_cells (a : Addr) (xs : List (Addr × Option Data)) :
    plain (cells a xs) = xs := by
  simp [plain, cells, comp_def]

theorem splitLoop_eq {fuel k : Nat} {q : Option Addr} {zs : List (Addr × Val Data)}
    (h : Seg m.node p zs none) (hnodup : (keys zs).Nodup) (hfuel : zs.length ≤ fuel)
    (hrecord : m.accounting b = some ⟨q, k⟩) :
    ∃ H, m.splitLoop b fuel (first zs none) = some ⟨H, update m.accounting b
        (some ⟨q, k + zs.length⟩), m.next⟩ ∧
      Seg H p (cells b (plain zs)) none ∧ ∀ y ∉ keys zs, H y = m.node y := by
  induction zs generalizing m p fuel k with
  | nil =>
    refine ⟨m.node, ?_, trivial, fun _ _ => rfl⟩
    rw [first_nil, Mem.splitLoop, length_nil, Nat.add_zero, ← hrecord,
      update_eq_self]
  | cons x zs ih =>
    obtain ⟨hx, hzs⟩ := h
    rw [keys_cons, nodup_cons] at hnodup
    rw [length_cons] at hfuel
    obtain ⟨fuel, rfl⟩ : ∃ k, fuel = k + 1 := ⟨fuel - 1, by omega⟩
    obtain ⟨H1, hH1⟩ : ∃ H, H = update m.node x.1
      (some ⟨first zs none, p, ⟨x.2.data, b⟩⟩) := ⟨_, rfl⟩
    have hx1 : H1 x.1 = some ⟨first zs none, p, ⟨x.2.data, b⟩⟩ := by
      rw [hH1, update_self]
    have hzs1 : Seg H1 (some x.1) zs none := by
      refine hzs.congr ?_
      intro y hy
      have hyx : y ≠ x.1 := by
        rintro rfl
        exact hnodup.1 hy
      rw [hH1, update_of_ne hyx]
    obtain ⟨H, hrun, hseg, hsame⟩ := ih
      (m := withRecord (m.withNode H1) b (some ⟨q, k + 1⟩)) hzs1 hnodup.2
      (Nat.le_of_succ_le_succ hfuel) (withRecord_self _)
    refine ⟨H, ?_, ⟨?_, hseg⟩, ?_⟩
    · refine bind_of_eq (setAccounting_eq hx b) ?_
      rw [← hH1]
      refine bind_of_eq (countUp_eq (by exact hrecord)) (bind_of_eq hx1 ?_)
      refine hrun.trans ?_
      simp [withRecord, Nat.add_assoc, Nat.add_comm 1]
    · rw [hsame x.1 hnodup.1, withRecord_node, withNode_node, hx1]
      exact congrArg (fun n => some (Cell.mk n p (Val.mk x.2.data b)))
        (((first_cells none).trans (first_plain zs none)).symm)
    · intro y hy
      rw [keys_cons, mem_cons, not_or] at hy
      rw [hsame y hy.2, withRecord_node, withNode_node, hH1, update_of_ne hy.1]

/-- Both parts of a list that is split have a record that is right. -/
theorem splitList_spec {z : Addr} {d : Option Data} (h : Filled m a (l ++ (z, d) :: r)) :
    ∃ m' left right b,
      m.splitList (first (l ++ (z, d) :: r) none) (some z) = some (m', left, right) ∧
      IsList m' left a (l ++ [(z, d)]) ∧ IsList m' right b r ∧
      Frame m m' (nodes (l ++ (z, d) :: r)) (records a (l ++ (z, d) :: r)) ∧ m.next ≤ b := by
  obtain ⟨list, hlist, hmem⟩ := h.exists_head
  obtain ⟨-, -, -, hz⟩ := h.parts
  rw [hlist]
  by_cases hnil : r = []
  · subst hnil
    refine ⟨m, some list, none, m.next, ?_, ⟨hlist.symm, fun _ => h⟩, isList_nil _ _,
      Frame.refl _ _ _, le_rfl⟩
    refine bind_of_eq (h.accountingOf hmem) (bind_of_eq h.record ?_)
    exact if_pos ((last_eq_iff hz).mpr rfl)
  obtain ⟨⟨y, e⟩, r', rfl⟩ := exists_cons_of_ne_nil hnil
  have hsplit : l ++ (z, d) :: (y, e) :: r' = (l ++ [(z, d)]) ++ ((y, e) :: r') := by simp
  have hseg := h.seg
  rw [hsplit, cells_append, seg_append] at hseg
  obtain ⟨hl, hr⟩ := hseg
  have hnodup := h.nodup
  rw [hsplit, keys_append, nodup_append] at hnodup
  obtain ⟨hnl, hnr, hlr⟩ := hnodup
  -- the right part is cut off and gets a new record
  obtain ⟨H1, hH1, hr1, hf1⟩ := hr.setPrevOf (by rw [keys_cells]; exact hnr) none
  rw [keys_cells] at hf1
  rw [cells_cons, seg_cons, first_cells] at hr1
  obtain ⟨hy1, hr1⟩ := hr1
  obtain ⟨H2, hH2⟩ : ∃ H, H = update H1 y (some ⟨first r' none, none, ⟨e, m.next⟩⟩) :=
    ⟨_, rfl⟩
  have hr2 : Seg H2 none ((y, ⟨e, m.next⟩) :: cells a r') none := by
    rw [seg_cons, first_cells]
    refine ⟨by rw [hH2, update_self], hr1.congr ?_⟩
    intro x hx
    rw [keys_cells] at hx
    have hxy : x ≠ y := by
      rintro rfl
      rw [keys_cons, nodup_cons] at hnr
      exact hnr.1 hx
    rw [hH2, update_of_ne hxy]
  have hkeys : keys ((y, Val.mk e m.next) :: cells a r') = keys ((y, e) :: r') := by simp
  obtain ⟨H3, hrun, hr3, hf3⟩ := splitLoop_eq
    (m := ⟨H2, update m.accounting m.next
      (some ⟨last none (l ++ (z, d) :: (y, e) :: r'), 0⟩), m.next + 1⟩) hr2
    (by rw [hkeys]; exact hnr)
    (show ((y, Val.mk e m.next) :: cells a r').length ≤ m.next + 1 by
      have hle := h.length_le
      simp [cells] at hle ⊢
      omega) (update_self _ _ _)
  rw [hkeys] at hf3
  replace hf3 : ∀ x, x ∉ keys ((y, e) :: r') → H3 x = H2 x := hf3
  have hplain : plain ((y, Val.mk e m.next) :: cells a r') = (y, e) :: r' :=
    congrArg ((y, e) :: ·) (plain_cells a r')
  rw [hplain] at hr3
  -- the left part ends at `z`
  have hl3 : Seg H3 none (cells a (l ++ [(z, d)])) (some y) := by
    refine hl.congr ?_
    intro x hx
    rw [keys_cells] at hx
    have hxr : x ∉ keys ((y, e) :: r') := fun hmem => hlr x hx x hmem rfl
    have hxy : x ≠ y := by
      rintro rfl
      exact hxr (by simp)
    rw [hf3 x hxr, hH2, update_of_ne hxy, hf1 x hxr]
  obtain ⟨H4, hH4, hl4, hf4⟩ := hl3.setNextOf (by rw [keys_cells]; exact hnl) none
  rw [last_cells, last_append] at hH4
  rw [keys_cells] at hf4
  have hr4 : Seg H4 none (cells m.next ((y, e) :: r')) none := by
    refine hr3.congr ?_
    intro x hx
    rw [keys_cells] at hx
    exact hf4 x (fun hmem => hlr x hmem x hx rfl)
  have hab : a ≠ m.next := ne_of_lt h.recordBound
  have hlastr : last none (l ++ (z, d) :: (y, e) :: r') = last none ((y, e) :: r') := by
    rw [last_append]
    rfl
  have hcount : (l ++ (z, d) :: (y, e) :: r').length - ((y, e) :: r').length =
      (l ++ [(z, d)]).length := by
    rw [hsplit, length_append, Nat.add_sub_cancel]
  have hbound : ∀ x ∈ keys (l ++ (z, d) :: (y, e) :: r'), x < m.next + 1 :=
    fun x hx => Nat.lt_succ_of_lt (h.bound x hx)
  rw [hsplit, keys_append] at hbound
  refine ⟨⟨H4, update (update m.accounting m.next
    (some ⟨last none ((y, e) :: r'), ((y, e) :: r').length⟩)) a
      (some ⟨some z, (l ++ [(z, d)]).length⟩), m.next + 1⟩, some list, some y, m.next, ?_,
    ⟨?_, fun _ => ⟨by simp, hl4, ?_, hnl, ?_, ?_⟩⟩,
    ⟨rfl, fun _ => ⟨by simp, hr4, ?_, hnr, ?_, Nat.lt_succ_self _⟩⟩, ⟨?_, ?_, Nat.le_succ _⟩,
    le_rfl⟩
  · refine bind_of_eq (h.accountingOf hmem) (bind_of_eq h.record ?_)
    refine (if_neg (fun hlast => hnil ((last_eq_iff hz).mp hlast))).trans ?_
    refine bind_of_eq h.get (bind_of_eq rfl ?_)
    refine bind_of_eq (setPrev_eq (by exact hH1)) ?_
    refine bind_of_eq (setAccounting_eq (by exact hy1) _) ?_
    refine bind_of_eq (by rw [hH2] at hrun; exact hrun) ?_
    refine bind_of_eq (setNext_eq (by exact hH4)) ?_
    have hold : update (update m.accounting m.next
        (some ⟨last none (l ++ (z, d) :: (y, e) :: r'), 0⟩)) m.next
        (some ⟨last none (l ++ (z, d) :: (y, e) :: r'),
          0 + ((y, Val.mk e m.next) :: cells a r').length⟩) a =
        some ⟨last none (l ++ (z, d) :: (y, e) :: r'), (l ++ (z, d) :: (y, e) :: r').length⟩ := by
      rw [update_of_ne hab, update_of_ne hab, h.record]
    refine bind_of_eq (setLast_eq (by exact hold) _) ?_
    refine bind_of_eq ((withRecord_other _ hab.symm).trans (update_self _ _ _)) ?_
    refine bind_of_eq (setCount_eq (by exact withRecord_self _) _) ?_
    have hlength : 0 + ((y, Val.mk e m.next) :: cells a r').length = ((y, e) :: r').length := by
      simp [cells]
    simp only [hlength, hcount]
    simp [withRecord]
  · rw [← hlist]
    cases l <;> rfl
  · refine (update_self _ _ _).trans ?_
    rw [last_append]
    rfl
  · intro x hx
    exact hbound x (mem_append_left _ hx)
  · exact Nat.lt_succ_of_lt h.recordBound
  · exact (update_of_ne hab.symm _ _).trans (update_self _ _ _)
  · intro x hx
    exact hbound x (mem_append_right _ hx)
  · intro x _ hx
    have hx' : x ∉ keys ((l ++ [(z, d)]) ++ ((y, e) :: r')) := by
      rw [← hsplit]
      exact hx
    rw [keys_append, mem_append, not_or] at hx'
    have hxy : x ≠ y := by
      rintro rfl
      exact hx'.2 (by simp)
    refine (hf4 x hx'.1).trans ?_
    rw [hf3 x hx'.2, hH2, update_of_ne hxy, hf1 x hx'.2]
  · intro c hc hca
    have hne : c ≠ a := fun heq => hca ⟨heq, h.ne⟩
    exact (update_of_ne hne _ _).trans (update_of_ne (ne_of_lt hc) _ _)

/-! ### Copying -/

theorem cloneLoop_yields {lclone : Option Addr}
    (h : Seg m.node p (cells a xs) none) (hbound : ∀ x ∈ keys xs, x < m.next)
    (hclone : IsList m lclone b zs) (hdisjoint : ∀ x ∈ keys xs, x ∉ keys zs)
    (hfuel : xs.length ≤ fuel) :
    Yields m (nodes zs) (records b zs) (m.cloneLoop fuel (first xs none) lclone)
      (datas zs ++ datas xs) := by
  induction xs generalizing m p fuel lclone b zs with
  | nil =>
    rw [first_nil, Mem.cloneLoop, datas_nil, append_nil]
    exact yields_self hclone
  | cons x xs ih =>
    rw [cells_cons, seg_cons, first_cells] at h
    obtain ⟨hx, hxs⟩ := h
    rw [length_cons] at hfuel
    obtain ⟨fuel, rfl⟩ : ∃ k, fuel = k + 1 := ⟨fuel - 1, by omega⟩
    obtain ⟨m1, lclone1, b1, zs1, hrun1, hlist1, hchange1, hdatas1⟩ := append_yields hclone x.2
    -- the nodes still to be copied are older than the new one
    have hsame : ∀ y ∈ keys (x :: xs), m1.node y = m.node y :=
      fun y hy => hchange1.frame.node y (hbound y hy) (hdisjoint y hy)
    have hxs1 : Seg m1.node (some x.1) (cells a xs) none := by
      refine hxs.congr ?_
      intro y hy
      rw [keys_cells] at hy
      exact hsame y (mem_cons_of_mem _ hy)
    have hdisjoint1 : ∀ y ∈ keys xs, y ∉ keys zs1 := by
      intro y hy hmem
      have hy' := mem_cons_of_mem x.1 hy
      rcases hchange1.nodes y hmem with hmem | hmem
      · exact hdisjoint y hy' hmem
      · exact Nat.not_le_of_lt (hbound y hy') hmem
    obtain ⟨m2, head2, b2, zs2, hrun2, hlist2, hchange2, hdatas2⟩ := ih hxs1
      (fun y hy => (hbound y (mem_cons_of_mem _ hy)).trans_le hchange1.frame.next) hlist1
      hdisjoint1 (Nat.le_of_succ_le_succ hfuel)
    refine ⟨m2, head2, b2, zs2, ?_, hlist2, hchange1.trans hchange2, ?_⟩
    · refine bind_of_eq hx (bind_of_eq hrun1 ?_)
      exact bind_of_eq ((hsame x.1 (by simp)).trans hx) hrun2
    · rw [hdatas2, hdatas1]
      simp

theorem clone_yields (h : IsList m head a xs) : Yields m ∅ ∅ (m.clone head) (datas xs) := by
  have hnone : Yields m (nodes ([] : List (Addr × Option Data)))
      (records 0 ([] : List (Addr × Option Data))) (m.clone head) (datas xs) := by
    obtain ⟨rfl, hfill⟩ := h
    by_cases hne : xs = []
    · subst hne
      rw [first_nil, Mem.clone, Mem.cloneLoop]
      exact yields_self (isList_nil m 0)
    · have h := hfill hne
      exact cloneLoop_yields h.seg h.bound (isList_nil m 0) (by simp) h.length_le
  refine hnone.mono ?_ ?_
  · intro x hx
    exact absurd (show x ∈ keys ([] : List (Addr × Option Data)) from hx) (by simp)
  · rintro c ⟨-, hne⟩
    exact absurd rfl hne

end Eina.Lists
