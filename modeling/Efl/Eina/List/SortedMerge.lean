/-
Merging two lists by a comparison.

The loop moves the smaller of the two first nodes behind the last node of the result.
The result so far and what is left of the two lists are segments with loose ends: the
last node of the result still points to the node that followed it in its own list.
-/
import Efl.Eina.List.Join

namespace Eina.Lists

open Chain List Function

variable {Data : Type} {m : Mem Data} {a b c : Addr} {xs ys ds zs : List (Addr × Option Data)}
  {head p q n : Option Addr}

variable {cur : Addr} {fuel : Nat}

theorem sortedMergeTail_eq {zs : List (Addr × Val Data)} {f : Cell Addr (Val Data)}
    (hcur : m.node cur = some f) (hnext : f.next = first zs none)
    (h : Seg m.node (some cur) zs none) (hnodup : (keys zs).Nodup) (hcurzs : cur ∉ keys zs)
    (hfuel : zs.length < fuel) (a : Addr) :
    ∃ H t, m.sortedMergeTail a fuel cur = some (m.withNode H, t) ∧
      last (some cur) zs = some t ∧ Seg H (some cur) (cells a (plain zs)) none ∧
      ∀ y ∉ keys zs, H y = m.node y := by
  induction zs generalizing m cur fuel f with
  | nil =>
    obtain ⟨fuel, rfl⟩ : ∃ k, fuel = k + 1 := ⟨fuel - 1, by simp at hfuel; omega⟩
    refine ⟨m.node, cur, ?_, rfl, trivial, fun _ _ => rfl⟩
    refine bind_of_eq hcur ?_
    rw [hnext]
    rfl
  | cons x zs ih =>
    obtain ⟨hx, hzs⟩ := h
    rw [keys_cons, nodup_cons] at hnodup
    obtain ⟨fuel, rfl⟩ : ∃ k, fuel = k + 1 := ⟨fuel - 1, by omega⟩
    obtain ⟨H1, hH1⟩ : ∃ H, H = update m.node x.1
      (some ⟨first zs none, some cur, ⟨x.2.data, a⟩⟩) := ⟨_, rfl⟩
    have hx1 : H1 x.1 = some ⟨first zs none, some cur, ⟨x.2.data, a⟩⟩ := by
      rw [hH1, update_self]
    have hzs1 : Seg H1 (some x.1) zs none := by
      refine hzs.congr ?_
      intro y hy
      have hyx : y ≠ x.1 := by
        rintro rfl
        exact hnodup.1 hy
      rw [hH1, update_of_ne hyx]
    obtain ⟨H, t, hrun, hlast, hseg, hsame⟩ := ih (m := m.withNode H1) hx1 rfl hzs1 hnodup.2
      hnodup.1 (Nat.lt_of_succ_lt_succ hfuel)
    refine ⟨H, t, ?_, hlast, ⟨?_, hseg⟩, ?_⟩
    · refine bind_of_eq hcur ?_
      rw [hnext]
      refine bind_of_eq (setAccounting_eq hx a) ?_
      rw [← hH1]
      exact hrun
    · rw [hsame x.1 hnodup.1, withNode_node, hx1]
      exact congrArg (fun n => some (Cell.mk n (some cur) (Val.mk x.2.data a)))
        (((first_cells none).trans (first_plain zs none)).symm)
    · intro y hy
      rw [keys_cons, mem_cons, not_or] at hy
      rw [hsame y hy.2, withNode_node, hH1, update_of_ne hy.1]

variable {x : Addr × Option Data}

theorem link_eq (hds : Seg m.node none (cells a ds) n) (hcur : last none ds = some cur)
    (hzs : Seg m.node p (cells c (x :: zs)) none) (hnodup : (keys (ds ++ x :: zs)).Nodup) :
    ∃ H, m.link cur x.1 = some (m.withNode H) ∧ Seg H none (cells a ds) (some x.1) ∧
      Seg H (some cur) (cells c (x :: zs)) none ∧
      ∀ y, y ∉ keys (ds ++ x :: zs) → H y = m.node y := by
  have hkeys : keys (cells a ds ++ cells c (x :: zs)) = keys (ds ++ x :: zs) := by
    rw [keys_append, keys_cells, keys_cells, keys_append]
  obtain ⟨H1, H2, hH1, hH2, hd, hz, hsame⟩ :=
    hds.setEnds' hzs (by rw [hkeys]; exact hnodup) (some cur) (some x.1)
  rw [last_cells, hcur] at hH1
  rw [hkeys] at hsame
  refine ⟨H2, ?_, hd, hz, hsame⟩
  exact bind_of_eq (setNext_eq hH1) (setPrev_eq (by exact hH2))

theorem take_eq (hds : Seg m.node none (cells a ds) n) (hcur : last none ds = some cur)
    (hzs : Seg m.node p (cells c (x :: zs)) none) (hnodup : (keys (ds ++ x :: zs)).Nodup) :
    ∃ H1 H2, m.link cur x.1 = some (m.withNode H1) ∧
      (m.withNode H1).setAccounting x.1 a = some (m.withNode H2) ∧
      Seg H2 none (cells a (ds ++ [x])) (first zs none) ∧ Seg H2 (some x.1) (cells c zs) none ∧
      ∀ y, y ∉ keys (ds ++ x :: zs) → H2 y = m.node y := by
  obtain ⟨H1, hlink, hd, hz, hsame⟩ := link_eq hds hcur hzs hnodup
  rw [keys_append, keys_cons, nodup_append, nodup_cons] at hnodup
  obtain ⟨-, ⟨hxzs, -⟩, hdz⟩ := hnodup
  rw [cells_cons, seg_cons, first_cells] at hz
  obtain ⟨hx, hz⟩ := hz
  have hother : ∀ y ≠ x.1, update H1 x.1
      (some ⟨first zs none, some cur, ⟨x.2, a⟩⟩) y = H1 y :=
    fun y hy => update_of_ne hy _ _
  refine ⟨H1, update H1 x.1 (some ⟨first zs none, some cur, ⟨x.2, a⟩⟩), hlink,
    setAccounting_eq (m := m.withNode H1) hx a, ?_, ?_, ?_⟩
  · rw [cells_append, seg_append, last_cells, hcur]
    refine ⟨hd.congr ?_, update_self _ _ _, trivial⟩
    intro y hy
    rw [keys_cells] at hy
    exact hother y (fun heq => hdz y hy x.1 (by simp) heq)
  · refine hz.congr ?_
    intro y hy
    rw [keys_cells] at hy
    refine hother y ?_
    rintro rfl
    exact hxzs hy
  · intro y hy
    have hyx : y ≠ x.1 := by
      rintro rfl
      exact hy (by simp)
    rw [hother y hyx, hsame y hy]

theorem rest_eq (hds : Seg m.node none (cells a ds) n) (hcur : last none ds = some cur)
    (hzs : Seg m.node p (cells c (x :: zs)) none) (hnodup : (keys (ds ++ x :: zs)).Nodup)
    (hfuel : (ds ++ x :: zs).length ≤ m.next) :
    ∃ H t, (do
        let m ← m.link cur x.1
        let m ← m.setAccounting cur a
        m.sortedMergeTail a m.next cur) = some (m.withNode H, t) ∧
      last none (ds ++ x :: zs) = some t ∧ Seg H none (cells a (ds ++ x :: zs)) none ∧
      ∀ y, y ∉ keys (ds ++ x :: zs) → H y = m.node y := by
  obtain ⟨H1, hlink, hd, hz, hsame⟩ := link_eq hds hcur hzs hnodup
  have hne : ds ≠ [] := by
    rintro rfl
    simp at hcur
  obtain ⟨ds, ⟨t, e⟩, rfl⟩ := (eq_nil_or_concat' ds).resolve_left hne
  obtain rfl : t = cur := by
    rw [last_append] at hcur
    exact Option.some.inj hcur
  have ht : H1 t = some ⟨some x.1, last none ds, ⟨e, a⟩⟩ := by
    have hcell := hd
    rw [cells_append] at hcell
    rw [hcell.get, last_cells]
    rfl
  have hnodup' := hnodup
  rw [keys_append, nodup_append] at hnodup'
  have htz : t ∉ keys (x :: zs) := fun hmem => hnodup'.2.2 t (by simp) t hmem rfl
  obtain ⟨H, u, hrun, hlast, hseg, hsame'⟩ := sortedMergeTail_eq (m := m.withNode H1)
    ht rfl hz (by rw [keys_cells]; exact hnodup'.2.1) (by rw [keys_cells]; exact htz)
    (show (cells c (x :: zs)).length < m.next by
      simp [cells] at hfuel ⊢
      omega) a
  rw [plain_cells] at hseg
  rw [last_cells] at hlast
  rw [keys_cells] at hsame'
  refine ⟨H, u, ?_, ?_, ?_, ?_⟩
  · refine bind_of_eq hlink (bind_of_eq (setAccounting_eq ht a) ?_)
    have hself : update H1 t (some ⟨some x.1, last none ds, ⟨e, a⟩⟩) = H1 := by
      rw [← ht, update_eq_self]
    rw [withNode_node, hself]
    exact hrun
  · rw [last_append]
    exact hlast
  · rw [cells_append, seg_append, last_cells, last_append]
    refine ⟨hd.congr ?_, hseg⟩
    intro y hy
    rw [keys_cells] at hy
    exact hsame' y (fun hmem => hnodup'.2.2 y hy y hmem rfl)
  · intro y hy
    have hy' := hy
    rw [keys_append, mem_append, not_or] at hy'
    rw [hsame' y hy'.2, withNode_node, hsame y hy]

/-- The data are compared as `func` says. -/
def before (func : Option Data → Option Data → Int) (x y : Addr × Option Data) : Bool :=
  decide (func x.2 y.2 < 0)

variable (func : Option Data → Option Data → Int)

/-- The loop links the smaller head behind what is merged. -/
theorem sortedMergeLoop_eq :
    ∀ {m : Mem Data} {ds xs ys : List (Addr × Option Data)} {p q n : Option Addr} {cur : Addr},
      Seg m.node none (cells a ds) n → last none ds = some cur → Seg m.node p (cells b xs) none →
      Seg m.node q (cells c ys) none → (keys (ds ++ (xs ++ ys))).Nodup → xs ++ ys ≠ [] →
      (ds ++ (xs ++ ys)).length ≤ m.next → xs.length + ys.length ≤ fuel →
      ∃ H t, m.sortedMergeLoop func a fuel cur (first xs none) (first ys none) =
          some (m.withNode H, t) ∧
        last none (ds ++ List.merge xs ys (before func)) = some t ∧
        Seg H none (cells a (ds ++ List.merge xs ys (before func))) none ∧
        ∀ y, y ∉ keys (ds ++ (xs ++ ys)) → H y = m.node y := by
  induction fuel with
  | zero =>
    intro m ds xs ys p q n cur hds hcur hxs hys hnodup hne hlength hfuel
    refine absurd ?_ hne
    rw [← length_eq_zero_iff, length_append]
    omega
  | succ fuel ih =>
    intro m ds xs ys p q n cur hds hcur hxs hys hnodup hne hlength hfuel
    match xs, ys with
    | [], [] => exact absurd rfl hne
    | x :: xs, [] =>
      rw [append_nil] at hnodup hlength ⊢
      rw [merge_right]
      exact rest_eq hds hcur hxs hnodup hlength
    | [], y :: ys =>
      rw [nil_merge]
      exact rest_eq hds hcur hys hnodup hlength
    | x :: xs, y :: ys =>
      have hx := hxs.1
      have hy := hys.1
      have hdisjoint : ∀ z ∈ keys (ds ++ x :: xs), z ∉ keys (y :: ys) := by
        rw [← append_assoc, keys_append, nodup_append] at hnodup
        exact fun z hz hz' => hnodup.2.2 z hz z hz' rfl
      by_cases hlt : func x.2 y.2 < 0
      · obtain ⟨H1, H2, hlink, hset, hds2, hxs2, hsame2⟩ := take_eq hds hcur hxs (by
          rw [← append_assoc, keys_append, nodup_append] at hnodup
          exact hnodup.1)
        have hys2 : Seg H2 q (cells c (y :: ys)) none := by
          refine hys.congr ?_
          intro z hz
          rw [keys_cells] at hz
          exact hsame2 z (fun hz' => hdisjoint z hz' hz)
        have hshift : (ds ++ [x]) ++ (xs ++ y :: ys) = ds ++ ((x :: xs) ++ (y :: ys)) := by simp
        obtain ⟨H, t, hrun, hlast, hseg, hsame⟩ := ih (m := m.withNode H2) hds2
          (by rw [last_append]; rfl) hxs2 hys2 (by rw [hshift]; exact hnodup) (by simp)
          (by rw [hshift]; exact hlength) (by simp at hfuel ⊢; omega)
        have hmerge : ds ++ merge (x :: xs) (y :: ys) (before func) =
            (ds ++ [x]) ++ merge xs (y :: ys) (before func) := by
          rw [cons_merge_cons, if_pos (by simpa [before] using hlt)]
          simp
        rw [hshift] at hsame
        rw [hmerge]
        refine ⟨H, t, ?_, hlast, hseg, ?_⟩
        · refine bind_of_eq hx (bind_of_eq hy ((if_pos hlt).trans ?_))
          refine bind_of_eq hlink (bind_of_eq hset ?_)
          rw [show map _ xs = cells b xs from rfl, first_cells]
          exact hrun
        · intro z hz
          refine (hsame z hz).trans (hsame2 z (fun hz' => hz ?_))
          rw [← append_assoc, keys_append]
          exact mem_append_left _ hz'
      · have hswap : (keys (ds ++ ((x :: xs) ++ (y :: ys)))).Perm
            (keys ((ds ++ y :: ys) ++ (x :: xs))) := by
          refine List.Perm.map _ ?_
          rw [append_assoc]
          exact perm_append_comm.append_left ds
        have hnodup' := hswap.nodup_iff.mp hnodup
        rw [keys_append, nodup_append] at hnodup'
        obtain ⟨H1, H2, hlink, hset, hds2, hys2, hsame2⟩ := take_eq hds hcur hys hnodup'.1
        have hxs2 : Seg H2 p (cells b (x :: xs)) none := by
          refine hxs.congr ?_
          intro z hz
          rw [keys_cells] at hz
          exact hsame2 z (fun hz' => hnodup'.2.2 z hz' z hz rfl)
        have hshift : ((ds ++ [y]) ++ ((x :: xs) ++ ys)).Perm
            (ds ++ ((x :: xs) ++ (y :: ys))) := by
          rw [append_assoc, singleton_append]
          exact perm_middle.symm.append_left ds
        have hkeys : (keys ((ds ++ [y]) ++ ((x :: xs) ++ ys))).Perm
            (keys (ds ++ ((x :: xs) ++ (y :: ys)))) := hshift.map _
        obtain ⟨H, t, hrun, hlast, hseg, hsame⟩ := ih (m := m.withNode H2) hds2
          (by rw [last_append]; rfl) hxs2 hys2 (hkeys.nodup_iff.mpr hnodup) (by simp)
          (by rw [hshift.length_eq]; exact hlength) (by simp at hfuel ⊢; omega)
        have hmerge : ds ++ merge (x :: xs) (y :: ys) (before func) =
            (ds ++ [y]) ++ merge (x :: xs) ys (before func) := by
          rw [cons_merge_cons, if_neg (by simpa [before] using hlt)]
          simp
        rw [hmerge]
        refine ⟨H, t, ?_, hlast, hseg, ?_⟩
        · refine bind_of_eq hx (bind_of_eq hy ((if_neg hlt).trans ?_))
          refine bind_of_eq hlink (bind_of_eq hset ?_)
          rw [show map _ ys = cells c ys from rfl, first_cells]
          exact hrun
        · intro z hz
          refine (hsame z (fun hz' => hz (hkeys.mem_iff.mp hz'))).trans
            (hsame2 z (fun hz' => hz (hswap.mem_iff.mpr ?_)))
          rw [keys_append]
          exact mem_append_left _ hz'

theorem datas_merge (xs ys : List (Addr × Option Data)) :
    datas (List.merge xs ys (before func)) =
      List.merge (datas xs) (datas ys) fun d e => decide (func d e < 0) :=
  map_merge (fun _ _ _ _ => rfl)

/-- **`eina_list_sorted_merge` merges the sequences.** -/
theorem sortedMerge_yields {left right : Option Addr}
    (h : IsList m left a xs) (h' : IsList m right b ys)
    (hdisjoint : ∀ x ∈ nodes xs, x ∉ nodes ys) (hrecords : ∀ c ∈ records a xs, c ∉ records b ys) :
    Yields m (nodes xs ∪ nodes ys) (records a xs ∪ records b ys) (m.sortedMerge func left right)
      (List.merge (datas xs) (datas ys) fun d e => decide (func d e < 0)) := by
  match xs, ys with
  | [], ys =>
    obtain ⟨rfl, -⟩ := h
    rw [datas_nil, nil_merge]
    exact (yields_self h').mono Set.subset_union_right Set.subset_union_right
  | x :: xs, [] =>
    obtain ⟨rfl, -⟩ := h'
    rw [datas_nil, merge_right]
    have hcall : m.sortedMerge func left (first ([] : List (Addr × Option Data)) none) =
        some (m, left) := by
      cases left <;> rfl
    rw [hcall]
    exact (yields_self h).mono Set.subset_union_left Set.subset_union_left
  | x :: xs, y :: ys =>
    obtain ⟨rfl, hfill⟩ := h
    obtain ⟨rfl, hfill'⟩ := h'
    have h := hfill (by simp)
    have h' := hfill' (by simp)
    have hab : a ≠ b := fun heq => hrecords a ⟨rfl, by simp⟩ ⟨heq, by simp⟩
    have hx := h.seg.1
    have hy := h'.seg.1
    have hnodup : (keys ((x :: xs) ++ (y :: ys))).Nodup := by
      rw [keys_append, nodup_append]
      exact ⟨h.nodup, h'.nodup, fun u hu v hv huv => hdisjoint u hu (huv ▸ hv)⟩
    have hlength : ((x :: xs) ++ (y :: ys)).length ≤ m.next := by
      refine length_le_of_bound hnodup ?_
      intro z hz
      rw [keys_append, mem_append] at hz
      exact hz.elim (h.bound z) (h'.bound z)
    have hperm : (keys (merge (x :: xs) (y :: ys) (before func))).Perm
        (keys ((x :: xs) ++ (y :: ys))) := (merge_perm_append _).map _
    have hcount : (merge (x :: xs) (y :: ys) (before func)).length =
        (x :: xs).length + (y :: ys).length := by
      rw [(merge_perm_append _).length_eq, length_append]
    rw [← datas_merge]
    by_cases hlt : func x.2 y.2 < 0
    · have hmerge : merge (x :: xs) (y :: ys) (before func) =
          [x] ++ merge xs (y :: ys) (before func) := by
        rw [cons_merge_cons, if_pos (by simpa [before] using hlt)]
        rfl
      obtain ⟨H, t, hrun, hlast, hseg, hsame⟩ := sortedMergeLoop_eq func
        (m := withRecord (withRecord m a (some ⟨last none (x :: xs),
          (x :: xs).length + (y :: ys).length⟩)) b none)
        (show Seg m.node none (cells a [x]) (first (cells a xs) none) from ⟨hx, trivial⟩) rfl
        h.seg.2 h'.seg hnodup (by simp) hlength
        (show xs.length + (y :: ys).length ≤ m.next by simp at hlength ⊢; omega)
      rw [← hmerge] at hlast hseg
      have hjoin := h.joined h' hab hdisjoint hperm hseg hsame
      refine ⟨_, _, a, _, ?_, hjoin.1.isList, hjoin.2, rfl⟩
      refine bind_of_eq hx (bind_of_eq hy (bind_of_eq h.record (bind_of_eq h'.record ?_)))
      refine (if_pos hlt).trans ?_
      refine bind_of_eq (setCount_eq h.record _) ?_
      refine bind_of_eq (accountingFree_eq ((withRecord_other _ hab.symm).trans h'.record)) ?_
      rw [show map _ xs = cells a xs from rfl, first_cells]
      refine bind_of_eq hrun ?_
      refine bind_of_eq (setLast_eq
        (by exact (withRecord_other _ hab).trans (withRecord_self _)) _) ?_
      rw [hmerge, first_append, ← hmerge, Lists.joined, hlast]
      simp [withRecord, update_comm hab]
    · have hmerge : merge (x :: xs) (y :: ys) (before func) =
          [y] ++ merge (x :: xs) ys (before func) := by
        rw [cons_merge_cons, if_neg (by simpa [before] using hlt)]
        rfl
      have hswap : (keys ((x :: xs) ++ (y :: ys))).Perm (keys ([y] ++ ((x :: xs) ++ ys))) :=
        perm_middle.map _
      have hswap' : (keys ((x :: xs) ++ (y :: ys))).Perm (keys ((y :: ys) ++ (x :: xs))) :=
        perm_append_comm.map _
      obtain ⟨H, t, hrun, hlast, hseg, hsame⟩ := sortedMergeLoop_eq func
        (m := withRecord (withRecord m b (some ⟨last none (y :: ys),
          (y :: ys).length + (x :: xs).length⟩)) a none)
        (show Seg m.node none (cells b [y]) (first (cells b ys) none) from ⟨hy, trivial⟩) rfl
        h.seg h'.seg.2 (hswap.nodup_iff.mp hnodup) (by simp)
        (show ([y] ++ ((x :: xs) ++ ys)).length ≤ m.next by simp at hlength ⊢; omega)
        (show (x :: xs).length + ys.length ≤ m.next by simp at hlength ⊢; omega)
      rw [← hmerge] at hlast hseg
      have hjoin := h'.joined h hab.symm (fun z hz hz' => hdisjoint z hz' hz)
        (hperm.trans hswap') hseg
        (fun z hz => hsame z (fun hz' => hz (hswap'.mem_iff.mp (hswap.mem_iff.mpr hz'))))
      rw [Set.union_comm, Set.union_comm (records b (y :: ys))] at hjoin
      refine ⟨_, _, b, _, ?_, hjoin.1.isList, hjoin.2, rfl⟩
      refine bind_of_eq hx (bind_of_eq hy (bind_of_eq h.record (bind_of_eq h'.record ?_)))
      refine (if_neg hlt).trans ?_
      refine bind_of_eq (setCount_eq h'.record _) ?_
      refine bind_of_eq (accountingFree_eq ((withRecord_other _ hab).trans h.record)) ?_
      rw [show map _ ys = cells b ys from rfl, first_cells]
      refine bind_of_eq hrun ?_
      refine bind_of_eq (setLast_eq
        (by exact (withRecord_other _ hab.symm).trans (withRecord_self _)) _) ?_
      rw [hmerge, first_append, ← hmerge, Lists.joined, hlast]
      simp [withRecord, update_comm hab.symm, Nat.add_comm]

end Eina.Lists
