/-
What the operations on a list do.

Every operation cuts the list into segments, sets their ends and changes the `last` of
the first node, so each lemma here follows the writes of its operation one by one: the
segments are carried through the writes elsewhere and put together again at the end.
-/
import Efl.Eina.Inlist.Basic

namespace Eina.Inlist

open Chain List Option Function

variable {A : Type} [DecidableEq A] {H H' : Heap A} {list : Option A} {xs l r : List A} {x new : A}

/-! ### Single writes -/

theorem rewires_of_modify {f : Cell A (Option A) → Cell A (Option A)} (h : modify H x f = some H') :
    Rewires H H' [x] := by
  unfold Chain.modify at h
  cases hx : H x with
  | none =>
    rw [hx] at h
    simp at h
  | some c =>
    rw [hx] at h
    rw [← some.inj h]
    exact rewires_update hx

variable {p v : Option A}

theorem rewires_setPrevOf (h : setPrevOf H p v = some H') :
    Rewires H H' p.toList := by
  cases p with
  | none =>
    rw [← some.inj h]
    exact Rewires.refl _ _
  | some y => exact rewires_of_modify h

theorem rewires_setNextOf (h : setNextOf H p v = some H') :
    Rewires H H' p.toList := by
  cases p with
  | none =>
    rw [← some.inj h]
    exact Rewires.refl _ _
  | some y => exact rewires_of_modify h

theorem next_of_setNext {a : A} (h : setNext H a v = some H') :
    ∃ c, H' a = some c ∧ c.next = v := by
  unfold setNext Chain.modify at h
  cases ha : H a with
  | none =>
    rw [ha] at h
    simp at h
  | some c =>
    rw [ha] at h
    obtain rfl := some.inj h
    exact ⟨_, update_self _ _ _, rfl⟩

variable {ps : List (A × Option A)}

omit [DecidableEq A] in
theorem seg_apart {n : Option A} (h : Seg H p ps n) (hw : Rewires H H' [x]) (hx : x ∉ keys ps) :
    Seg H' p ps n := by
  refine h.congr fun y hy => hw.others y ?_
  intro hy'
  rw [mem_singleton.mp hy'] at hy
  exact hx hy

theorem seg_setLast {n w : Option A} (h : Seg H p ((x, v) :: ps) n) (hx : x ∉ keys ps) :
    ∃ H', setLast H x w = some H' ∧ Seg H' p ((x, w) :: ps) n ∧ Rewires H H' [x] := by
  obtain ⟨hcell, hseg⟩ := h
  have hset : setLast H x w = some _ := modify_eq hcell _
  refine ⟨_, hset, ⟨update_self _ _ _, hseg.congr ?_⟩, rewires_of_modify hset⟩
  intro y hy
  refine update_of_ne ?_ _ _
  rintro rfl
  exact hx hy

/-! ### Adding a node -/

theorem setLast_single {v : Option A} (hc : H new = some ⟨none, none, v⟩) :
    ∃ H', setLast H new (some new) = some H' ∧ Linked H' (some new) [new] ∧
      Rewires H H' [new] := by
  have hset : setLast H new (some new) = some _ := modify_eq hc _
  exact ⟨_, hset, linked_single (update_self _ _ _), rewires_of_modify hset⟩

theorem append_spec (h : Linked H list xs) (hnew : new ∉ xs) (halive : H new ≠ none) (n : Nat) :
    ∃ H', append n H list new = some (H', (xs ++ [new]).head?) ∧
      Linked H' (xs ++ [new]).head? (xs ++ [new]) ∧ Rewires H H' (new :: xs) := by
  obtain ⟨c, hc⟩ := ne_none_iff_exists'.mp halive
  have h1 : setNext H new none = some _ := modify_eq hc _
  have hw1 := rewires_of_modify h1
  have hc1 := update_self new (some { c with next := none }) H
  generalize update H new _ = H1 at h1 hw1 hc1
  unfold append
  rw [h1]
  cases xs with
  | nil =>
    have h2 : setPrev H1 new none = some _ := modify_eq hc1 _
    obtain ⟨H', h3, hlinked, hw3⟩ := setLast_single (update_self new
      (some { c with next := none, prev := none }) H1)
    have hlist : list = none := h.first
    refine ⟨H', ?_, hlinked, (hw1.trans (rewires_of_modify h2)).trans hw3⟩
    rw [hlist]
    simp only [bind_eq_bind, bind_some, h2, h3]
    rfl
  | cons x r =>
    obtain ⟨v, ps, rfl, rfl, hseg, hv, hx, hr⟩ := h.uncons
    have hnewx : new ≠ x := fun hxn => hnew (hxn ▸ mem_cons_self)
    have hnewr : new ∉ keys ps := fun hmem => hnew (mem_cons_of_mem _ hmem)
    have hseg1 := seg_apart hseg hw1 hnew
    obtain ⟨m, hm⟩ : ∃ m, last (some x) ps = some m := by
      cases hl : last (some x) ps with
      | none => exact absurd (last_eq_none.mp hl).1 (by simp)
      | some m => exact ⟨m, rfl⟩
    obtain ⟨H2, h2, hseg2, hsame2⟩ := hseg1.setNextOf (nodup_cons.mpr ⟨hx, hr⟩) (some new)
    rw [last_cons, hm] at h2
    have hw2 := rewires_setNextOf h2
    have hc2 : H2 new = some { c with next := none } := by
      rw [hsame2 new hnew, hc1]
    have h3 : setPrev H2 new (some m) = some _ := modify_eq hc2 _
    have hw3 := rewires_of_modify h3
    have hc3 := update_self new (some { c with next := none, prev := some m }) H2
    generalize update H2 new _ = H3 at h3 hw3 hc3
    have hseg3 := seg_apart hseg2 hw3 hnew
    obtain ⟨H4, h4, hseg4, hw4⟩ := seg_setLast (w := some new) hseg3 hx
    have hc4 : H4 new = some { c with next := none, prev := some m } := by
      rw [hw4.others new (by simpa using hnewx), hc3]
    have hmem : m = x ∨ m ∈ keys ps := by
      rcases last_mem hm with hm' | hm'
      · exact .inl (some.inj hm').symm
      · exact .inr hm'
    refine ⟨H4, ?_, ?_, ?_⟩
    · have hcell : H1 x = some ⟨Chain.first ps none, none, some m⟩ := by
        rw [hseg1.1, hv, hm]
      simp only [bind_eq_bind, bind_some, hcell]
      rw [show setNext H1 m (some new) = some H2 from h2]
      simp only [bind_some, h3, h4]
      rfl
    · have hjoined : Seg H4 none ((x, some new) :: (ps ++ [(new, c.val)])) none := by
        rw [← cons_append, seg_append]
        refine ⟨hseg4, ?_, trivial⟩
        rw [hc4, last_cons, hm]
        rfl
      have hkeys : keys (ps ++ [(new, c.val)]) = keys ps ++ [new] := by simp
      have hlinked := linked_cons hjoined (by simp) (by
        rw [hkeys, nodup_cons, nodup_append]
        refine ⟨by simp [hx, symm hnewx], hr, nodup_singleton _, ?_⟩
        intro y hy z hz hyz
        rw [hyz, mem_singleton.mp hz] at hy
        exact hnewr hy)
      rwa [hkeys] at hlinked
    · refine (((hw1.mono ?_).trans (hw2.mono ?_)).trans (hw3.mono ?_)).trans (hw4.mono ?_)
      · simp
      · intro y hy
        obtain rfl : y = m := by simpa using hy
        simp only [mem_cons]
        exact .inr hmem
      · simp
      · simp

theorem prepend_spec (h : Linked H list xs) (hnew : new ∉ xs) (halive : H new ≠ none) :
    ∃ H', prepend H list new = some (H', some new) ∧ Linked H' (some new) (new :: xs) ∧
      Rewires H H' (new :: xs) := by
  obtain ⟨c, hc⟩ := ne_none_iff_exists'.mp halive
  have h1 : setPrev H new none = some _ := modify_eq hc _
  have hw1 := rewires_of_modify h1
  have hc1 := update_self new (some { c with prev := none }) H
  generalize update H new _ = H1 at h1 hw1 hc1
  unfold prepend
  rw [h1]
  cases xs with
  | nil =>
    have h2 : setNext H1 new none = some _ := modify_eq hc1 _
    obtain ⟨H', h3, hlinked, hw3⟩ := setLast_single (update_self new
      (some { c with next := none, prev := none }) H1)
    have hlist : list = none := h.first
    refine ⟨H', ?_, hlinked, (hw1.trans (rewires_of_modify h2)).trans hw3⟩
    rw [hlist]
    simp only [bind_eq_bind, bind_some, h2, h3]
    rfl
  | cons x r =>
    obtain ⟨v, ps, rfl, rfl, hseg, hv, hx, hr⟩ := h.uncons
    have hnewx : x ≠ new := fun hxn => hnew (hxn ▸ mem_cons_self)
    have hseg1 := seg_apart hseg hw1 hnew
    have h2 : setNext H1 new (some x) = some _ := modify_eq hc1 _
    have hw2 := rewires_of_modify h2
    have hc2 := update_self new (some { c with next := some x, prev := none }) H1
    generalize update H1 new _ = H2 at h2 hw2 hc2
    have hseg2 := seg_apart hseg1 hw2 hnew
    obtain ⟨H3, h3, hseg3, hsame3⟩ := hseg2.setPrevOf (nodup_cons.mpr ⟨hx, hr⟩) (some new)
    have hw3 := rewires_setPrevOf h3
    have hc3 : H3 new = some { c with next := some x, prev := none } := by
      rw [hsame3 new hnew, hc2]
    have h4 : setLast H3 new v = some _ := modify_eq hc3 _
    have hw4 := rewires_of_modify h4
    have hc4 := update_self new (some (⟨some x, none, v⟩ : Cell A (Option A))) H3
    generalize update H3 new _ = H4 at h4 hw4 hc4
    have hseg4 := seg_apart hseg3 hw4 hnew
    obtain ⟨H5, h5, hseg5, hw5⟩ := seg_setLast (w := none) hseg4 hx
    have hc5 : H5 new = some ⟨some x, none, v⟩ := by
      rw [hw5.others new (by simpa using symm hnewx), hc4]
    refine ⟨H5, ?_, ?_, ?_⟩
    · simp only [bind_eq_bind, bind_some, h2]
      rw [show setPrev H2 x (some new) = some H3 from h3]
      simp only [bind_some, hseg3.1, h4, h5]
      rfl
    · have hlinked : Linked H5 (some new) (new :: keys ((x, none) :: ps)) :=
        linked_cons ⟨hc5, hseg5⟩ (by rw [hv]; rfl)
          (nodup_cons.mpr ⟨hnew, nodup_cons.mpr ⟨hx, hr⟩⟩)
      exact hlinked
    · have hsub : ∀ y ∈ [new], y ∈ new :: x :: keys ps := by simp
      have hsub' : ∀ y ∈ [x], y ∈ new :: x :: keys ps := by simp
      exact ((((hw1.mono hsub).trans (hw2.mono hsub)).trans (hw3.mono hsub')).trans
        (hw4.mono hsub)).trans (hw5.mono hsub')

theorem linked_setLast (hseg : Seg H none ((x, v) :: ps) none) (hnodup : (x :: keys ps).Nodup) :
    ∃ H', setLast H x (last (some x) ps) = some H' ∧ Linked H' (some x) (x :: keys ps) ∧
      Rewires H H' [x] := by
  obtain ⟨H', hset, hseg', hw⟩ := seg_setLast hseg
    (nodup_cons.mp hnodup).1
  exact ⟨H', hset, linked_cons hseg' rfl hnodup, hw⟩

theorem appendRelative_spec (h : Linked H list (l ++ x :: r)) (hnew : new ∉ l ++ x :: r)
    (halive : H new ≠ none) (n : Nat) :
    ∃ H', appendRelative n H list new (some x) = some (H', list) ∧
      Linked H' list (l ++ x :: new :: r) ∧ Rewires H H' (new :: (l ++ x :: r)) := by
  obtain ⟨c, hc⟩ := ne_none_iff_exists'.mp halive
  obtain ⟨pl, v, pr, rfl, rfl, hsegl, hsegr, hlast⟩ := h.split
  have hnodup := h.nodup
  have hkeysl : keys (pl ++ [(x, v)]) = keys pl ++ [x] := keys_append _ _
  rw [← singleton_append, ← append_assoc, ← hkeysl, nodup_append] at hnodup
  obtain ⟨hnl, hnr, hlr⟩ := hnodup
  have hnew' := hnew
  simp only [mem_append, mem_cons, not_or] at hnew'
  have hnewl : new ∉ keys (pl ++ [(x, v)]) := by simp [hnew'.1, hnew'.2.1]
  have hnewr : new ∉ keys pr := hnew'.2.2
  -- the writes, one by one
  have h1 : setNext H new (first pr none) = some _ := modify_eq hc _
  have hw1 := rewires_of_modify h1
  have hc1 := update_self new (some { c with next := first pr none }) H
  have hsegl1 := seg_apart hsegl hw1 hnewl
  obtain ⟨H2, h2, hsegr2, hsame2⟩ := (seg_apart hsegr hw1 hnewr).setPrevOf hnr (some new)
  have hw2 := rewires_setPrevOf h2
  have hsegl2 := hsegl1.congr fun z hz => hsame2 z fun hz' => hlr z hz z hz' rfl
  obtain ⟨H3, h3, hsegl3, hsame3⟩ := hsegl2.setNextOf hnl (some new)
  have hw3 := rewires_setNextOf h3
  rw [last_append] at h3 hw3
  have hsegr3 := hsegr2.congr fun z hz => hsame3 z fun hz' => hlr z hz' z hz rfl
  have hc3 : H3 new = some { c with next := first pr none } := by
    rw [hsame3 new hnewl, hsame2 new hnewr, hc1]
  have h4 : setPrev H3 new (some x) = some _ := modify_eq hc3 _
  have hw4 := rewires_of_modify h4
  have hc4 := update_self new
    (some ({ c with next := first pr none, prev := some x } : Cell A (Option A))) H3
  generalize update H3 new _ = H4 at h4 hw4 hc4
  have hw : Rewires H H4 (new :: (keys pl ++ x :: keys pr)) := by
    refine (((hw1.mono ?_).trans (hw2.mono ?_)).trans (hw3.mono ?_)).trans (hw4.mono ?_)
    · simp
    · intro z hz
      have hz' : z ∈ keys pr := first_mem (mem_toList.mp hz)
      simp [hz']
    · simp
    · simp
  -- the segment they make
  have hjoined : Seg H4 none ((pl ++ [(x, v)]) ++ (new, c.val) :: pr) none := by
    refine seg_append.mpr ⟨seg_apart hsegl3 hw4 hnewl, ?_, seg_apart hsegr3 hw4 hnewr⟩
    rw [hc4, last_append]
    rfl
  have hkeys : keys ((pl ++ [(x, v)]) ++ (new, c.val) :: pr) = keys pl ++ x :: new :: keys pr := by
    simp
  have hnodup : (keys pl ++ x :: new :: keys pr).Nodup := by
    have hswap := List.Perm.append_left (keys pl) (List.Perm.swap new x (keys pr))
    rw [(hswap.trans perm_middle).nodup_iff, nodup_cons]
    exact ⟨hnew, h.nodup⟩
  obtain ⟨⟨z, u⟩, rest, hcons⟩ : ∃ q rest, (pl ++ [(x, v)]) ++ (new, c.val) :: pr = q :: rest :=
    exists_cons_of_ne_nil (by simp)
  have hhead : list = (keys pl ++ x :: new :: keys pr).head? := by
    rw [h.first]
    cases keys pl <;> rfl
  have hz : list = some z := by
    rw [hhead, ← hkeys, hcons]
    rfl
  have hcell : H x = some ⟨first pr none, last none pl, v⟩ := by
    have hx := (seg_append.mp hsegl).2.1
    exact hx
  have hbegin : appendRelative n H list new (some x) =
      (if first pr none = none then setLast H4 z (some new) else some H4).bind
        fun H => some (H, list) := by
    rw [hz]
    unfold appendRelative
    dsimp only
    rw [hcell]
    simp only [bind_eq_bind, bind_some, h1, h2]
    rw [show setNext H2 x (some new) = some H3 from h3]
    simp only [bind_some, h4, hc4]
    split <;> rfl
  rw [hbegin]
  by_cases hend : first pr none = none
  · obtain rfl := first_eq_none.mp hend
    rw [hcons] at hjoined
    rw [← hkeys, hcons] at hnodup
    obtain ⟨H5, h5, hlist, hw5⟩ := linked_setLast hjoined hnodup
    have hlast' : last (some z) rest = some new := by
      rw [← last_cons none (z, u), ← hcons, last_append]
      rfl
    rw [hlast'] at h5
    refine ⟨H5, ?_, ?_, hw.trans (hw5.mono ?_)⟩
    · rw [h5]
      rfl
    · rw [← hkeys, hcons, hz]
      exact hlist
    · intro y hy
      rw [mem_singleton.mp hy, mem_cons]
      have hmem : z ∈ keys pl ++ x :: keys ([] : List (A × Option A)) :=
        mem_of_mem_head? (by rw [← h.first, hz]; rfl)
      exact .inr hmem
  · rw [if_neg hend]
    refine ⟨H4, rfl, ?_, hw⟩
    rw [hhead]
    refine linked_of_seg hkeys hjoined hnodup ?_
    intro z u rest hcons
    obtain ⟨⟨z', u'⟩, front, hfront⟩ : ∃ q front, pl ++ [(x, v)] = q :: front :=
      exists_cons_of_ne_nil (by simp)
    rw [hfront] at hcons
    obtain ⟨hpair, -⟩ := cons.inj hcons
    have hold : pl ++ (x, v) :: pr = (z, u) :: (front ++ pr) := by
      rw [← singleton_append, ← append_assoc, hfront, hpair, cons_append]
    rw [hlast z u _ hold, last_append, last_append]
    exact last_congr (fun hnil => hend (first_eq_none.mpr hnil)) _ _

/-! ### Taking a node out -/

theorem clear_spec {c : Cell A (Option A)} (hc : H x = some c) :
    ∃ H', clear H x = some H' ∧ H' x = some ⟨none, none, c.val⟩ ∧ Rewires H H' [x] := by
  have h1 : setNext H x none = some _ := modify_eq hc _
  have hw1 := rewires_of_modify h1
  have hc1 := update_self x (some { c with next := none }) H
  generalize update H x _ = H1 at h1 hw1 hc1
  have h2 : setPrev H1 x none = some _ := modify_eq hc1 _
  refine ⟨_, ?_, update_self _ _ _, hw1.trans (rewires_of_modify h2)⟩
  rw [clear, h1, bind_some, h2]

theorem bypass_first {pr : List (A × Option A)} (hcell : H x = some ⟨first pr none, none, v⟩)
    (hv : v = last (some x) pr) (hseg : Seg H none pr none) (hnodup : (keys pr).Nodup)
    (hx : x ∉ keys pr) :
    ∃ H' H'', bypass H x x = some (H', first pr none) ∧ dropLast H' x x = some H'' ∧
      Linked H'' (keys pr).head? (keys pr) ∧ (∃ c, H'' x = some c) ∧
      Rewires H H'' (x :: keys pr) := by
  unfold bypass dropLast
  rw [hcell]
  cases pr with
  | nil =>
    obtain rfl : v = some x := hv
    have hset : setLast H x none = some _ := modify_eq hcell _
    have hw := rewires_of_modify hset
    have hc := update_self x (some (⟨none, none, none⟩ : Cell A (Option A))) H
    refine ⟨H, _, rfl, ?_, linked_nil, ⟨_, hc⟩, hw⟩
    rw [hcell]
    simp only [bind_some]
    exact hset
  | cons q qs =>
    obtain ⟨y, u⟩ := q
    obtain ⟨H', hset, hlist, hw⟩ := linked_setLast hseg hnodup
    have hv' : v = last (some y) qs := hv
    have hxy : x ∉ [y] := by
      simp only [keys_cons, mem_cons, not_or] at hx
      simpa using hx.1
    have hcell' : H' x = some ⟨first ((y, u) :: qs) none, none, v⟩ :=
      (hw.others x hxy).trans hcell
    have hne : v ≠ some x := by
      intro hvx
      rw [hv'] at hvx
      rcases last_mem hvx with hyx | hmem
      · obtain rfl := some.inj hyx
        exact hxy (by simp)
      · exact hx (mem_cons_of_mem _ hmem)
    refine ⟨H', H', ?_, ?_, hlist, ⟨_, hcell'⟩, hw.mono ?_⟩
    · simp only [first_cons, bind_some]
      rw [hv', hset]
      rfl
    · rw [hcell', bind_some, bind_some, if_neg hne]
    · simp

/-- A node in the middle is linked out. -/
theorem bypass_later {u : Option A} {z : A} {front pr : List (A × Option A)}
    (hcell : H x = some ⟨first pr none, last (some z) front, v⟩) (hu : u = last (some x) pr)
    (hseg : Seg H none ((z, u) :: front) (some x)) (hsegr : Seg H (last (some z) front) pr none)
    (hnodup : (keys ((z, u) :: front ++ pr)).Nodup) (hx : x ∉ keys ((z, u) :: front ++ pr)) :
    ∃ H' H'', bypass H z x = some (H', some z) ∧ dropLast H' z x = some H'' ∧
      Linked H'' (some z) (keys ((z, u) :: front ++ pr)) ∧ (∃ c, H'' x = some c) ∧
      Rewires H H'' (keys ((z, u) :: front ++ pr)) := by
  have hparts := hnodup
  rw [keys_append, nodup_append] at hparts
  obtain ⟨hnl, hnr, hlr⟩ := hparts
  rw [keys_append, mem_append, not_or] at hx
  obtain ⟨m, hm⟩ : ∃ m, last (some z) front = some m := by
    cases hl : last (some z) front with
    | none => exact absurd (last_eq_none.mp hl).1 (by simp)
    | some m => exact ⟨m, rfl⟩
  obtain ⟨H1, h1, hsegl1, hsame1⟩ := hseg.setNextOf hnl (first pr none)
  rw [last_cons, hm] at h1
  have hmem : m ∈ keys ((z, u) :: front) := by
    rcases last_mem hm with hm' | hm'
    · rw [some.inj hm']
      exact mem_cons_self
    · exact mem_cons_of_mem _ hm'
  have hw1 : Rewires H H1 (keys ((z, u) :: front ++ pr)) := by
    refine (rewires_setNextOf h1).mono fun y hy => ?_
    obtain rfl : y = m := by simpa using hy
    rw [keys_append]
    exact mem_append_left _ hmem
  have hcell1 : H1 x = some ⟨first pr none, last (some z) front, v⟩ :=
    (hsame1 x hx.1).trans hcell
  have hjoined : Seg H1 none ((z, u) :: (front ++ pr)) none := by
    refine seg_append.mpr ⟨hsegl1, ?_⟩
    exact hsegr.congr fun y hy => hsame1 y fun hy' => hlr y hy' y hy rfl
  have hbypass : bypass H z x = some (H1, some z) := by
    unfold bypass
    rw [hcell, bind_some, hm]
    dsimp only
    rw [show setNext H m (first pr none) = some H1 from h1]
    rfl
  have hdrop : dropLast H1 z x =
      if u = some x then setLast H1 z (last (some z) front) else some H1 := by
    unfold dropLast
    rw [hjoined.1, bind_some, hcell1, bind_some]
  rw [cons_append] at hnodup hw1 ⊢
  by_cases hend : u = some x
  · have hnil : pr = [] := by
      by_contra hne
      rw [hend] at hu
      rcases last_mem (p := none) ((last_congr hne _ _).trans hu.symm) with hbad | hbad
      · simp at hbad
      · exact hx.2 hbad
    subst hnil
    obtain ⟨H2, h2, hlist, hw2⟩ := linked_setLast hjoined hnodup
    rw [append_nil] at h2
    refine ⟨H1, H2, hbypass, ?_, hlist, ⟨_, (hw2.others x ?_).trans hcell1⟩,
      hw1.trans (hw2.mono ?_)⟩
    · rw [hdrop, if_pos hend, h2]
    · intro hxz
      rw [mem_singleton.mp hxz] at hx
      exact hx.1 mem_cons_self
    · simp
  · refine ⟨H1, H1, hbypass, by rw [hdrop, if_neg hend], ?_, ⟨_, hcell1⟩, hw1⟩
    have hne : pr ≠ [] := by
      rintro rfl
      exact hend hu
    refine linked_cons hjoined ?_ hnodup
    rw [hu, last_append]
    exact last_congr hne _ _

omit [DecidableEq A] in
theorem not_stray {head : A} (h : Linked H (some head) (l ++ x :: r)) :
    ¬(x ≠ head ∧ l.getLast? = none ∧ r.head? = none) := by
  rintro ⟨hne, hlast, -⟩
  obtain rfl := getLast?_eq_none_iff.mp hlast
  exact hne (some.inj h.first).symm

/-- **A node is taken out of the links of its list**, and keeps its own. -/
theorem unlink_spec (h : Linked H list (l ++ x :: r)) :
    ∃ head v H1 H2 H3, list = some head ∧ H x = some ⟨r.head?, l.getLast?, v⟩ ∧
      setPrevOf H r.head? l.getLast? = some H1 ∧ H1 x = H x ∧
      bypass H1 head x = some (H2, (l ++ r).head?) ∧ dropLast H2 head x = some H3 ∧
      Linked H3 (l ++ r).head? (l ++ r) ∧ (∃ c, H3 x = some c) ∧ Rewires H H3 (l ++ x :: r) := by
  obtain ⟨pl, v, pr, rfl, rfl, hsegl, hsegr, hlast⟩ := h.split
  obtain ⟨hsegl, hcell, -⟩ := seg_append.mp hsegl
  have hfirst : first pr none = (keys pr).head? := by rw [first_keys, or_none]
  have hlastl : last none pl = (keys pl).getLast? := by rw [last_keys, or_none]
  have hnodup := h.nodup
  rw [nodup_append, nodup_cons] at hnodup
  obtain ⟨hnl, ⟨hxr, hnr⟩, hlr⟩ := hnodup
  have hxl : x ∉ keys pl := fun hmem => hlr x hmem x mem_cons_self rfl
  have hnodup : (keys (pl ++ pr)).Nodup := by
    rw [keys_append, nodup_append]
    exact ⟨hnl, hnr, fun y hy z hz => hlr y hy z (mem_cons_of_mem _ hz)⟩
  have hx : x ∉ keys (pl ++ pr) := by simp [hxl, hxr]
  obtain ⟨H1, h1, hsegr1, hsame1⟩ := hsegr.setPrevOf hnr (last none pl)
  have hw1 : Rewires H H1 (keys pl ++ x :: keys pr) := by
    refine (rewires_setPrevOf h1).mono fun z hz => ?_
    have hz' : z ∈ keys pr := first_mem (mem_toList.mp hz)
    simp [hz']
  have hcell1 : H1 x = some ⟨first pr none, last none pl, v⟩ := (hsame1 x hxr).trans hcell
  have hsegl1 := hsegl.congr fun z hz => hsame1 z fun hz' =>
    hlr z hz z (mem_cons_of_mem _ hz') rfl
  obtain ⟨head, hhead⟩ : ∃ head, (keys pl ++ x :: keys pr).head? = some head := by
    cases pl <;> exact ⟨_, rfl⟩
  have hmiddle : ∃ H2 H3, bypass H1 head x = some (H2, (keys (pl ++ pr)).head?) ∧
      dropLast H2 head x = some H3 ∧ Linked H3 (keys (pl ++ pr)).head? (keys (pl ++ pr)) ∧
      (∃ c, H3 x = some c) ∧ Rewires H1 H3 (keys pl ++ x :: keys pr) := by
    cases pl with
    | nil =>
      obtain rfl : x = head := some.inj hhead
      obtain ⟨H2, H3, h2, h3, hlist, hc, hw⟩ :=
        bypass_first hcell1 (hlast x v pr rfl) hsegr1 hnr hxr
      refine ⟨H2, H3, ?_, h3, hlist, hc, hw⟩
      rw [h2, first_keys, or_none]
      rfl
    | cons q front =>
      obtain ⟨z, u⟩ := q
      obtain rfl : z = head := some.inj hhead
      have hu : u = last (some x) pr := by
        rw [hlast z u _ rfl, last_append]
        rfl
      obtain ⟨H2, H3, h2, h3, hlist, hc, hw⟩ :=
        bypass_later hcell1 hu hsegl1 hsegr1 hnodup hx
      refine ⟨H2, H3, h2, h3, hlist, hc, hw.mono ?_⟩
      intro y hy
      rw [keys_append, mem_append] at hy
      rcases hy with hy | hy
      · exact mem_append_left _ hy
      · exact mem_append_right _ (mem_cons_of_mem _ hy)
  obtain ⟨H2, H3, h2, h3, hlist, hc, hw3⟩ := hmiddle
  rw [← keys_append, ← hfirst, ← hlastl]
  exact ⟨head, v, H1, H2, H3, h.first.trans hhead, hcell, h1, hcell1.trans hcell.symm, h2, h3,
    hlist, hc, hw1.trans hw3⟩

theorem remove_spec (h : Linked H list (l ++ x :: r)) :
    ∃ H', remove H list x = some (H', (l ++ r).head?) ∧ Linked H' (l ++ r).head? (l ++ r) ∧
      Rewires H H' (l ++ x :: r) ∧ ∃ v, H' x = some ⟨none, none, v⟩ := by
  obtain ⟨head, v, H1, H2, H3, rfl, hcell, h1, -, h2, h3, hlist, ⟨c, hc⟩, hw⟩ := unlink_spec h
  obtain ⟨H4, h4, hc4, hw4⟩ := clear_spec hc
  have hx : x ∉ l ++ r := by
    have hnodup := h.nodup
    rw [nodup_middle, nodup_cons] at hnodup
    exact hnodup.1
  refine ⟨H4, ?_, ?_, hw.trans (hw4.mono (by simp)), ⟨c.val, hc4⟩⟩
  · unfold remove
    dsimp only
    rw [hcell, bind_some, if_neg (not_stray h), h1, bind_some, h2, bind_some,
      h3, bind_some, h4]
    rfl
  · refine hlist.rewires hw4 fun y hy hyx => ?_
    rw [mem_singleton.mp hyx] at hy
    exact hx hy

theorem remove_stray (hx : H x = some ⟨none, none, v⟩) (hne : list ≠ some x) :
    remove H list x = some (H, list) := by
  unfold remove
  cases list with
  | none => rfl
  | some head =>
    dsimp only
    rw [hx, bind_some, if_pos ⟨fun hxh => hne (by rw [hxh]), rfl, rfl⟩]

/-! ### Walking to the first node -/

end Eina.Inlist
