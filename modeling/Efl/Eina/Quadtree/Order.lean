/-
The order of the items in the nodes, and of what a collision returns.

A node that is flagged as sorted has its items in the order of their indices, if it is too
small to be halved; of a larger one this is known of the visible items only, since items come
to its end without being put in order.  `Tidy` says so of a whole tree.  Where the flags are
right a collision merges sorted lists.
-/
import Efl.Eina.Quadtree.Inv

namespace Eina.QuadTree

open Compare List Int

variable {Ω : Type} {item item' : Id → Item Ω} {id i : Id} {p : Path} {t : Root} {q : QuadTree Ω}
  {list : List Id} {ids : List Id} (cmp : Id → Int)

/-! ### The order of the indices -/

/-- The items stand in the order of their indices. -/
abbrev Ascending (item : Id → Item Ω) (ids : List Id) : Prop :=
  ids.Pairwise fun a b => (item a).index ≤ (item b).index

theorem itemCmp_pos {a b : Id} : 0 < itemCmp item a b ↔ (item b).index < (item a).index := by
  unfold itemCmp
  split
  · omega
  split
  · omega
  · omega

theorem total_itemCmp (item : Id → Item Ω) : Total (itemCmp item) := by
  refine ⟨fun a b => ?_, fun {a b c} hab hbc => ?_⟩
  · rw [itemCmp_neg, itemCmp_pos]
  · have hab' := mt itemCmp_pos.mpr (not_lt.mpr hab)
    have hbc' := mt itemCmp_pos.mpr (not_lt.mpr hbc)
    exact not_lt.mp (mt itemCmp_pos.mp (by omega))

theorem sorted_iff : Sorted (itemCmp item) ids ↔ Ascending item ids := by
  refine pairwise_iff_forall_sublist.trans (trans ?_ pairwise_iff_forall_sublist.symm)
  refine forall_congr' fun a => forall_congr' fun b => forall_congr' fun _ => ?_
  rw [← not_lt, itemCmp_pos, not_lt]

theorem ascending_sort (ids : List Id) : Ascending item (Lists.sort (itemCmp item) ids) :=
  sorted_iff.mp (Lists.sort_sorted (total_itemCmp item) ids)

theorem ascending_congr (h : ∀ i ∈ ids, (item' i).index = (item i).index)
    (hids : Ascending item ids) : Ascending item' ids := by
  refine hids.imp_of_mem fun {a b} ha hb hab => ?_
  rwa [h a ha, h b hb]

/-! ### Inserting in order -/

/-- Where the search stops, no neighbour speaks against the place. -/
def Near (cmp : Id → Int) (list : List Id) (found : Nat × Int) : Prop :=
  found.1 < list.length ∧ found.2 = cmp (list.getD found.1 0) ∧
    (found.2 < 0 → found.1 + 1 < list.length → 0 ≤ cmp (list.getD (found.1 + 1) 0)) ∧
    (0 < found.2 → ∀ k, found.1 = k + 1 → cmp (list.getD k 0) ≤ 0)

theorem sortedNearLoop_near (list : List Id) (fuel : Nat) {inf sup : Nat}
    {found : Nat × Int} (hinf : 0 < inf) (hsup : sup + 1 < list.length) (hfuel : sup < inf + fuel)
    (hlow : cmp (list.getD (inf - 1) 0) < 0) (hhigh : 0 < cmp (list.getD (sup + 1) 0))
    (hfound : sup < inf → Near cmp list found) :
    Near cmp list (sortedNearLoop cmp list fuel inf sup found) := by
  induction fuel generalizing inf sup found with
  | zero =>
    exact hfound (by omega)
  | succ fuel ih =>
    rw [sortedNearLoop]
    by_cases hend : sup < inf
    · rw [if_pos hend]
      exact hfound hend
    rw [if_neg hend]
    generalize hcur : inf + (sup - inf) / 2 = cur
    by_cases hzero : cmp (list.getD cur 0) = 0
    · rw [if_pos hzero]
      refine ⟨by dsimp only; omega, rfl, fun h => ?_, fun h => ?_⟩
      · exact absurd h (by dsimp only; omega)
      · exact absurd h (by dsimp only; omega)
    rw [if_neg hzero]
    by_cases hneg : cmp (list.getD cur 0) < 0
    · rw [if_pos hneg]
      refine ih (by omega) hsup (by omega) (by rwa [Nat.add_sub_cancel]) hhigh fun hlast => ?_
      obtain rfl : cur = sup := by omega
      refine ⟨by dsimp only; omega, rfl, fun _ _ => le_of_lt hhigh, fun h => ?_⟩
      exact absurd hneg (not_lt.mpr (le_of_lt h))
    rw [if_neg hneg, if_pos (by omega)]
    have hpred : cur - 1 + 1 = cur := by omega
    refine ih hinf (by omega) (by omega) hlow (by rw [hpred]; omega) fun hlast => ?_
    refine ⟨by dsimp only; omega, rfl, fun h => absurd h hneg, fun _ k hk => ?_⟩
    obtain rfl : k = inf - 1 := by omega
    exact le_of_lt hlow

/-- The binary search ends next to the place. -/
theorem sortedNear_near (hne : list ≠ []) :
    Near cmp list (sortedNear cmp list) := by
  have hpos : 0 < list.length := length_pos_iff.mpr hne
  unfold sortedNear
  by_cases hone : list.length = 1
  · rw [if_pos hone]
    refine ⟨hpos, rfl, fun _ h => absurd h (by dsimp only; omega), fun _ k hk => ?_⟩
    exact absurd hk (by dsimp only; omega)
  rw [if_neg hone]
  by_cases hlast : cmp (list.getD (list.length - 1) 0) ≤ 0
  · rw [if_pos hlast]
    refine ⟨by dsimp only; omega, rfl, fun _ h => absurd h (by dsimp only; omega), fun h => ?_⟩
    exact absurd hlast (not_le.mpr h)
  rw [if_neg hlast]
  by_cases hfirst : 0 ≤ cmp (list.getD 0 0)
  · rw [if_pos hfirst]
    refine ⟨hpos, rfl, fun h => absurd h (not_lt.mpr hfirst), fun _ k hk => ?_⟩
    exact absurd hk (by dsimp only; omega)
  rw [if_neg hfirst]
  by_cases htwo : list.length - 2 < 1
  · rw [if_pos htwo]
    refine ⟨by dsimp only; omega, rfl, fun _ h => absurd h (by dsimp only; omega), fun _ k hk => ?_⟩
    obtain rfl : k = 0 := by dsimp only at hk; omega
    omega
  rw [if_neg htwo]
  have hend : list.length - 2 + 1 = list.length - 1 := by omega
  refine sortedNearLoop_near cmp list list.length Nat.one_pos (by omega) (by omega) ?_ ?_ ?_
  · rw [Nat.sub_self]
    omega
  · rw [hend]
    omega
  · intro h
    exact absurd h (by omega)

theorem insertIdx_eq (list : List Id) (id : Id) {k : Nat} (hk : k ≤ list.length) :
    list.insertIdx k id = list.take k ++ id :: list.drop k := by
  induction k generalizing list with
  | zero => simp
  | succ k ih =>
    cases list with
    | nil => simp at hk
    | cons a list => simp [ih list (by simpa using hk)]

/-- **Inserting into a list in order keeps it in order.** -/
theorem ascending_sortedInsert (h : Ascending item list) (id : Id) :
    Ascending item (sortedInsert item list id) := by
  unfold sortedInsert
  split
  · exact pairwise_singleton _ _
  rename_i hne
  have hnear := sortedNear_near (fun i => itemCmp item i id) hne
  generalize sortedNear (fun i => itemCmp item i id) list = found at hnear ⊢
  obtain ⟨place, cmp⟩ := found
  obtain ⟨hplace, hcmp, hafter, hbefore⟩ := hnear
  dsimp only at hplace hcmp hafter hbefore ⊢
  have hget : ∀ {k : Nat} {y : Id}, list[k]? = some y → list.getD k 0 = y := by
    intro k y hy
    rw [getD_eq_getElem?_getD, hy, Option.getD_some]
  have hsorted := sorted_iff.mpr h
  by_cases hneg : cmp < 0
  · rw [if_pos hneg, insertIdx_eq _ _ hplace]
    refine sorted_iff.mp (Belongs.sorted (total_itemCmp item) hplace ⟨?_, ?_⟩ hsorted)
    · intro k y hk hy
      obtain rfl : k = place := by omega
      rw [← hget hy, ← hcmp]
      exact le_of_lt hneg
    · intro y hy
      obtain ⟨hin, -⟩ := List.getElem?_eq_some_iff.mp hy
      rw [← hget hy]
      exact hafter hneg hin
  · rw [if_neg hneg, insertIdx_eq _ _ (le_of_lt hplace)]
    have hle := le_of_lt hplace
    refine sorted_iff.mp (Belongs.sorted (total_itemCmp item) hle ⟨?_, ?_⟩ hsorted)
    · intro k y hk hy
      by_cases hpos : 0 < cmp
      · rw [← hget hy]
        exact hbefore hpos k hk
      -- an equal item stands at the place, and what is before it is no greater
      obtain ⟨z, hz⟩ : ∃ z, list[place]? = some z := ⟨_, getElem?_eq_getElem hplace⟩
      refine (answers_mono (total_itemCmp item) hsorted (by omega) hy hz).2 ?_
      rw [← hget hz]
      omega
    · intro y hy
      rw [← hget hy]
      omega

/-! ### Trees whose flags are right -/

/-- What the flag of a node says about its items: it looks at all of them in a node that is not
halved, and at the visible ones in any other. -/
def known (item : Id → Item Ω) (direction : Bool) (size : Rectangle) (both : List Id) : List Id :=
  if middle direction size ≤ 4 then both else both.filter fun i => (item i).visible

/-- The nodes that are flagged as sorted are. -/
def Tidy (item : Id → Item Ω) : Bool → Rectangle → Root → Prop
  | _, _, .nil => True
  | direction, size, .node left right both sorted =>
    (sorted = true → Ascending item (known item direction size both)) ∧
      Tidy item (!direction) (half direction false size) left ∧
      Tidy item (!direction) (half direction true size) right

variable {direction : Bool} {size : Rectangle}

theorem Tidy.parts (h : Tidy item direction size t) :
    (t.sorted = true → Ascending item (known item direction size t.both)) ∧
      Tidy item (!direction) (half direction false size) t.left ∧
      Tidy item (!direction) (half direction true size) t.right := by
  cases t with
  | nil =>
    refine ⟨fun _ => ?_, trivial, trivial⟩
    unfold known
    split
    · exact List.Pairwise.nil
    · exact List.Pairwise.nil
  | node left right both sorted => exact h

variable {both : List Id}

theorem known_sublist {both' : List Id} (h : both'.Sublist both) :
    (known item direction size both').Sublist
      (known item direction size both) := by
  unfold known
  split
  · exact h
  · exact h.filter _

theorem known_congr (hindex : ∀ i ∈ both, (item' i).index = (item i).index)
    (hvisible : ∀ i ∈ both, (item' i).visible = true → (item i).visible = true)
    (h : Ascending item (known item direction size both)) :
    Ascending item' (known item' direction size both) := by
  unfold known at h ⊢
  split
  · rename_i hle
    rw [if_pos hle] at h
    exact ascending_congr hindex h
  rename_i hle
  rw [if_neg hle] at h
  have hfewer : (both.filter fun i => (item i).visible).filter (fun i => (item' i).visible) =
      both.filter fun i => (item' i).visible := by
    rw [filter_filter]
    refine filter_congr fun i hi => ?_
    cases hv : (item' i).visible with
    | false => rfl
    | true => rw [hvisible i hi hv]; rfl
  rw [← hfewer]
  refine ascending_congr (fun i hi => hindex i ?_) (h.sublist filter_sublist)
  exact mem_of_mem_filter (mem_of_mem_filter hi)

theorem tidy_congr (hindex : ∀ i p, Root.At i p t → (item' i).index = (item i).index)
    (hvisible : ∀ i p, Root.At i p t → (item' i).visible = true → (item i).visible = true)
    (h : Tidy item direction size t) : Tidy item' direction size t := by
  induction t generalizing direction size with
  | nil => trivial
  | node left right both sorted ihl ihr =>
    obtain ⟨hboth, hl, hr⟩ := h
    refine ⟨fun hsorted => ?_, ihl (fun i p => hindex i (false :: p))
      (fun i p => hvisible i (false :: p)) hl, ihr (fun i p => hindex i (true :: p))
      (fun i p => hvisible i (true :: p)) hr⟩
    exact known_congr (fun i hi => hindex i [] hi) (fun i hi => hvisible i [] hi) (hboth hsorted)

theorem tidy_removeAt (h : Tidy item direction size t) :
    Tidy item direction size (Root.removeAt id p t) := by
  induction t generalizing p direction size with
  | nil => rwa [Root.removeAt]
  | node left right both sorted ihl ihr =>
    obtain ⟨hboth, hl, hr⟩ := h
    rcases p with - | ⟨- | -, p⟩
    · rw [Root.removeAt]
      split
      · trivial
      · exact ⟨fun hsorted => (hboth hsorted).sublist (known_sublist erase_sublist), hl, hr⟩
    · exact ⟨hboth, ihl hl, hr⟩
    · exact ⟨hboth, hl, ihr hr⟩

theorem tidy_unsort (hother : ∀ i ≠ id, (item' i).index = (item i).index)
    (hvisible : ∀ i, (item' i).visible = (item i).visible) (hplace : ∀ p', Root.At id p' t → p' = p)
    (h : Tidy item direction size t) :
    Tidy item' direction size (Root.unsort p t) := by
  induction t generalizing p direction size with
  | nil => rwa [Root.unsort]
  | node left right both sorted ihl ihr =>
    obtain ⟨hboth, hl, hr⟩ := h
    -- a part without the item is as before
    have hkeep : ∀ {t' : Root} {d : Bool} {s : Rectangle}, (∀ p', ¬Root.At id p' t') →
        Tidy item d s t' → Tidy item' d s t' := by
      intro t' d s hnot ht
      refine tidy_congr (fun i p' hi => hother i ?_) (fun i _ _ hv => ?_) ht
      · rintro rfl
        exact hnot p' hi
      · rwa [hvisible] at hv
    have hhere : p ≠ [] → sorted = true → Ascending item' (known item' direction size both) := by
      intro hne hsorted
      refine known_congr (fun i hi => hother i ?_) (fun i _ hv => ?_) (hboth hsorted)
      · rintro rfl
        exact hne (hplace [] hi).symm
      · rwa [hvisible] at hv
    rcases p with - | ⟨- | -, p⟩
    · refine ⟨fun hbad => absurd hbad (by simp), hkeep (fun p' hp => ?_) hl,
        hkeep (fun p' hp => ?_) hr⟩
      · exact absurd (hplace (false :: p') hp) (by simp)
      · exact absurd (hplace (true :: p') hp) (by simp)
    · refine ⟨hhere (by simp), ihl (fun p' hp => ?_) hl, hkeep (fun p' hp => ?_) hr⟩
      · exact (cons.inj (hplace (false :: p') hp)).2
      · exact absurd (hplace (true :: p') hp) (by simp)
    · refine ⟨hhere (by simp), hkeep (fun p' hp => ?_) hl, ihr (fun p' hp => ?_) hr⟩
      · exact absurd (hplace (false :: p') hp) (by simp)
      · exact (cons.inj (hplace (true :: p') hp)).2

/-! ### Colliding -/

variable {sorted : Bool} {result : List Id}

theorem ascending_visible (h : sorted = true → Ascending item (known item direction size both)) :
    Ascending item ((ordered item both sorted).filter fun i => (item i).visible) := by
  cases sorted with
  | false =>
    exact (ascending_sort both).filter _
  | true =>
    have hknown := h rfl
    unfold known at hknown
    split at hknown
    · exact hknown.filter _
    · exact hknown

theorem nodup_ordered (h : both.Nodup) :
    (ordered item both sorted).Nodup := by
  unfold ordered
  split
  · exact h
  · exact (Lists.sort_perm _ both).nodup_iff.mpr h

theorem mergeBy_perm {index : Id → Nat} {xs ys : List Id} :
    (mergeBy index xs ys).Perm (xs ++ ys) := by
  fun_induction mergeBy index xs ys with
  | case1 ys => exact List.Perm.refl _
  | case2 xs h => rw [append_nil]
  | case3 x xs y ys hlt ih => exact ih.cons x
  | case4 x xs y ys hlt ih => exact (ih.cons y).trans perm_middle.symm

theorem tidy_ordered (h : sorted = true → Ascending item (known item direction size both)) :
    Ascending item (known item direction size (ordered item both sorted)) := by
  cases sorted with
  | false =>
    unfold known
    split
    · exact ascending_sort both
    · exact (ascending_sort both).filter _
  | true =>
    exact h rfl

/-- **A collision merges in order**, and leaves flags that are right. -/
theorem collideTree_ascending (target : Rectangle)
    (h : Tidy item direction size t) (hresult : Ascending item result) :
    Ascending item (collideTree item result direction size target t).1 ∧
      Tidy item direction size (collideTree item result direction size target t).2 := by
  induction t generalizing result direction size with
  | nil => exact ⟨hresult, trivial⟩
  | node left right both sorted ihl ihr =>
    obtain ⟨hboth, hl, hr⟩ := h
    have hmerge : Ascending item (merge item result (ordered item both sorted)) := by
      rw [merge_eq]
      exact mergeBy_ordered hresult (ascending_visible hboth)
    rw [collideTree]
    dsimp only
    have hnode : true = true → Ascending item (known item direction size
        (ordered item both sorted)) := fun _ => tidy_ordered hboth
    by_cases hml : meets direction false size target = true
    · obtain ⟨hleft, hleft'⟩ := ihl hl hmerge
      rw [if_pos hml]
      by_cases hmr : meets direction true size target = true
      · obtain ⟨hright, hright'⟩ := ihr hr hleft
        rw [if_pos hmr]
        exact ⟨hright, hnode, hleft', hright'⟩
      · rw [if_neg hmr]
        exact ⟨hleft, hnode, hleft', hr⟩
    · rw [if_neg hml]
      by_cases hmr : meets direction true size target = true
      · obtain ⟨hright, hright'⟩ := ihr hr hmerge
        rw [if_pos hmr]
        exact ⟨hright, hnode, hl, hright'⟩
      · rw [if_neg hmr]
        exact ⟨hmerge, hnode, hl, hr⟩

/-- No item is collected twice. -/
theorem nodup_collideTree (item : Id → Item Ω) (target : Rectangle)
    (hdistinct : Root.Distinct t) (hone : ∀ i p p', Root.At i p t → Root.At i p' t → p = p')
    (hresult : result.Nodup) (hnew : ∀ i ∈ result, ∀ p, ¬Root.At i p t) :
    (collideTree item result direction size target t).1.Nodup := by
  induction t generalizing result direction size with
  | nil => exact hresult
  | node left right both sorted ihl ihr =>
    obtain ⟨hboth, hdl, hdr⟩ := hdistinct
    have honel : ∀ i p p', Root.At i p left → Root.At i p' left → p = p' := fun i p p' h h' =>
      (cons.inj (hone i (false :: p) (false :: p') h h')).2
    have honer : ∀ i p p', Root.At i p right → Root.At i p' right → p = p' := fun i p p' h h' =>
      (cons.inj (hone i (true :: p) (true :: p') h h')).2
    have hmerge : (merge item result (ordered item both sorted)).Nodup := by
      rw [merge_eq, mergeBy_perm.nodup_iff, nodup_append]
      refine ⟨hresult, (nodup_ordered hboth).filter _, ?_⟩
      rintro i hi j hj rfl
      exact hnew i hi [] ((mem_ordered both sorted).mp (mem_of_mem_filter hj))
    have hmem {i : Id} (hi : i ∈ merge item result (ordered item both sorted)) :
        i ∈ result ∨ i ∈ both := by
      rcases (mem_merge _ _).mp hi with hi | hi
      · exact .inl hi
      · exact Or.inr ((mem_ordered both sorted).mp hi.1)
    rw [collideTree]
    dsimp only
    generalize merge item result (ordered item both sorted) = merged at hmerge hmem
    -- what was found so far is in neither half
    have hnewl : ∀ i ∈ merged, ∀ p, ¬Root.At i p left := by
      intro i hi p hat
      rcases hmem hi with hi | hi
      · exact hnew i hi (false :: p) hat
      · exact absurd (hone i [] (false :: p) hi hat) (by simp)
    have hnewr : ∀ i ∈ merged, ∀ p, ¬Root.At i p right := by
      intro i hi p hat
      rcases hmem hi with hi | hi
      · exact hnew i hi (true :: p) hat
      · exact absurd (hone i [] (true :: p) hi hat) (by simp)
    by_cases hml : meets direction false size target = true
    · have hleft : (collideTree item merged (!direction) (half direction false size) target
          left).1.Nodup := ihl hdl honel hmerge hnewl
      rw [if_pos hml]
      by_cases hmr : meets direction true size target = true
      · rw [if_pos hmr]
        refine ihr hdr honer hleft fun i hi p hat => ?_
        rcases (mem_collideTree item target left _ _ _).mp hi with hi | ⟨p', -, hi, -⟩
        · exact hnewr i hi p hat
        · exact absurd (hone i (false :: p') (true :: p) hi hat) (by simp)
      · rw [if_neg hmr]
        exact hleft
    · rw [if_neg hml]
      by_cases hmr : meets direction true size target = true
      · rw [if_pos hmr]
        exact ihr hdr honer hmerge hnewr
      · rw [if_neg hmr]
        exact hmerge

end Eina.QuadTree
