/-
The order of the list of a collision.

Merging a node into the list is the merge of two lists by the index, of which the second one
goes first where the indices are the same.  So the list depends only on the indices and on
what is visible in the nodes a collision visits, and an item that is hidden just drops out of
it when the nodes are in order.
-/
import Efl.Eina.Quadtree.Tree

namespace Eina.QuadTree

open List Bool

variable {Ω : Type} {item item' : Id → Item Ω} {id i : Id} {p : Path} {t : Root}

/-- Two lists merged by a number. -/
def mergeBy (index : Id → Nat) : List Id → List Id → List Id
  | [], ys => ys
  | xs, [] => xs
  | x :: xs, y :: ys =>
    if index x < index y then x :: mergeBy index xs (y :: ys) else y :: mergeBy index (x :: xs) ys
  termination_by xs ys => xs.length + ys.length

variable {index : Id → Nat} {ys : List Id}

@[simp] theorem mergeBy_nil_left : mergeBy index [] ys = ys := by
  rw [mergeBy]

variable {xs : List Id} (target : Rectangle)

@[simp] theorem mergeBy_nil_right : mergeBy index xs [] = xs := by
  cases xs with
  | nil => rw [mergeBy]
  | cons x xs => rw [mergeBy]; simp

theorem itemCmp_neg {a b : Id} : itemCmp item a b < 0 ↔ (item a).index < (item b).index := by
  unfold itemCmp
  split
  · omega
  split
  · omega
  · omega

theorem mergeLoop_spec (item : Id → Item Ω) (moving both : List Id) :
    let index := fun i => (item i).index
    let visible := fun i => (item i).visible
    (mergeLoop item moving both).1 ++ (mergeLoop item moving both).2.filter visible =
        mergeBy index moving (both.filter visible) ∧
      ∀ last, (last ∈ moving.getLast?) → last ∈ (mergeLoop item moving both).1.getLast? ∧
        ∀ b rest, (mergeLoop item moving both).2 = b :: rest →
          visible b = true ∧ index last < index b := by
  dsimp only
  fun_induction mergeLoop item moving both with
  | case1 both => simp
  | case2 m moving => simp
  | case3 m moving b both hb ih =>
    rw [filter_cons_of_neg (by simpa using hb)]
    exact ih
  | case4 m moving b both hb hlt list rest heq ih =>
    rw [heq] at ih
    simp only [Decidable.not_not] at hb
    rw [itemCmp_neg] at hlt
    obtain ⟨hlist, hlast⟩ := ih
    have hcons : (b :: both).filter (fun i => (item i).visible) =
        b :: both.filter fun i => (item i).visible := filter_cons_of_pos hb
    rw [hcons] at hlist ⊢
    constructor
    · rw [mergeBy, if_pos hlt, ← hlist]
      rfl
    · intro last hmem
      cases moving with
      | nil =>
        -- the last one of the list was less than `b`, and `b` is what is left
        simp only [getLast?_singleton, Option.mem_def, Option.some.injEq] at hmem
        subst hmem
        rw [mergeLoop] at heq
        obtain ⟨rfl, rfl⟩ := Prod.mk.inj heq
        refine ⟨by simp, ?_⟩
        intro b' rest' h
        obtain ⟨rfl, -⟩ := cons.inj h
        exact ⟨hb, hlt⟩
      | cons m' moving =>
        obtain ⟨h1, h2⟩ := hlast last hmem
        refine ⟨?_, h2⟩
        rw [getLast?_cons, h1]
        rfl
  | case5 m moving b both hb hlt list rest heq ih =>
    rw [heq] at ih
    simp only [Decidable.not_not] at hb
    rw [itemCmp_neg] at hlt
    obtain ⟨hlist, hlast⟩ := ih
    have hcons : (b :: both).filter (fun i => (item i).visible) =
        b :: both.filter fun i => (item i).visible := filter_cons_of_pos hb
    rw [hcons]
    constructor
    · rw [mergeBy, if_neg hlt, ← hlist]
      rfl
    · intro last hmem
      obtain ⟨h1, h2⟩ := hlast last hmem
      refine ⟨?_, h2⟩
      rw [getLast?_cons, h1]
      rfl

theorem merge_eq (result both : List Id) : merge item result both =
    mergeBy (fun i => (item i).index) result (both.filter fun i => (item i).visible) := by
  unfold merge
  split
  · rename_i hnil
    rw [hnil, mergeBy_nil_left]
  rename_i hne
  obtain ⟨hlist, hlast⟩ := mergeLoop_spec item result both
  generalize mergeLoop item result both = parts at hlist hlast ⊢
  obtain ⟨list, rest⟩ := parts
  dsimp only at hlist hlast ⊢
  obtain ⟨last, hmem⟩ : ∃ last, last ∈ result.getLast? :=
    ⟨_, getLast?_eq_some_getLast hne⟩
  obtain ⟨hend, hrest⟩ := hlast last hmem
  rw [hend]
  dsimp only
  have hstop : mergeLast item last list.dropLast rest = (list.dropLast, rest) := by
    cases rest with
    | nil => rw [mergeLast]
    | cons b rest =>
      obtain ⟨hb, hlt⟩ := hrest b rest rfl
      rw [mergeLast, if_neg (by simpa using hb), if_pos (itemCmp_neg.mpr hlt)]
  rw [hstop]
  rw [← hlist]
  obtain ⟨front, rfl⟩ := getLast?_eq_some_iff.mp hend
  simp

/-! ### What the list depends on -/

theorem mem_mergeBy :
    i ∈ mergeBy index xs ys ↔ i ∈ xs ∨ i ∈ ys := by
  fun_induction mergeBy index xs ys with
  | case1 ys => simp
  | case2 xs h => simp
  | case3 x xs y ys hlt ih =>
    simp only [mem_cons] at ih ⊢
    tauto
  | case4 x xs y ys hlt ih =>
    simp only [mem_cons] at ih ⊢
    tauto

theorem mergeBy_congr {index' : Id → Nat} (hx : ∀ i ∈ xs, index i = index' i)
    (hy : ∀ i ∈ ys, index i = index' i) : mergeBy index xs ys = mergeBy index' xs ys := by
  fun_induction mergeBy index xs ys with
  | case1 ys => rw [mergeBy_nil_left]
  | case2 xs h => rw [mergeBy_nil_right]
  | case3 x xs y ys hlt ih =>
    rw [hx x mem_cons_self, hy y mem_cons_self] at hlt
    rw [mergeBy, if_pos hlt, ih (fun i hi => hx i (mem_cons_of_mem _ hi)) hy]
  | case4 x xs y ys hlt ih =>
    rw [hx x mem_cons_self, hy y mem_cons_self] at hlt
    rw [mergeBy, if_neg hlt, ih hx (fun i hi => hy i (mem_cons_of_mem _ hi))]

/-- The nodes a collision visits are marked as sorted. -/
def Settled (target : Rectangle) (direction : Bool) : Rectangle → Root → Prop
  | _, .nil => True
  | size, .node left right _ sorted => sorted = true ∧
      (meets direction false size target = true →
        Settled target (!direction) (half direction false size) left) ∧
      (meets direction true size target = true →
        Settled target (!direction) (half direction true size) right)

theorem settled_collideTree (item : Id → Item Ω) (target : Rectangle) : ∀ (t : Root)
    (result : List Id) (direction : Bool)
    (size : Rectangle),
      Settled target direction size (collideTree item result direction size target t).2 := by
  intro t
  induction t with
  | nil =>
    intro result direction size
    trivial
  | node left right both sorted ihl ihr =>
    intro result direction size
    by_cases hl : meets direction false size target = true <;>
      by_cases hr : meets direction true size target = true <;>
        simp [collideTree, Settled, hl, hr, ihl, ihr]

/-- Two item tables agree where a collision looks. -/
def Agree (item item' : Id → Item Ω) (i : Id) : Prop :=
  (item i).index = (item' i).index ∧ (item i).visible = (item' i).visible

theorem collideTree_congr : ∀ (t : Root) (result : List Id) (direction : Bool)
    (size : Rectangle), Settled target direction size t → (∀ i ∈ result, Agree item item' i) →
      (∀ i p, Visits target direction p size → Root.At i p t → Agree item item' i) →
      (collideTree item result direction size target t).1 =
        (collideTree item' result direction size target t).1 := by
  intro t
  induction t with
  | nil =>
    intro result direction size _ _ _
    rfl
  | node left right both sorted ihl ihr =>
    intro result direction size hsettled hresult hagree
    obtain ⟨rfl, hl, hr⟩ := hsettled
    have hboth : ∀ i ∈ both, Agree item item' i := fun i hi => hagree i [] trivial hi
    have hmerge : merge item result both = merge item' result both := by
      rw [merge_eq, merge_eq]
      have hfilter : both.filter (fun i => (item i).visible) =
          both.filter fun i => (item' i).visible :=
        filter_congr fun i hi => (hboth i hi).2
      rw [hfilter]
      refine mergeBy_congr (fun i hi => (hresult i hi).1) fun i hi => ?_
      exact (hboth i (mem_filter.mp hi).1).1
    have hmerged : ∀ i ∈ merge item' result both, Agree item item' i := by
      intro i hi
      rcases (mem_merge result both).mp hi with hi | hi
      · exact hresult i hi
      · exact hboth i hi.1
    simp only [collideTree, ordered, if_true, hmerge]
    have hleft (hm : meets direction false size target = true) :
        (collideTree item (merge item' result both) (!direction) (half direction false size) target
          left).1 = (collideTree item' (merge item' result both) (!direction)
            (half direction false size) target left).1 :=
      ihl _ _ _ (hl hm) hmerged fun i p hv hat => hagree i (false :: p) ⟨hm, hv⟩ hat
    have hafter (hm : meets direction false size target = true) :
        ∀ i ∈ (collideTree item' (merge item' result both) (!direction)
          (half direction false size) target left).1, Agree item item' i := by
      intro i hi
      rcases (mem_collideTree _ target left _ _ _).mp hi with hi | ⟨p, hv, hat, -⟩
      · exact hmerged i hi
      · exact hagree i (false :: p) ⟨hm, hv⟩ hat
    by_cases hml : meets direction false size target = true
    · by_cases hmr : meets direction true size target = true
      · simp only [hml, hmr, if_true, hleft hml]
        exact ihr _ _ _ (hr hmr) (hafter hml) fun i p hv hat => hagree i (true :: p) ⟨hmr, hv⟩ hat
      · simp only [hml, hmr, if_true, if_false, false_eq_true, hleft hml]
    · by_cases hmr : meets direction true size target = true
      · simp only [hml, hmr]
        exact ihr _ _ _ (hr hmr) hmerged fun i p hv hat => hagree i (true :: p) ⟨hmr, hv⟩ hat
      · simp only [hml, hmr, if_false, false_eq_true]

/-! ### Removing an item a collision does not show -/

theorem settled_removeAt {target : Rectangle} : ∀ (t : Root) (p : Path) (direction : Bool)
    (size : Rectangle), Settled target direction size t →
      Settled target direction size (Root.removeAt id p t) := by
  intro t
  induction t with
  | nil =>
    intro p direction size h
    rw [Root.removeAt]
    exact h
  | node left right both sorted ihl ihr =>
    intro p direction size h
    obtain ⟨hsorted, hl, hr⟩ := h
    rcases p with - | ⟨- | -, p⟩
    · simp only [Root.removeAt]
      split
      · trivial
      · exact ⟨hsorted, hl, hr⟩
    · exact ⟨hsorted, fun hm => ihl p _ _ (hl hm), hr⟩
    · exact ⟨hsorted, hl, fun hm => ihr p _ _ (hr hm)⟩

theorem filter_erase (item : Id → Item Ω) {both : List Id} (hnodup : both.Nodup)
    (hid : id ∈ both → (item id).visible = false) :
    (both.erase id).filter (fun i => (item i).visible) = both.filter fun i => (item i).visible := by
  rw [hnodup.erase_eq_filter, filter_filter]
  apply filter_congr
  intro i hi
  by_cases hne : i = id
  · rw [hne, hid (by rw [← hne]; exact hi)]
    rfl
  · simp [hne]

theorem collideTree_removeAt : ∀ (t : Root) (p : Path) (result : List Id)
    (direction : Bool) (size : Rectangle), Settled target direction size t → Root.Distinct t →
      (Visits target direction p size → Root.At id p t → (item id).visible = false) →
      (collideTree item result direction size target (Root.removeAt id p t)).1 =
        (collideTree item result direction size target t).1 := by
  intro t
  induction t with
  | nil =>
    intro p result direction size _ _ _
    rw [Root.removeAt]
  | node left right both sorted ihl ihr =>
    intro p result direction size hsettled hdistinct hid
    obtain ⟨rfl, hl, hr⟩ := hsettled
    rcases p with - | ⟨- | -, p⟩
    · have hfilter := filter_erase item hdistinct.1 (hid trivial)
      have hmerge : merge item result (both.erase id) = merge item result both := by
        rw [merge_eq, merge_eq, hfilter]
      simp only [Root.removeAt]
      split
      · rename_i hnone
        obtain ⟨hboth, hnl, hnr⟩ := hnone
        cases left with
        | node => simp [Root.isNil] at hnl
        | nil =>
          cases right with
          | node => simp [Root.isNil] at hnr
          | nil =>
            rw [hboth] at hmerge
            have hsame : merge item result [] = result := by
              rw [merge_eq, filter_nil, mergeBy_nil_right]
            simp [collideTree, ordered, ← hmerge, hsame]
      · simp only [collideTree, ordered, if_true, hmerge]
    · simp only [Root.removeAt, collideTree, ordered]
      by_cases hm : meets direction false size target = true
      · have hsub := ihl p (merge item result both) (!direction) (half direction false size) (hl hm)
          hdistinct.2.1 fun hv hat => hid ⟨hm, hv⟩ hat
        by_cases hm' : meets direction true size target = true
        · simp only [hm, if_true, hsub]
        · simp only [hm, hm', if_true, hsub]
      · by_cases hm' : meets direction true size target = true
        · simp only [hm, if_false, false_eq_true]
        · simp only [hm, if_false, false_eq_true]
    · simp only [Root.removeAt, collideTree]
      by_cases hm : meets direction true size target = true
      · have hsub (result : List Id) := ihr p result (!direction) (half direction true size) (hr hm)
          hdistinct.2.2 fun hv hat => hid ⟨hm, hv⟩ hat
        by_cases hm' : meets direction false size target = true
        · simp only [hm, if_true, hsub]
        · simp only [hm, if_true, hsub]
      · by_cases hm' : meets direction false size target = true
        · simp only [hm, if_false, false_eq_true]
        · simp only [hm, if_false, false_eq_true]

/-! ### Hiding an item where the nodes are in order -/

/-- The items of every node stand in the order of their indices. -/
def InOrder (item : Id → Item Ω) : Root → Prop
  | .nil => True
  | .node left right both sorted =>
    (ordered item both sorted).Pairwise (fun a b => (item a).index ≤ (item b).index) ∧
      InOrder item left ∧ InOrder item right

instance decidableInOrder : (t : Root) → Decidable (InOrder item t)
  | .nil => inferInstanceAs (Decidable True)
  | .node left right both sorted =>
    have : Decidable (InOrder item left) := decidableInOrder left
    have : Decidable (InOrder item right) := decidableInOrder right
    inferInstanceAs (Decidable ((ordered item both sorted).Pairwise
      (fun a b => (item a).index ≤ (item b).index) ∧ InOrder item left ∧ InOrder item right))

variable {index : Id → Nat} {xs ys : List Id}

theorem mergeBy_cons_left {x : Id} (h : ∀ y ∈ ys, index x < index y) :
    mergeBy index (x :: xs) ys = x :: mergeBy index xs ys := by
  cases ys with
  | nil => simp
  | cons y ys => rw [mergeBy, if_pos (h y mem_cons_self)]

theorem mergeBy_cons_right {y : Id} (h : ∀ x ∈ xs, index y ≤ index x) :
    mergeBy index xs (y :: ys) = y :: mergeBy index xs ys := by
  cases xs with
  | nil => simp
  | cons x xs =>
    have := h x mem_cons_self
    rw [mergeBy, if_neg (by omega)]

theorem mergeBy_ordered (hx : xs.Pairwise fun a b => index a ≤ index b)
    (hy : ys.Pairwise fun a b => index a ≤ index b) :
    (mergeBy index xs ys).Pairwise fun a b => index a ≤ index b := by
  fun_induction mergeBy index xs ys with
  | case1 ys => exact hy
  | case2 xs h => exact hx
  | case3 x xs y ys hlt ih =>
    rw [pairwise_cons] at hx
    refine pairwise_cons.mpr ⟨?_, ih hx.2 hy⟩
    intro b hb
    rcases mem_mergeBy.mp hb with hb | hb
    · exact hx.1 b hb
    rcases mem_cons.mp hb with rfl | hb
    · omega
    · have := (pairwise_cons.mp hy).1 b hb
      omega
  | case4 x xs y ys hlt ih =>
    rw [pairwise_cons] at hy
    refine pairwise_cons.mpr ⟨?_, ih hx hy.2⟩
    intro b hb
    rcases mem_mergeBy.mp hb with hb | hb
    · rcases mem_cons.mp hb with rfl | hb
      · omega
      · have := (pairwise_cons.mp hx).1 b hb
        omega
    · exact hy.1 b hb

theorem mergeBy_filter (f : Id → Bool) (hx : xs.Pairwise fun a b => index a ≤ index b)
    (hy : ys.Pairwise fun a b => index a ≤ index b) :
    (mergeBy index xs ys).filter f = mergeBy index (xs.filter f) (ys.filter f) := by
  fun_induction mergeBy index xs ys with
  | case1 ys => simp
  | case2 xs h => simp
  | case3 x xs y ys hlt ih =>
    rw [pairwise_cons] at hx
    by_cases hf : f x = true
    · rw [filter_cons_of_pos hf, filter_cons_of_pos hf, ih hx.2 hy, mergeBy_cons_left]
      intro b hb
      rcases mem_cons.mp (mem_filter.mp hb).1 with rfl | hb
      · exact hlt
      · have := (pairwise_cons.mp hy).1 b hb
        omega
    · rw [filter_cons_of_neg hf, filter_cons_of_neg hf, ih hx.2 hy]
  | case4 x xs y ys hlt ih =>
    rw [pairwise_cons] at hy
    by_cases hf : f y = true
    · rw [filter_cons_of_pos hf, filter_cons_of_pos hf, ih hx hy.2, mergeBy_cons_right]
      intro b hb
      rcases mem_cons.mp (mem_filter.mp hb).1 with rfl | hb
      · omega
      · have := (pairwise_cons.mp hx).1 b hb
        omega
    · rw [filter_cons_of_neg hf, filter_cons_of_neg hf, ih hx hy.2]

/-- **Hiding**: where the nodes are in order, an item that is hidden drops out of the list. -/
theorem collideTree_hide (hindex : ∀ i, (item' i).index = (item i).index)
    (hvisible : ∀ i, (item' i).visible = ((item i).visible && decide (i ≠ id))) :
    ∀ (t : Root) (result : List Id) (direction : Bool) (size : Rectangle),
      Settled target direction size t → InOrder item t →
      result.Pairwise (fun a b => (item a).index ≤ (item b).index) →
      (collideTree item' (result.filter fun i => decide (i ≠ id)) direction size target t).1 =
          (collideTree item result direction size target t).1.filter (fun i => decide (i ≠ id)) ∧
        (collideTree item result direction size target t).1.Pairwise
          fun a b => (item a).index ≤ (item b).index := by
  intro t
  induction t with
  | nil =>
    intro result direction size _ _ hresult
    exact ⟨rfl, hresult⟩
  | node left right both sorted ihl ihr =>
    intro result direction size hsettled horder hresult
    obtain ⟨rfl, hl, hr⟩ := hsettled
    obtain ⟨hboth, hol, hor⟩ := horder
    simp only [ordered, if_true] at hboth
    have hfun : (fun i => (item' i).index) = fun i => (item i).index := funext hindex
    have hmerge : merge item' (result.filter fun i => decide (i ≠ id)) both =
        (merge item result both).filter fun i => decide (i ≠ id) := by
      rw [merge_eq, merge_eq, mergeBy_filter _ hresult (hboth.filter _), filter_filter]
      congr 1
      apply filter_congr
      intro i _
      rw [hvisible, Bool.and_comm]
    have hmerged : (merge item result both).Pairwise fun a b =>
        (item a).index ≤ (item b).index := by
      rw [merge_eq]
      exact mergeBy_ordered hresult (hboth.filter _)
    by_cases hml : meets direction false size target = true
    · obtain ⟨hfilter, hsorted⟩ := ihl _ _ _ (hl hml) hol hmerged
      by_cases hmr : meets direction true size target = true
      · obtain ⟨hfilter', hsorted'⟩ := ihr _ _ _ (hr hmr) hor hsorted
        simp only [collideTree, ordered, if_true, hml, hmr, hmerge, hfilter]
        exact ⟨hfilter', hsorted'⟩
      · simp only [collideTree, ordered, if_true, hml, hmr, hmerge]
        exact ⟨hfilter, hsorted⟩
    · by_cases hmr : meets direction true size target = true
      · obtain ⟨hfilter', hsorted'⟩ := ihr _ _ _ (hr hmr) hor hmerged
        simp only [collideTree, ordered, if_true, hml, hmr, hmerge]
        exact ⟨hfilter', hsorted'⟩
      · simp only [collideTree, ordered, if_true, if_false, false_eq_true, hml, hmr, hmerge]
        exact ⟨trivial, hmerged⟩

end Eina.QuadTree
