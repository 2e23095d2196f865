/-
The improved skyline packing: free rectangles may overlap each other, but no live one.

Here the free rectangles are not a tiling, and some of them have a negative width or
height, so that they contain no pixel at all.  What every operation keeps is `Within` for
all of them and that the pixels of the free ones are disjoint from those of the live ones:
merging covers nothing that was not covered, and cutting around a live rectangle leaves
pieces of the free one that do not meet it.
-/
import Efl.Eina.Rectangle.Partition

namespace Eina.Rectangle

open Cover Runs Outcome

variable {w h : Int} {r found rect s : Rectangle} {empty xs ys : List Rectangle} {type : Packing}

/-- Begins at or behind the origin and ends at or before the border of the area. -/
structure Within (w h : Int) (r : Rectangle) : Prop where
  left : 0 ≤ r.x
  right : r.x + r.w ≤ w
  top : 0 ≤ r.y
  bottom : r.y + r.h ≤ h

theorem Within.pixels_subset (hr : Within w h r) : r.pixels ⊆ pixels ⟨0, 0, w, h⟩ := by
  intro p hp
  obtain ⟨h1, h2, h3, h4⟩ := hr
  simp only [mem_pixels] at *
  omega

/-- The list covers no more than another one, and its members are within the area. -/
structure Shrinks (w h : Int) (xs ys : List Rectangle) : Prop where
  within : ∀ y ∈ ys, Within w h y
  covered : cover pixels ys ⊆ cover pixels xs

theorem Shrinks.trans {zs : List Rectangle} (h1 : Shrinks w h xs ys) (h2 : Shrinks w h ys zs) :
    Shrinks w h xs zs := ⟨h2.within, h2.covered.trans h1.covered⟩

theorem shrinks_of_mem (hw : ∀ x ∈ xs, Within w h x) (hmem : ∀ y ∈ ys, y ∈ xs) :
    Shrinks w h xs ys :=
  ⟨fun y hy => hw y (hmem y hy), cover_mono hmem⟩

/-! ### Merging -/

theorem fuse_shrinks {news : List Rectangle} {r' : Rectangle}
    (htype : type ≠ .bottomLeftSkyline) (hr : Within w h r) (hf : Within w h found)
    (hfuse : fuse type r found = some (news, r')) :
    news = [] ∧ Within w h r' ∧ ∀ p ∈ r'.pixels, p ∈ r.pixels ∨ p ∈ found.pixels := by
  obtain ⟨r1, r2, r3, r4⟩ := hr
  obtain ⟨f1, f2, f3, f4⟩ := hf
  unfold fuse at hfuse
  split at hfuse
  · obtain ⟨⟩ := hfuse
    refine ⟨rfl, ⟨f1, f2, ?_, ?_⟩, ?_⟩
    · split_ifs <;> omega
    · dsimp only
      split_ifs <;> omega
    · intro p hp
      simp only [mem_pixels] at *
      split_ifs at hp <;> omega
  split at hfuse
  · obtain ⟨⟩ := hfuse
    refine ⟨rfl, ⟨?_, ?_, f3, f4⟩, ?_⟩
    · split_ifs <;> omega
    · dsimp only
      split_ifs <;> omega
    · intro p hp
      simp only [mem_pixels] at *
      split_ifs at hp <;> omega
  split at hfuse
  · rename_i hskyline
    exact absurd hskyline.2.1 htype
  · simp at hfuse

theorem mergeLoop_shrinks (htype : type ≠ .bottomLeftSkyline) (n : Nat) :
    ∀ (empty : List Rectangle) (r : Rectangle), empty.length = n → Within w h r →
      (∀ x ∈ empty, Within w h x) →
      ∃ ys, Outcome.Ends (fun turns => mergeLoop type turns empty r) ys ∧
        Shrinks w h (r :: empty) ys := by
  induction n using Nat.strong_induction_on with
  | _ n ih =>
    intro empty r hlen hr hempty
    cases hfirst : fuseFirst type r empty with
    | none =>
      refine ⟨empty ++ [r], ⟨1, ?_⟩, shrinks_of_mem ?_ ?_⟩
      · intro m hm
        obtain ⟨m, rfl⟩ : ∃ j, m = j + 1 := ⟨m - 1, by omega⟩
        simp only [mergeLoop, hfirst]
      · intro x hx
        rcases List.mem_cons.mp hx with rfl | hx
        · exact hr
        · exact hempty x hx
      · simp [or_comm]
    | some pair =>
      obtain ⟨empty', r'⟩ := pair
      obtain ⟨found, rest, news, hperm, hfuse, hperm'⟩ := fuseFirst_spec hfirst
      have hfound := hempty found (hperm.mem_iff.mpr List.mem_cons_self)
      obtain ⟨rfl, hr', hcells⟩ := fuse_shrinks htype hr hfound hfuse
      rw [List.nil_append] at hperm'
      have hmem (x : Rectangle) (hx : x ∈ empty') : x ∈ empty :=
        hperm.mem_iff.mpr (List.mem_cons_of_mem _ (hperm'.mem_iff.mp hx))
      have hlen' : empty'.length + 1 = empty.length := by
        rw [hperm'.length_eq, hperm.length_eq, List.length_cons]
      obtain ⟨ys, hends, hys⟩ := ih empty'.length (by omega) empty' r' rfl hr'
        fun x hx => hempty x (hmem x hx)
      refine ⟨ys, hends.succ fun m => by simp only [mergeLoop, hfirst], hys.within, ?_⟩
      intro p hp
      have hp' := hys.covered hp
      simp only [mem_cover_cons] at *
      rcases hp' with hp' | hp'
      · rcases hcells p hp' with hp' | hp'
        · exact .inl hp'
        · exact .inr ⟨found, hperm.mem_iff.mpr List.mem_cons_self, hp'⟩
      · exact .inr (cover_mono hmem hp')

theorem mergeList_shrinks (htype : type ≠ .bottomLeftSkyline) (hr : Within w h r)
    (hempty : ∀ x ∈ empty, Within w h x) :
    ∃ ys, Outcome.Ends (fun turns => mergeList turns type empty r) ys ∧
      Shrinks w h (r :: empty) ys := by
  unfold mergeList
  split
  · refine ⟨empty, ends_const _, hempty, ?_⟩
    intro p hp
    simp only [mem_cover_cons]
    exact .inr hp
  · exact mergeLoop_shrinks htype _ empty r rfl hr hempty

theorem foldlM_mergeList_shrinks (type : Packing) (htype : type ≠ .bottomLeftSkyline) :
    ∀ (pieces empty : List Rectangle), (∀ x ∈ pieces, Within w h x) → (∀ x ∈ empty, Within w h x) →
      ∃ ys, Outcome.Ends (fun turns => pieces.foldlM (mergeList turns type) empty) ys ∧
        Shrinks w h (pieces ++ empty) ys := by
  intro pieces
  induction pieces with
  | nil =>
    intro empty _ hempty
    exact ⟨empty, ends_const _, hempty, subset_rfl⟩
  | cons piece pieces ih =>
    intro empty hpieces hempty
    obtain ⟨ys, hends, hys⟩ :=
      mergeList_shrinks htype (hpieces piece List.mem_cons_self) hempty
    obtain ⟨zs, hends', hzs⟩ :=
      ih ys (fun x hx => hpieces x (List.mem_cons_of_mem _ hx)) hys.within
    refine ⟨zs, ?_, hzs.within, ?_⟩
    · exact hends.bind hends'
    · intro p hp
      have h1 := hzs.covered hp
      have h2 := @hys.covered p
      simp only [mem_cover_append, mem_cover_cons] at *
      tauto

/-! ### Cutting -/

/-- The four pieces around a rectangle. -/
theorem mem_cutAround (hs : s ∈ cutAround rect r) :
    s = ⟨r.x, r.y, rect.x - r.x, r.h⟩ ∨
      s = ⟨rect.x + rect.w, r.y, r.x + r.w - (rect.x + rect.w), r.h⟩ ∨
      s = ⟨r.x, r.y, r.w, rect.y - r.y⟩ ∨
      s = ⟨r.x, rect.y + rect.h, r.w, r.y + r.h - (rect.y + rect.h)⟩ := by
  have hsingle {c : Prop} [Decidable c] {a : Rectangle} (h : s ∈ if c then [a] else []) :
      c ∧ s = a := by
    split at h
    · exact ⟨‹c›, List.mem_singleton.mp h⟩
    · simp at h
  simp only [cutAround] at hs
  split at hs
  · simp only [List.mem_append] at hs
    rcases hs with (hs | hs) | hs
    · exact .inr (.inr (.inr (hsingle hs).2))
    · exact .inr (.inl (hsingle hs).2)
    · exact .inl (hsingle hs).2
  split at hs
  · simp only [List.mem_append] at hs
    rcases hs with (hs | hs) | hs
    · exact .inr (.inl (hsingle hs).2)
    · exact .inr (.inr (.inr (hsingle hs).2))
    · exact .inr (.inr (.inl (hsingle hs).2))
  split at hs
  · rcases List.mem_append.mp hs with hs | hs
    · exact .inr (.inr (.inr (hsingle hs).2))
    · exact .inr (.inr (.inl (List.mem_singleton.mp hs)))
  split at hs
  · rcases List.mem_append.mp hs with hs | hs
    · exact .inr (.inl (hsingle hs).2)
    · exact .inl (List.mem_singleton.mp hs)
  split at hs
  · simp only [List.mem_cons] at hs
    tauto
  split at hs
  · rename_i hcorner
    rcases List.mem_append.mp hs with hs | hs
    · rw [(hsingle hs).2]
      simp only [mk.injEq, true_and, and_true]
      omega
    · rw [(hsingle hs).2]
      simp only [mk.injEq, true_and]
      omega
  · simp at hs

theorem cutAround_shrinks (hmeet : intersects rect r = true) (hs : s ∈ cutAround rect r) :
    s.pixels ⊆ r.pixels ∧ intersects rect s = false ∧
      (Within w h rect → 0 < rect.w ∧ 0 < rect.h → Within w h r → Within w h s) := by
  rw [intersects_iff] at hmeet
  have hfalse : (intersects rect s = false) ↔
      ¬((rect.x < s.x + s.w ∧ s.x < rect.x + rect.w) ∧ rect.y < s.y + s.h ∧
        s.y < rect.y + rect.h) := by
    rw [← intersects_iff, Bool.not_eq_true]
  have hsubset (hx : r.x ≤ s.x ∧ s.x + s.w ≤ r.x + r.w) (hy : r.y ≤ s.y ∧ s.y + s.h ≤ r.y + r.h) :
      s.pixels ⊆ r.pixels := by
    intro p hp
    simp only [mem_pixels] at *
    omega
  rw [hfalse]
  rcases mem_cutAround hs with rfl | rfl | rfl | rfl
  all_goals
    refine ⟨hsubset ?_ ?_, ?_, ?_⟩
    · dsimp only
      omega
    · dsimp only
      omega
    · dsimp only
      omega
    · intro hrect hpos hr
      obtain ⟨b1, b2, b3, b4⟩ := hr
      constructor <;> dsimp only <;> omega

/-- The update only takes away from what is empty, and nothing of it meets the rectangle. -/
theorem skylineListUpdate_shrinks (hrect : Within w h rect) (hpos : 0 < rect.w ∧ 0 < rect.h)
    (n : Nat) : ∀ empty : List Rectangle, empty.countP (intersects rect) = n →
      (∀ x ∈ empty, Within w h x) →
      ∃ ys, Outcome.Ends (fun turns => skylineListUpdate turns empty rect) ys ∧
        Shrinks w h empty ys ∧ ∀ y ∈ ys, intersects rect y = false := by
  induction n using Nat.strong_induction_on with
  | _ n ih =>
    intro empty hcount hempty
    cases hfirst : takeFirst (intersects rect) empty with
    | none =>
      refine ⟨empty, ⟨1, ?_⟩, ⟨hempty, subset_rfl⟩, takeFirst_none hfirst⟩
      intro m hm
      obtain ⟨m, rfl⟩ : ∃ j, m = j + 1 := ⟨m - 1, by omega⟩
      simp only [skylineListUpdate, hfirst]
    | some pair =>
      obtain ⟨r, rest⟩ := pair
      obtain ⟨hmeet, hperm⟩ := takeFirst_perm hfirst
      have hr : Within w h r := hempty r (hperm.mem_iff.mpr List.mem_cons_self)
      have hrest (x : Rectangle) (hx : x ∈ rest) : x ∈ empty :=
        hperm.mem_iff.mpr (List.mem_cons_of_mem _ hx)
      -- the rectangle that met the live one is gone, and no piece meets it
      have hpieces : (cutAround rect r).reverse.countP (intersects rect) = 0 := by
        rw [List.countP_eq_zero]
        intro s hs
        have := (cutAround_shrinks (w := w) (h := h) hmeet (List.mem_reverse.mp hs)).2.1
        simp [this]
      have hless : ((cutAround rect r).reverse ++ rest).countP (intersects rect) < n := by
        rw [List.countP_append, ← hcount, hperm.countP_eq, List.countP_cons_of_pos hmeet]
        omega
      obtain ⟨ys, hends, hys, hfree⟩ := ih _ hless _ rfl (by
        intro x hx
        rcases List.mem_append.mp hx with hx | hx
        · exact (cutAround_shrinks hmeet (List.mem_reverse.mp hx)).2.2 hrect hpos hr
        · exact hempty x (hrest x hx))
      refine ⟨ys, hends.succ fun m => by simp only [skylineListUpdate, hfirst],
        ⟨hys.within, ?_⟩, hfree⟩
      intro p hp
      obtain ⟨x, hx, hpx⟩ := hys.covered hp
      rcases List.mem_append.mp hx with hx | hx
      · exact ⟨r, hperm.mem_iff.mpr List.mem_cons_self,
          (cutAround_shrinks (w := w) (h := h) hmeet (List.mem_reverse.mp hx)).1 hpx⟩
      · exact ⟨x, hrest x hx, hpx⟩

theorem disjoint_of_intersects (hmeet : intersects rect r = false) :
    Disjoint r.pixels rect.pixels := by
  rw [Set.disjoint_left]
  intro p hr hrect
  have : intersects rect r = true := by
    rw [intersects_iff]
    simp only [mem_pixels] at hr hrect
    omega
  rw [this] at hmeet
  simp at hmeet

theorem foldlM_skylineListUpdate_shrinks : ∀ (live empty : List Rectangle),
    (∀ l ∈ live, Within w h l ∧ 0 < l.w ∧ 0 < l.h) → (∀ x ∈ empty, Within w h x) →
      ∃ ys, Outcome.Ends (fun turns => live.foldlM (skylineListUpdate turns) empty) ys ∧
        Shrinks w h empty ys ∧ ∀ y ∈ ys, ∀ l ∈ live, Disjoint y.pixels l.pixels := by
  intro live
  induction live with
  | nil =>
    intro empty _ hempty
    exact ⟨empty, ends_const _, ⟨hempty, subset_rfl⟩, by simp⟩
  | cons l live ih =>
    intro empty hlive hempty
    obtain ⟨hl, hpos⟩ := hlive l List.mem_cons_self
    obtain ⟨ys, hends, hys, hfree⟩ := skylineListUpdate_shrinks hl hpos _ empty rfl hempty
    obtain ⟨zs, hends', hzs, hfree'⟩ :=
      ih ys (fun x hx => hlive x (List.mem_cons_of_mem _ hx)) hys.within
    refine ⟨zs, ?_, hys.trans hzs, ?_⟩
    · exact hends.bind hends'
    · intro z hz x hx
      rcases List.mem_cons.mp hx with rfl | hx
      · rw [Set.disjoint_left]
        intro p hpz hpx
        obtain ⟨y, hy, hpy⟩ := hzs.covered ⟨z, hz, hpz⟩
        exact Set.disjoint_left.mp (disjoint_of_intersects (hfree y hy)) hpy hpx
      · exact hfree' z hz x hx

/-! ### Duplicates -/

theorem dropAgainst_spec : ∀ {rest before empty : List Rectangle},
    dropAgainst r before rest = some empty →
      (∀ x ∈ empty, x ∈ r :: before ++ rest) ∧ empty.length = before.length + rest.length := by
  intro rest
  induction rest with
  | nil =>
    intro before empty h
    simp [dropAgainst] at h
  | cons r1 rest ih =>
    intro before empty h
    rw [dropAgainst] at h
    split at h
    · obtain rfl := Option.some.inj h
      refine ⟨?_, by simp; omega⟩
      simp only [List.mem_cons, List.mem_append] at *
      tauto
    split at h
    · obtain rfl := Option.some.inj h
      refine ⟨?_, by simp⟩
      tauto
    · obtain ⟨hmem, hlen⟩ := ih h
      refine ⟨?_, by simpa [Nat.add_assoc, Nat.add_comm 1] using hlen⟩
      intro x hx
      have := hmem x hx
      simpa using this

theorem dropDuplicate_spec : ∀ {xs ys : List Rectangle}, dropDuplicate xs = some ys →
    (∀ y ∈ ys, y ∈ xs) ∧ ys.length + 1 = xs.length := by
  intro xs
  induction xs with
  | nil =>
    intro ys h
    simp [dropDuplicate] at h
  | cons r rest ih =>
    intro ys h
    rw [dropDuplicate] at h
    split at h
    · rename_i empty hdrop
      obtain rfl := Option.some.inj h
      obtain ⟨hmem, hlen⟩ := dropAgainst_spec hdrop
      exact ⟨by simpa using hmem, by simp [hlen]⟩
    · obtain ⟨zs, hzs, rfl⟩ := Option.map_eq_some_iff.mp h
      obtain ⟨hmem, hlen⟩ := ih hzs
      refine ⟨?_, by simp [hlen]⟩
      intro y hy
      rcases List.mem_cons.mp hy with rfl | hy
      · exact List.mem_cons_self
      · exact List.mem_cons_of_mem _ (hmem y hy)

theorem skylineListUpdateDuplicate_spec (n : Nat) : ∀ empty : List Rectangle, empty.length = n →
    ∃ ys, Outcome.Ends (fun turns => skylineListUpdateDuplicate turns empty) ys ∧
      ∀ y ∈ ys, y ∈ empty := by
  induction n with
  | zero =>
    intro empty hlen
    obtain rfl := List.length_eq_zero_iff.mp hlen
    refine ⟨[], ⟨1, ?_⟩, by simp⟩
    intro m hm
    obtain ⟨m, rfl⟩ : ∃ j, m = j + 1 := ⟨m - 1, by omega⟩
    rfl
  | succ n ih =>
    intro empty hlen
    cases hdrop : dropDuplicate empty with
    | none =>
      refine ⟨empty, ⟨1, ?_⟩, fun y hy => hy⟩
      intro m hm
      obtain ⟨m, rfl⟩ : ∃ j, m = j + 1 := ⟨m - 1, by omega⟩
      simp only [skylineListUpdateDuplicate, hdrop]
    | some empty' =>
      obtain ⟨hmem, hlen'⟩ := dropDuplicate_spec hdrop
      obtain ⟨ys, hends, hys⟩ := ih empty' (by omega)
      exact ⟨ys, hends.succ fun m => by simp only [skylineListUpdateDuplicate, hdrop],
        fun y hy => hmem y (hys y hy)⟩

/-! ### The pool -/

theorem grow_within (hr : Within w h r) (hf : Within w h found) : Within w h (grow r found) := by
  obtain ⟨r1, r2, r3, r4⟩ := hr
  obtain ⟨f1, f2, f3, f4⟩ := hf
  unfold grow
  split
  · exact ⟨r1, by dsimp only; omega, f3, f4⟩
  split
  · exact ⟨f1, f2, r3, by dsimp only; omega⟩
  split
  · exact ⟨f1, by dsimp only; omega, f3, f4⟩
  split
  · exact ⟨f1, f2, f3, by dsimp only; omega⟩
  · exact ⟨f1, f2, f3, f4⟩

theorem splitSpace_within (type : Packing) {w1 h1 : Int} (hw : 0 < w1) (hh : 0 < h1)
    (hfit : w1 ≤ r.w ∧ h1 ≤ r.h) (hr : Within w h r) :
    ∀ s ∈ splitSpace type r w1 h1, Within w h s ∧ s.pixels ⊆ r.pixels := by
  intro s hs
  obtain ⟨r1, r2, r3, r4⟩ := hr
  have hparts : r.x ≤ s.x ∧ s.x + s.w ≤ r.x + r.w ∧ r.y ≤ s.y ∧ s.y + s.h ≤ r.y + r.h := by
    unfold splitSpace at hs
    split at hs
    · rw [List.mem_singleton] at hs
      subst hs
      dsimp only
      omega
    split at hs
    · rw [List.mem_singleton] at hs
      subst hs
      dsimp only
      omega
    · simp only [List.mem_cons, List.not_mem_nil, or_false] at hs
      rcases hs with rfl | rfl
      · split_ifs <;> dsimp only <;> omega
      · split_ifs <;> dsimp only <;> omega
  refine ⟨⟨by omega, by omega, by omega, by omega⟩, ?_⟩
  intro p hp
  simp only [mem_pixels] at *
  omega

namespace Pool

/-- The live rectangles are disjoint and inside the area, and no free pixel is a live one. -/
structure Separated (pool : Pool) : Prop where
  type : pool.type = .bottomLeftSkylineImproved
  empty : ∀ r ∈ pool.empty, Within pool.w pool.h r
  live : ∀ r ∈ pool.head, Within pool.w pool.h r ∧ 0 < r.w ∧ 0 < r.h
  apart : pool.head.Pairwise fun r s => Disjoint r.pixels s.pixels
  free : ∀ r ∈ pool.empty, ∀ l ∈ pool.head, Disjoint r.pixels l.pixels

variable {pool : Pool}

/-- A request keeps the rectangles apart. -/
theorem request_separated (hp : Separated pool) (w h : Int) :
    ∃ pool' out, Outcome.Ends (fun turns => request turns pool w h) (pool', out) ∧
      Separated pool' ∧ pool'.w = pool.w ∧ pool'.h = pool.h := by
  unfold request
  split
  · exact ⟨pool, none, ends_const _, hp, rfl, rfl⟩
  split
  · exact ⟨pool, none, ends_const _, hp, rfl, rfl⟩
  obtain ⟨empty1, hends1, hmem1⟩ := skylineListUpdateDuplicate_spec _ pool.sortEmpty.empty rfl
  have hmem : ∀ r ∈ empty1, r ∈ pool.empty := by
    intro r hr
    exact (sortEmpty_perm pool).mem_iff.mp (hmem1 r hr)
  simp only [hp.type]
  cases hfirst : takeFirst (fun r => decide (w ≤ r.w ∧ h ≤ r.h)) empty1 with
  | none =>
    refine ⟨{ pool.sortEmpty with empty := empty1 }, none, ?_, ?_, ?_⟩
    · refine hends1.bind ?_
      simp only [emptySpaceFind, hfirst]
      exact ends_const _
    · obtain ⟨h1, h2, h3, h4, -⟩ := sortEmpty_fields pool
      refine ⟨h2.trans hp.type, ?_, ?_, ?_, ?_⟩
      · simp only [h3, h4]
        exact fun r hr => hp.empty r (hmem r hr)
      · simp only [h1, h3, h4]
        exact hp.live
      · simp only [h1]
        exact hp.apart
      · simp only [h1]
        exact fun r hr => hp.free r (hmem r hr)
    · exact ⟨(sortEmpty_fields pool).2.2.1, (sortEmpty_fields pool).2.2.2.1⟩
  | some pair =>
    obtain ⟨r, rest⟩ := pair
    obtain ⟨hfit, hperm⟩ := takeFirst_perm hfirst
    have hfit' : w ≤ r.w ∧ h ≤ r.h := by simpa using hfit
    have hr : r ∈ pool.empty := hmem r (hperm.mem_iff.mpr List.mem_cons_self)
    have hrest : ∀ x ∈ rest, x ∈ pool.empty := by
      intro x hx
      exact hmem x (hperm.mem_iff.mpr (List.mem_cons_of_mem _ hx))
    have hcorner := (hp.empty r hr).left
    have hpieces := splitSpace_within .bottomLeftSkylineImproved (by omega) (by omega) hfit'
      (hp.empty r hr)
    obtain ⟨empty2, hends2, hshrink2⟩ := foldlM_mergeList_shrinks
      .bottomLeftSkylineImproved (by simp) (splitSpace .bottomLeftSkylineImproved r w h)
      rest (fun x hx => (hpieces x hx).1) (fun x hx => hp.empty x (hrest x hx))
    have hgranted : Within pool.w pool.h ⟨r.x, r.y, w, h⟩ := by
      obtain ⟨h1, h2, h3, h4⟩ := hp.empty r hr
      exact ⟨h1, by dsimp only; omega, h3, by dsimp only; omega⟩
    have hsub : pixels ⟨r.x, r.y, w, h⟩ ⊆ r.pixels := by
      intro p hpx
      simp only [mem_pixels] at *
      omega
    obtain ⟨empty3, hends3, hshrink3, hfree3⟩ :=
      skylineListUpdate_shrinks hgranted ⟨by dsimp only; omega, by dsimp only; omega⟩ _ empty2 rfl
        hshrink2.within
    refine ⟨pool.granted empty3 ⟨r.x, r.y, w, h⟩, some ⟨r.x, r.y, w, h⟩, ?_, ?_, rfl, rfl⟩
    · refine hends1.bind ?_
      simp only [emptySpaceFind, hfirst]
      refine Outcome.Ends.bind (hends2.bind (ends_const _)) ?_
      simp only [if_neg (show ¬r.x = -1 by omega)]
      exact hends3.bind (ends_const _)
    · refine ⟨hp.type, hshrink3.within, ?_, ?_, ?_⟩
      · intro l hl
        rcases List.mem_cons.mp hl with rfl | hl
        · exact ⟨hgranted, by dsimp only; omega, by dsimp only; omega⟩
        · exact hp.live l hl
      · refine List.pairwise_cons.mpr ⟨?_, hp.apart⟩
        intro l hl
        exact (hp.free r hr l hl).mono_left hsub
      · -- a free pixel was free before, or it is around the granted rectangle
        intro x hx l hl
        rcases List.mem_cons.mp hl with rfl | hl
        · exact disjoint_of_intersects (hfree3 x hx)
        rw [Set.disjoint_left]
        intro p hpx hpl
        obtain ⟨y, hy, hpy⟩ := hshrink2.covered (hshrink3.covered ⟨x, hx, hpx⟩)
        rcases List.mem_append.mp hy with hy | hy
        · exact Set.disjoint_left.mp (hp.free r hr l hl) ((hpieces y hy).2 hpy) hpl
        · exact Set.disjoint_left.mp (hp.free y (hrest y hy) l hl) hpy hpl

theorem release_separated (hp : Separated pool) {k : Nat} {rect : Rectangle}
    (hk : pool.head[k]? = some rect) : ∃ pool',
      Outcome.Ends (fun turns => release turns pool k rect) pool' ∧ Separated pool' ∧
        pool'.w = pool.w ∧ pool'.h = pool.h := by
  have hrect := (hp.live rect (List.mem_of_getElem? hk)).1
  have hsublist : (pool.head.eraseIdx k).Sublist pool.head := List.eraseIdx_sublist _ _
  obtain ⟨empty1, hends1, hmem1⟩ :=
    skylineListUpdateDuplicate_spec _ (skylineMergeList pool.empty rect) rfl
  have hwithin : ∀ x ∈ empty1, Within pool.w pool.h x := by
    intro x hx
    obtain ⟨y, hy, rfl⟩ := List.mem_map.mp (hmem1 x hx)
    exact grow_within hrect (hp.empty y hy)
  obtain ⟨empty2, hends2, hshrink, hfree⟩ := foldlM_skylineListUpdate_shrinks
    (pool.head.eraseIdx k) empty1 (fun l hl => hp.live l (hsublist.subset hl)) hwithin
  refine ⟨pool.released k empty2, ?_, ?_, rfl, rfl⟩
  · simp only [release, hp.type]
    exact (hends1.bind hends2).bind (ends_const _)
  · exact ⟨hp.type, hshrink.within, fun l hl => hp.live l (hsublist.subset hl),
      hp.apart.sublist hsublist, hfree⟩

/-! ### Runs -/

theorem step_separated (hp : Separated pool) (op : Op) : ∃ pool' out, Step pool op pool' out ∧
    Separated pool' ∧ pool'.w = pool.w ∧ pool'.h = pool.h := by
  cases op with
  | request w h => exact request_separated hp w h
  | release k =>
    cases hk : pool.head[k]? with
    | none =>
      refine ⟨pool, none, ?_, hp, rfl, rfl⟩
      simp only [Step, step, hk]
      exact ends_const _
    | some rect =>
      obtain ⟨pool', hends, hp', hw, hh⟩ := release_separated hp hk
      refine ⟨pool', none, ?_, hp', hw, hh⟩
      simp only [Step, step, hk]
      exact hends.bind (ends_const _)

theorem new_separated {w h : Int} (hnew : new w h = some pool) :
    Separated (pool.packingSet .bottomLeftSkylineImproved) ∧ pool.w = w ∧ pool.h = h := by
  unfold new at hnew
  split at hnew
  · simp at hnew
  obtain rfl := Option.some.inj hnew
  refine ⟨⟨rfl, ?_, by simp [packingSet], List.Pairwise.nil, by simp [packingSet]⟩, rfl, rfl⟩
  intro r hr
  obtain rfl := List.mem_singleton.mp hr
  simp only [packingSet]
  exact ⟨by simp, by simp, by simp, by simp⟩

/--
**No pixel is granted twice**: whatever is requested and released, the rectangles that were granted
and not given back are disjoint and inside the area, and a free rectangle that is not empty meets
none of them.
-/
theorem run_separated (w h : Int) (pool : Pool) (hnew : new w h = some pool) (ops : List Op) :
    (∃ pool' outs, Traces Step (pool.packingSet .bottomLeftSkylineImproved) ops pool' outs) ∧
      ∀ pool' outs, Traces Step (pool.packingSet .bottomLeftSkylineImproved) ops pool' outs →
        (inUse ops outs).Pairwise (fun r s => Disjoint r.pixels s.pixels) ∧
        (∀ r ∈ inUse ops outs, r.pixels ⊆ pixels ⟨0, 0, w, h⟩) ∧
        ∀ r ∈ pool'.empty, 0 < r.w → 0 < r.h →
          ∀ l ∈ inUse ops outs, Disjoint r.pixels l.pixels := by
  obtain ⟨hstart, hw, hh⟩ := new_separated hnew
  let I (p : Pool) : Prop := Separated p ∧ p.w = w ∧ p.h = h
  have hI : I (pool.packingSet .bottomLeftSkylineImproved) := ⟨hstart, hw, hh⟩
  have hstep : ∀ p op, I p → ∃ p' out, Step p op p' out ∧ I p' := by
    intro p op hp
    obtain ⟨p', out, hs, hp', hw', hh'⟩ := step_separated hp.1 op
    exact ⟨p', out, hs, hp', hw'.trans hp.2.1, hh'.trans hp.2.2⟩
  obtain ⟨hexists, hkeep⟩ := traces_total Step.unique hstep ops hI
  refine ⟨hexists, ?_⟩
  intro pool' outs hrun
  obtain ⟨hp, hw', hh'⟩ := hkeep pool' outs hrun
  have hhead : (pool.packingSet .bottomLeftSkylineImproved).head = [] := new_head _ hnew
  rw [← run_use hhead hrun]
  refine ⟨hp.apart, ?_, fun r hr _ _ l hl => hp.free r hr l hl⟩
  intro r hr
  rw [← hw', ← hh']
  exact (hp.live r hr).1.pixels_subset

theorem run_separated_grantedAgain : ∃ pool pool', new 64 64 = some pool ∧
    Traces Step (pool.packingSet .bottomLeftSkylineImproved) grantedAgain pool'
      [some ⟨0, 0, 16, 16⟩, some ⟨16, 0, 8, 32⟩, some ⟨24, 0, 20, 10⟩, none,
        some ⟨16, 0, 8, 20⟩] ∧
      ∀ r ∈ pool'.empty, 0 < r.w → 0 < r.h →
        ∀ l ∈ ([⟨16, 0, 8, 20⟩, ⟨24, 0, 20, 10⟩, ⟨0, 0, 16, 16⟩] : List Rectangle),
          Disjoint r.pixels l.pixels := by
  have hnew : new 64 64 = some ⟨[], [⟨0, 0, 64, 64⟩], cmp, 0, .ascending, 0, 64, 64, false⟩ := rfl
  have hrun : ∃ pool', Traces Step (sized64 .bottomLeftSkylineImproved [] [⟨0, 0, 64, 64⟩] 0)
      grantedAgain pool' [some ⟨0, 0, 16, 16⟩, some ⟨16, 0, 8, 32⟩, some ⟨24, 0, 20, 10⟩, none,
        some ⟨16, 0, 8, 20⟩] := by
    refine exists_traces_cons (b := sized64 .bottomLeftSkylineImproved [⟨0, 0, 16, 16⟩]
      [⟨16, 0, 48, 64⟩, ⟨0, 16, 64, 48⟩] 0) (step_of_turns 20 fun _ => rfl) ?_
    refine exists_traces_cons (b := sized64 .bottomLeftSkylineImproved
      [⟨16, 0, 8, 32⟩, ⟨0, 0, 16, 16⟩]
      [⟨0, 16, 16, 48⟩, ⟨24, 16, 40, 48⟩, ⟨0, 32, 64, 32⟩, ⟨24, 0, 40, 64⟩, ⟨16, 32, 48, 32⟩] 0)
      (step_of_turns 20 fun _ => rfl) ?_
    refine exists_traces_cons (b := sized64 .bottomLeftSkylineImproved
      [⟨24, 0, 20, 10⟩, ⟨16, 0, 8, 32⟩, ⟨0, 0, 16, 16⟩]
      [⟨0, 16, 16, 48⟩, ⟨0, 32, 64, 32⟩, ⟨44, 0, 20, 64⟩, ⟨24, 10, 40, 54⟩] 0)
      (step_of_turns 20 fun _ => by with_unfolding_all rfl) ?_
    refine exists_traces_cons (b := sized64 .bottomLeftSkylineImproved
      [⟨24, 0, 20, 10⟩, ⟨0, 0, 16, 16⟩]
      [⟨0, 16, 24, 48⟩, ⟨16, 0, 8, 64⟩, ⟨44, 0, 20, 64⟩] 1) (step_of_turns 20 fun _ => rfl) ?_
    refine exists_traces_cons (b := sized64 .bottomLeftSkylineImproved
      [⟨16, 0, 8, 20⟩, ⟨24, 0, 20, 10⟩, ⟨0, 0, 16, 16⟩]
      [⟨0, 16, 16, 48⟩, ⟨0, 20, 24, 44⟩, ⟨44, 0, 20, 64⟩, ⟨16, 20, 8, 44⟩] 0)
      (step_of_turns 20 fun _ => by with_unfolding_all rfl) ?_
    exact ⟨_, rfl, rfl⟩
  obtain ⟨pool', hrun⟩ := hrun
  obtain ⟨-, -, hfree⟩ := (run_separated 64 64 _ hnew grantedAgain).2 pool' _ hrun
  exact ⟨_, pool', hnew, hrun, hfree⟩

end Pool

end Eina.Rectangle
