/-
The splitter loses no cell.

Each branch of `rect_list_add_split_fuzzy` covers at least the rectangle it took from the
worklist and the ones it took from the list (`scan_keeps`), whatever the accepted error
is; so the list covers at the end what list and worklist covered at any turn.  The branch
that calls `abort` is the one where `_split_fuzzy` finds nothing to cut, and there the
rectangle is inside the other one, which the first test would have found.
-/
import Efl.Eina.Tiler.Rects

namespace Eina.Tiler

open Cover List Outcome Rect

variable {a b r : Rect} {p : Int × Int} {xs ys zs rects dirty : List Rect} {e : Int}

/-! ### Two rectangles -/

theorem ok_calcOuterRectArea (a b : Rect) : (calcOuterRectArea a b).Ok := by
  refine ⟨?_, ?_, rfl⟩
  · simp [calcOuterRectArea]
  · simp [calcOuterRectArea]

theorem mem_calcOuterRectArea (h : p ∈ a.cells ∨ p ∈ b.cells) :
    p ∈ (calcOuterRectArea a b).cells := by
  simp only [mem_cells, calcOuterRectArea] at *
  omega

theorem splitRows_rest (hb : b.Ok) :
    (splitRows a b).2.left = b.left ∧ (splitRows a b).2.right = b.right ∧
      (splitRows a b).2.width = b.width ∧ (splitRows a b).2.top = max a.top b.top ∧
      (splitRows a b).2.top + (splitRows a b).2.height = min a.bottom b.bottom := by
  have hbottom := hb.bottom
  simp only [splitRows]
  split
  · split
    · simp only [true_and]
      omega
    · simp only [true_and]
      omega
  · split
    · simp only [true_and]
      omega
    · omega

theorem splitRows_fst (a b : Rect) : (splitRows a b).1 =
    (if 0 < a.top - b.top then [Rect.init b.left b.top b.width (a.top - b.top)] else []) ++
      if 0 < b.bottom - a.bottom then
        [Rect.init b.left a.bottom b.width (b.bottom - a.bottom)] else [] := by
  simp only [splitRows]
  split
  · rfl
  · rfl

theorem splitRows_ok (h : r ∈ (splitRows a b).1) : r.Ok := by
  rw [splitRows_fst] at h
  simp only [mem_append, mem_ite_nil_right, mem_singleton] at h
  rcases h with ⟨-, rfl⟩ | ⟨-, rfl⟩
  · exact ok_init _ _ _ _
  · exact ok_init _ _ _ _

theorem splitColumns_ok (h : r ∈ splitColumns a b) : r.Ok := by
  unfold splitColumns at h
  simp only [mem_append, mem_ite_nil_right, mem_singleton] at h
  rcases h with ⟨-, rfl⟩ | ⟨-, rfl⟩
  · exact ok_init _ _ _ _
  · exact ok_init _ _ _ _

theorem mem_splitRows (hb : b.Ok) (hp : p ∈ b.cells) (hrow : ¬(a.top ≤ p.2 ∧ p.2 < a.bottom)) :
    p ∈ cover Rect.cells (splitRows a b).1 := by
  have hright := hb.right
  simp only [mem_cells] at hp
  rw [splitRows_fst, mem_cover_append]
  by_cases h : a.top ≤ p.2
  · right
    rw [if_pos (by omega)]
    simp only [mem_cover_cons, mem_cells, Rect.init]
    omega
  · rw [if_pos (by omega)]
    simp only [mem_cover_cons, mem_cells, Rect.init]
    omega

theorem mem_splitColumns (hb : b.Ok) (hp : p ∈ b.cells) (hrow : a.top ≤ p.2 ∧ p.2 < a.bottom)
    (ha : p ∉ a.cells) : p ∈ cover Rect.cells (splitColumns a (splitRows a b).2) := by
  obtain ⟨hleft, hright, -, htop, hheight⟩ := splitRows_rest (a := a) hb
  simp only [mem_cells] at hp ha
  unfold splitColumns
  rw [mem_cover_append]
  by_cases h : a.left ≤ p.1
  · right
    rw [if_pos (by omega)]
    simp only [mem_cover_cons, mem_cells, Rect.init]
    omega
  · rw [if_pos (by omega)]
    simp only [mem_cover_cons, mem_cells, Rect.init]
    omega

theorem splitStrict_ok (h : r ∈ splitStrict a b) : r.Ok := by
  rcases mem_append.mp h with h | h
  · exact splitRows_ok h
  · exact splitColumns_ok h

theorem mem_splitStrict (hb : b.Ok) (hp : p ∈ b.cells) (ha : p ∉ a.cells) :
    p ∈ cover Rect.cells (splitStrict a b) := by
  unfold splitStrict
  rw [mem_cover_append]
  by_cases hrow : a.top ≤ p.2 ∧ p.2 < a.bottom
  · exact .inr (mem_splitColumns hb hp hrow ha)
  · exact .inl (mem_splitRows hb hp hrow)

/-! ### `_split_fuzzy` -/

variable {pieces : List Rect} {b' : Rect} {delR : Rect}

theorem splitFuzzy_merge (hb : b.Ok) (h : splitFuzzy a b = (pieces, b', .merge)) :
    pieces = (splitRows a b).1 ∧ a.height = b'.height ∧
      ∀ p ∈ b.cells, p ∈ cover Rect.cells pieces ∨ (a.top ≤ p.2 ∧ p.2 < a.bottom) := by
  simp only [splitFuzzy] at h
  split at h
  · rename_i hmerge
    obtain ⟨⟩ := h
    refine ⟨rfl, hmerge.2, ?_⟩
    intro p hp
    by_cases hrow : a.top ≤ p.2 ∧ p.2 < a.bottom
    · exact .inr hrow
    · exact .inl (mem_splitRows hb hp hrow)
  · split at h
    · simp at h
    · simp at h

theorem splitFuzzy_split (hb : b.Ok) (h : splitFuzzy a b = (pieces, b', .split)) :
    pieces = splitStrict a b ∧ ∀ p ∈ b.cells, p ∈ cover Rect.cells pieces ∨ p ∈ a.cells := by
  simp only [splitFuzzy] at h
  split at h
  · simp at h
  obtain rfl : splitStrict a b = pieces := congrArg Prod.fst h
  refine ⟨rfl, ?_⟩
  intro p hp
  by_cases ha : p ∈ a.cells
  · exact .inr ha
  · exact .inl (mem_splitStrict hb hp ha)

theorem splitFuzzy_none (hb : b.Ok) (h : splitFuzzy a b = (pieces, b', .none)) :
    a.left ≤ b.left ∧ b.right ≤ a.right ∧ a.top ≤ b.top ∧ b.bottom ≤ a.bottom := by
  obtain ⟨hleft, hright, -, -, -⟩ := splitRows_rest (a := a) hb
  simp only [splitFuzzy] at h
  split at h
  · simp at h
  split at h
  · rename_i hnil
    obtain ⟨hrows, hcolumns⟩ := append_eq_nil_iff.mp hnil
    rw [splitRows_fst] at hrows
    unfold splitColumns at hcolumns
    simp only [append_eq_nil_iff, ite_eq_right_iff, cons_ne_nil, imp_false] at hrows
    simp only [append_eq_nil_iff, ite_eq_right_iff, cons_ne_nil, imp_false]
      at hcolumns
    omega
  · simp at h

/-! ### Lists of rectangles -/

/-- The redundant fields agree in every rectangle of the list. -/
def AllOk (xs : List Rect) : Prop := ∀ x ∈ xs, x.Ok

@[simp] theorem allOk_nil : AllOk [] := by
  simp [AllOk]

@[simp] theorem allOk_cons : AllOk (r :: xs) ↔ r.Ok ∧ AllOk xs := by
  simp [AllOk]

@[simp] theorem allOk_append : AllOk (xs ++ ys) ↔ AllOk xs ∧ AllOk ys := by
  simp only [AllOk, mem_append]
  constructor
  · intro h
    exact ⟨fun x hx => h x (.inl hx), fun x hx => h x (.inr hx)⟩
  · rintro ⟨hx, hy⟩ z (hz | hz)
    · exact hx z hz
    · exact hy z hz

/-- `ys` covers at least what `xs` covers, and lies where `xs` does. -/
structure Keeps (e : Int) (xs ys : List Rect) : Prop where
  ok : AllOk ys
  cells : cover Rect.cells xs ⊆ cover Rect.cells ys
  past : 0 ≤ e → ∀ x y, (∀ r ∈ xs, r.Past x y) → ∀ r ∈ ys, r.Past x y

theorem Keeps.trans (h : Keeps e xs ys) (h' : Keeps e ys zs) : Keeps e xs zs :=
  ⟨h'.ok, h.cells.trans h'.cells, fun he x y hxs => h'.past he x y (h.past he x y hxs)⟩

theorem keeps_refl (h : AllOk xs) : Keeps e xs xs := ⟨h, subset_rfl, fun _ _ _ hxs => hxs⟩

/-- The bounding box lies where both rectangles do. -/
theorem past_outer {x y : Int} (ha : a.Past x y) (hb : b.Past x y) :
    (calcOuterRectArea a b).Past x y := by
  obtain ⟨⟨haright, habottom, -⟩, hawidth, haheight, haleft, hatop⟩ := ha
  obtain ⟨-, -, -, hbleft, hbtop⟩ := hb
  refine ⟨ok_calcOuterRectArea a b, ?_, ?_, le_min haleft hbleft, le_min hatop hbtop⟩
  · simp only [calcOuterRectArea]
    omega
  · simp only [calcOuterRectArea]
    omega

theorem past_rows {x y : Int} (hb : b.Past x y) (ha : y ≤ a.bottom)
    (h : r ∈ (splitRows a b).1) : r.Past x y := by
  obtain ⟨-, hwidth, hheight, hleft, htop⟩ := hb
  rw [splitRows_fst] at h
  simp only [mem_append, mem_ite_nil_right, mem_singleton] at h
  rcases h with ⟨hpos, rfl⟩ | ⟨hpos, rfl⟩
  · exact ⟨ok_init _ _ _ _, hwidth, hpos.le, hleft, htop⟩
  · exact ⟨ok_init _ _ _ _, hwidth, hpos.le, hleft, ha⟩

/-- The pieces lie where both rectangles do, if these have something in common. -/
theorem past_split {x y : Int} (ha : a.Past x y) (hb : b.Past x y)
    (hrows : 0 ≤ min a.bottom b.bottom - max a.top b.top) (h : r ∈ splitStrict a b) :
    r.Past x y := by
  obtain ⟨⟨haright, habottom, -⟩, hawidth, haheight, haleft, hatop⟩ := ha
  rcases mem_append.mp h with h | h
  · exact past_rows hb (by omega) h
  obtain ⟨hleft, hright, -, htop, hheight⟩ := splitRows_rest (a := a) hb.toOk
  obtain ⟨-, hwidth, -, hbleft, hbtop⟩ := hb
  unfold splitColumns at h
  simp only [mem_append, mem_ite_nil_right, mem_singleton] at h
  rcases h with ⟨hpos, rfl⟩ | ⟨hpos, rfl⟩
  · refine ⟨ok_init _ _ _ _, hpos.le, ?_, ?_, ?_⟩ <;> simp only [Rect.init] <;> omega
  · refine ⟨ok_init _ _ _ _, hpos.le, ?_, ?_, ?_⟩ <;> simp only [Rect.init] <;> omega

theorem mem_of_intra (ha : a.Ok) (h : (calcIntraOuterRectArea a b).1.width = a.width)
    (h' : (calcIntraOuterRectArea a b).1.height = a.height) (hp : p ∈ a.cells) :
    p ∈ b.cells := by
  have hright := ha.right
  have hbottom := ha.bottom
  simp only [calcIntraOuterRectArea] at h h'
  simp only [mem_cells] at *
  omega

theorem mem_of_intra' (hb : b.Ok) (h : (calcIntraOuterRectArea a b).1.width = b.width)
    (h' : (calcIntraOuterRectArea a b).1.height = b.height) (hp : p ∈ b.cells) :
    p ∈ a.cells := by
  have hright := hb.right
  have hbottom := hb.bottom
  simp only [calcIntraOuterRectArea] at h h'
  simp only [mem_cells] at *
  omega

theorem cover_replace {current : Rect} {before rest news : List Rect}
    (h : ∀ p, p ∈ r.cells ∨ p ∈ current.cells → p ∈ cover Rect.cells news) :
    cover Rect.cells (before ++ current :: rest ++ r :: dirty) ⊆
      cover Rect.cells (before ++ rest ++ (dirty ++ news)) := by
  intro p hp
  have hnews := h p
  simp only [mem_cover_append, mem_cover_cons] at *
  tauto

theorem mem_grown {n : Rect} (hr : r.Ok) (hsplit : splitFuzzy a r = (pieces, b', .merge))
    (hleft : n.left = min r.left a.left) (hright : n.right = max r.right a.right)
    (htop : n.top = a.top) (hbottom : n.bottom = a.bottom) (hp : p ∈ r.cells ∨ p ∈ a.cells) :
    p ∈ cover Rect.cells (pieces ++ [n]) := by
  have hn (hrow : a.top ≤ p.2 ∧ p.2 < a.bottom) : p ∈ n.cells := by
    simp only [mem_cells] at *
    omega
  simp only [mem_cover_append, mem_cover_cons]
  rcases hp with hp | hp
  · rcases (splitFuzzy_merge hr hsplit).2.2 p hp with h | h
    · exact .inl h
    · exact .inr (.inl (hn h))
  · exact .inr (.inl (hn ⟨hp.2.2.1, hp.2.2.2⟩))

/-- One turn keeps what the two lists cover, and goes beyond it by no more than is accepted. -/
theorem scan_keeps (hr : r.Ok) (hdirty : AllOk dirty) : ∀ (rest before : List Rect)
    (oldLast : Nat), AllOk (before ++ rest) → ∃ w, scan e r dirty oldLast before rest = .returns w ∧
      Keeps e (before ++ rest ++ r :: dirty) (w.rects ++ w.dirty) := by
  intro rest
  induction rest with
  | nil =>
    intro before oldLast hok
    refine ⟨_, rfl, ?_, ?_, ?_⟩
    · simp only [allOk_append, allOk_cons] at *
      tauto
    · intro p hp
      simp only [mem_cover_append, mem_cover_cons] at *
      tauto
    · intro he x y hpast
      simp only [forall_mem_append, forall_mem_cons] at *
      tauto
  | cons current rest ih =>
    intro before oldLast hok
    have hcurrent : current.Ok := by
      simp only [allOk_append, allOk_cons] at hok
      exact hok.2.1
    simp only [scan]
    split
    · -- `r` is inside `current`
      rename_i hin
      refine ⟨_, rfl, ?_, ?_, ?_⟩
      · simp only [allOk_append] at *
        tauto
      · intro p hp
        have := mem_of_intra (p := p) hr hin.1 hin.2
        simp only [mem_cover_append, mem_cover_cons] at *
        tauto
      · intro he x y hpast
        simp only [forall_mem_append, forall_mem_cons] at *
        tauto
    split
    · -- `current` is inside `r`
      rename_i hin
      obtain ⟨w, hw, hkeeps⟩ := ih before (oldLastWithout oldLast before.length) (by
        simp only [allOk_append, allOk_cons] at *
        tauto)
      refine ⟨w, hw, hkeeps.ok, ?_, fun he x y hpast => hkeeps.past he x y ?_⟩
      · intro p hp
        apply hkeeps.cells
        have := mem_of_intra' (p := p) hcurrent hin.1 hin.2
        simp only [mem_cover_append, mem_cover_cons] at *
        tauto
      · simp only [forall_mem_append, forall_mem_cons] at *
        tauto
    split
    · -- the bounding box takes the place of both
      refine ⟨_, rfl, ?_, ?_, ?_⟩
      · have := ok_calcOuterRectArea r current
        simp only [allOk_append, allOk_cons] at *
        exact ⟨⟨hok.1, hok.2.2⟩, hdirty, this, allOk_nil⟩
      · apply cover_replace
        intro p hp
        simp only [mem_cover_cons]
        exact .inl (mem_calcOuterRectArea hp)
      · intro he x y hpast
        simp only [forall_mem_append, forall_mem_cons] at hpast ⊢
        obtain ⟨⟨hbefore, hthis, hrest⟩, hnew, hothers⟩ := hpast
        exact ⟨⟨hbefore, hrest⟩, hothers, past_outer hnew hthis, forall_mem_nil _⟩
    split
    · obtain ⟨w, hw, hkeeps⟩ := ih (before ++ [current]) oldLast (by simpa using hok)
      refine ⟨w, hw, ?_⟩
      simpa using hkeeps
    split
    · -- `r` is cut along `current`, which grows sideways
      rename_i pieces b' hsplit
      obtain ⟨rfl, hheight, -⟩ := splitFuzzy_merge hr hsplit
      refine ⟨_, rfl, ?_, ?_, ?_⟩
      · have hout := ok_calcOuterRectArea r current
        simp only [allOk_append, allOk_cons] at *
        refine ⟨⟨hok.1, hok.2.2⟩, ⟨hdirty, fun z hz => splitRows_ok hz⟩,
          ⟨hout.right, hcurrent.bottom, ?_⟩, allOk_nil⟩
        rw [hheight]
      · rw [append_assoc dirty]
        apply cover_replace
        intro p hp
        exact mem_grown hr hsplit rfl rfl rfl rfl hp
      · intro he x y hpast
        simp only [forall_mem_append, forall_mem_cons] at hpast ⊢
        obtain ⟨⟨hbefore, hthis, hrest⟩, hnew, hothers⟩ := hpast
        have hout := past_outer hnew hthis
        have hbottom := hthis.bottom
        have htall := hthis.height_nonneg
        have htop := hthis.top_le
        refine ⟨⟨hbefore, hrest⟩, ⟨hothers, fun z hz => past_rows hnew (by omega) hz⟩,
          ⟨⟨hout.right, hbottom, ?_⟩, hout.width_nonneg, htall, hout.left_le, htop⟩,
          forall_mem_nil _⟩
        rw [hheight]
    · rename_i hlarge _ pieces b' hsplit
      obtain ⟨rfl, hcells⟩ := splitFuzzy_split hr hsplit
      refine ⟨_, rfl, ?_, ?_, ?_⟩
      · simp only [allOk_append, allOk_cons] at *
        exact ⟨hok, hdirty, fun z hz => splitStrict_ok hz⟩
      · intro p hp
        simp only [mem_cover_append, mem_cover_cons] at hp ⊢
        rcases hp with hold | hnew | hothers
        · exact .inl hold
        · rcases hcells p hnew with hpiece | hthis
          · exact .inr (.inr hpiece)
          · exact .inl (.inr (.inl hthis))
        · exact .inr (.inl hothers)
      · intro he x y hpast
        simp only [forall_mem_append, forall_mem_cons] at hpast ⊢
        obtain ⟨⟨hbefore, hthis, hrest⟩, hnew, hothers⟩ := hpast
        refine ⟨⟨hbefore, hthis, hrest⟩, hothers, fun z hz => past_split hthis hnew ?_ hz⟩
        simp only [calcIntraOuterRectArea] at hlarge
        split at hlarge
        · omega
        · exact absurd he hlarge
    · -- the first test would have found `r` inside `current`
      rename_i hfirst _ _ _ _ _ _ hsplit
      exfalso
      apply hfirst
      obtain ⟨h1, h2, h3, h4⟩ := splitFuzzy_none hr hsplit
      have hright := hr.right
      have hbottom := hr.bottom
      simp only [calcIntraOuterRectArea]
      omega

/-! ### The loops -/

theorem addLoop_keeps : ∀ (turns : Nat) (w : Work), AllOk (w.rects ++ w.dirty) →
    addLoop e turns w = .running ∨
      ∃ ys n, addLoop e turns w = .returns (ys, n) ∧ Keeps e (w.rects ++ w.dirty) ys := by
  intro turns
  induction turns with
  | zero =>
    rintro ⟨rects, dirty, oldLast⟩ hok
    cases dirty with
    | nil => exact .inr ⟨rects, oldLast, rfl, by simpa using keeps_refl hok⟩
    | cons r dirty => exact .inl rfl
  | succ turns ih =>
    rintro ⟨rects, dirty, oldLast⟩ hok
    cases dirty with
    | nil => exact .inr ⟨rects, oldLast, rfl, by simpa using keeps_refl hok⟩
    | cons r dirty =>
      simp only [allOk_append, allOk_cons] at hok
      obtain ⟨w, hw, hkeeps⟩ :=
        scan_keeps (e := e) hok.2.1 hok.2.2 rects [] oldLast (by simpa using hok.1)
      simp only [addLoop, hw]
      rcases ih w hkeeps.ok with h | ⟨ys, n, h, hys⟩
      · exact .inl h
      · exact .inr ⟨ys, n, h, hkeeps.trans hys⟩

theorem addLoop_mono : ∀ w : Work, Outcome.Mono fun turns => addLoop e turns w := by
  intro w n
  induction n generalizing w with
  | zero =>
    intro m _
    obtain ⟨rects, dirty, oldLast⟩ := w
    cases dirty with
    | nil => exact .inr (by simp [addLoop])
    | cons r dirty => exact .inl rfl
  | succ n ih =>
    intro m hnm
    obtain ⟨rects, dirty, oldLast⟩ := w
    cases dirty with
    | nil => exact .inr (by simp [addLoop])
    | cons r dirty =>
      obtain ⟨m, rfl⟩ : ∃ m', m = m' + 1 := ⟨m - 1, by omega⟩
      simp only [addLoop]
      cases scan e r dirty oldLast [] rects with
      | returns w => exact ih w m (by omega)
      | running => exact .inl rfl
      | undefined => exact .inr rfl
      | aborts => exact .inr rfl

/-- So does a merge. -/
theorem mergeInto_keeps {r1 outer : Rect} : ∀ {rects rects' : List Rect},
    mergeInto e r1 rects = some (rects', outer) →
      rects'.length + 1 = rects.length ∧ outer.Ok ∧ (AllOk rects → AllOk rects') ∧
        (∀ x y, (∀ r ∈ rects, r.Past x y) → r1.Past x y →
          outer.Past x y ∧ ∀ r ∈ rects', r.Past x y) ∧
        ∀ p, p ∈ cover Rect.cells rects ∨ p ∈ r1.cells →
          p ∈ cover Rect.cells rects' ∨ p ∈ outer.cells := by
  intro rects
  induction rects with
  | nil =>
    intro rects' h
    simp [mergeInto] at h
  | cons r2 rects ih =>
    intro rects' h
    simp only [mergeInto] at h
    split at h
    · obtain ⟨⟩ := h
      refine ⟨rfl, ok_calcOuterRectArea _ _, fun hok => (allOk_cons.mp hok).2, ?_, ?_⟩
      · intro x y hpast h1
        rw [forall_mem_cons] at hpast
        exact ⟨past_outer h1 hpast.1, hpast.2⟩
      intro p hp
      have := mem_calcOuterRectArea (p := p) (a := r1) (b := r2)
      simp only [mem_cover_cons] at hp
      tauto
    · obtain ⟨⟨rest, outer'⟩, hrest, hpair⟩ := Option.map_eq_some_iff.mp h
      obtain ⟨⟩ := hpair
      obtain ⟨hlen, hout, hok, hpast', hcells⟩ := ih hrest
      refine ⟨by simp [hlen], hout, ?_, ?_, ?_⟩
      · intro h2
        simp only [allOk_cons] at *
        exact ⟨h2.1, hok h2.2⟩
      · intro x y hpast h1
        simp only [forall_mem_cons] at hpast ⊢
        exact ⟨(hpast' x y hpast.2 h1).1, hpast.1, (hpast' x y hpast.2 h1).2⟩
      · intro p hp
        have := hcells p
        simp only [mem_cover_cons] at *
        tauto

/-- So do the merges that follow an addition. -/
theorem mergeLoop_keeps {e1 : Int} : ∀ (fuel : Nat) (rects toMerge : List Rect),
    rects.length + 2 * toMerge.length ≤ fuel → AllOk (rects ++ toMerge) →
      ∃ ys, mergeLoop e fuel rects toMerge = .returns ys ∧ Keeps e1 (rects ++ toMerge) ys := by
  intro fuel
  induction fuel with
  | zero =>
    intro rects toMerge hfuel hok
    obtain rfl : toMerge = [] := length_eq_zero_iff.mp (by omega)
    exact ⟨rects, rfl, by simpa using keeps_refl hok⟩
  | succ fuel ih =>
    intro rects toMerge hfuel hok
    cases toMerge with
    | nil => exact ⟨rects, rfl, by simpa using keeps_refl hok⟩
    | cons r1 toMerge =>
      simp only [mergeLoop]
      simp only [length_cons] at hfuel
      split
      · -- a merge takes one rectangle from the list and leaves `toMerge` as long as it was
        rename_i rects' outer hinto
        obtain ⟨hlen, hout, hok', hpast', hcells⟩ := mergeInto_keeps hinto
        simp only [allOk_append, allOk_cons] at hok
        obtain ⟨ys, hys, hkeeps⟩ := ih rects' (toMerge ++ [outer])
          (by simp only [length_append, length_singleton]; omega)
          (by simp only [allOk_append, allOk_cons]; exact ⟨hok' hok.1, hok.2.2, hout, allOk_nil⟩)
        refine ⟨ys, hys, hkeeps.ok, ?_, fun he x y hpast => hkeeps.past he x y ?_⟩
        · intro p hp
          apply hkeeps.cells
          have := hcells p
          simp only [mem_cover_append, mem_cover_cons] at *
          tauto
        · simp only [forall_mem_append, forall_mem_cons] at hpast ⊢
          obtain ⟨hout', hrects⟩ := hpast' x y hpast.1 hpast.2.1
          exact ⟨hrects, hpast.2.2, hout', forall_mem_nil _⟩
      · obtain ⟨ys, hys, hkeeps⟩ := ih (rects ++ [r1]) toMerge
          (by simp only [length_append, length_singleton]; omega) (by simpa using hok)
        exact ⟨ys, hys, by simpa using hkeeps⟩

theorem mergeRects_keeps {e1 : Int} (rects toMerge : List Rect) (e : Int)
    (hok : AllOk (rects ++ toMerge)) :
    ∃ ys, mergeRects rects toMerge e = .returns ys ∧ Keeps e1 (rects ++ toMerge) ys :=
  mergeLoop_keeps _ _ _ le_rfl hok

theorem addSplitFuzzy_keeps (hok : AllOk rects) (hr : r.Ok) (turns : Nat) :
    addSplitFuzzy turns rects r e = .running ∨
      ∃ ys n, addSplitFuzzy turns rects r e = .returns (ys, n) ∧ Keeps e (r :: rects) ys := by
  unfold addSplitFuzzy
  split
  · rename_i hnil
    subst hnil
    exact .inr ⟨[r], 0, rfl, keeps_refl (by simpa using hr)⟩
  rcases addLoop_keeps turns ⟨rects, [r], rects.length⟩ (by simpa using ⟨hok, hr⟩)
    with h | ⟨ys, n, h, hkeeps⟩
  · exact .inl h
  refine .inr ⟨ys, n, h, hkeeps.ok, ?_, fun he x y hpast => hkeeps.past he x y ?_⟩
  · intro p hp
    apply hkeeps.cells
    simp only [mem_cover_append, mem_cover_cons] at *
    tauto
  · simp only [forall_mem_append, forall_mem_cons] at *
    tauto

theorem addSplitFuzzyAndMerge_returns {turns n : Nat} (e' : Int)
    (h : addSplitFuzzy turns rects r e = .returns (ys, n)) (hkeeps : Keeps e (r :: rects) ys) :
    ∃ zs, addSplitFuzzyAndMerge turns rects r e e' = .returns zs ∧ Keeps e (r :: rects) zs := by
  unfold addSplitFuzzyAndMerge
  simp only [h, returns_bind]
  split
  · have hparts : ys.take n ++ ys.drop n = ys := take_append_drop n ys
    obtain ⟨zs, hzs, hmerge⟩ := mergeRects_keeps (ys.take n) (ys.drop n) e'
      (by rw [hparts]; exact hkeeps.ok)
    rw [hparts] at hmerge
    exact ⟨zs, hzs, hkeeps.trans hmerge⟩
  · exact ⟨ys, rfl, hkeeps⟩

/-- **Adding a rectangle loses nothing**: the list covers it and what it covered before. -/
theorem addSplitFuzzyAndMerge_keeps (e e' : Int) (hok : AllOk rects) (hr : r.Ok) (turns : Nat) :
    addSplitFuzzyAndMerge turns rects r e e' = .running ∨
      ∃ ys, addSplitFuzzyAndMerge turns rects r e e' = .returns ys ∧ Keeps e (r :: rects) ys := by
  rcases addSplitFuzzy_keeps hok hr turns with h | ⟨ys, n, h, hkeeps⟩
  · exact .inl (by rw [addSplitFuzzyAndMerge, h]; rfl)
  · exact .inr (addSplitFuzzyAndMerge_returns e' h hkeeps)

theorem addSplitFuzzyAndMerge_mono (rects : List Rect) (r : Rect) (e e' : Int) :
    Outcome.Mono fun turns => addSplitFuzzyAndMerge turns rects r e e' := by
  have hadd : Outcome.Mono fun turns => addSplitFuzzy turns rects r e := by
    unfold addSplitFuzzy
    split
    · exact mono_const _
    · exact addLoop_mono _
  exact hadd.bind fun _ => mono_const _

/-! ### Deleting -/

theorem delSplitStrict_ok (hok : AllOk rects) : AllOk (delSplitStrict rects delR) := by
  intro x hx
  rcases mem_append.mp hx with hx | hx
  · exact hok x (mem_filter.mp hx).1
  · obtain ⟨current, -, hx⟩ := mem_flatMap.mp hx
    exact splitStrict_ok hx

theorem mem_delSplitStrict (hok : AllOk rects) (hp : p ∈ cover Rect.cells rects)
    (hdel : p ∉ delR.cells) : p ∈ cover Rect.cells (delSplitStrict rects delR) := by
  obtain ⟨current, hmem, hp⟩ := hp
  have hright := (hok current hmem).right
  have hbottom := (hok current hmem).bottom
  unfold delSplitStrict
  rw [mem_cover_append]
  by_cases hstays : (calcIntraRectArea delR current).1 ≤ 0 ∨ (calcIntraRectArea delR current).2 ≤ 0
  · exact .inl ⟨current, mem_filter.mpr ⟨hmem, by simpa using hstays⟩, hp⟩
  right
  have hout : ¬calcIntraRectArea delR current = (current.width, current.height) := by
    intro heq
    simp only [calcIntraRectArea, Prod.mk.injEq] at heq
    simp only [mem_cells] at *
    omega
  obtain ⟨x, hx, hpx⟩ := mem_splitStrict (hok current hmem) hp hdel
  refine ⟨x, mem_flatMap.mpr ⟨current, mem_filter.mpr ⟨hmem, ?_⟩, hx⟩, hpx⟩
  simp only [Bool.and_eq_true, Bool.not_eq_true', decide_eq_false_iff_not]
  exact ⟨hstays, hout⟩

/-! ### Turns that come back -/

/-- The work after so many turns, when the worklist is not empty before any of them. -/
def workAfter (e : Int) : Nat → Work → Option Work
  | 0, w => some w
  | _ + 1, ⟨_, [], _⟩ => none
  | k + 1, ⟨rects, r :: dirty, oldLast⟩ =>
    match scan e r dirty oldLast [] rects with
    | .returns w => workAfter e k w
    | _ => none

theorem addLoop_workAfter : ∀ (k n : Nat) (w w' : Work), workAfter e k w = some w' →
    addLoop e n w ≠ .running → ∃ m, n = k + m ∧ addLoop e m w' ≠ .running := by
  intro k
  induction k with
  | zero =>
    intro n w w' h hn
    obtain rfl := Option.some.inj h
    exact ⟨n, by omega, hn⟩
  | succ k ih =>
    rintro n ⟨rects, dirty, oldLast⟩ w' h hn
    cases dirty with
    | nil => simp [workAfter] at h
    | cons r dirty =>
      simp only [workAfter] at h
      cases n with
      | zero => exact absurd rfl hn
      | succ n =>
        simp only [addLoop] at hn
        split at h
        · rename_i w1 hw1
          rw [hw1] at hn
          obtain ⟨m, rfl, hm⟩ := ih n w1 w' h hn
          exact ⟨m, by omega, hm⟩
        · simp at h

theorem addLoop_running {k : Nat} {w : Work} (h : workAfter e (k + 1) w = some w) (n : Nat) :
    addLoop e n w = .running := by
  induction n using Nat.strong_induction_on with
  | _ n ih =>
    by_contra hn
    obtain ⟨m, rfl, hm⟩ := addLoop_workAfter (k + 1) n w w h hn
    exact hm (ih m (by omega))

end Eina.Tiler
