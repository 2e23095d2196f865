/-
`eina_tiler_intersection`.

The rectangles of the two tilers are walked like two lists sorted by their right edges, and every
pair the walk comes to is cut and added to a new tiler.  The lists are in no order, so a pair that
overlaps may be missed (`intersection_misses`).  `Tiler.Meets` says which pairs are met.

An iterator that has nothing more to return leaves its last attempt in `it->r`, which is where
`rect1` and `rect2` point to.  Where the list of a tiler ends in rectangles outside its area, the
walk goes on with such a rectangle in place of the last one that was returned.
-/
import Efl.Lib.MergeWalk
import Efl.Eina.Tiler.Cache

namespace Eina.Tiler

open Cover Relation List Option Rectangle

/-! ### The code -/

/-- `eina_tiler_area_size_set` -/
def areaSizeSet (t : Tiler) (w h : Int) : Tiler :=
  if w ≤ 0 ∨ h ≤ 0 then t else { t with area := { t.area with w := w, h := h } }

/-- `eina_tiler_strict_set` -/
def strictSet (t : Tiler) (strict : Bool) : Tiler := { t with strict := strict }

/-- `struct _Eina_Iterator_Tiler` -/
structure Iter where
  tiler : Tiler
  curr : List Rect
  r : Rectangle

/-- `_iterator_next` from a node of the list on: the iterator, and whether it returns `it->r`. -/
def Iter.scan (it : Iter) : List Rect → Iter × Bool
  | [] => (it, false)
  | cur :: rest =>
    if (iterRect it.tiler cur).2 then
      ({ it with curr := rest, r := (iterRect it.tiler cur).1 }, true)
    else Iter.scan { it with r := (iterRect it.tiler cur).1 } rest

/-- `_iterator_next` -/
def Iter.next (it : Iter) : Iter × Bool := it.scan it.curr

/-- The iterator `eina_tiler_iterator_new` makes of a tiler with rectangles. -/
def Iter.new (t : Tiler) : Iter := ⟨t, t.rects, ⟨0, 0, 0, 0⟩⟩

/-- `rect` when two rectangles intersect; `rounding` is that of either tiler. -/
def overlap (rounding : Bool) (r1 r2 : Rectangle) : Rectangle :=
  let x := max r1.x r2.x
  let y := max r1.y r2.y
  let w := min (r1.x + r1.w) (r2.x + r2.w) - x
  let h := min (r1.y + r1.h) (r2.y + r2.h) - y
  if rounding then ⟨x, y, w - 1, h - 1⟩ else ⟨x, y, w, h⟩

/-- What `_splitter_rect_add` makes of the rectangle it is given. -/
def addedRect (t : Tiler) (r : Rectangle) : Rectangle :=
  if t.rounding then ⟨r.x / 2, r.y / 2, (r.w + 2) / 2, (r.h + 2) / 2⟩ else r

/-- The body of the loop, up to where the iterators move. -/
def meet (turns : Nat) (rounding : Bool) (t : Tiler) (r1 r2 : Rectangle) : Outcome Tiler :=
  if r1.intersects r2 then do
    let rect := overlap rounding r1 r2
    let t ← splitterRectAdd turns t rect
    return { t with lastAdd := addedRect t rect }
  else .returns t

/-- The last lines of the loop: either iterator moves, or `break`. -/
def advanceEither (it1 it2 : Iter) : Iter × Iter × Bool :=
  if it1.next.2 then (it1.next.1, it2, true) else (it1.next.1, it2.next.1, it2.next.2)

/-- The iterators move, and `continue` or `break`. -/
def advance (it1 it2 : Iter) : Iter × Iter × Bool :=
  let right1 := it1.r.x + it1.r.w
  let right2 := it2.r.x + it2.r.w
  let (it1, it2, moved) :=
    if right1 < right2 then (it1.next.1, it2, it1.next.2)
    else if right2 < right1 then (it1, it2.next.1, it2.next.2)
    else (it1, it2, false)
  if moved then (it1, it2, true) else advanceEither it1 it2

/-- The loop of `eina_tiler_intersection`, with the turns that are left of it. -/
@[grind =]
def walk (turns : Nat) (rounding : Bool) : Nat → Tiler → Iter → Iter → Outcome Tiler
  | left, t, it1, it2 => do
    let t ← meet turns rounding t it1.r it2.r
    match advance it1 it2 with
    | (_, _, false) => return t
    | (it1, it2, true) =>
      match left with
      | 0 => .running
      | left + 1 => walk turns rounding left t it1 it2

/-- `eina_tiler_intersection`, for two different tilers, which are merged for the iteration. -/
def intersection (turns : Nat) (t1 t2 : Tiler) : Outcome (Tiler × Tiler × Option Tiler) :=
  if t1.area.intersects t2.area then do
    let t1 ← iteratorNew turns t1
    let t2 ← iteratorNew turns t2
    if t1.rects = [] ∨ t2.rects = [] then return (t1, t2, none)
    else if (Iter.new t1).next.2 = false then return (t1, t2, none)
    else if (Iter.new t2).next.2 = false then return (t1, t2, none)
    else
      match new (min t1.area.w t2.area.w) (min t1.area.h t2.area.h) with
      | none => .undefined
      | some t => do
        -- each turn but the last takes a node of a list
        let t ← walk turns (t1.rounding || t2.rounding) (t1.rects.length + t2.rects.length) t
          (Iter.new t1).next.1 (Iter.new t2).next.1
        return (t1, t2, if t.rects = [] then none else some t)
  else .returns (t1, t2, none)

/-! ### The tilers there are -/

/-- A tiler that the functions of `eina_tiler.c` make. -/
inductive Made : Tiler → Prop
  | new {w h : Int} {t : Tiler} (hnew : new w h = some t) : Made t
  | areaSizeSet {t : Tiler} (w h : Int) (ht : Made t) : Made (areaSizeSet t w h)
  | tileSizeSet {t : Tiler} (w h : Int) (ht : Made t) : Made (tileSizeSet t w h)
  | strictSet {t : Tiler} (strict : Bool) (ht : Made t) : Made (strictSet t strict)
  | clear {t : Tiler} (ht : Made t) : Made (clear t)
  | rectAdd {t t' : Tiler} {turns : Nat} {r : Rectangle} {b : Bool} (ht : Made t)
      (hadd : rectAdd turns t r = .returns (t', b)) : Made t'
  | rectDel {t : Tiler} (r : Rectangle) (ht : Made t) : Made (rectDel t r)
  | iteratorNew {t t' : Tiler} {turns : Nat} (ht : Made t)
      (hnew : iteratorNew turns t = .returns t') : Made t'
  | union {dst src dst' src' : Tiler} {turns : Nat} {b : Bool} (hdst : Made dst) (hsrc : Made src)
      (hunion : union turns dst src = .returns (dst', src', b)) : Made dst'
  | subtract {dst src dst' src' : Tiler} {turns : Nat} {b : Bool} (hdst : Made dst)
      (hsrc : Made src) (hsubtract : subtract turns dst src = .returns (dst', src', b)) : Made dst'
  | intersection {t1 t2 t1' t2' t : Tiler} {turns : Nat} (h1 : Made t1) (h2 : Made t2)
      (hintersection : intersection turns t1 t2 = .returns (t1', t2', some t)) : Made t

variable {t t' : Tiler} {turns : Nat} {r : Rectangle} {b : Bool}

theorem areaSizeSet_proper (w h : Int) (ht : Proper t) : Proper (areaSizeSet t w h) := by
  unfold areaSizeSet
  split
  · exact ht
  · exact ⟨ht.past, ht.left, ht.top, by dsimp only; omega, by dsimp only; omega, ht.tileWide,
      ht.tileTall⟩

theorem tileSizeSet_proper (w h : Int) (ht : Proper t) : Proper (tileSizeSet t w h) := by
  unfold tileSizeSet
  split
  · exact ht
  split
  · exact ht
  · exact ⟨forall_mem_nil _, ht.left, ht.top, ht.wide, ht.tall, by dsimp only; omega,
      by dsimp only; omega⟩

theorem iterated_nonneg (ht : Proper t) (hr : r ∈ iterated t) :
    0 ≤ r.x ∧ 0 ≤ r.y ∧ 0 < r.w ∧ 0 < r.h := by
  obtain ⟨cur, -, hcur⟩ := mem_filterMap.mp hr
  split at hcur
  · rename_i hgiven
    obtain rfl := some.inj hcur
    simp only [iterRect, Bool.and_eq_true] at hgiven ⊢
    exact intersection_nonneg ht (Prod.ext rfl hgiven.1)
  · simp at hcur

theorem shrunk_nonneg (ht : Proper t) :
    ∀ r ∈ (iterated t).map (shrink t), 0 ≤ r.x ∧ 0 ≤ r.y ∧ 0 ≤ r.w ∧ 0 ≤ r.h := by
  intro r hr
  obtain ⟨r', hr', rfl⟩ := mem_map.mp hr
  have hpos := iterated_nonneg ht hr'
  unfold shrink
  split
  · dsimp only
    omega
  · omega

/-! ### The walk -/

/-- A tiler that only got more rectangles. -/
structure Grows (t t' : Tiler) : Prop where
  ok : AllOk t'.rects
  area : t'.area = t.area
  rounding : t'.rounding = t.rounding
  needMerge : t'.needMerge = t.needMerge
  kept : covered t ⊆ covered t'

variable {t1 t2 : Tiler} {it it1 it2 : Iter} {left i j : Nat} {rounding : Bool}
  {r1 r2 : Rectangle} {rs : List Rectangle} {dst src dst' src' : Tiler} {t1' t2' : Tiler}

theorem Grows.trans {t'' : Tiler} (h : Grows t t') (h' : Grows t' t'') : Grows t t'' :=
  ⟨h'.ok, h'.area.trans h.area, h'.rounding.trans h.rounding, h'.needMerge.trans h.needMerge,
    h.kept.trans h'.kept⟩

theorem meet_grows (hok : AllOk t.rects) (h : meet turns rounding t r1 r2 = .returns t') :
    Grows t t' ∧ (r1.intersects r2 = true → ∀ p,
      cell t.rounding p ∈ (addRect t (overlap rounding r1 r2)).cells → p ∈ covered t') := by
  unfold meet at h
  split at h
  · obtain ⟨t1, hadd, h⟩ := Outcome.bind_eq_returns.mp h
    obtain rfl := Outcome.returns.inj h
    obtain ⟨ys, rfl, hkeeps⟩ := splitterRectAdd_returns hok hadd
    refine ⟨⟨hkeeps.ok, rfl, rfl, rfl, (covered_of_keeps hkeeps).1⟩, fun _ p hp => ?_⟩
    apply hkeeps.cells
    simp only [mem_cover_cons]
    exact .inl hp
  · rename_i hapart
    obtain rfl := Outcome.returns.inj h
    exact ⟨⟨hok, rfl, rfl, rfl, subset_rfl⟩, fun hmeet => absurd hmeet hapart⟩

theorem walk_grows (hok : AllOk t.rects)
    (h : walk turns rounding left t it1 it2 = .returns t') : Grows t t' := by
  induction left using Nat.strongRecOn generalizing t it1 it2 with | ind left ih =>
  unfold walk at h
  obtain ⟨t1, hmeet, h⟩ := Outcome.bind_eq_returns.mp h
  obtain ⟨hgrows, -⟩ := meet_grows hok hmeet
  split at h
  · obtain rfl := Outcome.returns.inj h
    exact hgrows
  · cases left with
    | zero => simp at h
    | succ left => exact hgrows.trans (ih left (Nat.lt_succ_self left) hgrows.ok h)

/-- What the iterator is at, and what it may come to, does not lie beyond the origin. -/
structure Iter.Past (it : Iter) : Prop where
  x : 0 ≤ it.r.x
  y : 0 ≤ it.r.y
  w : 0 ≤ it.r.w
  h : 0 ≤ it.r.h
  tiler : Proper it.tiler
  curr : ∀ cur ∈ it.curr, cur.Past 0 0

theorem iterRect_nonneg (ht : Proper t) {cur : Rect} (hcur : cur.Past 0 0) :
    0 ≤ (iterRect t cur).1.x ∧ 0 ≤ (iterRect t cur).1.y ∧ 0 ≤ (iterRect t cur).1.w ∧
      0 ≤ (iterRect t cur).1.h := by
  have hkept : ∀ r : Rectangle, 0 ≤ r.x → 0 ≤ r.y → 0 ≤ r.w → 0 ≤ r.h →
      0 ≤ (r.intersection t.area).1.x ∧ 0 ≤ (r.intersection t.area).1.y ∧
        0 ≤ (r.intersection t.area).1.w ∧ 0 ≤ (r.intersection t.area).1.h := by
    intro r hx hy hw hh
    cases hmeets : (r.intersection t.area).2 with
    | true =>
      obtain ⟨hx, hy, hw, hh⟩ := intersection_nonneg ht (Prod.ext rfl hmeets)
      exact ⟨hx, hy, hw.le, hh.le⟩
    | false =>
      rw [intersection_eq] at hmeets ⊢
      split at hmeets
      · simp at hmeets
      · rename_i hnot
        rw [if_neg hnot]
        exact ⟨hx, hy, hw, hh⟩
  obtain ⟨-, hwidth, hheight, hleft, htop⟩ := hcur
  unfold iterRect
  dsimp only
  split
  · exact hkept _ (by dsimp only; omega) (by dsimp only; omega) (by dsimp only; omega)
      (by dsimp only; omega)
  · exact hkept _ hleft htop hwidth hheight

theorem scan_past {l : List Rect} (hit : it.Past) (hl : ∀ cur ∈ l, cur.Past 0 0) :
    (it.scan l).1.Past := by
  induction l generalizing it with
  | nil => exact hit
  | cons cur l ih =>
    obtain ⟨hcur, hl⟩ := forall_mem_cons.mp hl
    obtain ⟨hx, hy, hw, hh⟩ := iterRect_nonneg hit.tiler hcur
    unfold Iter.scan
    split
    · exact ⟨hx, hy, hw, hh, hit.tiler, hl⟩
    · exact ih ⟨hx, hy, hw, hh, hit.tiler, hit.curr⟩ hl

theorem Iter.Past.next (hit : it.Past) : it.next.1.Past := scan_past hit hit.curr

theorem new_past (ht : Proper t) : (Iter.new t).Past :=
  ⟨le_rfl, le_rfl, le_rfl, le_rfl, ht, ht.past⟩

theorem advance_past {it1' it2' : Iter} {moved : Bool} (h1 : it1.Past) (h2 : it2.Past)
    (h : advance it1 it2 = (it1', it2', moved)) : it1'.Past ∧ it2'.Past := by
  have heither : ∀ {a b : Iter}, a.Past → b.Past →
      (advanceEither a b).1.Past ∧ (advanceEither a b).2.1.Past := by
    intro a b ha hb
    unfold advanceEither
    split
    · exact ⟨ha.next, hb⟩
    · exact ⟨ha.next, hb.next⟩
  have hboth : (advance it1 it2).1.Past ∧ (advance it1 it2).2.1.Past := by
    unfold advance
    by_cases hless : it1.r.x + it1.r.w < it2.r.x + it2.r.w
    · simp only [if_pos hless]
      split
      · exact ⟨h1.next, h2⟩
      · exact heither h1.next h2
    by_cases hgreater : it2.r.x + it2.r.w < it1.r.x + it1.r.w
    · simp only [if_neg hless, if_pos hgreater]
      split
      · exact ⟨h1, h2.next⟩
      · exact heither h1 h2.next
    · simp only [if_neg hless, if_neg hgreater, Bool.false_eq_true, if_false]
      exact heither h1 h2
  rw [h] at hboth
  exact hboth

/-- What a tiler that rounds makes of an overlap may be empty, and is not beyond the origin. -/
theorem past_overlap (ht : t.rounding = true) (h1 : it1.Past) (h2 : it2.Past)
    (hmeet : it1.r.intersects it2.r = true) :
    (addRect t (overlap rounding it1.r it2.r)).Past 0 0 := by
  obtain ⟨hx1, hy1, hw1, hh1, -⟩ := h1
  obtain ⟨hx2, hy2, hw2, hh2, -⟩ := h2
  obtain ⟨⟨ha, hb⟩, hc, hd⟩ := intersects_iff.mp hmeet
  refine ⟨ok_addRect t _, ?_, ?_, ?_, ?_⟩ <;> unfold addRect overlap <;> rw [if_pos ht] <;>
    dsimp only [Rect.init] <;> split <;> dsimp only <;> omega

theorem meet_proper (ht : Proper t) (hround : t.rounding = true) (h1 : it1.Past) (h2 : it2.Past)
    (h : meet turns rounding t it1.r it2.r = .returns t') : Proper t' ∧ t'.rounding = true := by
  unfold meet at h
  split at h
  · rename_i hmeet
    obtain ⟨t1, hadd, h⟩ := Outcome.bind_eq_returns.mp h
    obtain rfl := Outcome.returns.inj h
    have hproper := splitterRectAdd_proper ht (past_overlap hround h1 h2 hmeet) hadd
    obtain ⟨ys, rfl, -⟩ := splitterRectAdd_returns ht.ok hadd
    exact ⟨hproper.of_frame (by exact hproper.past) ⟨rfl, rfl, rfl⟩, hround⟩
  · obtain rfl := Outcome.returns.inj h
    exact ⟨ht, hround⟩

theorem walk_proper (ht : Proper t) (hround : t.rounding = true) (h1 : it1.Past) (h2 : it2.Past)
    (h : walk turns rounding left t it1 it2 = .returns t') : Proper t' := by
  induction left using Nat.strongRecOn generalizing t it1 it2 with | ind left ih =>
  unfold walk at h
  obtain ⟨s, hmeet, h⟩ := Outcome.bind_eq_returns.mp h
  obtain ⟨hs, hrounds⟩ := meet_proper ht hround h1 h2 hmeet
  split at h
  · obtain rfl := Outcome.returns.inj h
    exact hs
  · rename_i hadvance
    obtain ⟨h1', h2'⟩ := advance_past h1 h2 hadvance
    cases left with
    | zero => simp at h
    | succ left => exact ih left (Nat.lt_succ_self left) hs hrounds h1' h2' h

/-- What a call that returns has done: both lists were tiled, and the walk went over their pairs.
-/
theorem intersection_returns {res : Option Tiler}
    (h : intersection turns t1 t2 = .returns (t1', t2', res)) :
    res = none ∨ iteratorNew turns t1 = .returns t1' ∧ iteratorNew turns t2 = .returns t2' ∧
      ∃ t0 t, new (min t1'.area.w t2'.area.w) (min t1'.area.h t2'.area.h) = some t0 ∧
        walk turns (t1'.rounding || t2'.rounding) (t1'.rects.length + t2'.rects.length) t0
          (Iter.new t1').next.1 (Iter.new t2').next.1 = .returns t ∧
        res = if t.rects = [] then none else some t := by
  have hnone : ∀ {a b : Tiler}, Outcome.returns (a, b, (none : Option Tiler)) =
      .returns (t1', t2', res) → res = none := by
    intro a b heq
    exact (Prod.mk.inj (Prod.mk.inj (Outcome.returns.inj heq)).2).2.symm
  unfold intersection at h
  split at h
  · obtain ⟨s1, hs1, h⟩ := Outcome.bind_eq_returns.mp h
    obtain ⟨s2, hs2, h⟩ := Outcome.bind_eq_returns.mp h
    split at h
    · exact .inl (hnone h)
    split at h
    · exact .inl (hnone h)
    split at h
    · exact .inl (hnone h)
    split at h
    · simp at h
    rename_i t0 hnew
    obtain ⟨t, hwalk, h⟩ := Outcome.bind_eq_returns.mp h
    simp only [Outcome.pure_eq, Outcome.returns.injEq, Prod.mk.injEq] at h
    obtain ⟨rfl, rfl, hres⟩ := h
    exact .inr ⟨hs1, hs2, t0, t, hnew, hwalk, hres.symm⟩
  · exact .inl (hnone h)

theorem intersection_proper (h1 : Proper t1) (h2 : Proper t2)
    (h : intersection turns t1 t2 = .returns (t1', t2', some t)) : Proper t := by
  rcases intersection_returns h with hres | ⟨hs1, hs2, t0, t1, hnew, hwalk, hres⟩
  · simp at hres
  obtain ⟨hproper, -, hround, -⟩ := new_proper hnew
  have hpast1 := (new_past (iteratorNew_proper h1 hs1).1).next
  have hpast2 := (new_past (iteratorNew_proper h2 hs2).1).next
  have hmade := walk_proper hproper hround hpast1 hpast2 hwalk
  split at hres
  · simp at hres
  · obtain rfl := some.inj hres
    exact hmade

theorem union_proper (hdst : Proper dst) (hsrc : Proper src)
    (h : union turns dst src = .returns (dst', src', b)) : Proper dst' := by
  unfold union at h
  split at h
  · obtain ⟨⟩ := h
    exact hdst
  obtain ⟨⟨d, e, rect⟩, hfor, h⟩ := Outcome.bind_eq_returns.mp h
  obtain ⟨hnew, hcases⟩ := forEach_returns hfor
  have hlarge : Proper { dst with area :=
      { dst.area with w := max src.area.w dst.area.w, h := max src.area.h dst.area.h } } :=
    ⟨hdst.past, hdst.left, hdst.top, lt_max_of_lt_right hdst.wide, lt_max_of_lt_right hdst.tall,
      hdst.tileWide, hdst.tileTall⟩
  have hd : Proper d := by
    rcases hcases with ⟨-, rfl⟩ | ⟨-, -, hfold⟩
    · exact hlarge
    · rw [← foldlM_map] at hfold
      exact foldlM_splitterRectAdd_proper _ hlarge
        (shrunk_nonneg (iteratorNew_proper hsrc hnew).1) hfold
  split at h
  · obtain ⟨⟩ := h
    rename_i heq
    obtain ⟨rfl, -, -⟩ := heq
    exact hd
  · obtain ⟨⟩ := h
    rename_i heq
    obtain ⟨rfl, -, -⟩ := heq
    exact hd.of_frame (by exact hd.past) ⟨rfl, rfl, rfl⟩

theorem foldl_splitterRectDel_proper (rs : List Rectangle) : ∀ {t t' : Tiler}, Proper t →
    (∀ r ∈ rs, 0 ≤ r.x ∧ 0 ≤ r.y ∧ 0 ≤ r.w ∧ 0 ≤ r.h) →
      rs.foldlM (fun t r => Outcome.returns (splitterRectDel t r)) t = .returns t' →
      Proper t' := by
  induction rs with
  | nil =>
    intro t t' ht _ h
    obtain rfl := Outcome.returns.inj h
    exact ht
  | cons r rs ih =>
    intro t t' ht hrs h
    obtain ⟨⟨hx, hy, -⟩, hrs⟩ := forall_mem_cons.mp hrs
    exact ih (splitterRectDel_proper ht hx hy) hrs h

theorem subtract_proper (hdst : Proper dst) (hsrc : Proper src)
    (h : subtract turns dst src = .returns (dst', src', b)) : Proper dst' := by
  unfold subtract at h
  split at h
  · obtain ⟨⟩ := h
    exact hdst
  obtain ⟨⟨d, e, rect⟩, hfor, h⟩ := Outcome.bind_eq_returns.mp h
  obtain ⟨hnew, hcases⟩ := forEach_returns hfor
  have hd : Proper d := by
    rcases hcases with ⟨-, rfl⟩ | ⟨-, -, hfold⟩
    · exact hdst
    · have hmap : ((iterated e).map (shrink e)).foldlM
          (fun t r => Outcome.returns (splitterRectDel t r)) dst = _ := foldlM_map
      exact foldl_splitterRectDel_proper _ hdst
        (shrunk_nonneg (iteratorNew_proper hsrc hnew).1) (hmap.trans hfold)
  split at h
  · obtain ⟨⟩ := h
    rename_i heq
    obtain ⟨rfl, -, -⟩ := heq
    exact hd
  · obtain ⟨⟩ := h
    rename_i heq
    obtain ⟨rfl, -, -⟩ := heq
    exact hd.of_frame (by exact hd.past) ⟨rfl, rfl, rfl⟩

/-- **Every tiler is proper.** -/
theorem Made.proper (ht : Made t) : Proper t := by
  induction ht with
  | new hnew => exact (new_proper hnew).1
  | areaSizeSet w h _ ih => exact areaSizeSet_proper w h ih
  | tileSizeSet w h _ ih => exact tileSizeSet_proper w h ih
  | strictSet _ _ ih => exact ih.of_frame (by exact ih.past) ⟨rfl, rfl, rfl⟩
  | clear _ ih => exact ih.of_frame (forall_mem_nil _) ⟨rfl, rfl, rfl⟩
  | rectAdd _ hadd ih => exact rectAdd_proper ih hadd
  | rectDel r _ ih => exact rectDel_proper r ih
  | iteratorNew _ hnew ih => exact (iteratorNew_proper ih hnew).1
  | union _ _ hunion ih1 ih2 => exact union_proper ih1 ih2 hunion
  | subtract _ _ hsubtract ih1 ih2 => exact subtract_proper ih1 ih2 hsubtract
  | intersection _ _ hintersection ih1 ih2 => exact intersection_proper ih1 ih2 hintersection

/-! ### The pairs that are met -/

/-- The rectangle that is returned for a node of the list, if one is. -/
def given (t : Tiler) (cur : Rect) : Option Rectangle :=
  if (iterRect t cur).2 then some (iterRect t cur).1 else none

/--
The right edges of the rectangles that are returned.  The walk stays at the last of them, unless
the list goes on behind it.
-/
def edges (t : Tiler) : MergeWalk.Seq Int where
  key i := ((iterated t)[i]?.map fun r => r.x + r.w).getD 0
  length := (iterated t).length
  isOpen := ∀ cur, t.rects.getLast? = some cur → (iterRect t cur).2 = true

/--
The walk meets the pair: every rectangle of either list before it is passed by one of the other
list up to it, one that does not end further left or the last one.
-/
def Meets (t1 t2 : Tiler) (i j : Nat) : Prop := MergeWalk.Meets (edges t1) (edges t2) i j

/-- The iterator has returned the rectangle number `i` of its tiler. -/
structure Iter.At (it : Iter) (t : Tiler) (i : Nat) : Prop where
  tiler : it.tiler = t
  here : (iterated t)[i]? = some it.r
  rest : it.curr.filterMap (given t) = (iterated t).drop (i + 1)
  behind : it.curr <:+ t.rects

theorem Iter.At.key (h : it.At t i) : (edges t).key i = it.r.x + it.r.w := by
  change (((iterated t)[i]?).map fun r => r.x + r.w).getD 0 = _
  rw [h.here]
  rfl

theorem scan_returns {l : List Rect} (htiler : it.tiler = t)
    (h : l.filterMap (given t) = r :: rs) :
    ∃ c, it.scan l = (⟨t, c, r⟩, true) ∧ c.filterMap (given t) = rs ∧ c <:+ l := by
  induction l generalizing it with
  | nil => simp at h
  | cons cur l ih =>
    unfold Iter.scan
    rw [htiler]
    by_cases hgiven : (iterRect t cur).2 = true
    · have hsome : given t cur = some (iterRect t cur).1 := if_pos hgiven
      rw [filterMap_cons_some hsome] at h
      obtain ⟨rfl, rfl⟩ := cons.inj h
      rw [if_pos hgiven]
      exact ⟨l, rfl, rfl, suffix_cons cur l⟩
    · have hnone : given t cur = none := if_neg hgiven
      rw [filterMap_cons_none hnone] at h
      rw [if_neg hgiven]
      obtain ⟨c, hscan, hrest, hsuffix⟩ := @ih ⟨t, it.curr, (iterRect t cur).1⟩ rfl h
      exact ⟨c, hscan, hrest, hsuffix.trans (suffix_cons cur l)⟩

theorem Iter.At.next (h : it.At t i) (hi : i + 1 < (edges t).length) :
    ∃ it', it.next = (it', true) ∧ it'.At t (i + 1) := by
  have hrest := h.rest
  rw [drop_eq_getElem_cons hi] at hrest
  obtain ⟨c, hscan, hc, hsuffix⟩ := scan_returns h.tiler hrest
  exact ⟨_, hscan, rfl, getElem?_eq_getElem hi, hc, hsuffix.trans h.behind⟩

theorem Iter.At.next_last (h : it.At t i) (hi : (edges t).Stays i) : it.next = (it, false) := by
  obtain ⟨hlast, hopen⟩ := hi
  have hlast : i + 1 = (iterated t).length := hlast
  have hnil : it.curr = [] := by
    by_contra hne
    -- the last node that is left is the last one of the list, and it is returned
    obtain ⟨cur, hcur⟩ : ∃ cur, it.curr.getLast? = some cur :=
      ⟨_, getLast?_eq_some_getLast hne⟩
    have hgiven := hopen cur (by
      obtain ⟨front, hfront⟩ := h.behind
      rw [← hfront, getLast?_append, hcur, some_or])
    have hmem : (iterRect t cur).1 ∈ it.curr.filterMap (given t) :=
      mem_filterMap.mpr ⟨cur, mem_of_getLast? hcur, if_pos hgiven⟩
    rw [h.rest, hlast] at hmem
    simp at hmem
  unfold Iter.next
  rw [hnil]
  rfl

/-- A step of the two iterators is one of the merge walk over the edges. -/
theorem advance_step (h1 : it1.At t1 i) (h2 : it2.At t2 j) {p : Nat × Nat}
    (hstep : MergeWalk.Step (edges t1) (edges t2) (i, j) p) :
    ∃ it1' it2', advance it1 it2 = (it1', it2', true) ∧ it1'.At t1 p.1 ∧ it2'.At t2 p.2 := by
  unfold advance
  rw [← h1.key, ← h2.key]
  cases hstep with
  | first hi hpass =>
    obtain ⟨it1', hnext, h1'⟩ := h1.next hi
    have heither : advanceEither it1 it2 = (it1', it2, true) := by
      simp only [advanceEither, hnext, if_true]
    refine ⟨it1', it2, ?_, h1', h2⟩
    by_cases hless : (edges t1).key i < (edges t2).key j
    · simp only [if_pos hless, hnext, if_true]
    by_cases hgreater : (edges t2).key j < (edges t1).key i
    · have hstay := h2.next_last (hpass.resolve_left (not_le.mpr hgreater))
      simp only [if_neg hless, if_pos hgreater, hstay, heither, Bool.false_eq_true, if_false]
    · simp only [if_neg hless, if_neg hgreater, heither, Bool.false_eq_true, if_false]
  | second hj hpass =>
    obtain ⟨it2', hnext, h2'⟩ := h2.next hj
    refine ⟨it1, it2', ?_, h1, h2'⟩
    by_cases hgreater : (edges t2).key j < (edges t1).key i
    · have hless : ¬(edges t1).key i < (edges t2).key j := not_lt.mpr (le_of_lt hgreater)
      simp only [if_neg hless, if_pos hgreater, hnext, if_true]
    have hstay := h1.next_last (hpass.resolve_left hgreater)
    have heither : advanceEither it1 it2 = (it1, it2', true) := by
      simp only [advanceEither, hstay, hnext, Bool.false_eq_true, if_false]
    by_cases hless : (edges t1).key i < (edges t2).key j
    · simp only [if_pos hless, hstay, heither, Bool.false_eq_true, if_false]
    · simp only [if_neg hless, if_neg hgreater, heither, Bool.false_eq_true, if_false]

variable {p : Int × Int} {it1' it2' : Iter}

/-- **What a pair has in common is covered** when the walk comes to it. -/
theorem walk_covers (hok : AllOk t.rects) (h1 : it1.At t1 i) (h2 : it2.At t2 j)
    (h : walk turns rounding left t it1 it2 = .returns t') {k l : Nat}
    (hreach : ReflTransGen (MergeWalk.Step (edges t1) (edges t2)) (i, j) (k, l))
    (hr1 : (iterated t1)[k]? = some r1) (hr2 : (iterated t2)[l]? = some r2)
    (hmeet : r1.intersects r2 = true)
    (hp : cell t.rounding p ∈ (addRect t (overlap rounding r1 r2)).cells) : p ∈ covered t' := by
  induction left using Nat.strongRecOn generalizing t it1 it2 i j with | ind left ih =>
  unfold walk at h
  obtain ⟨s, hadd, h⟩ := Outcome.bind_eq_returns.mp h
  obtain ⟨hgrows, hpair⟩ := meet_grows hok hadd
  rcases ReflTransGen.cases_head hreach with heq | ⟨q, hstep, hrest⟩
  · obtain ⟨rfl, rfl⟩ := Prod.mk.inj heq
    obtain rfl := some.inj (h1.here.symm.trans hr1)
    obtain rfl := some.inj (h2.here.symm.trans hr2)
    have hs := hpair hmeet p hp
    split at h
    · obtain rfl := Outcome.returns.inj h
      exact hs
    · cases left with
      | zero => simp at h
      | succ left => exact (walk_grows hgrows.ok h).kept hs
  · obtain ⟨it1', it2', hadvance, h1', h2'⟩ := advance_step h1 h2 hstep
    rw [hadvance] at h
    have hcell : cell s.rounding p ∈ (addRect s (overlap rounding r1 r2)).cells := by
      unfold addRect
      rw [hgrows.rounding]
      exact hp
    cases left with
    | zero => simp at h
    | succ left => exact ih left (Nat.lt_succ_self left) hgrows.ok h1' h2' h hrest hcell

/-! ### More turns -/

theorem meet_mono (rounding : Bool) (t : Tiler) (r1 r2 : Rectangle) :
    Outcome.Mono fun turns => meet turns rounding t r1 r2 := by
  unfold meet
  split
  · refine Outcome.Mono.bind ?_ fun _ => Outcome.mono_const _
    exact (addSplitFuzzyAndMerge_mono _ _ _ _).bind fun _ => Outcome.mono_const _
  · exact Outcome.mono_const _

theorem walk_mono (rounding : Bool) (left : Nat) (t : Tiler) (it1 it2 : Iter) :
    Outcome.Mono fun turns => walk turns rounding left t it1 it2 := by
  induction left generalizing t it1 it2 with
  | zero =>
    unfold walk
    refine (meet_mono rounding t it1.r it2.r).bind fun s => ?_
    split
    · exact Outcome.mono_const _
    · exact Outcome.mono_const _
  | succ left ih =>
    unfold walk
    refine (meet_mono rounding t it1.r it2.r).bind fun s => ?_
    split
    · exact Outcome.mono_const _
    · exact ih s _ _

theorem intersection_mono (t1 t2 : Tiler) :
    Outcome.Mono fun turns => intersection turns t1 t2 := by
  unfold intersection
  split
  · refine (iteratorNew_mono t1).bind fun s1 => (iteratorNew_mono t2).bind fun s2 => ?_
    split
    · exact Outcome.mono_const _
    split
    · exact Outcome.mono_const _
    split
    · exact Outcome.mono_const _
    split
    · exact Outcome.mono_const _
    · exact (walk_mono _ _ _ _ _).bind fun _ => Outcome.mono_const _
  · exact Outcome.mono_const _

/-! ### When the call comes to its end -/

theorem length_scan (it : Iter) (l : List Rect) :
    ((it.scan l).2 = true → (it.scan l).1.curr.length < l.length) ∧
      ((it.scan l).2 = false → (it.scan l).1.curr = it.curr) := by
  induction l generalizing it with
  | nil => exact ⟨fun h => absurd h (by simp [Iter.scan]), fun _ => rfl⟩
  | cons cur l ih =>
    unfold Iter.scan
    split
    · exact ⟨fun _ => Nat.lt_succ_self _, fun h => absurd h (by simp)⟩
    · obtain ⟨htrue, hfalse⟩ := ih { it with r := (iterRect it.tiler cur).1 }
      exact ⟨fun h => Nat.lt_succ_of_lt (htrue h), hfalse⟩

theorem length_next (it : Iter) :
    (it.next.2 = true → it.next.1.curr.length < it.curr.length) ∧
      (it.next.2 = false → it.next.1.curr = it.curr) :=
  length_scan it it.curr

theorem length_next_le (it : Iter) : it.next.1.curr.length ≤ it.curr.length := by
  obtain ⟨htrue, hfalse⟩ := length_next it
  cases hmoved : it.next.2 with
  | true => exact le_of_lt (htrue hmoved)
  | false => exact le_of_eq (congrArg length (hfalse hmoved))

theorem length_advanceEither
    (h : advanceEither it1 it2 = (it1', it2', true)) :
    it1'.curr.length + it2'.curr.length < it1.curr.length + it2.curr.length := by
  unfold advanceEither at h
  split at h
  · rename_i hmoved
    obtain ⟨⟩ := h
    have hless := (length_next it1).1 hmoved
    omega
  · rename_i hmoved
    simp only [Prod.mk.injEq] at h
    obtain ⟨rfl, rfl, hmoved2⟩ := h
    have hsame := (length_next it1).2 (by simpa using hmoved)
    have hless := (length_next it2).1 hmoved2
    rw [hsame]
    omega

/-- Every step of the walk over both lists uses up a rectangle. -/
theorem length_advance (h : advance it1 it2 = (it1', it2', true)) :
    it1'.curr.length + it2'.curr.length < it1.curr.length + it2.curr.length := by
  unfold advance at h
  by_cases hless : it1.r.x + it1.r.w < it2.r.x + it2.r.w
  · simp only [if_pos hless] at h
    split at h
    · rename_i hmoved
      obtain ⟨⟩ := h
      have hshort := (length_next it1).1 hmoved
      omega
    · rename_i hmoved
      have hsame := (length_next it1).2 (by simpa using hmoved)
      have hshort := length_advanceEither h
      rw [hsame] at hshort
      exact hshort
  · by_cases hgreater : it2.r.x + it2.r.w < it1.r.x + it1.r.w
    · simp only [if_neg hless, if_pos hgreater] at h
      split at h
      · rename_i hmoved
        obtain ⟨⟩ := h
        have hshort := (length_next it2).1 hmoved
        omega
      · rename_i hmoved
        have hsame := (length_next it2).2 (by simpa using hmoved)
        have hshort := length_advanceEither h
        rw [hsame] at hshort
        exact hshort
    · simp only [if_neg hless, if_neg hgreater] at h
      exact length_advanceEither h

/-- The rectangles that the walk adds, one after the other. -/
def overlaps (rounding : Bool) : Nat → Iter → Iter → List Rectangle
  | left, it1, it2 =>
    (if it1.r.intersects it2.r then [overlap rounding it1.r it2.r] else []) ++
      match advance it1 it2 with
      | (_, _, false) => []
      | (it1, it2, true) =>
        match left with
        | 0 => []
        | left + 1 => overlaps rounding left it1 it2

theorem meet_ends (ht : Proper t) (hround : t.rounding = true) (h1 : it1.Past) (h2 : it2.Past)
    (hcut : EachUncut t
      ((if it1.r.intersects it2.r then [overlap rounding it1.r it2.r] else []) ++ rs)) :
    ∃ turns t', meet turns rounding t it1.r it2.r = .returns t' ∧ EachUncut t' rs := by
  unfold meet
  by_cases hmeet : it1.r.intersects it2.r = true
  · rw [if_pos hmeet] at hcut
    obtain ⟨turns, t', hadd⟩ := splitterRectAdd_ends ht (past_overlap hround h1 h2 hmeet) hcut.1
    refine ⟨turns, _, ?_, (hcut.2 turns t' hadd).remember (addedRect t' (overlap rounding
      it1.r it2.r)) rs⟩
    rw [if_pos hmeet]
    dsimp only
    rw [hadd]
    rfl
  · rw [if_neg hmeet] at hcut
    exact ⟨0, t, if_neg hmeet, hcut⟩

/-- **The loop ends** when the additions do: its own turns are enough. -/
theorem walk_ends (ht : Proper t) (hround : t.rounding = true) (h1 : it1.Past) (h2 : it2.Past)
    (hleft : it1.curr.length + it2.curr.length ≤ left)
    (hcut : EachUncut t (overlaps rounding left it1 it2)) :
    ∃ turns t', walk turns rounding left t it1 it2 = .returns t' := by
  induction left using Nat.strongRecOn generalizing t it1 it2 with | ind left ih =>
  unfold overlaps at hcut
  obtain ⟨n, s, hmeet, hrest⟩ := meet_ends ht hround h1 h2 hcut
  unfold walk
  split at hrest
  · exact ⟨n, s, by rw [hmeet]; rfl⟩
  rename_i hadvance
  obtain ⟨h1', h2'⟩ := advance_past h1 h2 hadvance
  obtain ⟨hs, hrounds⟩ := meet_proper ht hround h1 h2 hmeet
  have hshort := length_advance hadvance
  cases left with
  | zero => omega
  | succ left =>
    obtain ⟨m, t', hwalk⟩ := ih left (Nat.lt_succ_self left) hs hrounds h1' h2' (by omega) hrest
    refine ⟨max n m, t', ?_⟩
    rw [(meet_mono rounding t it1.r it2.r).returns_of_le (le_max_left n m) hmeet]
    exact (walk_mono rounding left s _ _).returns_of_le (le_max_right n m) hwalk

/-! ### What two tilers have in common -/

/-- An iteration of `t` ends in being one of `t'`, whose pending merge is done. -/
def Iterates (t t' : Tiler) : Prop := ∃ turns, iteratorNew turns t = .returns t'

theorem iterates_self (h : t.needMerge = false) : Iterates t t := by
  refine ⟨0, ?_⟩
  unfold Tiler.iteratorNew
  rw [if_neg (by simp [h])]

theorem mem_area_of_iterated (hr : r ∈ iterated t) (hp : p ∈ r.pixels) :
    p ∈ t.area.pixels := by
  obtain ⟨cur, -, hcur⟩ := mem_filterMap.mp hr
  split at hcur
  · rename_i hgiven
    obtain rfl := some.inj hcur
    simp only [iterRect, Bool.and_eq_true] at hgiven hp
    exact ((mem_intersection (Prod.ext rfl hgiven.1) p).mp hp).2
  · simp at hcur

theorem mem_addRect_overlap (h1 : Proper t1) (h2 : Proper t2) (hround : t1.rounding = t2.rounding)
    (hr1 : r1 ∈ iterated t1) (hr2 : r2 ∈ iterated t2) (ht : t.rounding = true) (hp1 : p ∈ r1.pixels)
    (hp2 : p ∈ r2.pixels) :
    r1.intersects r2 = true ∧ cell t.rounding p ∈
      (addRect t (overlap (t1.rounding || t2.rounding) r1 r2)).cells := by
  simp only [mem_pixels] at hp1 hp2
  refine ⟨intersects_iff.mpr ⟨⟨by omega, by omega⟩, by omega, by omega⟩, ?_⟩
  by_cases hrounding : t2.rounding = true
  · obtain ⟨hx1, hy1⟩ := iterated_even h1.left h1.top (hround.trans hrounding) hr1
    obtain ⟨hx2, hy2⟩ := iterated_even h2.left h2.top hrounding hr2
    simp only [cell, addRect, overlap, ht, hrounding, Bool.or_true, if_true, Rect.mem_cells,
      Rect.init]
    omega
  · have hoff : (t1.rounding || t2.rounding) = false := by simp [hround, hrounding]
    simp only [cell, addRect, overlap, ht, hoff, if_true, Bool.false_eq_true, if_false,
      Rect.mem_cells, Rect.init]
    omega

theorem new_next (t : Tiler) : (iterated t = []) ∨
    ((Iter.new t).next.2 = true ∧ (Iter.new t).next.1.At t 0) := by
  cases hiterated : iterated t with
  | nil => exact .inl rfl
  | cons r rs =>
    have hnext : ∃ c, (Iter.new t).next = (⟨t, c, r⟩, true) ∧ c.filterMap (given t) = rs ∧
        c <:+ t.rects := scan_returns rfl hiterated
    obtain ⟨c, hnext, hrest, hsuffix⟩ := hnext
    rw [hnext]
    refine .inr ⟨rfl, rfl, ?_, ?_, hsuffix⟩
    · rw [hiterated]
      rfl
    · rw [hiterated]
      exact hrest

/--
Every pixel that an iteration of either tiler returns is in a rectangle that an iteration of the
new tiler returns.
-/
def Intersects (t1 t2 : Tiler) : Prop :=
  ∀ s1 s2, Iterates t1 s1 → Iterates t2 s2 →
    ∃ turns s1' s2' res, intersection turns t1 t2 = .returns (s1', s2', res) ∧
      ∀ p, p ∈ cover Rectangle.pixels (iterated s1) → p ∈ cover Rectangle.pixels (iterated s2) →
        ∃ t t', res = some t ∧ Iterates t t' ∧ p ∈ cover Rectangle.pixels (iterated t')

/-- Every pixel that both tilers cover is in two rectangles that meet. -/
def PairsMet (t1 t2 : Tiler) : Prop :=
  ∀ s1 s2, Iterates t1 s1 → Iterates t2 s2 →
    ∀ p, p ∈ cover Rectangle.pixels (iterated s1) → p ∈ cover Rectangle.pixels (iterated s2) →
      ∃ i j r1 r2, (iterated s1)[i]? = some r1 ∧ (iterated s2)[j]? = some r2 ∧ p ∈ r1.pixels ∧
        p ∈ r2.pixels ∧ Meets s1 s2 i j

theorem walk_covers_met {s1 s2 : Tiler} (h1 : Proper s1) (h2 : Proper s2)
    (hround : s1.rounding = s2.rounding)
    (hnew : new (min s1.area.w s2.area.w) (min s1.area.h s2.area.h) = some t) (hat1 : it1.At s1 0)
    (hat2 : it2.At s2 0)
    (hwalk : walk turns (s1.rounding || s2.rounding) left t it1 it2 = .returns t')
    (hr1 : (iterated s1)[i]? = some r1) (hr2 : (iterated s2)[j]? = some r2)
    (hmeets : Meets s1 s2 i j) (hp1 : p ∈ r1.pixels) (hp2 : p ∈ r2.pixels) :
    p ∈ cover Rectangle.pixels (iterated t') ∧ t'.needMerge = false := by
  obtain ⟨hproper, hrects, hrounding, hmerge, harea⟩ := new_proper hnew
  have hgrows := walk_grows hproper.ok hwalk
  have hmem1 := mem_of_getElem? hr1
  have hmem2 := mem_of_getElem? hr2
  obtain ⟨hmeet, hcell⟩ := mem_addRect_overlap h1 h2 hround hmem1 hmem2 hrounding hp1 hp2
  have hreach : MergeWalk.Met (edges s1) (edges s2) i j :=
    (MergeWalk.met_iff (Nat.zero_lt_of_lt hmeets.fst) (Nat.zero_lt_of_lt hmeets.snd)).mpr hmeets
  have hcovered := walk_covers hproper.ok hat1 hat2 hwalk hreach hr1 hr2 hmeet hcell
  refine ⟨mem_iterated hgrows.ok hcovered ?_, hgrows.needMerge.trans hmerge⟩
  have hin1 := mem_area_of_iterated hmem1 hp1
  have hin2 := mem_area_of_iterated hmem2 hp2
  have hleft1 := h1.left
  have hleft2 := h2.left
  have htop1 := h1.top
  have htop2 := h2.top
  rw [hgrows.area, harea]
  simp only [mem_pixels] at hin1 hin2 ⊢
  omega

/-- No turn of the additions of `intersection` splits a rectangle in three. -/
def MeetsUncut (s1 s2 : Tiler) : Prop :=
  ∀ t, new (min s1.area.w s2.area.w) (min s1.area.h s2.area.h) = some t →
    EachUncut t (overlaps (s1.rounding || s2.rounding) (s1.rects.length + s2.rects.length)
      (Iter.new s1).next.1 (Iter.new s2).next.1)

/--
**The intersection covers what two tilers have in common**, if every pixel of it is in two
rectangles that meet and no rectangle is split in three.
-/
theorem intersection_covers (h1 : Made t1) (h2 : Made t2) (hround : t1.rounding = t2.rounding)
    (hcut : ∀ s1 s2, Iterates t1 s1 → Iterates t2 s2 → MeetsUncut s1 s2)
    (hmet : PairsMet t1 t2) : Intersects t1 t2 := by
  intro s1 s2 hs1 hs2
  have hproper1 := h1.proper
  have hproper2 := h2.proper
  have hareas : t1.area.intersects t2.area = true := by
    obtain ⟨-, hl1, ht1, hw1, hh1, -⟩ := hproper1
    obtain ⟨-, hl2, ht2, hw2, hh2, -⟩ := hproper2
    exact intersects_iff.mpr ⟨⟨by omega, by omega⟩, by omega, by omega⟩
  obtain ⟨n1, hn1⟩ := id hs1
  obtain ⟨n2, hn2⟩ := id hs2
  obtain ⟨hp1', -, hround1, -⟩ := iteratorNew_proper hproper1 hn1
  obtain ⟨hp2', -, hround2, -⟩ := iteratorNew_proper hproper2 hn2
  have hrounds : s1.rounding = s2.rounding := hround1.trans (hround.trans hround2.symm)
  have hwide : 0 < min s1.area.w s2.area.w := lt_min hp1'.wide hp2'.wide
  have htall : 0 < min s1.area.h s2.area.h := lt_min hp1'.tall hp2'.tall
  have hlength : (Iter.new s1).next.1.curr.length + (Iter.new s2).next.1.curr.length ≤
      s1.rects.length + s2.rects.length :=
    add_le_add (length_next_le (Iter.new s1)) (length_next_le (Iter.new s2))
  have hstart := new_eq hwide htall
  obtain ⟨n3, t, hwalk⟩ := walk_ends (new_proper hstart).1 rfl (new_past hp1').next
    (new_past hp2').next hlength (hcut s1 s2 hs1 hs2 _ hstart)
  have hempty : ∀ s : Tiler, iterated s = [] →
      ∀ p, ¬p ∈ cover Rectangle.pixels (iterated s) := by
    intro s hnone p hp
    rw [hnone] at hp
    simp at hp
  -- turns that are enough for both iterations and the walk
  have hnew1 := (iteratorNew_mono t1).returns_of_le
    ((le_max_left n1 n2).trans (le_max_left _ n3)) hn1
  have hnew2 := (iteratorNew_mono t2).returns_of_le
    ((le_max_right n1 n2).trans (le_max_left _ n3)) hn2
  have hwalk' := (walk_mono _ _ _ _ _).returns_of_le (le_max_right (max n1 n2) n3) hwalk
  refine ⟨max (max n1 n2) n3, s1, s2, ?_⟩
  unfold intersection
  simp only [if_pos hareas, hnew1, hnew2, Outcome.returns_bind]
  by_cases hrects : s1.rects = [] ∨ s2.rects = []
  · refine ⟨none, if_pos hrects, fun p hp1 hp2 => ?_⟩
    rcases hrects with hrects | hrects
    · exact absurd hp1 (hempty s1 (by simp [iterated, hrects]) p)
    · exact absurd hp2 (hempty s2 (by simp [iterated, hrects]) p)
  rw [if_neg hrects]
  by_cases hnext1 : (Iter.new s1).next.2 = false
  · refine ⟨none, if_pos hnext1, fun p hp1 _ => absurd hp1 (hempty s1 ?_ p)⟩
    exact (new_next s1).resolve_right fun h => absurd (hnext1.symm.trans h.1) (by simp)
  rw [if_neg hnext1]
  by_cases hnext2 : (Iter.new s2).next.2 = false
  · refine ⟨none, if_pos hnext2, fun p _ hp2 => absurd hp2 (hempty s2 ?_ p)⟩
    exact (new_next s2).resolve_right fun h => absurd (hnext2.symm.trans h.1) (by simp)
  rw [if_neg hnext2, hstart]
  dsimp only
  rw [hwalk']
  refine ⟨_, rfl, fun p hp1 hp2 => ?_⟩
  have hat1 := ((new_next s1).resolve_left fun h => hempty s1 h p hp1).2
  have hat2 := ((new_next s2).resolve_left fun h => hempty s2 h p hp2).2
  obtain ⟨i, j, r1, r2, hr1, hr2, hin1, hin2, hmeets⟩ := hmet s1 s2 hs1 hs2 p hp1 hp2
  obtain ⟨hcover, hmerge⟩ := walk_covers_met hp1' hp2' hrounds hstart hat1 hat2 hwalk
    hr1 hr2 hmeets hin1 hin2
  have hne : t.rects ≠ [] := by
    intro hnil
    exact hempty t (by simp [iterated, hnil]) p hcover
  exact ⟨t, t, if_neg hne, iterates_self hmerge, hcover⟩

/-! ### Tilers of 512 by 512 pixels -/

theorem Iterates.eq_self (h : Iterates t t') (hmerge : t.needMerge = false) : t' = t := by
  obtain ⟨turns, h⟩ := h
  unfold Tiler.iteratorNew at h
  rw [if_neg (by simp [hmerge])] at h
  exact (Outcome.returns.inj h).symm

/-- A tiler after some additions. -/
def holding (last : Rectangle) (rects : List Rect) : Tiler :=
  { start 512 512 32 32 true with lastAdd := last, rects := rects }

theorem made_start : Made (start 512 512 32 32 true) := .new (new_eq (by decide) (by decide))

/-- One rectangle at the corner. -/
def corner : Tiler := holding ⟨0, 0, 10, 10⟩ [Rect.init 0 0 6 6]

theorem made_corner : Made corner := by
  have hadd : rectAdd 0 (start 512 512 32 32 true) ⟨0, 0, 10, 10⟩ = .returns (corner, true) := rfl
  exact .rectAdd made_start hadd

/-- A wide rectangle, and then a narrow one in other rows. -/
def wideFirst : Tiler :=
  holding ⟨0, 100, 50, 10⟩ [Rect.init 0 0 201 6, Rect.init 0 50 26 6]

theorem made_wideFirst : Made wideFirst := by
  have hfirst : rectAdd 0 (start 512 512 32 32 true) ⟨0, 0, 400, 10⟩ =
      .returns (holding ⟨0, 0, 400, 10⟩ [Rect.init 0 0 201 6], true) := rfl
  have hsecond : rectAdd 1 (holding ⟨0, 0, 400, 10⟩ [Rect.init 0 0 201 6]) ⟨0, 100, 50, 10⟩ =
      .returns (wideFirst, true) := by decide
  exact .rectAdd (.rectAdd made_start hfirst) hsecond

/-- Two rectangles in the same rows, in the same order. -/
def sameRows : Tiler :=
  holding ⟨10, 104, 70, 10⟩ [Rect.init 20 2 31 11, Rect.init 5 52 36 6]

theorem made_sameRows : Made sameRows := by
  have hfirst : rectAdd 0 (start 512 512 32 32 true) ⟨40, 4, 60, 20⟩ =
      .returns (holding ⟨40, 4, 60, 20⟩ [Rect.init 20 2 31 11], true) := rfl
  have hsecond : rectAdd 1 (holding ⟨40, 4, 60, 20⟩ [Rect.init 20 2 31 11]) ⟨10, 104, 70, 10⟩ =
      .returns (sameRows, true) := by decide
  exact .rectAdd (.rectAdd made_start hfirst) hsecond

theorem meetsUncut_sameRows {s1 s2 : Tiler} (h1 : Iterates wideFirst s1)
    (h2 : Iterates sameRows s2) : MeetsUncut s1 s2 := by
  intro t hnew
  rw [h1.eq_self rfl, h2.eq_self rfl] at hnew ⊢
  have hstart : new (min wideFirst.area.w sameRows.area.w) (min wideFirst.area.h sameRows.area.h) =
      some (start 512 512 32 32 true) := by decide
  obtain rfl := some.inj (hstart.symm.trans hnew)
  exact eachUncut_of_in (n := 9) _ (by decide)

theorem pairsMet_sameRows : PairsMet wideFirst sameRows := by
  intro s1 s2 h1 h2 p hp1 hp2
  rw [h1.eq_self rfl] at hp1 ⊢
  rw [h2.eq_self rfl] at hp2 ⊢
  have hfirst : iterated wideFirst = [⟨0, 0, 402, 12⟩, ⟨0, 100, 52, 12⟩] := by decide
  have hsecond : iterated sameRows = [⟨40, 4, 62, 22⟩, ⟨10, 104, 72, 12⟩] := by decide
  rw [hfirst] at hp1 ⊢
  rw [hsecond] at hp2 ⊢
  simp only [mem_cover_cons, mem_cover_nil, or_false] at hp1 hp2
  rcases hp1 with hp1 | hp1
  · rcases hp2 with hp2 | hp2
    · exact ⟨0, 0, _, _, rfl, rfl, hp1, hp2, by decide, by decide, by simp, by simp⟩
    · simp only [mem_pixels] at hp1 hp2
      omega
  · rcases hp2 with hp2 | hp2
    · simp only [mem_pixels] at hp1 hp2
      omega
    · refine ⟨1, 1, _, _, rfl, rfl, hp1, hp2, by decide, by decide, fun k hk => ?_, fun l hl => ?_⟩
      · refine ⟨1, le_rfl, .inr ⟨by decide, fun cur hcur => ?_⟩⟩
        obtain rfl := some.inj (hcur.symm.trans (show _ = some (Rect.init 5 52 36 6) from rfl))
        decide
      · obtain rfl : l = 0 := by omega
        exact ⟨0, by omega, .inl (by decide)⟩

/-- Two pairs of rectangles, the second of which the walk comes to on both lists. -/
theorem intersection_covers_sameRows : Intersects wideFirst sameRows :=
  intersection_covers made_wideFirst made_sameRows rfl
    (fun _ _ h1 h2 => meetsUncut_sameRows h1 h2) pairsMet_sameRows

/-- A rectangle in the rows of the narrow one, and then one in the rows of the wide one. -/
def narrowFirst : Tiler :=
  holding ⟨0, 0, 60, 10⟩ [Rect.init 0 50 26 6, Rect.init 0 0 31 6]

theorem made_narrowFirst : Made narrowFirst := by
  have hfirst : rectAdd 0 (start 512 512 32 32 true) ⟨0, 100, 50, 10⟩ =
      .returns (holding ⟨0, 100, 50, 10⟩ [Rect.init 0 50 26 6], true) := rfl
  have hsecond : rectAdd 1 (holding ⟨0, 100, 50, 10⟩ [Rect.init 0 50 26 6]) ⟨0, 0, 60, 10⟩ =
      .returns (narrowFirst, true) := by decide
  exact .rectAdd (.rectAdd made_start hfirst) hsecond

/-- What the two have in common, as far as the walk comes to it. -/
def wideMeetsNarrow : Tiler := holding ⟨0, 0, 31, 6⟩ [Rect.init 0 0 31 6]

theorem intersection_wideFirst : intersection 1 wideFirst narrowFirst =
    .returns (wideFirst, narrowFirst, some wideMeetsNarrow) := by
  decide

/-- The pixel (0, 100) is in both tilers and not in what they have in common. -/
theorem intersection_misses : Made wideFirst ∧ Made narrowFirst ∧
    wideFirst.rounding = narrowFirst.rounding ∧
    wideFirst.area.intersects narrowFirst.area = true ∧ ¬Intersects wideFirst narrowFirst := by
  refine ⟨made_wideFirst, made_narrowFirst, rfl, by decide, fun h => ?_⟩
  obtain ⟨turns, s1, s2, res, hrun, hcover⟩ := h wideFirst narrowFirst (iterates_self rfl)
    (iterates_self rfl)
  have hsame := (intersection_mono wideFirst narrowFirst).unique (n := turns) (m := 1)
    (by simp [hrun]) (by simp [intersection_wideFirst])
  simp only [hrun, intersection_wideFirst] at hsame
  obtain ⟨-, -, rfl⟩ := hsame
  have hin1 : ((0, 100) : Int × Int) ∈ cover Rectangle.pixels (iterated wideFirst) :=
    ⟨⟨0, 100, 52, 12⟩, by decide, by simp⟩
  have hin2 : ((0, 100) : Int × Int) ∈ cover Rectangle.pixels (iterated narrowFirst) :=
    ⟨⟨0, 100, 52, 12⟩, by decide, by simp⟩
  obtain ⟨t, t', ht, hiter, hp⟩ := hcover _ hin1 hin2
  obtain rfl := some.inj ht
  rw [hiter.eq_self rfl] at hp
  have hsingle : iterated wideMeetsNarrow = [⟨0, 0, 62, 12⟩] := by decide
  rw [hsingle] at hp
  simp at hp

end Eina.Tiler
