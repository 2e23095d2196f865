/-
`eina_tiler_union`: what is left of the two tilers.

The rectangles of a tiler that rounds are whole cells of two by two pixels.  Before one of them is
added to the other tiler, a column and a row are taken off it, because a tiler that rounds adds
them again.  A tiler that does not round adds nothing, so there the last column and row of every
rectangle are lost, unless something else covers them (`union_loses_edge`).
-/
import Efl.Eina.Tiler.Intersection

namespace Eina.Tiler

open Cover List Outcome Rectangle

variable {dst src d0 s0 t : Tiler} {r : Rectangle} {p : Int × Int} {turns : Nat}

/-! ### What the call comes to -/

/-- The area of `dst` afterwards. -/
def unionArea (dst src : Tiler) : Rectangle :=
  { dst.area with w := max src.area.w dst.area.w, h := max src.area.h dst.area.h }

/-- The additions to `dst`, one after the other. -/
def addIterated (turns : Nat) (dst src : Tiler) : Outcome Tiler :=
  (iterated src).foldlM (fun dst r => splitterRectAdd turns dst (shrink src r))
    { dst with area := unionArea dst src }

theorem forEach_eq (hmerge : src.needMerge = false) (turns : Nat)
    (f : Tiler → Rectangle → Outcome Tiler) (dst : Tiler) :
    forEach turns f dst src =
      if src.rects = [] then .returns (dst, src, none)
      else (iterated src).foldlM (fun dst r => f dst (shrink src r)) dst >>= fun d =>
        if iterated src = [] then .undefined else .returns (d, src, iterRest src) := by
  have hnew : iteratorNew turns src = .returns src := by
    unfold iteratorNew
    rw [if_neg (by simp [hmerge])]
  unfold forEach
  rw [hnew]
  rfl

theorem union_eq (hs : Proper src) (hmerge : src.needMerge = false) (turns : Nat) (dst : Tiler) :
    union turns dst src =
      if src.rects = [] then .returns ({ dst with area := unionArea dst src }, src, false)
      else addIterated turns dst src >>= fun d =>
        if iterated src = [] then .undefined
        else .returns ({ d with lastAdd := (iterRest src).getD d.lastAdd }, src, true) := by
  have hwide := hs.wide
  have htall := hs.tall
  unfold union
  rw [if_neg (by omega)]
  dsimp only
  rw [forEach_eq hmerge]
  by_cases hrects : src.rects = []
  · rw [if_pos hrects, if_pos hrects]
    rfl
  obtain ⟨cur, hcur⟩ : ∃ cur, src.rects.getLast? = some cur :=
    ⟨_, getLast?_eq_some_getLast hrects⟩
  rw [if_neg hrects, if_neg hrects]
  change ((addIterated turns dst src >>= _) >>= _) = _
  cases addIterated turns dst src with
  | running => rfl
  | undefined => rfl
  | aborts => rfl
  | returns d =>
    simp only [iterRest, hcur]
    split
    · rfl
    · rfl

/-- No turn of the additions of `union` splits a rectangle in three. -/
def UnionUncut (dst src : Tiler) : Prop :=
  EachUncut { dst with area := unionArea dst src } ((iterated src).map (shrink src))

theorem unionArea_proper (hd : Proper dst) : Proper { dst with area := unionArea dst src } :=
  ⟨hd.past, hd.left, hd.top, lt_max_of_lt_right hd.wide, lt_max_of_lt_right hd.tall, hd.tileWide,
    hd.tileTall⟩

theorem addIterated_ends (hd : Proper dst) (hs : Proper src) (hcut : UnionUncut dst src) :
    ∃ turns d, addIterated turns dst src = .returns d := by
  obtain ⟨turns, d, hfold⟩ :=
    foldlM_splitterRectAdd_ends _ (unionArea_proper hd) (shrunk_nonneg hs) hcut
  refine ⟨turns, d, ?_⟩
  rw [foldlM_map] at hfold
  exact hfold

/-! ### What is covered -/

theorem mem_covered_of_iterated (hok : AllOk t.rects) (hr : r ∈ iterated t) (hp : p ∈ r.pixels) :
    p ∈ covered t := by
  obtain ⟨cur, hmem, hcur⟩ := mem_filterMap.mp hr
  have hright := (hok cur hmem).right
  have hbottom := (hok cur hmem).bottom
  split at hcur
  · rename_i hgiven
    obtain rfl := Option.some.inj hcur
    simp only [iterRect, Bool.and_eq_true] at hgiven hp
    have hbig := ((mem_intersection (Prod.ext rfl hgiven.1) p).mp hp).1
    refine ⟨cur, hmem, ?_⟩
    unfold cell
    split
    · rename_i hround
      rw [if_pos hround] at hbig
      simp only [mem_pixels, Rect.mem_cells] at hbig ⊢
      omega
    · rename_i hround
      rw [if_neg hround] at hbig
      simp only [mem_pixels, Rect.mem_cells] at hbig ⊢
      omega
  · simp at hcur

theorem mem_unionArea (hd : Proper dst) (hs : Proper src)
    (hp : p ∈ dst.area.pixels ∨ p ∈ src.area.pixels) : p ∈ (unionArea dst src).pixels := by
  have hdl := hd.left
  have hdt := hd.top
  have hsl := hs.left
  have hst := hs.top
  simp only [unionArea, mem_pixels] at hp ⊢
  omega

/-- After iterations of both tilers, and the union, an iteration of `dst` returns what they did. -/
def UnionKeeps (dst src : Tiler) : Prop :=
  ∀ d0 s0, Iterates dst d0 → Iterates src s0 →
    ∃ turns d s b d1, union turns d0 s0 = .returns (d, s, b) ∧ Iterates d d1 ∧
      ∀ p, p ∈ cover Rectangle.pixels (iterated d0) ∨ p ∈ cover Rectangle.pixels (iterated s0) →
        p ∈ cover Rectangle.pixels (iterated d1)

/--
Where the last column and row of the rectangles of `src` are taken off and not added again, they
are covered by `dst` or by other rectangles of `src` without theirs.
-/
def EdgesKept (dst src : Tiler) : Prop :=
  src.rounding = false ∨ dst.rounding = true ∨
    ∀ d0 s0, Iterates dst d0 → Iterates src s0 → ∀ r ∈ iterated s0, ∀ p ∈ r.pixels,
      p ∉ (shrink s0 r).pixels → p ∈ covered d0 ∨ ∃ r' ∈ iterated s0, p ∈ (shrink s0 r').pixels

theorem mem_added (hs : Proper s0) (hd : d0.rounding = dst.rounding)
    (hround : s0.rounding = src.rounding) (hedges : EdgesKept dst src) (hdst : Iterates dst d0)
    (hsrc : Iterates src s0) (hr : r ∈ iterated s0) (hp : p ∈ r.pixels) :
    p ∈ covered d0 ∨
      ∃ r' ∈ iterated s0, cell d0.rounding p ∈ (addRect d0 (shrink s0 r')).cells := by
  rcases hedges with hoff | hon | hedges
  · refine .inr ⟨r, hr, ?_⟩
    have hshrink : shrink s0 r = r := by
      unfold shrink
      rw [if_neg (by simp [hround, hoff])]
    rw [hshrink]
    exact mem_addRect hp
  · by_cases hsrc' : s0.rounding = true
    · exact .inr ⟨r, hr, mem_addRect_shrink hs.left hs.top (hd.trans (hon.trans hsrc'.symm)) hr
        hp⟩
    refine .inr ⟨r, hr, ?_⟩
    have hshrink : shrink s0 r = r := by
      unfold shrink
      rw [if_neg hsrc']
    rw [hshrink]
    exact mem_addRect hp
  · by_cases hin : p ∈ (shrink s0 r).pixels
    · exact .inr ⟨r, hr, mem_addRect hin⟩
    rcases hedges d0 s0 hdst hsrc r hr p hp hin with hcovered | ⟨r', hr', hin'⟩
    · exact .inl hcovered
    · exact .inr ⟨r', hr', mem_addRect hin'⟩

theorem addIterated_keeps {d : Tiler} (hd : Proper d0)
    (hrun : addIterated turns d0 s0 = .returns d) :
    AllOk d.rects ∧ d.area = unionArea d0 s0 ∧ d.needMerge = d0.needMerge ∧
      covered d0 ⊆ covered d ∧ ∀ r ∈ iterated s0, ∀ p,
        cell d0.rounding p ∈ (addRect d0 (shrink s0 r)).cells → p ∈ covered d := by
  obtain ⟨ys, rfl, hys, hkept, hadded⟩ := foldlM_splitterRectAdd _ (by exact hd.ok) hrun
  exact ⟨hys, rfl, rfl, hkept, hadded⟩

/--
**The union keeps what both tilers returned**, where the edges are kept and no rectangle is split
in three, exactly when `src` has no rectangles or returns one.
-/
theorem unionKeeps_iff (hdst : Made dst) (hsrc : Made src) (hedges : EdgesKept dst src)
    (hcut : ∀ d0 s0, Iterates dst d0 → Iterates src s0 → UnionUncut d0 s0) :
    UnionKeeps dst src ↔ ∀ d0 s0, Iterates dst d0 → Iterates src s0 →
      s0.rects = [] ∨ iterated s0 ≠ [] := by
  constructor
  · intro h d0 s0 hd hs
    obtain ⟨turns, d, s, b, d1, hunion, -⟩ := h d0 s0 hd hs
    obtain ⟨n, hn⟩ := hs
    obtain ⟨hproper, -, -, hmerge⟩ := iteratorNew_proper hsrc.proper hn
    rw [union_eq hproper hmerge] at hunion
    split at hunion
    · rename_i hrects
      exact .inl hrects
    · obtain ⟨d', hadd, hunion⟩ := bind_eq_returns.mp hunion
      refine .inr ?_
      intro hnone
      rw [if_pos hnone] at hunion
      simp at hunion
  · intro h d0 s0 hd hs
    have hreturned := h d0 s0 hd hs
    have hcut := hcut d0 s0 hd hs
    obtain ⟨n, hn⟩ := hd
    obtain ⟨hproperD, -, hroundD, hmergeD⟩ := iteratorNew_proper hdst.proper hn
    obtain ⟨m, hm⟩ := hs
    obtain ⟨hproperS, -, hroundS, hmergeS⟩ := iteratorNew_proper hsrc.proper hm
    obtain ⟨turns, d, hadd⟩ := addIterated_ends hproperD hproperS hcut
    obtain ⟨hok, harea, hmerge, hkept, hadded⟩ := addIterated_keeps hproperD hadd
    have hin : ∀ p, p ∈ cover Rectangle.pixels (iterated d0) ∨
        p ∈ cover Rectangle.pixels (iterated s0) → p ∈ covered d ∧ p ∈ d.area.pixels := by
      rw [harea]
      rintro p (⟨r, hr, hp⟩ | ⟨r, hr, hp⟩)
      · exact ⟨hkept (mem_covered_of_iterated hproperD.ok hr hp),
          mem_unionArea hproperD hproperS (.inl (mem_area_of_iterated hr hp))⟩
      refine ⟨?_, mem_unionArea hproperD hproperS (.inr (mem_area_of_iterated hr hp))⟩
      rcases mem_added hproperS hroundD hroundS hedges ⟨n, hn⟩ ⟨m, hm⟩ hr hp with
        hcovered | ⟨r', hr', hcell⟩
      · exact hkept hcovered
      · exact hadded r' hr' p hcell
    by_cases hrects : s0.rects = []
    · have hnone : iterated s0 = [] := by simp [iterated, hrects]
      have hd : d = { d0 with area := unionArea d0 s0 } := by
        rw [addIterated, hnone] at hadd
        exact (Outcome.returns.inj hadd).symm
      refine ⟨turns, d, s0, false, d, ?_, iterates_self (hmerge.trans hmergeD), fun p hp => ?_⟩
      · rw [union_eq hproperS hmergeS, if_pos hrects, hd]
      · exact mem_iterated hok (hin p hp).1 (hin p hp).2
    · refine ⟨turns, { d with lastAdd := (iterRest s0).getD d.lastAdd }, s0, true, _, ?_,
        iterates_self (hmerge.trans hmergeD), fun p hp => ?_⟩
      · rw [union_eq hproperS hmergeS, if_neg hrects, hadd, returns_bind,
          if_neg (hreturned.resolve_left hrects)]
      · exact mem_iterated hok (hin p hp).1 (hin p hp).2

/-- A tiler without rectangles that does not round. -/
def fine : Tiler := tileSizeSet (start 512 512 32 32 true) 1 1

theorem made_fine : Made fine := .tileSizeSet 1 1 made_start

/-- A tiler that does not round, with a column and a row. -/
def framed : Tiler :=
  { fine with lastAdd := ⟨0, 31, 31, 10⟩, rects := [Rect.init 31 0 10 60, Rect.init 0 31 31 10] }

theorem made_framed : Made framed := by
  have hfirst : rectAdd 0 fine ⟨31, 0, 10, 60⟩ =
      .returns ({ fine with lastAdd := ⟨31, 0, 10, 60⟩, rects := [Rect.init 31 0 10 60] }, true) :=
    rfl
  have hsecond : rectAdd 2
      { fine with lastAdd := ⟨31, 0, 10, 60⟩, rects := [Rect.init 31 0 10 60] } ⟨0, 31, 31, 10⟩ =
      .returns (framed, true) := by decide
  exact .rectAdd (.rectAdd made_fine hfirst) hsecond

/-- A tiler that rounds, with two rectangles, the edges of which are in `framed`. -/
def inFrame : Tiler :=
  { tileSizeSet (start 512 512 32 32 true) 4 4 with
    lastAdd := ⟨34, 4, 4, 4⟩
    rects := [Rect.init 10 10 6 6, Rect.init 17 2 3 3] }

theorem made_inFrame : Made inFrame := by
  have hfirst : rectAdd 0 (tileSizeSet (start 512 512 32 32 true) 4 4) ⟨20, 20, 10, 10⟩ =
      .returns ({ tileSizeSet (start 512 512 32 32 true) 4 4 with
        lastAdd := ⟨20, 20, 10, 10⟩, rects := [Rect.init 10 10 6 6] }, true) := rfl
  have hsecond : rectAdd 2 { tileSizeSet (start 512 512 32 32 true) 4 4 with
        lastAdd := ⟨20, 20, 10, 10⟩, rects := [Rect.init 10 10 6 6] } ⟨34, 4, 4, 4⟩ =
      .returns (inFrame, true) := by decide
  exact .rectAdd (.rectAdd (.tileSizeSet 4 4 made_start) hfirst) hsecond

theorem edgesKept_inFrame : EdgesKept framed inFrame := by
  refine .inr (.inr fun d0 s0 hd hs r hr p hp hlost => .inl ?_)
  rw [hd.eq_self rfl]
  rw [hs.eq_self rfl] at hr hlost
  have hiterated : iterated inFrame = [⟨20, 20, 12, 12⟩, ⟨34, 4, 6, 6⟩] := by decide
  have hround : inFrame.rounding = true := by decide
  have hoff : framed.rounding = false := by decide
  have hcells : framed.rects = [Rect.init 31 0 10 60, Rect.init 0 31 31 10] := rfl
  rw [hiterated] at hr
  simp only [covered, cell, hoff, hcells, Bool.false_eq_true, if_false, Set.mem_ofPred_eq,
    mem_cover_cons, mem_cover_nil, or_false, Rect.mem_cells, Rect.init]
  rcases mem_pair.mp hr with rfl | rfl
  · simp only [shrink, hround, if_true, mem_pixels] at hp hlost
    omega
  · simp only [mem_pixels] at hp
    omega

/-- The last column and row of the first rectangle are taken off, and covered by `framed`. -/
theorem unionKeeps_inFrame : UnionKeeps framed inFrame := by
  have hself : ∀ {d0 s0 : Tiler}, Iterates framed d0 → Iterates inFrame s0 →
      d0 = framed ∧ s0 = inFrame := fun hd hs => ⟨hd.eq_self rfl, hs.eq_self rfl⟩
  refine (unionKeeps_iff made_framed made_inFrame edgesKept_inFrame ?_).mpr ?_
  · intro d0 s0 hd hs
    obtain ⟨rfl, rfl⟩ := hself hd hs
    exact eachUncut_of_in (n := 20) _ (by decide)
  · intro d0 s0 hd hs
    obtain ⟨rfl, rfl⟩ := hself hd hs
    exact .inr (by decide)

/-! ### The edges -/

theorem splitterRectAdd_empty (turns : Nat) {t : Tiler} (hempty : t.rects = []) (r : Rectangle) :
    splitterRectAdd turns t r = .returns { t with rects := [addRect t r] } := by
  unfold splitterRectAdd addSplitFuzzyAndMerge addSplitFuzzy
  rw [hempty]
  rfl

/--
**The last column of a rectangle is lost** whenever it is the only one that a tiler returns that
rounds, and it is added to a tiler without rectangles that does not.
-/
theorem union_loses_edge (hdst : Made dst) (hsrc : Made src) (hoff : dst.rounding = false)
    (hon : src.rounding = true) (hd : Iterates dst d0) (hempty : d0.rects = [])
    (hs : Iterates src s0) (hone : iterated s0 = [r]) : ¬UnionKeeps dst src := by
  intro h
  obtain ⟨turns, d, s, b, d1, hunion, hd1, hkeeps⟩ := h d0 s0 hd hs
  obtain ⟨n, hn⟩ := hd
  obtain ⟨-, -, hroundD, hmergeD⟩ := iteratorNew_proper hdst.proper hn
  obtain ⟨m, hm⟩ := hs
  obtain ⟨hproperS, -, hroundS, hmergeS⟩ := iteratorNew_proper hsrc.proper hm
  have hadd : addIterated turns d0 s0 = .returns { d0 with
      area := unionArea d0 s0
      rects := [addRect { d0 with area := unionArea d0 s0 } (shrink s0 r)] } := by
    unfold addIterated
    rw [hone, foldlM_cons,
      splitterRectAdd_empty turns (by exact hempty)]
    rfl
  have hrects : s0.rects ≠ [] := by
    intro hnil
    rw [iterated, hnil] at hone
    simp at hone
  rw [union_eq hproperS hmergeS, if_neg hrects, hadd, returns_bind,
    if_neg (by rw [hone]; simp)] at hunion
  obtain ⟨rfl, -⟩ := Prod.mk.inj (Outcome.returns.inj hunion)
  rw [hd1.eq_self hmergeD] at hkeeps
  have hmem : r ∈ iterated s0 := by rw [hone]; exact mem_cons_self
  have hpos : 0 < r.w ∧ 0 < r.h := by
    obtain ⟨cur, -, hcur⟩ := mem_filterMap.mp hmem
    split at hcur
    · rename_i hgiven
      obtain rfl := Option.some.inj hcur
      simp only [iterRect, Bool.and_eq_true] at hgiven ⊢
      exact intersection_pos (Prod.ext rfl hgiven.1)
    · simp at hcur
  have hlast : (r.x + r.w - 1, r.y) ∈ cover Rectangle.pixels (iterated s0) := by
    refine ⟨r, hmem, ?_⟩
    simp only [mem_pixels]
    omega
  obtain ⟨r', hr', hp⟩ := hkeeps _ (.inr hlast)
  have hcovered := mem_covered_of_iterated (by
    intro x hx
    rw [mem_singleton.mp hx]
    exact ok_addRect _ _) hr' hp
  have hround : d0.rounding = false := hroundD.trans hoff
  have hshrink : shrink s0 r = { r with w := r.w - 1, h := r.h - 1 } := by
    unfold shrink
    rw [if_pos (hroundS.trans hon)]
  simp only [covered, cell, addRect, hround, hshrink, Bool.false_eq_true, if_false, Rect.init,
    Set.mem_ofPred_eq, mem_cover_cons, mem_cover_nil, or_false, Rect.mem_cells] at hcovered
  omega

/-- The pixel (11, 0) is returned for `corner`, and not after the union. -/
theorem union_loses_corner : Made fine ∧ Made corner ∧ ¬UnionKeeps fine corner := by
  have hone : iterated corner = [⟨0, 0, 12, 12⟩] := by decide
  exact ⟨made_fine, made_corner,
    union_loses_edge made_fine made_corner rfl rfl (iterates_self rfl) rfl
    (iterates_self rfl) hone⟩

end Eina.Tiler
