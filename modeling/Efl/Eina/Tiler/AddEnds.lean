/-
When the worklist loop of `rect_list_add_split_fuzzy` ends.

Every turn lowers `cost`, where a rectangle counts for its area and the accepted error: a split
gives up the common area, which is more than the error, and adds at most one rectangle; a merge
adds at most the error and takes one away.  Only a rectangle that sticks out on three sides is
split in three, and pays for both of the new ones if the common area is more than twice the error.
-/
import Mathlib.Tactic.Linarith
import Efl.Eina.Tiler.RectList

namespace Eina.Tiler

open List Outcome Rect

variable {a b current r : Rect} {rects dirty : List Rect} {e : Int}

/-- `r` goes beyond `current` to the left, to the right, and above or below. -/
def SticksOut (current r : Rect) : Prop :=
  r.left < current.left ∧ current.right < r.right ∧
    (r.top < current.top ∨ current.bottom < r.bottom)

instance : Decidable (SticksOut current r) :=
  inferInstanceAs (Decidable (_ ∧ _ ∧ (_ ∨ _)))

/--
Of the rectangles the loop goes by, the one it stops at splits `r` in three, for no more than twice
the accepted error.
-/
def cutsThree (acceptedError : Int) (r : Rect) : List Rect → Bool
  | [] => false
  | current :: rest =>
    let (intra, outer) := calcIntraOuterRectArea r current
    if intra.width = r.width ∧ intra.height = r.height then false
    else if intra.width = current.width ∧ intra.height = current.height then
      cutsThree acceptedError r rest
    else if outer.area - (current.area + r.area - intra.area) ≤ acceptedError then false
    else if intra.area ≤ acceptedError then cutsThree acceptedError r rest
    else decide (intra.area ≤ 2 * acceptedError ∧ SticksOut current r)

/-! ### The pieces -/

/-- The sum of the areas. -/
def areas (rs : List Rect) : Int := (rs.map Rect.area).sum

theorem areas_append (xs ys : List Rect) : areas (xs ++ ys) = areas xs + areas ys := by
  simp [areas]

theorem areas_ite {c : Prop} [Decidable c] :
    areas (if c then [r] else []) = if c then r.area else 0 := by
  split <;> simp [areas]

/-- The two overlap. -/
structure Meet (a b : Rect) : Prop where
  width : 0 < min a.right b.right - max a.left b.left
  height : 0 < min a.bottom b.bottom - max a.top b.top

theorem areas_rows (hb : b.Ok) : areas (splitRows a b).1 =
    b.width * (b.height - (min a.bottom b.bottom - max a.top b.top)) := by
  have hbottom := hb.bottom
  rw [splitRows_fst, areas_append, areas_ite, areas_ite]
  have hrows : (if 0 < a.top - b.top then a.top - b.top else 0) +
      (if 0 < b.bottom - a.bottom then b.bottom - a.bottom else 0) =
        b.height - (min a.bottom b.bottom - max a.top b.top) := by
    split_ifs <;> omega
  rw [← hrows, Int.mul_add]
  simp only [Rect.init, mul_ite, mul_zero]

theorem areas_columns (hb : b.Ok) : areas (splitColumns a (splitRows a b).2) =
    (b.width - (min a.right b.right - max a.left b.left)) *
      (min a.bottom b.bottom - max a.top b.top) := by
  obtain ⟨hleft, hright, -, htop, hheight⟩ := splitRows_rest (a := a) hb
  have hbright := hb.right
  have hrest : (splitRows a b).2.height = min a.bottom b.bottom - max a.top b.top := by omega
  unfold splitColumns
  rw [areas_append, areas_ite, areas_ite, hleft, hright, hrest]
  have hcolumns : (if 0 < a.left - b.left then a.left - b.left else 0) +
      (if 0 < b.right - a.right then b.right - a.right else 0) =
        b.width - (min a.right b.right - max a.left b.left) := by
    split_ifs <;> omega
  rw [← hcolumns, add_mul]
  simp only [Rect.init, ite_mul, zero_mul]

theorem splitFuzzy_eq (hb : b.Ok) : splitFuzzy a b =
    if (0 < a.left - b.left ∨ 0 < b.right - a.right) ∧ a.height = (splitRows a b).2.height then
      ((splitRows a b).1, (splitRows a b).2, .merge)
    else (splitStrict a b, (splitRows a b).2, if splitStrict a b = [] then .none else .split) := by
  obtain ⟨hleft, hright, -⟩ := splitRows_rest (a := a) hb
  simp only [splitFuzzy, hleft, hright]
  rfl

theorem length_ite {c : Prop} [Decidable c] : (if c then [r] else []).length ≤ 1 := by
  split <;> simp

theorem length_rows : (splitRows a b).1.length ≤ 2 := by
  rw [splitRows_fst, length_append]
  exact add_le_add length_ite length_ite

theorem length_pieces (hb : b.Ok)
    (hmerge : ¬((0 < a.left - b.left ∨ 0 < b.right - a.right) ∧
      a.height = (splitRows a b).2.height)) (ha : a.Ok) :
    (splitStrict a b).length ≤ 2 ∨ (splitStrict a b).length = 3 ∧ SticksOut a b := by
  obtain ⟨hleft, hright, -, htop, hheight⟩ := splitRows_rest (a := a) hb
  have habottom := ha.bottom
  unfold splitStrict splitColumns SticksOut
  rw [splitRows_fst]
  simp only [length_append]
  split_ifs <;> simp only [length_cons, length_nil, true_and] <;> omega

/-! ### What a turn costs -/

/-- A rectangle of the worklist still has to be looked at, which counts 1 more. -/
def cost (e : Int) (w : Work) : Int :=
  5 * (areas w.rects + areas w.dirty) + (5 * e + 1) * w.rects.length + (5 * e + 2) * w.dirty.length

theorem Rect.Past.area_nonneg {x y : Int} (h : r.Past x y) : 0 ≤ r.area := by
  rw [h.area]
  exact mul_nonneg h.width_nonneg h.height_nonneg

theorem intra_area_nonneg : 0 ≤ (calcIntraOuterRectArea b a).1.area := by
  simp only [calcIntraOuterRectArea]
  split
  · rename_i h
    exact (mul_pos h.1 h.2).le
  · exact le_rfl

theorem meet_of_area (h : 0 < (calcIntraOuterRectArea b a).1.area) : Meet a b := by
  simp only [calcIntraOuterRectArea] at h
  split at h
  · constructor <;> omega
  · exact absurd h (lt_irrefl _)

theorem Meet.area (h : Meet a b) : (calcIntraOuterRectArea b a).1.area =
    (min a.right b.right - max a.left b.left) * (min a.bottom b.bottom - max a.top b.top) := by
  obtain ⟨hwidth, hheight⟩ := h
  simp only [calcIntraOuterRectArea]
  rw [min_comm, max_comm, min_comm b.bottom, max_comm b.top,
    if_pos ⟨hwidth, hheight⟩]

theorem areas_split (hb : b.Ok) (h : Meet a b) : areas (splitStrict a b) =
    b.area - (calcIntraOuterRectArea b a).1.area := by
  rw [splitStrict, areas_append, areas_rows hb, areas_columns hb, h.area, hb.area]
  ring

theorem areas_merge (ha : a.Ok) (hb : b.Ok) (h : Meet a b)
    (hheight : a.height = (splitRows a b).2.height) :
    areas (splitRows a b).1 + (calcIntraOuterRectArea b a).2.width * a.height =
      a.area + b.area - (calcIntraOuterRectArea b a).1.area := by
  obtain ⟨-, -, -, htop, hbottom⟩ := splitRows_rest (a := a) hb
  have hcommon : min a.bottom b.bottom - max a.top b.top = a.height := by omega
  have hwidth : (calcIntraOuterRectArea b a).2.width =
      a.width + b.width - (min a.right b.right - max a.left b.left) := by
    have haright := ha.right
    have hbright := hb.right
    simp only [calcIntraOuterRectArea, calcOuterRectArea]
    omega
  rw [areas_rows hb, h.area, ha.area, hb.area, hcommon, hwidth]
  ring

/-- **A turn that does not cut in three lowers the cost.** -/
theorem scan_lowers {x y : Int} (he : 0 ≤ e) (hr : r.Past x y) :
    ∀ (rest before : List Rect) (oldLast : Nat), (∀ z ∈ before ++ rest, z.Past x y) →
      cutsThree e r rest = false → ∀ w, scan e r dirty oldLast before rest = .returns w →
        cost e w < cost e ⟨before ++ rest, r :: dirty, oldLast⟩ := by
  have harea := hr.area_nonneg
  intro rest
  induction rest with
  | nil =>
    intro before oldLast hpast _ w hw
    obtain rfl := Outcome.returns.inj hw
    simp [cost, areas]
    linarith
  | cons current rest ih =>
    intro before oldLast hpast hcut w hw
    have hcurrent : current.Past x y := hpast _ (by simp)
    have hcurrentArea := hcurrent.area_nonneg
    simp only [scan] at hw
    simp only [cutsThree] at hcut
    simp only [forall_mem_append, forall_mem_cons] at hpast
    obtain ⟨hbefore, -, hrest⟩ := hpast
    split at hw
    · obtain rfl := Outcome.returns.inj hw
      simp [cost, areas]
      linarith
    rename_i hin
    rw [if_neg hin] at hcut
    split at hw
    · rename_i hin'
      rw [if_pos hin'] at hcut
      refine (ih before _ (forall_mem_append.mpr ⟨hbefore, hrest⟩) hcut w hw).trans ?_
      simp [cost, areas]
      linarith
    rename_i hin'
    rw [if_neg hin'] at hcut
    split at hw
    · -- a merge adds at most the accepted error
      obtain rfl := Outcome.returns.inj hw
      have hintra := intra_area_nonneg (b := r) (a := current)
      simp [cost, areas]
      linarith
    rename_i hmerge
    rw [if_neg hmerge] at hcut
    split at hw
    · rename_i hsmall
      rw [if_pos hsmall] at hcut
      have hlower := ih (before ++ [current]) _ (by
        simp only [forall_mem_append, forall_mem_cons]
        exact ⟨⟨hbefore, hcurrent, forall_mem_nil _⟩, hrest⟩) hcut w hw
      simpa using hlower
    rename_i hlarge
    rw [if_neg hlarge, decide_eq_false_iff_not] at hcut
    have hmeet : Meet current r := meet_of_area (by omega)
    rw [splitFuzzy_eq hr.toOk] at hw
    by_cases hgrows : (0 < current.left - r.left ∨ 0 < r.right - current.right) ∧
      current.height = (splitRows current r).2.height
    · rw [if_pos hgrows] at hw
      obtain rfl := Outcome.returns.inj hw
      have hareas := areas_merge hcurrent.toOk hr.toOk hmeet hgrows.2
      have hrows := length_rows (a := current) (b := r)
      have hcount : (5 * e + 2) * ((splitRows current r).1.length : Int) ≤ (5 * e + 2) * 2 :=
        mul_le_mul_of_nonneg_left (by omega) (by omega)
      simp [cost, areas, ← hgrows.2] at hareas ⊢
      linarith
    rw [if_neg hgrows] at hw
    by_cases hnil : splitStrict current r = []
    · rw [if_pos hnil] at hw
      exact absurd hw (by simp)
    rw [if_neg hnil] at hw
    obtain rfl := Outcome.returns.inj hw
    have hareas := areas_split hr.toOk hmeet
    simp [cost, areas] at hareas ⊢
    rcases length_pieces hr.toOk hgrows hcurrent.toOk with hcount | ⟨hcount, hout⟩
    · have hcount : (5 * e + 2) * ((splitStrict current r).length : Int) ≤ (5 * e + 2) * 2 :=
        mul_le_mul_of_nonneg_left (by omega) (by omega)
      linarith
    · -- three pieces are paid for by the common area
      have hpaid : 2 * e < (calcIntraOuterRectArea r current).1.area :=
        not_le.mp fun hle => hcut ⟨hle, hout⟩
      rw [hcount]
      push_cast
      linarith

theorem areas_nonneg {x y : Int} {xs : List Rect} (h : ∀ z ∈ xs, z.Past x y) : 0 ≤ areas xs := by
  induction xs with
  | nil => exact le_rfl
  | cons z xs ih =>
    rw [forall_mem_cons] at h
    have hz := h.1.area_nonneg
    have hxs := ih h.2
    simp only [areas, map_cons, sum_cons] at *
    omega

/-- The loop ends where no turn of it cuts in three. -/
theorem addLoop_ends {x y : Int} (he : 0 ≤ e) : ∀ (n : Nat) (w : Work), cost e w < n →
    (∀ z ∈ w.rects ++ w.dirty, z.Past x y) →
      (∀ k rects r dirty oldLast, workAfter e k w = some ⟨rects, r :: dirty, oldLast⟩ →
        cutsThree e r rects = false) →
        ∃ turns ys k, addLoop e turns w = .returns (ys, k) := by
  intro n
  induction n with
  | zero =>
    intro w hlt hpast
    rw [forall_mem_append] at hpast
    have hrects := areas_nonneg hpast.1
    have hdirty := areas_nonneg hpast.2
    have hcount : 0 ≤ (5 * e + 1) * (w.rects.length : Int) := mul_nonneg (by omega) (by omega)
    have hcount' : 0 ≤ (5 * e + 2) * (w.dirty.length : Int) := mul_nonneg (by omega) (by omega)
    simp only [cost] at hlt
    omega
  | succ n ih =>
    rintro ⟨rects, dirty, oldLast⟩ hlt hpast hcut
    cases dirty with
    | nil => exact ⟨0, rects, oldLast, rfl⟩
    | cons r dirty =>
      have hall := hpast
      simp only [forall_mem_append, forall_mem_cons] at hpast
      obtain ⟨hrects, hr, hdirty⟩ := hpast
      obtain ⟨w, hw, hkeeps⟩ := scan_keeps hr.toOk
        (fun z hz => (hdirty z hz).toOk) rects [] oldLast fun z hz => (hrects z hz).toOk
      have hlower := scan_lowers he hr rects [] oldLast hrects (hcut 0 _ _ _ _ rfl) w hw
      obtain ⟨turns, ys, k, h⟩ := ih w (by
        simp only [nil_append] at hlower
        omega) (hkeeps.past he x y hall) (by
        intro k rects' r' dirty' oldLast' hk
        refine hcut (k + 1) _ _ dirty' oldLast' ?_
        simp only [workAfter, hw]
        exact hk)
      refine ⟨turns + 1, ys, k, ?_⟩
      simp only [addLoop, hw]
      exact h

/-- No turn of the loop splits a rectangle in three for no more than twice the accepted error. -/
def Uncut (e : Int) (rects : List Rect) (node : Rect) : Prop :=
  ∀ k rects' r dirty oldLast,
    workAfter e k ⟨rects, [node], rects.length⟩ = some ⟨rects', r :: dirty, oldLast⟩ →
      cutsThree e r rects' = false

theorem addSplitFuzzy_returns {x y : Int} {node : Rect} (he : 0 ≤ e)
    (hrects : ∀ z ∈ rects, z.Past x y) (hnode : node.Past x y) (hturns : Uncut e rects node) :
    ∃ turns ys n, addSplitFuzzy turns rects node e = .returns (ys, n) := by
  unfold addSplitFuzzy
  by_cases hnil : rects = []
  · exact ⟨0, [node], 0, if_pos hnil⟩
  simp only [if_neg hnil]
  refine addLoop_ends (x := x) (y := y) he
    ((cost e ⟨rects, [node], rects.length⟩).toNat + 1) _ (by omega) ?_ hturns
  rw [forall_mem_append]
  exact ⟨hrects, fun z hz => mem_singleton.mp hz ▸ hnode⟩

/-- The worklist runs empty in so many turns, none of which splits a rectangle in three. -/
def uncutWithin (e : Int) : Nat → Work → Bool
  | _, ⟨_, [], _⟩ => true
  | 0, _ => false
  | n + 1, ⟨rects, r :: dirty, oldLast⟩ =>
    !cutsThree e r rects &&
      match scan e r dirty oldLast [] rects with
      | .returns w => uncutWithin e n w
      | _ => true

theorem uncut_of_within {n : Nat} : ∀ {w : Work}, uncutWithin e n w = true →
    ∀ k rects' r dirty oldLast, workAfter e k w = some ⟨rects', r :: dirty, oldLast⟩ →
      cutsThree e r rects' = false := by
  induction n with
  | zero =>
    rintro ⟨rects, _ | ⟨a, dirty⟩, oldLast⟩ h k rects' r dirty' oldLast' hk
    · cases k <;> simp [workAfter] at hk
    · simp [uncutWithin] at h
  | succ n ih =>
    rintro ⟨rects, _ | ⟨a, dirty⟩, oldLast⟩ h k rects' r dirty' oldLast' hk
    · cases k <;> simp [workAfter] at hk
    simp only [uncutWithin, Bool.and_eq_true, Bool.not_eq_true'] at h
    obtain ⟨hcut, hrest⟩ := h
    cases k with
    | zero =>
      obtain ⟨rfl, hdirty, -⟩ := Work.mk.inj (Option.some.inj hk)
      obtain ⟨rfl, -⟩ := cons.inj hdirty
      exact hcut
    | succ k =>
      unfold workAfter at hk
      split at hk
      · rename_i w hscan
        rw [hscan] at hrest
        exact ih hrest k rects' r dirty' oldLast' hk
      · simp at hk

theorem exists_past {xs : List Rect} (h : ∀ r ∈ xs, r.Positive) :
    ∃ x y, ∀ r ∈ xs, r.Past x y := by
  induction xs with
  | nil => exact ⟨0, 0, forall_mem_nil _⟩
  | cons a xs ih =>
    rw [forall_mem_cons] at h
    obtain ⟨x, y, hxs⟩ := ih h.2
    refine ⟨min x a.left, min y a.top, forall_mem_cons.mpr ⟨⟨h.1.toOk, h.1.width_pos.le,
      h.1.height_pos.le, min_le_right _ _, min_le_right _ _⟩, fun r hr => ?_⟩⟩
    obtain ⟨hok, hwidth, hheight, hleft, htop⟩ := hxs r hr
    exact ⟨hok, hwidth, hheight, (min_le_left _ _).trans hleft, (min_le_left _ _).trans htop⟩

/--
**The worklist runs empty**, when none of the turns splits a rectangle in three for no more than
twice the accepted error.
-/
theorem addSplitFuzzy_ends (rects : List Rect) (node : Rect) (acceptedError : Int)
    (he : 1 ≤ acceptedError) (hrects : ∀ x ∈ rects, x.Positive) (hnode : node.Positive)
    (hturns : ∀ k rects' r dirty oldLast,
      workAfter acceptedError k ⟨rects, [node], rects.length⟩ = some ⟨rects', r :: dirty, oldLast⟩ →
        cutsThree acceptedError r rects' = false) :
    ∃ turns ys n, addSplitFuzzy turns rects node acceptedError = .returns (ys, n) := by
  obtain ⟨x, y, hpast⟩ := exists_past (forall_mem_cons.mpr ⟨hnode, hrects⟩)
  rw [forall_mem_cons] at hpast
  exact addSplitFuzzy_returns (by omega) hpast.2 hpast.1 hturns

/-- The rectangle is cut in two along the first one, and one piece is merged with the second. -/
theorem addSplitFuzzy_ends_cut : ∃ turns ys n,
    addSplitFuzzy turns [Rect.init 0 0 8 8, Rect.init 12 4 4 4] (Rect.init 4 4 8 8) 1 =
      .returns (ys, n) := by
  refine addSplitFuzzy_ends _ _ 1 le_rfl ?_ ⟨ok_init _ _ _ _, by decide, by decide⟩ ?_
  · intro x hx
    rcases mem_pair.mp hx with rfl | rfl
    · exact ⟨ok_init _ _ _ _, by decide, by decide⟩
    · exact ⟨ok_init _ _ _ _, by decide, by decide⟩
  · rintro (_ | _ | _ | _ | _ | k) rects' r dirty oldLast h
    iterate 4
      · obtain ⟨⟩ := h
        decide
    · exact absurd (congrArg Work.dirty (Option.some.inj h)) (cons_ne_nil r dirty).symm
    · exact absurd (show none = some _ from h) (by simp)

/-- The rectangle is cut along the two of the list, and after eight turns it is back. -/
theorem addSplitFuzzy_loops : ¬∀ (rects : List Rect) (node : Rect) (acceptedError : Int),
    1 ≤ acceptedError → (∀ x ∈ rects, x.Positive) → node.Positive →
      ∃ turns ys n, addSplitFuzzy turns rects node acceptedError = .returns (ys, n) := by
  intro h
  obtain ⟨turns, ys, n, hreturns⟩ := h [Rect.init 128 32 80 80, Rect.init 80 0 80 32]
    (Rect.init 0 16 240 32) 1024 (by decide) (by
      intro x hx
      rcases mem_pair.mp hx with rfl | rfl
      · exact ⟨ok_init _ _ _ _, by decide, by decide⟩
      · exact ⟨ok_init _ _ _ _, by decide, by decide⟩) ⟨ok_init _ _ _ _, by decide, by decide⟩
  have hloop := addLoop_running (e := 1024) (k := 7)
    (w := ⟨[Rect.init 128 32 80 80, Rect.init 80 0 80 32], [Rect.init 0 16 240 32], 2⟩)
    (by decide) turns
  exact absurd (hloop.symm.trans hreturns) (by simp)

end Eina.Tiler
