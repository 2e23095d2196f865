/-
What a collision returns, in any run.

Where no call of the run does harm, a collision returns every visible item that it has to, and a
list that is returned again is what a new collision would return.  Short runs show the calls that
do harm.
-/
import Efl.Eina.Quadtree.Run

namespace Eina.QuadTree

open Runs

variable {Ω : Type} {rect : Ω → Rectangle} {cb : Callbacks Ω} {q q' : QuadTree Ω} {A B : Prop}
  {w : World Ω} {memory : Id → Item Ω} {answers : List Answer} {width height : Nat}
  {ops : List (Op Ω)}

/-- The world after the calls of a run. -/
def after (cb : Callbacks Ω) (q : QuadTree Ω) (ops : List (Op Ω)) : World Ω :=
  ops.foldl (fun w op => (step cb w op).1) ⟨q, []⟩

theorem traces_after {c : Callbacks Ω} {l : List (Op Ω)}
    (h : Admits (fun w op => Op.Allowed w op) (fun w op => (step c w op).1) ⟨q, []⟩ l) :
    ∃ answers, Traces (Step c) ⟨q, []⟩ l (after c q l) answers :=
  traces_foldl l _ h

/-! ### Every item that has to be found is found -/

/-- The list a collision returns can be walked, and holds every visible item that intersects. -/
def Finds (rect : Ω → Rectangle) (cb : Callbacks Ω) (w : World Ω) (target : Rectangle) : Prop :=
  (∀ id ∈ (w.q.collide cb target).2, (w.q.collide cb target).1.links id = some .cached) ∧
    ∀ id ∈ w.live, (w.q.item id).visible = true → Inside (rect (w.q.item id).object) w.q.canvas →
      (rect (w.q.item id).object).intersects target = true → id ∈ (w.q.collide cb target).2

theorem Good.finds (hcb : ∀ o, Consistent rect cb o)
    (h : Good rect cb True B w.q w.live) (target : Rectangle) : Finds rect cb w target := by
  obtain ⟨hinv, hcache, hresize, htarget, ⟨hcanvas, hsame⟩, hshown, hnil⟩ :=
    collide_spec h.inv h.cache target
  refine ⟨fun id hid => (hcache.links id hid).2, ?_⟩
  intro id hlive hv hinside hmeets
  have hv' : ((w.q.collide cb target).1.item id).visible = true := (hsame id).1.trans hv
  -- the item is in the tree, since nothing waits any more
  have hat : ∃ p, Root.At id p (w.q.collide cb target).1.root := by
    rcases hshown (h.shown trivial) id hlive hv' with hat | hflag
    · exact hat
    have hwaits := hinv.base.changes id hlive hflag
    rw [hnil] at hwaits
    simp at hwaits
  obtain ⟨p, hp⟩ := hat
  have hplaced := hinv.placed hresize id p hp hv'
  rw [(hsame id).2, hcanvas] at hplaced
  have hvisits := visits_of_placed hmeets p false _ (hplaced ⟨hcb _, hinside⟩)
  refine hcache.full hresize id p hp hv' ?_
  rw [htarget, hcanvas]
  exact hvisits

/--
**A collision finds every visible item**, in any state that a run reaches in which no item is
shown that would get lost and no item of a list that is to be returned again is deleted.
-/
theorem run_finds (hcb : ∀ o, Consistent rect cb o)
    (hnew : new memory width height = some q)
      (hops : EachStep (Step cb) (Op.Careful True False) ⟨q, []⟩ ops)
    (h : Traces (Step cb) ⟨q, []⟩ ops w answers) (target : Rectangle) : Finds rect cb w target :=
  (run_good hnew hops h).finds hcb target

/-! ### A list that is returned again -/

/-- The next collision returns the list of the last one. -/
def ReturnsAgain (cb : Callbacks Ω) (q : QuadTree Ω) (target : Rectangle) : Prop :=
  ((q.refresh cb).aim target).lost = false

/--
The list that is returned holds what a new collision would return, apart from items that are not
visible, and only items that are in use.
-/
def FreshList (cb : Callbacks Ω) (w : World Ω) (target : Rectangle) : Prop :=
  let (q, ids) := w.q.collide cb target
  (ids.filter fun id => (q.item id).visible) =
      (collideTree q.item [] false q.canvas target q.root).1 ∧ ∀ id ∈ ids, id ∈ w.live

theorem Good.freshList (h : Good rect cb A True w.q w.live) (target : Rectangle) :
    FreshList cb w target := by
  obtain ⟨-, hcache, hresize, htarget, -, -, -⟩ := collide_spec h.inv h.cache target
  refine ⟨?_, fun id hid => (hcache.links id hid).1⟩
  have hexact := hcache.exact trivial hresize
  rw [htarget] at hexact
  exact hexact

/--
**A list that is returned, again or for the first time, is as a new one**, in any state that a run
reaches in which no item of a list that would be returned again is deleted, and whose order no call
of `eina_quadtree_increase` or `eina_quadtree_hide` changes.  Nothing is asked of the callbacks.
-/
theorem run_freshList
    (hnew : new memory width height = some q)
      (hops : EachStep (Step cb) (Op.Careful False True) ⟨q, []⟩ ops)
    (h : Traces (Step cb) ⟨q, []⟩ ops w answers) (target : Rectangle) : FreshList cb w target :=
  (run_good (r := fun _ => ⟨0, 0, 0, 0⟩) hnew hops h).freshList target

/-! ### Short runs

The callbacks and objects are those of the tests.  A canvas of 8 by 8 is not split, one of 32 by 32
is split in both directions.
-/

/-- `_eina_quadtree_rectangle_vert` and `_eina_quadtree_rectangle_hort` -/
def rectangles : Callbacks Rectangle where
  v r middle := if r.y + r.h < middle then .left else if middle < r.y then .right else .both
  h r middle := if r.x + r.w < middle then .left else if middle < r.x then .right else .both

theorem consistent_rectangles (r : Rectangle) : Consistent id rectangles r := by
  refine ⟨?_, ?_, ?_, ?_⟩ <;> intro line h <;> simp only [rectangles] at h <;> split at h
  · exact le_of_lt ‹_›
  · split at h <;> exact absurd h (by simp)
  · simp at h
  · split at h
    · exact le_of_lt ‹_›
    · simp at h
  · exact le_of_lt ‹_›
  · split at h <;> exact absurd h (by simp)
  · simp at h
  split at h
  · exact le_of_lt ‹_›
  · simp at h

def zeroed : Id → Item Rectangle := fun _ => ⟨⟨0, 0, 0, 0⟩, 0, false, false, false, false, none⟩

/-- A tree that was just made. -/
def eight : QuadTree Rectangle where
  root := .nil
  hidden := []
  itemsCount := 0
  itemsTrash := []
  change := []
  cached := []
  target := ⟨0, 0, 0, 0⟩
  index := 0
  w := 8
  h := 8
  resize := false
  lost := true
  item := zeroed
  links := fun _ => none
  pool := 0

theorem new_eight : new zeroed 8 8 = some eight := rfl

/-- An item is hidden before it comes into the tree, and shown again while a resize is pending. -/
def showsLate : List (Op Rectangle) :=
  [.add ⟨1, 1, 2, 2⟩, .hide 0, .collide ⟨0, 0, 4, 4⟩, .resized 6 8, .shown 0]

theorem shown_item_lost : (∀ r, Consistent id rectangles r) ∧ new zeroed 8 8 = some eight ∧
    (∃ answers, Traces (Step rectangles) ⟨eight, []⟩ showsLate (after rectangles eight showsLate)
      answers) ∧
    Inside ⟨0, 0, 4, 4⟩ (after rectangles eight showsLate).q.canvas ∧
    ¬Finds id rectangles (after rectangles eight showsLate) ⟨0, 0, 4, 4⟩ := by
  refine ⟨consistent_rectangles, rfl, traces_after (by with_unfolding_all decide),
    by unfold Inside; with_unfolding_all decide, ?_⟩
  intro h
  have hfound := h.2 0 (by with_unfolding_all decide) (by with_unfolding_all decide)
    (by unfold Inside; with_unfolding_all decide) (by with_unfolding_all decide)
  exact absurd hfound (by with_unfolding_all decide)

/-- A larger tree that was just made. -/
def thirtyTwo : QuadTree Rectangle := { eight with w := 32, h := 32 }

theorem new_thirtyTwo : new zeroed 32 32 = some thirtyTwo := rfl

/-- Items in several nodes are hidden and shown, moved and deleted. -/
def showsAgain : List (Op Rectangle) :=
  [.add ⟨1, 1, 2, 2⟩, .add ⟨20, 1, 4, 4⟩, .add ⟨1, 20, 2, 2⟩, .add ⟨14, 14, 4, 4⟩,
    .add ⟨25, 25, 2, 2⟩, .collide ⟨4, 4, 4, 4⟩, .hide 0, .changed 2 ⟨5, 9, 2, 2⟩, .del 4, .shown 0]

/-- Of the items that are left, the visible ones in the target are found. -/
theorem run_finds_showsAgain : new zeroed 32 32 = some thirtyTwo ∧ ∀ id ∈ [0, 2, 3],
    id ∈ ((after rectangles thirtyTwo showsAgain).q.collide rectangles ⟨0, 0, 16, 16⟩).2 := by
  have hops : EachStep (Step rectangles) (Op.Careful True False) ⟨thirtyTwo, []⟩ showsAgain :=
    eachStep_of_admits showsAgain _
      ⟨trivial, trivial, trivial, trivial, trivial, trivial, fun h => h.elim, trivial,
        .inr (by with_unfolding_all decide), fun _ => .inl (by with_unfolding_all decide), trivial⟩
  obtain ⟨answers, h⟩ := traces_after (c := rectangles) (q := thirtyTwo) (l := showsAgain)
    (by with_unfolding_all decide)
  have hfinds := (run_finds consistent_rectangles new_thirtyTwo hops h ⟨0, 0, 16, 16⟩).2
  have hmeets : ∀ id ∈ [0, 2, 3], id ∈ (after rectangles thirtyTwo showsAgain).live ∧
      ((after rectangles thirtyTwo showsAgain).q.item id).visible = true ∧
      Inside ((after rectangles thirtyTwo showsAgain).q.item id).object
        (after rectangles thirtyTwo showsAgain).q.canvas ∧
      ((after rectangles thirtyTwo showsAgain).q.item id).object.intersects ⟨0, 0, 16, 16⟩ =
        true := by
    unfold Inside
    with_unfolding_all decide
  refine ⟨rfl, fun id hid => ?_⟩
  obtain ⟨hlive, hvisible, hinside, htarget⟩ := hmeets id hid
  exact hfinds id hlive hvisible hinside htarget

/-- An item of the last list is deleted. -/
def deletesCached : List (Op Rectangle) := [.add ⟨1, 1, 2, 2⟩, .collide ⟨0, 0, 4, 4⟩, .del 0]

/-- The index of an item of the last list is increased. -/
def increasesCached : List (Op Rectangle) :=
  [.add ⟨1, 1, 2, 2⟩, .add ⟨1, 1, 2, 2⟩, .collide ⟨0, 0, 4, 4⟩, .increase 0]

/-- The list is returned again, with the deleted item, and in the order of before. -/
theorem stale_list_returned : new zeroed 8 8 = some eight ∧
    ∀ ops ∈ [deletesCached, increasesCached],
      (∃ answers, Traces (Step rectangles) ⟨eight, []⟩ ops (after rectangles eight ops) answers) ∧
      ReturnsAgain rectangles (after rectangles eight ops).q ⟨0, 0, 4, 4⟩ ∧
      ¬FreshList rectangles (after rectangles eight ops) ⟨0, 0, 4, 4⟩ := by
  refine ⟨rfl, ?_⟩
  intro ops hops
  rw [List.mem_cons, List.mem_singleton] at hops
  rcases hops with rfl | rfl
  · refine ⟨traces_after (by with_unfolding_all decide),
      by unfold ReturnsAgain; with_unfolding_all decide, ?_⟩
    intro h
    exact absurd (h.2 0 (by with_unfolding_all decide)) (by with_unfolding_all decide)
  · refine ⟨traces_after (by with_unfolding_all decide),
      by unfold ReturnsAgain; with_unfolding_all decide, ?_⟩
    intro h
    exact absurd h.1 (by with_unfolding_all decide)

/-- The second of two items is hidden while the list is kept. -/
def hidesCached : List (Op Rectangle) :=
  [.add ⟨1, 1, 2, 2⟩, .add ⟨1, 1, 2, 2⟩, .collide ⟨0, 0, 4, 4⟩, .hide 1]

theorem run_freshList_hidesCached :
    ReturnsAgain rectangles (after rectangles eight hidesCached).q ⟨0, 0, 4, 4⟩ ∧
      FreshList rectangles (after rectangles eight hidesCached) ⟨0, 0, 4, 4⟩ := by
  have hops : EachStep (Step rectangles) (Op.Careful False True) ⟨eight, []⟩ hidesCached :=
    eachStep_of_admits hidesCached _
      ⟨trivial, trivial, trivial, fun _ => .inr (.inr (by with_unfolding_all decide)), trivial⟩
  have hagain : ReturnsAgain rectangles (after rectangles eight hidesCached).q ⟨0, 0, 4, 4⟩ := by
    unfold ReturnsAgain
    with_unfolding_all decide
  obtain ⟨answers, h⟩ := traces_after (c := rectangles) (q := eight) (l := hidesCached)
    (by with_unfolding_all decide)
  exact ⟨hagain, run_freshList new_eight hops h ⟨0, 0, 4, 4⟩⟩

end Eina.QuadTree
