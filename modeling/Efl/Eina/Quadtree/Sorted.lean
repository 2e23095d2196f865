/-
The order of the list of a collision, in any run.

The flags of the nodes stay right in every call but the update of the tree: there an object that
lies on the middle of a node that is halved comes to the end of the list of that node, and the
node stays flagged.  So a collision returns its items by increasing index in every run whose
updates file in order.  A short run shows one that does not.
-/
import Efl.Eina.Quadtree.Filing
import Efl.Eina.Quadtree.Collisions

namespace Eina.QuadTree

open Runs List

variable {Ω : Type} {rect : Ω → Rectangle} {cb : Callbacks Ω} {q q' : QuadTree Ω} {live : List Id}
  {id i : Id} {p : Path} {objects : List Id} {size : Rectangle} {direction : Bool}

/-! ### What waits for an update -/

/-- The items the next update files. -/
def waiting (q : QuadTree Ω) : List Id :=
  if q.resize then q.change ++ q.root.items.filter fun i => (q.item i).visible else q.change

/-- The tree the next update files them in. -/
def standing (q : QuadTree Ω) : Root := if q.resize then .nil else q.root

/-- The update of a collision files in order. -/
def Op.InOrder (cb : Callbacks Ω) (w : World Ω) : Op Ω → Prop
  | .collide _ => Files cb w.q.item false w.q.canvas (standing w.q) (waiting w.q)
  | _ => True

theorem files_kept {S : Id → Prop} {t : Root} (h : Kept S q q')
    (hfiles : Files cb q.item direction size t objects) :
    Files cb q'.item direction size t objects := by
  intro p hsorted
  have harriving : arriving cb q'.item direction size objects p =
      arriving cb q.item direction size objects p := by
    refine filter_congr fun i _ => ?_
    rw [h.visible, h.deleteMe, h.object]
  obtain ⟨hcome, hstand⟩ := hfiles p hsorted
  rw [harriving]
  refine ⟨ascending_congr (fun i _ => h.place i) hcome, fun a ha hv b hb => ?_⟩
  rw [h.visible] at hv
  rw [h.place, h.place]
  exact hstand a ha hv b hb

/-! ### The invariant -/

/-- Between two calls the flags are right, unless the tree is to be built anew. -/
structure Orderly (cb : Callbacks Ω) (q : QuadTree Ω) (live : List Id) : Prop where
  inv : Inv (fun _ => ⟨0, 0, 0, 0⟩) cb q live
  tidy : q.resize = false → Tidy q.item false q.canvas q.root

/-- Items have left the tree or were hidden, at most. -/
def Trims (q q' : QuadTree Ω) : Prop :=
  q'.resize = false → q.resize = false ∧ q'.canvas = q.canvas ∧
    (q'.root = q.root ∨ ∃ id p, q'.root = Root.removeAt id p q.root) ∧
    ∀ i p, Root.At i p q'.root → (q'.item i).index = (q.item i).index ∧
      ((q'.item i).visible = true → (q.item i).visible = true)

theorem Trims.tidy (h : Trims q q') (htidy : q.resize = false → Tidy q.item false q.canvas q.root) :
    q'.resize = false → Tidy q'.item false q'.canvas q'.root := by
  intro hresize
  obtain ⟨hres, hcanvas, hroot, hitem⟩ := h hresize
  rw [hcanvas]
  refine tidy_congr (fun i p hi => (hitem i p hi).1) (fun i p hi => (hitem i p hi).2) ?_
  rcases hroot with hroot | ⟨id, p, hroot⟩
  · rw [hroot]
    exact htidy hres
  · rw [hroot]
    exact tidy_removeAt (htidy hres)

variable {lost : Bool} {memory : Id → Item Ω} {width height : Nat}

theorem inv_lost : Inv rect cb { q with lost := lost } live ↔ Inv rect cb q live :=
  ⟨fun h => h.congr (fun _ _ => Iff.rfl) h.base.distinct q.cached q.target q.lost q.links,
    fun h => h.congr (fun _ _ => Iff.rfl) h.base.distinct q.cached q.target lost q.links⟩

theorem good_lost (h : Inv rect cb q live) :
    Good rect cb False False { q with lost := true } live :=
  ⟨inv_lost.mpr h, fun hused => absurd hused.1 (by simp), fun hbad => hbad.elim⟩

/-! ### One call -/

theorem trims_add (h : Inv rect cb q live) (object : Ω) : Trims q (q.add object).1 := by
  obtain ⟨id, pool, count, trash, heq, hlive, -⟩ := alloc_spec h.base
  unfold add
  rw [heq]
  intro hresize
  refine ⟨hresize, rfl, .inl rfl, fun i p hi => ?_⟩
  have hne : i ≠ id := by
    rintro rfl
    exact hlive (h.base.tree i p hi).2.2
  simp only [link, modify, if_neg hne]
  exact ⟨trivial, fun hv => hv⟩

theorem changed_root (id : Id) : (q.changed id).1.root = q.root ∨
    ∃ id' p, (q.changed id).1.root = Root.removeAt id' p q.root := by
  unfold changed
  split
  · exact .inl rfl
  split
  · exact .inl rfl
  have hroot : (if (q.item id).change = true then q
      else { q with change := q.change ++ [id] }.link id .change).root = q.root := by
    split
    · rfl
    · rfl
  dsimp only
  generalize (if (q.item id).change = true then q
    else { q with change := q.change ++ [id] }.link id .change) = q1 at hroot ⊢
  unfold remove
  split
  · exact .inl hroot
  rename_i p _
  refine .inr ⟨id, p, ?_⟩
  rw [← hroot]
  rfl

theorem Requeued.trims (h : Requeued q id q') (hroot : q'.root = q.root ∨
    ∃ id p, q'.root = Root.removeAt id p q.root) : Trims q q' := by
  intro hresize
  refine ⟨h.resize.symm.trans hresize, h.canvas, hroot, fun i p hi => ?_⟩
  rw [h.other i ((h.at_ i p).mp hi).2]
  exact ⟨rfl, fun hv => hv⟩

theorem Requeued.of_lost (h : Requeued { q with lost := lost } id q') :
    Requeued q id q' :=
  ⟨h.at_, h.distinct, h.other, h.self, h.mem, h.nodup, h.pool, h.trash, h.canvas, h.resize⟩

theorem trims_changed (h : Inv rect cb q live) (hid : id ∈ live) (object : Ω) :
    Trims q ((q.modify id fun i => { i with object := object }).changed id).1 := by
  by_cases hquiet : (q.item id).visible = true ∧ q.resize = false
  · have hrequeued : Requeued { q with lost := true } id
        ((q.modify id fun i => { i with object := object }).changed id).1 :=
      changed_requeued (f := fun i => { i with object := object }) (good_lost h) hid
        (fun x => ⟨rfl, rfl, rfl⟩) rfl hquiet.2 (by rw [modify_self]; exact hquiet.1)
    exact hrequeued.of_lost.trims (changed_root id)
  · rw [changed_eq_self (by rwa [modify_self])]
    intro hresize
    refine ⟨hresize, rfl, .inl rfl, fun i p _ => ?_⟩
    by_cases hne : i = id
    · rw [hne, modify_self]
      exact ⟨rfl, fun hv => hv⟩
    · rw [modify_other hne]
      exact ⟨rfl, fun hv => hv⟩

theorem trims_hide (id : Id) : Trims q (q.hide id) := by
  intro hresize
  refine ⟨hresize, rfl, .inl rfl, fun i p _ => ?_⟩
  unfold hide
  by_cases hne : i = id
  · rw [hne, modify_self]
    exact ⟨rfl, fun hv => absurd hv (by simp)⟩
  · rw [modify_other hne]
    exact ⟨rfl, fun hv => hv⟩

theorem trims_shown (h : Inv rect cb q live) (hid : id ∈ live) : Trims q (q.shown id).1 := by
  unfold shown
  dsimp only
  split
  · intro hresize
    exact ⟨hresize, rfl, .inl rfl, fun i p _ => ⟨rfl, fun hv => hv⟩⟩
  split
  · -- the item waits already
    rename_i hflag
    rw [modify_self] at hflag
    intro hresize
    refine ⟨hresize, rfl, .inl rfl, fun i p hi => ?_⟩
    have hne : i ≠ id := by
      rintro rfl
      have hno := (h.base.tree i p hi).2.1
      rw [show (q.item i).change = true from hflag] at hno
      simp at hno
    rw [modify_other hne]
    exact ⟨rfl, fun hv => hv⟩
  · by_cases hresize : q.resize = false
    · have hrequeued : Requeued { q with lost := true } id
          (({ q with lost := true }.modify id fun i => { i with visible := true }).changed id).1 :=
        changed_requeued (f := fun i => { i with visible := true }) (good_lost h) hid
          (fun x => ⟨rfl, rfl, rfl⟩) rfl hresize (by rw [modify_self])
      exact hrequeued.of_lost.trims (changed_root id)
    · have hsame : (changed ({ q with lost := true }.modify id fun i => { i with visible := true })
          id).1 = { q with lost := true }.modify id fun i => { i with visible := true } :=
        changed_eq_self fun hquiet => hresize hquiet.2
      rw [hsame]
      intro hres
      exact absurd hres hresize

/-- A deletion takes items away and adds none. -/
theorem trims_del (h : Inv rect cb q live) (id : Id) : Trims q (q.del id) := by
  obtain ⟨root, hremove, hat, -, hroot⟩ :=
    remove_spec (fun i p hi => (h.base.tree i p hi).1) h.base.distinct id
  have hroot' : root = q.root ∨ ∃ id p, root = Root.removeAt id p q.root := by
    rcases hroot with hroot | ⟨p, hroot⟩
    · exact .inl hroot
    · exact .inr ⟨id, p, hroot⟩
  have htrims {q1 : QuadTree Ω} (hres : q1.resize = q.resize) (hw : q1.w = q.w) (hh : q1.h = q.h)
      (hroot1 : q1.root = root) (hitem : ∀ i ≠ id, q1.item i = q.item i) : Trims q q1 := by
    intro hresize
    refine ⟨hres.symm.trans hresize, canvas_eq hw hh, by rwa [hroot1], fun i p hi => ?_⟩
    rw [hroot1] at hi
    rw [hitem i ((hat i p).mp hi).2]
    exact ⟨rfl, fun hv => hv⟩
  have hitem {i : Id} (hi : i ≠ id) : (q.remove id).item i = q.item i := by
    rw [hremove]
    exact if_neg hi
  have hfields : (q.remove id).root = root ∧ (q.remove id).resize = q.resize ∧
      (q.remove id).w = q.w ∧ (q.remove id).h = q.h := by
    rw [hremove]
    exact ⟨rfl, rfl, rfl, rfl⟩
  unfold del
  generalize q.remove id = q1 at hitem hfields ⊢
  obtain ⟨hroot1, hres, hw, hh⟩ := hfields
  dsimp only
  split
  · refine htrims hres hw hh hroot1 fun i hi => ?_
    rw [modify_other hi]
    exact hitem hi
  generalize hq2 : (if (q1.item id).hidden = true then { q1 with hidden := q1.hidden.erase id }
    else q1) = q2
  have hq2 : q2 = { q1 with hidden := q2.hidden } := by
    rw [← hq2]
    split
    · rfl
    · rfl
  split
  · rw [hq2]
    exact htrims hres hw hh hroot1 fun i hi => hitem hi
  · rw [hq2]
    exact htrims hres hw hh hroot1 fun i hi => hitem hi

theorem trims_resized (width height : Nat) : Trims q (q.resized width height) := by
  unfold resized
  split
  · intro hresize
    exact ⟨hresize, rfl, .inl rfl, fun i p _ => ⟨rfl, fun hv => hv⟩⟩
  · intro hresize
    simp at hresize

theorem tidy_increase (h : Inv rect cb q live) (htidy : Tidy q.item false q.canvas q.root)
    (id : Id) :
    Tidy (q.increase id).item false (q.increase id).canvas (q.increase id).root := by
  unfold increase
  dsimp only
  split
  · exact htidy
  have hother (i : Id) (hi : i ≠ id) : (({ q with index := q.index + 1 }.modify id fun i =>
      { i with index := q.index }).item i).index = (q.item i).index := by
    rw [modify_other hi]
  have hvisible (i : Id) : (({ q with index := q.index + 1 }.modify id fun i =>
      { i with index := q.index }).item i).visible = (q.item i).visible := by
    by_cases hi : i = id
    · rw [hi, modify_self]
    · rw [modify_other hi]
  have hroot : (({ q with index := q.index + 1 }.modify id fun i =>
      { i with index := q.index }).item id).root = (q.item id).root := by
    rw [modify_self]
  rw [hroot]
  cases hplace : (q.item id).root with
  | none =>
    refine tidy_congr (fun i p hi => hother i ?_) (fun i _ _ hv => ?_) htidy
    · rintro rfl
      rw [(h.base.tree i p hi).1] at hplace
      simp at hplace
    · rwa [hvisible] at hv
  | some p =>
    refine tidy_unsort hother hvisible (fun p' hp' => ?_) htidy
    rw [(h.base.tree id p' hp').1] at hplace
    exact Option.some.inj hplace

/-! ### A collision -/

theorem emptied_spec (q : QuadTree Ω) : q.emptied.change = waiting q ∧ q.emptied.root = standing q ∧
    q.emptied.canvas = q.canvas ∧ ∃ q1, Kept (fun i => i ∈ q.root.items) q q1 ∧
      q1.item = q.emptied.item := by
  unfold emptied waiting standing
  split
  · have hspec := rebuild_spec q.root.items q
    rw [← rebuildPre_eq] at hspec
    exact ⟨hspec.change, rfl, canvas_eq hspec.kept.w hspec.kept.h, _, hspec.kept, rfl⟩
  · exact ⟨rfl, rfl, rfl, q, Kept.refl q, rfl⟩

/-- Bringing the tree up to date keeps the order where the waiting items come in it. -/
theorem orderly_refresh (h : Orderly cb q live)
    (hfiles : Files cb q.item false q.canvas (standing q) (waiting q)) :
    Orderly cb (q.refresh cb) live ∧ (q.refresh cb).change = [] ∧
      (q.refresh cb).resize = false := by
  have hready := (ready_emptied h.inv).1
  obtain ⟨hinv, hnil, hresize, -⟩ := inv_updated hready
  refine ⟨⟨hinv, fun _ => ?_⟩, hnil, hresize⟩
  obtain ⟨hchange, hroot, hcanvas, q1, hkept, hitem⟩ := emptied_spec q
  have htidy : Tidy q.emptied.item false q.emptied.canvas q.emptied.root := by
    rw [hcanvas, hroot, ← hitem]
    unfold standing
    split
    · trivial
    · rename_i hres
      exact tidy_kept hkept (h.tidy (Bool.eq_false_of_not_eq_true hres))
  have hfiles' : Files cb q.emptied.item false q.emptied.canvas q.emptied.root
      q.emptied.change := by
    rw [hcanvas, hroot, hchange, ← hitem]
    exact files_kept hkept hfiles
  unfold refresh updated
  split
  · exact htidy
  have hspec := (update_spec (fun _ => ⟨0, 0, 0, 0⟩) cb _ q.emptied [] q.emptied.root
    q.emptied.change false q.emptied.canvas (Nat.lt_succ_self _) hready.comes).kept
  have hnext := tidy_update cb _ q.emptied [] q.emptied.root q.emptied.change false
    q.emptied.canvas (Nat.lt_succ_self _) hready.comes hfiles' htidy
  generalize update cb q.emptied [] q.emptied.root q.emptied.change false q.emptied.canvas = r
    at hspec hnext ⊢
  obtain ⟨q2, root⟩ := r
  have hcanvas2 : q2.canvas = q.emptied.canvas := canvas_eq hspec.w hspec.h
  rw [← hcanvas2] at hnext
  exact hnext

theorem orderly_aim (h : Orderly cb q live) (target : Rectangle) :
    Orderly cb (q.aim target) live := by
  refine ⟨inv_aim h.inv target, ?_⟩
  unfold aim
  split
  · exact h.tidy
  · exact h.tidy

/-- **A collision** leaves the flags right, and its list is in order if it is a new one. -/
theorem orderly_collided (h : Orderly cb q live) (hnil : q.change = [])
    (hresize : q.resize = false) :
    Orderly cb q.collided live ∧ (q.lost = true → Ascending q.collided.item q.collided.cached ∧
      q.collided.cached.Nodup ∧ ∀ i ∈ q.collided.cached, i ∈ live) := by
  unfold collided
  split
  · rename_i hlost
    have hcollided := collided_spec (B := False) h.inv hnil hresize fun hused =>
      absurd hused.1 (by simp [hlost])
    have hspec := collideTree_ascending q.target (h.tidy hresize) List.Pairwise.nil
    have hinv := hcollided.inv
    have hnodup : (collideTree q.item [] false q.canvas q.target q.root).1.Nodup :=
      nodup_collideTree q.item q.target h.inv.base.distinct (fun i p p' => h.inv.base.one_place)
        nodup_nil fun i hi => absurd hi not_mem_nil
    have hlive : ∀ i ∈ (collideTree q.item [] false q.canvas q.target q.root).1, i ∈ live := by
      intro i hi
      rcases (mem_collideTree q.item q.target q.root _ _ _).mp hi with hi | ⟨p, -, hat, -⟩
      · exact absurd hi not_mem_nil
      · exact (h.inv.base.tree i p hat).2.2
    unfold collided at hinv
    rw [if_pos hlost] at hinv
    dsimp only at hspec hinv hnodup hlive ⊢
    rw [linkAll_eq] at hinv ⊢
    exact ⟨⟨hinv, fun _ => hspec.2⟩, fun _ => ⟨hspec.1, hnodup, hlive⟩⟩
  · rename_i hlost
    exact ⟨h, fun hl => absurd hl hlost⟩

theorem orderly_collide (h : Orderly cb q live) (target : Rectangle)
    (hfiles : Files cb q.item false q.canvas (standing q) (waiting q)) :
    Orderly cb (q.collide cb target).1 live ∧ (¬ReturnsAgain cb q target →
      Ascending (q.collide cb target).1.item (q.collide cb target).2 ∧
        (q.collide cb target).2.Nodup ∧ ∀ i ∈ (q.collide cb target).2, i ∈ live) := by
  obtain ⟨hrefresh, hnil, hresize⟩ := orderly_refresh h hfiles
  have haim : ((q.refresh cb).aim target).change = (q.refresh cb).change ∧
      ((q.refresh cb).aim target).resize = (q.refresh cb).resize := by
    unfold aim
    split
    · exact ⟨rfl, rfl⟩
    · exact ⟨rfl, rfl⟩
  obtain ⟨hnext, hlist⟩ := orderly_collided (orderly_aim hrefresh target) (haim.1.trans hnil)
    (haim.2.trans hresize)
  refine ⟨hnext, fun hnew => hlist ?_⟩
  unfold ReturnsAgain at hnew
  simpa using hnew

/-! ### Every call -/

theorem remove_lost (q : QuadTree Ω) (id : Id) :
    ({ q with lost := lost } : QuadTree Ω).remove id = { q.remove id with lost := lost } := by
  unfold remove
  cases (q.item id).root with
  | none => rfl
  | some p => rfl

theorem add_lost (q : QuadTree Ω) (object : Ω) :
    ({ q with lost := lost } : QuadTree Ω).add object =
      ({ (q.add object).1 with lost := lost }, (q.add object).2) := by
  unfold add alloc
  cases q.itemsTrash with
  | nil => rfl
  | cons id trash => rfl

theorem changed_lost (q : QuadTree Ω) (id : Id) :
    (({ q with lost := lost } : QuadTree Ω).changed id).1 =
      { (q.changed id).1 with lost := lost } := by
  unfold changed
  by_cases hoff : (q.item id).deleteMe = true ∨ ¬(q.item id).visible = true
  · rw [if_pos hoff, if_pos hoff]
  rw [if_neg hoff, if_neg hoff]
  by_cases hresize : q.resize = true
  · rw [if_pos hresize, if_pos hresize]
  rw [if_neg hresize, if_neg hresize]
  by_cases hflag : (q.item id).change = true
  · rw [if_pos hflag, if_pos hflag]
    exact remove_lost (q.modify id fun i => { i with change := true }) id
  rw [if_neg hflag, if_neg hflag]
  exact remove_lost (({ q with change := q.change ++ [id] }.link id .change).modify id fun i =>
    { i with change := true }) id

theorem del_lost (q : QuadTree Ω) (id : Id) :
    ({ q with lost := lost } : QuadTree Ω).del id = { q.del id with lost := lost } := by
  unfold del
  rw [remove_lost]
  generalize q.remove id = q1
  by_cases hflag : (q1.item id).change = true
  · rw [if_pos hflag, if_pos hflag]
    rfl
  rw [if_neg hflag]
  by_cases hhidden : (q1.item id).hidden = true
  · rw [if_pos hhidden]
    dsimp only
    split
    · rfl
    · rfl
  · rw [if_neg hhidden]
    dsimp only
    split
    · rfl
    · rfl

theorem increase_lost (q : QuadTree Ω) (id : Id) :
    ({ q with lost := lost } : QuadTree Ω).increase id = { q.increase id with lost := lost } := by
  unfold increase
  dsimp only
  split
  · rfl
  rw [modify_self, modify_self]
  cases (q.item id).root with
  | none => rfl
  | some p => rfl

theorem resized_lost (q : QuadTree Ω) (width height : Nat) :
    ({ q with lost := lost } : QuadTree Ω).resized width height =
      { q.resized width height with lost := lost } := by
  unfold resized
  by_cases hsame : q.w = width ∧ q.h = height
  · rw [if_pos hsame, if_pos hsame]
  · rw [if_neg hsame, if_neg hsame]

/-- **Every call keeps the flags right**, if the update of a collision files in order. -/
theorem orderly_step {w w' : World Ω} {op : Op Ω} {answer : Answer} (h : Orderly cb w.q w.live)
    (hop : op.InOrder cb w) (hstep : Step cb w op w' answer) : Orderly cb w'.q w'.live := by
  obtain ⟨hallowed, heq⟩ := hstep
  obtain ⟨q, live⟩ := w
  have hgood := good_lost h.inv
  cases op with
  | add object =>
    cases heq
    have hnext := (add_good hgood object).inv
    rw [add_lost] at hnext
    exact ⟨inv_lost.mp hnext, (trims_add h.inv object).tidy h.tidy⟩
  | changed id object =>
    cases heq
    have hnext := (changed_good hgood hallowed object).inv
    rw [show ({ q with lost := true } : QuadTree Ω).modify id
        (fun i => { i with object := object }) =
      { q.modify id fun i => { i with object := object } with lost := true } from rfl,
      changed_lost] at hnext
    exact ⟨inv_lost.mp hnext, (trims_changed h.inv hallowed object).tidy h.tidy⟩
  | hide id =>
    cases heq
    have hnext : Good _ cb False False (({ q with lost := true } : QuadTree Ω).hide id) live :=
      hide_good hgood fun hbad => hbad.elim
    exact ⟨inv_lost.mp hnext.inv, (trims_hide id).tidy h.tidy⟩
  | shown id =>
    cases heq
    have hnext := (shown_good hgood hallowed fun hbad => hbad.elim).inv
    exact ⟨hnext, (trims_shown h.inv hallowed).tidy h.tidy⟩
  | del id =>
    cases heq
    have hnext := (del_good hgood hallowed (.inl fun hused => absurd hused.1 (by simp))).inv
    rw [del_lost] at hnext
    exact ⟨inv_lost.mp hnext, (trims_del h.inv id).tidy h.tidy⟩
  | increase id =>
    cases heq
    have hnext : Good _ cb False False (({ q with lost := true } : QuadTree Ω).increase id)
        live := increase_good hgood fun hbad => hbad.elim
    rw [increase_lost] at hnext
    refine ⟨inv_lost.mp hnext.inv, fun hresize => tidy_increase h.inv (h.tidy ?_) id⟩
    obtain ⟨index, item, root, heq, -⟩ := increase_spec h.inv.base.distinct id
    rw [heq] at hresize
    exact hresize
  | cycle =>
    cases heq
    exact ⟨inv_lost.mp (cycle_good hgood).inv, h.tidy⟩
  | resized width height =>
    cases heq
    have hnext := (resized_good hgood width height).inv
    rw [resized_lost] at hnext
    exact ⟨inv_lost.mp hnext, (trims_resized width height).tidy h.tidy⟩
  | collide target =>
    cases heq
    exact (orderly_collide h target hop).1

theorem orderly_new
    (h : new memory width height = some q) : Orderly cb q [] := by
  refine ⟨(new_good (A := False) (B := False) h).inv, fun _ => ?_⟩
  unfold new at h
  split at h
  · simp at h
  · obtain rfl := Option.some.inj h
    trivial

theorem item_collided (q : QuadTree Ω) : q.collided.item = q.item := by
  unfold collided
  split
  · dsimp only
    rw [linkAll_eq]
  · rfl

theorem item_aim (q : QuadTree Ω) (target : Rectangle) : (q.aim target).item = q.item := by
  unfold aim
  split
  · rfl
  · rfl

theorem index_collide (h : Inv rect cb q live) (target : Rectangle) (i : Id) :
    ((q.collide cb target).1.item i).index = (q.item i).index := by
  have hready := (ready_emptied h).1
  obtain ⟨-, -, -, q1, hkept, hitem⟩ := emptied_spec q
  have hrefresh : ((q.refresh cb).item i).index = (q.item i).index := by
    rw [← hkept.place, hitem]
    unfold refresh updated
    split
    · rfl
    have hspec := (update_spec rect cb _ q.emptied [] q.emptied.root q.emptied.change false
      q.emptied.canvas (Nat.lt_succ_self _) hready.comes).kept
    generalize update cb q.emptied [] q.emptied.root q.emptied.change false q.emptied.canvas = r
      at hspec ⊢
    obtain ⟨q2, root⟩ := r
    exact hspec.place i
  have hcollide : (q.collide cb target).1.item = ((q.refresh cb).aim target).item :=
    item_collided ((q.refresh cb).aim target)
  rw [hcollide, item_aim, hrefresh]

/-! ### Runs -/

/-- The items that are in use have different indices. -/
def DistinctIndices (w : World Ω) : Prop :=
  ∀ a ∈ w.live, ∀ b ∈ w.live, (w.q.item a).index = (w.q.item b).index → a = b

/-- The items of the list that a collision returns have greater and greater indices. -/
def StrictlyAscending (cb : Callbacks Ω) (w : World Ω) (target : Rectangle) : Prop :=
  let (q, ids) := w.q.collide cb target
  ids.Pairwise (fun a b => (q.item a).index < (q.item b).index) ∧ ids.Nodup

/--
**A new list is in order**, in any run whose collisions, the last one too, file in order.
-/
theorem items_ascending
    (hnew : new memory width height = some q) {ops : List (Op Ω)} {w : World Ω}
    {answers : List Answer} {target : Rectangle}
    (hops : EachStep (Step cb) (Op.InOrder cb) ⟨q, []⟩ (ops ++ [.collide target]))
    (h : Traces (Step cb) ⟨q, []⟩ ops w answers) (hindices : DistinctIndices w)
    (hfresh : ¬ReturnsAgain cb w.q target) : StrictlyAscending cb w target := by
  have hbefore : EachStep (Step cb) (Op.InOrder cb) ⟨q, []⟩ ops := by
    intro before op after b rs heq htraces
    refine hops before op (after ++ [.collide target]) b rs ?_ htraces
    rw [heq, append_assoc]
    rfl
  have hw : Orderly cb w.q w.live := traces_invariant_of (I := fun w => Orderly cb w.q w.live)
    (fun _ _ _ _ hw hop hstep => orderly_step hw hop hstep) ops ⟨q, []⟩ w answers hbefore
    (orderly_new hnew) h
  have hlast : Op.InOrder cb w (.collide target) :=
    hops ops (.collide target) [] w answers rfl h
  obtain ⟨hascending, hnodup, hlive⟩ := (orderly_collide hw target hlast).2 hfresh
  refine ⟨?_, hnodup⟩
  refine (hascending.and hnodup).imp_of_mem fun {a b} ha hb hab => ?_
  refine lt_of_le_of_ne hab.1 fun heq => hab.2 (hindices a (hlive a ha) b (hlive b hb) ?_)
  rw [← index_collide hw.inv target, ← index_collide hw.inv target]
  exact heq

/-! ### Short runs

The canvas is halved once in each direction.
-/

/-- A tree that was just made. -/
def ten : QuadTree Rectangle := { eight with w := 10, h := 10 }

theorem new_ten : new zeroed 10 10 = some ten := rfl

/-- Two items lie on the middle line, and the first of them changes. -/
def changesFirst : List (Op Rectangle) :=
  [.add ⟨1, 4, 2, 2⟩, .add ⟨1, 4, 2, 2⟩, .collide ⟨0, 0, 4, 4⟩, .changed 0 ⟨1, 4, 2, 2⟩]

theorem collide_out_of_order : new zeroed 10 10 = some ten ∧
    (∃ answers, Traces (Step rectangles) ⟨ten, []⟩ changesFirst (after rectangles ten changesFirst)
      answers) ∧
    DistinctIndices (after rectangles ten changesFirst) ∧
    ¬ReturnsAgain rectangles (after rectangles ten changesFirst).q ⟨0, 0, 4, 4⟩ ∧
    ¬StrictlyAscending rectangles (after rectangles ten changesFirst) ⟨0, 0, 4, 4⟩ := by
  refine ⟨rfl, traces_after (by with_unfolding_all decide),
    by unfold DistinctIndices; with_unfolding_all decide,
    by unfold ReturnsAgain; with_unfolding_all decide, ?_⟩
  unfold StrictlyAscending
  with_unfolding_all decide

/-- Two items lie on the middle line, and the second of them changes. -/
def changesSecond : List (Op Rectangle) :=
  [.add ⟨1, 4, 2, 2⟩, .add ⟨1, 4, 2, 2⟩, .collide ⟨0, 0, 4, 4⟩, .changed 1 ⟨1, 4, 2, 2⟩]

theorem files_of_here {item : Id → Item Ω} {root : Root}
    (hall : ∀ i ∈ objects, cb.classify direction size (item i).object = .both)
    (hcome : Ascending item (arriving cb item direction size objects []))
    (hstand : ∀ a ∈ root.both, (item a).visible = true →
      ∀ b ∈ arriving cb item direction size objects [], (item a).index ≤ (item b).index) :
    Files cb item direction size root objects := by
  intro p _
  cases p with
  | nil => exact ⟨hcome, hstand⟩
  | cons right p =>
    have hnone : arriving cb item direction size objects (right :: p) = [] := by
      refine filter_eq_nil_iff.mpr fun i hi => ?_
      rw [settles, hall i hi]
      cases right with
      | false => simp
      | true => simp
    rw [hnone]
    exact ⟨List.Pairwise.nil, fun a _ _ b hb => absurd hb not_mem_nil⟩

theorem items_ascending_changesSecond :
    StrictlyAscending rectangles (after rectangles ten changesSecond) ⟨0, 0, 4, 4⟩ := by
  have hfirst : Op.InOrder rectangles
      (after rectangles ten [.add ⟨1, 4, 2, 2⟩, .add ⟨1, 4, 2, 2⟩]) (.collide ⟨0, 0, 4, 4⟩) :=
    files_of_here (by with_unfolding_all decide)
      (by unfold Ascending; with_unfolding_all decide) (by with_unfolding_all decide)
  have hlast : Op.InOrder rectangles (after rectangles ten changesSecond) (.collide ⟨0, 0, 4, 4⟩) :=
    files_of_here (by with_unfolding_all decide)
      (by unfold Ascending; with_unfolding_all decide) (by with_unfolding_all decide)
  have hops : EachStep (Step rectangles) (Op.InOrder rectangles) ⟨ten, []⟩
      (changesSecond ++ [.collide ⟨0, 0, 4, 4⟩]) :=
    eachStep_of_admits _ _ ⟨trivial, trivial, hfirst, trivial, hlast, trivial⟩
  obtain ⟨answers, h⟩ := traces_after (c := rectangles) (q := ten) (l := changesSecond)
    (by with_unfolding_all decide)
  exact items_ascending new_ten hops h (by unfold DistinctIndices; with_unfolding_all decide)
    (by unfold ReturnsAgain; with_unfolding_all decide)

end Eina.QuadTree
