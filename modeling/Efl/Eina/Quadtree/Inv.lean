/-
What holds of a quad tree between two calls.

`Inv` is about the tree, the change list and the memory: an item that is in use is in one node,
which it points to, or waits in the change list, or is hidden.  `Shown` says that every visible
item is in one of the first two.  `CacheInv` is about the list of the last collision, as long as
the next collision with the same target returns it again.
-/
import Efl.Eina.Quadtree.Update
import Efl.Eina.Quadtree.Merge

namespace Eina.QuadTree

open List Root

variable {Ω : Type} {rect : Ω → Rectangle} {cb : Callbacks Ω} {q q' : QuadTree Ω} {live : List Id}
  {id i : Id} {p : Path} {B : Prop} (ids : List Id)

/-- The tree and the memory; `live` are the items that were added and not deleted. -/
structure Base (q : QuadTree Ω) (live : List Id) : Prop where
  tree : ∀ i p, Root.At i p q.root →
    (q.item i).root = some p ∧ (q.item i).change = false ∧ i ∈ live
  distinct : Root.Distinct q.root
  changes : ∀ i ∈ live, (q.item i).change = true → i ∈ q.change
  nodup : q.change.Nodup
  waiting : ∀ i ∈ q.change, ((q.item i).deleteMe = true ∨ i ∈ live) ∧ i < q.pool ∧ i ∉ q.itemsTrash
  inUse : ∀ i ∈ live, (q.item i).deleteMe = false ∧ i < q.pool ∧ i ∉ q.itemsTrash
  trash : ∀ i ∈ q.itemsTrash, i < q.pool
  trashNodup : q.itemsTrash.Nodup

/-- The rectangle of every visible item lies in the part of the canvas its node is for. -/
def AllPlaced (rect : Ω → Rectangle) (cb : Callbacks Ω) (q : QuadTree Ω) : Prop :=
  ∀ i p, Root.At i p q.root → (q.item i).visible = true →
    Fits rect cb (q.item i).object q.canvas → Placed (rect (q.item i).object) false p q.canvas

/-- The invariant between two calls. -/
structure Inv (rect : Ω → Rectangle) (cb : Callbacks Ω) (q : QuadTree Ω) (live : List Id) :
    Prop where
  base : Base q live
  changed : ∀ i ∈ q.change, (q.item i).change = true ∧ (q.item i).root = none
  placed : q.resize = false → AllPlaced rect cb q

/-- Every visible item is in the tree, or is on its way to it. -/
def Shown (q : QuadTree Ω) (live : List Id) : Prop :=
  ∀ i ∈ live, (q.item i).visible = true →
    (∃ p, Root.At i p q.root) ∨ (q.item i).change = true

/-- The next collision with the same target does not collide again. -/
def CacheUsed (q : QuadTree Ω) : Prop := q.lost = false ∧ q.change = []

/--
The list of the last collision.  Under `B` it is also known to be in the order in which a new
collision would give it.
-/
structure CacheInv (B : Prop) (q : QuadTree Ω) (live : List Id) : Prop where
  links : ∀ i ∈ q.cached, i ∈ live ∧ q.links i = some .cached
  inTree : ∀ i ∈ q.cached, (q.item i).visible = true → ∃ p, Root.At i p q.root
  full : q.resize = false → ∀ i p, Root.At i p q.root → (q.item i).visible = true →
    Visits q.target false p q.canvas → i ∈ q.cached
  settled : B → q.resize = false → Settled q.target false q.canvas q.root
  exact : B → q.resize = false → (q.cached.filter fun i => (q.item i).visible) =
    (collideTree q.item [] false q.canvas q.target q.root).1

theorem Base.one_place (h : Base q live) {p p' : Path} (hp : Root.At i p q.root)
    (hp' : Root.At i p' q.root) : p = p' :=
  Option.some.inj ((h.tree i p hp).1.symm.trans (h.tree i p' hp').1)

theorem Inv.not_waiting (h : Inv rect cb q live) (hi : i ∈ q.change) : ¬Root.At i p q.root := by
  intro hat
  have hroot := (h.base.tree i p hat).1
  rw [(h.changed i hi).2] at hroot
  simp at hroot

/-! ### Bringing the tree up to date -/

/-- What holds before the update of the tree, after it was emptied if need be. -/
structure Ready (rect : Ω → Rectangle) (cb : Callbacks Ω) (q : QuadTree Ω) (live : List Id) :
    Prop where
  base : Base q live
  outside : ∀ i ∈ q.change, ∀ p, ¬Root.At i p q.root
  gone : ∀ i ∈ q.change, (q.item i).deleteMe = true → (q.item i).root = none
  placed : AllPlaced rect cb q
  resize : q.resize = false

theorem Ready.comes (h : Ready rect cb q live) : Comes q q.root q.change :=
  ⟨h.base.nodup, h.gone, h.base.distinct, h.outside⟩

/-- Every visible item is in the tree, or in the change list. -/
def Shown' (q : QuadTree Ω) (live : List Id) : Prop :=
  ∀ i ∈ live, (q.item i).visible = true → (∃ p, Root.At i p q.root) ∨ i ∈ q.change

/-- The objects and what is visible. -/
def SameItems (q q' : QuadTree Ω) : Prop :=
  q'.canvas = q.canvas ∧ ∀ i, (q'.item i).visible = (q.item i).visible ∧
    (q'.item i).object = (q.item i).object

theorem ready_emptied (h : Inv rect cb q live) : Ready rect cb q.emptied live ∧
    (Shown q live → Shown' q.emptied live) := by
  unfold emptied
  have hbase := h.base
  split
  · have hspec := rebuild_spec q.root.items q
    rw [← rebuildPre_eq] at hspec
    generalize q.rebuildPre q.root = q1 at hspec ⊢
    have hkept := hspec.kept
    have hvisible (i : Id) : (q1.item i).visible = (q.item i).visible := hkept.visible i
    have hdeleteMe (i : Id) : (q1.item i).deleteMe = (q.item i).deleteMe := hkept.deleteMe i
    have hpool : q1.pool = q.pool := hkept.pool
    have hchange (i : Id) : i ∈ q1.change ↔
        i ∈ q.change ∨ (∃ p, Root.At i p q.root) ∧ (q.item i).visible = true := by
      rw [hspec.change, mem_append, mem_filter, mem_items]
    refine ⟨⟨⟨?_, trivial, ?_, ?_, ?_, ?_, ?_, ?_⟩, ?_, ?_, ?_, rfl⟩, ?_⟩
    · intro i p hat
      exact absurd hat not_at_nil
    · intro i hi hflag
      rw [show (q1.item i).change = (q.item i).change from hspec.flag i] at hflag
      exact (hchange i).mpr (.inl (hbase.changes i hi hflag))
    · rw [hspec.change, nodup_append]
      refine ⟨hbase.nodup, (nodup_items hbase.distinct ?_).filter _, ?_⟩
      · intro i p p' hp hp'
        exact hbase.one_place hp hp'
      · rintro a ha b hb rfl
        obtain ⟨p, hp⟩ := mem_items.mp (mem_filter.mp hb).1
        exact h.not_waiting ha hp
    · intro i hi
      rw [hdeleteMe, hpool, hspec.trash]
      rcases (hchange i).mp hi with hi | ⟨⟨p, hp⟩, -⟩
      · exact hbase.waiting i hi
      · have hlive := (hbase.tree i p hp).2.2
        exact ⟨.inr hlive, (hbase.inUse i hlive).2⟩
    · intro i hi
      rw [hdeleteMe, hpool, hspec.trash]
      exact hbase.inUse i hi
    · intro i hi
      rw [hpool]
      exact hbase.trash i (by rw [← hspec.trash]; exact hi)
    · rw [hspec.trash]
      exact hbase.trashNodup
    · intro i _ p
      exact not_at_nil
    · intro i hi hdm
      rw [show (q1.item i).deleteMe = (q.item i).deleteMe from hdeleteMe i] at hdm
      rcases (hchange i).mp hi with hi | ⟨⟨p, hp⟩, -⟩
      · rcases hspec.root i with hroot | hroot
        · rw [hroot]
          exact (h.changed i hi).2
        · exact hroot
      · rw [(hbase.inUse i (hbase.tree i p hp).2.2).1] at hdm
        simp at hdm
    · intro i p hat
      exact absurd hat not_at_nil
    · intro hshown i hi hv
      rw [show (q1.item i).visible = (q.item i).visible from hvisible i] at hv
      right
      rw [hchange]
      rcases hshown i hi hv with hat | hflag
      · exact .inr ⟨hat, hv⟩
      · exact .inl (hbase.changes i hi hflag)
  · rename_i hresize
    rw [Bool.not_eq_true] at hresize
    refine ⟨⟨hbase, fun i hi p => h.not_waiting hi, fun i hi _ => (h.changed i hi).2,
      h.placed hresize, hresize⟩, ?_⟩
    intro hshown i hi hv
    rcases hshown i hi hv with hat | hflag
    · exact .inl hat
    · exact .inr (hbase.changes i hi hflag)

/-- `_eina_quadtree_update`: no item waits any more, and nothing shown is lost. -/
theorem inv_updated (h : Ready rect cb q live) :
    Inv rect cb (q.updated cb) live ∧ (q.updated cb).change = [] ∧ (q.updated cb).resize = false ∧
      (Shown' q live → Shown (q.updated cb) live) := by
  have hbase := h.base
  unfold updated
  split
  · rename_i hnil
    refine ⟨⟨hbase, by simp [hnil], fun _ => h.placed⟩, hnil, h.resize, ?_⟩
    intro hshown i hi hv
    rcases hshown i hi hv with hat | hmem
    · exact .inl hat
    · rw [hnil] at hmem
      simp at hmem
  · have hspec := update_spec rect cb _ q [] q.root q.change false q.canvas (Nat.lt_succ_self _)
      h.comes
    generalize update cb q [] q.root q.change false q.canvas = r at hspec ⊢
    obtain ⟨q1, root⟩ := r
    have hkept := hspec.kept
    obtain ⟨freed, htrash, hfreedNodup, hfreed⟩ := hkept.trash
    have hat (i : Id) (p : Path) : Root.At i p root ↔ Root.At i p q.root ∨
        (i ∈ q.change ∧ (q.item i).visible = true ∧ (q.item i).deleteMe = false ∧
          (q1.item i).root = some p) := by
      simpa using hspec.at_ i p
    have hcanvas : q1.canvas = q.canvas := by rw [canvas, canvas, hkept.w, hkept.h]
    have hnotfreed {i : Id} (hi : i ∈ live) : i ∉ freed := by
      intro hmem
      have := (hfreed i hmem).2
      rw [(hbase.inUse i hi).1] at this
      simp at this
    have hold {i : Id} {p : Path} (hi : Root.At i p q.root) : i ∉ q.change :=
      fun hmem => h.outside i hmem p hi
    refine ⟨⟨⟨?_, hspec.distinct, ?_, nodup_nil, by simp, ?_, ?_, ?_⟩, by simp, ?_⟩, rfl,
      hkept.resize.trans h.resize, ?_⟩
    · intro i p hi
      rcases (hat i p).mp hi with hi | ⟨hi, hv, hdm, hroot⟩
      · rw [hkept.other i (hold hi)]
        exact hbase.tree i p hi
      refine ⟨hroot, hspec.change i hi, ?_⟩
      rcases (hbase.waiting i hi).1 with hdm' | hlive
      · rw [hdm] at hdm'
        simp at hdm'
      · exact hlive
    · intro i hi hflag
      by_cases hmem : i ∈ q.change
      · rw [show (q1.item i).change = false from hspec.change i hmem] at hflag
        simp at hflag
      · rw [show (q1.item i) = q.item i from hkept.other i hmem] at hflag
        exact absurd (hbase.changes i hi hflag) hmem
    · intro i hi
      rw [hkept.deleteMe, hkept.pool, htrash, mem_append, not_or]
      obtain ⟨h1, h2, h3⟩ := hbase.inUse i hi
      exact ⟨h1, h2, hnotfreed hi, h3⟩
    · intro i hi
      rw [hkept.pool]
      rw [show i ∈ q1.itemsTrash ↔ _ from by rw [htrash, mem_append]] at hi
      rcases hi with hi | hi
      · exact (hbase.waiting i (hfreed i hi).1).2.1
      · exact hbase.trash i hi
    · rw [htrash, nodup_append]
      refine ⟨hfreedNodup, hbase.trashNodup, ?_⟩
      rintro a ha b hb rfl
      exact (hbase.waiting a (hfreed a ha).1).2.2 hb
    · intro _ i p hi hv
      show Fits rect cb (q1.item i).object q1.canvas →
        Placed (rect (q1.item i).object) false p q1.canvas
      rw [show (q1.item i).visible = (q.item i).visible from hkept.visible i] at hv
      rw [hkept.object, hcanvas]
      rcases (hat i p).mp hi with hi | ⟨hi, -, hdm, hroot⟩
      · exact h.placed i p hi hv
      obtain ⟨p', hp', hplaced⟩ := hspec.placed i hi hv hdm
      rw [hroot] at hp'
      obtain rfl : p = p' := by simpa using hp'
      exact hplaced
    · intro hshown i hi hv
      left
      rw [show (q1.item i).visible = (q.item i).visible from hkept.visible i] at hv
      rcases hshown i hi hv with ⟨p, hp⟩ | hmem
      · exact ⟨p, (hat i p).mpr (.inl hp)⟩
      have hdm := (hbase.inUse i hi).1
      obtain ⟨p, hp, -⟩ := hspec.placed i hmem hv hdm
      exact ⟨p, (hat i p).mpr (.inr ⟨hmem, hv, hdm, hp⟩)⟩

theorem canvas_eq (hw : q'.w = q.w) (hh : q'.h = q.h) : q'.canvas = q.canvas := by
  rw [canvas, canvas, hw, hh]

theorem sameItems_refresh (h : Inv rect cb q live) :
    SameItems q (q.refresh cb) := by
  have hready := (ready_emptied h).1
  have hemptied : q.emptied.w = q.w ∧ q.emptied.h = q.h ∧
      ∀ i, (q.emptied.item i).visible = (q.item i).visible ∧
        (q.emptied.item i).object = (q.item i).object := by
    unfold emptied
    split
    · have hspec := (rebuild_spec q.root.items q).kept
      rw [← rebuildPre_eq] at hspec
      exact ⟨hspec.w, hspec.h, fun i => ⟨hspec.visible i, hspec.object i⟩⟩
    · exact ⟨rfl, rfl, fun _ => ⟨rfl, rfl⟩⟩
  have hupdated : (q.refresh cb).w = q.emptied.w ∧ (q.refresh cb).h = q.emptied.h ∧
      ∀ i, ((q.refresh cb).item i).visible = (q.emptied.item i).visible ∧
        ((q.refresh cb).item i).object = (q.emptied.item i).object := by
    unfold refresh updated
    split
    · exact ⟨rfl, rfl, fun _ => ⟨rfl, rfl⟩⟩
    have hspec := (update_spec rect cb _ q.emptied [] q.emptied.root q.emptied.change false
      q.emptied.canvas (Nat.lt_succ_self _) hready.comes).kept
    generalize update cb q.emptied [] q.emptied.root q.emptied.change false q.emptied.canvas = r
      at hspec ⊢
    obtain ⟨q1, root⟩ := r
    exact ⟨hspec.w, hspec.h, fun i => ⟨hspec.visible i, hspec.object i⟩⟩
  refine ⟨canvas_eq (hupdated.1.trans hemptied.1) (hupdated.2.1.trans hemptied.2.1),
    fun i => ⟨?_, ?_⟩⟩
  · exact (hupdated.2.2 i).1.trans (hemptied.2.2 i).1
  · exact (hupdated.2.2 i).2.trans (hemptied.2.2 i).2

/-! ### Colliding -/

theorem cacheInv_refresh (hcache : CacheUsed q → CacheInv B q live)
    (hused : CacheUsed (q.refresh cb)) : CacheInv B (q.refresh cb) live := by
  unfold refresh updated at hused ⊢
  split at hused
  · rename_i hnil
    rw [if_pos hnil]
    unfold emptied at hused hnil ⊢
    split at hused
    · rename_i hresize
      rw [if_pos hresize] at hnil ⊢
      have hspec := rebuild_spec q.root.items q
      rw [← rebuildPre_eq] at hspec
      generalize q.rebuildPre q.root = q1 at hspec hused hnil ⊢
      -- nothing visible was in the tree
      obtain ⟨hchange, hnone⟩ := append_eq_nil_iff.mp (hspec.change.symm.trans hnil)
      have hcache := hcache ⟨hspec.kept.lost.symm.trans hused.1, hchange⟩
      have hinvisible (i : Id) : i ∉ q.root.items ∨ (q.item i).visible = false := by
        by_cases hi : i ∈ q.root.items
        · right
          simpa using filter_eq_nil_iff.mp hnone i hi
        · exact .inl hi
      have hcached : q1.cached = q.cached := hspec.kept.cached
      have hvisible (i : Id) : (q1.item i).visible = (q.item i).visible := hspec.kept.visible i
      have hgone : ∀ i ∈ q1.cached, (q1.item i).visible = false := by
        intro i hi
        rw [hcached] at hi
        rw [hvisible]
        rcases hinvisible i with hnot | hv
        · by_contra hv
          exact hnot (mem_items.mpr (hcache.inTree i hi (by simpa using hv)))
        · exact hv
      refine ⟨?_, ?_, ?_, fun _ _ => trivial, ?_⟩
      · intro i hi
        rw [hcached] at hi
        rw [hspec.links i (hinvisible i)]
        exact hcache.links i hi
      · intro i hi hv
        rw [show (q1.item i).visible = false from hgone i hi] at hv
        simp at hv
      · intro _ i p hat
        exact absurd hat not_at_nil
      · intro _ _
        show (q1.cached.filter fun i => (q1.item i).visible) = []
        rw [filter_eq_nil_iff]
        intro i hi
        simpa using hgone i hi
    · rename_i hresize
      rw [if_neg hresize]
      exact hcache hused
  · generalize update cb q.emptied [] q.emptied.root q.emptied.change false q.emptied.canvas = r
      at hused
    obtain ⟨q1, root⟩ := r
    exact absurd hused.1 (by simp)

theorem links_linkAll (l : Links) (q : QuadTree Ω) :
    (q.linkAll ids l).links i = if i ∈ ids then some l else q.links i := by
  induction ids generalizing q with
  | nil => simp [linkAll]
  | cons id ids ih =>
    have hstep : q.linkAll (id :: ids) l = (q.link id l).linkAll ids l := rfl
    rw [hstep, ih]
    by_cases hi : i ∈ ids
    · simp [hi]
    by_cases hid : i = id
    · simp [hid, link]
    · simp [hi, link]

theorem linkAll_eq (l : Links) (q : QuadTree Ω) :
    q.linkAll ids l = { q with links := (q.linkAll ids l).links } := by
  induction ids generalizing q with
  | nil => rfl
  | cons id ids ih =>
    have hstep : q.linkAll (id :: ids) l = (q.link id l).linkAll ids l := rfl
    rw [hstep, ih]
    rfl

/-- A collision with the tree that is up to date. -/
def collided (q : QuadTree Ω) : QuadTree Ω :=
  if q.lost then
    let (cached, root) := collideTree q.item [] false q.canvas q.target q.root
    { q with root := root, cached := cached, lost := false }.linkAll cached .cached
  else q

theorem collide_eq (cb : Callbacks Ω) (q : QuadTree Ω) (target : Rectangle) :
    q.collide cb target = (((q.refresh cb).aim target).collided,
      ((q.refresh cb).aim target).collided.cached) := rfl

theorem Inv.congr (h : Inv rect cb q live) {root : Root}
    (hat : ∀ i p, Root.At i p root ↔ Root.At i p q.root) (hdistinct : Root.Distinct root)
    (cached : List Id) (target : Rectangle) (lost : Bool) (links : Id → Option Links) :
    Inv rect cb { q with root := root, cached := cached, target := target, lost := lost, links :=
      links }
      live := by
  obtain ⟨⟨htree, -, h3, h4, h5, h6, h7, h8⟩, hchanged, hplaced⟩ := h
  refine ⟨⟨?_, hdistinct, h3, h4, h5, h6, h7, h8⟩, hchanged, ?_⟩
  · intro i p hi
    exact htree i p ((hat i p).mp hi)
  · intro hresize i p hi
    exact hplaced hresize i p ((hat i p).mp hi)

theorem inv_aim (h : Inv rect cb q live) (target : Rectangle) : Inv rect cb
    (q.aim target) live := by
  unfold aim
  split
  · exact h
  · exact h.congr (fun _ _ => Iff.rfl) h.base.distinct q.cached target true q.links

theorem cacheInv_aim (hcache : CacheUsed q → CacheInv B q live) {target : Rectangle}
    (hused : CacheUsed (q.aim target)) : CacheInv B (q.aim target) live := by
  unfold aim at hused ⊢
  split at hused
  · rename_i htarget
    rw [if_pos htarget]
    exact hcache hused
  · exact absurd hused.1 (by simp)

/-- What a collision leaves behind. -/
structure Collided (rect : Ω → Rectangle) (cb : Callbacks Ω) (B : Prop) (q : QuadTree Ω)
    (live : List Id)
    (q' : QuadTree Ω) : Prop where
  inv : Inv rect cb q' live
  cache : CacheInv B q' live
  resize : q'.resize = false
  target : q'.target = q.target
  same : SameItems q q'
  shown : Shown q live → Shown q' live
  change : q'.change = []

theorem collided_spec (h : Inv rect cb q live) (hnil : q.change = []) (hresize : q.resize = false)
    (hcache : CacheUsed q → CacheInv B q live) : Collided rect cb B q live q.collided := by
  unfold collided
  split
  · have hat (i : Id) (p : Path) := at_collideTree (i := i) q.item q.target q.root []
      false q.canvas p
    have hmem (i : Id) := mem_collideTree (i := i) q.item q.target q.root [] false q.canvas
    have hdistinct := distinct_collideTree q.item q.target q.root [] false q.canvas
      h.base.distinct
    have hsettled := settled_collideTree q.item q.target q.root [] false q.canvas
    have hagain := collideTree_again q.item q.target q.root [] false q.canvas
    generalize collideTree q.item [] false q.canvas q.target q.root = r at *
    obtain ⟨ids, root⟩ := r
    dsimp only at *
    rw [linkAll_eq]
    refine ⟨h.congr hat hdistinct ids q.target false _, ⟨?_, ?_, ?_, fun _ _ => hsettled, ?_⟩,
      hresize, rfl, ⟨rfl, fun _ => ⟨rfl, rfl⟩⟩, ?_, hnil⟩
    · intro i hi
      rcases (hmem i).mp hi with hi' | ⟨p, -, hp, -⟩
      · simp at hi'
      · refine ⟨(h.base.tree i p hp).2.2, ?_⟩
        rw [links_linkAll, if_pos hi]
    · intro i hi _
      rcases (hmem i).mp hi with hi' | ⟨p, -, hp, -⟩
      · simp at hi'
      · exact ⟨p, (hat i p).mpr hp⟩
    · intro _ i p hp hv hvisit
      exact (hmem i).mpr (.inr ⟨p, hvisit, (hat i p).mp hp, hv⟩)
    · intro _ _
      refine Eq.trans ?_ hagain.symm
      rw [filter_eq_self]
      intro i hi
      rcases (hmem i).mp hi with hi' | ⟨p, -, -, hv⟩
      · simp at hi'
      · exact hv
    · intro hshown i hi hv
      rcases hshown i hi hv with ⟨p, hp⟩ | hflag
      · exact .inl ⟨p, (hat i p).mpr hp⟩
      · exact .inr hflag
  · rename_i hlost
    rw [Bool.not_eq_true] at hlost
    exact ⟨h, hcache ⟨hlost, hnil⟩, hresize, rfl, ⟨rfl, fun _ => ⟨rfl, rfl⟩⟩, fun hs => hs, hnil⟩

/-- **The collision**: what it leaves behind, from any state between two calls. -/
theorem collide_spec (h : Inv rect cb q live)
    (hcache : CacheUsed q → CacheInv B q live) (target : Rectangle) :
    let q' := (q.collide cb target).1
    Inv rect cb q' live ∧ CacheInv B q' live ∧ q'.resize = false ∧ q'.target = target ∧
      SameItems q q' ∧ (Shown q live → Shown q' live) ∧ q'.change = [] := by
  obtain ⟨hready, hshown'⟩ := ready_emptied h
  obtain ⟨hinv, hnil, hresize, hshown⟩ := inv_updated hready
  have hrefresh : CacheUsed (q.refresh cb) → CacheInv B (q.refresh cb) live :=
    cacheInv_refresh hcache
  have hsame := sameItems_refresh h
  have hshown1 : Shown q live → Shown (q.refresh cb) live := fun hs => hshown (hshown' hs)
  rw [collide_eq]
  change Inv rect cb (q.refresh cb) live at hinv
  change (q.refresh cb).change = [] at hnil
  change (q.refresh cb).resize = false at hresize
  generalize q.refresh cb = q1 at *
  have haim : (q1.aim target).change = q1.change ∧ (q1.aim target).resize = q1.resize ∧
      (q1.aim target).target = target ∧ SameItems q1 (q1.aim target) ∧
      (Shown q1 live → Shown (q1.aim target) live) := by
    unfold aim
    split
    · rename_i htarget
      exact ⟨rfl, rfl, htarget, ⟨rfl, fun _ => ⟨rfl, rfl⟩⟩, fun hs => hs⟩
    · exact ⟨rfl, rfl, rfl, ⟨rfl, fun _ => ⟨rfl, rfl⟩⟩, fun hs => hs⟩
  obtain ⟨hchange, hres, htarget, hsame2, hshown2⟩ := haim
  obtain ⟨h1, h2, h3, h4, h5, h6, h7⟩ := collided_spec (inv_aim hinv target)
    (hchange.trans hnil) (hres.trans hresize) (cacheInv_aim hrefresh)
  refine ⟨h1, h2, h3, h4.trans htarget, ⟨h5.1.trans (hsame2.1.trans hsame.1), fun i => ⟨?_, ?_⟩⟩,
    ?_, h7⟩
  · exact (h5.2 i).1.trans ((hsame2.2 i).1.trans (hsame.2 i).1)
  · exact (h5.2 i).2.trans ((hsame2.2 i).2.trans (hsame.2 i).2)
  · intro hs
    exact h6 (hshown2 (hshown1 hs))

end Eina.QuadTree
