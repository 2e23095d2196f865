/-
Runs of a quad tree.

A client adds items, moves their objects and tells so with `eina_quadtree_change`, hides, shows
and deletes them, and collides.  Two things go wrong in the source:

  * `eina_quadtree_show` of an item that is in no node does nothing while a resize is pending,
    because `eina_quadtree_change` returns early then, and the rebuild only goes through the
    nodes;
  * `eina_quadtree_del`, `eina_quadtree_increase` and `eina_quadtree_hide` leave the list of
    the last collision as it is, which the next collision with the same target returns.

`Careful` says when they do not.
-/
import Efl.Eina.Quadtree.Inv
import Efl.Lib.Runs

namespace Eina.QuadTree

open Runs List Root

variable {Ω : Type} {rect : Ω → Rectangle} {cb : Callbacks Ω} {q q' : QuadTree Ω} {live : List Id}
  {id i : Id} {p : Path} {A B : Prop} {f : Item Ω → Item Ω} {memory : Id → Item Ω}
  {width height : Nat}

/-- The tree and the items that are in use. -/
structure World (Ω : Type) where
  q : QuadTree Ω
  live : List Id

inductive Op (Ω : Type) where
  | add (object : Ω)
  /-- The object becomes `object`, and `eina_quadtree_change` is called. -/
  | changed (id : Id) (object : Ω)
  | hide (id : Id)
  | shown (id : Id)
  | del (id : Id)
  | increase (id : Id)
  | cycle
  | resized (w h : Nat)
  | collide (target : Rectangle)

inductive Answer where
  | nothing
  | item (id : Id)
  | done (ok : Bool)
  | items (ids : List Id)

def step (cb : Callbacks Ω) (w : World Ω) : Op Ω → World Ω × Answer
  | .add object =>
    let (q, id) := w.q.add object
    (⟨q, id :: w.live⟩, .item id)
  | .changed id object =>
    let (q, ok) := (w.q.modify id fun i => { i with object := object }).changed id
    (⟨q, w.live⟩, .done ok)
  | .hide id => (⟨w.q.hide id, w.live⟩, .done true)
  | .shown id =>
    let (q, ok) := w.q.shown id
    (⟨q, w.live⟩, .done ok)
  | .del id => (⟨w.q.del id, w.live.filter fun i => decide (i ≠ id)⟩, .done true)
  | .increase id => (⟨w.q.increase id, w.live⟩, .nothing)
  | .cycle => (⟨w.q.cycle, w.live⟩, .nothing)
  | .resized width height => (⟨w.q.resized width height, w.live⟩, .nothing)
  | .collide target =>
    let (q, ids) := w.q.collide cb target
    (⟨q, w.live⟩, .items ids)

/-- The item of a call is in use. -/
def Op.Allowed (w : World Ω) : Op Ω → Prop
  | .changed id _ | .hide id | .shown id | .del id | .increase id => id ∈ w.live
  | _ => True

instance Op.decidableAllowed (w : World Ω) : (op : Op Ω) → Decidable (op.Allowed w)
  | .changed id _ | .hide id | .shown id | .del id | .increase id =>
    inferInstanceAs (Decidable (id ∈ w.live))
  | .add _ | .cycle | .resized _ _ | .collide _ => inferInstanceAs (Decidable True)

def Step (cb : Callbacks Ω) (w : World Ω) (op : Op Ω) (w' : World Ω) (answer : Answer) : Prop :=
  op.Allowed w ∧ step cb w op = (w', answer)

/--
When a call does no harm.  `A` asks that no item gets lost, `B` that the list of the last
collision stays what a new collision would give.  That no item of that list is deleted is asked
in any case.
-/
def Op.Careful (A B : Prop) (w : World Ω) : Op Ω → Prop
  | .shown id => A → w.q.resize = false ∨ (w.q.item id).visible = true ∨
      (w.q.item id).change = true ∨ ∃ p, Root.At id p w.q.root
  | .del id => ¬CacheUsed w.q ∨ id ∉ w.q.cached
  | .increase id => B → ¬CacheUsed w.q ∨ (w.q.item id).root = none
  | .hide id => B → ¬CacheUsed w.q ∨ id ∉ w.q.cached ∨ InOrder w.q.item w.q.root
  | _ => True

/-- What the run keeps. -/
structure Good (rect : Ω → Rectangle) (cb : Callbacks Ω) (A B : Prop) (q : QuadTree Ω)
    (live : List Id) : Prop where
  inv : Inv rect cb q live
  cache : CacheUsed q → CacheInv B q live
  shown : A → Shown q live

/-! ### Removing an item from its node -/

theorem remove_spec (htree : ∀ i p, Root.At i p q.root → (q.item i).root = some p)
    (hdistinct : Root.Distinct q.root) (id : Id) : ∃ root,
    q.remove id = { q with
      root := root
      item := fun i => if i = id then { q.item i with root := none } else q.item i } ∧
      (∀ i p, Root.At i p root ↔ Root.At i p q.root ∧ i ≠ id) ∧ Root.Distinct root ∧
      (root = q.root ∨ ∃ p, root = Root.removeAt id p q.root) := by
  unfold remove
  cases hroot : (q.item id).root with
  | none =>
    refine ⟨q.root, ?_, ?_, hdistinct, .inl rfl⟩
    · have hitem : (fun i => if i = id then { q.item i with root := none } else q.item i) =
          q.item := by
        funext i
        split
        · rename_i hi
          rw [hi, ← hroot]
        · rfl
      rw [hitem]
    · intro i p
      refine ⟨fun hat => ⟨hat, ?_⟩, fun hat => hat.1⟩
      rintro rfl
      rw [htree i p hat] at hroot
      simp at hroot
  | some p =>
    refine ⟨Root.removeAt id p q.root, ?_, ?_, distinct_removeAt hdistinct, .inr ⟨p, rfl⟩⟩
    · rfl
    · intro i p'
      constructor
      · intro hat
        refine ⟨at_of_removeAt hat, ?_⟩
        rintro rfl
        have hp := htree i p' (at_of_removeAt hat)
        obtain rfl := Option.some.inj (hroot.symm.trans hp)
        exact not_at_removeAt hdistinct hat
      · rintro ⟨hat, hne⟩
        exact at_removeAt_of_ne hne hat

/-! ### One call -/

theorem alloc_spec (h : Base q live) : ∃ id pool count trash,
    q.alloc = ({ q with pool := pool, itemsCount := count, itemsTrash := trash }, id) ∧
      id ∉ live ∧ id ∉ q.change ∧ id < pool ∧ id ∉ trash ∧ q.pool ≤ pool ∧ trash.Nodup ∧
      ∀ i ∈ trash, i ∈ q.itemsTrash := by
  unfold alloc
  cases htrash : q.itemsTrash with
  | nil =>
    refine ⟨q.pool, q.pool + 1, q.itemsCount, [], by simp only, ?_, ?_, Nat.lt_succ_self _,
      by simp, Nat.le_succ _, nodup_nil, by simp⟩
    · intro hi
      exact absurd (h.inUse _ hi).2.1 (lt_irrefl _)
    · intro hi
      exact absurd (h.waiting _ hi).2.1 (lt_irrefl _)
  | cons id trash =>
    have hmem : id ∈ q.itemsTrash := by simp [htrash]
    have hnodup := h.trashNodup
    rw [htrash, nodup_cons] at hnodup
    refine ⟨id, q.pool, q.itemsCount - 1, trash, rfl, ?_, ?_, h.trash id hmem, hnodup.1,
      le_rfl, hnodup.2, fun i hi => mem_cons_of_mem _ hi⟩
    · intro hi
      exact (h.inUse _ hi).2.2 hmem
    · intro hi
      exact (h.waiting _ hi).2.2 hmem

theorem add_good (h : Good rect cb A B q live) (object : Ω) :
    Good rect cb A B (q.add object).1 ((q.add object).2 :: live) := by
  have hbase := h.inv.base
  obtain ⟨id, pool, count, trash, heq, hlive, hchange, hpool, htrash, hle, hnodup, hsub⟩ :=
    alloc_spec hbase
  unfold add
  rw [heq]
  have hitem {i : Id} (hi : i ≠ id) {x : Item Ω} : (if i = id then x else q.item i) = q.item i :=
    if_neg hi
  have hat {i : Id} {p : Path} (hi : Root.At i p q.root) : i ≠ id := by
    rintro rfl
    exact hlive (hbase.tree _ p hi).2.2
  refine ⟨⟨⟨?_, hbase.distinct, ?_, ?_, ?_, ?_, ?_, hnodup⟩, ?_, ?_⟩, ?_, ?_⟩
  · intro i p hi
    simp only [link, modify, hitem (hat hi)]
    obtain ⟨h1, h2, h3⟩ := hbase.tree i p hi
    exact ⟨h1, h2, mem_cons_of_mem _ h3⟩
  · intro i hi hflag
    show i ∈ q.change ++ [id]
    by_cases hne : i = id
    · simp [hne]
    simp only [link, modify, hitem hne] at hflag
    exact mem_append_left _
      (hbase.changes i ((mem_cons.mp hi).resolve_left hne) hflag)
  · show (q.change ++ [id]).Nodup
    rw [nodup_append]
    refine ⟨hbase.nodup, by simp, ?_⟩
    rintro a ha b hb rfl
    rw [mem_singleton] at hb
    rw [hb] at ha
    exact hchange ha
  · intro i hi
    rcases mem_append.mp hi with hi | hi
    · have hne : i ≠ id := by
        rintro rfl
        exact hchange hi
      obtain ⟨h1, h2, h3⟩ := hbase.waiting i hi
      simp only [link, modify, hitem hne]
      refine ⟨h1.imp_right (mem_cons_of_mem _), lt_of_lt_of_le h2 hle, fun hmem => h3 (hsub i hmem)⟩
    · obtain rfl := mem_singleton.mp hi
      exact ⟨.inr mem_cons_self, hpool, htrash⟩
  · intro i hi
    by_cases hne : i = id
    · rw [hne]
      exact ⟨by simp [link], hpool, htrash⟩
    have hi' := (mem_cons.mp hi).resolve_left hne
    obtain ⟨h1, h2, h3⟩ := hbase.inUse i hi'
    simp only [link, modify, hitem hne]
    exact ⟨h1, lt_of_lt_of_le h2 hle, fun hmem => h3 (hsub i hmem)⟩
  · intro i hi
    exact lt_of_lt_of_le (hbase.trash i (hsub i hi)) hle
  · intro i hi
    rcases mem_append.mp hi with hi | hi
    · have hne : i ≠ id := by
        rintro rfl
        exact hchange hi
      simp only [link, modify, hitem hne]
      exact h.inv.changed i hi
    · obtain rfl := mem_singleton.mp hi
      simp [link]
  · intro hresize i p hi
    have hplaced := h.inv.placed hresize i p hi
    simp only [link, modify, hitem (hat hi)]
    exact hplaced
  · intro hused
    exact absurd hused.2 (by simp [link])
  · intro hA i hi hv
    by_cases hne : i = id
    · simp [link, hne]
    have hi' := (mem_cons.mp hi).resolve_left hne
    simp only [link, modify, hitem hne] at hv ⊢
    exact h.shown hA i hi' hv

theorem modify_other (hi : i ≠ id) : (q.modify id f).item i = q.item i :=
  if_neg hi

/-- The item is in no node and waits in the change list; all else is as before. -/
structure Requeued (q : QuadTree Ω) (id : Id) (q' : QuadTree Ω) : Prop where
  at_ : ∀ i p, Root.At i p q'.root ↔ Root.At i p q.root ∧ i ≠ id
  distinct : Root.Distinct q'.root
  other : ∀ i ≠ id, q'.item i = q.item i
  self : (q'.item id).change = true ∧ (q'.item id).root = none ∧ (q'.item id).deleteMe = false
  mem : ∀ i, i ∈ q'.change ↔ i ∈ q.change ∨ i = id
  nodup : q'.change.Nodup
  pool : q'.pool = q.pool
  trash : q'.itemsTrash = q.itemsTrash
  canvas : q'.canvas = q.canvas
  resize : q'.resize = q.resize

theorem Requeued.good (h : Good rect cb A B q live) (hid : id ∈ live) (hq : Requeued q id q') :
    Good rect cb A B q' live := by
  have hbase := h.inv.base
  refine ⟨⟨⟨?_, hq.distinct, ?_, hq.nodup, ?_, ?_, ?_, ?_⟩, ?_, ?_⟩, ?_, ?_⟩
  · intro i p hi
    obtain ⟨hi, hne⟩ := (hq.at_ i p).mp hi
    rw [hq.other i hne]
    exact hbase.tree i p hi
  · intro i hi hflag
    rw [hq.mem]
    by_cases hne : i = id
    · exact .inr hne
    · rw [hq.other i hne] at hflag
      exact .inl (hbase.changes i hi hflag)
  · intro i hi
    rw [hq.pool, hq.trash]
    by_cases hne : i = id
    · rw [hne]
      exact ⟨.inr hid, (hbase.inUse id hid).2⟩
    · rw [hq.other i hne]
      exact hbase.waiting i (((hq.mem i).mp hi).resolve_right hne)
  · intro i hi
    rw [hq.pool, hq.trash]
    by_cases hne : i = id
    · rw [hne]
      exact ⟨hq.self.2.2, (hbase.inUse id hid).2⟩
    · rw [hq.other i hne]
      exact hbase.inUse i hi
  · intro i hi
    rw [hq.trash] at hi
    rw [hq.pool]
    exact hbase.trash i hi
  · rw [hq.trash]
    exact hbase.trashNodup
  · intro i hi
    by_cases hne : i = id
    · rw [hne]
      exact ⟨hq.self.1, hq.self.2.1⟩
    · rw [hq.other i hne]
      exact h.inv.changed i (((hq.mem i).mp hi).resolve_right hne)
  · intro hresize i p hi
    obtain ⟨hi, hne⟩ := (hq.at_ i p).mp hi
    rw [hq.other i hne, hq.canvas]
    exact h.inv.placed (hq.resize.symm.trans hresize) i p hi
  · intro hused
    have hmem := (hq.mem id).mpr (.inr rfl)
    rw [hused.2] at hmem
    simp at hmem
  · intro hA i hi hv
    by_cases hne : i = id
    · rw [hne]
      exact .inr hq.self.1
    rw [hq.other i hne] at hv ⊢
    rcases h.shown hA i hi hv with ⟨p, hp⟩ | hflag
    · exact .inl ⟨p, (hq.at_ i p).mpr ⟨hp, hne⟩⟩
    · exact .inr hflag

/-- An item that is changed waits to be filed again. -/
theorem changed_requeued (h : Good rect cb A B q live) (hid : id ∈ live) {q1 : QuadTree Ω}
    (hf : ∀ x, (f x).root = x.root ∧ (f x).change = x.change ∧
      (f x).deleteMe = x.deleteMe) {lost : Bool} (hq1 : q1 = { q with lost := lost }.modify id f)
    (hresize : q.resize = false) (hvisible : (q1.item id).visible = true) :
    Requeued q id (q1.changed id).1 := by
  have hbase := h.inv.base
  have hother {i : Id} (hi : i ≠ id) : q1.item i = q.item i := by
    rw [hq1]
    exact modify_other hi
  have hself : (q1.item id).root = (q.item id).root ∧ (q1.item id).change = (q.item id).change ∧
      (q1.item id).deleteMe = false := by
    rw [hq1, modify_self]
    exact ⟨(hf _).1, (hf _).2.1, (hf _).2.2.trans (hbase.inUse id hid).1⟩
  have hfields : q1.root = q.root ∧ q1.change = q.change ∧ q1.pool = q.pool ∧
      q1.itemsTrash = q.itemsTrash ∧ q1.w = q.w ∧ q1.h = q.h ∧ q1.resize = q.resize := by
    rw [hq1]
    exact ⟨rfl, rfl, rfl, rfl, rfl, rfl, rfl⟩
  obtain ⟨hroot, hchange, hpool, htrash, hw, hh, hres⟩ := hfields
  unfold changed
  rw [if_neg (by simp [hself.2.2, hvisible]), if_neg (by simp [hres, hresize])]
  dsimp only
  generalize hq2 : (if (q1.item id).change = true then q1
    else { q1 with change := q1.change ++ [id] }.link id .change) = q2
  have hq2 : q2.root = q1.root ∧ q2.pool = q1.pool ∧ q2.itemsTrash = q1.itemsTrash ∧
      q2.item = q1.item ∧ q2.w = q1.w ∧ q2.h = q1.h ∧ q2.resize = q1.resize ∧ q2.change.Nodup ∧
      ∀ i, i ∈ q2.change ↔ i ∈ q.change ∨ i = id := by
    rw [← hq2]
    split
    · rename_i hflag
      rw [hself.2.1] at hflag
      refine ⟨rfl, rfl, rfl, rfl, rfl, rfl, rfl, by rw [hchange]; exact hbase.nodup, ?_⟩
      intro i
      rw [hchange]
      refine ⟨.inl, ?_⟩
      rintro (hi | rfl)
      · exact hi
      · exact hbase.changes _ hid hflag
    · rename_i hflag
      rw [hself.2.1] at hflag
      have hnew : id ∉ q.change := fun hmem => hflag (h.inv.changed id hmem).1
      refine ⟨rfl, rfl, rfl, rfl, rfl, rfl, rfl, ?_, ?_⟩
      · simp only [link, hchange]
        rw [nodup_append]
        refine ⟨hbase.nodup, by simp, ?_⟩
        rintro a ha b hb rfl
        rw [mem_singleton.mp hb] at ha
        exact hnew ha
      · simp [link, hchange]
  obtain ⟨hroot2, hpool2, htrash2, hitem2, hw2, hh2, hres2, hnodup, hmem⟩ := hq2
  have htree : ∀ i p, Root.At i p q.root → (q.item i).root = some p :=
    fun i p hi => (hbase.tree i p hi).1
  obtain ⟨root, hremove, hat, hdistinct, -⟩ := remove_spec
    (q := q2.modify id fun i => { i with change := true })
    (by
      intro i p hi
      have hi' := htree i p (by rw [← hroot, ← hroot2]; exact hi)
      by_cases hne : i = id
      · rw [hne, modify_self, hitem2]
        rw [hne] at hi'
        exact hself.1.trans hi'
      · rw [modify_other hne, hitem2, hother hne]
        exact hi')
    (by
      show Root.Distinct q2.root
      rw [hroot2, hroot]
      exact hbase.distinct) id
  rw [hremove]
  refine ⟨?_, hdistinct, ?_, ?_, hmem, hnodup, hpool2.trans hpool, htrash2.trans htrash,
    canvas_eq (hw2.trans hw) (hh2.trans hh), hres2.trans hres⟩
  · intro i p
    rw [hat, ← hroot, ← hroot2]
    rfl
  · intro i hi
    dsimp only
    rw [if_neg hi, modify_other hi, hitem2, hother hi]
  · dsimp only
    rw [if_pos rfl, modify_self, hitem2]
    exact ⟨rfl, rfl, hself.2.2⟩

theorem modify_flags (q : QuadTree Ω) (id : Id) (hf : ∀ x, (f x).root = x.root ∧
    (f x).change = x.change ∧ (f x).deleteMe = x.deleteMe) (i : Id) :
    ((q.modify id f).item i).root = (q.item i).root ∧
    ((q.modify id f).item i).change = (q.item i).change ∧
    ((q.modify id f).item i).deleteMe = (q.item i).deleteMe := by
  by_cases hi : i = id
  · rw [hi, modify_self]
    exact hf _
  · rw [modify_other hi]
    exact ⟨rfl, rfl, rfl⟩

theorem modify_inv (h : Inv rect cb q live)
    (hf : ∀ x, (f x).root = x.root ∧ (f x).change = x.change ∧ (f x).deleteMe = x.deleteMe)
    (hplaced : ∀ i p, q.resize = false → Root.At i p q.root →
      ((q.modify id f).item i).visible = true → (q.item i).visible = true ∧
        ((q.modify id f).item i).object = (q.item i).object) :
    Inv rect cb (q.modify id f) live := by
  have hitem := modify_flags q id hf
  obtain ⟨⟨h1, h2, h3, h4, h5, h6, h7, h8⟩, hchanged, hp⟩ := h
  refine ⟨⟨?_, h2, ?_, h4, ?_, ?_, h7, h8⟩, ?_, ?_⟩
  · intro i p hi
    rw [(hitem i).1, (hitem i).2.1]
    exact h1 i p hi
  · intro i hi hflag
    rw [(hitem i).2.1] at hflag
    exact h3 i hi hflag
  · intro i hi
    rw [(hitem i).2.2]
    exact h5 i hi
  · intro i hi
    rw [(hitem i).2.2]
    exact h6 i hi
  · intro i hi
    rw [(hitem i).1, (hitem i).2.1]
    exact hchanged i hi
  · intro hresize i p hi hv
    obtain ⟨hshown, hobject⟩ := hplaced i p hresize hi hv
    rw [hobject]
    exact hp hresize i p hi hshown

theorem modify_keeps (h : Good rect cb A B q live)
    (hf : ∀ x, (f x).root = x.root ∧ (f x).change = x.change ∧ (f x).deleteMe = x.deleteMe)
    (hvisible : ∀ i, ((q.modify id f).item i).visible = true → (q.item i).visible = true)
    (hobject : ∀ i, q.resize = false → (q.item i).visible = true →
      ((q.modify id f).item i).object = (q.item i).object)
    (hlist : CacheUsed q → CacheInv B q live → B → q.resize = false →
      (q.cached.filter fun i => ((q.modify id f).item i).visible) =
        (collideTree (q.modify id f).item [] false q.canvas q.target q.root).1) :
    Good rect cb A B (q.modify id f) live := by
  refine ⟨modify_inv h.inv hf fun i _ hresize _ hv =>
    ⟨hvisible i hv, hobject i hresize (hvisible i hv)⟩, fun hused => ?_, fun hA i hi hv => ?_⟩
  · have hc := h.cache hused
    exact ⟨hc.1, fun i hi hv => hc.2 i hi (hvisible i hv),
      fun hr i p hi hv => hc.3 hr i p hi (hvisible i hv), hc.4, hlist hused hc⟩
  · rw [(modify_flags _ _ hf i).2.1]
    exact h.shown hA i hi (hvisible i hv)

theorem modify_good (h : Good rect cb A B q live) (hf : ∀ x, (f x).root = x.root ∧
    (f x).change = x.change ∧ (f x).deleteMe = x.deleteMe ∧ (f x).visible = x.visible ∧
      (f x).index = x.index)
    (hplaced : q.resize = false → (q.item id).visible = true → (f (q.item id)).object =
      (q.item id).object) : Good rect cb A B (q.modify id f) live := by
  have hitem (i : Id) : ((q.modify id f).item i).visible = (q.item i).visible ∧
      ((q.modify id f).item i).index = (q.item i).index := by
    by_cases hi : i = id
    · rw [hi, modify_self]
      exact (hf _).2.2.2
    · rw [modify_other hi]
      exact ⟨rfl, rfl⟩
  refine modify_keeps h (fun x => ⟨(hf x).1, (hf x).2.1, (hf x).2.2.1⟩)
    (fun i hv => (hitem i).1 ▸ hv) (fun i hresize hv => ?_) fun _ hc hB hresize => ?_
  · by_cases hne : i = id
    · rw [hne] at hv ⊢
      rw [modify_self]
      exact hplaced hresize hv
    · rw [modify_other hne]
  · have hfilter : (q.cached.filter fun i => ((q.modify id f).item i).visible) =
        q.cached.filter fun i => (q.item i).visible := filter_congr fun i _ => (hitem i).1
    refine hfilter.trans ((hc.5 hB hresize).trans ?_)
    exact collideTree_congr q.target q.root [] false q.canvas (hc.4 hB hresize) (by simp)
      fun i p _ _ => ⟨(hitem i).2.symm, (hitem i).1.symm⟩

theorem changed_eq_self (h : ¬((q.item id).visible = true ∧ q.resize = false)) :
    (q.changed id).1 = q := by
  unfold changed
  split
  · rfl
  rename_i hv
  split
  · rfl
  rename_i hr
  simp only [not_or, Decidable.not_not] at hv
  exact absurd ⟨hv.2, Bool.eq_false_of_not_eq_true hr⟩ h

theorem changed_good (h : Good rect cb A B q live) (hid : id ∈ live) (object : Ω) :
    Good rect cb A B ((q.modify id fun i => { i with object := object }).changed id).1 live := by
  have hf (x : Item Ω) : ({ x with object := object } : Item Ω).root = x.root ∧
      ({ x with object := object } : Item Ω).change = x.change ∧
      ({ x with object := object } : Item Ω).deleteMe = x.deleteMe ∧
      ({ x with object := object } : Item Ω).visible = x.visible ∧
      ({ x with object := object } : Item Ω).index = x.index := ⟨rfl, rfl, rfl, rfl, rfl⟩
  by_cases hquiet : (q.item id).visible = true ∧ q.resize = false
  · exact (changed_requeued (f := fun i => { i with object := object }) h hid
      (fun x => ⟨rfl, rfl, rfl⟩) rfl hquiet.2 (by rw [modify_self]; exact hquiet.1)).good h hid
  -- only the object is another one
  have hgood : Good rect cb A B (q.modify id fun i => { i with object := object }) live :=
    modify_good h hf fun hresize hv => absurd ⟨hv, hresize⟩ hquiet
  rw [changed_eq_self (by rwa [modify_self])]
  exact hgood

theorem hide_good (h : Good rect cb A B q live)
    (hcareful : B → ¬CacheUsed q ∨ id ∉ q.cached ∨ InOrder q.item q.root) :
    Good rect cb A B (q.hide id) live := by
  have hitem (i : Id) : ((q.hide id).item i).object = (q.item i).object ∧
      ((q.hide id).item i).index = (q.item i).index ∧
      ((q.hide id).item i).visible = ((q.item i).visible && decide (i ≠ id)) := by
    unfold hide
    by_cases hi : i = id
    · rw [hi]
      simp
    · rw [modify_other hi]
      simp [hi]
  refine modify_keeps h (fun x => ⟨rfl, rfl, rfl⟩) (fun i hv => ?_) (fun i _ _ => (hitem i).1)
    fun hused hc hB hresize => ?_
  · exact (Bool.and_eq_true _ _ ▸ (hitem i).2.2 ▸ hv : _ ∧ _).1
  · have hfilter : (q.cached.filter fun i => ((q.hide id).item i).visible) =
        (q.cached.filter fun i => (q.item i).visible).filter fun i => decide (i ≠ id) := by
      rw [filter_filter]
      apply filter_congr
      intro i _
      rw [(hitem i).2.2, Bool.and_comm]
    refine hfilter.trans ?_
    rw [hc.5 hB hresize]
    rcases hcareful hB with hnot | hnot | horder
    · exact absurd hused hnot
    · -- the item is not in the list, so the collision did not see it
      have hunseen {i : Id} {p : Path} (hv : Visits q.target false p q.canvas)
          (hi : Root.At i p q.root) (hvis : (q.item i).visible = true) : i ≠ id := by
        rintro rfl
        exact hnot (hc.3 hresize i p hi hvis hv)
      have hagree : (collideTree q.item [] false q.canvas q.target q.root).1 =
          (collideTree (q.hide id).item [] false q.canvas q.target q.root).1 :=
        collideTree_congr q.target q.root [] false q.canvas (hc.4 hB hresize) (by simp) (by
          intro i p hv hi
          refine ⟨(hitem i).2.1.symm, ?_⟩
          rw [(hitem i).2.2]
          cases hvis : (q.item i).visible with
          | false => rfl
          | true => simp [hunseen hv hi hvis])
      refine Eq.trans ?_ hagree
      rw [filter_eq_self]
      intro i hi
      rcases (mem_collideTree _ q.target q.root _ _ _).mp hi with hi | ⟨p, hv, hat, hvis⟩
      · simp at hi
      · simpa using hunseen hv hat hvis
    · have hhide := collideTree_hide q.target (fun i => (hitem i).2.1) (fun i => (hitem i).2.2)
        q.root [] false q.canvas (hc.4 hB hresize) horder List.Pairwise.nil
      exact hhide.1.symm

theorem lost_good (h : Good rect cb A B q live) : Good rect cb A B { q with lost := true } live :=
  ⟨h.inv.congr (fun _ _ => Iff.rfl) h.inv.base.distinct q.cached q.target true q.links,
    fun hused => absurd hused.1 (by simp), h.shown⟩

theorem shown_good (h : Good rect cb A B q live) (hid : id ∈ live)
    (hcareful : A → q.resize = false ∨ (q.item id).visible = true ∨ (q.item id).change = true ∨
      ∃ p, Root.At id p q.root) : Good rect cb A B (q.shown id).1 live := by
  have hbase := h.inv.base
  have hlost := lost_good h
  unfold shown
  dsimp only
  split
  · exact hlost
  rename_i hhidden
  have hf (x : Item Ω) : ({ x with visible := true } : Item Ω).root = x.root ∧
      ({ x with visible := true } : Item Ω).change = x.change ∧
      ({ x with visible := true } : Item Ω).deleteMe = x.deleteMe := ⟨rfl, rfl, rfl⟩
  -- the item is visible and stays where it is
  have hstay (hnowhere : q.resize = false → ∀ p, ¬Root.At id p q.root)
      (hfound : A → (q.item id).change = true ∨ ∃ p, Root.At id p q.root) :
      Good rect cb A B ({ q with lost := true }.modify id fun i =>
        { i with visible := true }) live := by
    refine ⟨modify_inv hlost.inv hf fun i p hresize hi hv => ?_,
      fun hused => absurd hused.1 (by simp [modify]), fun hA i hi hv => ?_⟩
    · have hne : i ≠ id := by
        rintro rfl
        exact hnowhere hresize p hi
      rw [modify_other hne] at hv ⊢
      exact ⟨hv, rfl⟩
    · rw [(modify_flags _ _ hf i).2.1]
      by_cases hne : i = id
      · rw [hne]
        exact (hfound hA).symm
      · rw [modify_other hne] at hv
        exact h.shown hA i hi hv
  split
  · rename_i hflag
    rw [modify_self] at hflag
    refine hstay ?_ fun _ => .inl hflag
    intro _ p hp
    have := (hbase.tree id p hp).2.1
    rw [show (q.item id).change = true from hflag] at this
    simp at this
  · by_cases hresize : q.resize = false
    · exact (changed_requeued h hid hf rfl hresize
        (by rw [modify_self])).good h hid
    -- a resize is pending, and the item has to be in a node
    have hsame : (changed ({ q with lost := true }.modify id fun i => { i with visible := true })
        id).1 = { q with lost := true }.modify id fun i => { i with visible := true } :=
      changed_eq_self fun hquiet => hresize hquiet.2
    rw [hsame]
    refine hstay (fun hr => absurd hr hresize) ?_
    intro hA
    rcases hcareful hA with hr | hv | hflag | hat
    · exact absurd hr hresize
    · exact absurd hv hhidden
    · exact .inl hflag
    · exact .inr hat

/-- The memory of the item is free again. -/
structure Freed (q : QuadTree Ω) (id : Id) (q' : QuadTree Ω) : Prop where
  at_ : ∀ i p, Root.At i p q'.root ↔ Root.At i p q.root ∧ i ≠ id
  distinct : Root.Distinct q'.root
  root : q'.root = q.root ∨ ∃ p, q'.root = Root.removeAt id p q.root
  item : ∀ i, q'.item i = if i = id then { q.item i with root := none } else q.item i
  change : q'.change = q.change
  cached : q'.cached = q.cached
  target : q'.target = q.target
  lost : q'.lost = q.lost
  resize : q'.resize = q.resize
  canvas : q'.canvas = q.canvas
  pool : q'.pool = q.pool
  links : ∀ i ≠ id, q'.links i = q.links i
  trash : q'.itemsTrash = q.itemsTrash ∨ q'.itemsTrash = id :: q.itemsTrash

/-- An item that is freed leaves everything in order. -/
theorem Freed.good (h : Good rect cb A B q live) (hid : id ∈ live)
    (hflag : (q.item id).change = false)
    (hcareful : ¬CacheUsed q ∨ id ∉ q.cached) (hq : Freed q id q') :
    Good rect cb A B q' (live.filter fun i => decide (i ≠ id)) := by
  have hbase := h.inv.base
  have hlive {i : Id} : (i ∈ live.filter fun i => decide (i ≠ id)) ↔ i ∈ live ∧ i ≠ id := by
    simp
  have hother {i : Id} (hi : i ≠ id) : q'.item i = q.item i := by rw [hq.item, if_neg hi]
  have hsame (i : Id) : (q'.item i).index = (q.item i).index ∧
      (q'.item i).visible = (q.item i).visible := by
    rw [hq.item]
    split
    · exact ⟨rfl, rfl⟩
    · exact ⟨rfl, rfl⟩
  have hwaits : id ∉ q.change := by
    intro hmem
    rw [(h.inv.changed id hmem).1] at hflag
    simp at hflag
  have hfree := (hbase.inUse id hid).2
  have htrash {i : Id} (hne : i ≠ id) : i ∈ q'.itemsTrash ↔ i ∈ q.itemsTrash := by
    rcases hq.trash with ht | ht
    · rw [ht]
    · rw [ht, mem_cons]
      exact ⟨fun h => h.resolve_left hne, .inr⟩
  refine ⟨⟨⟨?_, hq.distinct, ?_, ?_, ?_, ?_, ?_, ?_⟩, ?_, ?_⟩, ?_, ?_⟩
  · intro i p hi
    obtain ⟨hi, hne⟩ := (hq.at_ i p).mp hi
    rw [hother hne]
    obtain ⟨h1, h2, h3⟩ := hbase.tree i p hi
    exact ⟨h1, h2, hlive.mpr ⟨h3, hne⟩⟩
  · intro i hi hflag'
    obtain ⟨hi, hne⟩ := hlive.mp hi
    rw [hother hne] at hflag'
    rw [hq.change]
    exact hbase.changes i hi hflag'
  · rw [hq.change]
    exact hbase.nodup
  · intro i hi
    rw [hq.change] at hi
    have hne : i ≠ id := by
      rintro rfl
      exact hwaits hi
    obtain ⟨h1, h2, h3⟩ := hbase.waiting i hi
    rw [hother hne, hq.pool, htrash hne]
    exact ⟨h1.imp_right fun hl => hlive.mpr ⟨hl, hne⟩, h2, h3⟩
  · intro i hi
    obtain ⟨hi, hne⟩ := hlive.mp hi
    rw [hother hne, hq.pool, htrash hne]
    exact hbase.inUse i hi
  · intro i hi
    rw [hq.pool]
    by_cases hne : i = id
    · rw [hne]
      exact hfree.1
    · exact hbase.trash i ((htrash hne).mp hi)
  · rcases hq.trash with ht | ht
    · rw [ht]
      exact hbase.trashNodup
    · rw [ht, nodup_cons]
      exact ⟨hfree.2, hbase.trashNodup⟩
  · intro i hi
    rw [hq.change] at hi
    have hne : i ≠ id := by
      rintro rfl
      exact hwaits hi
    rw [hother hne]
    exact h.inv.changed i hi
  · intro hresize i p hi
    obtain ⟨hi, hne⟩ := (hq.at_ i p).mp hi
    rw [hother hne, hq.canvas]
    exact h.inv.placed (hq.resize.symm.trans hresize) i p hi
  · intro hused
    have hused' : CacheUsed q := ⟨hq.lost.symm.trans hused.1, hq.change.symm.trans hused.2⟩
    have hnot := hcareful.resolve_left fun hc => hc hused'
    obtain ⟨c1, c2, c3, c4, c5⟩ := h.cache hused'
    have hne {i : Id} (hi : i ∈ q.cached) : i ≠ id := by
      rintro rfl
      exact hnot hi
    have hsettled (hB : B) (hresize : q.resize = false) :
        Settled q.target false q.canvas q'.root := by
      rcases hq.root with hr | ⟨p, hr⟩
      · rw [hr]
        exact c4 hB hresize
      · rw [hr]
        exact settled_removeAt q.root p false q.canvas (c4 hB hresize)
    refine ⟨?_, ?_, ?_, ?_, ?_⟩
    · intro i hi
      rw [hq.cached] at hi
      rw [hq.links i (hne hi)]
      exact ⟨hlive.mpr ⟨(c1 i hi).1, hne hi⟩, (c1 i hi).2⟩
    · intro i hi hv
      rw [hq.cached] at hi
      rw [hother (hne hi)] at hv
      obtain ⟨p, hp⟩ := c2 i hi hv
      exact ⟨p, (hq.at_ i p).mpr ⟨hp, hne hi⟩⟩
    · intro hresize i p hi hv hvisit
      obtain ⟨hi, hni⟩ := (hq.at_ i p).mp hi
      rw [hother hni] at hv
      rw [hq.target, hq.canvas] at hvisit
      rw [hq.cached]
      exact c3 (hq.resize.symm.trans hresize) i p hi hv hvisit
    · intro hB hresize
      rw [hq.target, hq.canvas]
      exact hsettled hB (hq.resize.symm.trans hresize)
    · intro hB hresize
      have hresize' := hq.resize.symm.trans hresize
      rw [hq.cached, hq.target, hq.canvas]
      have hfilter : (q.cached.filter fun i => (q'.item i).visible) =
          q.cached.filter fun i => (q.item i).visible :=
        filter_congr fun i _ => (hsame i).2
      rw [hfilter, c5 hB hresize']
      -- the item was not in the list, so it is missed nowhere
      have htree : (collideTree q.item [] false q.canvas q.target q'.root).1 =
          (collideTree q.item [] false q.canvas q.target q.root).1 := by
        rcases hq.root with hr | ⟨p, hr⟩
        · rw [hr]
        rw [hr]
        refine collideTree_removeAt q.target q.root p [] false q.canvas (c4 hB hresize')
          hbase.distinct ?_
        intro hvisit hat
        by_contra hv
        exact hnot (c3 hresize' id p hat (by simpa using hv) hvisit)
      rw [← htree]
      exact collideTree_congr q.target q'.root [] false q.canvas (hsettled hB hresize') (by simp)
        fun i p _ _ => ⟨(hsame i).1.symm, (hsame i).2.symm⟩
  · intro hA i hi hv
    obtain ⟨hi, hne⟩ := hlive.mp hi
    rw [hother hne] at hv ⊢
    rcases h.shown hA i hi hv with ⟨p, hp⟩ | hflag'
    · exact .inl ⟨p, (hq.at_ i p).mpr ⟨hp, hne⟩⟩
    · exact .inr hflag'

/-- `eina_quadtree_del` of an item that is not in a list to be returned again. -/
theorem del_good (h : Good rect cb A B q live) (hid : id ∈ live)
    (hcareful : ¬CacheUsed q ∨ id ∉ q.cached) :
    Good rect cb A B (q.del id) (live.filter fun i => decide (i ≠ id)) := by
  have hbase := h.inv.base
  have hlive {i : Id} : (i ∈ live.filter fun i => decide (i ≠ id)) ↔ i ∈ live ∧ i ≠ id := by
    simp
  obtain ⟨root, hremove, hat, hdistinct, hroot⟩ :=
    remove_spec (fun i p hi => (hbase.tree i p hi).1) hbase.distinct id
  have hitem (i : Id) : (q.remove id).item i =
      if i = id then { q.item i with root := none } else q.item i := by rw [hremove]
  have hfields : (q.remove id).root = root ∧ (q.remove id).change = q.change ∧
      (q.remove id).cached = q.cached ∧ (q.remove id).target = q.target ∧
      (q.remove id).lost = q.lost ∧ (q.remove id).resize = q.resize ∧ (q.remove id).w = q.w ∧
      (q.remove id).h = q.h ∧ (q.remove id).pool = q.pool ∧ (q.remove id).links = q.links ∧
      (q.remove id).itemsTrash = q.itemsTrash := by
    rw [hremove]
    exact ⟨rfl, rfl, rfl, rfl, rfl, rfl, rfl, rfl, rfl, rfl, rfl⟩
  unfold del
  generalize q.remove id = q1 at *
  obtain ⟨rfl, hchange, hcached, htarget, hlost, hresize, hw, hh, hpool, hlinks, htrash⟩ := hfields
  have hother {i : Id} (hi : i ≠ id) : q1.item i = q.item i := by rw [hitem, if_neg hi]
  have hself : (q1.item id).change = (q.item id).change ∧ (q1.item id).root = none := by
    rw [hitem, if_pos rfl]
    exact ⟨rfl, rfl⟩
  dsimp only
  split
  · -- the item waits in the change list until the next update
    rename_i hflag
    rw [hself.1] at hflag
    have hmem := hbase.changes id hid hflag
    refine ⟨⟨⟨?_, hdistinct, ?_, ?_, ?_, ?_, ?_, ?_⟩, ?_, ?_⟩, ?_, ?_⟩
    · intro i p hi
      obtain ⟨hi, hne⟩ := (hat i p).mp hi
      rw [modify_other hne, hother hne]
      obtain ⟨h1, h2, h3⟩ := hbase.tree i p hi
      exact ⟨h1, h2, hlive.mpr ⟨h3, hne⟩⟩
    · intro i hi hflag'
      obtain ⟨hi, hne⟩ := hlive.mp hi
      rw [modify_other hne, hother hne] at hflag'
      show i ∈ q1.change
      rw [hchange]
      exact hbase.changes i hi hflag'
    · show q1.change.Nodup
      rw [hchange]
      exact hbase.nodup
    · intro i hi
      replace hi : i ∈ q.change := by
        rw [← hchange]
        exact hi
      show _ ∧ i < q1.pool ∧ i ∉ q1.itemsTrash
      rw [hpool, htrash]
      by_cases hne : i = id
      · rw [hne, modify_self]
        exact ⟨.inl rfl, (hbase.waiting id hmem).2⟩
      rw [modify_other hne, hother hne]
      obtain ⟨h1, h2⟩ := hbase.waiting i hi
      exact ⟨h1.imp_right fun hl => hlive.mpr ⟨hl, hne⟩, h2⟩
    · intro i hi
      obtain ⟨hi, hne⟩ := hlive.mp hi
      show _ ∧ i < q1.pool ∧ i ∉ q1.itemsTrash
      rw [modify_other hne, hother hne, hpool, htrash]
      exact hbase.inUse i hi
    · intro i hi
      show i < q1.pool
      rw [hpool]
      exact hbase.trash i (by rw [← htrash]; exact hi)
    · show q1.itemsTrash.Nodup
      rw [htrash]
      exact hbase.trashNodup
    · intro i hi
      replace hi : i ∈ q.change := by
        rw [← hchange]
        exact hi
      by_cases hne : i = id
      · rw [hne, modify_self]
        exact ⟨hself.1.trans hflag, hself.2⟩
      · rw [modify_other hne, hother hne]
        exact h.inv.changed i hi
    · intro hres i p hi
      obtain ⟨hi, hne⟩ := (hat i p).mp hi
      have hcanvas : (q1.modify id fun i => { i with deleteMe := true, visible := true }).canvas =
          q.canvas := canvas_eq hw hh
      rw [modify_other hne, hother hne, hcanvas]
      exact h.inv.placed (hresize.symm.trans hres) i p hi
    · intro hused
      rw [← hchange, show q1.change = [] from hused.2] at hmem
      simp at hmem
    · intro hA i hi hv
      obtain ⟨hi, hne⟩ := hlive.mp hi
      rw [modify_other hne, hother hne] at hv ⊢
      rcases h.shown hA i hi hv with ⟨p, hp⟩ | hflag'
      · exact .inl ⟨p, (hat i p).mpr ⟨hp, hne⟩⟩
      · exact Or.inr hflag'
  · rename_i hflag
    rw [hself.1, Bool.not_eq_true] at hflag
    refine Freed.good h hid hflag hcareful ?_
    generalize hq2 : (if (q1.item id).hidden = true then { q1 with hidden := q1.hidden.erase id }
      else q1) = q2
    have hq2 : q2 = { q1 with hidden := q2.hidden } := by
      rw [← hq2]
      split
      · rfl
      · rfl
    have hlink {i : Id} (hi : i ≠ id) : (q2.link id .trash).links i = q.links i := by
      rw [hq2, ← hlinks]
      exact if_neg hi
    have hcanvas : (q2.link id .trash).canvas = q.canvas := by
      rw [hq2]
      exact canvas_eq hw hh
    split
    · rw [hq2] at hlink hcanvas ⊢
      exact ⟨hat, hdistinct, hroot, hitem, hchange, hcached, htarget, hlost, hresize, hcanvas,
        hpool, fun i hi => hlink hi, .inl htrash⟩
    · rw [hq2] at hlink hcanvas ⊢
      refine ⟨hat, hdistinct, hroot, hitem, hchange, hcached, htarget, hlost, hresize, hcanvas,
        hpool, fun i hi => hlink hi, .inr ?_⟩
      show id :: q1.itemsTrash = id :: q.itemsTrash
      rw [htrash]

theorem increase_spec (hdistinct : Root.Distinct q.root) (id : Id) : ∃ index item root,
    q.increase id = { q with index := index, item := item, root := root } ∧
      (∀ i p, Root.At i p root ↔ Root.At i p q.root) ∧ Root.Distinct root ∧
      ((q.item id).root = none → root = q.root) ∧ (∀ i ≠ id, item i = q.item i) ∧
      ∀ i, item i = { q.item i with index := (item i).index } := by
  unfold increase
  dsimp only
  split
  · exact ⟨q.index + 1, q.item, q.root, rfl, fun _ _ => Iff.rfl, hdistinct, fun _ => rfl,
      fun _ _ => rfl, fun _ => rfl⟩
  have hroot : (({ q with index := q.index + 1 }.modify id fun i =>
      { i with index := q.index }).item id).root = (q.item id).root := by
    rw [modify_self]
  have hfields (i : Id) : ({ q with index := q.index + 1 }.modify id fun i =>
      { i with index := q.index }).item i = { q.item i with
        index := (({ q with index := q.index + 1 }.modify id fun i =>
          { i with index := q.index }).item i).index } := by
    by_cases hi : i = id
    · rw [hi, modify_self]
    · rw [modify_other hi]
  rw [hroot]
  cases hplace : (q.item id).root with
  | none =>
    exact ⟨q.index + 1, _, q.root, rfl, fun _ _ => Iff.rfl, hdistinct, fun _ => rfl,
      fun i hi => if_neg hi, hfields⟩
  | some p =>
    exact ⟨q.index + 1, _, Root.unsort p q.root, rfl, fun _ _ => at_unsort,
      distinct_unsort hdistinct, fun h => absurd h (by simp),
      fun i hi => if_neg hi, hfields⟩

theorem increase_good (h : Good rect cb A B q live)
    (hcareful : B → ¬CacheUsed q ∨ (q.item id).root = none) :
    Good rect cb A B (q.increase id) live := by
  obtain ⟨index, item, root, heq, hat, hdistinct, hsame, hother, hitem⟩ :=
    increase_spec h.inv.base.distinct id
  have htree := h.inv.base.tree
  rw [heq]
  have hroot (i : Id) : (item i).root = (q.item i).root := by rw [hitem]
  have hflag (i : Id) : (item i).change = (q.item i).change := by rw [hitem]
  have hdelete (i : Id) : (item i).deleteMe = (q.item i).deleteMe := by rw [hitem]
  have hvisible (i : Id) : (item i).visible = (q.item i).visible := by rw [hitem]
  have hobject (i : Id) : (item i).object = (q.item i).object := by rw [hitem]
  obtain ⟨⟨⟨h1, h2, h3, h4, h5, h6, h7, h8⟩, hchanged, hplaced⟩, hcache, hshown⟩ := h
  refine ⟨⟨⟨?_, hdistinct, ?_, h4, ?_, ?_, h7, h8⟩, ?_, ?_⟩, ?_, ?_⟩
  · intro i p hi
    rw [hroot, hflag]
    exact h1 i p ((hat i p).mp hi)
  · intro i hi hf
    exact h3 i hi ((hflag i).symm.trans hf)
  · intro i hi
    rw [hdelete]
    exact h5 i hi
  · intro i hi
    rw [hdelete]
    exact h6 i hi
  · intro i hi
    rw [hflag, hroot]
    exact hchanged i hi
  · intro hresize i p hi hv
    rw [hobject]
    exact hplaced hresize i p ((hat i p).mp hi) ((hvisible i).symm.trans hv)
  · intro hused
    obtain ⟨c1, c2, c3, c4, c5⟩ := hcache hused
    refine ⟨c1, ?_, ?_, ?_, ?_⟩
    · intro i hi hv
      obtain ⟨p, hp⟩ := c2 i hi ((hvisible i).symm.trans hv)
      exact ⟨p, (hat i p).mpr hp⟩
    · intro hresize i p hi hv
      exact c3 hresize i p ((hat i p).mp hi) ((hvisible i).symm.trans hv)
    · intro hB hresize
      obtain rfl := hsame ((hcareful hB).resolve_left fun hnot => hnot hused)
      exact c4 hB hresize
    · intro hB hresize
      have hnone := (hcareful hB).resolve_left fun hnot => hnot hused
      obtain rfl := hsame hnone
      have hfilter : (q.cached.filter fun i => (item i).visible) =
          q.cached.filter fun i => (q.item i).visible :=
        filter_congr fun i _ => hvisible i
      refine hfilter.trans ((c5 hB hresize).trans ?_)
      -- the item is in no node, so its index is compared nowhere
      refine collideTree_congr q.target q.root [] false q.canvas (c4 hB hresize) (by simp) ?_
      intro i p _ hi
      have hne : i ≠ id := by
        rintro rfl
        rw [(htree _ p hi).1] at hnone
        simp at hnone
      show (q.item i).index = (item i).index ∧ (q.item i).visible = (item i).visible
      rw [hother i hne]
      exact ⟨rfl, rfl⟩
  · intro hA i hi hv
    rw [hflag]
    rcases hshown hA i hi ((hvisible i).symm.trans hv) with ⟨p, hp⟩ | hf
    · exact .inl ⟨p, (hat i p).mpr hp⟩
    · exact .inr hf

theorem cycle_good (h : Good rect cb A B q live) : Good rect cb A B q.cycle live := by
  obtain ⟨⟨⟨h1, h2, h3, h4, h5, h6, h7, h8⟩, hchanged, hplaced⟩, hcache, hshown⟩ := h
  refine ⟨⟨⟨h1, h2, h3, h4, h5, h6, h7, h8⟩, hchanged, hplaced⟩, ?_, hshown⟩
  intro hused
  obtain ⟨c1, c2, c3, c4, c5⟩ := hcache hused
  exact ⟨c1, c2, c3, c4, c5⟩

theorem resized_good (h : Good rect cb A B q live) (width height : Nat) :
    Good rect cb A B (q.resized width height) live := by
  unfold resized
  split
  · exact h
  -- until the tree is built anew nothing is said about the nodes
  obtain ⟨⟨⟨h1, h2, h3, h4, h5, h6, h7, h8⟩, hchanged, -⟩, hcache, hshown⟩ := h
  refine ⟨⟨⟨h1, h2, h3, h4, h5, h6, h7, h8⟩, hchanged, ?_⟩, ?_, hshown⟩
  · intro hresize
    simp at hresize
  · intro hused
    obtain ⟨c1, c2, -, -, -⟩ := hcache hused
    refine ⟨c1, c2, ?_, ?_, ?_⟩
    · intro hresize
      simp at hresize
    · intro _ hresize
      simp at hresize
    · intro _ hresize
      simp at hresize

/-! ### Every call -/

theorem collide_good (h : Good rect cb A B q live) (target : Rectangle) :
    Good rect cb A B (q.collide cb target).1 live := by
  obtain ⟨hinv, hcache, -, -, -, hshown, -⟩ := collide_spec h.inv h.cache target
  exact ⟨hinv, fun _ => hcache, fun hA => hshown (h.shown hA)⟩

theorem step_good {w w' : World Ω} {op : Op Ω} {answer : Answer}
    (h : Good rect cb A B w.q w.live) (hcareful : op.Careful A B w)
      (hstep : Step cb w op w' answer) :
    Good rect cb A B w'.q w'.live := by
  obtain ⟨hallowed, heq⟩ := hstep
  cases op with
  | add object =>
    cases heq
    exact add_good h object
  | changed id object =>
    cases heq
    exact changed_good h hallowed object
  | hide id =>
    cases heq
    exact hide_good h hcareful
  | shown id =>
    cases heq
    exact shown_good h hallowed hcareful
  | del id =>
    cases heq
    exact del_good h hallowed hcareful
  | increase id =>
    cases heq
    exact increase_good h hcareful
  | cycle =>
    cases heq
    exact cycle_good h
  | resized width height =>
    cases heq
    exact resized_good h width height
  | collide target =>
    cases heq
    exact collide_good h target

theorem new_good (h : new memory width height = some q) :
    Good rect cb A B q [] := by
  unfold new at h
  split at h
  · simp at h
  obtain rfl := Option.some.inj h
  refine ⟨⟨⟨?_, trivial, by simp, nodup_nil, by simp, by simp, by simp, nodup_nil⟩,
    by simp, ?_⟩, ?_, ?_⟩
  · intro i p hi
    exact absurd hi not_at_nil
  · intro _ i p hi
    exact absurd hi not_at_nil
  · intro hused
    exact absurd hused.1 (by simp)
  · intro _ i hi
    simp at hi

/-- **The invariant of a run** of calls that do no harm. -/
theorem run_good {r : Ω → Rectangle}
    (hnew : new memory width height = some q) {ops : List (Op Ω)} {w : World Ω}
    {answers : List Answer} (hops : EachStep (Step cb) (Op.Careful A B) ⟨q, []⟩ ops)
    (h : Traces (Step cb) ⟨q, []⟩ ops w answers) : Good r cb A B w.q w.live :=
  traces_invariant_of (I := fun w => Good r cb A B w.q w.live)
    (fun _ _ _ _ hgood hop hstep => step_good hgood hop hstep) ops ⟨q, []⟩ w answers hops
    (new_good hnew) h

end Eina.QuadTree
