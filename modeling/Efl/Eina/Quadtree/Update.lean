/-
Bringing the tree up to date.

`Kept S q q'` is what all the parts of an update leave as it was: the fields of the tree, all
items outside `S`, and what the items in `S` are about.  `update_spec` says where the objects
of the change list come: every visible one into a node whose part of the canvas it lies in,
if it lies in the canvas at all.
-/
import Efl.Eina.Quadtree.Tree

namespace Eina.QuadTree

open List Rectangle Root

variable {Ω : Type} {item : Id → Item Ω} {id i : Id} {p path : Path} {t : Root}
    {q q' q'' : QuadTree Ω}
  {direction : Bool} {rect : Ω → Rectangle} {cb : Callbacks Ω} {size : Rectangle}

/-! ### The geometry -/

/-- The callbacks tell on which side of a line the rectangle of the object is. -/
structure Consistent (rect : Ω → Rectangle) (cb : Callbacks Ω) (o : Ω) : Prop where
  above : ∀ line, cb.v o line = .left → (rect o).y + (rect o).h ≤ line
  below : ∀ line, cb.v o line = .right → line ≤ (rect o).y
  before : ∀ line, cb.h o line = .left → (rect o).x + (rect o).w ≤ line
  behind : ∀ line, cb.h o line = .right → line ≤ (rect o).x

/-- The rectangle lies in `size`. -/
def Inside (r size : Rectangle) : Prop :=
  size.x ≤ r.x ∧ r.x + r.w ≤ size.x + size.w ∧ size.y ≤ r.y ∧ r.y + r.h ≤ size.y + size.h

/-- The callbacks are right about an object whose rectangle lies in `size`. -/
def Fits (rect : Ω → Rectangle) (cb : Callbacks Ω) (o : Ω) (size : Rectangle) : Prop :=
  Consistent rect cb o ∧ Inside (rect o) size

theorem middle_le (h : 4 < middle direction size) :
    middle direction size ≤ (if direction then size.w else size.h) - middle direction size := by
  have hdiv (n : Int) (hn : 4 < n.tdiv 2) : n.tdiv 2 ≤ n - n.tdiv 2 := by
    have hpos : 0 ≤ n := by
      by_contra hneg
      have heq : (-n).tdiv 2 = -n / 2 := Int.tdiv_eq_ediv_of_nonneg (by omega)
      rw [Int.neg_tdiv] at heq
      omega
    rw [Int.tdiv_eq_ediv_of_nonneg hpos]
    omega
  cases direction with
  | true => exact hdiv size.w h
  | false => exact hdiv size.h h

theorem fits_half
    (h : 4 < middle direction size) {o : Ω} (hin : Fits rect cb o size) :
    (cb.classify direction size o = .left → Fits rect cb o (half direction false size)) ∧
      (cb.classify direction size o = .right → Fits rect cb o (half direction true size)) := by
  have hle := middle_le h
  obtain ⟨hcb, h1, h2, h3, h4⟩ := hin
  unfold Callbacks.classify half Fits Inside
  cases direction with
  | true =>
    simp only [if_true] at hle ⊢
    constructor
    · intro hside
      have := hcb.before _ hside
      refine ⟨hcb, h1, by omega, h3, h4⟩
    · intro hside
      have := hcb.behind _ hside
      refine ⟨hcb, by omega, by omega, h3, h4⟩
  | false =>
    simp only [Bool.false_eq_true, if_false] at hle ⊢
    constructor
    · intro hside
      have := hcb.above _ hside
      refine ⟨hcb, h1, h2, h3, by omega⟩
    · intro hside
      have := hcb.below _ hside
      refine ⟨hcb, h1, h2, by omega, by omega⟩

/-- The rectangle lies in all the parts of `size` on the way to a node. -/
def Placed (r : Rectangle) (direction : Bool) : Path → Rectangle → Prop
  | [], size => Inside r size
  | right :: p, size => Inside r size ∧ Placed r (!direction) p (half direction right size)

theorem Placed.inside {r size : Rectangle} (h : Placed r direction p size) :
    Inside r size := by
  cases p with
  | nil => exact h
  | cons right p => exact h.1

theorem visits_of_placed {r target : Rectangle} (hmeet : r.intersects target = true) :
    ∀ (p : Path) (direction : Bool) (size : Rectangle), Placed r direction p size →
      Visits target direction p size := by
  rw [intersects_iff] at hmeet
  intro p
  induction p with
  | nil =>
    intro direction size _
    trivial
  | cons right p ih =>
    intro direction size h
    refine ⟨?_, ih _ _ h.2⟩
    obtain ⟨h1, h2, h3, h4⟩ := h.2.inside
    unfold meets
    cases direction with
    | true =>
      simp only [if_true, spansIntersect_iff]
      omega
    | false =>
      simp only [Bool.false_eq_true, if_false, spansIntersect_iff]
      omega

/-! ### What an update leaves as it was -/

/-- What is done to the items of `S` in an update. -/
structure Kept (S : Id → Prop) (q q' : QuadTree Ω) : Prop where
  root : q'.root = q.root
  change : q'.change = q.change
  cached : q'.cached = q.cached
  target : q'.target = q.target
  index : q'.index = q.index
  w : q'.w = q.w
  h : q'.h = q.h
  resize : q'.resize = q.resize
  lost : q'.lost = q.lost
  pool : q'.pool = q.pool
  other : ∀ i, ¬S i → q'.item i = q.item i
  object : ∀ i, (q'.item i).object = (q.item i).object
  place : ∀ i, (q'.item i).index = (q.item i).index
  visible : ∀ i, (q'.item i).visible = (q.item i).visible
  deleteMe : ∀ i, (q'.item i).deleteMe = (q.item i).deleteMe
  trash : ∃ freed, q'.itemsTrash = freed ++ q.itemsTrash ∧ freed.Nodup ∧
    ∀ i ∈ freed, S i ∧ (q.item i).deleteMe = true

variable {S T : Id → Prop} {f : Item Ω → Item Ω} (classify : Option (Ω → Direction))

theorem Kept.refl (q : QuadTree Ω) : Kept S q q :=
  ⟨rfl, rfl, rfl, rfl, rfl, rfl, rfl, rfl, rfl, rfl, fun _ _ => rfl, fun _ => rfl, fun _ => rfl,
    fun _ => rfl, fun _ => rfl, [], rfl, nodup_nil, by simp⟩

theorem Kept.mono (h : Kept S q q') (hST : ∀ i, S i → T i) : Kept T q q' := by
  obtain ⟨freed, htrash, hnodup, hfreed⟩ := h.trash
  exact { h with
    other := fun i hi => h.other i fun hS => hi (hST i hS)
    trash := ⟨freed, htrash, hnodup, fun i hi => ⟨hST i (hfreed i hi).1, (hfreed i hi).2⟩⟩ }

theorem Kept.comp (h : Kept S q q') (h' : Kept T q' q'')
    (htrash : ∃ freed, q''.itemsTrash = freed ++ q.itemsTrash ∧ freed.Nodup ∧
      ∀ i ∈ freed, (S i ∨ T i) ∧ (q.item i).deleteMe = true) :
    Kept (fun i => S i ∨ T i) q q'' where
  root := h'.root.trans h.root
  change := h'.change.trans h.change
  cached := h'.cached.trans h.cached
  target := h'.target.trans h.target
  index := h'.index.trans h.index
  w := h'.w.trans h.w
  h := h'.h.trans h.h
  resize := h'.resize.trans h.resize
  lost := h'.lost.trans h.lost
  pool := h'.pool.trans h.pool
  other := fun i hi =>
    (h'.other i fun hT => hi (.inr hT)).trans (h.other i fun hS => hi (.inl hS))
  object := fun i => (h'.object i).trans (h.object i)
  place := fun i => (h'.place i).trans (h.place i)
  visible := fun i => (h'.visible i).trans (h.visible i)
  deleteMe := fun i => (h'.deleteMe i).trans (h.deleteMe i)
  trash := htrash

theorem Kept.trans (h : Kept S q q') (h' : Kept T q' q'')
    (honce : ∀ i, S i → T i → (q.item i).deleteMe = false) : Kept (fun i => S i ∨ T i) q q'' := by
  obtain ⟨freed, htrash, hnodup, hfreed⟩ := h.trash
  obtain ⟨freed', htrash', hnodup', hfreed'⟩ := h'.trash
  refine h.comp h' ⟨freed' ++ freed, by rw [htrash', htrash, append_assoc], ?_, ?_⟩
  · rw [nodup_append]
    refine ⟨hnodup', hnodup, ?_⟩
    rintro i hi j hj rfl
    have hfree := honce i (hfreed i hj).1 (hfreed' i hi).1
    rw [(hfreed i hj).2] at hfree
    simp at hfree
  · intro i hi
    rcases mem_append.mp hi with hi | hi
    · exact ⟨.inr (hfreed' i hi).1, by rw [← h.deleteMe]; exact (hfreed' i hi).2⟩
    · exact ⟨.inl (hfreed i hi).1, (hfreed i hi).2⟩

/-! ### Inserting -/

theorem sortedNearLoop_lt (cmp : Id → Int) (list : List Id) : ∀ (fuel inf sup : Nat)
    (found : Nat × Int), sup < list.length → found.1 < list.length →
      (sortedNearLoop cmp list fuel inf sup found).1 < list.length := by
  intro fuel
  induction fuel with
  | zero =>
    intro inf sup found _ hfound
    exact hfound
  | succ fuel ih =>
    intro inf sup found hsup hfound
    rw [sortedNearLoop]
    split
    · exact hfound
    have hcur : inf + (sup - inf) / 2 < list.length := by omega
    dsimp only
    split
    · exact hcur
    split
    · exact ih _ _ _ hsup hcur
    split
    · exact ih _ _ _ (by omega) hcur
    · exact hcur

theorem sortedInsert_perm (item : Id → Item Ω) (list : List Id) (id : Id) :
    (sortedInsert item list id).Perm (id :: list) := by
  unfold sortedInsert
  split
  · rename_i hnil
    rw [hnil]
  rename_i hne
  have hpos : 0 < list.length := length_pos_iff.mpr hne
  have hlt : (sortedNear (fun i => itemCmp item i id) list).1 < list.length := by
    unfold sortedNear
    split
    · exact hpos
    split
    · omega
    split
    · exact hpos
    split
    · omega
    · exact sortedNearLoop_lt _ _ _ _ _ _ (by omega) (by dsimp only; omega)
  dsimp only
  split
  · exact perm_insertIdx id list (by omega)
  · exact perm_insertIdx id list (by omega)

/-! ### One object -/

theorem kept_modify (hf : ∀ x, (f x).object = x.object ∧
    (f x).index = x.index ∧ (f x).visible = x.visible ∧ (f x).deleteMe = x.deleteMe) :
    Kept (fun i => i = id) q (q.modify id f) := by
  have hitem (i : Id) : ((q.modify id f).item i).object = (q.item i).object ∧
      ((q.modify id f).item i).index = (q.item i).index ∧
      ((q.modify id f).item i).visible = (q.item i).visible ∧
      ((q.modify id f).item i).deleteMe = (q.item i).deleteMe := by
    simp only [modify]
    split
    · exact hf _
    · exact ⟨rfl, rfl, rfl, rfl⟩
  exact { Kept.refl q with
    other := fun i hi => if_neg hi
    object := fun i => (hitem i).1
    place := fun i => (hitem i).2.1
    visible := fun i => (hitem i).2.2.1
    deleteMe := fun i => (hitem i).2.2.2 }

theorem kept_link {l : Links} : Kept S q (q.link id l) := { Kept.refl q with }

theorem kept_hidden {ids : List Id} : Kept S q { q with hidden := ids } := { Kept.refl q with }

@[simp] theorem modify_self : (q.modify id f).item id = f (q.item id) :=
  if_pos rfl

theorem Kept.then (h : Kept S q q') (h' : Kept S q' q'')
    (hfree : (∀ i, S i → (q.item i).deleteMe = false) ∨ q'.itemsTrash = q.itemsTrash) :
    Kept S q q'' := by
  have hsame (i : Id) (hi : S i ∨ S i) : S i := hi.elim id id
  rcases hfree with hfree | hfree
  · exact (h.trans h' fun i hi _ => hfree i hi).mono hsame
  obtain ⟨freed, htrash, hnodup, hfreed⟩ := h'.trash
  refine (h.comp h' ⟨freed, by rw [htrash, hfree], hnodup, fun i hi => ?_⟩).mono hsame
  exact ⟨.inl (hfreed i hi).1, by rw [← h.deleteMe]; exact (hfreed i hi).2⟩

theorem kept_del (hchange : (q.item id).change = false) (hroot : (q.item id).root = none)
    (hdel : (q.item id).deleteMe = true) : Kept (fun i => i = id) q (q.del id) ∧
      (q.del id).item = q.item := by
  have hremove : q.remove id = q := by rw [remove, hroot]
  unfold del
  rw [hremove]
  simp only [hchange, Bool.false_eq_true, if_false]
  generalize hq1 :
    (if (q.item id).hidden = true then { q with hidden := q.hidden.erase id } else q) = q1
  have hkept : Kept (fun i => i = id) q q1 ∧ q1.item = q.item ∧ q1.itemsTrash = q.itemsTrash := by
    rw [← hq1]
    split
    · exact ⟨kept_hidden, rfl, rfl⟩
    · exact ⟨Kept.refl q, rfl, rfl⟩
  obtain ⟨hkept, hitem, htrash⟩ := hkept
  split
  · exact ⟨hkept.then kept_link (.inr htrash), hitem⟩
  refine ⟨hkept.then { Kept.refl q1 with trash := ⟨[id], rfl, by simp, ?_⟩ } (.inr htrash),
    hitem⟩
  intro i hi
  rw [mem_singleton] at hi
  refine ⟨hi, ?_⟩
  rw [hitem, hi]
  exact hdel

/-- Where `_eina_quadtree_split` puts an object. -/
def side (classify : Option (Ω → Direction)) (o : Ω) : Direction :=
  match classify with
  | none => .both
  | some classify => classify o

/-- The item is put into the tree on this side. -/
def Goes (classify : Option (Ω → Direction)) (d : Direction) (q : QuadTree Ω) (i : Id) : Bool :=
  (q.item i).visible && !(q.item i).deleteMe && decide (side classify (q.item i).object = d)

theorem Kept.goes (h : Kept S q q') (classify : Option (Ω → Direction)) (d : Direction) (i : Id) :
    Goes classify d q' i = Goes classify d q i := by
  rw [Goes, Goes, h.visible, h.deleteMe, h.object]

/-- What becomes of one waiting item. -/
theorem splitItem_spec (path : Path) (sorted : Bool)
    (s : Split Ω) (hdel : (s.q.item id).deleteMe = true → (s.q.item id).root = none) :
    let s' := splitItem classify path sorted s id
    Kept (fun i => i = id) s.q s'.q ∧ (s'.q.item id).change = false ∧
      s'.both.Perm ([id].filter (Goes classify .both s.q) ++ s.both) ∧
      s'.left = s.left ++ [id].filter (Goes classify .left s.q) ∧
      s'.right = s.right ++ [id].filter (Goes classify .right s.q) ∧
      (Goes classify .both s.q id = true → (s'.q.item id).root = some path) := by
  obtain ⟨q, both, left, right⟩ := s
  unfold splitItem
  have h1 : Kept (fun i => i = id) q (q.modify id fun i => { i with change := false }) :=
    kept_modify fun x => ⟨rfl, rfl, rfl, rfl⟩
  have hc1 : ((q.modify id fun i => { i with change := false }).item id).change = false := by simp
  have ht1 : (q.modify id fun i => { i with change := false }).itemsTrash = q.itemsTrash := rfl
  have hr1 : ((q.modify id fun i => { i with change := false }).item id).root =
      (q.item id).root := by
    simp
  generalize (q.modify id fun i => { i with change := false }) = q1 at h1 hc1 ht1 hr1 ⊢
  by_cases hvisible : (q.item id).visible = true
  · rw [if_neg (by rw [h1.visible]; simpa using hvisible)]
    generalize hq2 : (if (q1.item id).hidden = true then
      { q1 with hidden := q1.hidden.erase id }.modify id fun i => { i with hidden := false }
      else q1) = q2
    have h2 : Kept (fun i => i = id) q q2 ∧ (q2.item id).change = false ∧
        q2.itemsTrash = q.itemsTrash ∧ (q2.item id).root = (q.item id).root := by
      rw [← hq2]
      split
      · exact ⟨h1.then (kept_hidden.then (kept_modify fun x => ⟨rfl, rfl, rfl, rfl⟩) (.inr rfl))
          (.inr ht1), by simp [hc1], ht1, by simp [hr1]⟩
      · exact ⟨h1, hc1, ht1, hr1⟩
    obtain ⟨h2, hc2, ht2, hr2⟩ := h2
    by_cases hdelete : (q.item id).deleteMe = true
    · rw [if_pos (by rw [h2.deleteMe]; exact hdelete)]
      obtain ⟨h3, hitem⟩ :=
        kept_del hc2 (by rw [hr2, hdel hdelete]) (by rw [h2.deleteMe]; exact hdelete)
      refine ⟨h2.then h3 (.inr ht2), by rw [hitem]; exact hc2, ?_⟩
      simp [Goes, hdelete]
    rw [if_neg (by rw [h2.deleteMe]; exact hdelete)]
    have hnot : ∀ i, i = id → (q.item i).deleteMe = false := by
      simpa using hdelete
    have hgoes (d : Direction) : Goes classify d q id =
        decide (side classify (q.item id).object = d) := by
      simp [Goes, hvisible, hnot id rfl]
    have hroot : Kept (fun i => i = id) q (q2.modify id fun i => { i with root := some path }) :=
      h2.then (kept_modify fun x => ⟨rfl, rfl, rfl, rfl⟩) (.inl hnot)
    cases classify with
    | none =>
      refine ⟨hroot, by simp [hc2], ?_, by simp [hgoes, side], by simp [hgoes, side], by simp⟩
      dsimp only
      split
      · simpa [hgoes, side] using sortedInsert_perm _ both id
      · simp [hgoes, side]
    | some classify =>
      dsimp only
      rw [h2.object]
      cases hside : classify (q.item id).object with
      | left =>
        refine ⟨h2.then kept_link (.inl hnot), hc2, ?_⟩
        simp [hgoes, side, hside]
      | right =>
        refine ⟨h2.then kept_link (.inl hnot), hc2, ?_⟩
        simp [hgoes, side, hside]
      | both =>
        refine ⟨hroot, by simp [hc2], ?_⟩
        simp [hgoes, side, hside]
  · rw [if_pos (by rw [h1.visible]; simpa using hvisible)]
    have hgoes (d : Direction) : Goes classify d q id = false := by simp [Goes, hvisible]
    split
    · have h3 : Kept (fun i => i = id) q
          ({ q1 with hidden := q1.hidden ++ [id] }.modify id fun i => { i with hidden := true }) :=
        h1.then (kept_hidden.then (kept_modify fun x => ⟨rfl, rfl, rfl, rfl⟩) (.inr rfl))
          (.inr ht1)
      refine ⟨h3, by simp [hc1], ?_⟩
      simp [hgoes]
    · exact ⟨h1, hc1, by simp [hgoes]⟩

/-- **Splitting**: each object is put on its side, in the order they come in. -/
theorem split_spec (path : Path) (sorted : Bool) :
    ∀ (objects : List Id) (s : Split Ω), objects.Nodup →
      (∀ i ∈ objects, (s.q.item i).deleteMe = true → (s.q.item i).root = none) →
      let s' := objects.foldl (splitItem classify path sorted) s
      Kept (fun i => i ∈ objects) s.q s'.q ∧ (∀ i ∈ objects, (s'.q.item i).change = false) ∧
        s'.both.Perm (objects.filter (Goes classify .both s.q) ++ s.both) ∧
        s'.left = s.left ++ objects.filter (Goes classify .left s.q) ∧
        s'.right = s.right ++ objects.filter (Goes classify .right s.q) ∧
        ∀ i ∈ objects, Goes classify .both s.q i = true → (s'.q.item i).root = some path := by
  intro objects
  induction objects with
  | nil =>
    intro s _ _
    exact ⟨Kept.refl s.q, by simp, List.Perm.refl _, by simp, by simp, by simp⟩
  | cons id objects ih =>
    intro s hnodup hdel
    rw [nodup_cons] at hnodup
    obtain ⟨hkept, hchange, hboth, hleft, hright, hroot⟩ :=
      splitItem_spec classify path sorted s (hdel id mem_cons_self)
    have hne {i : Id} (hi : i ∈ objects) : ¬i = id := by
      rintro rfl
      exact hnodup.1 hi
    obtain ⟨hkept', hchange', hboth', hleft', hright', hroot'⟩ :=
      ih (splitItem classify path sorted s id) hnodup.2 (by
        intro i hi
        rw [hkept.other i (hne hi)]
        exact hdel i (mem_cons_of_mem _ hi))
    have hgoes (d : Direction) : Goes classify d (splitItem classify path sorted s id).q =
        Goes classify d s.q := funext fun i => hkept.goes classify d i
    rw [hgoes] at hboth' hleft' hright'
    have hcons (d : Direction) : (id :: objects).filter (Goes classify d s.q) =
        [id].filter (Goes classify d s.q) ++ objects.filter (Goes classify d s.q) := by
      rw [← filter_append]
      rfl
    rw [foldl_cons]
    refine ⟨?_, ?_, ?_, ?_, ?_, ?_⟩
    · refine (hkept.trans hkept' ?_).mono ?_
      · rintro i rfl hi
        exact absurd hi hnodup.1
      · rintro i (rfl | hi)
        · exact mem_cons_self
        · exact mem_cons_of_mem _ hi
    · intro i hi
      rcases mem_cons.mp hi with rfl | hi
      · rw [hkept'.other i hnodup.1]
        exact hchange
      · exact hchange' i hi
    · rw [hcons, append_assoc]
      refine hboth'.trans ((hboth.append_left _).trans ?_)
      rw [← append_assoc, ← append_assoc]
      exact perm_append_comm.append_right _
    · rw [hleft', hleft, hcons, append_assoc]
    · rw [hright', hright, hcons, append_assoc]
    · intro i hi hgo
      rcases mem_cons.mp hi with rfl | hi
      · rw [hkept'.other i hnodup.1]
        exact hroot hgo
      refine hroot' i hi ?_
      rw [hgoes]
      exact hgo

/-! ### The whole update -/

/-- What an update makes of a tree and the objects of a change list. -/
structure Updates (rect : Ω → Rectangle) (cb : Callbacks Ω) (q : QuadTree Ω) (path : Path)
    (root : Root)
    (objects : List Id) (direction : Bool) (size : Rectangle) (q' : QuadTree Ω) (root' : Root) :
    Prop where
  kept : Kept (fun i => i ∈ objects) q q'
  distinct : Root.Distinct root'
  change : ∀ i ∈ objects, (q'.item i).change = false
  at_ : ∀ i p, Root.At i p root' ↔ Root.At i p root ∨
    (i ∈ objects ∧ (q.item i).visible = true ∧ (q.item i).deleteMe = false ∧
      (q'.item i).root = some (path ++ p))
  placed : ∀ i ∈ objects, (q.item i).visible = true → (q.item i).deleteMe = false →
    ∃ p, (q'.item i).root = some (path ++ p) ∧
      (Fits rect cb (q.item i).object size → Placed (rect (q.item i).object) direction p size)

theorem goes_true {classify : Option (Ω → Direction)} {d : Direction} :
    Goes classify d q i = true ↔ (q.item i).visible = true ∧ (q.item i).deleteMe = false ∧
      side classify (q.item i).object = d := by
  simp [Goes, and_assoc]

theorem Root.at_left : Root.At i (false :: p) t ↔ Root.At i p t.left := by
  cases t <;> simp [Root.At, Root.left]

theorem Root.at_right : Root.At i (true :: p) t ↔ Root.At i p t.right := by
  cases t <;> simp [Root.At, Root.right]

theorem Root.at_here : Root.At i [] t ↔ i ∈ t.both := by
  cases t <;> simp [Root.At, Root.both]

/-- Objects that come to a node and are not in it or below it. -/
structure Comes (q : QuadTree Ω) (t : Root) (objects : List Id) : Prop where
  nodup : objects.Nodup
  gone : ∀ i ∈ objects, (q.item i).deleteMe = true → (q.item i).root = none
  distinct : Root.Distinct t
  outside : ∀ i ∈ objects, ∀ p, ¬Root.At i p t

theorem Comes.side {S : Id → Prop} {objects : List Id} (h : Comes q t objects)
    (hkept : Kept S q q') (cb : Callbacks Ω) (direction right : Bool) (size : Rectangle) :
    Comes q' (if right then t.right else t.left) (objects.filter
      (Goes (some (cb.classify direction size)) (if right then .right else .left) q)) := by
  obtain ⟨-, hdl, hdr⟩ := distinct_parts h.distinct
  refine ⟨h.nodup.filter _, ?_, by cases right <;> assumption, ?_⟩
  · intro i hi hdm
    rw [hkept.deleteMe, (goes_true.mp (mem_filter.mp hi).2).2.1] at hdm
    simp at hdm
  · intro i hi p hat
    refine h.outside i (mem_filter.mp hi).1 (right :: p) ?_
    cases right with
    | false => exact Root.at_left.mpr hat
    | true => exact Root.at_right.mpr hat

/-- Filing them at one that is not. -/
theorem update_leaf (rect : Ω → Rectangle) (q : QuadTree Ω) (path : Path) (root : Root)
    (objects : List Id) (direction : Bool) (size : Rectangle) (h : Comes q root objects) :
    let s := objects.foldl (splitItem none path root.sorted) ⟨q, root.both, [], []⟩
    Updates rect cb q path root objects direction size s.q
      (.node root.left root.right s.both root.sorted) := by
  obtain ⟨hkept, hchange, hboth, -, -, hroot⟩ :=
    split_spec none path root.sorted objects ⟨q, root.both, [], []⟩ h.nodup h.gone
  obtain ⟨hd, hdl, hdr⟩ := distinct_parts h.distinct
  have hgo (i : Id) : Goes (none : Option (Ω → Direction)) .both q i = true ↔
      (q.item i).visible = true ∧ (q.item i).deleteMe = false := by
    simp [goes_true, side]
  have hplace (i : Id) (hi : i ∈ objects) (hv : (q.item i).visible = true)
      (hdm : (q.item i).deleteMe = false) := hroot i hi ((hgo i).mpr ⟨hv, hdm⟩)
  refine ⟨hkept, ⟨?_, hdl, hdr⟩, hchange, ?_, ?_⟩
  · rw [hboth.nodup_iff, nodup_append]
    refine ⟨h.nodup.filter _, hd, ?_⟩
    rintro a ha b hb rfl
    exact h.outside a (mem_filter.mp ha).1 [] (at_here.mpr hb)
  · intro i p
    rcases p with - | ⟨- | -, p⟩
    · rw [at_here, Root.both, hboth.mem_iff, mem_append, mem_filter, hgo,
        at_here, append_nil]
      constructor
      · rintro (⟨hi, hv, hdm⟩ | hi)
        · exact .inr ⟨hi, hv, hdm, hplace i hi hv hdm⟩
        · exact .inl hi
      · rintro (hi | ⟨hi, hv, hdm, -⟩)
        · exact .inr hi
        · exact .inl ⟨hi, hv, hdm⟩
    · rw [at_left, at_left]
      refine ⟨.inl, ?_⟩
      rintro (hi | ⟨hi, hv, hdm, hpath⟩)
      · exact hi
      · rw [hplace i hi hv hdm] at hpath
        simp at hpath
    · rw [at_right, at_right]
      refine ⟨.inl, ?_⟩
      rintro (hi | ⟨hi, hv, hdm, hpath⟩)
      · exact hi
      · rw [hplace i hi hv hdm] at hpath
        simp at hpath
  · intro i hi hv hdm
    refine ⟨[], ?_, fun hin => hin.2⟩
    rw [append_nil]
    exact hplace i hi hv hdm

/-- Filing the waiting items at a node that is halved. -/
theorem update_node
    (q : QuadTree Ω) (path : Path) (root : Root) (objects : List Id) (direction : Bool)
    (size : Rectangle) (hmiddle : 4 < middle direction size) (h : Comes q root objects) :
    let s := objects.foldl (splitItem (some (cb.classify direction size)) path root.sorted)
      ⟨q, root.both, [], []⟩
    ∀ q1 left q2 right,
      (Comes s.q root.left s.left → Updates rect cb s.q (path ++ [false]) root.left s.left
        (!direction) (half direction false size) q1 left) →
      (Comes q1 root.right s.right → Updates rect cb q1 (path ++ [true]) root.right s.right
        (!direction) (half direction true size) q2 right) →
      Updates rect cb q path root objects direction size q2
        (.node left right s.both root.sorted) := by
  intro s q1 left q2 right hleft hright
  obtain ⟨hkept, hchange, hboth, hl, hr, hroot⟩ :=
    split_spec (some (cb.classify direction size)) path root.sorted objects ⟨q, root.both, [], []⟩
      h.nodup h.gone
  rw [nil_append] at hl hr
  obtain ⟨hd, hdl, hdr⟩ := distinct_parts h.distinct
  have hmeml (i : Id) : i ∈ s.left ↔ i ∈ objects ∧ (q.item i).visible = true ∧
      (q.item i).deleteMe = false ∧ cb.classify direction size (q.item i).object = .left := by
    rw [hl, mem_filter, goes_true]
    rfl
  have hmemr (i : Id) : i ∈ s.right ↔ i ∈ objects ∧ (q.item i).visible = true ∧
      (q.item i).deleteMe = false ∧ cb.classify direction size (q.item i).object = .right := by
    rw [hr, mem_filter, goes_true]
    rfl
  have hl' := hleft (by rw [hl]; exact h.side hkept cb direction false size)
  have hkept1 := hkept.trans hl'.kept fun i _ hi => ((hmeml i).mp hi).2.2.1
  have hr' := hright (by rw [hr]; exact h.side hkept1 cb direction true size)
  -- no object is in two of the three lists
  have hnotr {i : Id} (hi : cb.classify direction size (q.item i).object ≠ .right) : i ∉ s.right :=
    fun h => hi ((hmemr i).mp h).2.2.2
  have hnotl {i : Id} (hi : cb.classify direction size (q.item i).object ≠ .left) : i ∉ s.left :=
    fun h => hi ((hmeml i).mp h).2.2.2
  have hboth' {i : Id} (hi : i ∈ objects) (hv : (q.item i).visible = true)
      (hdm : (q.item i).deleteMe = false)
      (hside : cb.classify direction size (q.item i).object = .both) :
      (q2.item i).root = some path := by
    rw [hr'.kept.other i (hnotr (by simp [hside])), hl'.kept.other i (hnotl (by simp [hside]))]
    exact hroot i hi (goes_true.mpr ⟨hv, hdm, hside⟩)
  have hleft' {i : Id} (hi : i ∈ s.left) : (q2.item i).root = (q1.item i).root := by
    rw [hr'.kept.other i (hnotr (by simp [((hmeml i).mp hi).2.2.2]))]
  have hplaced : ∀ i ∈ objects, (q.item i).visible = true → (q.item i).deleteMe = false →
      ∃ p, (q2.item i).root = some (path ++ p) ∧
        (Fits rect cb (q.item i).object size →
          Placed (rect (q.item i).object) direction p size) ∧
        ((cb.classify direction size (q.item i).object = .both ∧ p = []) ∨
          (cb.classify direction size (q.item i).object = .left ∧ ∃ p', p = false :: p') ∨
          (cb.classify direction size (q.item i).object = .right ∧ ∃ p', p = true :: p')) := by
    intro i hi hv hdm
    have hobject : (s.q.item i).object = (q.item i).object := hkept.object i
    cases hside : cb.classify direction size (q.item i).object with
    | both =>
      refine ⟨[], ?_, fun hin => hin.2, .inl ⟨rfl, rfl⟩⟩
      rw [append_nil]
      exact hboth' hi hv hdm hside
    | left =>
      have hmem := (hmeml i).mpr ⟨hi, hv, hdm, hside⟩
      obtain ⟨p, hp, hin⟩ := hl'.placed i hmem (by rw [hkept.visible]; exact hv)
        (by rw [hkept.deleteMe]; exact hdm)
      rw [hobject] at hin
      refine ⟨false :: p, ?_, ?_, .inr (.inl ⟨rfl, p, rfl⟩)⟩
      · rw [hleft' hmem, hp, append_assoc]
        rfl
      · intro hinside
        exact ⟨hinside.2, hin ((fits_half hmiddle hinside).1 hside)⟩
    | right =>
      have hmem := (hmemr i).mpr ⟨hi, hv, hdm, hside⟩
      obtain ⟨p, hp, hin⟩ := hr'.placed i hmem
        (by rw [hl'.kept.visible, hkept.visible]; exact hv)
        (by rw [hl'.kept.deleteMe, hkept.deleteMe]; exact hdm)
      rw [hl'.kept.object, hobject] at hin
      refine ⟨true :: p, ?_, ?_, .inr (.inr ⟨rfl, p, rfl⟩)⟩
      · rw [hp, append_assoc]
        rfl
      · intro hinside
        exact ⟨hinside.2, hin ((fits_half hmiddle hinside).2 hside)⟩
  refine ⟨?_, ⟨?_, hl'.distinct, hr'.distinct⟩, ?_, ?_, ?_⟩
  · refine (hkept1.trans hr'.kept ?_).mono ?_
    · intro i _ hi
      exact ((hmemr i).mp hi).2.2.1
    · rintro i ((hi | hi) | hi)
      · exact hi
      · exact ((hmeml i).mp hi).1
      · exact ((hmemr i).mp hi).1
  · rw [hboth.nodup_iff, nodup_append]
    refine ⟨h.nodup.filter _, hd, ?_⟩
    rintro a ha b hb rfl
    exact h.outside a (mem_filter.mp ha).1 [] (at_here.mpr hb)
  · intro i hi
    by_cases hir : i ∈ s.right
    · exact hr'.change i hir
    rw [hr'.kept.other i hir]
    by_cases hil : i ∈ s.left
    · exact hl'.change i hil
    rw [hl'.kept.other i hil]
    exact hchange i hi
  · intro i p
    rcases p with - | ⟨- | -, p⟩
    · rw [at_here, Root.both, hboth.mem_iff, mem_append, mem_filter, goes_true,
        at_here, append_nil]
      constructor
      · rintro (⟨hi, hv, hdm, hside⟩ | hi)
        · exact .inr ⟨hi, hv, hdm, hboth' hi hv hdm hside⟩
        · exact .inl hi
      · rintro (hi | ⟨hi, hv, hdm, hpath⟩)
        · exact .inr hi
        obtain ⟨p, hp, -, ⟨hside, -⟩ | ⟨-, p', rfl⟩ | ⟨-, p', rfl⟩⟩ := hplaced i hi hv hdm
        · exact .inl ⟨hi, hv, hdm, hside⟩
        · exact absurd (hp.symm.trans hpath) (by simp)
        · exact absurd (hp.symm.trans hpath) (by simp)
    · rw [at_left, Root.left, at_left, hl'.at_, hkept.visible, hkept.deleteMe]
      constructor
      · rintro (hi | ⟨hi, hv, hdm, hpath⟩)
        · exact .inl hi
        refine .inr ⟨((hmeml i).mp hi).1, hv, hdm, ?_⟩
        rw [hleft' hi, hpath, append_assoc]
        rfl
      · rintro (hi | ⟨hi, hv, hdm, hpath⟩)
        · exact .inl hi
        obtain ⟨p1, hp, -, ⟨-, rfl⟩ | ⟨hside, p', rfl⟩ | ⟨-, p', rfl⟩⟩ := hplaced i hi hv hdm
        · exact absurd (hp.symm.trans hpath) (by simp)
        · have hmem := (hmeml i).mpr ⟨hi, hv, hdm, hside⟩
          refine .inr ⟨hmem, hv, hdm, ?_⟩
          rw [← hleft' hmem, hpath, append_assoc]
          rfl
        · exact absurd (hp.symm.trans hpath) (by simp)
    · rw [at_right, Root.right, at_right, hr'.at_, hl'.kept.visible, hl'.kept.deleteMe,
        hkept.visible, hkept.deleteMe]
      constructor
      · rintro (hi | ⟨hi, hv, hdm, hpath⟩)
        · exact .inl hi
        refine .inr ⟨((hmemr i).mp hi).1, hv, hdm, ?_⟩
        rw [hpath, append_assoc]
        rfl
      · rintro (hi | ⟨hi, hv, hdm, hpath⟩)
        · exact .inl hi
        obtain ⟨p1, hp, -, ⟨-, rfl⟩ | ⟨-, p', rfl⟩ | ⟨hside, p', rfl⟩⟩ := hplaced i hi hv hdm
        · exact absurd (hp.symm.trans hpath) (by simp)
        · exact absurd (hp.symm.trans hpath) (by simp)
        · refine .inr ⟨(hmemr i).mpr ⟨hi, hv, hdm, hside⟩, hv, hdm, ?_⟩
          rw [hpath, append_assoc]
          rfl
  · intro i hi hv hdm
    obtain ⟨p, hp, hin, -⟩ := hplaced i hi hv hdm
    exact ⟨p, hp, hin⟩

/-- **The update rule.** -/
theorem update_spec (rect : Ω → Rectangle) (cb : Callbacks Ω) :
    ∀ (n : Nat) (q : QuadTree Ω) (path : Path) (root : Root) (objects : List Id) (direction : Bool)
      (size : Rectangle), size.w.toNat + size.h.toNat < n → Comes q root objects →
      Updates rect cb q path root objects direction size
        (update cb q path root objects direction size).1
        (update cb q path root objects direction size).2 := by
  intro n
  induction n with
  | zero =>
    intro q path root objects direction size hn
    exact absurd hn (by omega)
  | succ n ih =>
    intro q path root objects direction size hn h
    rw [update]
    split
    · rename_i hnil
      rw [hnil]
      exact ⟨Kept.refl q, h.distinct, by simp, by simp, by simp⟩
    split
    · exact update_leaf rect q path root objects direction size h
    rename_i hle
    have hmiddle := not_le.mp hle
    have hsmall (right : Bool) : (half direction right size).w.toNat +
        (half direction right size).h.toNat < n :=
      lt_of_lt_of_le (half_smaller hmiddle) (Nat.lt_succ_iff.mp hn)
    exact update_node q path root objects direction size hmiddle h _ _ _ _
      (ih _ _ _ _ _ _ (hsmall false)) (ih _ _ _ _ _ _ (hsmall true))

/-! ### Emptying the tree -/

/-- The items of a tree in the order a rebuild takes them. -/
def Root.items : Root → List Id
  | nil => []
  | node left right both _ => both ++ items left ++ items right

theorem Root.mem_items : i ∈ t.items ↔ ∃ p, Root.At i p t := by
  induction t with
  | nil => simp [Root.items]
  | node left right both sorted ihl ihr =>
    rw [Root.items, mem_append, mem_append, ihl, ihr]
    constructor
    · rintro ((h | ⟨p, h⟩) | ⟨p, h⟩)
      · exact ⟨[], h⟩
      · exact ⟨false :: p, h⟩
      · exact ⟨true :: p, h⟩
    · rintro ⟨- | ⟨- | -, p⟩, h⟩
      · exact .inl (.inl h)
      · exact .inl (.inr ⟨p, h⟩)
      · exact .inr ⟨p, h⟩

theorem Root.nodup_items (hdistinct : Root.Distinct t)
    (hone : ∀ i p p', Root.At i p t → Root.At i p' t → p = p') : t.items.Nodup := by
  induction t with
  | nil => exact nodup_nil
  | node left right both sorted ihl ihr =>
    obtain ⟨hboth, hl, hr⟩ := hdistinct
    have hl' := ihl hl fun i p p' h h' => (cons.inj (hone i (false :: p) (false :: p') h h')).2
    have hr' := ihr hr fun i p p' h h' => (cons.inj (hone i (true :: p) (true :: p') h h')).2
    rw [Root.items, nodup_append, nodup_append]
    refine ⟨⟨hboth, hl', ?_⟩, hr', ?_⟩
    · rintro a ha b hb rfl
      obtain ⟨p, hp⟩ := mem_items.mp hb
      exact absurd (hone a [] (false :: p) ha hp) (by simp)
    · rintro a ha b hb rfl
      obtain ⟨p, hp⟩ := mem_items.mp hb
      rcases mem_append.mp ha with ha | ha
      · exact absurd (hone a [] (true :: p) ha hp) (by simp)
      · obtain ⟨p', hp'⟩ := mem_items.mp ha
        exact absurd (hone a (false :: p') (true :: p) hp' hp) (by simp)

theorem rebuildPre_eq (q : QuadTree Ω) (t : Root) : q.rebuildPre t =
    t.items.foldl rebuildItem q := by
  induction t generalizing q with
  | nil => rfl
  | node left right both sorted ihl ihr =>
    rw [rebuildPre, ihl, ihr, Root.items, foldl_append, foldl_append]

/-- What emptying the tree does to the items in `ids`. -/
structure Rebuilds (q : QuadTree Ω) (ids : List Id) (q' : QuadTree Ω) : Prop where
  kept : Kept (fun i => i ∈ ids) q { q' with change := q.change }
  change : q'.change = q.change ++ ids.filter fun i => (q.item i).visible
  flag : ∀ i, (q'.item i).change = (q.item i).change
  root : ∀ i, (q'.item i).root = (q.item i).root ∨ (q'.item i).root = none
  trash : q'.itemsTrash = q.itemsTrash
  links : ∀ i, i ∉ ids ∨ (q.item i).visible = false → q'.links i = q.links i

theorem rebuildItem_spec (q : QuadTree Ω) (id : Id) : Rebuilds q [id] (q.rebuildItem id) := by
  unfold rebuildItem
  split
  · rename_i hvisible
    refine ⟨{ Kept.refl q with }, ?_, fun _ => rfl, fun _ => .inl rfl, rfl, ?_⟩
    · simp [link, hvisible]
    · rintro i (hi | hi)
      · exact if_neg (by simpa using hi)
      refine if_neg ?_
      rintro rfl
      rw [hvisible] at hi
      simp at hi
  split
  · rename_i hvisible hhidden
    have hkept : Kept (fun i => i = id) q
        ({ q with hidden := q.hidden ++ [id] }.modify id fun i =>
          { i with hidden := true, root := none }) :=
      kept_hidden.then (kept_modify fun x => ⟨rfl, rfl, rfl, rfl⟩) (.inr rfl)
    refine ⟨hkept.mono (by simp), ?_, ?_, ?_, rfl, fun _ _ => rfl⟩
    · simp [modify, hvisible]
    · intro i
      simp only [modify]
      split
      · rfl
      · rfl
    · intro i
      simp only [modify]
      split
      · exact .inr rfl
      · exact .inl rfl
  · rename_i hvisible hhidden
    exact ⟨Kept.refl q, by simp [hvisible], fun _ => rfl, fun _ => .inl rfl, rfl, fun _ _ => rfl⟩

/-- A resize makes all items wait again. -/
theorem rebuild_spec (ids : List Id) : ∀ q : QuadTree Ω, Rebuilds q ids
    (ids.foldl rebuildItem q) := by
  induction ids with
  | nil =>
    intro q
    exact ⟨Kept.refl q, by simp, fun _ => rfl, fun _ => .inl rfl, rfl, fun _ _ => rfl⟩
  | cons id ids ih =>
    intro q
    have h1 := rebuildItem_spec q id
    have h2 := ih (q.rebuildItem id)
    rw [foldl_cons]
    refine ⟨?_, ?_, ?_, ?_, h2.trash.trans h1.trash, ?_⟩
    · have h1' := h1.kept
      have h2' := h2.kept
      refine ⟨h2'.root.trans h1'.root, rfl, h2'.cached.trans h1'.cached,
        h2'.target.trans h1'.target, h2'.index.trans h1'.index, h2'.w.trans h1'.w,
        h2'.h.trans h1'.h, h2'.resize.trans h1'.resize, h2'.lost.trans h1'.lost,
        h2'.pool.trans h1'.pool, ?_, fun i => (h2'.object i).trans (h1'.object i),
        fun i => (h2'.place i).trans (h1'.place i), fun i => (h2'.visible i).trans (h1'.visible i),
        fun i => (h2'.deleteMe i).trans (h1'.deleteMe i), [], h2.trash.trans h1.trash,
        nodup_nil, by simp⟩
      intro i hi
      rw [mem_cons, not_or] at hi
      exact (h2'.other i hi.2).trans (h1'.other i (by simpa using hi.1))
    · have hfilter : ids.filter (fun i => ((q.rebuildItem id).item i).visible) =
          ids.filter fun i => (q.item i).visible :=
        filter_congr fun i _ => h1.kept.visible i
      rw [h2.change, h1.change, hfilter, append_assoc, ← filter_append]
      rfl
    · intro i
      exact (h2.flag i).trans (h1.flag i)
    · intro i
      rcases h2.root i with h | h
      · rw [h]
        exact h1.root i
      · exact .inr h
    · intro i hi
      have hi2 : i ∉ ids ∨ ((q.rebuildItem id).item i).visible = false := by
        rcases hi with hi | hi
        · exact .inl fun h => hi (mem_cons_of_mem _ h)
        · exact .inr ((h1.kept.visible i).trans hi)
      rw [h2.links i hi2]
      refine h1.links i ?_
      rcases hi with hi | hi
      · exact .inl fun h => hi (by rw [mem_singleton.mp h]; exact mem_cons_self)
      · exact .inr hi

end Eina.QuadTree
