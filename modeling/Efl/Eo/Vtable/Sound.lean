/-
The tables of all classes.

Every class has a table with a node for itself and for each older class; its nodes are well
formed, no two API functions have one op, and what a table says is what the class sets itself
over what it inherits.  `efl_class_new` keeps this, and writes to no table and no array that was
there before.
-/
import Mathlib.Algebra.Group.Nat.Defs
import Efl.Eo.Vtable.Made
import Mathlib.Data.List.TakeWhile

namespace Eo.Vtable

open Linearize List Option

/-! ### The list of a class, in front of its parent -/

section Front

variable {c : Classes} {id : ClassId} {k : Klass}

theorem mro_lt (h : c.InOrder) (hk : c.get id = some k) :
    ∃ t, k.mro = id :: t ∧ ∀ m ∈ t, m < id := by
  refine ⟨_, (h id k hk).trans (Graph.order_eq c.graph id), ?_⟩
  intro m hm
  exact c.graph.rank_of_mem_walk (mem_dedup.mp hm)

theorem frontMixins_lt (h : c.InOrder) (hk : c.get id = some k) : ∀ m ∈ frontMixins k, m < id := by
  intro m hm
  obtain ⟨t, ht, hlt⟩ := mro_lt h hk
  unfold frontMixins at hm
  rw [ht, takeWhile_cons] at hm
  split at hm
  · exact hlt m (takeWhile_subset _ hm)
  · simp at hm

theorem takeWhile_ne_append {p : ClassId} {s t : List ClassId} (hp : p ∉ s) :
    (s ++ p :: t).takeWhile (fun m => decide (some p ≠ some m)) = s := by
  induction s with
  | nil => simp
  | cons x s ih =>
    have hne : p ≠ x := fun heq => hp (by simp [heq])
    rw [cons_append, takeWhile_cons_of_pos (by simpa using hne),
      ih fun hmem => hp (mem_cons_of_mem _ hmem)]

theorem mro_eq (h : c.InOrder) (hk : c.get id = some k) :
    k.mro = id :: frontMixins k ++ ((k.parent.bind c.get).map (·.mro)).getD [] := by
  obtain ⟨t, ht, -⟩ := mro_lt h hk
  cases hp : k.parent with
  | none =>
    have hall : k.mro.takeWhile (fun m => decide (k.parent ≠ some m)) = k.mro := by
      simp [hp]
    unfold frontMixins
    rw [hall, ht]
    simp
  | some p =>
    have hplt : p < id := (c.older id k hk).1 p hp
    have hpold : p < c.klasses.length := lt_trans hplt (Classes.get_lt hk)
    obtain ⟨kp, hkp⟩ : ∃ kp, c.get p = some kp := ⟨_, getElem?_eq_getElem hpold⟩
    have hsuffix : kp.mro <:+ k.mro := by
      rw [h id k hk, h p kp hkp]
      refine Graph.order_suffix (l := k.extensions.filter c.isMixin) ?_
      show c.superclasses id = _
      unfold Classes.superclasses
      rw [hk]
      simp [hp]
    obtain ⟨s, hs⟩ := hsuffix
    obtain ⟨tp, htp, -⟩ := mro_lt h hkp
    have hnodup : k.mro.Nodup := by
      rw [h id k hk]
      exact Graph.nodup_order _ id
    have hpnot : p ∉ s := by
      intro hmem
      rw [← hs, htp] at hnodup
      exact (nodup_append.mp hnodup).2.2 p hmem p mem_cons_self rfl
    have hwhile : k.mro.takeWhile (fun m => decide (k.parent ≠ some m)) = s := by
      rw [← hs, htp, hp]
      exact takeWhile_ne_append hpnot
    have hcons : s = id :: s.tail := by
      cases s with
      | nil =>
        rw [htp, ht] at hs
        exact absurd (cons.inj hs).1 (ne_of_lt hplt)
      | cons x s =>
        rw [ht] at hs
        rw [(cons.inj hs).1]
        rfl
    unfold frontMixins
    rw [hwhile, ← hcons, bind_some, hkp]
    exact hs.symm

end Front

/-- The sizes of the classes that the table has matter only. -/
theorem Source.resize {S : Addr → Prop} {heap : Heap} {size size' : ClassId → Nat} {n : Nat}
    {chain : List Node} (h : Source S heap size n chain) (hsize : ∀ i ≠ n, size' i = size i) :
    Source S heap size' n chain where
  ok := by
    intro i node hnode
    have hi := (List.getElem?_eq_some_iff.mp hnode).1
    rw [hsize i (ne_of_lt (lt_of_lt_of_le hi h.length))]
    exact h.ok i node hnode
  shared := h.shared
  length := h.length

theorem Known.resize {table : ClassId → List Node} {size size' : ClassId → Nat} {n : Nat}
    {storage : Storage} (h : Known table size n storage) (hsize : ∀ i ≠ n, size' i = size i) :
    Known table size' n storage where
  bounds := by
    intro api op hop
    obtain ⟨hlt, hfunc⟩ := h.bounds api op hop
    rw [hsize _ (ne_of_lt hlt)]
    exact ⟨hlt, hfunc⟩
  inj := h.inj
  own := by
    intro i hi
    rw [hsize i (ne_of_lt hi)]
    exact h.own i hi

namespace World

/-- How many functions a class has of its own. -/
def ownSize (w : World) (id : ClassId) : Nat := ((w.vtable id)[id]?).elim 0 (·.count)

/-- The arrays that the table of a class points to. -/
def InClass (w : World) (a : Addr) : Prop :=
  ∃ (id : ClassId) (i : Nat) (node : Node), (w.vtable id)[i]? = some node ∧ node.funcs = .array a

/-- What the functions of a class were set to. -/
def descsOf (w : World) (id : ClassId) : List OpDesc := (w.descs[id]?).getD []

/-- The tables of the classes are as they should be. -/
structure Sound (w : World) : Prop where
  order : w.classes.InOrder
  tables : w.vtables.length = w.classes.klasses.length
  descsLength : w.descs.length = w.classes.klasses.length
  sizes : ∀ id < w.classes.klasses.length, (w.vtable id).length = id + 1
  own : ∀ id < w.classes.klasses.length, ∃ node, (w.vtable id)[id]? = some node
  nodes : ∀ id, TableOk w.heap w.ownSize (w.vtable id)
  bounds : ∀ api op, apiOpIdGet w.storage (some api) = some op →
    op.classId < w.classes.klasses.length ∧ op.funcId < w.ownSize op.classId
  inj : ∀ a b op, apiOpIdGet w.storage (some a) = some op →
    apiOpIdGet w.storage (some b) = some op → a = b
  registered : ∀ id, ∀ desc ∈ w.descsOf id, apiOpIdGet w.storage desc.api ≠ none
  overlays : ∀ api op, apiOpIdGet w.storage (some api) = some op →
    ∀ id k, w.classes.get id = some k →
      look w.heap (w.vtable id) op =
        overlaid id (w.descsOf id) api (inherited w.heap w.vtable k op)

variable {w : World} (l : Layout)

theorem Sound.vtable_of_le {id : ClassId} (h : w.Sound) (hid : w.classes.klasses.length ≤ id) :
    w.vtable id = [] := by
  unfold vtable
  rw [getElem?_eq_none (by rw [h.tables]; exact hid)]
  rfl

theorem Sound.source (h : w.Sound) {id : ClassId} (hid : id < w.classes.klasses.length) :
    Source w.InClass w.heap w.ownSize w.classes.klasses.length (w.vtable id) where
  ok := h.nodes id
  shared := fun i node _ hnode ha => ⟨id, i, node, hnode, ha⟩
  length := by
    rw [h.sizes id hid]
    exact hid

theorem Sound.known (h : w.Sound) :
    Known w.vtable w.ownSize w.classes.klasses.length w.storage where
  bounds := h.bounds
  inj := h.inj
  own := by
    intro i hi
    obtain ⟨node, hnode⟩ := h.own i hi
    refine ⟨node, hnode, ?_⟩
    unfold ownSize
    rw [hnode]
    rfl

/-! ### A new class -/

/-- Classes and tables stay as they are, and so do the arrays that were there. -/
structure Extends (w w' : World) : Prop where
  classes : ∀ id k, w.classes.get id = some k → w'.classes.get id = some k
  tables : ∀ id < w.classes.klasses.length, w'.vtable id = w.vtable id
  keeps : ∀ a < w.heap.length, w'.heap.array a = w.heap.array a
  grows : w.heap.length ≤ w'.heap.length
  objects : w'.objects = w.objects

/-- A class more at most, and no class has more functions than `r` sets or than it had before. -/
structure Adds (r : Request) (w w' : World) : Prop where
  classes : w'.classes.klasses.length ≤ w.classes.klasses.length + 1
  functions : ∀ id, w'.ownSize id ≤ max (w.ownSize id) r.descs.length

theorem Extends.refl (w : World) : w.Extends w :=
  ⟨fun _ _ h => h, fun _ _ => rfl, fun _ _ => rfl, le_rfl, rfl⟩

theorem inherited_congr {h h' : Heap} {table table' : ClassId → List Node} {k : Klass} {op : Op}
    (hfront : ∀ m ∈ frontMixins k, look h' (table' m) op = look h (table m) op)
    (hparent : ∀ p, k.parent = some p → look h' (table' p) op = look h (table p) op) :
    inherited h' table' k op = inherited h table k op := by
  unfold inherited
  congr 1
  · generalize frontMixins k = ids at hfront
    induction ids with
    | nil => rfl
    | cons id ids ih =>
      rw [findSome?_cons, findSome?_cons, hfront id mem_cons_self,
        ih fun m hm => hfront m (mem_cons_of_mem _ hm)]
  · cases hp : k.parent with
    | none => rfl
    | some p => exact hparent p hp

theorem look_of_le {h : Heap} {chain : List Node} {op : Op} (hop : chain.length ≤ op.classId) :
    look h chain op = none := by
  unfold look
  rw [getElem?_eq_none hop]
  rfl

theorem eflClassNew_classes (c : Classes) (r : Request) :
    (∃ e, c.eflClassNew l r.desc r.parentId r.extnIds true = (c, .error e)) ∨
      ∃ c' k, c.eflClassNew l r.desc r.parentId r.extnIds true = (c', .ok c.klasses.length) ∧
        c'.klasses = c.klasses ++ [k] := by
  unfold Classes.eflClassNew
  split
  · rename_i e _
    exact .inl ⟨e, rfl⟩
  · exact .inr ⟨_, _, rfl, rfl⟩

/-- The sanity checks count each function once at most. -/
theorem sanityCheck_le {storage : Storage} {checkEqual : Bool} : ∀ {descs : List OpDesc}
    {apiFuncs : List Api} {count : Nat},
    sanityCheck storage checkEqual apiFuncs descs = some count → count ≤ descs.length := by
  intro descs
  induction descs with
  | nil =>
    intro apiFuncs count hcheck
    obtain rfl := some.inj hcheck
    exact le_rfl
  | cons desc descs ih =>
    intro apiFuncs count hcheck
    unfold sanityCheck at hcheck
    cases hapi : desc.api with
    | none =>
      rw [hapi] at hcheck
      simp at hcheck
    | some api =>
      rw [hapi] at hcheck
      dsimp only at hcheck
      split at hcheck
      · simp at hcheck
      obtain ⟨rest, hrest, hcount⟩ := map_eq_some_iff.mp hcheck
      have hle := ih hrest
      rw [length_cons]
      split at hcount <;> omega

theorem getElem?_concat_eq {α : Type} (l : List α) (a : α) (i : Nat) :
    (l ++ [a])[i]? = if i = l.length then some a else l[i]? := by
  split
  · rename_i hi
    rw [hi, getElem?_concat_length]
  · rename_i hi
    rcases lt_or_gt_of_ne hi with hlt | hgt
    · exact getElem?_append_left hlt
    · rw [getElem?_eq_none (le_of_lt hgt),
        getElem?_eq_none (by rw [length_append]; exact Nat.succ_le_of_lt hgt)]

/-- An older class finds what it found before, and nothing of the functions of the new class. -/
theorem Sound.overlays_older {heap' : Heap} {table' : ClassId → List Node} {storage' : Storage}
    (h : w.Sound) (hlook : ∀ id < w.classes.klasses.length, ∀ op,
      look heap' (table' id) op = look w.heap (w.vtable id) op)
    (hkeeps : ∀ api op, apiOpIdGet w.storage (some api) = some op →
      apiOpIdGet storage' (some api) = some op)
    (hfresh : ∀ api op, apiOpIdGet storage' (some api) = some op →
      apiOpIdGet w.storage (some api) = some op ∨ op.classId = w.classes.klasses.length)
    {api : Api} {op : Op} (hop : apiOpIdGet storage' (some api) = some op) {id : ClassId}
    {k : Klass} (hk : w.classes.get id = some k) :
    look heap' (table' id) op =
      overlaid id (w.descsOf id) api (inherited heap' table' k op) := by
  have hid := Classes.get_lt hk
  have hfront := frontMixins_lt h.order hk
  have hparent := (w.classes.older id k hk).1
  have hinherited : inherited heap' table' k op = inherited w.heap w.vtable k op := by
    refine inherited_congr ?_ ?_
    · intro m hm
      exact hlook m (lt_trans (hfront m hm) hid) op
    · intro p hp
      exact hlook p (lt_trans (hparent p hp) hid) op
  rw [hlook id hid, hinherited]
  rcases hfresh api op hop with hold | hnew
  · exact h.overlays api op hold id k hk
  -- an op of the new class; no older class knows it
  have hnone : ∀ m < w.classes.klasses.length, look w.heap (w.vtable m) op = none := by
    intro m hm
    refine look_of_le ?_
    rw [h.sizes m hm, hnew]
    exact hm
  have hinheritedNone : inherited w.heap w.vtable k op = none := by
    unfold inherited
    rw [or_eq_none_iff, findSome?_eq_none_iff]
    refine ⟨fun m hm => hnone m (lt_trans (hfront m hm) hid), ?_⟩
    cases hp : k.parent with
    | none => rfl
    | some p => exact hnone p (lt_trans (hparent p hp) hid)
  have hundefined : defined (w.descsOf id) api = none := by
    refine defined_eq_none ?_
    intro hmem
    obtain ⟨desc, hdesc, hapi⟩ := mem_map.mp hmem
    obtain ⟨op', hop'⟩ := ne_none_iff_exists'.mp (h.registered id desc hdesc)
    rw [hapi] at hop'
    obtain rfl := some.inj ((hkeeps api op' hop').symm.trans hop)
    exact absurd (h.bounds api op' hop').1 (by rw [hnew]; exact lt_irrefl _)
  rw [hnone id hid, overlaid, hundefined, hinheritedNone]

/-- `w'` has the class `k` more, which was made with the table of `work`. -/
structure OneMore (w w' : World) (size : ClassId → Nat) (k : Klass) (own : List OpDesc)
    (work : Work) : Prop where
  klasses : w'.classes.klasses = w.classes.klasses ++ [k]
  vtables : w'.vtables = w.vtables ++ [work.chain]
  descs : w'.descs.length = w.descs.length + 1
  descsOf : ∀ id, w'.descsOf id = if id = w.classes.klasses.length then own else w.descsOf id
  heap : w'.heap = work.heap
  objects : w'.objects = w.objects
  made : Made w.InClass w.heap size w.classes.klasses.length w.vtable k w.storage own work
    w'.storage
  older : ∀ id ≠ w.classes.klasses.length, size id = w.ownSize id

namespace OneMore

variable {w' : World} {size : ClassId → Nat} {k : Klass} {own : List OpDesc} {work : Work}

theorem get (h : OneMore w w' size k own work) (id : ClassId) :
    w'.classes.get id = if id = w.classes.klasses.length then some k else w.classes.get id := by
  unfold Classes.get
  rw [h.klasses]
  exact getElem?_concat_eq _ _ _

theorem length (h : OneMore w w' size k own work) :
    w'.classes.klasses.length = w.classes.klasses.length + 1 := by
  rw [h.klasses, length_append]
  rfl

theorem vtable (h : OneMore w w' size k own work) (hw : w.Sound) (id : ClassId) :
    w'.vtable id = if id = w.classes.klasses.length then work.chain else w.vtable id := by
  rw [← hw.tables]
  unfold World.vtable
  rw [h.vtables, getElem?_concat_eq]
  split <;> rfl

theorem vtable_self (h : OneMore w w' size k own work) (hw : w.Sound) :
    w'.vtable w.classes.klasses.length = work.chain := by
  rw [h.vtable hw, if_pos rfl]

theorem vtable_older (h : OneMore w w' size k own work) (hw : w.Sound) {id : ClassId}
    (hid : id ≠ w.classes.klasses.length) : w'.vtable id = w.vtable id := by
  rw [h.vtable hw, if_neg hid]

theorem ownSize (h : OneMore w w' size k own work) (hw : w.Sound) : w'.ownSize = size := by
  funext id
  unfold World.ownSize
  by_cases hid : id = w.classes.klasses.length
  · obtain ⟨node, hnode, hcount⟩ := h.made.own
    rw [hid, h.vtable_self hw, hnode]
    exact hcount
  · rw [h.vtable_older hw hid, h.older id hid]
    rfl

theorem same (h : OneMore w w' size k own work) (hw : w.Sound) (id : ClassId) :
    Same w.heap w'.heap (w.vtable id) := by
  rw [h.heap]
  exact (hw.nodes id).same h.made.work.keeps

theorem look_older (h : OneMore w w' size k own work) (hw : w.Sound) :
    ∀ id < w.classes.klasses.length, ∀ op,
      look w'.heap (w'.vtable id) op = look w.heap (w.vtable id) op := by
  intro id hid op
  rw [h.vtable_older hw (ne_of_lt hid)]
  exact (h.same hw id).look op

theorem isExtension (h : OneMore w w' size k own work) (hw : w.Sound) : w.Extends w' where
  classes := by
    intro id k' hk'
    rw [h.get, if_neg (ne_of_lt (Classes.get_lt hk'))]
    exact hk'
  tables := fun id hid => h.vtable_older hw (ne_of_lt hid)
  keeps := by
    rw [h.heap]
    exact h.made.work.keeps
  grows := by
    rw [h.heap]
    exact h.made.work.grows
  objects := h.objects

/-- What the new class finds is what it sets itself, over what it inherits. -/
theorem overlays (h : OneMore w w' size k own work) (hw : w.Sound) (horder : w'.classes.InOrder)
    {api : Api} {op : Op} (hop : apiOpIdGet w'.storage (some api) = some op) {id : ClassId}
    {k' : Klass} (hk' : w'.classes.get id = some k') :
    look w'.heap (w'.vtable id) op =
      overlaid id (w'.descsOf id) api (inherited w'.heap w'.vtable k' op) := by
  have hlook := h.look_older hw
  by_cases hid : id = w.classes.klasses.length
  · obtain rfl : k = k' := by
      rw [h.get, if_pos hid] at hk'
      exact some.inj hk'
    have hinherited : inherited w'.heap w'.vtable k op = inherited w.heap w.vtable k op := by
      refine inherited_congr ?_ ?_
      · intro m hm
        exact hlook m (hid ▸ frontMixins_lt horder hk' m hm) op
      · intro p hp
        exact hlook p (hid ▸ (w'.classes.older id k hk').1 p hp) op
    rw [hinherited, h.descsOf, if_pos hid, hid, h.vtable_self hw, h.heap]
    exact h.made.tells api op hop
  · rw [h.get, if_neg hid] at hk'
    rw [h.descsOf, if_neg hid]
    exact hw.overlays_older hlook h.made.keeps h.made.fresh hop hk'

/-- **A class more leaves all tables as they should be.** -/
theorem sound (h : OneMore w w' size k own work) (hw : w.Sound) (horder : w'.classes.InOrder) :
    w'.Sound where
  order := horder
  tables := by rw [h.length, h.vtables, length_append, hw.tables]; rfl
  descsLength := by rw [h.length, h.descs, hw.descsLength]
  sizes := by
    intro id hid
    rw [h.length] at hid
    by_cases hself : id = w.classes.klasses.length
    · rw [hself, h.vtable_self hw]
      exact h.made.length
    · rw [h.vtable_older hw hself]
      exact hw.sizes id (lt_of_le_of_ne (Nat.le_of_lt_succ hid) hself)
  own := by
    intro id hid
    rw [h.length] at hid
    by_cases hself : id = w.classes.klasses.length
    · rw [hself, h.vtable_self hw]
      exact ⟨_, h.made.own.choose_spec.1⟩
    · rw [h.vtable_older hw hself]
      exact hw.own id (lt_of_le_of_ne (Nat.le_of_lt_succ hid) hself)
  nodes := by
    intro id
    rw [h.ownSize hw]
    by_cases hself : id = w.classes.klasses.length
    · rw [hself, h.vtable_self hw, h.heap]
      exact h.made.work.nodes
    · rw [h.vtable_older hw hself]
      intro i node hnode
      have hi : i ≠ w.classes.klasses.length := by
        rcases lt_or_gt_of_ne hself with hlt | hgt
        · have hi := (List.getElem?_eq_some_iff.mp hnode).1
          rw [hw.sizes id hlt] at hi
          exact ne_of_lt (lt_of_le_of_lt (Nat.le_of_lt_succ hi) hlt)
        · rw [hw.vtable_of_le (le_of_lt hgt)] at hnode
          simp at hnode
      rw [h.older i hi]
      exact (hw.nodes id).congr (h.same hw id) i node hnode
  bounds := by
    intro api op hop
    rw [h.length, h.ownSize hw]
    obtain ⟨hle, hfunc⟩ := h.made.bounds api op hop
    exact ⟨Nat.lt_succ_of_le hle, hfunc⟩
  inj := h.made.inj
  registered := by
    intro id desc hdesc
    rw [h.descsOf] at hdesc
    split at hdesc
    · exact h.made.registers desc hdesc
    · obtain ⟨op, hop⟩ := ne_none_iff_exists'.mp (hw.registered id desc hdesc)
      cases hapi : desc.api with
      | none =>
        rw [hapi, apiOpIdGet_none] at hop
        simp at hop
      | some api =>
        rw [hapi] at hop
        rw [h.made.keeps api op hop]
        simp
  overlays := fun _ _ hop _ _ hk' => h.overlays hw horder hop hk'

/-- The new table points to arrays of older classes and to new ones. -/
theorem inClass (h : OneMore w w' size k own work) (hw : w.Sound) {a : Addr}
    (ha : w'.InClass a) (hold : a < w.heap.length) : w.InClass a := by
  obtain ⟨id, i, node, hnode, ha⟩ := ha
  by_cases hself : id = w.classes.klasses.length
  · rw [hself, h.vtable_self hw] at hnode
    exact (h.made.work.origin i node a hnode ha).resolve_right (not_le.mpr hold)
  · rw [h.vtable_older hw hself] at hnode
    exact ⟨id, i, node, hnode, ha⟩

end OneMore

/-- **`efl_class_new`** makes a table as it should be, and leaves those there are. -/
theorem eflClassNew_sound (h : w.Sound) (r : Request) :
    ∃ w' made, eflClassNew l w r = some (w', made) ∧ w'.Sound ∧ w.Extends w' ∧
      (∀ a, w'.InClass a → a < w.heap.length → w.InClass a) ∧ Adds r w w' := by
  unfold eflClassNew
  have hinOrder := Classes.eflClassNew_inOrder l h.order r.desc r.parentId r.extnIds true
  rcases eflClassNew_classes l w.classes r with ⟨e, he⟩ | ⟨c', k, hmade, hklasses⟩
  · rw [he]
    exact ⟨w, _, rfl, h, Extends.refl w, fun a ha _ => ha, Nat.le_succ _,
      fun _ => le_max_left _ _⟩
  rw [hmade] at hinOrder ⊢
  dsimp only at hinOrder ⊢
  have hself : c'.get w.classes.klasses.length = some k := by
    unfold Classes.get
    rw [hklasses, getElem?_concat_length]
  have hlength : c'.klasses.length = w.classes.klasses.length + 1 := by
    rw [hklasses, length_append]
    rfl
  rw [hself, hlength]
  obtain ⟨hparent, hextensions⟩ := c'.older _ k hself
  have hfront := frontMixins_lt hinOrder hself
  -- the new class has as many functions as it is given that have no op yet
  let size : ClassId → Nat := fun id => if id = w.classes.klasses.length
    then (sanityCheck w.storage true [] r.descs).getD 0 else w.ownSize id
  have hsize : ∀ id ≠ w.classes.klasses.length, size id = w.ownSize id := fun id hid => if_neg hid
  obtain ⟨work, storage', hset, hdone⟩ := eflClassFunctionsSet_eq (h.known.resize hsize)
    (fun id hid => (h.source hid).resize hsize) hparent hfront hextensions
    (if_pos rfl)
  rw [bind_eq_bind, bind_some, hset]
  have hmore : OneMore w (World.mk c' (w.vtables ++ [work.chain]) (w.descs ++ [if
      (sanityCheck w.storage true [] r.descs).isSome then r.descs else []]) storage' work.heap
      w.objects) size k (given w.storage r.descs) work := by
    refine ⟨hklasses, rfl, length_append, ?_, rfl, rfl, hdone, hsize⟩
    intro id
    unfold descsOf
    rw [getElem?_concat_eq, h.descsLength]
    split <;> rfl
  refine ⟨_, _, rfl, hmore.sound h hinOrder, hmore.isExtension h, fun a => hmore.inClass h,
    hmore.length.le, ?_⟩
  intro id
  rw [hmore.ownSize h]
  by_cases hid : id = w.classes.klasses.length
  · rw [show size id = (sanityCheck w.storage true [] r.descs).getD 0 from if_pos hid]
    refine le_trans ?_ (le_max_right _ _)
    cases hcheck : sanityCheck w.storage true [] r.descs with
    | none => exact Nat.zero_le _
    | some count => exact sanityCheck_le hcheck
  · rw [hsize id hid]
    exact le_max_left _ _

/-! ### Fields of 16 bits -/

/--
There is room for another class: `op2_class_id` is a `short`, and the functions of a class are
counted in an `unsigned short`.
-/
def HasRoom (w : World) (r : Request) : Prop :=
  w.classes.klasses.length < 2 ^ 15 ∧ r.descs.length < 2 ^ 16

instance (w : World) (r : Request) : Decidable (w.HasRoom r) :=
  inferInstanceAs (Decidable (_ ∧ _))

/-- No number of a class and no number of functions is too large for its field. -/
structure Counted (w : World) : Prop where
  classes : w.classes.klasses.length ≤ 2 ^ 15
  functions : ∀ id, w.ownSize id < 2 ^ 16

theorem Counted.adds {r : Request} {w' : World} (h : w.Counted) (hroom : w.HasRoom r)
    (hadds : Adds r w w') : w'.Counted := by
  refine ⟨le_trans hadds.classes hroom.1, ?_⟩
  intro id
  exact lt_of_le_of_lt (hadds.functions id) (max_lt (h.functions id) hroom.2)

/-- What is stored is what the source's fields hold: nothing is cut off. -/
structure FitsFields (w : World) : Prop where
  ops : ∀ api op, apiOpIdGet w.storage (some api) = some op →
    op.classId < 2 ^ 15 ∧ op.funcId < 2 ^ 16
  counts : ∀ (id : ClassId) (i : Nat) (node : Node), (w.vtable id)[i]? = some node →
    node.count < 2 ^ 16

theorem Counted.fitsFields (h : w.Counted) (hw : w.Sound) : w.FitsFields := by
  refine ⟨?_, ?_⟩
  · intro api op hop
    obtain ⟨hclass, hfunc⟩ := hw.bounds api op hop
    exact ⟨lt_of_lt_of_le hclass h.classes, lt_trans hfunc (h.functions _)⟩
  · intro id i node hnode
    by_cases hnull : node.funcs = .null
    · have hok := hw.nodes id i node hnode
      unfold Node.Ok at hok
      rw [hnull] at hok
      rw [hok]
      decide
    · rw [(hw.nodes id i node hnode).count_eq hnull]
      exact h.functions i

end World

end Eo.Vtable
