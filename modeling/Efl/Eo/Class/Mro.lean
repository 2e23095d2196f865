/-
The method resolution order of a class.

`_eo_class_mro_add` walks the graph whose edges go from a class to the mixins it extends and to
its parent, and `_eo_class_list_remove_duplicates` keeps the last of every class the walk lists.
So the order is that of `Linearize`, and all classes there are have it, since a class only looks
at older ones.
-/
import Efl.Eo.Class.Basic
import Efl.Lib.Linearize

namespace Eo

open Linearize List Option

/-! ### Removing duplicates -/

variable (l : List ClassId)

theorem dedup_concat (x : ClassId) :
    (l ++ [x]).dedup = (removeEqual x l).dedup ++ [x] := by
  induction l with
  | nil => rfl
  | cons y l ih =>
    rw [cons_append]
    by_cases hy : y = x
    · have hmem : y ∈ l ++ [x] := by simp [hy]
      have hdrop : removeEqual x (y :: l) = removeEqual x l := by simp [removeEqual, hy]
      rw [dedup_cons_of_mem hmem, ih, hdrop]
    have hkeep : removeEqual x (y :: l) = y :: removeEqual x l := by simp [removeEqual, hy]
    have hiff : y ∈ removeEqual x l ↔ y ∈ l := by simp [removeEqual, hy]
    rw [hkeep]
    by_cases hmem : y ∈ l
    · rw [dedup_cons_of_mem (mem_append_left _ hmem), ih,
        dedup_cons_of_mem (hiff.mpr hmem)]
    have hnot : y ∉ l ++ [x] := by simp [hmem, hy]
    rw [dedup_cons_of_notMem hnot, ih,
      dedup_cons_of_notMem fun h => hmem (hiff.mp h), cons_append]

theorem removeBefore_eq : removeBefore l = l.reverse.dedup.reverse := by
  induction l using removeBefore.induct with
  | case1 =>
    rw [removeBefore]
    rfl
  | case2 x rest ih =>
    have hreverse : (removeEqual x rest).reverse = removeEqual x rest.reverse :=
      (filter_reverse ..).symm
    rw [removeBefore, ih, hreverse, reverse_cons, dedup_concat, reverse_append]
    rfl

theorem removeDuplicates_eq : removeDuplicates l = l.dedup := by
  rw [removeDuplicates, removeBefore_eq, reverse_reverse, reverse_reverse]

namespace Classes

variable {c c' : Classes} {id x y : ClassId} {k : Klass}

/-! ### The graph of a hierarchy -/

/-- The mixins a class extends, and its parent. -/
def superclasses (c : Classes) (id : ClassId) : List ClassId :=
  match c.get id with
  | none => []
  | some k => k.extensions.filter c.isMixin ++ k.parent.toList

/-- The hierarchy; a class is newer than all that it is made of. -/
def graph (c : Classes) : Graph ClassId where
  succ := c.superclasses
  rank := fun id => id
  descends := by
    intro a b hb
    unfold superclasses at hb
    split at hb
    · simp at hb
    rename_i k hk
    obtain ⟨hparent, hextensions⟩ := c.older a k hk
    rcases mem_append.mp hb with hb | hb
    · exact hextensions b (mem_filter.mp hb).1
    · exact hparent b (by simpa using hb)

/-- The second class is the parent of the first one, or a mixin that it extends. -/
def Super (c : Classes) (x y : ClassId) : Prop :=
  ∃ k, c.get x = some k ∧ (k.parent = some y ∨ y ∈ k.extensions ∧ c.isMixin y = true)

theorem edge_iff : c.graph.Edge x y ↔ c.Super x y := by
  show y ∈ c.superclasses x ↔ c.Super x y
  unfold superclasses Super
  cases hget : c.get x with
  | none => simp
  | some k =>
    simp only [mem_append, mem_filter, mem_toList,
      some.injEq, exists_eq_left']
    exact Or.comm

theorem foldl_mixins (f : List ClassId → ClassId → List ClassId) (c : Classes) :
    ∀ (l : List ClassId) (mro : List ClassId),
      (∀ e ∈ l.filter c.isMixin, ∀ mro, f mro e = mro ++ c.graph.walk e) →
      l.foldl (fun mro e => if c.isMixin e then f mro e else mro) mro =
        mro ++ (l.filter c.isMixin).flatMap c.graph.walk := by
  intro l
  induction l with
  | nil =>
    simp
  | cons e l ih =>
    intro mro h
    rw [foldl_cons]
    by_cases he : c.isMixin e = true
    · rw [filter_cons_of_pos he] at h ⊢
      rw [if_pos he, ih _ fun e' he' => h e' (mem_cons_of_mem _ he'),
        h e mem_cons_self, flatMap_cons, append_assoc]
    · rw [filter_cons_of_neg he] at h ⊢
      rw [if_neg he, ih _ h]

/-- `_eo_class_mro_add` appends a walk over the graph of the classes. -/
theorem mroAdd_eq (hid : id < c.klasses.length) (mro : List ClassId) :
    c.mroAdd mro id = mro ++ c.graph.walk id := by
  induction id using c.graph.rise generalizing mro with
  | h id ih =>
    obtain ⟨k, hk⟩ : ∃ k, c.klasses[id]? = some k := ⟨_, getElem?_eq_getElem hid⟩
    have hsucc : c.graph.succ id = k.extensions.filter c.isMixin ++ k.parent.toList := by
      show c.superclasses id = _
      unfold superclasses get
      rw [hk]
    have hadd : ∀ e ∈ c.graph.succ id, ∀ mro, c.mroAdd mro e = mro ++ c.graph.walk e := by
      intro e he mro
      refine ih e he ?_ mro
      exact Nat.lt_trans (c.graph.descends id e he) hid
    rw [Graph.walk_eq, hsucc]
    rw [hsucc] at hadd
    rw [mroAdd]
    split
    · rename_i hnone
      rw [hk] at hnone
      simp at hnone
    rename_i klass hklass
    obtain rfl : k = klass := some.inj (hk.symm.trans hklass)
    have hfold := foldl_mixins c.mroAdd c k.extensions (mro ++ [id])
      fun e he => hadd e (mem_append_left _ he)
    rw [← foldl_attach] at hfold
    rw [hfold]
    split
    · rename_i hnone
      simp [hnone]
    rename_i parent hsome
    rw [hadd parent (mem_append_right _ (by simp [hsome]))]
    simp [hsome]

theorem mroExtensions_eq {extensions : List ClassId}
    (h : ∀ e ∈ extensions, e < c.klasses.length) :
    (c.mroExtensions extensions).1 = (extensions.filter c.isMixin).flatMap c.graph.walk := by
  have hfold := foldl_mixins c.mroAdd c extensions []
    fun e he mro => mroAdd_eq (h e (mem_filter.mp he).1) mro
  rw [nil_append] at hfold
  rw [← hfold]
  refine (foldl_hom Prod.fst ?_).symm
  rintro ⟨mro, extnPos⟩ e
  split <;> rfl

theorem mroInit_ok {desc : Description} {parent : Option ClassId} {extensions mro : List ClassId}
    (hparent : ∀ p, parent = some p → p < c.klasses.length)
    (hextensions : ∀ e ∈ extensions, e < c.klasses.length)
    (h : c.mroInit desc parent extensions = .ok mro) :
    mro = ((extensions.filter c.isMixin ++ parent.toList).flatMap c.graph.walk).dedup := by
  unfold mroInit at h
  have hfirst := mroExtensions_eq hextensions
  dsimp only at h hfirst
  split at h
  · simp at h
  have hmro := Except.ok.inj h
  rw [← hmro, removeDuplicates_eq, flatMap_append, ← hfirst]
  cases parent with
  | none => simp
  | some p => simp [mroAdd_eq (hparent p rfl)]

/-! ### Older classes stay as they are -/

section Push

variable {hparent : ∀ p, k.parent = some p → p < c.klasses.length}
  {hextensions : ∀ e ∈ k.extensions, e < c.klasses.length}

theorem get_push_of_lt (hid : id < c.klasses.length) :
    (c.push k hparent hextensions).get id = c.get id :=
  getElem?_append_left hid

theorem get_push_self : (c.push k hparent hextensions).get c.klasses.length = some k :=
  getElem?_concat_length

theorem get_push {k' : Klass} (h : (c.push k hparent hextensions).get id = some k') :
    id < c.klasses.length ∧ c.get id = some k' ∨ id = c.klasses.length ∧ k' = k := by
  rcases Nat.lt_trichotomy id c.klasses.length with hid | rfl | hid
  · exact .inl ⟨hid, (get_push_of_lt hid).symm.trans h⟩
  · exact .inr ⟨rfl, some.inj (h.symm.trans get_push_self)⟩
  · have hlt := get_lt h
    have hlength : (c.push k hparent hextensions).klasses.length = c.klasses.length + 1 :=
      length_append
    rw [hlength] at hlt
    exact absurd hlt (Nat.not_lt.mpr (Nat.succ_le_of_lt hid))

theorem isMixin_push (hid : id < c.klasses.length) :
    (c.push k hparent hextensions).isMixin id = c.isMixin id := by
  unfold isMixin
  rw [get_push_of_lt hid]

theorem filter_push {l : List ClassId} (h : ∀ e ∈ l, e < c.klasses.length) :
    l.filter (c.push k hparent hextensions).isMixin = l.filter c.isMixin :=
  filter_congr fun e he => isMixin_push (h e he)

theorem superclasses_push (hid : id < c.klasses.length) :
    (c.push k hparent hextensions).superclasses id = c.superclasses id := by
  unfold superclasses
  rw [get_push_of_lt hid]
  cases hget : c.get id with
  | none => rfl
  | some k' =>
    dsimp only
    rw [filter_push]
    intro e he
    exact Nat.lt_trans ((c.older id k' hget).2 e he) hid

theorem walk_push (hid : id < c.klasses.length) :
    (c.push k hparent hextensions).graph.walk id = c.graph.walk id := by
  refine Graph.walk_congr ?_
  intro b hb
  exact superclasses_push (Nat.lt_of_le_of_lt hb hid)

end Push

/-! ### Every class has the order of its hierarchy -/

/-- The list of every class is the order of the hierarchy below it. -/
def InOrder (c : Classes) : Prop := ∀ id k, c.get id = some k → k.mro = c.graph.order id

/-- A new class keeps the order. -/
theorem inOrder_push (hparent : ∀ p, k.parent = some p → p < c.klasses.length)
    (hextensions : ∀ e ∈ k.extensions, e < c.klasses.length) (h : c.InOrder)
    (hmro : k.mro = c.klasses.length ::
      ((k.extensions.filter c.isMixin ++ k.parent.toList).flatMap c.graph.walk).dedup) :
    (c.push k hparent hextensions).InOrder := by
  intro id k' hget
  rcases get_push hget with ⟨hid, hold⟩ | ⟨rfl, rfl⟩
  · rw [h id k' hold, Graph.order, Graph.order, walk_push hid]
  have hsucc : (c.push k' hparent hextensions).graph.succ c.klasses.length =
      k'.extensions.filter c.isMixin ++ k'.parent.toList := by
    show (c.push k' hparent hextensions).superclasses _ = _
    unfold superclasses
    rw [get_push_self]
    dsimp only
    rw [filter_push hextensions]
  rw [hmro, Graph.order_eq, hsucc]
  congr 2
  refine flatMap_congr ?_
  intro b hb
  rcases mem_append.mp hb with hb | hb
  · exact (walk_push (hextensions b (mem_filter.mp hb).1)).symm
  · exact (walk_push (hparent b (by simpa using hb))).symm

theorem eflClassNew_inOrder (l : Layout) (h : c.InOrder) (desc : Description)
    (parentId : Option ClassId) (extnIds : List ClassId) (initialized : Bool) :
    (eflClassNew l c desc parentId extnIds initialized).1.InOrder := by
  unfold eflClassNew
  split
  · exact h
  rename_i extensions mro hprepare
  have hparent := prepare_parent hprepare
  have hextensions := prepare_extensions hprepare
  refine inOrder_push hparent hextensions h ?_
  rw [fill, mroInit_ok hparent hextensions (prepare_ok hprepare).2.2.2]

/-- What `efl_class_new` is called with, and whether the initializer of the class succeeds. -/
structure Request where
  desc : Description
  parentId : Option ClassId
  extnIds : List ClassId
  initialized : Bool

/-- The classes there are after the calls. -/
def hierarchy (l : Layout) (requests : List Request) : Classes :=
  requests.foldl
    (fun c r => (eflClassNew l c r.desc r.parentId r.extnIds r.initialized).1) empty

theorem hierarchy_inOrder (l : Layout) (requests : List Request) :
    (hierarchy l requests).InOrder := by
  suffices ∀ c : Classes, c.InOrder → (requests.foldl
      (fun c r => (eflClassNew l c r.desc r.parentId r.extnIds r.initialized).1) c).InOrder by
    refine this empty ?_
    intro id k h
    simp [get, empty] at h
  induction requests with
  | nil =>
    intro c h
    exact h
  | cons r requests ih =>
    intro c h
    exact ih _ (eflClassNew_inOrder l h r.desc r.parentId r.extnIds r.initialized)

/-- What the method resolution order of a class is to be. -/
structure Linearizes (c : Classes) (id : ClassId) (k : Klass) : Prop where
  self : k.mro.head? = some id
  once : k.mro.Nodup
  /-- The ancestors and the mixins that are extended on the way to them, and nothing else. -/
  members : ∀ x, x ∈ k.mro ↔ Relation.ReflTransGen c.Super id x
  before : ∀ x ∈ k.mro, ∀ y, c.Super x y → Precedes k.mro x y
  parent : ∀ p, k.parent = some p → ∃ kp, c.get p = some kp ∧ kp.mro <:+ k.mro

theorem InOrder.linearizes (hinOrder : c.InOrder) (h : c.get id = some k) :
    Linearizes c id k := by
  have hmro := hinOrder id k h
  have hedge : c.graph.Edge = c.Super := by
    funext x y
    exact propext edge_iff
  refine ⟨?_, ?_, ?_, ?_, ?_⟩
  · rw [hmro, Graph.order_eq]
    rfl
  · rw [hmro]
    exact Graph.nodup_order _ id
  · intro x
    rw [hmro, Graph.mem_order, hedge]
  · intro x hx y hsuper
    rw [hmro] at hx ⊢
    exact Graph.precedes_order hx (edge_iff.mpr hsuper)
  · intro p hp
    have hold : p < c.klasses.length := Nat.lt_trans ((c.older id k h).1 p hp) (get_lt h)
    obtain ⟨kp, hkp⟩ : ∃ kp, c.get p = some kp := ⟨_, getElem?_eq_getElem hold⟩
    refine ⟨kp, hkp, ?_⟩
    rw [hmro, hinOrder p kp hkp]
    refine Graph.order_suffix (l := k.extensions.filter c.isMixin) ?_
    show c.superclasses id = _
    unfold superclasses
    rw [h]
    simp [hp]

/-- **The method resolution order** of every class of a hierarchy. -/
theorem mro_linearizes (l : Layout) (requests : List Request)
    (h : (hierarchy l requests).get id = some k) : Linearizes (hierarchy l requests) id k :=
  (hierarchy_inOrder l requests).linearizes h

/-- Two mixins extend a third one; a class extends both, and its subclass one of them again. -/
def diamond : List Request :=
  [⟨⟨some "Base", .mixin, 8⟩, none, [], true⟩, ⟨⟨some "Left", .mixin, 0⟩, none, [0], true⟩,
    ⟨⟨some "Right", .mixin, 0⟩, none, [0], true⟩, ⟨⟨some "Class", .regular, 4⟩, none, [1, 2], true⟩,
    ⟨⟨some "Subclass", .regular, 4⟩, some 3, [2], true⟩]

theorem mro_linearizes_diamond : ∃ k, (hierarchy ⟨64, 8⟩ diamond).get 4 = some k ∧
    k.mro = [4, 3, 1, 2, 0] ∧ Linearizes (hierarchy ⟨64, 8⟩ diamond) 4 k := by
  have hmro : ((hierarchy ⟨64, 8⟩ diamond).get 4).map (·.mro) = some [4, 3, 1, 2, 0] := by
    with_unfolding_all decide
  obtain ⟨k, hk, hlist⟩ := map_eq_some_iff.mp hmro
  exact ⟨k, hk, hlist, mro_linearizes ⟨64, 8⟩ diamond hk⟩

end Classes

end Eo
