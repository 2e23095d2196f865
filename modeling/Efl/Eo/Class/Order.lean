/-
The order of the mixins that a class lists.

`_eo_class_mro_init` refuses a list in which a mixin is met again behind its own expansion.  So
among the expansions of the listed mixins the last place of each mixin is the head of its own one,
and they stand there as listed.  The expansion of the parent is appended after that check: a mixin
that the parent has already stays where the parent has it.
-/
import Efl.Eo.Class.Mro

namespace Eo.Classes

open Linearize List

variable {c : Classes} {id : ClassId} {k : Klass} (l : Layout)

/-- The mixins that a class lists. -/
def mixins (c : Classes) (k : Klass) : List ClassId := k.extensions.filter c.isMixin

/-- The method resolution order of the parent of a class. -/
def parentMro (c : Classes) (k : Klass) : List ClassId :=
  match k.parent.bind c.get with
  | none => []
  | some p => p.mro

/-! ### The check -/

theorem mem_extnPos : ∀ (l : List ClassId), (∀ e ∈ l, e < c.klasses.length) →
    ∀ (mro : List ClassId) (extnPos : List (ClassId × Nat)),
      let r := l.foldl (fun (mro, extnPos) extn =>
        if c.isMixin extn then (c.mroAdd mro extn, extnPos ++ [(extn, (c.mroAdd mro extn).length)])
        else (mro, extnPos)) (mro, extnPos)
      (∀ p ∈ extnPos, p ∈ r.2) ∧
        ∀ pre m post, l.filter c.isMixin = pre ++ m :: post →
          (m, (mro ++ (pre ++ [m]).flatMap c.graph.walk).length) ∈ r.2 := by
  intro l
  induction l with
  | nil =>
    intro _ mro extnPos
    refine ⟨fun p hp => hp, fun pre m post h => ?_⟩
    simp at h
  | cons e l ih =>
    intro hold mro extnPos
    have hrest := ih fun e' he' => hold e' (mem_cons_of_mem _ he')
    dsimp only at hrest ⊢
    rw [foldl_cons]
    by_cases he : c.isMixin e = true
    · rw [if_pos he, mroAdd_eq (hold e mem_cons_self), filter_cons_of_pos he]
      obtain ⟨hkept, hnew⟩ := hrest (mro ++ c.graph.walk e)
        (extnPos ++ [(e, (mro ++ c.graph.walk e).length)])
      refine ⟨fun p hp => hkept p (mem_append_left _ hp), fun pre m post h => ?_⟩
      cases pre with
      | nil =>
        obtain ⟨rfl, -⟩ := cons.inj h
        refine hkept _ (mem_append_right _ ?_)
        simp
      | cons e' pre =>
        obtain ⟨rfl, htail⟩ := cons.inj h
        have hmem := hnew pre m post htail
        rwa [append_assoc] at hmem
    · rw [if_neg he, filter_cons_of_neg he]
      exact hrest mro extnPos

theorem mroInit_apart {desc : Description} {parent : Option ClassId}
    {extensions mro : List ClassId} (hold : ∀ e ∈ extensions, e < c.klasses.length)
    (h : c.mroInit desc parent extensions = .ok mro) :
    (extensions.filter c.isMixin).Pairwise fun a b => a ∉ c.graph.walk b := by
  have hlist := mroExtensions_eq hold
  have hpos : ∀ pre m post, extensions.filter c.isMixin = pre ++ m :: post →
      (m, ((pre ++ [m]).flatMap c.graph.walk).length) ∈ (c.mroExtensions extensions).2 :=
    fun pre m post hsplit => by
      have hmem := (mem_extnPos extensions hold [] []).2 pre m post hsplit
      rwa [nil_append] at hmem
  unfold mroInit at h
  generalize c.mroExtensions extensions = r at h hlist hpos
  obtain ⟨list, extnPos⟩ := r
  dsimp only at h hlist hpos
  split at h
  · simp at h
  rename_i hnone
  rw [find?_eq_none] at hnone
  rw [pairwise_iff_getElem]
  intro i j hi hj hij hmem
  generalize extensions.filter c.isMixin = mixins at hlist hpos hi hj hmem
  have hsplit : mixins = mixins.take i ++ mixins[i] :: mixins.drop (i + 1) := by
    rw [← drop_eq_getElem_cons, take_append_drop]
  have hbehind : mixins[j] ∈ mixins.drop (i + 1) := by
    refine mem_iff_getElem.mpr ⟨j - (i + 1), ?_, ?_⟩
    · rw [length_drop]
      omega
    · rw [getElem_drop]
      congr 1
      omega
  refine hnone _ (hpos _ _ _ hsplit) (decide_eq_true ?_)
  have hexpand : list = (mixins.take i ++ [mixins[i]]).flatMap c.graph.walk ++
      (mixins.drop (i + 1)).flatMap c.graph.walk := by
    rw [hlist, ← flatMap_append, append_assoc]
    exact congrArg (flatMap c.graph.walk) hsplit
  rw [hexpand, drop_left]
  exact mem_flatMap.mpr ⟨_, hbehind, hmem⟩

/-- No class lists a mixin that a later one expands to. -/
def Apart (c : Classes) : Prop :=
  ∀ id k, c.get id = some k → (c.mixins k).Pairwise fun a b => a ∉ c.graph.walk b

theorem apart_push (hparent : ∀ p, k.parent = some p → p < c.klasses.length)
    (hextensions : ∀ e ∈ k.extensions, e < c.klasses.length) (h : c.Apart)
    (hnew : (c.mixins k).Pairwise fun a b => a ∉ c.graph.walk b) :
    (c.push k hparent hextensions).Apart := by
  intro id k' hget
  have hlt : ∀ e ∈ k'.extensions, e < c.klasses.length := by
    rcases get_push hget with ⟨hid, hold⟩ | ⟨rfl, rfl⟩
    · exact fun e he => Nat.lt_trans ((c.older id k' hold).2 e he) hid
    · exact hextensions
  have hpairwise : (c.mixins k').Pairwise fun a b => a ∉ c.graph.walk b := by
    rcases get_push hget with ⟨hid, hold⟩ | ⟨rfl, rfl⟩
    · exact h id k' hold
    · exact hnew
  rw [mixins, filter_push hlt]
  refine hpairwise.imp_of_mem fun {a b} _ hb hnot => ?_
  rwa [walk_push (hlt b (mem_filter.mp hb).1)]

theorem eflClassNew_apart (h : c.Apart) (desc : Description)
    (parentId : Option ClassId) (extnIds : List ClassId) (initialized : Bool) :
    (eflClassNew l c desc parentId extnIds initialized).1.Apart := by
  unfold eflClassNew
  split
  · exact h
  rename_i extensions mro hprepare
  have hextensions := prepare_extensions hprepare
  exact apart_push (prepare_parent hprepare) hextensions h
    (mroInit_apart hextensions (prepare_ok hprepare).2.2.2)

theorem hierarchy_apart (requests : List Request) :
    (hierarchy l requests).Apart := by
  suffices ∀ c : Classes, c.Apart → (requests.foldl
      (fun c r => (eflClassNew l c r.desc r.parentId r.extnIds r.initialized).1) c).Apart by
    refine this empty ?_
    intro id k h
    simp [get, empty] at h
  induction requests with
  | nil =>
    intro c h
    exact h
  | cons r requests ih =>
    intro c h
    exact ih _ (eflClassNew_apart l h r.desc r.parentId r.extnIds r.initialized)

/-! ### The order -/

theorem superclasses_eq (hk : c.get id = some k) :
    c.graph.succ id = c.mixins k ++ k.parent.toList := by
  show c.superclasses id = _
  unfold superclasses
  rw [hk]
  rfl

theorem parentMro_eq (hc : c.InOrder) (hk : c.get id = some k) :
    c.parentMro k = (k.parent.toList.flatMap c.graph.walk).dedup := by
  unfold parentMro
  cases hparent : k.parent with
  | none => rfl
  | some p =>
    have hlt := Nat.lt_trans ((c.older id k hk).1 p hparent) (get_lt hk)
    obtain ⟨kp, hkp⟩ : ∃ kp, c.get p = some kp := ⟨_, getElem?_eq_getElem hlt⟩
    rw [Option.bind_some, hkp]
    dsimp only
    rw [hc p kp hkp, Graph.order]
    simp

/--
**The order of the mixins that a class lists.**  They stand in the method resolution order of the
class as they are listed if and only if each mixin that the parent has already is followed there by
all that are listed after it.
-/
theorem mixins_in_order (requests : List Request)
    (hk : (hierarchy l requests).get id = some k) :
    ((hierarchy l requests).mixins k).Pairwise (Precedes k.mro) ↔
      ((hierarchy l requests).mixins k).Pairwise fun a b =>
        a ∉ (hierarchy l requests).parentMro k ∨
          Precedes ((hierarchy l requests).parentMro k) a b := by
  have horder := hierarchy_inOrder l requests
  have hapart := hierarchy_apart l requests
  generalize hierarchy l requests = c at *
  have hself : ∀ a, a ∈ c.graph.walk a := by
    intro a
    rw [Graph.walk_eq]
    exact mem_cons_self
  have hmro : k.mro = [id] ++
      ((c.mixins k).flatMap c.graph.walk ++ k.parent.toList.flatMap c.graph.walk).dedup := by
    rw [horder id k hk, Graph.order_eq, superclasses_eq hk, flatMap_append]
    rfl
  have hne : ∀ a ∈ c.mixins k, a ∉ [id] := by
    intro a ha hmem
    have hlt := (c.older id k hk).2 a (mem_filter.mp ha).1
    rw [mem_singleton.mp hmem] at hlt
    exact absurd hlt (Nat.lt_irrefl _)
  have hwalks := precedes_walks hself (hapart id k hk) (w := k.parent.toList.flatMap c.graph.walk)
  rw [parentMro_eq horder hk]
  simp only [mem_dedup]
  rw [← hwalks, hmro]
  exact List.Pairwise.iff_of_mem fun {a b} ha hb => precedes_append (hne a ha) (hne b hb)

/-- The class lists the two mixins that its parent has, in the order the parent has them. -/
def listsBoth : List Request :=
  [⟨⟨some "First", .mixin, 0⟩, none, [], true⟩, ⟨⟨some "Second", .mixin, 0⟩, none, [], true⟩,
    ⟨⟨some "Class", .regular, 0⟩, none, [0, 1], true⟩,
    ⟨⟨some "Subclass", .regular, 0⟩, some 2, [0, 1], true⟩]

theorem mixins_in_order_listsBoth : ∃ k, (hierarchy ⟨64, 8⟩ listsBoth).get 3 = some k ∧
    (hierarchy ⟨64, 8⟩ listsBoth).mixins k = [0, 1] ∧
    (hierarchy ⟨64, 8⟩ listsBoth).parentMro k = [2, 0, 1] ∧
    ((hierarchy ⟨64, 8⟩ listsBoth).mixins k).Pairwise (Precedes k.mro) := by
  have hlook : ((hierarchy ⟨64, 8⟩ listsBoth).get 3).map (fun k =>
      ((hierarchy ⟨64, 8⟩ listsBoth).mixins k, (hierarchy ⟨64, 8⟩ listsBoth).parentMro k)) =
      some ([0, 1], [2, 0, 1]) := by
    with_unfolding_all decide
  obtain ⟨k, hk, heq⟩ := Option.map_eq_some_iff.mp hlook
  obtain ⟨hmixins, hparent⟩ := Prod.mk.inj heq
  refine ⟨k, hk, hmixins, hparent, (mixins_in_order ⟨64, 8⟩ listsBoth hk).mpr ?_⟩
  rw [hmixins, hparent]
  unfold Precedes
  decide

/-- A class extends a mixin; its subclass lists that mixin and another one. -/
def listsAgain : List Request :=
  [⟨⟨some "First", .mixin, 0⟩, none, [], true⟩, ⟨⟨some "Second", .mixin, 0⟩, none, [], true⟩,
    ⟨⟨some "Class", .regular, 0⟩, none, [0], true⟩,
    ⟨⟨some "Subclass", .regular, 0⟩, some 2, [0, 1], true⟩]

/-- The first mixin of the subclass stands behind the second one, where its parent has it. -/
theorem listsAgain_out_of_order : ∃ k, (hierarchy ⟨64, 8⟩ listsAgain).get 3 = some k ∧
    (hierarchy ⟨64, 8⟩ listsAgain).mixins k = [0, 1] ∧ k.mro = [3, 1, 2, 0] ∧
    ¬((hierarchy ⟨64, 8⟩ listsAgain).mixins k).Pairwise (Precedes k.mro) := by
  have hlook : ((hierarchy ⟨64, 8⟩ listsAgain).get 3).map
      (fun k => ((hierarchy ⟨64, 8⟩ listsAgain).mixins k, k.mro)) =
        some ([0, 1], [3, 1, 2, 0]) := by
    with_unfolding_all decide
  obtain ⟨k, hk, heq⟩ := Option.map_eq_some_iff.mp hlook
  obtain ⟨hmixins, hmro⟩ := Prod.mk.inj heq
  refine ⟨k, hk, hmixins, hmro, ?_⟩
  rw [hmixins, hmro]
  unfold Precedes
  decide

end Eo.Classes
