/-
The tree that parents and children make.

`_efl_object_parent_set` is the only function that changes it, besides the creation and the end of
an object.  In every state a run reaches, whatever the program does, a living object is in the list
of a living parent once, and in no list of another living object.
-/
import Efl.Eo.Life.Frames

namespace Eo.Life

open List Option World

variable {w w' : World} {x y p : Id} {i : Instr} {is rest stack : List Instr} {o : Object}

/-! ### Worlds that differ in some fields only -/

/-- What `φ` says about the objects is the same in both. -/
structure Alike {α : Type} (φ : Object → α) (w w' : World) : Prop where
  object : ∀ x, (w'.object x).map φ = (w.object x).map φ
  fresh : w'.fresh = w.fresh

section Alike

variable {α : Type} {φ : Object → α}

theorem Alike.refl (w : World) : Alike φ w w := ⟨fun _ => rfl, rfl⟩

theorem Alike.trans {w'' : World} (h : Alike φ w w') (h' : Alike φ w' w'') : Alike φ w w'' :=
  ⟨fun x => (h'.object x).trans (h.object x), h'.fresh.trans h.fresh⟩

theorem Alike.none_iff (h : Alike φ w w') (x : Id) : w'.object x = none ↔ w.object x = none := by
  rw [← map_eq_none_iff, h.object, map_eq_none_iff]

theorem Alike.get (h : Alike φ w w') {o' : Object} (ho : w'.object x = some o') :
    ∃ o, w.object x = some o ∧ φ o' = φ o := by
  have hx := h.object x
  rw [ho] at hx
  obtain ⟨o, ho, hφ⟩ := map_eq_some_iff.mp hx.symm
  exact ⟨o, ho, hφ.symm⟩

theorem alike_modify {f : Object → Object} (x : Id) (h : ∀ o, φ (f o) = φ o) :
    Alike φ w (w.modify x f) := by
  refine ⟨?_, rfl⟩
  intro y
  rw [modify_object]
  split
  · cases w.object y with
    | none => rfl
    | some o => simp [h]
  · rfl

theorem alike_addRefs (h : ∀ (o : Object) n, φ { o with refcount := n } = φ o) :
    ∀ (xs : List Id) (w : World), Alike φ w (xs.foldl World.addRef w) := by
  intro xs
  induction xs with
  | nil => exact Alike.refl
  | cons x xs ih =>
    intro w
    exact (alike_modify x fun o => h o _).trans (ih (w.addRef x))

end Alike

/-- All of an object but its count of references, and the flag of a running invalidation. -/
def Object.still (o : Object) : Object := { o with refcount := 0, isInvalidating := false }

/-- All of an object but its count of references -/
def Object.quiet (o : Object) : Object := { o with refcount := 0 }

theorem Alike.still (h : Alike Object.quiet w w') : Alike Object.still w w' := by
  refine ⟨?_, h.fresh⟩
  intro x
  have hx := congrArg (Option.map Object.still) (h.object x)
  rw [Option.map_map, Option.map_map] at hx
  exact hx

/-- An instruction that leaves all that alone. -/
def Instr.Still : Instr → Prop
  | .parentSet _ _ | .unparent _ | .invalidateLoop _ [] | .unref _ | .unrefInternal _ |
    .free _ => False
  | _ => True

theorem startInvalidate_still (w : World) (x : Id) :
    Alike Object.still w (w.startInvalidate x).1 ∧ (w.startInvalidate x).1.held = w.held := by
  unfold World.startInvalidate
  split
  · exact ⟨Alike.refl w, rfl⟩
  split
  · exact ⟨Alike.refl w, rfl⟩
  split
  · exact ⟨alike_modify x fun _ => rfl, rfl⟩
  · exact ⟨alike_modify x fun _ => rfl, rfl⟩

theorem addRefs_held : ∀ (xs : List Id) (w : World), (xs.foldl World.addRef w).held = w.held := by
  intro xs
  induction xs with
  | nil =>
    intro w
    rfl
  | cons x xs ih =>
    intro w
    exact ih (w.addRef x)

variable {r : World × List Instr}

theorem exec_quiet (hi : i.Still) (hexec : exec w i = some r) :
    Alike Object.quiet w r.1 ∧ r.1.held = w.held := by
  cases exec_cases hexec with
  | call x parent o ho => exact ⟨alike_modify x fun _ => rfl, rfl⟩
  | invalidateChildren x o ho hchildren =>
    exact ⟨alike_addRefs (fun _ _ => rfl) _ w, addRefs_held _ w⟩
  | parentSet x parent r hset => exact hi.elim
  | unparent x o ho => exact hi.elim
  | invalidateEnd x hx => exact hi.elim
  | unref x => exact hi.elim
  | unrefInternal x r hunref => exact hi.elim
  | free x o ho => exact hi.elim
  | _ => exact ⟨Alike.refl w, rfl⟩

theorem exec_still (hi : i.Still) (hexec : exec w i = some r) :
    Alike Object.still w r.1 ∧ r.1.held = w.held :=
  ⟨(exec_quiet hi hexec).1.still, (exec_quiet hi hexec).2⟩

theorem del_quiet (w : World) (x : Id) : Alike Object.quiet w (w.del x).1 := by
  unfold World.del
  split
  · exact Alike.refl w
  · exact alike_modify x fun _ => rfl

theorem del_still (w : World) (x : Id) :
    Alike Object.still w (w.del x).1 ∧ (w.del x).1.held = w.held := by
  refine ⟨(del_quiet w x).still, ?_⟩
  unfold World.del
  split <;> rfl

/-- What `efl_unref` did. -/
inductive Unref (w : World) (x : Id) (owned : Bool) : World × List Instr → Prop where
  | gone : w.object x = none → Unref w x owned (w, [])
  /-- The last reference is the one of the parent. -/
  | fallback (o : Object) : w.object x = some o → o.userRefcount = 1 → o.hasParent = true →
      Unref w x owned (w.del x)
  | drop (o : Object) (r : World × List Instr) : w.object x = some o →
      ¬(o.userRefcount = 1 ∧ o.hasParent = true) →
      Alike Object.quiet (w.modify x fun o => { o with userRefcount := o.userRefcount - 1 }) r.1 →
      r.1.held = (if owned then w.unhold x else w).held →
      (∀ j ∈ r.2, j = .unrefInternal x) → r.2.length ≤ 2 → Unref w x owned r

theorem unref_cases (w : World) (x : Id) (owned : Bool) : Unref w x owned (w.unref x owned) := by
  unfold World.unref
  split
  · rename_i ho
    exact .gone ho
  rename_i o ho
  split
  · rename_i hlast
    exact .fallback o ho hlast.1 hlast.2
  rename_i hlast
  dsimp only
  have hdrop {is : List Instr} (his : ∀ j ∈ is, j = .unrefInternal x) (hlength : is.length ≤ 2) :
      Unref w x owned (if owned then (w.modify x fun o =>
          { o with refcount := o.refcount + 1, userRefcount := o.userRefcount - 1 }).unhold x
        else w.modify x fun o =>
          { o with refcount := o.refcount + 1, userRefcount := o.userRefcount - 1 }, is) := by
    refine .drop o _ ho hlast ?_ ?_ his hlength
    · have halike : Alike Object.quiet
          (w.modify x fun o => { o with userRefcount := o.userRefcount - 1 })
          (w.modify x fun o =>
            { o with refcount := o.refcount + 1, userRefcount := o.userRefcount - 1 }) := by
        refine ⟨?_, rfl⟩
        intro y
        rw [modify_object, modify_object]
        split
        · cases w.object y <;> rfl
        · rfl
      split
      · exact ⟨halike.object, halike.fresh⟩
      · exact halike
    · cases owned <;> rfl
  split
  · exact hdrop (by simp) (by simp)
  · exact hdrop (by simp) (by simp)

/-- What `_efl_unref` did. -/
inductive UnrefInternal (w : World) (x : Id) : World × List Instr → Prop where
  | stay (w' : World) : Alike Object.still w w' → w'.held = w.held → UnrefInternal w x (w', [])
  /-- The destruction starts. -/
  | trigger (o : Object) (r : World × List Instr) : w.object x = some o → o.userRefcount ≤ 0 →
      Alike Object.still (w.modify x fun o => { o with delTriggered := true }) r.1 →
      r.1.held = w.held →
      (r.2 = [.callParentSet x none, .delParent x] ∨ r.2 = [.delEvent x] ∨
        r.2 = [.user, .invalidateChildren x, .delEvent x]) → UnrefInternal w x r

/-- What the part of `_efl_unref_internal` that drops a reference can do, said once. -/
theorem unrefInternal_cases (h : w.unrefInternal x = some r) :
    UnrefInternal w x r := by
  unfold World.unrefInternal at h
  split at h
  · simp at h
  rename_i o ho
  dsimp only at h
  split at h
  · cases h
    exact .stay _ (alike_modify x fun _ => rfl) rfl
  rename_i hgone
  have hle : o.userRefcount ≤ 0 := by
    by_contra hpos
    exact hgone (.inr (.inl (by omega)))
  have halike : Alike Object.still (w.modify x fun o => { o with delTriggered := true })
      ((w.modify x fun o => { o with refcount := o.refcount - 1 }).modify x fun o =>
        { o with delTriggered := true, refcount := o.refcount + 1 }) := by
    refine ⟨?_, rfl⟩
    intro y
    rw [modify_object, modify_object, modify_object]
    split
    · cases w.object y <;> rfl
    · rfl
  have hheld : ((w.modify x fun o => { o with refcount := o.refcount - 1 }).modify x fun o =>
      { o with delTriggered := true, refcount := o.refcount + 1 }).held = w.held := rfl
  generalize (w.modify x fun o => { o with refcount := o.refcount - 1 }).modify x
    (fun o => { o with delTriggered := true, refcount := o.refcount + 1 }) = w1 at h halike hheld
  split at h
  · cases h
    exact .trigger o _ ho hle halike hheld (.inl rfl)
  split at h
  · obtain ⟨hstart, hheld'⟩ := startInvalidate_still w1 x
    obtain ⟨-, his⟩ := startInvalidate_spec w1 x
    generalize w1.startInvalidate x = s at h hstart hheld' his
    obtain ⟨w2, is⟩ := s
    cases h
    refine .trigger o _ ho hle (halike.trans hstart) (hheld'.trans hheld) (.inr ?_)
    rcases his with rfl | rfl
    · exact .inl rfl
    · exact .inr rfl
  · cases h
    exact .trigger o _ ho hle halike hheld (.inr (.inl rfl))

/-! ### Parents and children -/

namespace World

def hasParentOf (w : World) (x : Id) : Bool := ((w.object x).map (·.hasParent)).getD false

/-- An object leaves the children of its parent, and goes to those of another one, if any. -/
def relink (w : World) (x : Id) (parent : Option Id) : World :=
  { w with
    object := fun y => (w.object y).map fun o =>
      { o with
        parent := if y = x then parent else o.parent
        hasParent := if y = x then parent.isSome else o.hasParent
        children := (if w.parentOf x = some y then o.children.erase x else o.children) ++
          if parent = some y then [x] else [] } }

theorem relink_none_iff (parent : Option Id) : (w.relink x parent).object y = none ↔
    w.object y = none := by
  exact map_eq_none_iff

theorem parentOf_some (ho : w.object x = some o) : w.parentOf x = o.parent := by
  rw [parentOf, ho, bind_some]

theorem childrenOf_some (ho : w.object x = some o) : w.childrenOf x = o.children := by
  rw [childrenOf, ho, map_some, getD_some]

theorem hasParentOf_some (ho : w.object x = some o) : w.hasParentOf x = o.hasParent := by
  rw [hasParentOf, ho, map_some, getD_some]

theorem parentOf_relink (parent : Option Id) (hx : w.object x ≠ none) :
    (w.relink x parent).parentOf y = if y = x then parent else w.parentOf y := by
  unfold parentOf relink
  dsimp only
  by_cases hy : y = x
  · rw [hy, if_pos rfl]
    obtain ⟨o, ho⟩ := ne_none_iff_exists'.mp hx
    rw [ho, map_some, bind_some, if_pos rfl]
  · rw [if_neg hy]
    cases w.object y with
    | none => rfl
    | some o => rw [map_some, bind_some, bind_some, if_neg hy]

theorem childrenOf_relink (parent : Option Id) (hy : w.object y ≠ none) :
    (w.relink x parent).childrenOf y =
      (if w.parentOf x = some y then (w.childrenOf y).erase x else w.childrenOf y) ++
        if parent = some y then [x] else [] := by
  obtain ⟨o, ho⟩ := ne_none_iff_exists'.mp hy
  rw [childrenOf_some ho, childrenOf, relink]
  dsimp only
  rw [ho, map_some, map_some, getD_some]

theorem parentOf_free : (w.free x).parentOf y = if y = x then none else w.parentOf y := by
  unfold parentOf
  rw [free_object]
  split <;> rfl

theorem childrenOf_free : (w.free x).childrenOf y = if y = x then [] else w.childrenOf y := by
  unfold childrenOf
  rw [free_object]
  split <;> rfl

theorem hasParentOf_free :
    (w.free x).hasParentOf y = if y = x then false else w.hasParentOf y := by
  unfold hasParentOf
  rw [free_object]
  split <;> rfl

theorem free_ne_none (h : (w.free x).object y ≠ none) : y ≠ x ∧ w.object y ≠ none := by
  rw [free_object] at h
  split at h
  · exact absurd rfl h
  · rename_i hyx
    exact ⟨hyx, h⟩

theorem hasParentOf_relink (parent : Option Id) (hx : w.object x ≠ none) :
    (w.relink x parent).hasParentOf y = if y = x then parent.isSome else w.hasParentOf y := by
  unfold hasParentOf relink
  dsimp only
  by_cases hy : y = x
  · rw [hy, if_pos rfl]
    obtain ⟨o, ho⟩ := ne_none_iff_exists'.mp hx
    rw [ho]
    exact if_pos rfl
  · rw [if_neg hy]
    cases w.object y with
    | none => rfl
    | some o =>
      exact if_neg hy

end World

/-- Parents and children agree, and only objects that were created are named. -/
structure Tree (w : World) : Prop where
  fresh : ∀ x, w.fresh ≤ x → w.object x = none
  listed : ∀ x p, w.object x ≠ none → w.object p ≠ none →
    (w.childrenOf p).count x = if w.parentOf x = some p then 1 else 0
  hasParent : ∀ x, w.hasParentOf x = (w.parentOf x).isSome
  parents : ∀ x p, w.parentOf x = some p → p < w.fresh
  members : ∀ x p, x ∈ w.childrenOf p → x < w.fresh

theorem Tree.lt (h : Tree w) (hx : w.object x ≠ none) : x < w.fresh := by
  by_contra hle
  exact hx (h.fresh x (Nat.le_of_not_lt hle))

/-- The part of an object that the tree is made of. -/
def Object.links (o : Object) : Option Id × List Id × Bool := (o.parent, o.children, o.hasParent)

theorem Alike.links (h : Alike Object.still w w') : Alike Object.links w w' := by
  refine ⟨?_, h.fresh⟩
  intro x
  have hx := congrArg (Option.map Object.links) (h.object x)
  rw [Option.map_map, Option.map_map] at hx
  exact hx

theorem Alike.parentOf (h : Alike Object.links w w') (x : Id) : w'.parentOf x = w.parentOf x := by
  have hx := congrArg (fun l => l.bind fun t => t.1) (h.object x)
  rw [bind_map, bind_map] at hx
  exact hx

theorem Alike.childrenOf (h : Alike Object.links w w') (x : Id) :
    w'.childrenOf x = w.childrenOf x := by
  have hx := congrArg (fun l => (l.map fun t => t.2.1).getD []) (h.object x)
  rw [Option.map_map, Option.map_map] at hx
  exact hx

theorem Alike.hasParentOf (h : Alike Object.links w w') (x : Id) :
    w'.hasParentOf x = w.hasParentOf x := by
  have hx := congrArg (fun l => (l.map fun t => t.2.2).getD false) (h.object x)
  rw [Option.map_map, Option.map_map] at hx
  exact hx

theorem Tree.alike (h : Tree w) (halike : Alike Object.links w w') : Tree w' := by
  constructor
  · intro x hx
    rw [halike.fresh] at hx
    exact (halike.none_iff x).mpr (h.fresh x hx)
  · intro x p hx hp
    rw [halike.childrenOf, halike.parentOf]
    exact h.listed x p (mt (halike.none_iff x).mpr hx) (mt (halike.none_iff p).mpr hp)
  · intro x
    rw [halike.hasParentOf, halike.parentOf]
    exact h.hasParent x
  · intro x p hp
    rw [halike.parentOf] at hp
    rw [halike.fresh]
    exact h.parents x p hp
  · intro x p hx
    rw [halike.childrenOf] at hx
    rw [halike.fresh]
    exact h.members x p hx

variable {parent : Option Id}

/-- Moving an object to another parent keeps the tree. -/
theorem Tree.relink (h : Tree w) (hx : w.object x ≠ none)
    (hparent : ∀ p, parent = some p → w.object p ≠ none) : Tree (w.relink x parent) := by
  constructor
  · intro y hy
    exact (relink_none_iff parent).mpr (h.fresh y hy)
  · intro y p hy hp
    rw [Ne, relink_none_iff] at hy hp
    rw [childrenOf_relink parent hp, parentOf_relink parent hx, count_append]
    have hlisted := h.listed y p hy hp
    by_cases hyx : y = x
    · rw [hyx] at hlisted ⊢
      rw [if_pos rfl]
      have hleft : (if w.parentOf x = some p then (w.childrenOf p).erase x
          else w.childrenOf p).count x = 0 := by
        split
        · rename_i hold
          rw [count_erase_self, hlisted, if_pos hold]
        · rename_i hold
          rw [hlisted, if_neg hold]
      rw [hleft]
      split
      · simp
      · simp
    · have hleft : (if w.parentOf x = some p then (w.childrenOf p).erase x
          else w.childrenOf p).count y = (w.childrenOf p).count y := by
        split
        · exact count_erase_of_ne hyx
        · rfl
      have hright : (if parent = some p then [x] else []).count y = 0 := by
        split
        · simp [Ne.symm hyx]
        · rfl
      rw [hleft, hright, if_neg hyx, hlisted, Nat.add_zero]
  · intro y
    rw [hasParentOf_relink parent hx, parentOf_relink parent hx]
    split
    · rfl
    · exact h.hasParent y
  · intro y p hp
    rw [parentOf_relink parent hx] at hp
    split at hp
    · exact h.lt (hparent p hp)
    · exact h.parents y p hp
  · intro y p hy
    have hlive : w.object p ≠ none := by
      intro hnone
      have hdead := (relink_none_iff (x := x) parent).mpr hnone
      rw [World.childrenOf, hdead] at hy
      simp at hy
    rw [childrenOf_relink parent hlive, mem_append] at hy
    rcases hy with hy | hy
    · refine h.members y p ?_
      split at hy
      · exact mem_of_mem_erase hy
      · exact hy
    · split at hy
      · rw [mem_singleton.mp hy]
        exact h.lt hx
      · simp at hy

/-! ### `efl_parent_set` -/

theorem unlink_cases (w : World) (x : Id) :
    (∃ p, w.parentOf x = some p ∧ w.object p = none ∧ w.unlink x = none) ∨
      (∃ w1, w.unlink x = some w1 ∧ w1.held = w.held ∧ w1.fresh = w.fresh ∧
        ∀ y, w1.object y = (w.object y).map fun o =>
          { o with children :=
              if w.parentOf x = some y then o.children.erase x else o.children }) := by
  unfold World.unlink
  split
  · rename_i hparent
    rw [World.parentOf, hparent]
    simp
  rename_i p hparent
  split
  · rename_i hp
    exact .inl ⟨p, hparent, hp, rfl⟩
  refine .inr ⟨_, rfl, rfl, rfl, ?_⟩
  intro y
  rw [World.parentOf, hparent, modify_object]
  by_cases hy : y = p
  · rw [hy]
    simp
  · rw [if_neg hy]
    simp [Ne.symm hy]

theorem World.relink_eq (hfresh : w'.fresh = w.fresh) (hheld : w'.held = w.held)
    (h : ∀ y, w'.object y = (w.relink x parent).object y) : w' = w.relink x parent := by
  obtain ⟨object, fresh, held⟩ := w'
  obtain rfl : object = (w.relink x parent).object := funext h
  dsimp only at hfresh hheld
  rw [hfresh, hheld]
  rfl

/-- What taking an object from its parent did. -/
inductive Unparent (w : World) (x : Id) : World × List Instr → Prop where
  /-- The parent does not exist any more. -/
  | lost (p : Id) : w.parentOf x = some p → w.object p = none → Unparent w x (w, [])
  | dying (o : Object) : w.object x = some o → o.delTriggered = true →
      Unparent w x (w.relink x none, [])
  | drop (o : Object) (r : World × List Instr) : w.object x = some o → o.delTriggered = false →
      Unref (w.relink x none) x false r → Unparent w x r

theorem unparent_cases (ho : w.object x = some o) : Unparent w x (w.unparent x) := by
  unfold World.unparent
  rcases unlink_cases w x with ⟨p, hparent, hp, hunlink⟩ | ⟨w1, hunlink, hheld, hfresh, hobject⟩
  · rw [hunlink]
    exact .lost p hparent hp
  rw [hunlink]
  have hrelink : (w1.modify x fun o => { o with parent := none, hasParent := false }) =
      w.relink x none := by
    refine relink_eq hfresh hheld ?_
    intro y
    rw [modify_object, hobject, World.relink]
    dsimp only
    by_cases hy : y = x
    · cases w.object y <;> simp [hy]
    · cases w.object y <;> simp [hy]
  dsimp only
  rw [hrelink]
  split
  · rename_i hnone
    rw [relink_none_iff, ho] at hnone
    simp at hnone
  rename_i o' ho'
  have hdying : o'.delTriggered = o.delTriggered := by
    unfold World.relink at ho'
    dsimp only at ho'
    rw [ho] at ho'
    rw [← some.inj ho']
  split
  · rename_i h
    rw [hdying] at h
    exact .dying o ho h
  · rename_i h
    rw [hdying] at h
    exact .drop o _ ho (by simpa using h) (unref_cases _ x false)

/-- `efl_parent_set` gives the object a parent. -/
def World.Attaches (w : World) (x p : Id) : Prop :=
  ∃ o ∈ w.object x, ∃ po ∈ w.object p,
    o.parent ≠ some p ∧ po.invalidate = false ∧ x ≠ p ∧ o.invalidate = false

instance (w : World) (x p : Id) : Decidable (w.Attaches x p) :=
  inferInstanceAs (Decidable (∃ o ∈ w.object x, ∃ po ∈ w.object p, _))

/-- What `_efl_object_parent_set` did. -/
inductive ParentSet (w : World) (x : Id) (o : Object) : Option Id → World × List Instr → Prop where
  | stay (parent : Option Id) : (parent = none → o.parent = none ∨ o.invalidate = true) →
      ParentSet w x o parent (w, [])
  | attach (p : Id) (po : Object) : w.object p = some po → o.parent ≠ some p →
      po.invalidate = false → x ≠ p → o.invalidate = false →
      ParentSet w x o (some p)
        (if o.parent = none then (w.relink x (some p)).ref x else w.relink x (some p), [])
  /-- The object is being invalidated already. -/
  | detach (r : World × List Instr) : o.parent ≠ none → o.invalidate = false →
      o.isInvalidating = true → Unparent w x r → ParentSet w x o none r
  | start : o.parent ≠ none → o.invalidate = false → o.isInvalidating = false →
      ParentSet w x o none
        (w.modify x fun o => { o with isInvalidating := true },
          [.user, .invalidateChildren x, .unparent x])

/-- What `_efl_object_parent_set` can do, said once. -/
theorem parentSet_cases (h : w.parentSet x parent = some r) :
    ∃ o, w.object x = some o ∧ ParentSet w x o parent r := by
  unfold World.parentSet at h
  split at h
  · simp at h
  rename_i o ho
  refine ⟨o, ho, ?_⟩
  split at h
  · rename_i hsame
    cases h
    refine .stay parent ?_
    intro hnone
    exact .inl (hsame.trans hnone)
  rename_i hother
  split at h
  · -- a new parent
    rename_i p
    split at h
    · cases h
      exact .stay _ fun hnone => absurd hnone (by simp)
    rename_i po hpo
    split at h
    · cases h
      exact .stay _ fun hnone => absurd hnone (by simp)
    rename_i hbad
    rw [not_or, not_or, Bool.not_eq_true, Bool.not_eq_true] at hbad
    rcases unlink_cases w x with ⟨q, hparent, hq, hunlink⟩ | ⟨w1, hunlink, hheld, hfresh, hobject⟩
    · rw [hunlink] at h
      cases h
      exact .stay _ fun hnone => absurd hnone (by simp)
    rw [hunlink] at h
    obtain ⟨-, ⟨⟩⟩ := Option.ite_none_right_eq_some.mp h
    have hrelink : ((w1.modify x fun o => { o with parent := some p, hasParent := true }).modify p
        fun o => { o with children := o.children ++ [x] }) = w.relink x (some p) := by
      refine relink_eq hfresh hheld ?_
      intro y
      rw [modify_object, modify_object, hobject, World.relink]
      dsimp only
      by_cases hy : y = p
      · have hyx : ¬p = x := fun heq => hbad.2.1 heq.symm
        cases w.object y <;> simp [hy, hyx]
      rw [if_neg hy]
      by_cases hyx : y = x
      · cases w.object y <;> simp [hyx, Ne.symm hbad.2.1]
      · cases w.object y <;> simp [hyx, Ne.symm hy]
    have hattach : w1.attach x p (decide (o.parent = none)) =
        if o.parent = none then (w.relink x (some p)).ref x else w.relink x (some p) := by
      unfold World.attach
      rw [hrelink]
      by_cases hnone : o.parent = none
      · rw [if_pos (decide_eq_true hnone), if_pos hnone]
      · rw [if_neg (by simpa using hnone), if_neg hnone]
    rw [hattach]
    exact .attach p po hpo hother hbad.1 hbad.2.1 hbad.2.2
  · -- no parent any more
    split at h
    · rename_i hinvalid
      cases h
      exact .stay _ fun _ => .inr hinvalid
    rename_i hvalid
    rw [Bool.not_eq_true] at hvalid
    unfold World.startInvalidate at h
    rw [ho] at h
    dsimp only at h
    by_cases hrunning : o.isInvalidating
    · rw [if_pos hrunning] at h
      obtain ⟨-, ⟨⟩⟩ := Option.ite_none_right_eq_some.mp h
      exact .detach _ hother hvalid hrunning (unparent_cases ho)
    · rw [if_neg hrunning, hvalid] at h
      cases h
      exact .start hother hvalid (by simpa using hrunning)

/-! ### What one instruction did to the objects -/

inductive Change (w : World) : Instr → World × List Instr → Prop where
  | still (i : Instr) (r : World × List Instr) : Alike Object.still w r.1 → r.1.held = w.held →
      Change w i r
  | parentSet (x : Id) (parent : Option Id) (o : Object) (r : World × List Instr) :
      w.object x = some o → ParentSet w x o parent r → Change w (.parentSet x parent) r
  | unparent (x : Id) (o : Object) (r : World × List Instr) : w.object x = some o →
      Unparent w x r → Change w (.unparent x) r
  | invalidate (x : Id) : Change w (.invalidateLoop x [])
      (w.modify x fun o => { o with invalidate := true }, [])
  | unref (x : Id) (r : World × List Instr) : Unref w x true r → Change w (.unref x) r
  | trigger (x : Id) (o : Object) (r : World × List Instr) : w.object x = some o →
      o.userRefcount ≤ 0 →
      Alike Object.still (w.modify x fun o => { o with delTriggered := true }) r.1 →
      r.1.held = w.held → Change w (.unrefInternal x) r
  | free (x : Id) (o : Object) : w.object x = some o → Change w (.free x)
      (w.free x, [])

theorem exec_change (hexec : exec w i = some r) : Change w i r := by
  by_cases hi : i.Still
  · obtain ⟨hstill, hheld⟩ := exec_still hi hexec
    exact .still i r hstill hheld
  cases exec_cases hexec with
  | parentSet x parent r hset =>
    obtain ⟨o, ho, hset⟩ := parentSet_cases hset
    exact .parentSet x parent o r ho hset
  | unparent x o ho => exact .unparent x o _ ho (unparent_cases ho)
  | invalidateEnd x hx => exact .invalidate x
  | unref x => exact .unref x _ (unref_cases w x true)
  | unrefInternal x r hunref =>
    cases unrefInternal_cases hunref with
    | stay w' halike hheld => exact .still _ _ halike hheld
    | trigger o r ho hle halike hheld his => exact .trigger x o r ho hle halike hheld
  | free x o ho => exact .free x o ho
  | _ => exact absurd trivial hi

/-! ### What comes to the stack -/

theorem hasParent_iff (htree : Tree w) (ho : w.object x = some o) :
    o.hasParent = true ↔ o.parent ≠ none := by
  have hx := htree.hasParent x
  rw [hasParentOf_some ho, parentOf_some ho] at hx
  rw [hx, isSome_iff_ne_none]

variable {j : Instr} {m m' : Machine} {owned : Bool} {op : Op}

theorem mem_del (ho : w.object x = some o) (hj : j ∈ (w.del x).2) :
    (j = .unref x ∧ o.parent = none) ∨ j = .callParentSet x none ∨ j = .unrefInternal x := by
  unfold World.del at hj
  rw [ho] at hj
  rw [mem_cons, mem_singleton] at hj
  rcases hj with hj | hj
  · split at hj
    · rename_i hparent
      exact .inl ⟨hj, hparent⟩
    · exact .inr (.inl hj)
  · exact .inr (.inr hj)

theorem mem_unref (htree : Tree w) (h : Unref w x owned r) (hj : j ∈ r.2) :
    j = .callParentSet x none ∨ j = .unrefInternal x := by
  cases h with
  | gone hnone => simp at hj
  | fallback o ho hone hparent =>
    rcases mem_del ho hj with ⟨-, hnone⟩ | hj
    · exact absurd hnone ((hasParent_iff htree ho).mp hparent)
    · exact hj
  | drop o r ho hlast halike hheld his hlength => exact .inr (his j hj)

theorem mem_unparent (htree : Tree w) (h : Unparent w x r) (hj : j ∈ r.2) :
    j = .callParentSet x none ∨ j = .unrefInternal x := by
  cases h with
  | lost p hparent hp => simp at hj
  | dying o ho hdying => simp at hj
  | drop o r ho hdying hunref =>
    exact mem_unref (htree.relink (by simp [ho]) (by simp)) hunref hj

/-- The instructions that an instruction may leave behind. -/
@[grind =]
def Instr.Leads : Instr → Instr → Prop
  | .callParentSet x parent, j => j = .parentSet x parent ∨ j = .unrefInternal x
  | .parentSet x _, j =>
    j = .user ∨ j = .invalidateChildren x ∨ j = .unparent x ∨ j = .callParentSet x none ∨
      j = .unrefInternal x
  | .unparent x, j | .unref x, j => j = .callParentSet x none ∨ j = .unrefInternal x
  | .invalidateChildren x, j => ∃ stash, j = .invalidateLoop x stash
  | .invalidateLoop x (c :: stash), j => j = .callParentSet c none ∨ j = .invalidateNext x c stash
  | .invalidateNext x c stash, j => j = .unrefInternal c ∨ j = .invalidateLoop x stash
  | .invalidateMethod x, j => j = .callParentSet x none
  | .unrefInternal x, j =>
    j = .user ∨ j = .invalidateChildren x ∨ j = .callParentSet x none ∨ j = .delParent x ∨
      j = .delEvent x
  | .delParent x, j => j = .parentSet x none ∨ j = .delEvent x
  | .delEvent x, j => j = .user ∨ j = .destructor x
  | .destructor x, j => j = .destructorParent x ∨ ∃ next, j = .destructorLoop x next
  | .destructorLoop x _, j =>
    (∃ c, j = .callParentSet c none) ∨ j = .destructorParent x ∨ ∃ next, j = .destructorLoop x next
  | .destructorParent x, j => j = .callParentSet x none ∨ j = .user ∨ j = .free x
  | _, _ => False

theorem exec_leads (htree : Tree w) (hexec : exec w i = some r) :
    ∀ j ∈ r.2, i.Leads j := by
  cases exec_cases hexec with
  | parentSet x parent r hset =>
    obtain ⟨o, ho, hset⟩ := parentSet_cases hset
    cases hset with
    | stay parent hstay => simp
    | attach p po hpo hother hvalid hne hself => simp
    | detach r hparent hvalid hrunning hunparent =>
      intro j hj
      exact .inr (.inr (.inr (mem_unparent htree hunparent hj)))
    | start hparent hvalid hrunning => simp [Instr.Leads]
  | unparent x o ho => exact fun j hj => mem_unparent htree (unparent_cases ho) hj
  | unref x => exact fun j hj => mem_unref htree (unref_cases w x true) hj
  | unrefInternal x r hunref =>
    cases unrefInternal_cases hunref with
    | stay w' halike hheld => simp
    | trigger o r ho hle halike hheld his =>
      rcases his with his | his | his
      · rw [his]
        simp [Instr.Leads]
      · rw [his]
        simp [Instr.Leads]
      · rw [his]
        simp [Instr.Leads]
  | invalidateMethod x o ho | delParent x o ho | destructor x o ho | destructorParent x o ho =>
    split
    · simp [Instr.Leads]
    · simp [Instr.Leads]
  | _ => simp [Instr.Leads]

/-! ### What only a new parent brings about -/

theorem Unref.links (h : Unref w x owned r) :
    Alike Object.links w r.1 := by
  cases h with
  | gone hnone => exact Alike.refl w
  | fallback o ho hone hparent => exact (del_still w x).1.links
  | drop o r ho hlast halike hheld his hlength =>
    refine Alike.trans ?_ halike.still.links
    exact alike_modify x fun _ => rfl

/-- What only linking `a` to the parent `b` can bring about. -/
structure Arises (P : World → Prop) (a b : Id) : Prop where
  links : ∀ {u u' : World}, P u' → Alike Object.links u u' → P u
  relink : ∀ {u : World} {x : Id} {parent : Option Id}, u.object x ≠ none →
    P (u.relink x parent) → P u ∨ x = a ∧ parent = some b
  free : ∀ {u : World} {x : Id}, P (u.free x) → P u

namespace Arises

variable {P : World → Prop} {a b : Id}

theorem unparent (hP : Arises P a b) (h : Unparent w x r) (hr : P r.1) : P w := by
  have hrelink (hx : w.object x ≠ none) (h : P (w.relink x none)) : P w :=
    (hP.relink hx h).resolve_right fun hnone => absurd hnone.2 (by simp)
  cases h with
  | lost p hparent hp => exact hr
  | dying o ho hdying => exact hrelink (by simp [ho]) hr
  | drop o r ho hdying hunref => exact hrelink (by simp [ho]) (hP.links hr hunref.links)

theorem exec (hP : Arises P a b) (hexec : exec w i = some r) (hr : P r.1) :
    P w ∨ (i = .parentSet a (some b) ∧ w.Attaches a b) := by
  cases exec_change hexec with
  | still i r hstill hheld => exact .inl (hP.links hr hstill.links)
  | parentSet x parent o r ho hset =>
    cases hset with
    | stay parent hstay => exact .inl hr
    | attach p po hpo hother hvalid hne hself =>
      have hlinked : P (w.relink x (some p)) := by
        split at hr
        · exact hP.links hr (alike_modify x fun _ => rfl)
        · exact hr
      rcases hP.relink (by simp [ho]) hlinked with hold | ⟨rfl, hp⟩
      · exact .inl hold
      · obtain rfl := some.inj hp
        exact .inr ⟨rfl, o, ho, po, hpo, hother, hvalid, hne, hself⟩
    | detach r hsome hvalid hrunning hunparent => exact .inl (hP.unparent hunparent hr)
    | start hsome hvalid hrunning => exact .inl (hP.links hr (alike_modify x fun _ => rfl))
  | unparent x o r ho hunparent => exact .inl (hP.unparent hunparent hr)
  | invalidate x => exact .inl (hP.links hr (alike_modify x fun _ => rfl))
  | unref x r hunref => exact .inl (hP.links hr hunref.links)
  | trigger x o r ho hle halike hheld =>
    exact .inl (hP.links (hP.links hr halike.links) (alike_modify x fun _ => rfl))
  | free x o ho => exact .inl (hP.free hr)

end Arises

/-! ### Every step keeps the tree -/

theorem step_cases (h : m.step op = some m') :
    (∃ c r, op = .call c ∧ UserTurn m.stack ∧ call m.world c = some r ∧
        m' = ⟨r.1, r.2 ++ m.stack⟩) ∨
      (∃ rest, op = .ret ∧ m.stack = .user :: rest ∧ m' = ⟨m.world, rest⟩) ∨
      ∃ i rest r, op = .go ∧ m.stack = i :: rest ∧ exec m.world i = some r ∧
        m' = ⟨r.1, r.2 ++ rest⟩ := by
  obtain ⟨w, stack⟩ := m
  unfold Machine.step at h
  cases op with
  | call c =>
    dsimp only at h
    split at h
    · rename_i hturn
      obtain ⟨r, hr, rfl⟩ := map_eq_some_iff.mp h
      exact .inl ⟨c, r, rfl, hturn, hr, rfl⟩
    · simp at h
  | ret =>
    dsimp only at h
    split at h
    · cases h
      exact .inr (.inl ⟨_, rfl, rfl, rfl⟩)
    · simp at h
  | go =>
    dsimp only at h
    split at h
    · simp at h
    · obtain ⟨r, hr, rfl⟩ := map_eq_some_iff.mp h
      exact .inr (.inr ⟨_, _, r, rfl, rfl, hr, rfl⟩)

/-- A property of worlds that only the links between objects decide. -/
structure Structural (P : World → Prop) : Prop where
  alike : ∀ {w w' : World}, P w → Alike Object.links w w' → P w'
  relink : ∀ {w : World} {x : Id} {parent : Option Id}, P w → w.object x ≠ none →
    (∀ p, parent = some p → w.object p ≠ none) → P (w.relink x parent)

theorem tree_structural : Structural Tree := ⟨Tree.alike, Tree.relink⟩

variable {P : World → Prop}

theorem Unparent.keeps (hP : Structural P) (h : Unparent w x r) (hw : P w) : P r.1 := by
  cases h with
  | lost p hparent hp => exact hw
  | dying o ho hdying => exact hP.relink hw (by simp [ho]) (by simp)
  | drop o r ho hdying hunref =>
    exact hP.alike (hP.relink hw (by simp [ho]) (by simp)) hunref.links

theorem ParentSet.keeps (hP : Structural P) (ho : w.object x = some o)
    (h : ParentSet w x o parent r) (hw : P w) : P r.1 := by
  cases h with
  | stay parent hstay => exact hw
  | attach p po hpo hother hvalid hne hself =>
    have hrelink : P (w.relink x (some p)) := by
      refine hP.relink hw (by simp [ho]) ?_
      intro q hq
      rw [← some.inj hq, hpo]
      simp
    split
    · exact hP.alike hrelink (alike_modify x fun _ => rfl)
    · exact hrelink
  | detach r hparent hvalid hrunning hunparent => exact hunparent.keeps hP hw
  | start hparent hvalid hrunning => exact hP.alike hw (alike_modify x fun _ => rfl)

/-- **One instruction keeps what the links decide**, where the end of an object keeps it. -/
theorem exec_keeps (hP : Structural P) (hw : P w)
    (hfree : ∀ x, i = .free x → P (w.free x)) (hexec : exec w i = some r) : P r.1 := by
  cases exec_change hexec with
  | still i r hstill hheld => exact hP.alike hw hstill.links
  | parentSet x parent o r ho hset => exact hset.keeps hP ho hw
  | unparent x o r ho hunparent => exact hunparent.keeps hP hw
  | invalidate x => exact hP.alike hw (alike_modify x fun _ => rfl)
  | unref x r hunref => exact hP.alike hw hunref.links
  | trigger x o r ho hle halike hheld =>
    refine hP.alike (hP.alike hw ?_) halike.links
    exact alike_modify x fun _ => rfl
  | free x o ho => exact hfree x rfl

/-- **One step keeps what the links decide**, where the two ends of an object's life keep it. -/
theorem step_keeps (hP : Structural P) (hw : P m.world)
    (hadd : ∀ parent isRef, P (m.world.add parent isRef).1)
    (hfree : ∀ x rest, op = .go → m.stack = .free x :: rest → P (m.world.free x))
    (hstep : m.step op = some m') : P m'.world := by
  rcases step_cases hstep with ⟨c, r, -, -, hcall, rfl⟩ | ⟨rest, -, -, rfl⟩ |
    ⟨i, rest, r, hop, hstack, hexec, rfl⟩
  · cases c with
    | add parent isRef =>
      cases hcall
      exact hadd parent isRef
    | parentSet x parent =>
      exact exec_keeps (i := .callParentSet x parent) hP hw (fun _ hi => by simp at hi) hcall
    | del x =>
      cases hcall
      exact hP.alike hw (del_still m.world x).1.links
    | ref x =>
      simp only [call] at hcall
      split at hcall
      · cases hcall
        exact hw
      cases hcall
      have halike : Alike Object.links m.world (m.world.ref x) := alike_modify x fun _ => rfl
      exact hP.alike hw ⟨halike.object, halike.fresh⟩
    | unref x => exact exec_keeps (i := .unref x) hP hw (fun _ hi => by simp at hi) hcall
    | invalidate x =>
      simp only [call] at hcall
      split at hcall
      · cases hcall
        exact hw
      · cases hcall
        exact hP.alike hw (alike_modify x fun _ => rfl)
  · exact hw
  · exact exec_keeps hP hw (fun x hi => hfree x rest hop (by rw [hstack, hi])) hexec

theorem Tree.free (h : Tree w) : Tree (w.free x) := by
  constructor
  · intro y hy
    rw [free_object, h.fresh y hy, ite_self]
  · intro y p hy hp
    obtain ⟨hyx, hy⟩ := free_ne_none hy
    obtain ⟨hpx, hp⟩ := free_ne_none hp
    rw [childrenOf_free, parentOf_free, if_neg hyx, if_neg hpx]
    exact h.listed y p hy hp
  · intro y
    rw [hasParentOf_free, parentOf_free]
    split
    · rfl
    · exact h.hasParent y
  · intro y p hp
    rw [parentOf_free] at hp
    exact h.parents y p (Option.ite_none_left_eq_some.mp hp).2
  · intro y p hy
    rw [childrenOf_free] at hy
    split at hy
    · simp at hy
    · exact h.members y p hy

/-- So does a new object. -/
theorem Tree.add (h : Tree w) (parent : Option Id) (isRef : Bool) :
    Tree (w.add parent isRef).1 := by
  unfold World.add
  split
  · exact h
  have hobject (y : Id) (hy : y ≠ w.fresh)
      (hlive : (if y = w.fresh then some newObject else w.object y) ≠ none) :
        w.object y ≠ none := by
    rwa [if_neg hy] at hlive
  constructor
  · intro y hy
    have hlt : w.fresh < y := hy
    dsimp only
    rw [if_neg (Nat.ne_of_gt hlt)]
    exact h.fresh y (Nat.le_of_lt hlt)
  · intro y p hy hp
    unfold World.childrenOf World.parentOf
    by_cases hyx : y = w.fresh
    · -- nobody knows the new object yet
      have hnew : ¬newObject.parent = some p := by simp [newObject]
      simp only [hyx, if_true, bind_some]
      rw [if_neg hnew, count_eq_zero]
      intro hmem
      split at hmem
      · simp [newObject] at hmem
      · exact absurd (h.members w.fresh p hmem) (Nat.lt_irrefl _)
    · simp only [if_neg hyx]
      by_cases hpx : p = w.fresh
      · rw [if_pos hpx, hpx, if_neg]
        · simp [newObject]
        · intro hparent
          exact absurd (h.parents y w.fresh hparent) (Nat.lt_irrefl _)
      · rw [if_neg hpx]
        exact h.listed y p (hobject y hyx hy) (hobject p hpx hp)
  · intro y
    unfold World.hasParentOf World.parentOf
    dsimp only
    split
    · rfl
    · exact h.hasParent y
  · intro y p hp
    unfold World.parentOf at hp
    dsimp only at hp ⊢
    split at hp
    · simp [newObject] at hp
    · exact Nat.lt_succ_of_lt (h.parents y p hp)
  · intro y p hy
    unfold World.childrenOf at hy
    dsimp only at hy ⊢
    split at hy
    · simp [newObject] at hy
    · exact Nat.lt_succ_of_lt (h.members y p hy)

/-- **One step keeps the tree.** -/
theorem step_tree (h : Tree m.world) (hstep : m.step op = some m') :
    Tree m'.world :=
  step_keeps tree_structural h h.add (fun _ _ _ _ => h.free) hstep

theorem start_tree : Tree start.world := by
  constructor
  · intro x _
    rfl
  · intro x p hx
    exact absurd rfl hx
  · intro x
    rfl
  · intro x p hp
    simp [World.parentOf, start] at hp
  · intro x p hx
    simp [World.childrenOf, start] at hx

end Eo.Life
