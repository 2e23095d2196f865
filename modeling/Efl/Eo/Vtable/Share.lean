/-
Arrays are shared, and calls do not notice.

An array that the table of an object points to is either that of its class, in the same place, or
it belongs to that place alone.  So what is written to or freed when the functions of an object
are overridden is in no table of a class or of another object, and a new class writes to its own
arrays only.
-/
import Efl.Eo.Vtable.Override
import Efl.Eo.Vtable.Resolve
import Efl.Lib.Runs

namespace Eo.Vtable

open List Option Heap

/-! ### Freeing a table -/

/-- The array of a node that `_vtable_free` frees. -/
def Freed (v root : List Node) (i : Nat) (a : Addr) : Prop :=
  ∃ node rootNode : Node, v[i]? = some node ∧ root[i]? = some rootNode ∧
    rootNode.funcs ≠ node.funcs ∧ node.count ≠ 0 ∧ node.funcs = .array a

variable {h : Heap}

theorem vtableFree_eq {v root : List Node} (hlength : v.length = root.length)
    (hcounted : ∀ (i : Nat) (node : Node), v[i]? = some node → node.count ≠ 0 →
      ∃ a, node.funcs = .array a)
    (hlive : ∀ i a, Freed v root i a → ∃ cells, h.array a = some cells)
    (happart : ∀ i i' a, Freed v root i a → Freed v root i' a → i = i') :
    ∃ h', vtableFree h v root = some h' ∧ h'.length = h.length ∧
      ∀ a, (∀ i, ¬Freed v root i a) → h'.array a = h.array a := by
  obtain ⟨h', heach, hsize, hothers, -⟩ := Loop.each_ends_never (f := freeNode root)

    (I := fun k h' => h'.length = h.length ∧
      (∀ a, (∀ i, ¬Freed v root i a) → h'.array a = h.array a) ∧
      ∀ i a, k ≤ i → Freed v root i a → h'.array a = h.array a)
    (by
      rintro k node h1 hnode ⟨hsize, hothers, hrest⟩
      have hk : k < root.length := by
        rw [← hlength]
        exact (List.getElem?_eq_some_iff.mp hnode).1
      obtain ⟨rootNode, hrootNode⟩ : ∃ rootNode, root[k]? = some rootNode :=
        ⟨_, getElem?_eq_getElem hk⟩
      unfold freeNode
      rw [hrootNode]
      dsimp only
      by_cases hskip : rootNode.funcs = node.funcs ∨ node.count = 0
      · rw [if_pos hskip]
        exact ⟨h1, rfl, hsize, hothers, fun i a hi => hrest i a (by omega)⟩
      rw [if_neg hskip]
      obtain ⟨hdiffers, hcount⟩ := not_or.mp hskip
      obtain ⟨a, ha⟩ := hcounted k node hnode hcount
      have hfreed : Freed v root k a := ⟨node, rootNode, hnode, hrootNode, hdiffers, hcount, ha⟩
      obtain ⟨cells, hcells⟩ := hlive k a hfreed
      have hcells1 : h1.array a = some cells := (hrest k a (le_refl k) hfreed).trans hcells
      refine ⟨h1.set a none, ?_, length_set.trans hsize, ?_, ?_⟩
      · unfold Heap.free
        rw [ha]
        dsimp only
        rw [hcells1]
        rfl
      · intro b hb
        have hne : a ≠ b := by
          rintro rfl
          exact hb k hfreed
        rw [array_set_of_ne _ hne]
        exact hothers b hb
      · intro i b hi hfreed'
        have hne : a ≠ b := by
          rintro rfl
          have hik := happart k i a hfreed hfreed'
          omega
        rw [array_set_of_ne _ hne]
        exact hrest i b (by omega) hfreed')
    ⟨rfl, fun _ _ => rfl, fun _ _ _ _ => rfl⟩
  refine ⟨h', ?_, hsize, hothers⟩
  unfold vtableFree
  rw [if_neg (by simpa using hlength), heach]
  rfl

theorem takeOver_self {size : ClassId → Nat} {root : List Node}
    (hroot : TableOk h size root) : takeOver (initSize root.length) root = some root := by
  obtain ⟨chain, htake, hlength, hchain⟩ := takeOver_eq hroot (le_refl root.length)
  rw [htake]
  refine congrArg some (ext_getElem? ?_)
  intro j
  by_cases hj : j < root.length
  · rw [hchain j hj, nodeAt, getElem?_eq_getElem hj]
    rfl
  · rw [getElem?_eq_none (by omega), getElem?_eq_none (by omega)]

namespace World

variable {w w' : World}

/-! ### The tables of objects -/

/-- An array belongs to one place of the table of one object. -/
def Owns (w : World) (o i : Nat) (a : Addr) : Prop :=
  ¬w.InClass a ∧ ∀ (o' i' : Nat) (obj : Object) (v : List Node) (node : Node),
    w.objects[o']? = some obj → obj.vtable = some v → v[i']? = some node →
      node.funcs = .array a → o' = o ∧ i' = i

/-- The table of an object, of whose class the table is `root`. -/
structure OwnTable (w : World) (o : Nat) (root v : List Node) : Prop where
  length : v.length = root.length
  nodes : TableOk w.heap w.ownSize v
  alike : SetAlike v root
  own : ∀ (i : Nat) (node : Node) (a : Addr), v[i]? = some node → node.funcs = .array a →
    (∃ rootNode, root[i]? = some rootNode ∧ rootNode.funcs = .array a) ∨ w.Owns o i a

/-- The tables of the classes and of the objects are as they should be. -/
structure Good (w : World) : Prop where
  sound : w.Sound
  counted : w.Counted
  known : ∀ (o : Nat) (obj : Object), w.objects[o]? = some obj →
    obj.klass < w.classes.klasses.length
  tables : ∀ (o : Nat) (obj : Object) (v : List Node), w.objects[o]? = some obj →
    obj.vtable = some v → w.OwnTable o (w.vtable obj.klass) v

/-- What the classes and the objects other than `changed` are called with stays. -/
structure Keeps (changed : Nat → Prop) (w w' : World) : Prop where
  classes : ∀ id k, w.classes.get id = some k → w'.classes.get id = some k
  tables : ∀ id < w.classes.klasses.length, w'.vtable id = w.vtable id
  arrays : ∀ id, Same w.heap w'.heap (w.vtable id)
  objects : ∀ (o : Nat) (obj : Object), ¬changed o → w.objects[o]? = some obj →
    w'.objects[o]? = some obj ∧ ∀ v, obj.vtable = some v → Same w.heap w'.heap v

variable {o i : Nat} {a : Addr} {v : List Node} {obj : Object} {id : ClassId} (l : Layout)

theorem Good.live (h : w.Good) {node : Node}
    (hobj : w.objects[o]? = some obj) (hv : obj.vtable = some v) (hnode : v[i]? = some node)
    (ha : node.funcs = .array a) : a < w.heap.length := by
  obtain ⟨cells, hcells⟩ := ((h.tables o obj v hobj hv).nodes i node hnode).live ha
  exact array_lt hcells

theorem Sound.live (h : w.Sound) (ha : w.InClass a) : a < w.heap.length := by
  obtain ⟨id, i, node, hnode, ha⟩ := ha
  obtain ⟨cells, hcells⟩ := (h.nodes id i node hnode).live ha
  exact array_lt hcells

/-! ### A new class, a new object -/

theorem ownSize_of_extends (he : w.Extends w')
    (hid : id < w.classes.klasses.length) : w'.ownSize id = w.ownSize id := by
  unfold ownSize
  rw [he.tables id hid]

theorem OwnTable.extends {klass : ClassId} (h : w.Good) (he : w.Extends w')
    (hin : ∀ a, w'.InClass a → a < w.heap.length → w.InClass a)
    (hklass : klass < w.classes.klasses.length) (hv : w.OwnTable o (w.vtable klass) v) :
    w'.OwnTable o (w'.vtable klass) v := by
  have hsame : Same w.heap w'.heap v := hv.nodes.same he.keeps
  rw [he.tables klass hklass]
  refine ⟨hv.length, ?_, hv.alike, ?_⟩
  · intro i node hnode
    have hi : i < w.classes.klasses.length := by
      have hlt := (List.getElem?_eq_some_iff.mp hnode).1
      rw [hv.length, h.sound.sizes klass hklass] at hlt
      exact lt_of_lt_of_le hlt hklass
    rw [ownSize_of_extends he hi]
    exact (hv.nodes i node hnode).congr fun a ha => hsame i node a hnode ha
  · intro i node a hnode ha
    have hlt : a < w.heap.length := by
      obtain ⟨cells, hcells⟩ := (hv.nodes i node hnode).live ha
      exact array_lt hcells
    rcases hv.own i node a hnode ha with hroot | ⟨hclass, hothers⟩
    · exact .inl hroot
    refine .inr ⟨fun hin' => hclass (hin a hin' hlt), ?_⟩
    rw [he.objects]
    exact hothers

/-- **A new class** is not noticed by what was there before. -/
theorem Good.eflClassNew (h : w.Good) {r : Request} (hroom : w.HasRoom r) :
    ∃ w' made, eflClassNew l w r = some (w', made) ∧ w'.Good ∧ w.Keeps (fun _ => False) w' := by
  obtain ⟨w', made, hnew, hsound, he, hin, hadds⟩ := eflClassNew_sound l h.sound r
  refine ⟨w', made, hnew, ⟨hsound, h.counted.adds hroom hadds, ?_, ?_⟩,
    ⟨he.classes, he.tables, ?_, ?_⟩⟩
  · intro o obj hobj
    rw [he.objects] at hobj
    obtain ⟨k, hk⟩ : ∃ k, w.classes.get obj.klass = some k :=
      ⟨_, getElem?_eq_getElem (h.known o obj hobj)⟩
    exact Classes.get_lt (he.classes _ k hk)
  · intro o obj v hobj hv
    rw [he.objects] at hobj
    exact (h.tables o obj v hobj hv).extends h he hin (h.known o obj hobj)
  · intro id
    exact (h.sound.nodes id).same he.keeps
  · intro o obj _ hobj
    refine ⟨by rw [he.objects]; exact hobj, ?_⟩
    intro v hv
    exact (h.tables o obj v hobj hv).nodes.same he.keeps

theorem Good.eflAdd (h : w.Good) (id : ClassId) :
    (w.eflAdd id).Good ∧ w.Keeps (fun _ => False) (w.eflAdd id) := by
  have hrefl : w.Keeps (fun _ => False) w :=
    ⟨fun _ _ h => h, fun _ _ => rfl, fun _ _ _ _ _ _ => rfl,
      fun _ _ _ h => ⟨h, fun _ _ _ _ _ _ _ => rfl⟩⟩
  unfold World.eflAdd
  cases hk : w.classes.get id with
  | none => exact ⟨h, hrefl⟩
  | some k =>
    dsimp only
    split
    · -- the new object has no table of its own
      have hobjects : ∀ (o : Nat) (obj : Object) (v : List Node),
          (w.objects ++ [⟨id, none⟩])[o]? = some obj → obj.vtable = some v →
            w.objects[o]? = some obj := by
        intro o obj v hobj hv
        rw [getElem?_append] at hobj
        split at hobj
        · exact hobj
        rw [getElem?_singleton] at hobj
        split at hobj
        · obtain rfl := some.inj hobj
          simp at hv
        · simp at hobj
      refine ⟨⟨⟨h.sound.order, h.sound.tables, h.sound.descsLength, h.sound.sizes, h.sound.own,
        h.sound.nodes, h.sound.bounds, h.sound.inj, h.sound.registered, h.sound.overlays⟩,
        ⟨h.counted.classes, h.counted.functions⟩, ?_, ?_⟩,
          ⟨hrefl.classes, hrefl.tables, hrefl.arrays, ?_⟩⟩
      · intro o obj hobj
        rw [getElem?_append] at hobj
        split at hobj
        · exact h.known o obj hobj
        rw [getElem?_singleton] at hobj
        split at hobj
        · obtain rfl := some.inj hobj
          exact Classes.get_lt hk
        · simp at hobj
      · intro o obj v hobj hv
        obtain ⟨hlength, hnodes, halike, hown⟩ := h.tables o obj v (hobjects o obj v hobj hv) hv
        refine ⟨hlength, hnodes, halike, ?_⟩
        intro i node a hnode ha
        rcases hown i node a hnode ha with hroot | ⟨hclass, hothers⟩
        · exact .inl hroot
        refine .inr ⟨hclass, ?_⟩
        intro o' i' obj' v' node' hobj' hv'
        exact hothers o' i' obj' v' node' (hobjects o' obj' v' hobj' hv') hv'
      · intro o obj _ hobj
        refine ⟨?_, fun _ _ _ _ _ _ _ => rfl⟩
        exact (getElem?_append_left (List.getElem?_eq_some_iff.mp hobj).1).trans hobj
    · exact ⟨h, hrefl⟩

/-! ### An object that overrides functions -/

/-- The heap and the table of an object, and nothing else, are changed. -/
def withObject (w : World) (i : Nat) (heap : Heap) (obj : Object) : World :=
  { w with heap := heap, objects := w.objects.set i obj }

/-- An array is in no table of a class, and in no table of an object but one. -/
def Unshared (w : World) (o : Nat) (a : Addr) : Prop :=
  ¬w.InClass a ∧ ∀ (o' i' : Nat) (obj : Object) (v : List Node) (node : Node),
    w.objects[o']? = some obj → obj.vtable = some v → v[i']? = some node →
      node.funcs = .array a → o' = o

theorem Owns.unshared (h : w.Owns o i a) : w.Unshared o a := by
  refine ⟨h.1, ?_⟩
  intro o' i' obj v node hobj hv hnode ha
  exact (h.2 o' i' obj v node hobj hv hnode ha).1

theorem Good.unshared (h : w.Good) (o : Nat) (ha : w.heap.length ≤ a) :
    w.Unshared o a := by
  refine ⟨fun hin => not_le.mpr (h.sound.live hin) ha, ?_⟩
  intro o' i' obj v node hobj hv hnode hfuncs
  exact absurd (h.live hobj hv hnode hfuncs) (not_lt.mpr ha)

/-- **The step lemma for objects**: only arrays that are not shared are changed. -/
theorem Good.withObject (h : w.Good) (hobj : w.objects[i]? = some obj) {g : Heap}
    {t : Option (List Node)}
    (harrays : ∀ a < w.heap.length, ¬w.Unshared i a → g.array a = w.heap.array a)
    (hnew : ∀ v, t = some v → v.length = (w.vtable obj.klass).length ∧ TableOk g w.ownSize v ∧
      SetAlike v (w.vtable obj.klass) ∧ ∀ (j : Nat) (node : Node) (a : Addr), v[j]? = some node →
      node.funcs = .array a →
      (∃ rootNode, (w.vtable obj.klass)[j]? = some rootNode ∧ rootNode.funcs = .array a) ∨
      w.Unshared i a ∧ ∀ (j' : Nat) (node' : Node), v[j']? = some node' → node'.funcs = .array a →
      j' = j) :
    (w.withObject i g ⟨obj.klass, t⟩).Good ∧
      w.Keeps (fun o => o = i) (w.withObject i g ⟨obj.klass, t⟩) := by
  have hi : i < w.objects.length := (List.getElem?_eq_some_iff.mp hobj).1
  have hclass : ∀ a, w.InClass a → g.array a = w.heap.array a :=
    fun a ha => harrays a (h.sound.live ha) fun hun => hun.1 ha
  have hsame : ∀ id, Same w.heap g (w.vtable id) :=
    fun id j node a hnode ha => hclass a ⟨id, j, node, hnode, ha⟩
  have hother : ∀ (o : Nat) (obj' : Object) (v : List Node), o ≠ i → w.objects[o]? = some obj' →
      obj'.vtable = some v → Same w.heap g v := by
    intro o obj' v hne hobj' hv j node a hnode ha
    refine harrays a (h.live hobj' hv hnode ha) ?_
    intro hun
    exact hne (hun.2 o j obj' v node hobj' hv hnode ha)
  have hset : ∀ (o : Nat) (obj' : Object), (w.objects.set i ⟨obj.klass, t⟩)[o]? = some obj' →
      o = i ∧ obj' = ⟨obj.klass, t⟩ ∨ o ≠ i ∧ w.objects[o]? = some obj' := by
    intro o obj' hobj'
    rw [getElem?_set] at hobj'
    split at hobj'
    · rename_i hio
      exact .inl ⟨hio.symm, (some.inj hobj').symm⟩
    · rename_i hio
      exact .inr ⟨fun hoi => hio hoi.symm, hobj'⟩
  refine ⟨⟨⟨h.sound.order, h.sound.tables, h.sound.descsLength, h.sound.sizes, h.sound.own,
    fun id => (h.sound.nodes id).congr (hsame id), h.sound.bounds, h.sound.inj,
    h.sound.registered, ?_⟩, ⟨h.counted.classes, h.counted.functions⟩, ?_, ?_⟩,
    ⟨fun _ _ hk => hk, fun _ _ => rfl, hsame, ?_⟩⟩
  · intro api op hop id k hk
    have hinherited : inherited g w.vtable k op = inherited w.heap w.vtable k op :=
      inherited_congr (fun m _ => (hsame m).look op) fun p _ => (hsame p).look op
    show look g (w.vtable id) op = overlaid id (w.descsOf id) api (inherited g w.vtable k op)
    rw [hinherited, (hsame id).look]
    exact h.sound.overlays api op hop id k hk
  · intro o obj' hobj'
    rcases hset o obj' hobj' with ⟨-, rfl⟩ | ⟨-, hold⟩
    · exact h.known i obj hobj
    · exact h.known o obj' hold
  · intro o obj' v hobj' hv
    rcases hset o obj' hobj' with ⟨rfl, rfl⟩ | ⟨hne, hold⟩
    · obtain ⟨hlength, hnodes, halike, hown⟩ := hnew v hv
      refine ⟨hlength, hnodes, halike, ?_⟩
      intro j node a hnode ha
      rcases hown j node a hnode ha with hroot | ⟨hun, halone⟩
      · exact .inl hroot
      refine .inr ⟨hun.1, ?_⟩
      intro o' j' obj'' v' node' hobj'' hv' hnode' ha'
      rcases hset o' obj'' hobj'' with ⟨rfl, rfl⟩ | ⟨hne', hold'⟩
      · obtain rfl : v = v' := some.inj (hv.symm.trans hv')
        exact ⟨rfl, halone j' node' hnode' ha'⟩
      · exact absurd (hun.2 o' j' obj'' v' node' hold' hv' hnode' ha') hne'
    · obtain ⟨hlength, hnodes, halike, hown⟩ := h.tables o obj' v hold hv
      refine ⟨hlength, hnodes.congr (hother o obj' v hne hold hv), halike, ?_⟩
      intro j node a hnode ha
      rcases hown j node a hnode ha with hroot | ⟨hclassNot, hothers⟩
      · exact .inl hroot
      refine .inr ⟨hclassNot, ?_⟩
      intro o' j' obj'' v' node' hobj'' hv' hnode' ha'
      rcases hset o' obj'' hobj'' with ⟨rfl, rfl⟩ | ⟨-, hold'⟩
      · obtain ⟨-, -, -, hown'⟩ := hnew v' hv'
        rcases hown' j' node' a hnode' ha' with ⟨rootNode, hrootNode, hroot⟩ | ⟨hun, -⟩
        · exact absurd ⟨_, j', rootNode, hrootNode, hroot⟩ hclassNot
        · exact absurd (hun.2 o j obj' v node hold hv hnode ha) hne
      · exact hothers o' j' obj'' v' node' hold' hv' hnode' ha'
  · intro o obj' hne hobj'
    refine ⟨(getElem?_set_ne fun hio => hne hio.symm).trans hobj', ?_⟩
    intro v hv
    exact hother o obj' v hne hobj' hv

/-- As far as `efl_object_override` goes, what it overrides is in the table of the object. -/
def Fits (w : World) (i : Nat) (ops : Option (List OpDesc)) : Bool :=
  match ops, w.objects[i]? with
  | some descs, some obj =>
    !(sanityCheck w.storage false [] descs).isSome ||
      overrideFits w.storage (w.vtable obj.klass) descs
  | _, _ => true

/-- **An object overrides functions**, and no other object and no class notices. -/
theorem Good.eflObjectOverride (overrideClass : ClassId) (h : w.Good) (i : Nat)
    (ops : Option (List OpDesc)) (hfits : w.Fits i ops = true) :
    ∃ w' set, eflObjectOverride overrideClass w i ops = some (w', set) ∧ w'.Good ∧
      w.Keeps (fun o => o = i) w' := by
  have hrefl : w.Keeps (fun o => o = i) w :=
    ⟨fun _ _ h => h, fun _ _ => rfl, fun _ _ _ _ _ _ => rfl,
      fun _ _ _ h => ⟨h, fun _ _ _ _ _ _ _ => rfl⟩⟩
  unfold World.eflObjectOverride
  cases hobj : w.objects[i]? with
  | none => exact ⟨w, false, rfl, h, hrefl⟩
  | some obj =>
    dsimp only
    generalize hrootEq : w.vtable obj.klass = root
    have hroot : TableOk w.heap w.ownSize root := hrootEq ▸ h.sound.nodes obj.klass
    cases ops with
    | none =>
      cases hv : obj.vtable with
      | none => exact ⟨w, true, rfl, h, hrefl⟩
      | some v =>
        obtain ⟨hlength, hnodes, -, hown⟩ := h.tables i obj v hobj hv
        rw [hrootEq] at hlength hown
        -- what is freed belongs to the table alone
        have hprivate : ∀ j a, Freed v root j a → w.Owns i j a := by
          rintro j a ⟨node, rootNode, hnode, hrootNode, hdiffers, -, ha⟩
          rcases hown j node a hnode ha with ⟨x, hx, hxa⟩ | howns
          · rw [hrootNode] at hx
            obtain rfl := some.inj hx
            exact absurd (hxa.trans ha.symm) hdiffers
          · exact howns
        obtain ⟨heap, hfree, -, hkept⟩ := vtableFree_eq hlength
          (fun j node hnode hcount => (hnodes j node hnode).counted hcount)
          (fun j a hfreed => by
            obtain ⟨node, rootNode, hnode, -, -, -, ha⟩ := hfreed
            exact (hnodes j node hnode).live ha)
          (fun j j' a hfreed hfreed' => by
            obtain ⟨node, rootNode, hnode, -, -, -, ha⟩ := hfreed'
            exact ((hprivate j a hfreed).2 i j' obj v node hobj hv hnode ha).2.symm)
        obtain ⟨hgood, hkeeps⟩ := h.withObject hobj (t := none)
          (fun a _ hshared => hkept a fun j hfreed => hshared (hprivate j a hfreed).unshared)
          (fun v hv => absurd hv (by simp))
        refine ⟨_, true, ?_, hgood, hkeeps⟩
        dsimp only
        rw [hfree]
        rfl
    | some descs =>
      dsimp only
      -- the table that is written to
      obtain ⟨chain, hchainEq, hlength, hnodes, halike, hown⟩ :
          ∃ chain, overrideTable obj root = some chain ∧ chain.length = root.length ∧
            TableOk w.heap w.ownSize chain ∧
            SetAlike chain root ∧
            ∀ (j : Nat) (node : Node) (a : Addr), chain[j]? = some node →
              node.funcs = .array a →
                (∃ rootNode, root[j]? = some rootNode ∧ rootNode.funcs = .array a) ∨
                  w.Unshared i a ∧ ∀ (j' : Nat) (node' : Node), chain[j']? = some node' →
                    node'.funcs = .array a → j' = j := by
        unfold overrideTable
        cases hv : obj.vtable with
        | some v =>
          obtain ⟨hlength, hnodes, halike, hown⟩ := h.tables i obj v hobj hv
          rw [hrootEq] at hlength halike hown
          refine ⟨v, rfl, hlength, hnodes, halike, ?_⟩
          intro j node a hnode ha
          rcases hown j node a hnode ha with hroot | howns
          · exact .inl hroot
          refine .inr ⟨howns.unshared, ?_⟩
          intro j' node' hnode' ha'
          exact (howns.2 i j' obj v node' hobj hv hnode' ha').2
        | none =>
          exact ⟨root, takeOver_self hroot, rfl, hroot, fun _ => Iff.rfl,
            fun j node a hnode ha => .inl ⟨node, hnode, ha⟩⟩
      rw [hchainEq, bind_eq_bind, bind_some]
      let S : Addr → Prop := fun a =>
        ∃ (j : Nat) (node : Node), chain[j]? = some node ∧ node.funcs = .array a
      have hw0 : Work.Ok S w.heap w.ownSize
          ⟨w.heap, chain, replicate chain.length false⟩ :=
        Work.Ok.start hnodes fun j node a hnode ha => ⟨j, node, hnode, ha⟩
      have hunmarked : ∀ j : Nat, (replicate chain.length false)[j]? ≠ some true := by
        intro j hj
        rw [List.getElem?_replicate] at hj
        split at hj <;> exact absurd hj (by simp)
      have ho0 : Overrides S w.heap chain
          ⟨w.heap, chain, replicate chain.length false⟩ :=
        ⟨hw0.toPrivate, rfl, fun _ _ => rfl, fun j _ _ hj => absurd hj (hunmarked j)⟩
      obtain ⟨work, set, hfuncs, ho, hset⟩ := Work.Ok.eoClassFuncsSet_override

        hw0 ho0 hroot (fun api op hop => (h.sound.bounds api op hop).2) hlength halike
        (fun hsane => by
          unfold Fits at hfits
          rw [hobj] at hfits
          dsimp only at hfits
          rw [hsane, hrootEq] at hfits
          simpa using hfits)
      rw [hfuncs, bind_eq_bind, bind_some]
      have hfresh : ∀ (j : Nat) (node : Node) (a : Addr), work.chain[j]? = some node →
          work.hitmap[j]? = some true → node.funcs = .array a → w.heap.length ≤ a :=
        ho.priv.hit
      cases set with
      | true =>
        obtain ⟨hwork, halike'⟩ := hset rfl
        obtain ⟨hgood, hkeeps⟩ := h.withObject hobj
          (fun a ha _ => ho.priv.keeps a ha) (by
            intro v hv
            obtain rfl := some.inj hv
            rw [hrootEq]
            refine ⟨ho.length.trans hlength, hwork.nodes, halike', ?_⟩
            intro j node a hnode ha
            by_cases hhit : work.hitmap[j]? = some true
            · have hlarge := hfresh j node a hnode hhit ha
              refine .inr ⟨h.unshared i hlarge, ?_⟩
              intro j' node' hnode' ha'
              exact ho.priv.apart j' j node' node a hnode' hnode ha' ha hlarge
            rw [ho.kept j hhit] at hnode
            rcases hown j node a hnode ha with hroot | ⟨hun, halone⟩
            · exact .inl hroot
            refine .inr ⟨hun, ?_⟩
            intro j' node' hnode' ha'
            by_cases hhit' : work.hitmap[j']? = some true
            · have hlarge := hfresh j' node' a hnode' hhit' ha'
              obtain ⟨cells, hcells⟩ := (hnodes j node hnode).live ha
              exact absurd (array_lt hcells) (not_lt.mpr hlarge)
            · rw [ho.kept j' hhit'] at hnode'
              exact halone j' node' hnode' ha')
        exact ⟨_, true, rfl, hgood, hkeeps⟩
      | false =>
        unfold overrideFailed
        cases hv : obj.vtable with
        | some v =>
          obtain ⟨hgood, hkeeps⟩ := h.withObject hobj (t := none)
            (fun a ha _ => ho.priv.keeps a ha) (fun v hv => absurd hv (by simp))
          exact ⟨_, false, rfl, hgood, hkeeps⟩
        | none =>
          -- the new table is freed again; what it did not copy is that of the class
          have hchain : chain = root := by
            unfold overrideTable at hchainEq
            rw [hv] at hchainEq
            exact some.inj (hchainEq.symm.trans (takeOver_self hroot))
          have hcopied : ∀ j a, Freed work.chain root j a → w.heap.length ≤ a := by
            rintro j a ⟨node, rootNode, hnode, hrootNode, hdiffers, -, ha⟩
            by_cases hhit : work.hitmap[j]? = some true
            · exact hfresh j node a hnode hhit ha
            rw [ho.kept j hhit, hchain, hrootNode] at hnode
            obtain rfl := some.inj hnode
            exact absurd rfl hdiffers
          obtain ⟨heap, hfree, -, hkept⟩ := vtableFree_eq
            (ho.length.trans hlength) ho.priv.counted
            (fun j a hfreed => by
              obtain ⟨node, rootNode, hnode, -, -, -, ha⟩ := hfreed
              exact ho.priv.live j node a hnode ha)
            (fun j j' a hfreed hfreed' => by
              have hlarge := hcopied j a hfreed
              obtain ⟨node, _, hnode, -, -, -, ha⟩ := hfreed
              obtain ⟨node', _, hnode', -, -, -, ha'⟩ := hfreed'
              exact ho.priv.apart j j' node node' a hnode hnode' ha ha' hlarge)
          obtain ⟨hgood, hkeeps⟩ := h.withObject hobj (t := none)
            (fun a ha _ => by
              rw [hkept a fun j hfreed => not_lt.mpr (hcopied j a hfreed) ha]
              exact ho.priv.keeps a ha)
            (fun v hv => absurd hv (by simp))
          refine ⟨_, false, ?_, hgood, hkeeps⟩
          rw [hfree]
          rfl

/-! ### Whole runs -/

theorem funcGet_congr {h h' : Heap} {chain : List Node} (hsame : Same h h' chain) (op : Op) :
    funcGet h' chain op = funcGet h chain op := by
  unfold funcGet
  cases hnode : chain[op.classId]? with
  | none => rfl
  | some node => dsimp only; rw [load_congr fun a ha => hsame op.classId node a hnode ha]

variable {changed : Nat → Prop} {changed' : Nat → Prop}

theorem Keeps.callResolve (h : w.Good) (hkeeps : w.Keeps changed w') (overrideClass : ClassId)
    {k : Klass} (hk : w.classes.get id = some k) {own : Option (List Node)}
    (hown : ∀ v, own = some v → Same w.heap w'.heap v) (cur : Option (ClassId × Bool)) (op : Op) :
    callResolve overrideClass w' id own cur op = callResolve overrideClass w id own cur op := by
  have hid := Classes.get_lt hk
  have htable : ∀ m < w.classes.klasses.length,
      funcGet w'.heap (w'.vtable m) op = funcGet w.heap (w.vtable m) op := by
    intro m hm
    rw [hkeeps.tables m hm]
    exact funcGet_congr (hkeeps.arrays m) op
  have hscan : ∀ ids : List ClassId, (∀ m ∈ ids, m < w.classes.klasses.length) →
      w'.scan op ids = w.scan op ids := by
    intro ids
    induction ids with
    | nil =>
      intro
      rfl
    | cons m ids ih =>
      intro hids
      rw [scan, scan, htable m (hids m mem_cons_self),
        ih fun x hx => hids x (mem_cons_of_mem _ hx)]
  have hmro : ∀ m ∈ k.mro, m < w.classes.klasses.length := by
    intro m hm
    obtain ⟨t, ht, hlt⟩ := mro_lt h.sound.order hk
    rw [ht] at hm
    rcases mem_cons.mp hm with rfl | hm
    · exact hid
    · exact lt_trans (hlt m hm) hid
  have hnext : ∀ curKlass super,
      w'.klsItrNext id curKlass op super = w.klsItrNext id curKlass op super := by
    intro curKlass super
    unfold klsItrNext
    rw [hk, hkeeps.classes id k hk]
    refine hscan _ ?_
    intro m hm
    refine hmro m ?_
    split at hm
    · exact (dropWhile_sublist _).subset (mem_of_mem_tail hm)
    · exact (dropWhile_sublist _).subset hm
  have hfirst : funcGet w'.heap (own.getD (w'.vtable id)) op =
      funcGet w.heap (own.getD (w.vtable id)) op := by
    cases own with
    | none => exact htable id hid
    | some v => exact funcGet_congr (hown v rfl) op
  unfold World.callResolve
  cases cur with
  | none => simp only [hfirst]
  | some cur => simp only [htable id hid, hnext]

theorem Keeps.trans {w1 : World} (h : w.Good) (hkeeps : w.Keeps changed w1)
    (hkeeps' : w1.Keeps changed' w') :
    w.Keeps (fun o => changed o ∨ changed' o) w' := by
  have hlt : ∀ id < w.classes.klasses.length, id < w1.classes.klasses.length := by
    intro id hid
    exact Classes.get_lt (hkeeps.classes id _ (getElem?_eq_getElem hid))
  refine ⟨fun id k hk => hkeeps'.classes id k (hkeeps.classes id k hk), ?_, ?_, ?_⟩
  · intro id hid
    exact (hkeeps'.tables id (hlt id hid)).trans (hkeeps.tables id hid)
  · intro id j node a hnode ha
    by_cases hid : id < w.classes.klasses.length
    · refine (hkeeps'.arrays id j node a ?_ ha).trans (hkeeps.arrays id j node a hnode ha)
      rw [hkeeps.tables id hid]
      exact hnode
    · rw [h.sound.vtable_of_le (not_lt.mp hid)] at hnode
      simp at hnode
  · intro o obj hnot hobj
    obtain ⟨hobj1, hsame1⟩ := hkeeps.objects o obj (fun hc => hnot (.inl hc)) hobj
    obtain ⟨hobj', hsame'⟩ := hkeeps'.objects o obj (fun hc => hnot (.inr hc)) hobj1
    refine ⟨hobj', ?_⟩
    intro v hv j node a hnode ha
    exact (hsame' v hv j node a hnode ha).trans (hsame1 v hv j node a hnode ha)

/-- What is called: classes and objects are made, and objects override functions. -/
inductive Call where
  | eflClassNew (r : Request)
  | eflAdd (klass : ClassId)
  | eflObjectOverride (i : Nat) (ops : Option (List OpDesc))

def step (l : Layout) (overrideClass : ClassId) (w : World) : Call → Option World
  | .eflClassNew r => (eflClassNew l w r).map (·.1)
  | .eflAdd klass => some (w.eflAdd klass)
  | .eflObjectOverride i ops => (eflObjectOverride overrideClass w i ops).map (·.1)

/-- What `efl_object_override` is called with has a place in the table. -/
def CallFits (w : World) : Call → Prop
  | .eflClassNew r => w.HasRoom r
  | .eflAdd _ => True
  | .eflObjectOverride i ops => w.Fits i ops = true

instance (w : World) : ∀ call, Decidable (w.CallFits call)
  | .eflClassNew r => inferInstanceAs (Decidable (w.HasRoom r))
  | .eflAdd _ => inferInstanceAs (Decidable True)
  | .eflObjectOverride i ops => inferInstanceAs (Decidable (w.Fits i ops = true))

/-- The objects that a call overrides functions of. -/
def Call.Overrides (call : Call) (o : Nat) : Prop := ∃ ops, call = .eflObjectOverride o ops

theorem Keeps.mono (hkeeps : w.Keeps changed w')
    (hsub : ∀ o, changed o → changed' o) : w.Keeps changed' w' :=
  ⟨hkeeps.classes, hkeeps.tables, hkeeps.arrays,
    fun o obj hnot hobj => hkeeps.objects o obj (fun hc => hnot (hsub o hc)) hobj⟩

theorem step_keeps (overrideClass : ClassId) (h : w.Good) (call : Call)
    (hfits : w.CallFits call) :
    ∃ w', step l overrideClass w call = some w' ∧ w'.Good ∧ w.Keeps call.Overrides w' := by
  cases call with
  | eflClassNew r =>
    obtain ⟨w', made, hnew, hgood, hkeeps⟩ := h.eflClassNew l hfits
    exact ⟨w', by rw [step, hnew]; rfl, hgood, hkeeps.mono fun _ hfalse => hfalse.elim⟩
  | eflAdd klass =>
    obtain ⟨hgood, hkeeps⟩ := h.eflAdd klass
    exact ⟨_, rfl, hgood, hkeeps.mono fun _ hfalse => hfalse.elim⟩
  | eflObjectOverride i ops =>
    obtain ⟨w', set, hoverride, hgood, hkeeps⟩ := h.eflObjectOverride overrideClass i ops hfits
    refine ⟨w', by rw [step, hoverride]; rfl, hgood, hkeeps.mono ?_⟩
    rintro o rfl
    exact ⟨ops, rfl⟩

theorem run_keeps (overrideClass : ClassId) : ∀ (calls : List Call) (w : World), w.Good →
    Runs.Obeys CallFits (step l overrideClass) w calls →
    ∃ w', calls.foldlM (step l overrideClass) w = some w' ∧ w'.Good ∧
      w.Keeps (fun o => ∃ call ∈ calls, call.Overrides o) w' := by
  intro calls
  induction calls with
  | nil =>
    intro w h _
    exact ⟨w, rfl, h, ⟨fun _ _ h => h, fun _ _ => rfl, fun _ _ _ _ _ _ => rfl,
      fun _ _ _ h => ⟨h, fun _ _ _ _ _ _ _ => rfl⟩⟩⟩
  | cons call calls ih =>
    intro w h hobeys
    obtain ⟨w1, hstep, h1, hkeeps1⟩ := step_keeps l overrideClass h call hobeys.1
    obtain ⟨w', hrun, h', hkeeps'⟩ := ih w1 h1 (hobeys.2 w1 hstep)
    refine ⟨w', ?_, h', (hkeeps1.trans h hkeeps').mono ?_⟩
    · rw [foldlM_cons, hstep]
      exact hrun
    · rintro o (hc | ⟨c, hc, ho⟩)
      · exact ⟨call, mem_cons_self, hc⟩
      · exact ⟨c, mem_cons_of_mem _ hc, ho⟩

theorem boot_good : (boot l).Good :=
  ⟨boot_sound l, boot_counted l, fun o obj hobj => absurd hobj (by simp [boot]),
    fun o obj v hobj => absurd hobj (by simp [boot])⟩

/--
After the calls `before` there are classes and objects; what calls on them resolve to is the same
after the calls `after`, but for the objects whose functions these override.
-/
def Unchanged (l : Layout) (overrideClass : ClassId) (before after : List Call) : Prop :=
  ∃ w w', before.foldlM (step l overrideClass) (boot l) = some w ∧
    after.foldlM (step l overrideClass) w = some w' ∧
    (∀ id k, w.classes.get id = some k → ∀ cur op,
      callResolve overrideClass w' id none cur op = callResolve overrideClass w id none cur op) ∧
    ∀ (i : Nat) (obj : Object), w.objects[i]? = some obj → (∀ call ∈ after, ¬call.Overrides i) →
      w'.objects[i]? = some obj ∧ ∀ cur op,
        callResolve overrideClass w' obj.klass obj.vtable cur op =
          callResolve overrideClass w obj.klass obj.vtable cur op

/-- **What calls resolve to is not changed** by later classes, and by what other objects
override. -/
theorem run_unchanged (overrideClass : ClassId) (before after : List Call)
    (h : Runs.Obeys CallFits (step l overrideClass) (boot l) (before ++ after)) :
    Unchanged l overrideClass before after ∧
      ∃ w, (before ++ after).foldlM (step l overrideClass) (boot l) = some w ∧ w.FitsFields := by
  obtain ⟨hbefore, hafter⟩ := Runs.obeys_append.mp h
  obtain ⟨w, hrun, hw, -⟩ := run_keeps l overrideClass before (boot l) (boot_good l) hbefore
  obtain ⟨w', hrun', hw', hkeeps⟩ := run_keeps l overrideClass after w hw (hafter w hrun)
  refine ⟨⟨w, w', hrun, hrun', ?_, ?_⟩, w', ?_, hw'.counted.fitsFields hw'.sound⟩
  · intro id k hk cur op
    exact hkeeps.callResolve hw overrideClass hk (fun v hv => absurd hv (by simp)) cur op
  · intro i obj hobj hnot
    have hsame : ¬∃ call ∈ after, call.Overrides i := by
      rintro ⟨call, hcall, ho⟩
      exact hnot call hcall ho
    obtain ⟨hobj', harrays⟩ := hkeeps.objects i obj hsame hobj
    obtain ⟨k, hk⟩ : ∃ k, w.classes.get obj.klass = some k :=
      ⟨_, getElem?_eq_getElem (hw.known i obj hobj)⟩
    exact ⟨hobj', fun cur op => hkeeps.callResolve hw overrideClass hk harrays cur op⟩
  · rw [foldlM_append, hrun]
    exact hrun'

/-- A class overrides a function of its parent, and an object one of its class. -/
def subclassAndOverride : List Call :=
  [.eflClassNew ⟨⟨some "Parent", .regular, 0⟩, none, [], [⟨some 10, some 1⟩]⟩,
    .eflAdd 1, .eflAdd 1,
    .eflClassNew ⟨⟨some "Class", .regular, 0⟩, some 1, [], [⟨some 10, some 2⟩]⟩,
    .eflObjectOverride 0 (some [⟨some 10, some 3⟩]), .eflObjectOverride 0 none]

theorem run_unchanged_subclassAndOverride :
    Unchanged ⟨64, 8⟩ 0 (subclassAndOverride.take 3) (subclassAndOverride.drop 3) :=
  (run_unchanged ⟨64, 8⟩ 0 _ _ (by with_unfolding_all decide)).1

/-- An object is to override the first function of an interface that its class does not have. -/
def foreignOverride : List Call :=
  [.eflClassNew ⟨⟨some "Interface", .interface, 0⟩, none, [], [⟨some 10, none⟩]⟩,
    .eflClassNew ⟨⟨some "Class", .regular, 0⟩, none, [], [⟨some 11, some 1⟩]⟩, .eflAdd 2,
    .eflObjectOverride 0 (some [⟨some 10, some 2⟩])]

/-- The node of the interface is copied to an array without room, which is then written to. -/
theorem foreign_override_undefined : ¬∀ (l : Layout) (overrideClass : ClassId)
    (before after : List Call), Unchanged l overrideClass before after := by
  intro hall
  obtain ⟨w, w', hbefore, hafter, -⟩ := hall ⟨64, 8⟩ 0 (foreignOverride.take 3)
    (foreignOverride.drop 3)
  have hnone : ((foreignOverride.take 3).foldlM (step ⟨64, 8⟩ 0) (boot ⟨64, 8⟩)).all (fun w =>
      ((foreignOverride.drop 3).foldlM (step ⟨64, 8⟩ 0) w).isNone) = true := by
    with_unfolding_all decide
  rw [hbefore, all_some, hafter] at hnone
  simp at hnone

end World

end Eo.Vtable
