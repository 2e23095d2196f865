/-
The table of an object that overrides functions.

`efl_object_override` writes to a table that began as that of the class, or as what an earlier call
left.  Each node is copied before it is written to, so none of the arrays that were there changes.
An API that the class of the object does not have has no node in the table: then the call fails,
unless its first function is named.  For that one, and for the functions of a class that is newer
than the table, the source checks too little and writes past the end.
-/
import Efl.Eo.Vtable.Sound

namespace Eo.Vtable

open Option

variable {S : Addr → Prop} {h : Heap} {size : ClassId → Nat} {w : Work} {root chain0 : List Node}
  {storage : Storage} {descs : List OpDesc} {klass classId : ClassId} {i : Nat} {node : Node}
  {op : Op}

/-- As far as the call goes, the functions have a place in the table. -/
def overrideFits (storage : Storage) (root : List Node) : List OpDesc → Bool
  | [] => true
  | desc :: descs =>
    match apiOpIdGet storage desc.api with
    | none => true
    | some op =>
      match root[op.classId]? with
      | none => false
      | some node =>
        if node.funcs = .null then decide (op.funcId ≠ 0)
        else overrideFits storage root descs

/-- What is kept while functions are overridden; `chain0` is the table before. -/
structure Overrides (S : Addr → Prop) (h : Heap) (chain0 : List Node) (w : Work) : Prop where
  priv : w.Private S h
  length : w.chain.length = chain0.length
  kept : ∀ i : Nat, w.hitmap[i]? ≠ some true → w.chain[i]? = chain0[i]?
  copied : ∀ (i : Nat) (node : Node), w.chain[i]? = some node → w.hitmap[i]? = some true →
    ∃ a, node.funcs = .array a

/-- The node of the object's table is set where that of the class is. -/
def SetAlike (chain root : List Node) : Prop := ∀ i, IsSet chain i ↔ IsSet root i

theorem Overrides.withArray (ho : Overrides S h chain0 w) (hih : i < w.hitmap.length)
    (cells : List OpFuncs) (hpriv : (w.withArray i cells).Private S h) :
    Overrides S h chain0 (w.withArray i cells) := by
  refine ⟨hpriv, List.length_set.trans ho.length, ?_, ?_⟩
  · intro j hj
    by_cases hij : i = j
    · subst hij
      exact absurd (List.getElem?_set_self hih) hj
    have hj' : (w.hitmap.set i true)[j]? ≠ some true := hj
    rw [List.getElem?_set_ne hij] at hj'
    show (w.chain.set i _)[j]? = _
    rw [List.getElem?_set_ne hij]
    exact ho.kept j hj'
  · intro j x hx hj
    rcases Work.getElem?_set_cases hx with ⟨-, rfl⟩ | ⟨hne, hx⟩
    · exact ⟨_, rfl⟩
    have hj' : (w.hitmap.set i true)[j]? = some true := hj
    rw [List.getElem?_set_ne fun hij => hne hij.symm] at hj'
    exact ho.copied j x hx hj'

theorem Work.Ok.ownNode_override (hw : w.Ok S h size) (ho : Overrides S h chain0 w)
    (hset : IsSet w.chain i) (hi0 : size i ≠ 0) :
    ∃ w' node, ownNode w i = some w' ∧ w'.Ok S h size ∧ Overrides S h chain0 w' ∧
      w'.chain[i]? = some node ∧ w'.hitmap[i]? = some true ∧
      (∀ j, IsSet w'.chain j ↔ IsSet w.chain j) := by
  obtain ⟨node, hnode, hnodeSet⟩ := hset
  have hi : i < w.chain.length := (getElem?_eq_some_iff.mp hnode).1
  have hih : i < w.hitmap.length := by
    rw [hw.sizes]
    exact hi
  unfold ownNode
  cases hhit : w.hitmap[i]? with
  | none => exact absurd hih (not_lt.mpr (List.getElem?_eq_none_iff.mp hhit))
  | some hit =>
    cases hit with
    | true =>
      exact ⟨w, node, rfl, hw, ho, hnode, hhit, fun _ => Iff.rfl⟩
    | false =>
      have hcount : node.count ≠ 0 := by
        rw [(hw.nodes i node hnode).count_eq hnodeSet]
        exact hi0
      obtain ⟨a, ha⟩ := (hw.nodes i node hnode).counted hcount
      obtain ⟨cells, hcopy, -, hw1, -⟩ := hw.copy hnode ha
      rw [hnode]
      refine ⟨_, _, hcopy, hw1, ho.withArray hih cells hw1.toPrivate,
        List.getElem?_set_self hi, List.getElem?_set_self hih, fun j => ?_⟩
      by_cases hij : i = j
      · subst hij
        exact ⟨fun _ => ⟨node, hnode, hnodeSet⟩,
          fun _ => ⟨_, List.getElem?_set_self hi, by simp⟩⟩
      · unfold IsSet
        show (∃ x, (w.chain.set i _)[j]? = some x ∧ _) ↔ _
        rw [List.getElem?_set_ne hij]

theorem load_root {h' : Heap} (hroot : TableOk h size root)
    (hkeeps : ∀ a < h.length, h'.array a = h.array a)
    (hnode : root[op.classId]? = some node) (hset : node.funcs ≠ .null)
    (hop : op.funcId < size op.classId) :
    ∃ x, h'.load node.funcs op.funcId = some x ∧ x.Sourced := by
  have hok := hroot op.classId node hnode
  have hcount := hok.count_eq hset
  obtain ⟨a, ha⟩ := hok.counted (by omega)
  obtain ⟨cells, hcells, hlength, hsourced, -, -⟩ := Work.Node.Ok.loadAll hok ha
  obtain ⟨x, hx⟩ : ∃ x, cells[op.funcId]? = some x := ⟨_, List.getElem?_eq_getElem (by omega)⟩
  refine ⟨x, ?_, hsourced x (List.mem_of_getElem? hx)⟩
  rw [ha]
  show (h'.array a).bind _ = _
  rw [hkeeps a (Heap.array_lt hcells), hcells]
  exact hx

theorem Work.Ok.funcSet_override (klass : ClassId) (hw : w.Ok S h size)
    (ho : Overrides S h chain0 w)
    (hroot : TableOk h size root) {node rootNode : Node} (func : Option Func)
    (hnode : w.chain[op.classId]? = some node) (hhit : w.hitmap[op.classId]? = some true)
    (hrootNode : root[op.classId]? = some rootNode) (hset : rootNode.funcs ≠ .null)
    (hop : op.funcId < size op.classId) :
    ∃ heap, Vtable.funcSet w klass (some root) op func = some (⟨heap, w.chain, w.hitmap⟩, true) ∧
      Work.Ok S h size ⟨heap, w.chain, w.hitmap⟩ ∧
      Overrides S h chain0 ⟨heap, w.chain, w.hitmap⟩ := by
  have hi : op.classId < w.chain.length := (getElem?_eq_some_iff.mp hnode).1
  have hnodeSet := hw.set op.classId node hnode hhit
  have hcount : ¬node.count < op.funcId := by
    rw [(hw.nodes op.classId node hnode).count_eq hnodeSet]
    omega
  obtain ⟨x, hx, hsourced⟩ :
      ∃ x, funcsOf w.heap klass (some root) op func = some x ∧ x.Sourced := by
    cases func with
    | some f => exact ⟨⟨some f, some klass⟩, rfl, fun _ => by simp⟩
    | none =>
      obtain ⟨x, hload, hsourced⟩ := load_root hroot hw.keeps hrootNode hset hop
      refine ⟨x, ?_, hsourced⟩
      unfold funcsOf
      dsimp only
      rw [hrootNode]
      exact hload
  obtain ⟨heap, hstore, hw', -⟩ := hw.store hnode hhit hop hsourced
  refine ⟨heap, ?_, hw', ⟨hw'.toPrivate, ho.length, ho.kept, ho.copied⟩⟩
  unfold Vtable.funcSet
  rw [if_neg (not_lt.mpr (le_of_lt hi)), hnode, bind_eq_bind, bind_some,
    if_neg hnodeSet, if_neg hcount, hx, bind_eq_bind, bind_some, hstore,
    bind_eq_bind, bind_some]

theorem Work.Ok.ownNode_null (hw : w.Ok S h size) (ho : Overrides S h chain0 w)
    (hnode : w.chain[i]? = some node) (hnull : node.funcs = .null) :
    ∃ w', ownNode w i = some w' ∧ Overrides S h chain0 w' ∧
      ∃ a, w'.chain[i]? = some ⟨.array a, 0⟩ := by
  have hi : i < w.chain.length := (getElem?_eq_some_iff.mp hnode).1
  have hih : i < w.hitmap.length := by
    rw [hw.sizes]
    exact hi
  have hcount : node.count = 0 := by
    have hok := hw.nodes i node hnode
    unfold Node.Ok at hok
    rw [hnull] at hok
    exact hok
  have hload : w.heap.loadAll node.funcs node.count = some [] := by
    unfold Heap.loadAll
    rw [if_pos hcount]
  refine ⟨w.withArray i [], ?_,
    ho.withArray hih [] (hw.toPrivate.replace (Work.replaces_array S w h i [])),
    w.heap.length, List.getElem?_set_self hi⟩
  unfold ownNode
  rw [hw.unmarked hnode hnull, hnode]
  exact Work.copyNode_eq hi hw.sizes hload hcount.symm

/-- **The loop over the functions that are overridden.** -/
theorem each_setOne_override (klass classId : ClassId) (hroot : TableOk h size root)
    (hbounds : ∀ api op, apiOpIdGet storage (some api) = some op → op.funcId < size op.classId) :
    ∀ (descs : List OpDesc) (i : Nat) (w : Work) (j : Nat), w.Ok S h size →
    Overrides S h chain0 w → w.chain.length = root.length → SetAlike w.chain root →
    overrideFits storage root descs = true →
    ∃ s' returned, Loop.each (fun _ desc s => setOne klass (some root) classId desc s) i descs
        ⟨w, storage, j⟩ = some (s', returned) ∧ s'.storage = storage ∧
          Overrides S h chain0 s'.work ∧
      (returned = none ∧ s'.work.Ok S h size ∧ SetAlike s'.work.chain root ∨
        returned = some false) := by
  intro descs
  induction descs with
  | nil =>
    intro i w j hw ho _ halike _
    exact ⟨_, _, rfl, rfl, ho, .inl ⟨rfl, hw, halike⟩⟩
  | cons desc descs ih =>
    intro i w j hw ho hlength halike hfits
    rw [Loop.each]
    unfold overrideFits at hfits
    cases hop : apiOpIdGet storage desc.api with
    | none =>
      have hstep : setOne klass (some root) classId desc ⟨w, storage, j⟩ =
          some (⟨w, storage, j⟩, some false) := by
        unfold setOne
        rw [if_pos ⟨hop, rfl⟩]
      rw [hstep]
      exact ⟨_, _, rfl, rfl, ho, .inr rfl⟩
    | some op =>
      rw [hop] at hfits
      dsimp only at hfits
      obtain ⟨api, hapi⟩ : ∃ api, desc.api = some api := by
        cases hapi : desc.api with
        | none =>
          rw [hapi, apiOpIdGet_none] at hop
          simp at hop
        | some api => exact ⟨api, rfl⟩
      rw [hapi] at hop
      have hnamed : (Setting.mk w storage j).named classId (some api) = ⟨w, storage, j⟩ :=
        Setting.named_known classId hop
      have hunfold : setOne klass (some root) classId desc ⟨w, storage, j⟩ =
          (ownNode w op.classId).bind fun w =>
            (funcSet w klass (some root) op desc.func).bind fun r =>
              some (⟨r.1, storage, j⟩, if r.2 then none else some false) := by
        unfold setOne
        rw [hapi]
        rw [hop, hnamed]
        rfl
      cases hrootNode : root[op.classId]? with
      | none =>
        rw [hrootNode] at hfits
        simp at hfits
      | some rootNode =>
        rw [hrootNode] at hfits
        dsimp only at hfits
        have hi : op.classId < w.chain.length := by
          rw [hlength]
          exact (getElem?_eq_some_iff.mp hrootNode).1
        obtain ⟨node, hnode⟩ : ∃ node, w.chain[op.classId]? = some node :=
          ⟨_, List.getElem?_eq_getElem hi⟩
        by_cases hnull : rootNode.funcs = .null
        · -- the class does not have the API
          rw [if_pos hnull, decide_eq_true_eq] at hfits
          have hnodeNull : node.funcs = .null := by
            by_contra hset
            obtain ⟨x, hx, hxset⟩ := (halike op.classId).mp ⟨node, hnode, hset⟩
            rw [hrootNode] at hx
            obtain rfl := some.inj hx
            exact hxset hnull
          obtain ⟨w1, hown, ho1, a, hnode1⟩ := hw.ownNode_null ho hnode hnodeNull
          have hset : funcSet w1 klass (some root) op desc.func = some (w1, false) := by
            have hi1 : op.classId < w1.chain.length :=
              (getElem?_eq_some_iff.mp hnode1).1
            unfold funcSet
            rw [if_neg (not_lt.mpr (le_of_lt hi1)), hnode1, bind_eq_bind,
              bind_some, if_neg (by simp), if_pos (Nat.pos_of_ne_zero hfits)]
          rw [hunfold, hown, bind_some, hset]
          exact ⟨_, _, rfl, rfl, ho1, .inr rfl⟩
        · rw [if_neg hnull] at hfits
          have hset := (halike op.classId).mpr ⟨rootNode, hrootNode, hnull⟩
          have hfunc := hbounds api op hop
          obtain ⟨w1, node1, hown, hw1, ho1, hnode1, hhit1, halike1⟩ :=
            hw.ownNode_override ho hset (by omega)
          obtain ⟨heap, hfuncSet, hw2, ho2⟩ := Work.Ok.funcSet_override klass hw1 ho1 hroot
            desc.func hnode1 hhit1 hrootNode hnull hfunc
          rw [hunfold, hown, bind_some, hfuncSet]
          refine ih (i + 1) ⟨heap, w1.chain, w1.hitmap⟩ j hw2 ho2 ?_ ?_ hfits
          · rw [ho1.length, ← ho.length]
            exact hlength
          · intro i'
            exact (halike1 i').trans (halike i')

/-- **`_eo_class_funcs_set` for an object.** -/
theorem Work.Ok.eoClassFuncsSet_override {k c : ClassId} {l : List OpDesc} {s : Storage}
    (hw : w.Ok S h size) (ho : Overrides S h chain0 w)
    (hroot : TableOk h size root)
    (hbounds : ∀ api op, apiOpIdGet s (some api) = some op → op.funcId < size op.classId)
    (hlength : w.chain.length = root.length) (halike : SetAlike w.chain root)
    (hfits : (sanityCheck s false [] l).isSome → overrideFits s root l = true) :
    ∃ w' set, Vtable.eoClassFuncsSet w s l (some root) k c =
        some (w', s, set) ∧
      Overrides S h chain0 w' ∧ (set = true → w'.Ok S h size ∧ SetAlike w'.chain root) := by
  have hsome : (some root).isSome = true := rfl
  unfold Vtable.eoClassFuncsSet
  rw [if_pos hsome, bind_some]
  by_cases hnil : l = []
  · rw [if_pos hnil]
    exact ⟨_, _, rfl, ho, fun _ => ⟨hw, halike⟩⟩
  rw [if_neg hnil]
  have hflag : (!(some root).isSome) = false := rfl
  rw [hflag]
  cases hcheck : sanityCheck s false [] l with
  | none => exact ⟨_, _, rfl, ho, fun hset => absurd hset (by simp)⟩
  | some count =>
    rw [hcheck] at hfits
    obtain ⟨s', returned, heach, hstorage, ho', hreturned⟩ :=
      each_setOne_override k c hroot hbounds l 0 w 0 hw ho hlength halike (hfits rfl)
    dsimp only
    rw [if_pos hsome, bind_some, heach]
    refine ⟨s'.work, returned.getD true, by rw [map_some, hstorage], ho', ?_⟩
    intro hset
    rcases hreturned with ⟨-, hw', halike'⟩ | hfalse
    · exact ⟨hw', halike'⟩
    · rw [hfalse] at hset
      simp at hset

end Eo.Vtable
