/-
What a call resolves to, against the method resolution order.

By the order, a call on an object goes to the first class of the order that sets the function to
something, and a call through `efl_super` to the first such class behind the given one.  The
tables are made by merging whole tables, so they agree with the order where no class hides what
stands behind its own definitions, and not elsewhere.
-/
import Efl.Eo.Vtable.Sound
import Efl.Lib.Overlay

namespace Eo.Vtable

open Linearize Overlay Option

/-! ### The functions that are called -/

section Calls

variable {h : Heap} {size : ClassId → Nat} {chain : List Node}

theorem funcGet_eq (hok : TableOk h size chain) (op : Op) :
    ∃ func, funcGet h chain op = some func ∧ func.bind OpFuncs.found = look h chain op ∧
      ∀ x, func = some x → x.Sourced := by
  unfold funcGet look
  cases hnode : chain[op.classId]? with
  | none => exact ⟨none, rfl, rfl, fun x hx => absurd hx (by simp)⟩
  | some node =>
    dsimp only
    have hnodeOk := hok op.classId node hnode
    split
    · rename_i hle
      refine ⟨none, rfl, ?_, fun x hx => absurd hx (by simp)⟩
      exact (Work.slot_of_le hnodeOk hle).symm
    have hpos : node.count ≠ 0 := by omega
    obtain ⟨a, ha⟩ := hnodeOk.counted hpos
    obtain ⟨cells, hcells, hlength, hsourced, -, hcount⟩ := Work.Node.Ok.loadAll hnodeOk ha
    obtain ⟨x, hx⟩ : ∃ x, cells[op.funcId]? = some x :=
      ⟨_, List.getElem?_eq_getElem (by omega)⟩
    have hload : h.load node.funcs op.funcId = some x := by
      rw [ha]
      show (h.array a).bind _ = _
      rw [hcells]
      exact hx
    rw [hload]
    refine ⟨some x, rfl, by rw [bind_some, bind_some, hload]; rfl, ?_⟩
    intro y hy
    obtain rfl := some.inj hy
    exact hsourced x (List.mem_of_getElem? hx)

end Calls

namespace World

variable {w : World} {overrideClass : ClassId} {id : ClassId} {api : Api} {k : Klass} {op : Op}
  (l : Layout)

theorem scan_eq (h : w.Sound) (op : Op) : ∀ ids : List ClassId,
    ∃ func, w.scan op ids = some func ∧
      func.bind OpFuncs.found = ids.findSome? fun id => look w.heap (w.vtable id) op := by
  intro ids
  induction ids with
  | nil => exact ⟨none, rfl, rfl⟩
  | cons id ids ih =>
    obtain ⟨func, hget, hfound, hsourced⟩ := funcGet_eq (h.nodes id) op
    obtain ⟨rest, hscan, hrest⟩ := ih
    rw [scan, hget, bind_eq_bind, bind_some, List.findSome?_cons]
    cases func with
    | none =>
      rw [← hfound]
      exact ⟨rest, hscan, hrest⟩
    | some x =>
      rw [bind_some] at hfound
      dsimp only
      by_cases hfunc : x.func = none
      · rw [if_pos hfunc, ← hfound, OpFuncs.found_eq_none hfunc]
        exact ⟨rest, hscan, hrest⟩
      rw [if_neg hfunc]
      obtain ⟨v, hv⟩ := ne_none_iff_exists'.mp
        (OpFuncs.found_ne_none (hsourced x rfl) hfunc)
      refine ⟨some x, rfl, ?_⟩
      rw [bind_some, ← hfound, hv]

theorem resolve_found (func : Option OpFuncs) :
    (match func with
      | some ⟨some f, some src⟩ => some (some (f, src))
      | _ => some none) = some (func.bind OpFuncs.found) := by
  rcases func with _ | ⟨_ | f, _ | src⟩ <;> rfl

theorem callResolve_none (h : w.Sound) (id : ClassId) (op : Op) :
    callResolve overrideClass w id none none op = some (look w.heap (w.vtable id) op) := by
  obtain ⟨func, hget, hfound, -⟩ := funcGet_eq (h.nodes id) op
  unfold callResolve
  rw [← hfound, ← resolve_found]
  dsimp only [getD_none]
  rw [hget]
  rfl

theorem callResolve_super (h : w.Sound) (hk : w.classes.get id = some k)
    (cur : ClassId) (op : Op) :
    callResolve overrideClass w id none (some (cur, true)) op =
      some ((after cur k.mro).findSome? fun m => look w.heap (w.vtable m) op) := by
  obtain ⟨func, hscan, hfound⟩ := scan_eq h op (after cur k.mro)
  unfold callResolve klsItrNext
  rw [← hfound, ← resolve_found]
  simp only [isSome_none, hk, if_true]
  unfold after at hscan
  rw [hscan]
  rfl

/-! ### The method resolution order -/

/-- What a class sets an API function to. -/
def definition (w : World) (api : Api) (id : ClassId) : Option (Option (Func × ClassId)) :=
  (defined (w.descsOf id) api).map fun func => func.map fun f => (f, id)

/-- The first class of a list that itself sets the API function to something. -/
def firstDefinition (w : World) (api : Api) (ids : List ClassId) : Option (Func × ClassId) :=
  ids.findSome? fun id => (w.definition api id).join

/-- Calls go by the method resolution order. -/
def Resolves (overrideClass : ClassId) (w : World) (api : Api) (op : Op) : Prop :=
  ∀ id k, w.classes.get id = some k →
    callResolve overrideClass w id none none op = some (w.firstDefinition api k.mro) ∧
      ∀ cur ∈ k.mro, callResolve overrideClass w id none (some (cur, true)) op =
        some (w.firstDefinition api (after cur k.mro))

/-- No class hides a definition, and none blocks one. -/
structure Unhidden (w : World) (api : Api) : Prop where
  /--
  Between a class `x` of an order and the class that `x` inherits from, there is no other one
  that sets the function.
  -/
  between : ∀ id k, w.classes.get id = some k → ∀ s x t, k.mro = s ++ x :: t →
    ∀ kx, w.classes.get x = some kx → w.firstDefinition api kx.mro ≠ none →
      w.firstDefinition api (x :: t) = w.firstDefinition api kx.mro
  /-- A class that sets the function to the null pointer has nothing to inherit. -/
  blocks : ∀ id k, w.classes.get id = some k → defined (w.descsOf id) api = some none →
    w.firstDefinition api k.mro = none

/-- The classes as a hierarchy. -/
def asHierarchy (w : World) (h : w.Sound) (api : Api) : Hierarchy ClassId (Func × ClassId) where
  rank := fun id => id
  front := fun id => ((w.classes.get id).map frontMixins).getD []
  parent := fun id => (w.classes.get id).bind (·.parent)
  own := w.definition api
  order := fun id => ((w.classes.get id).map (·.mro)).getD [id]
  front_lt := by
    intro id m hm
    cases hk : w.classes.get id with
    | none =>
      rw [hk] at hm
      simp at hm
    | some k =>
      rw [hk] at hm
      exact frontMixins_lt h.order hk m hm
  parent_lt := by
    intro id p hp
    obtain ⟨k, hk, hp⟩ := bind_eq_some_iff.mp hp
    exact (w.classes.older id k hk).1 p hp
  order_eq := by
    intro id
    cases hk : w.classes.get id with
    | none => rfl
    | some k =>
      simp only [map_some, getD_some, bind_some]
      rw [mro_eq h.order hk]
      cases hp : k.parent with
      | none => rfl
      | some p =>
        have hpold : p < w.classes.klasses.length :=
          Nat.lt_trans ((w.classes.older id k hk).1 p hp) (Classes.get_lt hk)
        obtain ⟨kp, hkp⟩ : ∃ kp, w.classes.get p = some kp :=
          ⟨_, List.getElem?_eq_getElem hpold⟩
        rw [bind_some, map_some, hkp]
        rfl
  order_nodup := by
    intro id
    cases hk : w.classes.get id with
    | none => simp
    | some k =>
      rw [map_some, getD_some, h.order id k hk]
      exact Graph.nodup_order _ id

theorem asHierarchy_order (h : w.Sound) (api : Api)
    (hk : w.classes.get id = some k) : (w.asHierarchy h api).order id = k.mro := by
  show ((w.classes.get id).map (·.mro)).getD [id] = k.mro
  rw [hk]
  rfl

theorem asHierarchy_first (h : w.Sound) (api : Api) (ids : List ClassId) :
    (w.asHierarchy h api).first ids = w.firstDefinition api ids := rfl

theorem definition_none (h : w.Sound) (api : Api) (hk : w.classes.get id = none) :
    w.definition api id = none := by
  have hid : w.descs.length ≤ id := by
    rw [h.descsLength]
    exact List.getElem?_eq_none_iff.mp hk
  unfold definition descsOf
  rw [List.getElem?_eq_none hid]
  rfl

theorem asHierarchy_overlays (h : w.Sound)
    (hop : apiOpIdGet w.storage (some api) = some op) :
    (w.asHierarchy h api).Overlays fun id => look w.heap (w.vtable id) op := by
  intro id
  cases hk : w.classes.get id with
  | none =>
    have hid : w.classes.klasses.length ≤ id := List.getElem?_eq_none_iff.mp hk
    have hown : (w.asHierarchy h api).own id = none := definition_none h api hk
    have hfront : (w.asHierarchy h api).front id = [] := by
      show ((w.classes.get id).map frontMixins).getD [] = []
      rw [hk]
      rfl
    have hparent : (w.asHierarchy h api).parent id = none := by
      show (w.classes.get id).bind (·.parent) = none
      rw [hk]
      rfl
    dsimp only
    rw [hown, hfront, hparent, h.vtable_of_le hid]
    rfl
  | some k =>
    have hown : (w.asHierarchy h api).own id = w.definition api id := rfl
    have hfront : (w.asHierarchy h api).front id = frontMixins k := by
      show ((w.classes.get id).map frontMixins).getD [] = frontMixins k
      rw [hk]
      rfl
    have hparent : (w.asHierarchy h api).parent id = k.parent := by
      show (w.classes.get id).bind (·.parent) = k.parent
      rw [hk]
      rfl
    dsimp only
    rw [hown, hfront, hparent, h.overlays api op hop id k hk, overlaid, definition]
    cases defined (w.descsOf id) api with
    | none => rfl
    | some func => rfl

theorem resolves_iff_agrees (h : w.Sound) :
    Resolves overrideClass w api op ↔
      (w.asHierarchy h api).Agrees fun id => look w.heap (w.vtable id) op := by
  constructor
  · intro hresolves id
    cases hk : w.classes.get id with
    | none =>
      have hid : w.classes.klasses.length ≤ id := List.getElem?_eq_none_iff.mp hk
      have horder : (w.asHierarchy h api).order id = [id] := by
        show ((w.classes.get id).map (·.mro)).getD [id] = [id]
        rw [hk]
        rfl
      dsimp only
      rw [horder, h.vtable_of_le hid]
      refine ⟨?_, ?_⟩
      · rw [asHierarchy_first, firstDefinition, List.findSome?_cons, definition_none h api hk]
        rfl
      · intro cur hcur
        rw [List.mem_singleton.mp hcur]
        simp [after, Hierarchy.first]
    | some k =>
      obtain ⟨hcall, hsuper⟩ := hresolves id k hk
      rw [asHierarchy_order h api hk]
      refine ⟨?_, ?_⟩
      · rw [callResolve_none h] at hcall
        exact some.inj hcall
      · intro cur hcur
        have hcur := hsuper cur hcur
        rw [callResolve_super h hk] at hcur
        exact some.inj hcur
  · intro hagrees id k hk
    obtain ⟨hcall, hsuper⟩ := hagrees id
    rw [asHierarchy_order h api hk] at hcall hsuper
    refine ⟨?_, ?_⟩
    · rw [callResolve_none h]
      exact congrArg some hcall
    · intro cur hcur
      rw [callResolve_super h hk]
      exact congrArg some (hsuper cur hcur)

/-- The condition, told of the hierarchy of classes and what each sets. -/
theorem unhidden_iff (h : w.Sound) :
    w.Unhidden api ↔ (w.asHierarchy h api).Unhidden ∧ (w.asHierarchy h api).Unblocked := by
  constructor
  · intro hunhidden
    refine ⟨?_, ?_⟩
    · intro id s x t hs hfirst
      cases hk : w.classes.get id with
      | none =>
        have horder : (w.asHierarchy h api).order id = [id] := by
          show ((w.classes.get id).map (·.mro)).getD [id] = [id]
          rw [hk]
          rfl
        rw [horder] at hs
        cases s with
        | nil =>
          obtain ⟨rfl, rfl⟩ := List.cons.inj hs
          rw [horder]
        | cons y s => exact absurd (List.cons.inj hs).2 (by simp)
      | some k =>
        rw [asHierarchy_order h api hk] at hs
        cases hkx : w.classes.get x with
        | none =>
          have horder : (w.asHierarchy h api).order x = [x] := by
            show ((w.classes.get x).map (·.mro)).getD [x] = [x]
            rw [hkx]
            rfl
          refine absurd ?_ hfirst
          rw [horder, asHierarchy_first, firstDefinition, List.findSome?_cons,
            definition_none h api hkx]
          rfl
        | some kx =>
          rw [asHierarchy_order h api hkx] at hfirst ⊢
          exact hunhidden.between id k hk s x t hs kx hkx hfirst
    · intro id hown
      cases hk : w.classes.get id with
      | none =>
        have hown' : w.definition api id = some none := hown
        rw [definition_none h api hk] at hown'
        simp at hown'
      | some k =>
        rw [asHierarchy_order h api hk]
        refine hunhidden.blocks id k hk ?_
        obtain ⟨func, hfunc, hnull⟩ := map_eq_some_iff.mp hown
        cases func with
        | none => exact hfunc
        | some f => simp at hnull
  · rintro ⟨hbetween, hblocks⟩
    refine ⟨?_, ?_⟩
    · intro id k hk s x t hs kx hkx hfirst
      have hbetween := hbetween id s x t (by rw [asHierarchy_order h api hk]; exact hs)
      rw [asHierarchy_order h api hkx] at hbetween
      exact hbetween hfirst
    · intro id k hk hnull
      have hblocks := hblocks id (by
        show w.definition api id = some none
        unfold definition
        rw [hnull]
        rfl)
      rw [asHierarchy_order h api hk] at hblocks
      exact hblocks

/-! ### The classes that were made -/

theorem boot_sound : (boot l).Sound := by
  have hinOrder : (boot l).classes.InOrder := by
    refine Classes.eflClassNew_inOrder l ?_ eflClass none [] true
    intro id k hk
    simp [Classes.get, Classes.empty] at hk
  have hprepare : Classes.empty.prepare eflClass none [] = .ok ([], []) := by
    simp [Classes.prepare, eflClass, Classes.checkParent, Classes.extnList, removeDuplicates,
      removeBefore, Classes.mroInit, Classes.mroExtensions, bind, Except.bind, pure, Except.pure]
  have hlength : (boot l).classes.klasses.length = 1 := by
    show (Classes.empty.eflClassNew l eflClass none [] true).1.klasses.length = 1
    unfold Classes.eflClassNew
    split
    · rename_i e he
      rw [hprepare] at he
      simp at he
    · rfl
  have hnew : ∀ id, 0 < id → (boot l).vtable id = [] := by
    intro id hid
    unfold vtable
    rw [List.getElem?_eq_none hid]
    rfl
  refine ⟨hinOrder, hlength.symm, hlength.symm, ?_, ?_, ?_, ?_, ?_, ?_, ?_⟩
  · intro id hid
    rw [hlength] at hid
    obtain rfl : id = 0 := Nat.lt_one_iff.mp hid
    rfl
  · intro id hid
    rw [hlength] at hid
    obtain rfl : id = 0 := Nat.lt_one_iff.mp hid
    exact ⟨_, rfl⟩
  · intro id i node hnode
    rcases Nat.eq_zero_or_pos id with rfl | hid
    · have hi : i < 1 := (getElem?_eq_some_iff.mp hnode).1
      obtain rfl : i = 0 := Nat.lt_one_iff.mp hi
      obtain rfl : (⟨.marker, 0⟩ : Node) = node := some.inj hnode
      exact ⟨rfl, rfl⟩
    · rw [hnew id hid] at hnode
      simp at hnode
  · intro api op hop
    simp [boot, apiOpIdGet] at hop
  · intro a b op ha
    simp [boot, apiOpIdGet] at ha
  · intro id desc hdesc
    rcases Nat.eq_zero_or_pos id with rfl | hid
    · simp [descsOf, boot] at hdesc
    unfold descsOf at hdesc
    rw [List.getElem?_eq_none hid] at hdesc
    simp at hdesc
  · intro api op hop
    simp [boot, apiOpIdGet] at hop

/-- What there is after the calls of `efl_class_new`, whether they hand out a class or not. -/
def built (l : Layout) (requests : List Request) : Option World :=
  requests.foldlM (fun w r => (eflClassNew l w r).map (·.1)) (boot l)

theorem boot_counted : (boot l).Counted := by
  refine ⟨?_, ?_⟩
  · rw [← (boot_sound l).tables]
    show 1 ≤ 2 ^ 15
    decide
  · intro id
    unfold ownSize
    rcases Nat.eq_zero_or_pos id with rfl | hid
    · show 0 < 2 ^ 16
      decide
    · rw [(boot_sound l).vtable_of_le (by rw [← (boot_sound l).tables]; exact hid)]
      show 0 < 2 ^ 16
      decide

theorem built_sound (requests : List Request) (hclasses : requests.length < 2 ^ 15)
    (hfunctions : ∀ r ∈ requests, r.descs.length < 2 ^ 16) :
    ∃ w, built l requests = some w ∧ w.Sound ∧ w.FitsFields := by
  have hboot := boot_counted l
  have hone : (boot l).classes.klasses.length ≤ 0 + 1 := by
    rw [← (boot_sound l).tables]
    exact le_rfl
  obtain ⟨w, hfold, hw, hlength, hfuncs⟩ :=
    Loop.foldlM_holds (f := fun w r => (eflClassNew l w r).map (·.1))
      (I := fun i w => w.Sound ∧ w.classes.klasses.length ≤ i + 1 ∧ ∀ id, w.ownSize id < 2 ^ 16)
      requests 0 (boot l)
      (fun k r w hr hw => by
        obtain ⟨w', made, hnew, hw', -, -, hadds⟩ := eflClassNew_sound l hw.1 r
        refine ⟨w', by rw [hnew]; rfl, hw', ?_, fun id => ?_⟩
        · exact le_trans hadds.classes (Nat.succ_le_succ hw.2.1)
        · exact lt_of_le_of_lt (hadds.functions id)
            (max_lt (hw.2.2 id) (hfunctions r (List.mem_of_getElem? hr))))
      ⟨boot_sound l, hone, hboot.functions⟩
  have hcounted : w.Counted := ⟨le_trans hlength (by omega), hfuncs⟩
  exact ⟨w, hfold, hw, hcounted.fitsFields hw⟩

/--
**Calls go by the method resolution order** in a hierarchy exactly where no class of it hides a
definition and none blocks one, as long as the numbers of the classes and of their functions fit
into the fields of 16 bits they are stored in.
-/
theorem built_resolves_iff (requests : List Request) (hclasses : requests.length < 2 ^ 15)
    (hfunctions : ∀ r ∈ requests, r.descs.length < 2 ^ 16) :
    ∃ w, built l requests = some w ∧ w.FitsFields ∧
      ∀ overrideClass api op, apiOpIdGet w.storage (some api) = some op →
        (Resolves overrideClass w api op ↔ w.Unhidden api) := by
  obtain ⟨w, hbuilt, hw, hfields⟩ := built_sound l requests hclasses hfunctions
  refine ⟨w, hbuilt, hfields, ?_⟩
  intro overrideClass api op hop
  rw [resolves_iff_agrees hw, unhidden_iff]
  exact Hierarchy.agrees_iff (asHierarchy_overlays hw hop)

/--
A mixin defines a function and a class that extends it overrides that; a subclass extends another
mixin, which extends the first one.
-/
def mixinAgain : List Request :=
  [⟨⟨some "Mixin", .mixin, 0⟩, none, [], [⟨some 10, some 1⟩]⟩,
    ⟨⟨some "Parent", .regular, 0⟩, none, [1], [⟨some 10, some 2⟩]⟩,
    ⟨⟨some "Other", .mixin, 0⟩, none, [1], []⟩,
    ⟨⟨some "Class", .regular, 0⟩, some 2, [3], []⟩]

theorem mixinAgain_built : ∃ w k, built ⟨64, 8⟩ mixinAgain = some w ∧
    w.classes.get 4 = some k ∧ apiOpIdGet w.storage (some 10) = some ⟨1, 0⟩ ∧
    callResolve 0 w 4 none none ⟨1, 0⟩ = some (some (1, 1)) ∧
    w.firstDefinition 10 k.mro = some (2, 2) := by
  have hop : (built ⟨64, 8⟩ mixinAgain).bind (fun w => apiOpIdGet w.storage (some 10)) =
      some ⟨1, 0⟩ := by
    with_unfolding_all decide
  have hcall : (built ⟨64, 8⟩ mixinAgain).bind (fun w => callResolve 0 w 4 none none ⟨1, 0⟩) =
      some (some (1, 1)) := by
    with_unfolding_all decide
  have hfirst : (built ⟨64, 8⟩ mixinAgain).bind (fun w =>
      (w.classes.get 4).bind fun k => w.firstDefinition 10 k.mro) = some (2, 2) := by
    with_unfolding_all decide
  obtain ⟨w, hbuilt, hop⟩ := bind_eq_some_iff.mp hop
  rw [hbuilt, bind_some] at hcall hfirst
  obtain ⟨k, hk, hfirst⟩ := bind_eq_some_iff.mp hfirst
  exact ⟨w, k, hbuilt, hk, hop, hcall, hfirst⟩

theorem mixin_hides_parent : ¬∀ (l : Layout) (requests : List Request) (w : World)
    (overrideClass : ClassId) (api : Api) (op : Op), built l requests = some w →
      apiOpIdGet w.storage (some api) = some op → Resolves overrideClass w api op := by
  intro hall
  obtain ⟨w, k, hbuilt, hk, hop, hcall, hfirst⟩ := mixinAgain_built
  have hresolves := (hall ⟨64, 8⟩ mixinAgain w 0 10 ⟨1, 0⟩ hbuilt hop 4 k hk).1
  rw [hcall, hfirst] at hresolves
  exact absurd hresolves (by decide)

theorem built_resolves_iff_mixinAgain : ∃ w, built ⟨64, 8⟩ mixinAgain = some w ∧
    apiOpIdGet w.storage (some 10) = some ⟨1, 0⟩ ∧ ¬w.Unhidden 10 := by
  obtain ⟨w', hbuilt', -, hiff⟩ :=
    built_resolves_iff ⟨64, 8⟩ mixinAgain (by decide) (by decide)
  obtain ⟨w, k, hbuilt, hk, hop, hcall, hfirst⟩ := mixinAgain_built
  obtain rfl := some.inj (hbuilt.symm.trans hbuilt')
  refine ⟨w, hbuilt, hop, ?_⟩
  intro hunhidden
  have hresolves := ((hiff 0 10 ⟨1, 0⟩ hop).mpr hunhidden 4 k hk).1
  rw [hcall, hfirst] at hresolves
  exact absurd hresolves (by decide)

end World

end Eo.Vtable
