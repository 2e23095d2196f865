/-
Merging tables.

A table that is merged into another one only puts forward what it has: what the other one says
for an op changes to what the merged table says, where that says something.
-/
import Efl.Eo.Vtable.Table

namespace Eo.Vtable

open List Option Heap

namespace Work

variable {S : Addr → Prop} {h : Heap} {size : ClassId → Nat} {w : Work} {i j : Nat} {node : Node}
  {src : Node} {a : Addr} {c : Nat}

/-! ### One node -/

theorem prepareEmptyNode_eq (hi : i < w.chain.length) (hsizes : w.hitmap.length = w.chain.length)
    (n : Nat) : (prepareEmptyNode w n i).bind (fun w => w.mark i) =
      some (w.withArray i (List.replicate n ⟨none, none⟩)) := by
  have hhit : i < w.hitmap.length := by omega
  simp [prepareEmptyNode, alloc, setNode, mark, withArray, hi, hhit]

theorem copyNode_eq {cells : List OpFuncs} (hi : i < w.chain.length)
    (hsizes : w.hitmap.length = w.chain.length)
      (hcells : w.heap.loadAll src.funcs src.count = some cells)
    (hcount : cells.length = src.count) :
    (copyNode w i src).bind (fun w => w.mark i) = some (w.withArray i cells) := by
  have hhit : i < w.hitmap.length := by omega
  simp [copyNode, alloc, setNode, mark, withArray, hi, hhit, hcells, hcount]

theorem Node.Ok.loadAll {h : Heap} {node : Node} (hok : node.Ok h c)
    (ha : node.funcs = .array a) : ∃ cells, h.array a = some cells ∧ cells.length = c ∧
      (∀ x ∈ cells, x.Sourced) ∧ h.loadAll node.funcs node.count = some cells ∧ node.count = c := by
  unfold Node.Ok at hok
  rw [ha] at hok
  obtain ⟨hcount, cells, hcells, hlength, hsourced⟩ := hok
  refine ⟨cells, hcells, hlength, hsourced, ?_, hcount⟩
  unfold Heap.loadAll
  split
  · have hnil : cells = [] := eq_nil_of_length_eq_zero (by omega)
    rw [hnil]
  rw [ha]
  dsimp only
  rw [hcells]
  dsimp only
  rw [if_pos (by omega), ← hlength.trans hcount.symm, take_length]

theorem Ok.copy (hw : w.Ok S h size) (hnode : w.chain[i]? = some node)
    (ha : node.funcs = .array a) :
    ∃ cells, (copyNode w i node).bind (fun w => w.mark i) = some (w.withArray i cells) ∧
      cells.length = size i ∧ (w.withArray i cells).Ok S h size ∧
      ∀ op, look (w.withArray i cells).heap (w.withArray i cells).chain op =
        look w.heap w.chain op := by
  have hi : i < w.chain.length := (List.getElem?_eq_some_iff.mp hnode).1
  obtain ⟨cells, hcells, hlength, hsourced, hload, hcount⟩ :=
    Node.Ok.loadAll (hw.nodes i node hnode) ha
  refine ⟨cells, copyNode_eq hi hw.sizes hload (hlength.trans hcount.symm), hlength,
    hw.withArray hlength hsourced, ?_⟩
  intro op
  rw [look_withArray hw.toPrivate hi]
  split
  · rename_i hop
    unfold look
    rw [hop, hnode, bind_some, ha]
    show _ = ((w.heap.array a).bind _).bind _
    rw [hcells]
    rfl
  · rfl

theorem Ok.prepare (hw : w.Ok S h size) (hnode : w.chain[i]? = some node)
    (hcount : node.count = 0) :
    (prepareEmptyNode w (size i) i).bind (fun w => w.mark i) =
        some (w.withArray i (List.replicate (size i) ⟨none, none⟩)) ∧
      (w.withArray i (List.replicate (size i) ⟨none, none⟩)).Ok S h size ∧
      ∀ op, look (w.withArray i (List.replicate (size i) ⟨none, none⟩)).heap
        (w.withArray i (List.replicate (size i) ⟨none, none⟩)).chain op =
          look w.heap w.chain op := by
  have hi : i < w.chain.length := (List.getElem?_eq_some_iff.mp hnode).1
  refine ⟨prepareEmptyNode_eq hi hw.sizes (size i), hw.withArray (by simp) ?_, ?_⟩
  · intro x hx hfunc
    rw [(mem_replicate.mp hx).2] at hfunc
    exact absurd rfl hfunc
  · intro op
    rw [look_withArray hw.toPrivate hi]
    split
    · rename_i hop
      rw [look_empty (hop ▸ hnode) (hw.nodes i node hnode) hcount, getElem?_replicate]
      split <;> rfl
    · rfl

theorem Ok.markEmpty (hw : w.Ok S h size) (hnode : w.chain[i]? = some node) (hsize : size i = 0)
    (hcount : node.count = 0) :
    (insertEmptyFuncs w i).bind (fun w => w.mark i) =
        some ⟨w.heap, w.chain.set i ⟨.marker, 0⟩, w.hitmap.set i true⟩ ∧
      Ok S h size ⟨w.heap, w.chain.set i ⟨.marker, 0⟩, w.hitmap.set i true⟩ ∧
      ∀ op, look w.heap (w.chain.set i ⟨.marker, 0⟩) op = look w.heap w.chain op := by
  have hi : i < w.chain.length := (List.getElem?_eq_some_iff.mp hnode).1
  have hhit : i < w.hitmap.length := by
    rw [hw.sizes]
    exact hi
  have hreplaces : Replaces S h w i w.heap ⟨.marker, 0⟩ (w.hitmap.set i true) :=
    { sizes := length_set
      grows := Nat.le_refl _
      keeps := fun _ _ => rfl
      others := fun i' hne => getElem?_set_ne fun hi => hne hi.symm
      old := fun a ha => absurd ha (by simp)
      hit := fun a _ ha => absurd ha (by simp)
      live := fun a ha => absurd ha (by simp)
      counted := fun hcount => absurd rfl hcount }
  refine ⟨by simp [insertEmptyFuncs, setNode, mark, hi, hhit],
    hw.replace hreplaces ⟨rfl, hsize⟩ fun _ => by simp, ?_⟩
  intro op
  by_cases hop : op.classId = i
  · have hnone : look w.heap w.chain op = none :=
      look_empty (hop ▸ hnode) (hw.nodes i node hnode) hcount
    rw [hnone]
    unfold look
    rw [hop, getElem?_set_self hi]
    rfl
  · exact look_replace hw.toPrivate hreplaces hop

theorem Ok.share {f : Node} (hw : w.Ok S h size) (hi : i < w.chain.length)
    (hhit : w.hitmap[i]? = some false)
    (hnode : f.Ok h (size i)) (hshared : ∀ a, f.funcs = .array a → S a) :
    Ok S h size ⟨w.heap, w.chain.set i f, w.hitmap⟩ ∧
      ∀ op, look w.heap (w.chain.set i f) op =
        if op.classId = i then (h.load f.funcs op.funcId).bind OpFuncs.found
        else look w.heap w.chain op := by
  have hold : ∀ a, f.funcs = .array a → a < h.length := by
    intro a ha
    obtain ⟨cells, hcells⟩ := hnode.live ha
    exact array_lt hcells
  have hkeeps : ∀ a, f.funcs = .array a → w.heap.array a = h.array a :=
    fun a ha => hw.keeps a (hold a ha)
  have hreplaces : Replaces S h w i w.heap f w.hitmap :=
    { sizes := rfl
      grows := Nat.le_refl _
      keeps := fun _ _ => rfl
      others := fun _ _ => rfl
      old := fun a ha => .inl ⟨hshared a ha, hold a ha⟩
      hit := fun a hhit' _ => absurd (hhit.symm.trans hhit') (by simp)
      live := by
        intro a ha
        obtain ⟨cells, hcells⟩ := hnode.live ha
        exact ⟨cells, (hkeeps a ha).trans hcells⟩
      counted := hnode.counted }
  refine ⟨hw.replace hreplaces (hnode.congr hkeeps) fun hhit' => ?_, ?_⟩
  · exact absurd (hhit.symm.trans hhit') (by simp)
  · intro op
    split
    · rename_i hop
      unfold look
      rw [hop, getElem?_set_self hi, bind_some, load_congr hkeeps]
    · rename_i hop
      exact look_replace hw.toPrivate hreplaces hop

/-- Storing one function. -/
theorem Ok.store (hw : w.Ok S h size) (hnode : w.chain[i]? = some node)
    (hhit : w.hitmap[i]? = some true) (hj : j < size i) {x : OpFuncs} (hx : x.Sourced) :
    ∃ heap, w.heap.store node.funcs j x = some heap ∧ Ok S h size ⟨heap, w.chain, w.hitmap⟩ ∧
      ∀ op, look heap w.chain op = if op = ⟨i, j⟩ then x.found else look w.heap w.chain op := by
  have hok := hw.nodes i node hnode
  obtain ⟨a, ha⟩ : ∃ a, node.funcs = .array a := by
    unfold Node.Ok at hok
    cases hfuncs : node.funcs with
    | null => exact absurd hfuncs (hw.set i node hnode hhit)
    | marker =>
      rw [hfuncs] at hok
      omega
    | array a => exact ⟨a, rfl⟩
  obtain ⟨cells, hcells, hlength, hsourced, -, hcount⟩ := Node.Ok.loadAll hok ha
  have hlt := array_lt hcells
  have hfresh := hw.hit i node a hnode hhit ha
  have hself : Heap.array (w.heap.set a (some (cells.set j x))) a = some (cells.set j x) :=
    array_set_self _ hlt
  have hother : ∀ b, a ≠ b →
      Heap.array (w.heap.set a (some (cells.set j x))) b = w.heap.array b :=
    fun b hab => array_set_of_ne _ hab
  -- no other node has the array that is written to
  have hapart : ∀ i' node', w.chain[i']? = some node' → i' ≠ i → ∀ b, node'.funcs = .array b →
      Heap.array (w.heap.set a (some (cells.set j x))) b = w.heap.array b := by
    intro i' node' hnode' hne b hb
    refine hother b ?_
    rintro rfl
    exact hne (hw.apart i' i node' node a hnode' hnode hb ha hfresh)
  refine ⟨w.heap.set a (some (cells.set j x)), ?_, ⟨⟨hw.sizes, ?_, ?_, hw.hit, hw.apart, hw.origin,
    ?_, hw.counted⟩, ?_, hw.set⟩, ?_⟩
  · unfold Heap.store
    rw [ha]
    dsimp only
    rw [hcells]
    dsimp only
    have hinside : j < cells.length := by omega
    rw [if_pos hinside]
  · rw [length_set]
    exact hw.grows
  · intro b hb
    rw [← hw.keeps b hb]
    exact hother b (Nat.ne_of_gt (Nat.lt_of_lt_of_le hb hfresh))
  · intro i' node' b hnode' hb
    obtain ⟨cells', hcells'⟩ := hw.live i' node' b hnode' hb
    by_cases hab : a = b
    · subst hab
      exact ⟨_, hself⟩
    · exact ⟨cells', (hother b hab).trans hcells'⟩
  · intro i' node' hnode'
    by_cases hi' : i' = i
    · subst hi'
      obtain rfl : node = node' := some.inj (hnode.symm.trans hnode')
      unfold Node.Ok
      rw [ha]
      refine ⟨hcount, cells.set j x, hself, by rw [length_set]; exact hlength, ?_⟩
      intro y hy
      rcases mem_or_eq_of_mem_set hy with hy | rfl
      · exact hsourced y hy
      · exact hx
    · exact (hw.nodes i' node' hnode').congr (hapart i' node' hnode' hi')
  · intro op
    obtain ⟨i', j'⟩ := op
    by_cases hi' : i' = i
    · subst hi'
      unfold look
      rw [hnode, bind_some, bind_some, ha]
      show ((Heap.array _ a).bind _).bind _ = if _ then _ else ((w.heap.array a).bind _).bind _
      rw [hself, hcells, bind_some, bind_some]
      by_cases hj' : j' = j
      · subst hj'
        rw [if_pos rfl, getElem?_set_self (by omega)]
        rfl
      · rw [if_neg (by simpa using hj'), getElem?_set_ne fun hj => hj' hj.symm]
    · rw [if_neg (by simp [hi'])]
      unfold look
      cases hnode' : w.chain[i']? with
      | none => rfl
      | some node' =>
        rw [bind_some, bind_some, load_congr (hapart i' node' hnode' hi')]

/-! ### A whole table -/

/-- What a node says for an op of its class. -/
def slot (h : Heap) (node : Node) (j : Nat) : Option (Func × ClassId) :=
  (h.load node.funcs j).bind OpFuncs.found

theorem slot_of_le (hsrc : src.Ok h c) (hj : src.count ≤ j) :
    slot h src j = none := by
  unfold slot
  cases hfuncs : src.funcs with
  | null => rfl
  | marker => rfl
  | array a =>
    obtain ⟨cells, hcells, hlength, -, -, hcount⟩ := Node.Ok.loadAll hsrc hfuncs
    show ((h.array a).bind (·[j]?)).bind OpFuncs.found = none
    rw [hcells, bind_some, getElem?_eq_none (by omega)]
    rfl

theorem below_succ_iff {P : Prop} {j k : Nat} (h : ¬(P ∧ j = k)) : P ∧ j < k ↔ P ∧ j < k + 1 := by
  refine ⟨fun hboth => ⟨hboth.1, Nat.lt_succ_of_lt hboth.2⟩, fun hboth => ⟨hboth.1, ?_⟩⟩
  have hne : j ≠ k := fun hj => h ⟨hboth.1, hj⟩
  omega

/-- Merging the functions of a node. -/
theorem Ok.mergeFuncs (hw : w.Ok S h size) (hnode : w.chain[i]? = some node)
    (hhit : w.hitmap[i]? = some true) (hsrc : src.Ok h (size i)) :
    ∃ heap, (List.range src.count).foldlM (mergeFunc src i) w = some ⟨heap, w.chain, w.hitmap⟩ ∧
      Ok S h size ⟨heap, w.chain, w.hitmap⟩ ∧
      ∀ op, look heap w.chain op =
        if op.classId = i then (slot h src op.funcId).or (look w.heap w.chain op)
        else look w.heap w.chain op := by
  have hloop : ∃ w', (range src.count).foldlM (mergeFunc src i) w = some w' ∧
      (∃ heap, w' = ⟨heap, w.chain, w.hitmap⟩) ∧ w'.Ok S h size ∧
      ∀ op, look w'.heap w.chain op =
        if op.classId = i ∧ op.funcId < 0 + (range src.count).length then
          (slot h src op.funcId).or (look w.heap w.chain op)
        else look w.heap w.chain op := by
    refine Loop.foldlM_holds
      (I := fun k w' => (∃ heap, w' = ⟨heap, w.chain, w.hitmap⟩) ∧ w'.Ok S h size ∧
        ∀ op, look w'.heap w.chain op =
          if op.classId = i ∧ op.funcId < k then
            (slot h src op.funcId).or (look w.heap w.chain op)
          else look w.heap w.chain op)
      (range src.count) 0 w ?_ ⟨⟨w.heap, rfl⟩, hw, fun op => by simp⟩
    rintro j k w' hj ⟨⟨heap, rfl⟩, hok, hlook⟩
    rw [getElem?_eq_some_iff] at hj
    obtain ⟨hk, hj⟩ := hj
    rw [getElem_range] at hj
    subst hj
    rw [length_range] at hk
    rw [Nat.zero_add] at hlook ⊢
    have hpos : src.count ≠ 0 := by omega
    obtain ⟨a, ha⟩ := hsrc.counted hpos
    obtain ⟨cells, hcells, hlength, hsourced, -, hcount⟩ := Node.Ok.loadAll hsrc ha
    obtain ⟨x, hx⟩ : ∃ x, cells[j]? = some x := ⟨_, getElem?_eq_getElem (by omega)⟩
    have hload : h.load src.funcs j = some x := by
      rw [ha]
      show (h.array a).bind _ = _
      rw [hcells]
      exact hx
    have hload' : heap.load src.funcs j = some x := by
      rw [← hload]
      refine load_congr ?_ j
      intro b hb
      obtain rfl := Funcs.array.inj (ha.symm.trans hb)
      exact hok.keeps a (array_lt hcells)
    have hslot : slot h src j = x.found := by
      unfold slot
      rw [hload]
      rfl
    rw [mergeFunc, hload', bind_eq_bind, bind_some]
    by_cases hfunc : x.func = none
    · rw [if_pos hfunc]
      refine ⟨_, rfl, ⟨heap, rfl⟩, hok, ?_⟩
      intro op
      rw [hlook]
      by_cases hop : op.classId = i ∧ op.funcId = j
      · have hnot : ¬(op.classId = i ∧ op.funcId < j) := fun hboth => by omega
        have hlast : op.classId = i ∧ op.funcId < j + 1 := ⟨hop.1, by omega⟩
        rw [if_neg hnot, if_pos hlast, hop.2, hslot, OpFuncs.found_eq_none hfunc, none_or]
      · simp only [below_succ_iff hop]
    · rw [if_neg hfunc]
      obtain ⟨heap', hstore, hok', hlook'⟩ := hok.store hnode hhit (j := j) (by omega)
        (hsourced x (mem_of_getElem? hx))
      rw [hnode, bind_eq_bind, bind_some, hstore]
      refine ⟨_, rfl, ⟨heap', rfl⟩, hok', ?_⟩
      intro op
      rw [hlook', hlook]
      obtain ⟨i', j'⟩ := op
      by_cases hop : i' = i ∧ j' = j
      · obtain ⟨rfl, rfl⟩ := hop
        obtain ⟨v, hv⟩ := ne_none_iff_exists'.mp
          (OpFuncs.found_ne_none (hsourced x (mem_of_getElem? hx)) hfunc)
        rw [if_pos rfl, if_pos ⟨rfl, Nat.lt_succ_self _⟩, hslot, hv, some_or]
      · have hne : (⟨i', j'⟩ : Op) ≠ ⟨i, j⟩ := by
          intro heq
          exact hop ⟨congrArg Op.classId heq, congrArg Op.funcId heq⟩
        rw [if_neg hne]
        simp only [below_succ_iff hop]
  obtain ⟨w', hfold, ⟨heap, rfl⟩, hok, hlook⟩ := hloop
  refine ⟨heap, hfold, hok, ?_⟩
  intro op
  rw [hlook, length_range, Nat.zero_add]
  by_cases hop : op.classId = i
  · by_cases hj : op.funcId < src.count
    · rw [if_pos ⟨hop, hj⟩, if_pos hop]
    · rw [if_neg (fun hboth => hj hboth.2), if_pos hop,
        slot_of_le hsrc (Nat.not_lt.mp hj), none_or]
  · rw [if_neg (fun hboth => hop hboth.1), if_neg hop]

theorem Ok.unmarked (hw : w.Ok S h size) (hnode : w.chain[i]? = some node)
    (hnull : node.funcs = .null) :
    w.hitmap[i]? = some false := by
  have hi : i < w.hitmap.length := by
    rw [hw.sizes]
    exact (List.getElem?_eq_some_iff.mp hnode).1
  cases hhit : w.hitmap[i] with
  | false => rw [getElem?_eq_getElem hi, hhit]
  | true =>
    refine absurd hnull (hw.set i node hnode ?_)
    rw [getElem?_eq_getElem hi, hhit]

theorem slot_null (hnull : src.funcs = .null) (j : Nat) : slot h src j = none := by
  unfold slot
  rw [hnull]
  rfl

theorem Ok.own (hw : w.Ok S h size) (hnode : w.chain[i]? = some node) (hset : node.funcs ≠ .null) :
    ∃ w' node', ((if node.count = 0 then insertEmptyFuncs w i else copyNode w i node).bind
        fun w => w.mark i) = some w' ∧ w'.Ok S h size ∧ w'.chain.length = w.chain.length ∧
      w'.chain[i]? = some node' ∧ w'.hitmap[i]? = some true ∧
      (∀ i' ≠ i, w'.chain[i']? = w.chain[i']?) ∧
      ∀ op, look w'.heap w'.chain op = look w.heap w.chain op := by
  have hi : i < w.chain.length := (List.getElem?_eq_some_iff.mp hnode).1
  have hothers : ∀ (x : Node) i', i' ≠ i → (w.chain.set i x)[i']? = w.chain[i']? :=
    fun x i' hne => getElem?_set_ne fun hi => hne hi.symm
  have hhit : i < w.hitmap.length := by
    rw [hw.sizes]
    exact hi
  have hok := hw.nodes i node hnode
  by_cases hcount : node.count = 0
  · have hsize : size i = 0 := by
      unfold Node.Ok at hok
      cases hfuncs : node.funcs with
      | null => exact absurd hfuncs hset
      | marker =>
        rw [hfuncs] at hok
        exact hok.2
      | array a =>
        rw [hfuncs] at hok
        exact hok.1.symm.trans hcount
    obtain ⟨hmark, hw', hlook⟩ := hw.markEmpty hnode hsize hcount
    rw [if_pos hcount]
    exact ⟨_, _, hmark, hw', length_set, getElem?_set_self hi,
      getElem?_set_self hhit, hothers _, hlook⟩
  · obtain ⟨a, ha⟩ := hok.counted hcount
    obtain ⟨cells, hcopy, -, hw', hlook⟩ := hw.copy hnode ha
    rw [if_neg hcount]
    exact ⟨_, _, hcopy, hw', length_set, getElem?_set_self hi,
      getElem?_set_self hhit, hothers _, hlook⟩

/-- A node that is shared is copied before it is written. -/
theorem Ok.mergeDefinedNode (hw : w.Ok S h size) (hi : i < w.chain.length)
    (hsrc : node.Ok h (size i)) (hshared : ∀ a, node.funcs = .array a → S a) :
    ∃ w', mergeDefinedNode i node w = some (w', none) ∧ w'.Ok S h size ∧
      w'.chain.length = w.chain.length ∧ (∀ i' ≠ i, w'.chain[i']? = w.chain[i']?) ∧
      ∀ op, look w'.heap w'.chain op =
        if op.classId = i then (slot h node op.funcId).or (look w.heap w.chain op)
        else look w.heap w.chain op := by
  unfold Vtable.mergeDefinedNode
  by_cases hnull : node.funcs = .null
  · rw [if_pos hnull]
    refine ⟨w, rfl, hw, rfl, fun _ _ => rfl, ?_⟩
    intro op
    rw [slot_null hnull, none_or, ite_self]
  rw [if_neg hnull]
  obtain ⟨dest, hdest⟩ : ∃ dest, w.chain[i]? = some dest := ⟨_, getElem?_eq_getElem hi⟩
  by_cases hdestNull : dest.funcs = .null
  · have hhit := hw.unmarked hdest hdestNull
    obtain ⟨hw', hlook⟩ := hw.share hi hhit hsrc hshared
    refine ⟨⟨w.heap, w.chain.set i node, w.hitmap⟩, ?_, hw', length_set,
      fun i' hne => getElem?_set_ne fun hi => hne hi.symm, ?_⟩
    · simp only [hdest, hhit, hdestNull, setNode, hi, bind_eq_bind, bind_some]
      rfl
    · intro op
      rw [hlook]
      split
      · rename_i hop
        rw [look_null (hop ▸ hdest) hdestNull, or_none]
        rfl
      · rfl
  · obtain ⟨w1, dest', hown, hw1, hlength1, hdest', hhit', hothers1, hlook1⟩ :
        ∃ w1 dest', (if w.hitmap[i]? = some true then some w
          else (if dest.count = 0 then insertEmptyFuncs w i else copyNode w i dest).bind
            fun w => w.mark i) = some w1 ∧ w1.Ok S h size ∧ w1.chain.length = w.chain.length ∧
          w1.chain[i]? = some dest' ∧ w1.hitmap[i]? = some true ∧
          (∀ i' ≠ i, w1.chain[i']? = w.chain[i']?) ∧
          ∀ op, look w1.heap w1.chain op = look w.heap w.chain op := by
      by_cases hhit : w.hitmap[i]? = some true
      · rw [if_pos hhit]
        exact ⟨w, dest, rfl, hw, rfl, hdest, hhit, fun _ _ => rfl, fun _ => rfl⟩
      · rw [if_neg hhit]
        exact hw.own hdest hdestNull
    obtain ⟨heap, hmerge, hw', hlook⟩ := hw1.mergeFuncs hdest' hhit' hsrc
    refine ⟨⟨heap, w1.chain, w1.hitmap⟩, ?_, hw', hlength1, hothers1, ?_⟩
    · obtain ⟨hit, hhit⟩ : ∃ hit, w.hitmap[i]? = some hit :=
        ⟨_, getElem?_eq_getElem (by rw [hw.sizes]; exact hi)⟩
      rw [hhit] at hown
      simp only [hdest, hhit, hdestNull, bind_eq_bind, bind_some, if_false]
      cases hit with
      | true =>
        rw [if_pos rfl] at hown ⊢
        obtain rfl := some.inj hown
        rw [hmerge, bind_some]
      | false =>
        rw [if_neg (by simp)] at hown ⊢
        rw [hown, bind_some, hmerge, bind_some]
    · intro op
      rw [hlook, hlook1]

/-- The table stays fine, and only nodes of the first `n` classes are written to. -/
structure Merged (S : Addr → Prop) (h : Heap) (size : ClassId → Nat) (n : Nat) (w w' : Work) :
    Prop where
  ok : w'.Ok S h size
  length : w'.chain.length = w.chain.length
  others : ∀ i, n ≤ i → w'.chain[i]? = w.chain[i]?

theorem Ok.merged (hw : w.Ok S h size) (n : Nat) : Merged S h size n w w :=
  ⟨hw, rfl, fun _ _ => rfl⟩

theorem Merged.trans {w1 w' : Work} {m n : Nat} (h1 : Merged S h size m w w1)
    (h2 : Merged S h size n w1 w') (hle : m ≤ n) : Merged S h size n w w' :=
  ⟨h2.ok, h2.length.trans h1.length,
    fun i hi => (h2.others i hi).trans (h1.others i (Nat.le_trans hle hi))⟩

/-- **A table is merged**: what it says comes first. -/
theorem Ok.mergeDefinedApi (hw : w.Ok S h size) {src : List Node} (hsrc : TableOk h size src)
    (hshared : Within S src) (hlength : src.length ≤ w.chain.length) :
    ∃ w', mergeDefinedApi w src = some w' ∧ Merged S h size src.length w w' ∧
      ∀ op, look w'.heap w'.chain op = (look h src op).or (look w.heap w.chain op) := by
  obtain ⟨w', heach, hmerged, hlook⟩ := Loop.each_ends_never
    (f := Vtable.mergeDefinedNode)
    (I := fun k w' => Merged S h size k w w' ∧ ∀ op, look w'.heap w'.chain op =
      if op.classId < k then (look h src op).or (look w.heap w.chain op)
      else look w.heap w.chain op)
    (by
      rintro k node w1 hnode ⟨⟨hw1, hsize, hothers⟩, hlook⟩
      have hk : k < src.length := (List.getElem?_eq_some_iff.mp hnode).1
      obtain ⟨w2, hstep, hw2, hsize2, hothers2, hlook2⟩ :=
        hw1.mergeDefinedNode (by omega) (hsrc k node hnode)
          fun a ha => hshared k node a hnode ha
      refine ⟨w2, hstep, ⟨hw2, hsize2.trans hsize, ?_⟩, ?_⟩
      · intro i hi
        exact (hothers2 i (by omega)).trans (hothers i (by omega))
      intro op
      rw [hlook2]
      split
      · rename_i hop
        obtain ⟨i', j'⟩ := op
        obtain rfl : i' = k := hop
        rw [hlook, if_neg (Nat.lt_irrefl _), if_pos (Nat.lt_succ_self _)]
        unfold look slot
        rw [hnode, bind_some]
      · rename_i hop
        rw [hlook]
        have hiff : op.classId < k ↔ op.classId < k + 1 :=
          ⟨Nat.lt_succ_of_lt, fun hlt => Nat.lt_of_le_of_ne (Nat.le_of_lt_succ hlt) hop⟩
        simp only [hiff])
    ⟨hw.merged 0, fun op => by simp⟩
  refine ⟨w', by rw [Vtable.mergeDefinedApi, heach]; rfl, hmerged, ?_⟩
  intro op
  rw [hlook]
  split
  · rfl
  rename_i hop
  have hnone : look h src op = none := by
    unfold look
    rw [getElem?_eq_none (Nat.not_lt.mp hop)]
    rfl
  rw [hnone, none_or]

theorem Ok.mergeEmptyNode (hw : w.Ok S h size) (hi : i < w.chain.length)
    (hsrc : node.Ok h (size i)) (hshared : ∀ a, node.funcs = .array a → S a) :
    ∃ w', mergeEmptyNode i node w = some (w', none) ∧ w'.Ok S h size ∧
      w'.chain.length = w.chain.length ∧ (∀ i' ≠ i, w'.chain[i']? = w.chain[i']?) ∧
      ∀ op, look w'.heap w'.chain op = look w.heap w.chain op := by
  unfold Vtable.mergeEmptyNode
  by_cases hnull : node.funcs = .null
  · rw [if_pos hnull]
    exact ⟨w, rfl, hw, rfl, fun _ _ => rfl, fun _ => rfl⟩
  rw [if_neg hnull]
  have hothers : ∀ (x : Node) i', i' ≠ i → (w.chain.set i x)[i']? = w.chain[i']? :=
    fun x i' hne => getElem?_set_ne fun hi => hne hi.symm
  obtain ⟨dest, hdest⟩ : ∃ dest, w.chain[i]? = some dest := ⟨_, getElem?_eq_getElem hi⟩
  by_cases hdestNull : dest.funcs = .null
  · by_cases hcount : node.count = 0
    · obtain ⟨hw', hlook⟩ := hw.share hi (hw.unmarked hdest hdestNull) hsrc hshared
      refine ⟨⟨w.heap, w.chain.set i node, w.hitmap⟩, ?_, hw', length_set, hothers _, ?_⟩
      · simp only [hdest, hdestNull, hcount, setNode, hi, bind_eq_bind, bind_some,
          if_true, ne_eq, not_true_eq_false, if_false]
      · intro op
        rw [hlook]
        split
        · rename_i hop
          rw [look_null (hop ▸ hdest) hdestNull]
          exact slot_of_le hsrc (by omega)
        · rfl
    · obtain ⟨a, ha⟩ := hsrc.counted hcount
      obtain ⟨-, -, -, -, -, hsize⟩ := Node.Ok.loadAll hsrc ha
      have hempty : dest.count = 0 := by
        have hok := hw.nodes i dest hdest
        unfold Node.Ok at hok
        rw [hdestNull] at hok
        exact hok
      obtain ⟨hprepare, hw', hlook⟩ := hw.prepare hdest hempty
      refine ⟨_, ?_, hw', length_set, hothers _, hlook⟩
      rw [hsize]
      have hne : size i ≠ 0 := hsize ▸ hcount
      simp only [hdest, hdestNull, bind_eq_bind, bind_some, ne_eq,
        not_true_eq_false, if_false, hne, hprepare]
  · refine ⟨w, ?_, hw, rfl, fun _ _ => rfl, fun _ => rfl⟩
    simp only [hdest, hdestNull, bind_eq_bind, bind_some, ne_eq, not_false_eq_true,
      if_true]

theorem Ok.mergeEmpty (hw : w.Ok S h size) {src : List Node} (hsrc : TableOk h size src)
    (hshared : Within S src) (hlength : src.length ≤ w.chain.length) :
    ∃ w', mergeEmpty w src = some w' ∧ Merged S h size src.length w w' ∧
      ∀ op, look w'.heap w'.chain op = look w.heap w.chain op := by
  obtain ⟨w', heach, hmerged, hlook⟩ := Loop.each_ends_never
    (f := Vtable.mergeEmptyNode)
    (I := fun k w' => Merged S h size k w w' ∧
      ∀ op, look w'.heap w'.chain op = look w.heap w.chain op)
    (by
      rintro k node w1 hnode ⟨⟨hw1, hsize, hothers⟩, hlook⟩
      have hk : k < src.length := (List.getElem?_eq_some_iff.mp hnode).1
      obtain ⟨w2, hstep, hw2, hsize2, hothers2, hlook2⟩ :=
        hw1.mergeEmptyNode (by omega) (hsrc k node hnode)
          fun a ha => hshared k node a hnode ha
      refine ⟨w2, hstep, ⟨hw2, hsize2.trans hsize, ?_⟩, fun op => (hlook2 op).trans (hlook op)⟩
      intro i hi
      exact (hothers2 i (by omega)).trans (hothers i (by omega)))
    ⟨hw.merged 0, fun _ => rfl⟩
  exact ⟨w', by rw [Vtable.mergeEmpty, heach]; rfl, hmerged, hlook⟩

end Work

end Eo.Vtable
