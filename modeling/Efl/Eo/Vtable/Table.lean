/-
What a table says, and what each way of writing to it changes.

`look` is the function that a table has for an op, whatever arrays it is kept in.  While a table
is being made, the arrays that were there before stay as they are: a node is marked in the
`hitmap` only once its array was allocated since, no two nodes have the same of these arrays, and
only a node that is marked is written to.  Every step keeps this, and it changes what the table
says in one node at most.
-/
import Efl.Eo.Vtable.Basic

namespace Eo.Vtable

open Option Heap

/-- What a call takes from a slot. -/
def OpFuncs.found : OpFuncs → Option (Func × ClassId)
  | ⟨some f, some src⟩ => some (f, src)
  | _ => none

/-- A slot with a function has the class that set it. -/
def OpFuncs.Sourced (x : OpFuncs) : Prop := x.func ≠ none → x.src ≠ none

variable {x : OpFuncs}

theorem OpFuncs.found_eq_none (h : x.func = none) : x.found = none := by
  obtain ⟨func, src⟩ := x
  cases h
  rfl

theorem OpFuncs.found_ne_none (hs : x.Sourced) (h : x.func ≠ none) :
    x.found ≠ none := by
  obtain ⟨_ | f, _ | src⟩ := x
  · exact absurd rfl h
  · exact absurd rfl h
  · exact absurd rfl (hs h)
  · simp [found]

/-- The function a table has for an op. -/
def look (h : Heap) (chain : List Node) (op : Op) : Option (Func × ClassId) :=
  (chain[op.classId]?).bind fun node => (h.load node.funcs op.funcId).bind OpFuncs.found

/-- A node whose class has `c` functions of its own. -/
def Node.Ok (h : Heap) (c : Nat) (node : Node) : Prop :=
  match node.funcs with
  | .null => node.count = 0
  | .marker => node.count = 0 ∧ c = 0
  | .array a => node.count = c ∧
      ∃ cells, h.array a = some cells ∧ cells.length = c ∧ ∀ x ∈ cells, x.Sourced

/-- Every node of a table is well formed; `size` says how many functions each class has. -/
def TableOk (h : Heap) (size : ClassId → Nat) (chain : List Node) : Prop :=
  ∀ (i : Nat) (node : Node), chain[i]? = some node → node.Ok h (size i)

/-- The arrays of a table are among `S`. -/
def Within (S : Addr → Prop) (chain : List Node) : Prop :=
  ∀ (i : Nat) (node : Node) (a : Addr), chain[i]? = some node → node.funcs = .array a → S a

/-- The arrays of a table are the same in both heaps. -/
def Same (h h' : Heap) (chain : List Node) : Prop :=
  ∀ (i : Nat) (node : Node) (a : Addr), chain[i]? = some node → node.funcs = .array a →
    h'.array a = h.array a

/-! ### The heap -/

namespace Heap

variable {h : Heap} {a : Addr} (cell : Option (List OpFuncs))

theorem array_lt {cells : List OpFuncs} (ha : h.array a = some cells) :
    a < h.length := by
  obtain ⟨cell, hcell, -⟩ := bind_eq_some_iff.mp ha
  exact (getElem?_eq_some_iff.mp hcell).1

theorem array_append_left (cells : List OpFuncs) (ha : a < h.length) :
    Heap.array (h ++ [some cells]) a = h.array a := by
  unfold array
  rw [List.getElem?_append_left ha]

theorem array_append_self (h : Heap) (cells : List OpFuncs) :
    Heap.array (h ++ [some cells]) h.length = some cells := by
  unfold array
  simp

theorem array_set_self (ha : a < h.length) :
    Heap.array (h.set a cell) a = cell := by
  unfold array
  rw [List.getElem?_set_self ha]
  rfl

theorem array_set_of_ne {b : Addr} (hab : a ≠ b) :
    Heap.array (h.set a cell) b = h.array b := by
  unfold array
  rw [List.getElem?_set_ne hab]

theorem load_congr {h' : Heap} {funcs : Funcs}
    (hsame : ∀ a, funcs = .array a → h'.array a = h.array a) (j : Nat) :
    h'.load funcs j = h.load funcs j := by
  cases funcs with
  | null => rfl
  | marker => rfl
  | array a =>
    show (h'.array a).bind _ = (h.array a).bind _
    rw [hsame a rfl]

end Heap

variable {h h' : Heap} {chain : List Node}

theorem Same.look (hsame : Same h h' chain) (op : Op) :
    look h' chain op = look h chain op := by
  unfold Vtable.look
  cases hnode : chain[op.classId]? with
  | none => rfl
  | some node =>
    rw [bind_some, bind_some,
      load_congr fun a ha => hsame op.classId node a hnode ha]

variable {c : Nat} {node : Node} {op : Op}

theorem Node.Ok.congr (hok : node.Ok h c)
    (hsame : ∀ a, node.funcs = .array a → h'.array a = h.array a) : node.Ok h' c := by
  unfold Node.Ok at hok ⊢
  split
  · rename_i hfuncs
    rw [hfuncs] at hok
    exact hok
  · rename_i hfuncs
    rw [hfuncs] at hok
    exact hok
  · rename_i a hfuncs
    rw [hfuncs] at hok
    rw [hsame a hfuncs]
    exact hok

theorem TableOk.congr {size : ClassId → Nat} (hok : TableOk h size chain)
    (hsame : Same h h' chain) :
    TableOk h' size chain :=
  fun i node hnode => (hok i node hnode).congr fun a ha => hsame i node a hnode ha

theorem TableOk.same {size : ClassId → Nat} (hok : TableOk h size chain)
    (hkeeps : ∀ a : Addr, a < h.length → h'.array a = h.array a) :
    Same h h' chain := by
  intro i node a hnode ha
  have hnodeOk := hok i node hnode
  unfold Node.Ok at hnodeOk
  rw [ha] at hnodeOk
  obtain ⟨-, cells, hcells, -⟩ := hnodeOk
  exact hkeeps a (array_lt hcells)

theorem look_null (hnode : chain[op.classId]? = some node) (hnull : node.funcs = .null) :
    look h chain op = none := by
  unfold look
  rw [hnode, bind_some, hnull]
  rfl

theorem look_empty (hnode : chain[op.classId]? = some node) (hok : node.Ok h c)
    (hcount : node.count = 0) :
    look h chain op = none := by
  unfold look
  rw [hnode, bind_some]
  unfold Node.Ok at hok
  cases hfuncs : node.funcs with
  | null => rfl
  | marker => rfl
  | array a =>
    rw [hfuncs] at hok
    obtain ⟨hc, cells, hcells, hlength, -⟩ := hok
    have hnil : cells = [] := List.eq_nil_of_length_eq_zero (by omega)
    show ((h.array a).bind (·[op.funcId]?)).bind OpFuncs.found = none
    rw [hcells, hnil]
    rfl

/-! ### A table that is being made -/

/--
What is kept while a table is made in a heap that began as `h`; `S` are the arrays of the tables
that it is made from.
-/
structure Work.Private (S : Addr → Prop) (h : Heap) (w : Work) : Prop where
  sizes : w.hitmap.length = w.chain.length
  grows : h.length ≤ w.heap.length
  keeps : ∀ a : Addr, a < h.length → w.heap.array a = h.array a
  /-- A node that is marked has an array that was allocated since. -/
  hit : ∀ (i : Nat) (node : Node) (a : Addr), w.chain[i]? = some node → w.hitmap[i]? = some true →
    node.funcs = .array a → h.length ≤ a
  apart : ∀ (i i' : Nat) (node node' : Node) (a : Addr), w.chain[i]? = some node →
    w.chain[i']? = some node' →
    node.funcs = .array a → node'.funcs = .array a → h.length ≤ a → i = i'
  /-- What was there before is in the tables that were taken over or merged. -/
  origin : ∀ (i : Nat) (node : Node) (a : Addr), w.chain[i]? = some node → node.funcs = .array a →
    S a ∨ h.length ≤ a
  live : ∀ (i : Nat) (node : Node) (a : Addr), w.chain[i]? = some node → node.funcs = .array a →
    ∃ cells, w.heap.array a = some cells
  counted : ∀ (i : Nat) (node : Node), w.chain[i]? = some node → node.count ≠ 0 →
    ∃ a, node.funcs = .array a

/-- And the nodes of the table are well formed. -/
structure Work.Ok (S : Addr → Prop) (h : Heap) (size : ClassId → Nat) (w : Work) :
    Prop extends Work.Private S h w where
  nodes : TableOk w.heap size w.chain
  set : ∀ (i : Nat) (node : Node), w.chain[i]? = some node → w.hitmap[i]? = some true →
    node.funcs ≠ .null

theorem Node.Ok.live {a : Addr} (hok : node.Ok h c) (ha : node.funcs = .array a) :
    ∃ cells, h.array a = some cells := by
  unfold Node.Ok at hok
  rw [ha] at hok
  obtain ⟨-, cells, hcells, -⟩ := hok
  exact ⟨cells, hcells⟩

theorem Node.Ok.count_eq (hok : node.Ok h c) (hset : node.funcs ≠ .null) : node.count = c := by
  unfold Node.Ok at hok
  cases hfuncs : node.funcs with
  | null => exact absurd hfuncs hset
  | marker =>
    rw [hfuncs] at hok
    exact hok.1.trans hok.2.symm
  | array a =>
    rw [hfuncs] at hok
    exact hok.1

theorem Node.Ok.counted (hok : node.Ok h c) (hcount : node.count ≠ 0) :
    ∃ a, node.funcs = .array a := by
  unfold Node.Ok at hok
  cases hfuncs : node.funcs with
  | null =>
    rw [hfuncs] at hok
    exact absurd hok hcount
  | marker =>
    rw [hfuncs] at hok
    exact absurd hok.1 hcount
  | array a => exact ⟨a, rfl⟩

namespace Work

variable {S : Addr → Prop} {h heap : Heap} {size : ClassId → Nat} {w : Work} {i j : Nat}
    {node : Node}
  {hitmap : List Bool}

/-- What may be written to a node: what was there at first, or an array that is new. -/
structure Replaces (S : Addr → Prop) (h : Heap) (w : Work) (i : Nat) (heap : Heap) (node : Node)
    (hitmap : List Bool) : Prop where
  sizes : hitmap.length = w.hitmap.length
  grows : w.heap.length ≤ heap.length
  keeps : ∀ a : Addr, a < w.heap.length → heap.array a = w.heap.array a
  others : ∀ i' ≠ i, hitmap[i']? = w.hitmap[i']?
  old : ∀ a, node.funcs = .array a → (S a ∧ a < h.length) ∨ w.heap.length ≤ a
  hit : ∀ a, hitmap[i]? = some true → node.funcs = .array a → w.heap.length ≤ a
  live : ∀ a, node.funcs = .array a → ∃ cells, heap.array a = some cells
  counted : node.count ≠ 0 → ∃ a, node.funcs = .array a

theorem Private.below (hw : w.Private S h) {a : Addr} (hnode : w.chain[i]? = some node)
    (ha : node.funcs = .array a) : a < w.heap.length := by
  obtain ⟨cells, hcells⟩ := hw.live i node a hnode ha
  exact array_lt hcells

theorem getElem?_set_cases {l : List Node} {i' : Nat} {x : Node}
    (h : (l.set i node)[i']? = some x) :
    i' = i ∧ x = node ∨ i' ≠ i ∧ l[i']? = some x := by
  rw [List.getElem?_set] at h
  split at h
  · rename_i hi
    split at h
    · exact .inl ⟨hi.symm, (some.inj h).symm⟩
    · simp at h
  · rename_i hi
    exact .inr ⟨fun hi' => hi hi'.symm, h⟩

/-- An array that no other table has is replaced, which changes one table only. -/
theorem Private.replace (hw : w.Private S h) (hr : Replaces S h w i heap node hitmap) :
    Private S h ⟨heap, w.chain.set i node, hitmap⟩ := by
  refine ⟨?_, ?_, ?_, ?_, ?_, ?_, ?_, ?_⟩
  · rw [List.length_set, hr.sizes]
    exact hw.sizes
  · exact Nat.le_trans hw.grows hr.grows
  · intro a ha
    rw [hr.keeps a (Nat.lt_of_lt_of_le ha hw.grows)]
    exact hw.keeps a ha
  · intro i' x a hx hhit ha
    rcases getElem?_set_cases hx with ⟨rfl, rfl⟩ | ⟨hne, hx⟩
    · exact Nat.le_trans hw.grows (hr.hit a hhit ha)
    · rw [hr.others i' hne] at hhit
      exact hw.hit i' x a hx hhit ha
  · intro i1 i2 x1 x2 a hx1 hx2 ha1 ha2 hfresh
    rcases getElem?_set_cases hx1 with ⟨rfl, rfl⟩ | ⟨hne1, hold1⟩
    · rcases getElem?_set_cases hx2 with ⟨rfl, rfl⟩ | ⟨hne2, hx2⟩
      · rfl
      have hbelow := hw.below hx2 ha2
      rcases hr.old a ha1 with ⟨-, hold⟩ | hnew
      · exact absurd hold (Nat.not_lt.mpr hfresh)
      · exact absurd hbelow (Nat.not_lt.mpr hnew)
    · rcases getElem?_set_cases hx2 with ⟨rfl, rfl⟩ | ⟨hne2, hx2⟩
      · have hbelow := hw.below hold1 ha1
        rcases hr.old a ha2 with ⟨-, hold⟩ | hnew
        · exact absurd hold (Nat.not_lt.mpr hfresh)
        · exact absurd hbelow (Nat.not_lt.mpr hnew)
      · exact hw.apart i1 i2 x1 x2 a hold1 hx2 ha1 ha2 hfresh
  · intro i' x a hx ha
    rcases getElem?_set_cases hx with ⟨rfl, rfl⟩ | ⟨-, hx⟩
    · rcases hr.old a ha with ⟨hS, -⟩ | hnew
      · exact .inl hS
      · exact .inr (Nat.le_trans hw.grows hnew)
    · exact hw.origin i' x a hx ha
  · intro i' x a hx ha
    rcases getElem?_set_cases hx with ⟨rfl, rfl⟩ | ⟨-, hx⟩
    · exact hr.live a ha
    · obtain ⟨cells, hcells⟩ := hw.live i' x a hx ha
      exact ⟨cells, (hr.keeps a (array_lt hcells)).trans hcells⟩
  · intro i' x hx hcount
    rcases getElem?_set_cases hx with ⟨rfl, rfl⟩ | ⟨-, hx⟩
    · exact hr.counted hcount
    · exact hw.counted i' x hx hcount

theorem look_replace (hw : w.Private S h) (hr : Replaces S h w i heap node hitmap) {op : Op}
    (hop : op.classId ≠ i) : look heap (w.chain.set i node) op = look w.heap w.chain op := by
  unfold look
  rw [List.getElem?_set_ne fun hi => hop hi.symm]
  cases hx : w.chain[op.classId]? with
  | none => rfl
  | some x =>
    rw [bind_some, bind_some,
      load_congr fun a ha => hr.keeps a (hw.below hx ha)]

theorem Ok.replace (hw : w.Ok S h size) (hr : Replaces S h w i heap node hitmap)
    (hnode : node.Ok heap (size i)) (hset : hitmap[i]? = some true → node.funcs ≠ .null) :
    Ok S h size ⟨heap, w.chain.set i node, hitmap⟩ := by
  refine ⟨hw.toPrivate.replace hr, ?_, ?_⟩
  · intro i' x hx
    rcases getElem?_set_cases hx with ⟨rfl, rfl⟩ | ⟨-, hx⟩
    · exact hnode
    · exact (hw.nodes i' x hx).congr fun a ha => hr.keeps a (hw.below hx ha)
  · intro i' x hx hhit
    rcases getElem?_set_cases hx with ⟨rfl, rfl⟩ | ⟨hne, hx⟩
    · exact hset hhit
    · rw [hr.others i' hne] at hhit
      exact hw.set i' x hx hhit

/-! #### An array of its own -/

/-- What a work is when a node was given a new array. -/
def withArray (w : Work) (i : Nat) (cells : List OpFuncs) : Work :=
  ⟨w.heap ++ [some cells], w.chain.set i ⟨.array w.heap.length, cells.length⟩, w.hitmap.set i true⟩

theorem replaces_array (S : Addr → Prop) (w : Work) (h : Heap) (i : Nat) (cells : List OpFuncs) :
    Replaces S h w i (w.heap ++ [some cells]) ⟨.array w.heap.length, cells.length⟩
      (w.hitmap.set i true) where
  sizes := List.length_set
  grows := by simp
  keeps := fun a ha => array_append_left cells ha
  others := fun i' hne => List.getElem?_set_ne fun hi => hne hi.symm
  old := fun a ha => .inr (Nat.le_of_eq (Funcs.array.inj ha))
  hit := fun a _ ha => Nat.le_of_eq (Funcs.array.inj ha)
  live := by
    intro a ha
    obtain rfl := Funcs.array.inj ha
    exact ⟨cells, array_append_self w.heap cells⟩
  counted := fun _ => ⟨w.heap.length, rfl⟩

theorem Ok.withArray (hw : w.Ok S h size) {cells : List OpFuncs} (hlength : cells.length = size i)
    (hcells : ∀ x ∈ cells, x.Sourced) : (w.withArray i cells).Ok S h size := by
  refine hw.replace (replaces_array S w h i cells) ?_ fun _ => by simp
  exact ⟨hlength, cells, array_append_self w.heap cells, hlength, hcells⟩

/-- What is found after an array was put in. -/
theorem look_withArray (hw : w.Private S h) (hi : i < w.chain.length) (cells : List OpFuncs)
    (op : Op) :
    look (w.withArray i cells).heap (w.withArray i cells).chain op =
      if op.classId = i then (cells[op.funcId]?).bind OpFuncs.found
      else look w.heap w.chain op := by
  split
  · rename_i hop
    show look (w.heap ++ [some cells])
      (w.chain.set i ⟨.array w.heap.length, cells.length⟩) op = _
    unfold look
    rw [hop, List.getElem?_set_self hi]
    show ((Heap.array (w.heap ++ [some cells]) w.heap.length).bind _).bind _ = _
    rw [array_append_self]
    rfl
  · rename_i hop
    exact look_replace hw (replaces_array S w h i cells) hop

end Work

end Eo.Vtable
