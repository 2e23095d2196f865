/-
What a list in memory stands for.

`IsList m head a xs` says that the nodes of `xs` are linked in this order from `head`
on, that all of them point to the record `a` and that `a` knows the last one and how
many there are.  An operation on one list changes nothing but its nodes and its
record and adds nothing but fresh ones (`Frame`), so every other list stays as it is
(`IsList.frame`).
-/
import Mathlib.Data.Finset.Card
import Efl.Eina.List.Basic
import Efl.Lib.Compare

namespace Eina.Lists

-- `List.keys` of Mathlib would be a second reading.
export Chain (keys keys_nil keys_cons keys_append)

open Chain List Option Function

variable {Data : Type} {m m' m'' : Mem Data} {a a' b : Addr} {xs ys : List (Addr × Option Data)}
  {head : Option Addr}

/-! ### The representation -/

/-- The nodes of `xs` as cells that point to the record `a`. -/
def cells (a : Addr) (xs : List (Addr × Option Data)) : List (Addr × Val Data) :=
  xs.map fun x => (x.1, ⟨x.2, a⟩)

@[simp] theorem cells_nil : cells a ([] : List (Addr × Option Data)) = [] := rfl

@[simp] theorem cells_cons (x : Addr × Option Data) :
    cells a (x :: xs) = (x.1, ⟨x.2, a⟩) :: cells a xs := rfl

@[simp] theorem cells_append : cells a (xs ++ ys) = cells a xs ++ cells a ys := map_append

@[simp] theorem keys_cells : keys (cells a xs) = keys xs := by
  simp [keys, cells]

@[simp] theorem first_cells (n : Option Addr) : first (cells a xs) n = first xs n := by
  cases xs <;> rfl

@[simp] theorem last_cells (p : Option Addr) : last p (cells a xs) = last p xs := by
  induction xs generalizing p with
  | nil => rfl
  | cons x xs ih => exact ih (some x.1)

/-- The data of the nodes, in order. -/
def datas (xs : List (Addr × Option Data)) : List (Option Data) := xs.map Prod.snd

@[simp] theorem datas_nil : datas ([] : List (Addr × Option Data)) = [] := rfl

@[simp] theorem datas_cons (x : Addr × Option Data) : datas (x :: xs) = x.2 :: datas xs := rfl

@[simp] theorem datas_append : datas (xs ++ ys) = datas xs ++ datas ys := map_append

@[simp] theorem length_datas : (datas xs).length = xs.length := length_map _

/-- A list with at least one node. -/
structure Filled (m : Mem Data) (a : Addr) (xs : List (Addr × Option Data)) : Prop where
  ne : xs ≠ []
  /-- Both ends are null, links are mutually inverse, all nodes point to the record `a`. -/
  seg : Seg m.node none (cells a xs) none
  record : m.accounting a = some ⟨last none xs, xs.length⟩
  nodup : (keys xs).Nodup
  bound : ∀ x ∈ keys xs, x < m.next
  recordBound : a < m.next

def IsList (m : Mem Data) (head : Option Addr) (a : Addr) (xs : List (Addr × Option Data)) : Prop :=
  head = first xs none ∧ (xs ≠ [] → Filled m a xs)

theorem isList_nil (m : Mem Data) (a : Addr) : IsList m none a [] :=
  ⟨rfl, fun h => absurd rfl h⟩

theorem Filled.isList (h : Filled m a xs) : IsList m (first xs none) a xs := ⟨rfl, fun _ => h⟩

/-- A list of three numbers. -/
def threeNumbers (x y z : Nat) : Mem Nat where
  node := fun n =>
    if n = 0 then some ⟨some 1, none, ⟨some x, 3⟩⟩
    else if n = 1 then some ⟨some 2, some 0, ⟨some y, 3⟩⟩
    else if n = 2 then some ⟨none, some 1, ⟨some z, 3⟩⟩
    else none
  accounting := fun n => if n = 3 then some ⟨some 2, 3⟩ else none
  next := 4

theorem threeNumbers_isList (x y z : Nat) :
    IsList (threeNumbers x y z) (some 0) 3 [(0, some x), (1, some y), (2, some z)] := by
  refine ⟨rfl, fun _ => ⟨cons_ne_nil _ _, ⟨rfl, rfl, rfl, trivial⟩, rfl, ?_, ?_, ?_⟩⟩
  · exact (by decide : [0, 1, 2].Nodup)
  · exact (by decide : ∀ n ∈ [0, 1, 2], n < 4)
  · exact (by decide : 3 < 4)

/-- Numbers in their order; null is as much as 0. -/
def byNumber (x y : Option Nat) : Int := (x.getD 0 : Int) - y.getD 0

theorem byNumber_total : Compare.Total byNumber := by
  refine ⟨fun x y => ?_, fun {x y z} hxy hyz => ?_⟩
  · unfold byNumber
    omega
  · unfold byNumber at hxy hyz ⊢
    omega

variable {p : Option Addr} {x : Addr} {n : Option Addr}

theorem accountingOf_of_seg (h : Seg m.node p (cells a xs) n) (hx : x ∈ keys xs) :
    m.accountingOf x = some a := by
  obtain ⟨⟨y, d⟩, hy, rfl⟩ := mem_map.mp hx
  obtain ⟨ys, zs, rfl⟩ := append_of_mem hy
  rw [cells_append] at h
  rw [Mem.accountingOf, h.get, map_some]

theorem Filled.accountingOf (h : Filled m a xs) (hx : x ∈ keys xs) :
    m.accountingOf x = some a :=
  accountingOf_of_seg h.seg hx

theorem Filled.get {z : Addr} {d : Option Data} (h : Filled m a (xs ++ (z, d) :: ys)) :
    m.node z = some ⟨first ys none, last none xs, ⟨d, a⟩⟩ := by
  have hseg := h.seg
  rw [cells_append, cells_cons] at hseg
  rw [hseg.get, first_cells, last_cells]

theorem Filled.exists_head (h : Filled m a xs) : ∃ x, first xs none = some x ∧ x ∈ keys xs := by
  obtain ⟨x, hx⟩ := ne_none_iff_exists'.mp (fun hnone => h.ne (first_eq_none.mp hnone))
  exact ⟨x, hx, first_mem hx⟩

theorem Filled.exists_last (h : Filled m a xs) : ∃ x, last none xs = some x ∧ x ∈ keys xs := by
  obtain ⟨x, hx⟩ := ne_none_iff_exists'.mp (fun hnone => h.ne (last_eq_none.mp hnone).2)
  exact ⟨x, hx, (last_mem hx).resolve_left (by simp)⟩

theorem length_le_of_bound (hnodup : (keys xs).Nodup) (hbound : ∀ x ∈ keys xs, x < m.next) :
    xs.length ≤ m.next := by
  have hsub : keys xs ⊆ range m.next := by
    intro x hx
    exact mem_range.mpr (hbound x hx)
  have hle := (subperm_of_subset hnodup hsub).length_le
  rw [length_keys, length_range] at hle
  exact hle

theorem Filled.length_le (h : Filled m a xs) : xs.length ≤ m.next :=
  length_le_of_bound h.nodup h.bound

/-! ### What an operation may change -/

/-- Nothing but the nodes in `N`, the records in `B` and fresh ones was changed. -/
structure Frame (m m' : Mem Data) (N B : Set Addr) : Prop where
  node : ∀ x < m.next, x ∉ N → m'.node x = m.node x
  record : ∀ b < m.next, b ∉ B → m'.accounting b = m.accounting b
  next : m.next ≤ m'.next

theorem Frame.refl (m : Mem Data) (N B : Set Addr) : Frame m m N B :=
  ⟨fun _ _ _ => rfl, fun _ _ _ => rfl, le_rfl⟩

variable {N B N' B' : Set Addr}

theorem Frame.trans (h : Frame m m' N B) (h' : Frame m' m'' N' B')
    (hN : ∀ x < m.next, x ∈ N' → x ∈ N) (hB : ∀ b < m.next, b ∈ B' → b ∈ B) :
    Frame m m'' N B := by
  refine ⟨?_, ?_, h.next.trans h'.next⟩
  · intro x hx hxN
    rw [h'.node x (hx.trans_le h.next) (fun hx' => hxN (hN x hx hx')), h.node x hx hxN]
  · intro b hb hbB
    rw [h'.record b (hb.trans_le h.next) (fun hb' => hbB (hB b hb hb')), h.record b hb hbB]

theorem Frame.mono (h : Frame m m' N B) (hN : N ⊆ N') (hB : B ⊆ B') :
    Frame m m' N' B' :=
  ⟨fun x hx hn => h.node x hx (fun hx' => hn (hN hx')),
    fun b hb hn => h.record b hb (fun hb' => hn (hB hb')), h.next⟩

/-- The nodes of a list. -/
def nodes (xs : List (Addr × Option Data)) : Set Addr := {x | x ∈ keys xs}

/-- The record of a list, if it has one. -/
def records (a : Addr) (xs : List (Addr × Option Data)) : Set Addr := {b | b = a ∧ xs ≠ []}

/-- A list is not touched by a change of other nodes and records. -/
theorem IsList.frame (h : IsList m head a xs) (hf : Frame m m' N B) (hN : ∀ x ∈ nodes xs, x ∉ N)
    (hB : ∀ b ∈ records a xs, b ∉ B) : IsList m' head a xs := by
  refine ⟨h.1, ?_⟩
  intro hne
  have hfill := h.2 hne
  refine ⟨hne, ?_, ?_, hfill.nodup, ?_, hfill.recordBound.trans_le hf.next⟩
  · refine hfill.seg.congr ?_
    intro x hx
    rw [keys_cells] at hx
    exact hf.node x (hfill.bound x hx) (hN x hx)
  · rw [hf.record a hfill.recordBound (hB a ⟨rfl, hne⟩)]
    exact hfill.record
  · intro x hx
    exact (hfill.bound x hx).trans_le hf.next

/-- Out of the nodes in `N` and the records in `B` the operation made the list `ys`. -/
structure Change (m m' : Mem Data) (N B : Set Addr) (a : Addr) (ys : List (Addr × Option Data)) :
    Prop where
  frame : Frame m m' N B
  nodes : ∀ x ∈ nodes ys, x ∈ N ∨ m.next ≤ x
  records : ∀ b ∈ records a ys, b ∈ B ∨ m.next ≤ b

theorem Change.refl (m : Mem Data) (a : Addr) (xs : List (Addr × Option Data)) :
    Change m m (Lists.nodes xs) (Lists.records a xs) a xs :=
  ⟨Frame.refl _ _ _, fun _ hx => .inl hx, fun _ hb => .inl hb⟩

/-- Two changes of lists in a row, the second one of what the first one left. -/
theorem Change.trans (h : Change m m' N B a xs)
    (h' : Change m' m'' (Lists.nodes xs) (Lists.records a xs) b ys) : Change m m'' N B b ys := by
  refine ⟨h.frame.trans h'.frame ?_ ?_, ?_, ?_⟩
  · intro x hlt hx
    exact (h.nodes x hx).resolve_right (Nat.not_le_of_lt hlt)
  · intro c hlt hc
    exact (h.records c hc).resolve_right (Nat.not_le_of_lt hlt)
  · intro x hx
    rcases h'.nodes x hx with hx | hx
    · exact h.nodes x hx
    · exact .inr (h.frame.next.trans hx)
  · intro c hc
    rcases h'.records c hc with hc | hc
    · exact h.records c hc
    · exact .inr (h.frame.next.trans hc)

/-- Out of the nodes in `N` and the records in `B` the call makes a list with the data `ds`. -/
def Yields (m : Mem Data) (N B : Set Addr) (call : Option (Mem Data × Option Addr))
    (ds : List (Option Data)) : Prop :=
  ∃ m' head a ys, call = some (m', head) ∧ IsList m' head a ys ∧ Change m m' N B a ys ∧
    datas ys = ds

theorem yields_self (h : IsList m head a xs) :
    Yields m (nodes xs) (records a xs) (some (m, head)) (datas xs) :=
  ⟨m, head, a, xs, rfl, h, Change.refl m a xs, rfl⟩

theorem Yields.mono {call : Option (Mem Data × Option Addr)} {ds : List (Option Data)}
    (h : Yields m N B call ds) (hN : N ⊆ N') (hB : B ⊆ B') :
    Yields m N' B' call ds := by
  obtain ⟨m', head, a, ys, hcall, hlist, hchange, hds⟩ := h
  refine ⟨m', head, a, ys, hcall, hlist, ⟨hchange.frame.mono hN hB, ?_, ?_⟩, hds⟩
  · intro x hx
    exact (hchange.nodes x hx).imp_left (fun hmem => hN hmem)
  · intro b hb
    exact (hchange.records b hb).imp_left (fun hmem => hB hmem)

/-! ### Writes and allocations

What the single writes of the operations do, as equations; a call is run one write at a
time (`bind_of_eq`).
-/

theorem bind_of_eq {α β : Type} {x : Option α} {f : α → Option β} {y : α} {z : Option β}
    (h : x = some y) (h' : f y = z) : (x >>= f) = z := by
  rw [h]
  exact h'

@[simp] theorem withNode_node (H : Heap Addr (Val Data)) : (m.withNode H).node = H := rfl

@[simp] theorem withNode_accounting (H : Heap Addr (Val Data)) :
    (m.withNode H).accounting = m.accounting := rfl

@[simp] theorem withNode_next (H : Heap Addr (Val Data)) : (m.withNode H).next = m.next := rfl

variable {v : Option Addr} {H : Heap Addr (Val Data)}

theorem setPrevOf_eq (h : Chain.setPrevOf m.node p v = some H) :
    m.setPrevOf p v = some (m.withNode H) := by
  rw [Mem.setPrevOf, h, map_some]

theorem setNextOf_eq (h : Chain.setNextOf m.node p v = some H) :
    m.setNextOf p v = some (m.withNode H) := by
  rw [Mem.setNextOf, h, map_some]

theorem setPrev_eq (h : Chain.setPrevOf m.node (some x) v = some H) :
    m.setPrev x v = some (m.withNode H) :=
  setPrevOf_eq h

theorem setNext_eq (h : Chain.setNextOf m.node (some x) v = some H) :
    m.setNext x v = some (m.withNode H) :=
  setNextOf_eq h

/-- The memory with another accounting record at `a`. -/
def withRecord (m : Mem Data) (a : Addr) (r : Option Accounting) : Mem Data :=
  { m with accounting := update m.accounting a r }

@[simp] theorem withRecord_node (r : Option Accounting) : (withRecord m a r).node = m.node := rfl

@[simp] theorem withRecord_next (r : Option Accounting) : (withRecord m a r).next = m.next := rfl

@[simp] theorem withRecord_self (r : Option Accounting) :
    (withRecord m a r).accounting a = r := update_self _ _ _

theorem withRecord_other (r : Option Accounting) (h : b ≠ a) :
    (withRecord m a r).accounting b = m.accounting b := update_of_ne h _ _

variable {r : Accounting}

theorem setLast_eq (h : m.accounting a = some r) (v : Option Addr) :
    m.setLast a v = some (withRecord m a (some { r with last := v })) := by
  rw [Mem.setLast, Mem.modifyAccounting, h]
  rfl

theorem setCount_eq (h : m.accounting a = some r) (n : Nat) :
    m.setCount a n = some (withRecord m a (some { r with count := n })) := by
  rw [Mem.setCount, Mem.modifyAccounting, h]
  rfl

theorem countUp_eq (h : m.accounting a = some r) :
    m.countUp a = some (withRecord m a (some { r with count := r.count + 1 })) := by
  rw [Mem.countUp, Mem.modifyAccounting, h]
  rfl

theorem accountingFree_eq (h : m.accounting a = some r) :
    m.accountingFree a = some (withRecord m a none) := by
  rw [Mem.accountingFree, h]
  rfl

variable (c : Cell Addr (Val Data))

@[simp] theorem listNew_node :
    (m.listNew c).node = update m.node m.next (some c) := rfl

@[simp] theorem listNew_accounting :
    (m.listNew c).accounting = m.accounting := rfl

@[simp] theorem listNew_next : (m.listNew c).next = m.next + 1 := rfl

theorem seg_listNew {c : Cell Addr (Val Data)} {zs : List (Addr × Val Data)}
    (h : Seg m.node p zs n) (hbound : ∀ x ∈ keys zs, x < m.next) :
    Seg (m.listNew c).node p zs n := by
  refine h.congr ?_
  intro x hx
  exact update_of_ne (ne_of_lt (hbound x hx)) _ _

end Eina.Lists
