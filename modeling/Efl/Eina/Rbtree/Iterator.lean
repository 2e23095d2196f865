/-
The iterators of `eina_rbtree.c`.

One function serves all three orders.  It keeps a stack of items: the node an item is about, the
son that is walked below it, and whether the walk has just come back up from there.  An item that
is not needed any more is given to the trash, which overwrites it, and the next one that is needed
is taken from there.

What an iterator has still to say is what the top item has left, and then what every other item
has left when the walk comes back to it (`pending`).
-/
import Efl.Eina.Rbtree.Run

namespace Eina.Rbtree

open RedBlack List Option Function

variable {α : Type}

/-! ### The code -/

/-- `struct _Eina_Iterator_Rbtree_List` -/
structure Item (α : Type) where
  tree : Option α
  dir : Direction
  up : Bool

/-- `last->dir == EINA_RBTREE_LEFT || !last->tree` -/
def Item.Done (f : Item α) : Prop := f.dir = .left ∨ f.tree = none

instance (f : Item α) : Decidable f.Done := inferInstanceAs (Decidable (_ ∨ _))

/-- `struct _Eina_Iterator_Rbtree`; the stack is given from its top. -/
structure Iterator (α : Type) where
  stack : List Nat
  trash : List Nat
  mask : Nat
  /-- The items by their addresses; what is in the trash was overwritten. -/
  item : Nat → Option (Item α)
  /-- What `malloc` gives. -/
  fresh : Nat

/-- `EINA_RBTREE_ITERATOR_PREFIX_MASK` -/
def prefixMask : Nat := 1

/-- `EINA_RBTREE_ITERATOR_INFIX_MASK` -/
def infixMask : Nat := 2

/-- `EINA_RBTREE_ITERATOR_POSTFIX_MASK` -/
def postfixMask : Nat := 4

/-- `(mask & bits) == bits` -/
def has (mask bits : Nat) : Bool := mask &&& bits == bits

/-- How a part of `_eina_rbtree_iterator_next` goes on. -/
inductive Turn (α : Type) where
  /-- `goto onfix` -/
  | onfix (it : Iterator α) (tree : Option α)
  /-- `return EFL_FALSE` -/
  | stop (it : Iterator α)
  /-- A son of the item `last` is next. -/
  | descend (it : Iterator α) (last : Nat) (tree : Option α)

namespace Iterator

/-- `calloc` -/
def new (α : Type) : Iterator α := ⟨[], [], 0, fun _ => none, 0⟩

/-- `item->… = …` -/
def setItem (it : Iterator α) (x : Nat) (f : Item α) : Iterator α :=
  { it with item := update it.item x (some f) }

/-- `eina_trash_push`; the stack is what is left of it. -/
def trashPush (it : Iterator α) (x : Nat) (stack : List Nat) : Iterator α :=
  { it with stack := stack, trash := x :: it.trash, item := update it.item x none }

/-- `_eina_rbtree_iterator_list_new`, pushed on the stack. -/
def listNew (it : Iterator α) (tree : Option α) : Iterator α :=
  match it.trash with
  | x :: trash =>
    { it with trash := trash, stack := x :: it.stack }.setItem x ⟨tree, .right, false⟩
  | [] =>
    { it with fresh := it.fresh + 1, stack := it.fresh :: it.stack }.setItem it.fresh
      ⟨tree, .right, false⟩

/-- The node comes after its sons, and the walk comes back to the item below. -/
def sayAfter (it : Iterator α) (stack : List Nat) (last : Nat) (tree : Option α) :
    Option (Turn α) :=
  let it := it.trashPush last stack
  match stack with
  | [] => some (.onfix it tree)
  | top :: _ => (it.item top).map fun g => .onfix (it.setItem top { g with up := true }) tree

/-- The item goes on with its left son, and the node comes between its sons. -/
def keep (it : Iterator α) (stack : List Nat) (last : Nat) (f : Item α) (tree : Option α) :
    Turn α :=
  let it := { it with stack := last :: stack }.setItem last { f with dir := .left, up := false }
  if has it.mask infixMask then .onfix it tree else .descend it last tree

/-- The branch for an item that is done: `last` was popped off the stack. -/
def unwind : List Nat → Iterator α → Nat → Option α → Option (Turn α)
  | [], it, last, tree => (it.item last).bind fun f =>
    if f.Done then
      if tree ≠ none ∧ has it.mask postfixMask then sayAfter it [] last tree
      else some (.stop (it.trashPush last []))
    else some (keep it [] last f tree)
  | top :: rest, it, last, tree => (it.item last).bind fun f =>
    if f.Done then
      if tree ≠ none ∧ has it.mask postfixMask then sayAfter it (top :: rest) last tree
      else
        let it := it.trashPush last rest
        (it.item top).bind fun g => unwind rest it top g.tree
    else some (keep it (top :: rest) last f tree)

/-- The new item for a son of `last`, and whether the node comes before its sons. -/
def pushSon (son : α → Direction → Option α) (it : Iterator α) (last : Nat) :
    Option (Iterator α × Bool) :=
  (it.item last).bind fun f => f.tree.map fun t =>
    (it.listNew (son t f.dir), f.dir = .right ∧ has it.mask prefixMask)

/-- `_eina_rbtree_iterator_next`: the iterator and `*data`, or nothing for `EFL_FALSE`. -/
def next (son : α → Direction → Option α) : Nat → Iterator α →
    Option (Iterator α × Option (Option α))
  | turns, it =>
    match it.stack with
    | [] => some (it, none)
    | last :: stack => (it.item last).bind fun f =>
      (if f.tree = none ∨ f.up then unwind stack it last f.tree
        else some (.descend it last f.tree)).bind fun turn =>
      match turn with
      | .onfix it tree => some (it, some tree)
      | .stop it => some (it, none)
      | .descend it last tree => (pushSon son it last).bind fun (it, onfix) =>
        if onfix then some (it, some tree)
        else
          match turns with
          | 0 => none
          | turns + 1 => next son turns it

/-- `_eina_rbtree_iterator_build`, on an iterator from the trash or from `calloc`. -/
def build (it : Iterator α) (root : Option α) (mask : Nat) : Iterator α :=
  { it with mask := mask }.listNew root

/-- `_eina_rbtree_iterator_free`: `iterator_trash` keeps up to seven of them. -/
def free (it : Iterator α) (iteratorTrash : List (Iterator α)) : List (Iterator α) :=
  if iteratorTrash.length ≥ 7 then iteratorTrash else { it with stack := [] } :: iteratorTrash

/-- `eina_rbtree_iterator_prefix`, with what is left of `iterator_trash`. -/
def prefixNew (iteratorTrash : List (Iterator α)) (root : Option α) :
    Iterator α × List (Iterator α) :=
  match iteratorTrash with
  | [] => ((new α).build root prefixMask, [])
  | it :: rest => (it.build root prefixMask, rest)

/-- What the first calls answer, one after the other. -/
def answers (son : α → Direction → Option α) (turns : Nat) : Nat → Iterator α →
    Option (List (Option (Option α)))
  | 0, _ => some []
  | n + 1, it => (next son turns it).bind fun (it, answer) =>
    (answers son turns n it).map fun rest => answer :: rest

end Iterator

/-! ### The orders -/

/-- The nodes of a tree in the order of a mask, the sons from right to left. -/
def visits (mask : Nat) : Tree α → List α
  | .nil => []
  | .node _ l a r =>
    (if has mask prefixMask then [a] else []) ++ visits mask r ++
      (if has mask infixMask then [a] else []) ++ visits mask l ++
      (if has mask postfixMask then [a] else [])

/-- The root of a tree. -/
def rootOf : Tree α → Option α
  | .nil => none
  | .node _ _ a _ => some a

/-- The links of the nodes of a tree are the ones of the memory. -/
def Linked (son : α → Direction → Option α) : Tree α → Prop
  | .nil => True
  | .node _ l a r =>
    son a .left = rootOf l ∧ son a .right = rootOf r ∧ Linked son l ∧ Linked son r

/-- The links of the nodes of a tree, read off the tree. -/
def sonIn [DecidableEq α] : Tree α → α → Direction → Option α
  | .nil, _, _ => none
  | .node _ l a r, x, d =>
    if x = a then rootOf (if d = .left then l else r) else (sonIn l x d).or (sonIn r x d)

variable {t : Tree α}

theorem sonIn_of_not_mem [DecidableEq α] {x : α} (hx : x ∉ t.toList) (d : Direction) :
    sonIn t x d = none := by
  induction t with
  | nil => rfl
  | node c l a r ihl ihr =>
    simp only [Tree.toList_node, mem_append, mem_cons, not_or] at hx
    rw [sonIn, if_neg hx.2.1, ihl hx.1, ihr hx.2.2]
    rfl

theorem linked_of_sonIn [DecidableEq α] {son : α → Direction → Option α} (ht : t.toList.Nodup)
    (hson : ∀ x ∈ t.toList, son x = sonIn t x) : Linked son t := by
  induction t with
  | nil => trivial
  | node c l a r ihl ihr =>
    obtain ⟨hl, har, hapart⟩ := nodup_append.mp ht
    obtain ⟨har, hr⟩ := nodup_cons.mp har
    have ha := hson a (by simp)
    refine ⟨?_, ?_, ihl hl fun x hx => ?_, ihr hr fun x hx => ?_⟩
    · rw [ha, sonIn, if_pos rfl, if_pos rfl]
    · rw [ha, sonIn, if_pos rfl, if_neg (by simp)]
    · have hne : x ≠ a := hapart x hx a mem_cons_self
      have hxr : x ∉ r.toList := fun hmem => hapart x hx x (mem_cons_of_mem _ hmem) rfl
      rw [hson x (by simp [hx])]
      funext d
      rw [sonIn, if_neg hne, sonIn_of_not_mem hxr, or_none]
    · have hne : x ≠ a := by
        rintro rfl
        exact har hx
      have hxl : x ∉ l.toList := fun hmem => hapart x hmem x (mem_cons_of_mem _ hx) rfl
      rw [hson x (by simp [hx])]
      funext d
      rw [sonIn, if_neg hne, sonIn_of_not_mem hxl, none_or]

theorem linked_of_rep {h : α → Node α} {p : Option α} (hrep : Rep h t p) :
    p = rootOf t ∧ Linked (fun a d => (h a).son d) t := by
  induction t generalizing p with
  | nil => exact ⟨hrep, trivial⟩
  | node c l a r ihl ihr =>
    obtain ⟨rfl, -, hl, hr⟩ := hrep
    obtain ⟨hl, hll⟩ := ihl hl
    obtain ⟨hr, hlr⟩ := ihr hr
    exact ⟨rfl, hl, hr, hll, hlr⟩

/-! ### What is left to say -/

/-- An item, with the whole tree below its node. -/
structure Work (α : Type) where
  tree : Tree α
  dir : Direction
  up : Bool

namespace Work

def item (w : Work α) : Item α := ⟨rootOf w.tree, w.dir, w.up⟩

/-- What an item has left when the walk comes back to it. -/
def after (mask : Nat) (w : Work α) : List α :=
  match w.tree with
  | .nil => []
  | .node _ l a _ =>
    (match w.dir with
      | .right => (if has mask infixMask then [a] else []) ++ visits mask l
      | .left => []) ++ (if has mask postfixMask then [a] else [])

/-- What the top item has left. -/
def now (mask : Nat) (w : Work α) : List α :=
  match w.tree with
  | .nil => []
  | .node _ l a _ =>
    if w.up then w.after mask
    else
      match w.dir with
      | .right => visits mask w.tree
      | .left => visits mask l ++ (if has mask postfixMask then [a] else [])

/-- How many calls of the function in itself the nodes of a tree cost at most. -/
def cost : Tree α → Nat
  | .nil => 1
  | .node _ l _ r => cost l + cost r + 2

/-- The same for an item the walk comes back to. -/
def costAfter (w : Work α) : Nat :=
  match w.tree, w.dir with
  | .node _ l _ _, .right => cost l + 1
  | _, _ => 0

/-- The same for the top item. -/
def costNow (w : Work α) : Nat :=
  match w.tree with
  | .nil => 1
  | .node _ l _ _ =>
    if w.up then w.costAfter + 1
    else
      match w.dir with
      | .right => cost w.tree
      | .left => cost l + 1

end Work

/-- What the items below the top have left. -/
def pendingAfter (mask : Nat) (ws : List (Work α)) : List α := ws.flatMap (Work.after mask)

/-- What an iterator has still to say. -/
def pending (mask : Nat) : List (Work α) → List α
  | [] => []
  | w :: ws => w.now mask ++ pendingAfter mask ws

def budgetAfter (ws : List (Work α)) : Nat := (ws.map Work.costAfter).sum

/-- How many calls of the function in itself are enough. -/
def budget : List (Work α) → Nat
  | [] => 0
  | w :: ws => w.costNow + budgetAfter ws

/-! ### The stack of an iterator -/

/-- The stack of the iterator has the items `ws`, and its items are not in the trash. -/
structure Shows (son : α → Direction → Option α) (it : Iterator α) (ws : List (Work α)) : Prop where
  items : it.stack.map it.item = ws.map fun w => some w.item
  nodup : (it.stack ++ it.trash).Nodup
  fresh : ∀ x ∈ it.stack ++ it.trash, x < it.fresh
  linked : ∀ w ∈ ws, Linked son w.tree

variable {son : α → Direction → Option α} {it : Iterator α} {w : Work α} {ws : List (Work α)}
  {x : Nat} {stack : List Nat} {l r : Tree α} {up : Bool} {c : Color} {a : α} (mask : Nat)

theorem Shows.head (h : Shows son it (w :: ws)) :
    ∃ x stack, it.stack = x :: stack ∧ it.item x = some w.item := by
  have hitems := h.items
  cases hstack : it.stack with
  | nil =>
    rw [hstack] at hitems
    simp at hitems
  | cons x stack =>
    rw [hstack] at hitems
    exact ⟨x, stack, rfl, (cons.inj hitems).1⟩

theorem Shows.others (h : Shows son it (w :: ws)) (hstack : it.stack = x :: stack) :
    stack.map it.item = ws.map (fun w => some w.item) ∧ x ∉ stack ++ it.trash ∧
      (stack ++ it.trash).Nodup := by
  obtain ⟨hitems, hnodup, -, -⟩ := h
  rw [hstack] at hitems hnodup
  rw [cons_append, nodup_cons] at hnodup
  exact ⟨(cons.inj hitems).2, hnodup⟩

theorem Shows.setItem (h : Shows son it (w :: ws)) (hstack : it.stack = x :: stack) {v : Work α}
    (hv : v.tree = w.tree) : Shows son (it.setItem x v.item) (v :: ws) := by
  obtain ⟨hitems, hx, -⟩ := h.others hstack
  refine ⟨?_, h.nodup, h.fresh, ?_⟩
  · change it.stack.map (update it.item x (some v.item)) = _
    rw [hstack, map_cons, update_self, map_cons, ← hitems]
    refine congrArg _ (map_congr_left fun y hy => update_of_ne ?_ _ _)
    rintro rfl
    exact hx (mem_append_left _ hy)
  · intro u hu
    rcases mem_cons.mp hu with rfl | hu
    · rw [hv]
      exact h.linked w mem_cons_self
    · exact h.linked u (mem_cons_of_mem _ hu)

theorem Shows.trashPush (h : Shows son it (w :: ws)) (hstack : it.stack = x :: stack) :
    Shows son (it.trashPush x stack) ws := by
  obtain ⟨hitems, hx, hnodup⟩ := h.others hstack
  have hperm : (stack ++ x :: it.trash).Perm (it.stack ++ it.trash) := by
    rw [hstack]
    exact perm_middle
  refine ⟨?_, hperm.nodup_iff.mpr h.nodup, fun y hy => h.fresh y (hperm.mem_iff.mp hy),
    fun u hu => h.linked u (mem_cons_of_mem _ hu)⟩
  rw [← hitems]
  refine map_congr_left fun y hy => update_of_ne ?_ _ _
  rintro rfl
  exact hx (mem_append_left _ hy)

/-- A push shows the tree of the new item. -/
theorem Shows.listNew (h : Shows son it ws) (ht : Linked son t) :
    Shows son (it.listNew (rootOf t)) (⟨t, .right, false⟩ :: ws) := by
  have hlinked : ∀ u ∈ (⟨t, .right, false⟩ : Work α) :: ws, Linked son u.tree := by
    intro u hu
    rcases mem_cons.mp hu with rfl | hu
    · exact ht
    · exact h.linked u hu
  unfold Iterator.listNew
  cases htrash : it.trash with
  | nil =>
    have hnew : it.fresh ∉ it.stack ++ it.trash := fun hmem => absurd (h.fresh _ hmem) (by omega)
    rw [htrash, append_nil] at hnew
    have hnodup := h.nodup
    have hfresh := h.fresh
    rw [htrash, append_nil] at hnodup hfresh
    refine ⟨?_, ?_, ?_, hlinked⟩
    · change (it.fresh :: it.stack).map (update it.item it.fresh _) = _
      rw [map_cons, update_self, map_cons, ← h.items]
      refine congrArg _ (map_congr_left fun y hy => update_of_ne ?_ _ _)
      rintro rfl
      exact hnew hy
    · change (it.fresh :: it.stack ++ []).Nodup
      rw [append_nil, nodup_cons]
      exact ⟨hnew, hnodup⟩
    · change ∀ x ∈ it.fresh :: it.stack ++ [], x < it.fresh + 1
      rw [append_nil]
      intro x hx
      rcases mem_cons.mp hx with rfl | hx
      · exact Nat.lt_succ_self _
      · exact Nat.lt_succ_of_lt (hfresh x hx)
  | cons x trash =>
    have hperm : (x :: it.stack ++ trash).Perm (it.stack ++ it.trash) := by
      rw [htrash]
      exact perm_middle.symm
    have hnodup := hperm.nodup_iff.mpr h.nodup
    refine ⟨?_, hnodup, fun y hy => h.fresh y (hperm.mem_iff.mp hy), hlinked⟩
    change (x :: it.stack).map (update it.item x _) = _
    rw [map_cons, update_self, map_cons, ← h.items]
    refine congrArg _ (map_congr_left fun y hy => update_of_ne ?_ _ _)
    rintro rfl
    rw [cons_append, nodup_cons] at hnodup
    exact hnodup.1 (mem_append_left _ hy)

@[simp] theorem mask_listNew (it : Iterator α) (tree : Option α) :
    (it.listNew tree).mask = it.mask := by
  unfold Iterator.listNew
  split <;> rfl

/-! ### One call -/

@[simp] theorem now_fresh (t : Tree α) :
    (⟨t, .right, false⟩ : Work α).now mask = visits mask t := by
  cases t <;> rfl

@[simp] theorem costNow_fresh (t : Tree α) :
    (⟨t, .right, false⟩ : Work α).costNow = Work.cost t := by
  cases t <;> rfl

theorem now_left (c : Color) (l : Tree α) (a : α) (r : Tree α) :
    (⟨.node c l a r, .left, false⟩ : Work α).now mask =
      visits mask l ++ (⟨.node c l a r, .left, false⟩ : Work α).after mask := by
  simp [Work.now, Work.after]

/-- An item that the walk has come back to from below. -/
def Work.back (w : Work α) : Work α := { w with up := true }

@[simp] theorem now_back (w : Work α) : w.back.now mask = w.after mask := by
  obtain ⟨t, d, up⟩ := w
  cases t <;> rfl

theorem costNow_back (w : Work α) : w.back.costNow ≤ w.costAfter + 1 := by
  obtain ⟨t, d, up⟩ := w
  cases t with
  | nil => exact Nat.le_add_left _ _
  | node => exact le_rfl

/-- How the branch for an item that is done goes on, with the list that is left and the budget. -/
def Unwound (son : α → Direction → Option α) (mask : Nat) (left : List α) (budgetLeft : Nat) :
    Turn α → Prop
  | .onfix it tree => ∃ a ws, tree = some a ∧ Shows son it ws ∧ it.mask = mask ∧
      left = a :: pending mask ws ∧ budget ws ≤ budgetLeft
  | .stop it => left = [] ∧ Shows son it [] ∧ it.mask = mask
  | .descend it last tree => ∃ (w : Work α) (ws : List (Work α)) (stack : List Nat),
      it.stack = last :: stack ∧ tree = rootOf w.tree ∧ w.tree ≠ .nil ∧ w.up = false ∧
        Shows son it (w :: ws) ∧ it.mask = mask ∧ left = pending mask (w :: ws) ∧
        budget (w :: ws) ≤ budgetLeft

theorem keep_spec
    (h : Shows son { it with stack := x :: stack } (⟨.node c l a r, .right, up⟩ :: ws)) :
    Unwound son it.mask
      ((⟨.node c l a r, .right, up⟩ : Work α).after it.mask ++ pendingAfter it.mask ws)
      (Work.cost l + 1 + budgetAfter ws + 1)
      (Iterator.keep it stack x ⟨some a, .right, up⟩ (some a)) := by
  have hset : Shows son ({ it with stack := x :: stack }.setItem x ⟨some a, .left, false⟩)
      (⟨.node c l a r, .left, false⟩ :: ws) := h.setItem (v := ⟨_, .left, false⟩) rfl rfl
  unfold Iterator.keep
  dsimp only
  split
  · rename_i hin
    have hin : has it.mask infixMask = true := hin
    refine ⟨a, _, rfl, hset, rfl, ?_, Nat.le_succ _⟩
    simp [Work.after, pending, Work.now, hin]
  · rename_i hin
    have hin : ¬has it.mask infixMask = true := hin
    refine ⟨_, ws, stack, rfl, rfl, by simp, rfl, hset, rfl, ?_, Nat.le_succ _⟩
    simp [Work.after, pending, Work.now, hin]

theorem sayAfter_spec
    (h : Shows son { it with stack := x :: stack } (⟨.node c l a r, .left, up⟩ :: ws))
    (hpost : has it.mask postfixMask = true) :
    ∃ turn, Iterator.sayAfter it stack x (some a) = some turn ∧
      Unwound son it.mask
        ((⟨.node c l a r, .left, up⟩ : Work α).after it.mask ++ pendingAfter it.mask ws)
        (budgetAfter ws + 1) turn := by
  have hpush := h.trashPush rfl
  have hleft : (⟨.node c l a r, .left, up⟩ : Work α).after it.mask = [a] := by
    simp [Work.after, hpost]
  rw [hleft]
  unfold Iterator.sayAfter
  cases ws with
  | nil =>
    obtain rfl : stack = [] := by
      have hlen := congrArg length h.items
      simpa using hlen
    exact ⟨_, rfl, a, [], rfl, hpush, rfl, rfl, Nat.zero_le _⟩
  | cons v ws =>
    obtain ⟨top, rest, hstack, htop⟩ := hpush.head
    obtain rfl : stack = top :: rest := hstack
    have hset := hpush.setItem rfl (v := v.back) rfl
    have htop' : (it.trashPush x (top :: rest)).item top = some v.item := htop
    dsimp only
    rw [htop']
    refine ⟨_, rfl, a, v.back :: ws, rfl, hset, rfl, ?_, ?_⟩
    · rw [pending, now_back]
      rfl
    · have hcost := costNow_back v
      simp only [budget, budgetAfter, map_cons, sum_cons]
      omega

theorem Work.cases (w : Work α) :
    (w.item.Done ∧ ¬(rootOf w.tree ≠ none ∧ has mask postfixMask) ∧ w.after mask = [] ∧
      w.costAfter = 0) ∨
    (∃ c l a r up, w = ⟨.node c l a r, .left, up⟩ ∧ has mask postfixMask) ∨
    ∃ c l a r up, w = ⟨.node c l a r, .right, up⟩ := by
  obtain ⟨t, d, up⟩ := w
  cases t with
  | nil => exact .inl ⟨.inr rfl, fun h => h.1 rfl, rfl, by cases d <;> rfl⟩
  | node c l a r =>
    cases d with
    | right => exact .inr (.inr ⟨c, l, a, r, up, rfl⟩)
    | left =>
      by_cases hpost : has mask postfixMask = true
      · exact .inr (.inl ⟨c, l, a, r, up, rfl, hpost⟩)
      · exact .inl ⟨.inl rfl, fun h => hpost h.2, by simp [after, hpost], rfl⟩

/-- **The branch for an item that is done** says the first node that is left, if it says one. -/
theorem unwind_spec (h : Shows son { it with stack := x :: stack } (w :: ws)) :
    ∃ turn, Iterator.unwind stack it x (rootOf w.tree) = some turn ∧
      Unwound son it.mask (w.after it.mask ++ pendingAfter it.mask ws)
        (w.costAfter + budgetAfter ws + 1) turn := by
  induction ws generalizing it x stack w with
  | nil =>
    have hitem : it.item x = some w.item := (cons.inj h.items).1
    have hpush := h.trashPush rfl
    obtain rfl : stack = [] := by
      have hlen := congrArg length h.items
      simpa using hlen
    rw [Iterator.unwind, hitem, bind_some]
    rcases w.cases it.mask with ⟨hdone, hno, hafter, -⟩ | ⟨c, l, a, r, up, rfl, hpost⟩ |
      ⟨c, l, a, r, up, rfl⟩
    · rw [if_pos hdone, if_neg hno, hafter]
      exact ⟨_, rfl, rfl, hpush, rfl⟩
    · have hdone : (Work.item ⟨.node c l a r, .left, up⟩).Done := .inl rfl
      rw [if_pos hdone, if_pos ⟨by simp [rootOf], hpost⟩]
      obtain ⟨turn, hturn, hunwound⟩ := sayAfter_spec h hpost
      exact ⟨turn, hturn, by simpa [Work.costAfter] using hunwound⟩
    · exact ⟨_, rfl, keep_spec h⟩
  | cons v ws ih =>
    have hitem : it.item x = some w.item := (cons.inj h.items).1
    have hpush := h.trashPush rfl
    obtain ⟨top, rest, hstack, htop⟩ := hpush.head
    obtain rfl : stack = top :: rest := hstack
    have htop' : (it.trashPush x rest).item top = some v.item := htop
    rw [Iterator.unwind, hitem, bind_some]
    rcases w.cases it.mask with ⟨hdone, hno, hafter, hcost⟩ | ⟨c, l, a, r, up, rfl, hpost⟩ |
      ⟨c, l, a, r, up, rfl⟩
    · rw [if_pos hdone, if_neg hno, hafter, hcost]
      dsimp only
      rw [htop']
      have hbelow : Shows son { it.trashPush x rest with stack := top :: rest } (v :: ws) := hpush
      obtain ⟨turn, hturn, hunwound⟩ := ih hbelow
      refine ⟨turn, hturn, ?_⟩
      rw [Nat.zero_add]
      exact hunwound
    · have hdone : (Work.item ⟨.node c l a r, .left, up⟩).Done := .inl rfl
      rw [if_pos hdone, if_pos ⟨by simp [rootOf], hpost⟩]
      obtain ⟨turn, hturn, hunwound⟩ := sayAfter_spec h hpost
      exact ⟨turn, hturn, by simpa [Work.costAfter] using hunwound⟩
    · exact ⟨_, rfl, keep_spec h⟩

/-- **A son is next**: its new item has what is left, but for a node that comes first. -/
theorem pushSon_spec (h : Shows son it (w :: ws)) (hstack : it.stack = x :: stack)
    (htree : w.tree ≠ .nil) (hup : w.up = false) :
    ∃ it' vs onfix a, Iterator.pushSon son it x = some (it', onfix) ∧ Shows son it' vs ∧
      it'.mask = it.mask ∧ rootOf w.tree = some a ∧
      pending it.mask (w :: ws) = (if onfix then [a] else []) ++ pending it.mask vs ∧
      budget vs < budget (w :: ws) := by
  obtain ⟨y, rest, hstack', hitem⟩ := h.head
  obtain rfl : x = y := (cons.inj (hstack.symm.trans hstack')).1
  obtain ⟨t, d, up⟩ := w
  obtain rfl : up = false := hup
  cases t with
  | nil => exact absurd rfl htree
  | node c l a r =>
    obtain ⟨hl, hr, hll, hlr⟩ := h.linked _ mem_cons_self
    unfold Iterator.pushSon
    rw [hitem]
    cases d with
    | right =>
      refine ⟨_, ⟨r, .right, false⟩ :: ⟨.node c l a r, .right, false⟩ :: ws,
        has it.mask prefixMask, a, ?_, h.listNew hlr, mask_listNew _ _, rfl, ?_, ?_⟩
      · simp [Work.item, rootOf, hr]
      · simp [pending, pendingAfter, visits, Work.after]
      · simp only [budget, budgetAfter, costNow_fresh, map_cons, sum_cons,
          Work.costAfter, Work.cost]
        omega
    | left =>
      refine ⟨_, ⟨l, .right, false⟩ :: ⟨.node c l a r, .left, false⟩ :: ws, false, a, ?_,
        h.listNew hll, mask_listNew _ _, rfl, ?_, ?_⟩
      · simp [Work.item, rootOf, hl]
      · rw [pending, pending, now_left]
        simp [pendingAfter]
      · have hcost : (⟨.node c l a r, .left, false⟩ : Work α).costNow = Work.cost l + 1 := rfl
        simp only [budget, budgetAfter, costNow_fresh, map_cons, sum_cons,
          Work.costAfter]
        omega

theorem now_done (h : rootOf w.tree = none ∨ w.up = true) :
    w.now mask = w.after mask ∧ w.costAfter + 1 ≤ w.costNow := by
  obtain ⟨t, d, up⟩ := w
  cases t with
  | nil => exact ⟨rfl, by cases d <;> exact le_rfl⟩
  | node c l a r =>
    obtain rfl : up = true := h.resolve_left (by simp [rootOf])
    exact ⟨rfl, le_rfl⟩

theorem Unwound.mono {mask b b' : Nat} {left : List α} {turn : Turn α}
    (h : Unwound son mask left b turn) (hb : b ≤ b') : Unwound son mask left b' turn := by
  cases turn with
  | onfix it tree =>
    obtain ⟨a, ws, htree, hshows, hmask, hleft, hbudget⟩ := h
    exact ⟨a, ws, htree, hshows, hmask, hleft, hbudget.trans hb⟩
  | stop it => exact h
  | descend it last tree =>
    obtain ⟨w, ws, stack, hstack, htree, hne, hup, hshows, hmask, hleft, hbudget⟩ := h
    exact ⟨w, ws, stack, hstack, htree, hne, hup, hshows, hmask, hleft, hbudget.trans hb⟩

/-- The beginning of a turn: the way up to the first item that is not done. -/
theorem start_spec (h : Shows son it (w :: ws)) (hstack : it.stack = x :: stack) :
    ∃ turn, (if w.item.tree = none ∨ w.item.up then Iterator.unwind stack it x w.item.tree
        else some (.descend it x w.item.tree)) = some turn ∧
      Unwound son it.mask (pending it.mask (w :: ws)) (budget (w :: ws)) turn := by
  split
  · rename_i hdone
    obtain ⟨hnow, hcost⟩ := now_done it.mask hdone
    have htop : Shows son { it with stack := x :: stack } (w :: ws) := by
      rw [← hstack]
      exact h
    obtain ⟨turn, hturn, hunwound⟩ := unwind_spec htop
    refine ⟨turn, hturn, ?_⟩
    rw [pending, hnow]
    refine hunwound.mono ?_
    rw [budget]
    omega
  · rename_i hnot
    refine ⟨_, rfl, w, ws, stack, hstack, rfl, ?_, ?_, h, rfl, rfl, le_rfl⟩
    · intro hnil
      refine hnot (.inl ?_)
      rw [Work.item, hnil]
      rfl
    · exact Bool.not_eq_true _ ▸ fun hup => hnot (.inr hup)

variable {turns : Nat} {iteratorTrash : List (Iterator α)}

/-- **One call** answers with the first node that is left, and the others are left. -/
theorem next_spec (h : Shows son it ws) (hturns : budget ws ≤ turns) :
    ∃ it' vs, Iterator.next son turns it = some (it', (pending it.mask ws).head?.map some) ∧
      Shows son it' vs ∧ it'.mask = it.mask ∧ pending it.mask vs = (pending it.mask ws).tail ∧
      budget vs ≤ budget ws := by
  induction turns using Nat.strongRecOn generalizing it ws with
  | ind turns ih =>
    cases ws with
    | nil =>
      have hstack : it.stack = [] := by
        have hlen := congrArg length h.items
        simpa using hlen
      refine ⟨it, [], ?_, h, rfl, rfl, le_rfl⟩
      unfold Iterator.next
      rw [hstack]
      rfl
    | cons w ws =>
      obtain ⟨x, stack, hstack, hitem⟩ := h.head
      obtain ⟨turn, hturn, hunwound⟩ := start_spec h hstack
      unfold Iterator.next
      rw [hstack]
      dsimp only
      rw [hitem, bind_some, hturn, bind_some]
      cases turn with
      | onfix it' tree =>
        obtain ⟨a, vs, rfl, hshows, hmask, hleft, hbudget⟩ := hunwound
        rw [hleft]
        exact ⟨it', vs, rfl, hshows, hmask, rfl, hbudget⟩
      | stop it' =>
        obtain ⟨hleft, hshows, hmask⟩ := hunwound
        rw [hleft]
        exact ⟨it', [], rfl, hshows, hmask, rfl, Nat.zero_le _⟩
      | descend it' last tree =>
        obtain ⟨v, vs, rest, hrest, rfl, hne, hup, hshows, hmask, hleft, hbudget⟩ := hunwound
        obtain ⟨it2, us, onfix, a, hpush, hshows2, hmask2, hroot, hpending, hless⟩ :=
          pushSon_spec hshows hrest hne hup
        rw [hleft, ← hmask, hpending]
        dsimp only
        rw [hpush]
        cases onfix with
        | true =>
          rw [hroot]
          exact ⟨it2, us, rfl, hshows2, hmask2, rfl, by omega⟩
        | false =>
          cases turns with
          | zero => exact absurd hless (by omega)
          | succ turns =>
            obtain ⟨it3, ts, hnext, hshows3, hmask3, htail, hbudget3⟩ :=
              ih turns (Nat.lt_succ_self _) hshows2 (by omega)
            rw [hmask2] at hnext hmask3 htail
            exact ⟨it3, ts, hnext, hshows3, hmask3, htail, by omega⟩

/-! ### All calls -/

theorem answers_spec (h : Shows son it ws) (hturns : budget ws ≤ turns) (n : Nat) :
    Iterator.answers son turns n it =
      some ((List.range n).map fun i => (pending it.mask ws)[i]?.map some) := by
  induction n generalizing it ws with
  | zero => rfl
  | succ n ih =>
    obtain ⟨it', vs, hnext, hshows, hmask, htail, hbudget⟩ := next_spec h hturns
    rw [Iterator.answers, hnext, bind_some]
    dsimp only
    rw [ih hshows (by omega), hmask, htail, range_succ_eq_map,
      map_cons, List.map_map, head?_eq_getElem?]
    refine congrArg some (congrArg _ (map_congr_left fun i _ => ?_))
    rw [getElem?_tail]
    rfl

/-- An iterator that was freed: no item is on the stack, and the trash may have some. -/
structure Iterator.Spare (it : Iterator α) : Prop where
  stack : it.stack = []
  nodup : it.trash.Nodup
  fresh : ∀ x ∈ it.trash, x < it.fresh

theorem Iterator.spare_new (α : Type) : (Iterator.new α).Spare :=
  ⟨rfl, nodup_nil, by simp [Iterator.new]⟩

theorem Shows.spare (h : Shows son it ws) : Iterator.Spare { it with stack := [] } :=
  ⟨rfl, (nodup_append.mp h.nodup).2.1,
    fun x hx => h.fresh x (mem_append_right _ hx)⟩

theorem Shows.free (h : Shows son it ws)
    (htrash : ∀ i ∈ iteratorTrash, i.Spare) : ∀ i ∈ it.free iteratorTrash, i.Spare := by
  unfold Iterator.free
  split
  · exact htrash
  intro i hi
  rcases mem_cons.mp hi with rfl | hi
  · exact h.spare
  · exact htrash i hi

theorem build_spec (hspare : it.Spare) (ht : Linked son t) (mask : Nat) :
    Shows son (it.build (rootOf t) mask) [⟨t, .right, false⟩] ∧
      (it.build (rootOf t) mask).mask = mask := by
  have hshows : Shows son { it with mask := mask } [] := by
    refine ⟨?_, ?_, ?_, by simp⟩
    · rw [hspare.stack]
      rfl
    · rw [hspare.stack]
      exact hspare.nodup
    · rw [hspare.stack]
      exact hspare.fresh
  exact ⟨hshows.listNew ht, mask_listNew _ _⟩

theorem prefixNew_spec (htrash : ∀ i ∈ iteratorTrash, i.Spare)
    (ht : Linked son t) :
    Shows son (Iterator.prefixNew iteratorTrash (rootOf t)).1 [⟨t, .right, false⟩] ∧
      (Iterator.prefixNew iteratorTrash (rootOf t)).1.mask = prefixMask ∧
      ∀ i ∈ (Iterator.prefixNew iteratorTrash (rootOf t)).2, i.Spare := by
  cases iteratorTrash with
  | nil =>
    obtain ⟨hshows, hmask⟩ := build_spec (Iterator.spare_new α) ht prefixMask
    exact ⟨hshows, hmask, htrash⟩
  | cons i rest =>
    obtain ⟨hshows, hmask⟩ := build_spec (htrash i mem_cons_self) ht prefixMask
    exact ⟨hshows, hmask, fun j hj => htrash j (mem_cons_of_mem _ hj)⟩

/-- **The iterators**: their calls answer with the nodes of the tree, each in its turn. -/
theorem iterator_answers (hspare : it.Spare) (ht : Linked son t) (mask : Nat)
    (hturns : Work.cost t ≤ turns) (n : Nat) :
    Iterator.answers son turns n (it.build (rootOf t) mask) =
      some ((List.range n).map fun i => (visits mask t)[i]?.map some) := by
  obtain ⟨hshows, hmask⟩ := build_spec hspare ht mask
  rw [answers_spec hshows (by simpa [budget, budgetAfter] using hturns), hmask]
  simp [pending, pendingAfter]

/-! ### The three orders -/

/-- A node comes between its sons. -/
def infixOrder : Tree α → List α
  | .nil => []
  | .node _ l a r => infixOrder r ++ a :: infixOrder l

/-- A node comes after its sons. -/
def postfixOrder : Tree α → List α
  | .nil => []
  | .node _ l a r => postfixOrder r ++ postfixOrder l ++ [a]

theorem visits_prefix (t : Tree α) : visits prefixMask t = prefixOrder t := by
  induction t with
  | nil => rfl
  | node c l a r ihl ihr =>
    rw [visits, prefixOrder, ihl, ihr]
    simp [has, prefixMask, infixMask, postfixMask]

theorem visits_infix (t : Tree α) : visits infixMask t = infixOrder t := by
  induction t with
  | nil => rfl
  | node c l a r ihl ihr =>
    rw [visits, infixOrder, ihl, ihr]
    simp [has, prefixMask, infixMask, postfixMask]

theorem visits_postfix (t : Tree α) : visits postfixMask t = postfixOrder t := by
  induction t with
  | nil => rfl
  | node c l a r ihl ihr =>
    rw [visits, postfixOrder, ihl, ihr]
    simp [has, prefixMask, infixMask, postfixMask]

theorem infixOrder_eq (t : Tree α) : infixOrder t = t.toList.reverse := by
  induction t with
  | nil => rfl
  | node c l a r ihl ihr => simp [infixOrder, ihl, ihr]

theorem postfixOrder_perm (t : Tree α) : (postfixOrder t).Perm (prefixOrder t) := by
  induction t with
  | nil => exact List.Perm.refl _
  | node c l a r ihl ihr =>
    exact (perm_append_singleton a _).trans ((ihr.append ihl).cons a)

theorem cost_eq (t : Tree α) : Work.cost t = 3 * t.toList.length + 1 := by
  induction t with
  | nil => rfl
  | node c l a r ihl ihr =>
    rw [Work.cost, Tree.toList_node, length_append, length_cons]
    omega

/-! ### Trees built by insertions -/

section Insertions

variable [DecidableEq α] {cmp : α → α → Direction} {m m' : Mem α} {t : Tree α} {x : α}

theorem inlineInsert_holds (hrep : Rep m.node t m.root) (hnodup : t.toList.Nodup)
    (hx : x ∉ t.toList) (hrun : m.inlineInsert cmp x = some m') :
    Rep m'.node (inlineInsert cmp t x) m'.root := by
  by_cases hroom : (insertPath cmp x t []).length ≤ Mem.stackSize
  · obtain ⟨m1, hrun1, hrep1⟩ := inlineInsert_rep cmp hrep hnodup hx hroom
    obtain rfl := some.inj (hrun1.symm.trans hrun)
    exact hrep1
  · rw [inlineInsert_overrun cmp hrep hnodup (Nat.lt_of_not_le hroom)] at hrun
    simp at hrun

theorem insertions_hold {xs : List α} (hrep : Rep m.node t m.root)
    (hnodup : (t.toList ++ xs).Nodup)
    (hrun : xs.foldlM (fun m x => m.inlineInsert cmp x) m = some m') :
    ∃ u, Rep m'.node u m'.root ∧ u.toList.Perm (t.toList ++ xs) ∧
      (Sorts cmp → t.Ordered cmp → u.Ordered cmp) := by
  induction xs generalizing m t with
  | nil =>
    obtain rfl := some.inj hrun
    exact ⟨t, hrep, by rw [append_nil], fun _ h => h⟩
  | cons x xs ih =>
    obtain ⟨m1, hrun1, hrest⟩ := bind_eq_some_iff.mp hrun
    obtain ⟨hnt, -, hapart⟩ := nodup_append.mp hnodup
    have hx : x ∉ t.toList := fun hmem => hapart x hmem x mem_cons_self rfl
    have hperm : (inlineInsert cmp t x).toList.Perm (x :: t.toList) := by
      rw [toList_inlineInsert, toList_of_insertPath cmp t]
      exact perm_middle
    have hall : ((inlineInsert cmp t x).toList ++ xs).Perm (t.toList ++ x :: xs) :=
      (hperm.append_right xs).trans perm_middle.symm
    obtain ⟨u, hrep', hperm', hordered⟩ := ih (inlineInsert_holds hrep hnt hx hrun1)
      (hall.nodup_iff.mpr hnodup) hrest
    exact ⟨u, hrep', hperm'.trans hall,
      fun hc ho => hordered hc (ordered_inlineInsert hc ho hx)⟩

/--
**Iterating over a tree that was built by insertions**: the calls of the three iterators answer with
the nodes in their order, every node that was inserted once, and then with nothing.  When the
callback sorts the nodes, the nodes that the infix iterator answers with later are the ones that it
sends to the left.
-/
theorem insertions_iterate (cmp : α → α → Direction) (h : α → Node α) (xs : List α)
    (hxs : xs.Nodup) (m : Mem α)
    (hrun : xs.foldlM (fun m x => m.inlineInsert cmp x) ⟨none, h⟩ = some m) (it : Iterator α)
    (hspare : it.Spare) (turns : Nat) (hturns : 3 * xs.length + 1 ≤ turns) :
    ∃ t : Tree α, Rep m.node t m.root ∧
      (∀ n, Iterator.answers m.son turns n (it.build m.root prefixMask) =
        some ((List.range n).map fun i => (prefixOrder t)[i]?.map some)) ∧
      (∀ n, Iterator.answers m.son turns n (it.build m.root infixMask) =
        some ((List.range n).map fun i => (infixOrder t)[i]?.map some)) ∧
      (∀ n, Iterator.answers m.son turns n (it.build m.root postfixMask) =
        some ((List.range n).map fun i => (postfixOrder t)[i]?.map some)) ∧
      (prefixOrder t).Perm xs ∧ (infixOrder t).Perm xs ∧ (postfixOrder t).Perm xs ∧
      (IsStrictTotalOrder α (Before cmp) → (infixOrder t).Pairwise fun a b => cmp a b = .left) := by
  have hnil : Rep (⟨none, h⟩ : Mem α).node .nil (⟨none, h⟩ : Mem α).root := rfl
  obtain ⟨t, hrep, hperm, hordered⟩ := insertions_hold hnil (by simpa using hxs) hrun
  obtain ⟨hroot, hlinked⟩ := linked_of_rep hrep
  have hcost : Work.cost t ≤ turns := by
    rw [cost_eq, hperm.length_eq]
    exact hturns
  have hpre := (prefixOrder_perm t).trans hperm
  refine ⟨t, hrep, fun n => ?_, fun n => ?_, fun n => ?_, hpre, ?_,
    (postfixOrder_perm t).trans hpre, fun horder => ?_⟩
  · rw [hroot, ← visits_prefix]
    exact iterator_answers hspare hlinked prefixMask hcost n
  · rw [hroot, ← visits_infix]
    exact iterator_answers hspare hlinked infixMask hcost n
  · rw [hroot, ← visits_postfix]
    exact iterator_answers hspare hlinked postfixMask hcost n
  · rw [infixOrder_eq]
    exact (reverse_perm _).trans hperm
  · have hsorts := sortsStrictly_of_order horder
    have hright : t.Ordered cmp := hordered hsorts.toSorts List.Pairwise.nil
    have hnodup : t.toList.Nodup := hperm.nodup_iff.mpr hxs
    rw [infixOrder_eq, pairwise_reverse]
    exact hnodup.imp₂ (fun a b hne hab => hsorts.strict a b hne hab) hright

theorem insertions_iterate_three : ∃ m t,
    [2, 7, 4].foldlM (fun (m : Mem Nat) x => m.inlineInsert natCmp x)
        ⟨none, fun _ => ⟨fun _ => none, .red⟩⟩ = some m ∧ Rep m.node t m.root ∧
      (∀ n, Iterator.answers m.son 10 n ((Iterator.new Nat).build m.root prefixMask) =
        some ((List.range n).map fun i => (prefixOrder t)[i]?.map some)) ∧
      (∀ n, Iterator.answers m.son 10 n ((Iterator.new Nat).build m.root infixMask) =
        some ((List.range n).map fun i => (infixOrder t)[i]?.map some)) ∧
      (∀ n, Iterator.answers m.son 10 n ((Iterator.new Nat).build m.root postfixMask) =
        some ((List.range n).map fun i => (postfixOrder t)[i]?.map some)) ∧
      (prefixOrder t).Perm [2, 7, 4] ∧ (infixOrder t).Perm [2, 7, 4] ∧
      (postfixOrder t).Perm [2, 7, 4] ∧ (infixOrder t).Pairwise fun a b => natCmp a b = .left := by
  obtain ⟨m, hrun⟩ : ∃ m, [2, 7, 4].foldlM (fun (m : Mem Nat) x => m.inlineInsert natCmp x)
      ⟨none, fun _ => ⟨fun _ => none, .red⟩⟩ = some m := isSome_iff_exists.mp (by decide)
  obtain ⟨t, hrep, hpre, hin, hpost, hp, hi, hq, hsorted⟩ :=
    insertions_iterate natCmp _ [2, 7, 4] (by decide) m hrun (Iterator.new Nat)
      (Iterator.spare_new Nat) 10 (by decide)
  exact ⟨m, t, hrun, hrep, hpre, hin, hpost, hp, hi, hq, hsorted natCmp_order⟩

end Insertions

end Eina.Rbtree
