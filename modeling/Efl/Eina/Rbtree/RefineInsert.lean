/-
`eina_rbtree_inline_insert` over memory computes the insertion on trees.

The search loop that starts from a tree in memory ends with a stack that describes
a path in that tree; it has a value exactly when the path fits into the stack.
From there on the rebalancing loop pops one entry at a time, and each turn of it is
the turn of the tree-level loop at the frame the entry stands for.
-/
import Efl.Eina.Rbtree.Rep

namespace Eina.Rbtree

open RedBlack List Option

variable {α : Type}

theorem length_stackFrom (path : List (Frame α)) (base : Link α) :
    (stackFrom path base).length = path.length := by
  induction path with
  | nil => rfl
  | cons f path ih => simp [stackFrom, ih]

variable {t : Tree α} (cmp : α → α → Direction)

theorem Rep.get_eq_some {h : α → Node α} {p : Option α} (hr : Rep h t p) (ht : t ≠ .nil) :
    ∃ n, p = some n ∧ n ∈ t.toList := by
  cases t with
  | nil => exact absurd rfl ht
  | node c l a r => exact ⟨a, hr.1, by simp⟩

/-! ### Insertion -/

theorem length_le_insertPath (x : α) (t : Tree α)
    (path : List (Frame α)) : path.length ≤ (insertPath cmp x t path).length := by
  induction t generalizing path with
  | nil => exact le_refl _
  | node c l q r ihl ihr =>
    unfold insertPath
    split
    · have h := ihl (⟨c, q, .left, r⟩ :: path)
      rw [length_cons] at h
      omega
    · have h := ihr (⟨c, q, .right, l⟩ :: path)
      rw [length_cons] at h
      omega

theorem length_lt_insertPath (x : α) (ht : t ≠ .nil)
    (path : List (Frame α)) : path.length < (insertPath cmp x t path).length := by
  cases t with
  | nil => exact absurd rfl ht
  | node c l q r =>
    unfold insertPath
    split
    · have h := length_le_insertPath cmp x l (⟨c, q, .left, r⟩ :: path)
      rwa [length_cons] at h
    · have h := length_le_insertPath cmp x r (⟨c, q, .right, l⟩ :: path)
      rwa [length_cons] at h

/-- The search of the insertion stops at the same place, or overruns its stack. -/
theorem insertSearch_rep {m : Mem α} (x : α) (t : Tree α) :
    ∀ {path : List (Frame α)} (room : Nat), Opened m path t →
      m.insertSearch cmp x room (linkFrom path .root) (stackFrom path .root) =
        if (insertPath cmp x t path).length ≤ path.length + room then
          some (linkFrom (insertPath cmp x t path) .root,
            stackFrom (insertPath cmp x t path) .root)
        else none := by
  induction t with
  | nil =>
    intro path room h
    have hget : m.get (linkFrom path .root) = none := h.hole
    rw [insertPath, if_pos (Nat.le_add_right _ _)]
    cases room with
    | zero => rw [Mem.insertSearch, hget]
    | succ room => rw [Mem.insertSearch, hget]
  | node c l q r ihl ihr =>
    intro path room h
    have hget : m.get (linkFrom path .root) = some q := h.hole.1
    cases room with
    | zero =>
      have hlong := length_lt_insertPath cmp x (t := .node c l q r) (by simp) path
      rw [Mem.insertSearch, hget, if_neg (by omega)]
    | succ room =>
      rw [Mem.insertSearch, hget, insertPath]
      have hroom : ∀ f : Frame α, path.length + (room + 1) = (f :: path).length + room := by
        intro f
        rw [length_cons]
        omega
      cases hd : cmp q x with
      | left =>
        have hopen : Opened m (⟨c, q, .left, r⟩ :: path) l := opened_cons.mpr h
        have hrun := ihl room hopen
        rw [← hroom] at hrun
        simp only [hd]
        exact hrun
      | right =>
        have hopen : Opened m (⟨c, q, .right, l⟩ :: path) r := opened_cons.mpr h
        have hrun := ihr room hopen
        rw [← hroom] at hrun
        simp only [hd]
        exact hrun

theorem insertSearch_root {m : Mem α} (x : α) (room : Nat)
    (h : Rep m.node t m.root) (hnd : t.toList.Nodup) :
    m.insertSearch cmp x room .root [] =
      if (insertPath cmp x t []).length ≤ room then
        some (linkFrom (insertPath cmp x t []) .root, stackFrom (insertPath cmp x t []) .root)
      else none := by
  have hsearch := insertSearch_rep cmp x t room (opened_nil.mpr ⟨h, hnd⟩)
  rw [length_nil, Nat.zero_add] at hsearch
  exact hsearch

section Insert

variable [DecidableEq α]

variable {m : Mem α} {path : List (Frame α)} {t : Tree α} {t' : Tree α}

theorem Opened.rotated {m' : Mem α} {top : α} (h : Opened m path t)
    (hrot : Rotated m m' t t' top) (hlist : t'.toList = t.toList) :
    Opened (m'.set (linkFrom path .root) (some top)) path t' := by
  have hnd : (plug path t').toList.Nodup := by
    rw [toList_plug, hlist, ← toList_plug]
    exact h.nodup
  refine h.replace hrot.root ?_ hrot.rep hnd
  intro a ha
  exact hrot.frame a (h.disjoint.2 a ha)

variable {q : Frame α} {a : α} {f : Frame α} {b : α} (c : Color)

theorem insertRotate_rep (h : Opened m (q :: path) t) (ha : m.son q.node q.dir = some a)
    (ht : t ≠ .nil) :
    ∃ m', m.insertRotate (linkFrom path .root) q.node a q.dir = some m' ∧
      Opened m' path (insertRotate q t) := by
  have hopen : Opened m path (q.fill t) := opened_cons.mp h
  have hget : m.get (linkFrom path .root) = some q.node := h.frames.1
  have hfill : Rep m.node (q.fill t) (some q.node) := hget ▸ hopen.hole
  have hson : Rep m.node t (some a) := ha ▸ h.hole
  have hnd := hopen.disjoint.1
  unfold Mem.insertRotate insertRotate
  by_cases hc : (t.son q.dir).color = .red
  · rw [if_pos ((hson.son q.dir).isRed.mpr hc), if_pos hc]
    obtain ⟨m', top, hrun, hrot⟩ := singleRotation_rep hfill hnd
      (by rw [Direction.flip_flip, son_fill]; exact ht)
    refine ⟨m'.set (linkFrom path .root) (some top), ?_, hopen.rotated hrot (by simp)⟩
    rw [hrun]
    rfl
  · rw [if_neg (fun hr => hc ((hson.son q.dir).isRed.mp hr)), if_neg hc]
    by_cases hd : (t.son q.dir.flip).color = .red
    · rw [if_pos ((hson.son q.dir.flip).isRed.mpr hd), if_pos hd]
      have hinner : ((q.fill t).son q.dir.flip.flip).son q.dir.flip ≠ .nil := by
        rw [Direction.flip_flip, son_fill]
        intro hnil
        rw [hnil] at hd
        exact Color.noConfusion hd
      obtain ⟨m', top, hrun, hrot⟩ := doubleRotation_rep hfill hnd hinner
      refine ⟨m'.set (linkFrom path .root) (some top), ?_, hopen.rotated hrot (by simp)⟩
      rw [hrun]
      rfl
    · rw [if_neg (fun hr => hd ((hson.son q.dir.flip).isRed.mp hr)), if_neg hd]
      exact ⟨m, rfl, hopen⟩

theorem Rep.setColor_of_notMem {p : Option α} (h : Rep m.node t p) (ha : a ∉ t.toList) (c : Color) :
    Rep (m.setColor a c).node t p := by
  refine h.congr (fun b hb => ?_)
  have hne : b ≠ a := fun hba => ha (hba ▸ hb)
  simp [Mem.setColor, Mem.setNode, hne]

theorem Rep.setColor (h : Rep m.node t (some a)) (hnd : t.toList.Nodup) (c : Color) :
    Rep (m.setColor a c).node (t.setColor c) (some a) := by
  cases t with
  | nil => simp [Rep] at h
  | node c' l b r =>
    obtain ⟨hb, -, hl, hr⟩ := h
    obtain rfl : a = b := by simpa using hb
    simp only [Tree.toList_node, nodup_append, nodup_cons, mem_cons] at hnd
    have hal : a ∉ l.toList := fun hm => hnd.2.2 a hm a (.inl rfl) rfl
    have hnode : (m.setColor a c).node a = { m.node a with color := c } := by
      simp [Mem.setColor, Mem.setNode]
    refine ⟨rfl, by rw [hnode], ?_, ?_⟩
    · rw [hnode]
      exact Rep.setColor_of_notMem hl hal c
    · rw [hnode]
      exact Rep.setColor_of_notMem hr hnd.2.1.1 c

theorem Opened.setColor_of_mem (h : Opened m path t) {c : Color} (ha : a ∈ t.toList)
    (hrep : Rep (m.setColor a c).node t' (m.get (linkFrom path .root)))
    (hlist : t'.toList = t.toList) : Opened (m.setColor a c) path t' := by
  refine h.update rfl ?_ hrep ?_
  · intro b hb
    have hne : b ≠ a := fun hba => h.disjoint.2 b hb (hba ▸ ha)
    simp [Mem.setColor, Mem.setNode, hne]
  · rw [toList_plug, hlist, ← toList_plug]
    exact h.nodup

theorem Opened.setColor (h : Opened m path t)
    (ha : m.get (linkFrom path .root) = some a) :
    Opened (m.setColor a c) path (t.setColor c) := by
  have hrep : Rep m.node t (some a) := ha ▸ h.hole
  refine h.setColor_of_mem ?_ ?_ (by simp)
  · cases t with
    | nil => simp [Rep] at hrep
    | node c' l b r =>
      obtain rfl : a = b := by simpa using hrep.1
      simp
  · rw [ha]
    exact hrep.setColor h.disjoint.1 c

@[simp] theorem get_setColor (m : Mem α) (a : α) (c : Color) (r : Link α) :
    (m.setColor a c).get r = m.get r := by
  cases r with
  | root => rfl
  | son p d =>
    by_cases hp : p = a
    · subst hp
      simp [Mem.get, Mem.setColor, Mem.setNode]
    · simp [Mem.get, Mem.setColor, Mem.setNode, hp]

omit [DecidableEq α] in
theorem fill_swap (a : α) (d : Direction) (s t : Tree α) :
    Frame.fill ⟨c, a, d, s⟩ t = Frame.fill ⟨c, a, d.flip, t⟩ s := by
  cases d <;> rfl

theorem Opened.setColor_frame (h : Opened m (f :: path) t) :
    Opened (m.setColor f.node c) ({ f with color := c } :: path) t := by
  have h' := (opened_cons.mp h).setColor c h.frames.1
  have hfill : (f.fill t).setColor c = ({ f with color := c } : Frame α).fill t := by
    obtain ⟨c', a, d, s⟩ := f
    cases d <;> rfl
  rw [hfill] at h'
  exact opened_cons.mpr h'

theorem Opened.setColor_other (h : Opened m (f :: path) t)
    (hb : m.son f.node f.dir.flip = some b) :
    Opened (m.setColor b c) ({ f with other := f.other.setColor c } :: path) t := by
  rw [opened_cons, fill_swap, ← opened_cons] at h
  have h' := h.setColor c hb
  rw [opened_cons, fill_swap, Direction.flip_flip] at h'
  exact opened_cons.mpr h'

theorem insertFlip_rep (h : Opened m (q :: path) t) (ha : m.son q.node q.dir = some a)
    (hb : m.son q.node q.dir.flip = some b) :
    Opened (((m.setColor q.node .red).setColor a .black).setColor b .black) path
      (insertFlip q t) := by
  have h1 := h.setColor_frame .red
  have ha1 : (m.setColor q.node .red).get (.son q.node q.dir) = some a := by
    rw [get_setColor]
    exact ha
  have h2 := h1.setColor .black ha1
  have hb2 : ((m.setColor q.node .red).setColor a .black).get (.son q.node q.dir.flip) =
      some b := by
    rw [get_setColor, get_setColor]
    exact hb
  exact opened_cons.mp (h2.setColor_other .black hb2)

/-- One turn of the repair, in the memory. -/
theorem insertTurn_rep (h : Opened m (q :: path) t) (ha : m.son q.node q.dir = some a)
    (ht : t ≠ .nil) :
    ∃ m', m.insertTurn (linkFrom path .root) q.node a q.dir = some m' ∧
      Opened m' path (if q.other.color = .red then insertFlip q t else insertRotate q t) := by
  have hother : Rep m.node q.other (m.son q.node q.dir.flip) := h.frames.2.2.1
  unfold Mem.insertTurn
  by_cases hb : q.other.color = .red
  · rw [if_pos hb]
    obtain ⟨b, hbson, -⟩ := hother.get_eq_some
      (by rintro hnil; rw [hnil] at hb; exact Color.noConfusion hb)
    rw [hbson] at hother
    have hcb : m.color b = .red := by simpa [Mem.isRed] using hother.isRed.mpr hb
    refine ⟨_, ?_, insertFlip_rep h ha hbson⟩
    simp only [hbson, hcb, if_true]
  · rw [if_neg hb]
    obtain ⟨m', hrun, hopen⟩ := insertRotate_rep h ha ht
    refine ⟨m', ?_, hopen⟩
    cases hbson : m.son q.node q.dir.flip with
    | none => exact hrun
    | some b =>
      rw [hbson] at hother
      have hcb : m.color b ≠ .red := by
        intro hc
        exact hb (hother.isRed.mp (by simp [Mem.isRed, hc]))
      simp only [hcb]
      exact hrun

/-- **The rebalancing loop of an insertion over memory.** -/
theorem insertLoop_rep : ∀ {m : Mem α} {t : Tree α}, Opened m path t →
    ∃ m', Mem.insertLoop (stackFrom path .root) m = some m' ∧
      Rep m'.node (insertRebalance path t) m'.root := by
  induction path with
  | nil =>
    intro m t h
    exact ⟨m, rfl, h.hole⟩
  | cons q path ih =>
    intro m t h
    have hget : m.get (linkFrom path .root) = some q.node := h.frames.1
    have hson : Rep m.node t (m.son q.node q.dir) := h.hole
    rw [stackFrom, Mem.insertLoop, hget, insertRebalance]
    simp only [bind_eq_bind, bind_some]
    by_cases hblack : t.color = .black
    · -- an absent or black son ends the loop
      rw [if_pos hblack]
      refine ⟨m, ?_, h.closed⟩
      cases ha : m.son q.node q.dir with
      | none => rfl
      | some a =>
        rw [ha] at hson
        have hred : ¬ m.isRed (some a) = true := by
          rw [hson.isRed, hblack]
          simp
        have hc : m.color a = .black := by
          rw [← Color.ne_red]
          simpa [Mem.isRed] using hred
        simp [hc]
    · rw [if_neg hblack]
      have hred : t.color = .red := by
        by_contra hne
        exact hblack (Color.ne_red.mp hne)
      have ht : t ≠ .nil := by
        rintro rfl
        exact hblack rfl
      obtain ⟨a, ha, -⟩ := hson.get_eq_some ht
      rw [ha] at hson
      have hca : m.color a = .red := by simpa [Mem.isRed] using hson.isRed.mpr hred
      obtain ⟨m1, hrun, hopen⟩ := insertTurn_rep h ha ht
      simp only [ha, hca, hrun]
      by_cases hb : q.other.color = .red
      · rw [if_pos hb] at hopen ⊢
        exact ih hopen
      · rw [if_neg hb] at hopen ⊢
        exact ih hopen

variable {x : α} (cmp : α → α → Direction)

theorem nodeInit_set (m : Mem α) {r : Link α} (hr : ∀ d, r ≠ .son x d) (v : Option α) :
    (m.set r v).nodeInit x = (m.nodeInit x).set r v := by
  cases r with
  | root => rfl
  | son p d =>
    have hne : p ≠ x := fun hpx => hr d (by rw [hpx])
    simp only [Mem.set, Mem.setSon, Mem.nodeInit, Mem.setNode, Function.update_of_ne hne]
    rw [Function.update_comm (symm hne)]

omit [DecidableEq α] in
theorem mem_of_linkFrom {d : Direction} (h : linkFrom path .root = .son x d) :
    x ∈ before path ++ after path := by
  cases path with
  | nil => simp [linkFrom] at h
  | cons f path =>
    have hx : f.node = x := (Link.son.inj h).1
    exact mem_before_or_after f path (.inl hx.symm)

/--
**`eina_rbtree_inline_insert` over memory.**  The call has a value exactly when the
path to the insertion leaf fits into the stack.
-/
theorem inlineInsert_rep (h : Rep m.node t m.root) (hnd : t.toList.Nodup)
    (hx : x ∉ t.toList) (hroom : (insertPath cmp x t []).length ≤ Mem.stackSize) :
    ∃ m', m.inlineInsert cmp x = some m' ∧ Rep m'.node (inlineInsert cmp t x) m'.root := by
  set P := insertPath cmp x t [] with hP
  have hopen : Opened m P .nil := opened_of_plug h hnd (by rw [plug_insertPath]; rfl)
  have hxP : x ∉ before P ++ after P := by
    rw [← toList_of_insertPath]
    exact hx
  -- the new node is linked at the end of the path
  have hleaf : Opened ((m.nodeInit x).set (linkFrom P .root) (some x)) P
      (.node .red .nil x .nil) := by
    refine hopen.replace rfl ?_ ?_ ?_
    · intro a ha
      have hne : a ≠ x := fun hax => hxP (hax ▸ ha)
      simp [Mem.nodeInit, Mem.setNode, hne]
    · simp [Rep, Mem.nodeInit, Mem.setNode]
    · have hnd' := hopen.nodup
      rw [toList_plug] at hnd' ⊢
      simp only [Tree.toList_node, Tree.toList_nil, nil_append,
        append_assoc, cons_append] at hnd' ⊢
      rw [nodup_middle]
      exact nodup_cons.mpr ⟨hxP, hnd'⟩
  obtain ⟨m1, hrun, hrep⟩ := insertLoop_rep hleaf
  have hlist : (insertRebalance P (.node .red .nil x .nil)).toList.Nodup := by
    rw [toList_insertRebalance]
    exact hleaf.nodup
  have hne : insertRebalance P (.node .red .nil x .nil) ≠ .nil := by
    intro hnil
    have hmem : x ∈ (insertRebalance P (.node .red .nil x .nil)).toList := by
      rw [toList_insertRebalance, toList_plug]
      simp
    rw [hnil] at hmem
    simp at hmem
  obtain ⟨root, hroot, -⟩ := hrep.get_eq_some hne
  refine ⟨m1.setColor root .black, ?_, ?_⟩
  · have hset : ∀ d, linkFrom P .root ≠ .son x d := fun d hd => hxP (mem_of_linkFrom hd)
    rw [Mem.inlineInsert, insertSearch_root cmp x Mem.stackSize h hnd, if_pos hroom]
    simp only [bind_eq_bind, bind_some]
    rw [nodeInit_set m hset, hrun]
    simp only [bind_some, hroot]
    rfl
  · have hroot' : (m1.setColor root .black).root = some root := hroot
    rw [hroot']
    rw [hroot] at hrep
    exact hrep.setColor hlist .black

theorem inlineInsert_overrun (h : Rep m.node t m.root)
    (hnd : t.toList.Nodup) (hroom : Mem.stackSize < (insertPath cmp x t []).length) :
    m.inlineInsert cmp x = none := by
  rw [Mem.inlineInsert, insertSearch_root cmp x Mem.stackSize h hnd, if_neg (by omega)]
  rfl

end Insert

end Eina.Rbtree
