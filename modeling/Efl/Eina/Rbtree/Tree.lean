/-
`eina_rbtree.c` on trees as values.

The functions here follow the C ones statement by statement, with the stack of
tagged link pointers replaced by a list of frames: an entry of the stack is a link
to a node together with a direction, and a frame is that node, its colour, the
direction and the son on the other side.  `Rbtree/Heap.lean` has the functions over
memory, and `Rbtree/RefineInsert.lean` and `Rbtree/RefineRemove.lean` show that they
compute these.

Both rebalancing loops are proved at one frame at a time.  On the way up from an
insertion the subtree in hand may be red below a red frame, or red with a red son
of its own below a black one (`Ascending`), never both; on the way up from a
removal it is one black node short and its root may have any colour
(`PathBalanced path (n + 1)` against `Balanced n`).
-/
import Efl.Lib.RedBlack

namespace Eina

-- Mathlib has a `Tree` of its own, which `open RedBlack` would leave as a second reading.
export RedBlack (Tree)

namespace Rbtree

open RedBlack

variable {α : Type}

/-! ### Rotations -/

/--
`_eina_rbtree_inline_single_rotation`: the son of `node` in direction `dir ^ 1`
takes its place.  The C code reads that son without a test, so the last branch is
the one it never takes.
-/
def singleRotation (node : Tree α) (dir : Direction) : Tree α :=
  match dir, node with
  | .left, .node _ l a (.node _ rl save rr) => .node .black (.node .red l a rl) save rr
  | .right, .node _ (.node _ ll save lr) a r => .node .black ll save (.node .red lr a r)
  | _, t => t

/-- `_eina_rbtree_inline_double_rotation` -/
def doubleRotation (node : Tree α) (dir : Direction) : Tree α :=
  match dir, node with
  | .left, .node c l a r => singleRotation (.node c l a (singleRotation r .right)) .left
  | .right, .node c l a r => singleRotation (.node c (singleRotation l .left) a r) .right
  | _, t => t

@[simp] theorem toList_singleRotation (t : Tree α) (d : Direction) :
    (singleRotation t d).toList = t.toList := by
  unfold singleRotation
  split <;> simp

@[simp] theorem toList_doubleRotation (t : Tree α) (d : Direction) :
    (doubleRotation t d).toList = t.toList := by
  unfold doubleRotation
  split <;> simp

/-! ### Insertion -/

/-- The search loop of `eina_rbtree_inline_insert`: the path to the insertion leaf. -/
@[grind =]
def insertPath (cmp : α → α → Direction) (x : α) : Tree α → List (Frame α) → List (Frame α)
  | .nil, path => path
  | .node c l q r, path =>
    match cmp q x with
    | .left => insertPath cmp x l (⟨c, q, .left, r⟩ :: path)
    | .right => insertPath cmp x r (⟨c, q, .right, l⟩ :: path)

/--
The branch of the loop for a red son `a` with a black or absent sibling; `c` and
`d` of the C code are the sons of `a`.
-/
def insertRotate (q : Frame α) (a : Tree α) : Tree α :=
  if (a.son q.dir).color = .red then singleRotation (q.fill a) q.dir.flip
  else if (a.son q.dir.flip).color = .red then doubleRotation (q.fill a) q.dir.flip
  else q.fill a

/-- The branch for two red sons: they turn black and the node red. -/
def insertFlip (q : Frame α) (a : Tree α) : Tree α :=
  Tree.mk q.dir .red q.node (a.setColor .black) (q.other.setColor .black)

/--
The rebalancing loop of `eina_rbtree_inline_insert`.  `a` is the son the path came
from and `q.other` the one the C code calls `b`.
-/
def insertRebalance : List (Frame α) → Tree α → Tree α
  | [], a => a
  | q :: path, a =>
    if a.color = .black then plug (q :: path) a
    else if q.other.color = .red then insertRebalance path (insertFlip q a)
    else insertRebalance path (insertRotate q a)

/-- `eina_rbtree_inline_insert` -/
def inlineInsert (cmp : α → α → Direction) (root : Tree α) (node : α) : Tree α :=
  (insertRebalance (insertPath cmp node root []) (.node .red .nil node .nil)).setColor .black

variable (cmp : α → α → Direction)

theorem plug_insertPath (x : α) (t : Tree α) (path : List (Frame α)) :
    plug (insertPath cmp x t path) .nil = plug path t := by
  induction t generalizing path with
  | nil => rfl
  | node c l q r ihl ihr =>
    unfold insertPath
    cases cmp q x with
    | left => exact ihl _
    | right => exact ihr _

theorem toList_insertRotate (q : Frame α) (a : Tree α) :
    (insertRotate q a).toList = (q.fill a).toList := by
  unfold insertRotate
  split
  · simp
  split
  · simp
  · rfl

theorem toList_insertFlip (q : Frame α) (a : Tree α) :
    (insertFlip q a).toList = (q.fill a).toList := by
  cases hd : q.dir <;> simp [insertFlip, Tree.mk, Frame.fill, hd]

theorem toList_insertRebalance (path : List (Frame α)) (a : Tree α) :
    (insertRebalance path a).toList = (plug path a).toList := by
  induction path generalizing a with
  | nil => rfl
  | cons q path ih =>
    unfold insertRebalance
    split
    · rfl
    split
    · rw [ih, plug, toList_plug, toList_plug, toList_insertFlip]
    · rw [ih, plug, toList_plug, toList_plug, toList_insertRotate]

theorem toList_inlineInsert (root : Tree α) (x : α) :
    (inlineInsert cmp root x).toList =
      before (insertPath cmp x root []) ++ x :: after (insertPath cmp x root []) := by
  simp [inlineInsert, toList_insertRebalance, toList_plug]

theorem toList_of_insertPath (root : Tree α) (x : α) :
    root.toList = before (insertPath cmp x root []) ++ after (insertPath cmp x root []) := by
  have h := congrArg Tree.toList (plug_insertPath cmp x root [])
  rw [toList_plug] at h
  simpa [plug] using h.symm

theorem mem_inlineInsert (root : Tree α) (x y : α) :
    y ∈ (inlineInsert cmp root x).toList ↔ y = x ∨ y ∈ root.toList := by
  rw [toList_inlineInsert, toList_of_insertPath cmp root]
  simp only [List.mem_append, List.mem_cons]
  tauto

variable {root : Tree α} {x : α}

theorem nodup_inlineInsert (hnd : root.toList.Nodup)
    (hx : x ∉ root.toList) : (inlineInsert cmp root x).toList.Nodup := by
  rw [toList_of_insertPath cmp root] at hnd hx
  rw [toList_inlineInsert, List.nodup_middle]
  exact List.nodup_cons.mpr ⟨hx, hnd⟩

/-! ### Insertion keeps the order -/

/-- The way of an insertion goes between the smaller and the larger keys. -/
theorem insertPath_sides {cmp : α → α → Direction} (hc : Sorts cmp) (x : α) (t : Tree α)
    (path : List (Frame α)) (ho : (plug path t).Ordered cmp) (hx : x ∉ (plug path t).toList)
    (hb : ∀ y ∈ before path, cmp y x = .right) (ha : ∀ y ∈ after path, cmp x y = .right) :
    (∀ y ∈ before (insertPath cmp x t path), cmp y x = .right) ∧
      ∀ y ∈ after (insertPath cmp x t path), cmp x y = .right := by
  induction t generalizing path with
  | nil => exact ⟨hb, ha⟩
  | node c l q r ihl ihr =>
    have hsub : (RedBlack.Tree.node c l q r).Ordered cmp := by
      unfold Tree.Ordered at ho ⊢
      rw [toList_plug, List.pairwise_append, List.pairwise_append] at ho
      exact ho.1.2.1
    have hqx : q ≠ x := by
      rintro rfl
      exact hx (by rw [toList_plug]; simp)
    unfold Tree.Ordered at hsub
    simp only [Tree.toList_node, List.pairwise_append, List.pairwise_cons] at hsub
    unfold insertPath
    cases hdir : cmp q x with
    | left =>
      have hxq : cmp x q = .right := hc.asymm q x hqx hdir
      refine ihl _ ho hx ?_ ?_
      · simpa [before, Frame.before] using hb
      · intro y hy
        simp only [after, Frame.after, List.mem_append, List.mem_cons] at hy
        rcases hy with (rfl | hy) | hy
        · exact hxq
        · exact hc.trans x q y hxq (hsub.2.1.1 y hy)
        · exact ha y hy
    | right =>
      refine ihr _ ho hx ?_ ?_
      · intro y hy
        simp only [before, Frame.before, List.mem_append, List.mem_singleton] at hy
        rcases hy with hy | hy | rfl
        · exact hb y hy
        · exact hc.trans y q x (hsub.2.2 y hy q (by simp)) hdir
        · exact hdir
      · simpa [after, Frame.after] using ha

/-- **Inserting a new node keeps the nodes in order.** -/
theorem ordered_inlineInsert {cmp : α → α → Direction} (hc : Sorts cmp) (ho : root.Ordered cmp)
    (hx : x ∉ root.toList) : (inlineInsert cmp root x).Ordered cmp := by
  obtain ⟨hb, ha⟩ := insertPath_sides hc x root [] ho hx (by simp [before]) (by simp [after])
  unfold Tree.Ordered at ho ⊢
  rw [toList_of_insertPath cmp root, List.pairwise_append] at ho
  rw [toList_inlineInsert, List.pairwise_append, List.pairwise_cons]
  refine ⟨ho.1, ⟨ha, ho.2.1⟩, ?_⟩
  intro y hy z hz
  rcases List.mem_cons.mp hz with rfl | hz
  · exact hb y hy
  · exact ho.2.2 y hy z hz

/-! ### Insertion keeps the balance -/

/-- A red root over two balanced sons of which at most one is red. -/
def RedOverRed (t : Tree α) (n : Nat) : Prop :=
  ∃ l a r, t = .node .red l a r ∧ l.Balanced n ∧ r.Balanced n ∧
    (l.color = .black ∨ r.color = .black)

/-- What the loop has in hand on its way up: a balanced subtree, or one red son too many. -/
def Ascending (path : List (Frame α)) (t : Tree α) (n : Nat) : Prop :=
  t.Balanced n ∨ RedOverRed t n ∧ topColor path = .black

variable {path : List (Frame α)} {n : Nat} {t : Tree α} {r : Tree α} {l : Tree α}

theorem Ascending.setBlack (h : Ascending path t n) :
    ∃ m, (t.setColor .black).Balanced m := by
  rcases h with h | ⟨⟨l, a, r, rfl, hl, hr, -⟩, -⟩
  · exact h.setBlack
  · exact ⟨n + 1, hl, hr⟩

theorem Ascending.red {a : α} (h : Ascending path (.node .red l a r) n) :
    l.Balanced n ∧ r.Balanced n ∧ (l.color = .black ∨ r.color = .black) := by
  rcases h with h | ⟨⟨l', a', r', heq, hl, hr, hlr⟩, -⟩
  · exact ⟨h.2.2.1, h.2.2.2, .inl h.1⟩
  · cases heq
    exact ⟨hl, hr, hlr⟩

theorem Ascending.black (h : Ascending path t n) (hc : t.color = .black) :
    t.Balanced n := by
  rcases h with h | ⟨⟨l, a, r, rfl, -⟩, -⟩
  · exact h
  · simp at hc

variable {q : Frame α}

theorem Ascending.frame_black {a : α}
    (h : Ascending (q :: path) (.node .red l a r) n) (hred : l.color = .red ∨ r.color = .red) :
    q.color = .black := by
  rcases h with h | ⟨-, htop⟩
  · rcases hred with hl | hr
    · exact absurd (h.1.symm.trans hl) (by decide)
    · exact absurd (h.2.1.symm.trans hr) (by decide)
  · exact htop

variable {a : Tree α}

/-- A red pair on the outside, repaired. -/
theorem balanced_singleRotation (ha : Ascending (q :: path) a n) (hred : a.color = .red)
    (ho : q.other.Balanced n) (hob : q.other.color = .black) (hc : (a.son q.dir).color = .red) :
    (singleRotation (q.fill a) q.dir.flip).Balanced (n + q.weight) := by
  obtain ⟨l, x, r, rfl⟩ := Tree.color_eq_red hred
  obtain ⟨hl, hr, hlr⟩ := ha.red
  obtain ⟨qc, qn, qd, qo⟩ := q
  cases qd with
  | left =>
    obtain rfl : qc = .black := ha.frame_black (.inl hc)
    have hrb : r.color = .black := by
      rcases hlr with h | h
      · exact absurd (h.symm.trans hc) (by decide)
      · exact h
    simp_all [Frame.fill, Tree.mk, Direction.flip, singleRotation, Frame.weight]
  | right =>
    obtain rfl : qc = .black := ha.frame_black (.inr hc)
    have hlb : l.color = .black := by
      rcases hlr with h | h
      · exact h
      · exact absurd (h.symm.trans hc) (by decide)
    simp_all [Frame.fill, Tree.mk, Direction.flip, singleRotation, Frame.weight]

theorem balanced_doubleRotation (ha : Ascending (q :: path) a n) (hred : a.color = .red)
    (ho : q.other.Balanced n) (hob : q.other.color = .black)
      (hd : (a.son q.dir.flip).color = .red) :
    (doubleRotation (q.fill a) q.dir.flip).Balanced (n + q.weight) := by
  obtain ⟨l, x, r, rfl⟩ := Tree.color_eq_red hred
  obtain ⟨hl, hr, hlr⟩ := ha.red
  obtain ⟨qc, qn, qd, qo⟩ := q
  cases qd with
  | left =>
    obtain rfl : qc = .black := ha.frame_black (.inr hd)
    obtain ⟨rl, y, rr, rfl⟩ := Tree.color_eq_red hd
    simp_all [Frame.fill, Tree.mk, Direction.flip, singleRotation, doubleRotation, Frame.weight]
  | right =>
    obtain rfl : qc = .black := ha.frame_black (.inl hd)
    obtain ⟨ll, y, lr, rfl⟩ := Tree.color_eq_red hd
    simp_all [Frame.fill, Tree.mk, Direction.flip, singleRotation, doubleRotation, Frame.weight]

theorem ascending_flip (ha : Ascending (q :: path) a n) (hp : PathBalanced (q :: path) n)
    (hred : a.color = .red) (hother : q.other.color = .red) :
    (insertFlip q a).Balanced (n + q.weight) := by
  obtain ⟨l, x, r, rfl⟩ := Tree.color_eq_red hred
  obtain ⟨hl, hr, -⟩ := ha.red
  obtain ⟨qc, qn, qd, qo⟩ := q
  obtain ⟨ho, hqred, -⟩ := hp
  obtain ⟨ol, y, or, rfl⟩ := Tree.color_eq_red hother
  obtain rfl : qc = .black := by
    cases qc with
    | black => rfl
    | red => exact absurd ((hqred rfl).1.symm.trans hother) (by decide)
  cases qd <;> simp_all [insertFlip, Tree.mk, Frame.weight]

/-- Without a red pair, one level up. -/
theorem ascending_fill (ha : Ascending (q :: path) a n) (hp : PathBalanced (q :: path) n)
    (hred : a.color = .red) (hc : (a.son q.dir).color ≠ .red)
      (hd : (a.son q.dir.flip).color ≠ .red) :
    Ascending path (q.fill a) (n + q.weight) := by
  obtain ⟨l, x, r, rfl⟩ := Tree.color_eq_red hred
  obtain ⟨hl, hr, -⟩ := ha.red
  have hlr : l.color = .black ∧ r.color = .black := by
    cases hqd : q.dir with
    | left => rw [hqd] at hc hd; exact ⟨Color.ne_red.mp hc, Color.ne_red.mp hd⟩
    | right => rw [hqd] at hc hd; exact ⟨Color.ne_red.mp hd, Color.ne_red.mp hc⟩
  have hbal : (RedBlack.Tree.node .red l x r).Balanced n := ⟨hlr.1, hlr.2, hl, hr⟩
  obtain ⟨ho, hqred, -⟩ := hp
  cases hqc : q.color with
  | black => exact .inl (Frame.balanced_fill hbal ho (fun h => by simp [hqc] at h))
  | red =>
    obtain ⟨hob, htop⟩ := hqred hqc
    refine .inr ⟨?_, htop⟩
    obtain ⟨qc, qn, qd, qo⟩ := q
    obtain rfl : qc = .red := hqc
    cases qd with
    | left => exact ⟨_, qn, qo, rfl, hbal, ho, .inr hob⟩
    | right => exact ⟨qo, qn, _, rfl, ho, hbal, .inl hob⟩

theorem ascending_insertRotate (ha : Ascending (q :: path) a n) (hp : PathBalanced (q :: path) n)
    (hred : a.color = .red) (hother : q.other.color = .black) :
    Ascending path (insertRotate q a) (n + q.weight) := by
  unfold insertRotate
  split
  · rename_i hc
    exact .inl (balanced_singleRotation ha hred hp.1 hother hc)
  rename_i hc
  split
  · rename_i hd
    exact .inl (balanced_doubleRotation ha hred hp.1 hother hd)
  · rename_i hd
    exact ascending_fill ha hp hred hc hd

theorem balanced_insertRebalance (hp : PathBalanced path n) (ha : Ascending path a n) :
    ∃ m, ((insertRebalance path a).setColor .black).Balanced m := by
  induction path generalizing a n with
  | nil => exact ha.setBlack
  | cons q path ih =>
    unfold insertRebalance
    split
    · rename_i hb
      obtain ⟨m, hm⟩ := balanced_plug hp (ha.black hb) (fun h => by simp [hb] at h)
      exact hm.setBlack
    rename_i hnb
    have hred : a.color = .red := by
      cases h : a.color with
      | red => rfl
      | black => exact absurd h hnb
    split
    · rename_i hother
      exact ih hp.2.2 (.inl (ascending_flip ha hp hred hother))
    · rename_i hother
      exact ih hp.2.2 (ascending_insertRotate ha hp hred (Color.ne_red.mp hother))

/-- **Inserting keeps the tree balanced.** -/
theorem balanced_inlineInsert (h : root.Balanced n) :
    ∃ m, (inlineInsert cmp root x).Balanced m := by
  have h' : (plug (insertPath cmp x root []) .nil).Balanced n := by
    rw [plug_insertPath]
    exact h
  obtain ⟨k, hp, hnil, -⟩ := balanced_of_plug h'
  obtain rfl : k = 0 := hnil
  exact balanced_insertRebalance hp (.inl (by simp))

theorem color_inlineInsert (root : Tree α) (x : α) :
    (inlineInsert cmp root x).color = .black := by
  unfold inlineInsert
  cases insertRebalance (insertPath cmp x root []) (.node .red .nil x .nil) <;> rfl

end Rbtree

end Eina
