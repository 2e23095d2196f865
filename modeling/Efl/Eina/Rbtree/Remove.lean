/-
`eina_rbtree_inline_remove` on trees as values.

The function detaches a node and then climbs the path it came down, carrying a subtree that is one
black node short.  A node with two sons is replaced by the next one in order, the leftmost of its
right son.  When that one is black the climb starts at its right son, whatever colour that has:
every branch of the loop leaves the parent black.
-/
import Efl.Eina.Rbtree.Tree

namespace Eina.Rbtree

open RedBlack

variable {α : Type}

/-- The search loop: the path to `x` and the subtree there, if the search meets `x`. -/
@[grind =]
def removePath [DecidableEq α] (cmp : α → α → Direction) (x : α) :
    Tree α → List (Frame α) → Option (List (Frame α) × Tree α)
  | .nil, _ => none
  | .node c l r q, path =>
    if r = x then some (path, .node c l r q)
    else
      match cmp r x with
      | .left => removePath cmp x l (⟨c, r, .left, q⟩ :: path)
      | .right => removePath cmp x q (⟨c, r, .right, l⟩ :: path)

/-- A node without a left son, and the path to it. -/
structure Leftmost (α : Type) where
  path : List (Frame α)
  color : Color
  node : α
  right : Tree α

/-- The loop under "find predecessor": down the left sons from a node given by its parts. -/
@[grind =]
def leftmost : Color → Tree α → α → Tree α → List (Frame α) → Leftmost α
  | c, .nil, q, r, path => ⟨path, c, q, r⟩
  | c, .node lc ll la lr, q, r, path => leftmost lc ll la lr (⟨c, q, .left, r⟩ :: path)

/-- The new top of a rotated subtree gets the old colour, its sons become black. -/
def recolor (c : Color) : Tree α → Tree α
  | .nil => .nil
  | .node _ l a r => .node c (l.setColor .black) a (r.setColor .black)

/--
The body of the rebalancing loop once the sibling `q` is not red, at the frame `r`
that `up` leads to: the subtree that stands there afterwards, and whether the loop
goes on above it.
-/
def removeFix (r : Frame α) (t : Tree α) : Tree α × Bool :=
  match r.other with
  | .nil => (r.fill t, true)
  | .node _ ql q qr =>
    if ((RedBlack.Tree.node .black ql q qr).son r.dir.flip).color = .red then
      (recolor r.color (singleRotation (r.fill t) r.dir), false)
    else if ((RedBlack.Tree.node .black ql q qr).son r.dir).color = .red then
      (recolor r.color (doubleRotation (r.fill t) r.dir), false)
    else
      (Tree.mk r.dir .black r.node t (.node .red ql q qr), decide (r.color = .black))

/-- The rebalancing loop of `eina_rbtree_inline_remove`. -/
def removeRebalance : List (Frame α) → Tree α → Tree α
  | [], t => t
  | r :: path, t =>
    match r.other with
    | .node .red ql q qr =>
      -- The sibling is red: it is rotated above `r`, and the son it gives up is the
      -- sibling the rest of the body looks at.
      let s := RedBlack.Tree.node .red ql q qr
      let top : Frame α := ⟨.black, q, r.dir, s.son r.dir.flip⟩
      match removeFix ⟨.red, r.node, r.dir, s.son r.dir⟩ t with
      | (u, true) => removeRebalance path (top.fill u)
      | (u, false) => plug path (top.fill u)
    | _ =>
      match removeFix r t with
      | (u, true) => removeRebalance path u
      | (u, false) => plug path u

/-- The single link case: the only son `l0` takes the place of a node of colour `c`. -/
def removeSingle (path : List (Frame α)) (c : Color) (l0 : Tree α) : Tree α :=
  if c = .red then plug path l0
  else if l0.color = .red then plug path (l0.setColor .black)
  else removeRebalance path l0

/-- The two links case: `q` is detached and takes the place of a node of colour `c`. -/
def removeDouble (path : List (Frame α)) (c : Color) (l0 : Tree α) (q : Leftmost α) : Tree α :=
  let path := q.path ++ ⟨c, q.node, .right, l0⟩ :: path
  if q.color = .red then plug path q.right else removeRebalance path q.right

/-- What takes the place of a found node, before the root is blackened. -/
def removeFound (path : List (Frame α)) : Tree α → Tree α
  | .nil => plug path .nil
  | .node c (.node lc ll la lr) _ (.node rc rl ra rr) =>
    removeDouble path c (.node lc ll la lr) (leftmost rc rl ra rr [])
  | .node c .nil _ l1 => removeSingle path c l1
  | .node c l0 _ .nil => removeSingle path c l0

/-- `eina_rbtree_inline_remove` -/
def inlineRemove [DecidableEq α] (cmp : α → α → Direction) (root : Tree α) (node : α) : Tree α :=
  match removePath cmp node root [] with
  | none => root
  | some (path, t) => (removeFound path t).setColor .black

/-! ### What the search finds -/

variable {cmp : α → α → Direction} {x : α}

theorem removePath_some [DecidableEq α] :
    ∀ {t : Tree α} {path path' : List (Frame α)} {t' : Tree α},
      removePath cmp x t path = some (path', t') →
      plug path' t' = plug path t ∧ ∃ c l r, t' = .node c l x r := by
  intro t
  induction t with
  | nil => intro path path' t' h; simp [removePath] at h
  | node c l r q ihl ihq =>
    intro path path' t' h
    unfold removePath at h
    by_cases hrx : r = x
    · rw [if_pos hrx] at h
      obtain ⟨⟩ := h
      exact ⟨rfl, c, l, q, by rw [hrx]⟩
    · rw [if_neg hrx] at h
      split at h
      · exact ihl h
      · exact ihq h

theorem removePath_isSome [DecidableEq α] :
    ∀ {t : Tree α} (path : List (Frame α)), t.SearchTree cmp → x ∈ t.toList →
      (removePath cmp x t path).isSome := by
  intro t
  induction t with
  | nil => intro path _ hx; simp at hx
  | node c l r q ihl ihq =>
    intro path hs hx
    obtain ⟨hl, hq, hsl, hsq⟩ := hs
    unfold removePath
    by_cases hrx : r = x
    · rw [if_pos hrx]
      rfl
    rw [if_neg hrx]
    rcases List.mem_append.mp hx with hxl | hxq
    · rw [hl x hxl]
      exact ihl _ hsl hxl
    rcases List.mem_cons.mp hxq with rfl | hxq
    · exact absurd rfl hrx
    · rw [hq x hxq]
      exact ihq _ hsq hxq

/-! ### Removing a node removes it from the sequence, and nothing else -/

theorem toList_leftmost (l : Tree α) : ∀ (c : Color) (q : α) (r : Tree α) (path : List (Frame α)),
    before (leftmost c l q r path).path = before path ∧
      (leftmost c l q r path).node ::
          ((leftmost c l q r path).right.toList ++ after (leftmost c l q r path).path)
        = l.toList ++ q :: r.toList ++ after path := by
  induction l with
  | nil => intro c q r path; simp [leftmost]
  | node lc ll la lr ihl _ =>
    intro c q r path
    obtain ⟨h1, h2⟩ := ihl lc la lr (⟨c, q, .left, r⟩ :: path)
    rw [leftmost]
    refine ⟨by simpa [before, Frame.before] using h1, ?_⟩
    rw [h2]
    simp [after, Frame.after]

theorem toList_recolor (c : Color) (t : Tree α) : (recolor c t).toList = t.toList := by
  cases t <;> simp [recolor]

theorem toList_removeFix (r : Frame α) (t : Tree α) :
    (removeFix r t).1.toList = (r.fill t).toList := by
  unfold removeFix
  split
  · rfl
  rename_i qc ql q qr hother
  split
  · simp [toList_recolor]
  split
  · simp [toList_recolor]
  · cases hd : r.dir <;> simp [Tree.mk, Frame.fill, hd, hother]

theorem toList_removeRebalance (path : List (Frame α)) (t : Tree α) :
    (removeRebalance path t).toList = (plug path t).toList := by
  induction path generalizing t with
  | nil => rfl
  | cons r path ih =>
    have hgo : ∀ u : Tree α, u.toList = (r.fill t).toList →
        (removeRebalance path u).toList = (plug (r :: path) t).toList ∧
          (plug path u).toList = (plug (r :: path) t).toList := by
      intro u hu
      rw [ih, plug, toList_plug, toList_plug, hu]
      exact ⟨rfl, rfl⟩
    unfold removeRebalance
    split
    · rename_i ql q qr hother
      simp only
      have hfix := toList_removeFix
        ⟨.red, r.node, r.dir, (RedBlack.Tree.node .red ql q qr).son r.dir⟩ t
      have hu : ∀ u, u.toList = (removeFix
          ⟨.red, r.node, r.dir, (RedBlack.Tree.node .red ql q qr).son r.dir⟩ t).1.toList →
          (Frame.fill ⟨.black, q, r.dir,
            (RedBlack.Tree.node .red ql q qr).son r.dir.flip⟩ u).toList
            = (r.fill t).toList := by
        intro u hu
        rw [Frame.toList_fill, hu, hfix, Frame.toList_fill, Frame.toList_fill]
        cases hd : r.dir <;> simp [Frame.before, Frame.after, hd, hother, Tree.son,
          Direction.flip]
      split
      · rename_i u heq
        exact (hgo _ (hu u (by rw [heq]))).1
      · rename_i u heq
        exact (hgo _ (hu u (by rw [heq]))).2
    · have hfix := toList_removeFix r t
      split
      · rename_i u heq
        exact (hgo u (by rw [← hfix, heq])).1
      · rename_i u heq
        exact (hgo u (by rw [← hfix, heq])).2

theorem toList_removeSingle (path : List (Frame α)) (c : Color) (l0 : Tree α) :
    (removeSingle path c l0).toList = before path ++ l0.toList ++ after path := by
  unfold removeSingle
  split
  · rw [toList_plug]
  split
  · rw [toList_plug, Tree.toList_setColor]
  · rw [toList_removeRebalance, toList_plug]

theorem toList_removeFound (path : List (Frame α)) (c : Color) (l : Tree α) (x : α) (r : Tree α) :
    (removeFound path (.node c l x r)).toList =
      before path ++ (l.toList ++ r.toList) ++ after path := by
  match l, r with
  | .nil, r => exact toList_removeSingle path c r
  | .node lc ll la lr, .nil =>
    rw [show (RedBlack.Tree.nil : Tree α).toList = [] from rfl, List.append_nil]
    exact toList_removeSingle path c (.node lc ll la lr)
  | .node lc ll la lr, .node rc rl ra rr =>
    obtain ⟨h1, h2⟩ := toList_leftmost rl rc ra rr []
    show (removeDouble path c (.node lc ll la lr) (leftmost rc rl ra rr [])).toList = _
    set q := leftmost rc rl ra rr [] with hq
    have hall : (plug (q.path ++ ⟨c, q.node, .right, .node lc ll la lr⟩ :: path) q.right).toList
        = before path ++ ((RedBlack.Tree.node lc ll la lr).toList
            ++ (RedBlack.Tree.node rc rl ra rr).toList) ++ after path := by
      have h3 : q.node :: (q.right.toList ++ after q.path)
          = (RedBlack.Tree.node rc rl ra rr).toList := by
        rw [h2]
        simp [after]
      rw [toList_plug, before_append, after_append, h1, ← h3]
      simp [before, after, Frame.before, Frame.after]
    unfold removeDouble
    split
    · exact hall
    · rw [toList_removeRebalance]
      exact hall

/-- **A removal leaves the tree alone, or takes exactly `x` out of the sequence.** -/
theorem toList_inlineRemove [DecidableEq α] (cmp : α → α → Direction) (root : Tree α) (x : α) :
    (removePath cmp x root [] = none ∧ inlineRemove cmp root x = root) ∨
      ∃ b a, root.toList = b ++ x :: a ∧ (inlineRemove cmp root x).toList = b ++ a := by
  unfold inlineRemove
  cases hp : removePath cmp x root [] with
  | none => exact .inl ⟨rfl, rfl⟩
  | some pt =>
    obtain ⟨path, t⟩ := pt
    obtain ⟨hplug, c, l, r, rfl⟩ := removePath_some hp
    refine .inr ⟨before path ++ l.toList, r.toList ++ after path, ?_, ?_⟩
    · have h := congrArg Tree.toList hplug
      rw [toList_plug] at h
      simpa [plug] using h.symm
    · simp [toList_removeFound]

theorem sublist_inlineRemove [DecidableEq α] (cmp : α → α → Direction) (root : Tree α) (x : α) :
    (inlineRemove cmp root x).toList.Sublist root.toList := by
  rcases toList_inlineRemove cmp root x with ⟨-, h⟩ | ⟨b, a, h1, h2⟩
  · rw [h]
  · rw [h1, h2]
    simp

variable {root : Tree α}

/-- **Removing a node keeps the nodes in order.** -/
theorem ordered_inlineRemove [DecidableEq α] (ho : root.Ordered cmp) :
    (inlineRemove cmp root x).Ordered cmp :=
  List.Pairwise.sublist (sublist_inlineRemove cmp root x) ho

theorem nodup_inlineRemove [DecidableEq α] (hnd : root.toList.Nodup) :
    (inlineRemove cmp root x).toList.Nodup :=
  hnd.sublist (sublist_inlineRemove cmp root x)

theorem mem_inlineRemove_of_isSome [DecidableEq α] (hnd : root.toList.Nodup)
    (hs : (removePath cmp x root []).isSome) (y : α) :
    y ∈ (inlineRemove cmp root x).toList ↔ y ≠ x ∧ y ∈ root.toList := by
  rcases toList_inlineRemove cmp root x with ⟨h, -⟩ | ⟨b, a, h1, h2⟩
  · rw [h] at hs
    simp at hs
  rw [h1, List.nodup_middle, List.nodup_cons] at hnd
  rw [h1, h2]
  simp only [List.mem_append, List.mem_cons]
  constructor
  · intro hy
    refine ⟨?_, by tauto⟩
    rintro rfl
    exact hnd.1 (List.mem_append.mpr hy)
  · tauto

theorem mem_inlineRemove [DecidableEq α] (hnd : root.toList.Nodup) (hs : root.SearchTree cmp)
    (y : α) :
    y ∈ (inlineRemove cmp root x).toList ↔ y ≠ x ∧ y ∈ root.toList := by
  by_cases hx : x ∈ root.toList
  · exact mem_inlineRemove_of_isSome hnd (removePath_isSome [] hs hx) y
  rcases toList_inlineRemove cmp root x with ⟨-, h⟩ | ⟨b, a, h1, -⟩
  · rw [h]
    constructor
    · intro hy
      exact ⟨fun hyx => hx (hyx ▸ hy), hy⟩
    · exact fun hy => hy.2
  · exact absurd (by rw [h1]; simp) hx

/-! ### Removal keeps the balance

The subtree in hand has black height `n` where its path expects `n + 1`.  Its
sibling therefore has a black node to give, so it is never absent and the test for
that in the C code always succeeds.
-/

/-- What one turn of the loop leaves at a frame whose sibling is black. -/
structure Fixed (r : Frame α) (n : Nat) (u : Tree α) (again : Bool) : Prop where
  /-- When the loop stops, the subtree has the height the rest of the path expects. -/
  done : again = false → u.Balanced (n + 1 + r.weight) ∧ (u.color = .red → r.color = .red)
  /-- When it goes on, the node was black and the subtree is still one short. -/
  more : again = true → r.color = .black ∧ u.Balanced (n + 1)

variable {n : Nat} {t : Tree α}

/-- One turn of the repair ends it or passes the defect on. -/
theorem removeFix_fixed {r : Frame α} (ht : t.Balanced n)
    (ho : r.other.Balanced (n + 1)) (hob : r.other.color = .black) :
    Fixed r n (removeFix r t).1 (removeFix r t).2 := by
  obtain ⟨rc, rn, rd, ro⟩ := r
  match ro, ho, hob with
  | .node .black ql q qr, ho, _ =>
    obtain ⟨hql, hqr⟩ := ho
    unfold removeFix
    simp only
    split
    · -- the outer son of the sibling is red: one rotation
      rename_i hnd
      refine ⟨fun _ => ?_, fun h => by simp at h⟩
      cases rd with
      | left =>
        obtain ⟨a, b, c, rfl⟩ := Tree.color_eq_red hnd
        cases rc <;>
          cases ql <;> simp_all [recolor, singleRotation, Frame.fill, Tree.mk, Frame.weight]
      | right =>
        obtain ⟨a, b, c, rfl⟩ := Tree.color_eq_red hnd
        cases rc <;>
          cases qr <;> simp_all [recolor, singleRotation, Frame.fill, Tree.mk, Frame.weight]
    rename_i hnd
    split
    · -- the inner one is: it comes up two levels
      rename_i hd
      refine ⟨fun _ => ?_, fun h => by simp at h⟩
      cases rd with
      | left =>
        obtain ⟨a, b, c, rfl⟩ := Tree.color_eq_red hd
        cases rc <;>
          simp_all [recolor, singleRotation, doubleRotation, Frame.fill, Tree.mk, Frame.weight]
      | right =>
        obtain ⟨a, b, c, rfl⟩ := Tree.color_eq_red hd
        cases rc <;>
          simp_all [recolor, singleRotation, doubleRotation, Frame.fill, Tree.mk, Frame.weight]
    · -- neither is: the sibling turns red, and the shortage moves up unless `r` was red
      rename_i hd
      have hqlr : ql.color = .black ∧ qr.color = .black := by
        cases rd with
        | left => exact ⟨Color.ne_red.mp hd, Color.ne_red.mp hnd⟩
        | right => exact ⟨Color.ne_red.mp hnd, Color.ne_red.mp hd⟩
      have hbal : (Tree.mk rd .black rn t (.node .red ql q qr)).Balanced (n + 1) := by
        cases rd <;> simp_all [Tree.mk]
      refine ⟨fun h => ?_, fun h => ?_⟩
      · have hrc : rc = .red := by
          cases rc with
          | red => rfl
          | black => simp at h
        subst hrc
        exact ⟨by simpa [Frame.weight] using hbal, fun _ => rfl⟩
      · exact ⟨by simpa using h, hbal⟩

variable {path : List (Frame α)}

/-- **The heights are right again after a removal.** -/
theorem balanced_removeRebalance (hp : PathBalanced path (n + 1)) (ht : t.Balanced n) :
    ∃ m, (removeRebalance path t).Balanced m := by
  induction path generalizing t n with
  | nil => exact ⟨n, ht⟩
  | cons r path ih =>
    obtain ⟨ho, hrred, hpath⟩ := hp
    unfold removeRebalance
    split
    · rename_i ql q qr hother
      rw [hother] at ho hrred
      -- a red sibling: its parent is black, its own sons are not red
      have hrc : r.color = .black := by
        cases h : r.color with
        | black => rfl
        | red => exact absurd (hrred h).1 (by simp)
      have hw : r.weight = 1 := by simp [Frame.weight, hrc]
      rw [hw] at hpath
      obtain ⟨hqlb, hqrb, hql, hqr⟩ := ho
      have hinner : ((RedBlack.Tree.node .red ql q qr).son r.dir).Balanced (n + 1) ∧
          ((RedBlack.Tree.node .red ql q qr).son r.dir).color = .black := by
        cases r.dir with
        | left => exact ⟨hql, hqlb⟩
        | right => exact ⟨hqr, hqrb⟩
      have houter : ((RedBlack.Tree.node .red ql q qr).son r.dir.flip).Balanced (n + 1) := by
        cases r.dir with
        | left => exact hqr
        | right => exact hql
      have hfix := removeFix_fixed
        (r := ⟨.red, r.node, r.dir, (RedBlack.Tree.node .red ql q qr).son r.dir⟩)
        ht hinner.1 hinner.2
      simp only
      split
      · rename_i u heq
        rw [heq] at hfix
        have := (hfix.more rfl).1
        simp at this
      rename_i u heq
      rw [heq] at hfix
      obtain ⟨hu, -⟩ := hfix.done rfl
      have hu' : u.Balanced (n + 1) := by simpa [Frame.weight] using hu
      have hfill := Frame.balanced_fill
        (f := ⟨.black, q, r.dir, (RedBlack.Tree.node .red ql q qr).son r.dir.flip⟩) hu' houter
        (fun h => by simp at h)
      exact balanced_plug hpath (by simpa [Frame.weight] using hfill) (fun h => by simp at h)
    · rename_i hother
      have hob : r.other.color = .black := by
        cases h : r.other with
        | nil => rfl
        | node c l a s =>
          cases c with
          | black => rfl
          | red => exact absurd h (hother l a s)
      have hfix := removeFix_fixed ht ho hob
      split
      · rename_i u heq
        rw [heq] at hfix
        obtain ⟨hrc, hu⟩ := hfix.more rfl
        have hw : r.weight = 1 := by simp [Frame.weight, hrc]
        rw [hw] at hpath
        exact ih hpath hu
      · rename_i u heq
        rw [heq] at hfix
        obtain ⟨hu, hured⟩ := hfix.done rfl
        exact balanced_plug hpath hu (fun h => (hrred (hured h)).2)

theorem plug_leftmost (l : Tree α) : ∀ (c : Color) (q : α) (r : Tree α) (path : List (Frame α)),
    plug (leftmost c l q r path).path (.node (leftmost c l q r path).color .nil
      (leftmost c l q r path).node (leftmost c l q r path).right) = plug path (.node c l q r) := by
  induction l with
  | nil => intro c q r path; rfl
  | node lc ll la lr ihl _ =>
    intro c q r path
    exact ihl lc la lr (⟨c, q, .left, r⟩ :: path)

variable {c : Color} {l0 : Tree α} {r : Tree α} {l : Tree α}

theorem pathBalanced_rename {p : List (Frame α)} {y : α} {d : Direction} {s : Tree α}
    (h : PathBalanced (p ++ ⟨c, x, d, s⟩ :: path) n) :
    PathBalanced (p ++ ⟨c, y, d, s⟩ :: path) n := by
  induction p generalizing n with
  | nil => exact h
  | cons f p ih =>
    refine ⟨h.1, fun hc => ⟨(h.2.1 hc).1, ?_⟩, ih h.2.2⟩
    have htop := (h.2.1 hc).2
    cases p with
    | nil => exact htop
    | cons g p => exact htop

theorem balanced_removeSingle
    (hp : PathBalanced path (n + if c = .black then 1 else 0)) (h0 : l0.Balanced n)
    (hred : c = .red → l0.color = .black) : ∃ m, (removeSingle path c l0).Balanced m := by
  unfold removeSingle
  split
  · rename_i hc
    subst hc
    exact balanced_plug hp h0 (fun h => by simp [hred rfl] at h)
  rename_i hc
  obtain rfl : c = .black := Color.ne_red.mp hc
  split
  · rename_i hl0
    obtain ⟨a, b, d, rfl⟩ := Tree.color_eq_red hl0
    exact balanced_plug hp ⟨h0.2.2.1, h0.2.2.2⟩ (fun h => by simp at h)
  · exact balanced_removeRebalance hp h0

theorem balanced_removeDouble {q : Leftmost α}
    (h : (plug (q.path ++ ⟨c, x, .right, l0⟩ :: path) (.node q.color .nil q.node q.right)).Balanced
      n) :
    ∃ m, (removeDouble path c l0 q).Balanced m := by
  obtain ⟨k, hp, hnode, -⟩ := balanced_of_plug h
  have hp' := pathBalanced_rename (y := q.node) hp
  unfold removeDouble
  split
  · rename_i hc
    rw [hc] at hnode
    exact balanced_plug hp' hnode.2.2.2 (fun hr => by simp [hnode.2.1] at hr)
  · rename_i hc
    rw [Color.ne_red.mp hc] at hnode
    obtain ⟨j, rfl, -, hr⟩ := (Tree.balanced_black _ _ _ _).mp hnode
    exact balanced_removeRebalance hp' hr

theorem balanced_sons {k : Nat}
    (h : (RedBlack.Tree.node c l x r).Balanced k) :
    ∃ j, k = (j + if c = .black then 1 else 0) ∧ l.Balanced j ∧ r.Balanced j ∧
      (c = .red → l.color = .black ∧ r.color = .black) := by
  cases c with
  | red => exact ⟨k, by simp, h.2.2.1, h.2.2.2, fun _ => ⟨h.1, h.2.1⟩⟩
  | black =>
    obtain ⟨j, rfl, hl, hr⟩ := (Tree.balanced_black _ _ _ _).mp h
    exact ⟨j, by simp, hl, hr, fun hc => Color.noConfusion hc⟩

theorem balanced_removeFound (h : (plug path (.node c l x r)).Balanced n) :
    ∃ m, (removeFound path (.node c l x r)).Balanced m := by
  obtain ⟨k, hp, hnode, -⟩ := balanced_of_plug h
  obtain ⟨j, rfl, hl, hr, hred⟩ := balanced_sons hnode
  match l, r, h, hl, hr, hred with
  | .nil, r, _, _, hr, hred => exact balanced_removeSingle hp hr (fun hc => (hred hc).2)
  | .node lc ll la lr, .nil, _, hl, _, hred =>
    exact balanced_removeSingle hp hl (fun hc => (hred hc).1)
  | .node lc ll la lr, .node rc rl ra rr, h, _, _, _ =>
    refine balanced_removeDouble (x := x) (n := n) ?_
    rw [plug_append, plug_leftmost]
    exact h

/-- **Removing keeps the tree balanced.** -/
theorem balanced_inlineRemove [DecidableEq α] (cmp : α → α → Direction) (h : root.Balanced n) :
    ∃ m, (inlineRemove cmp root x).Balanced m := by
  unfold inlineRemove
  split
  · exact ⟨n, h⟩
  rename_i path t hp
  obtain ⟨hplug, c, l, r, rfl⟩ := removePath_some hp
  obtain ⟨m, hm⟩ := balanced_removeFound (by rw [hplug]; exact h)
  exact hm.setBlack

theorem color_inlineRemove [DecidableEq α] (cmp : α → α → Direction) (x : α)
    (h : root.color = .black) : (inlineRemove cmp root x).color = .black := by
  unfold inlineRemove
  split
  · exact h
  · rename_i path t _
    cases removeFound path t <;> rfl

end Eina.Rbtree
