/-
Trees in memory.

`Rep h t p` says that the nodes of `t`, found from the pointer `p`, have in `h` the
colours and sons they have in `t`.  During an operation part of the tree is on the
stack: `Opened m path t` says that the frames of `path` are in memory as the stack
entries describe them and that `t` hangs at the end of the last link.  Opening and
closing a frame costs nothing (`opened_cons`), so `Opened m path t` is nothing but
`Rep m.node (plug path t) m.root` for distinct nodes.

Every write of the C code happens below the link at the top of the stack.  That is
what `Opened.replace` uses: whatever is done to nodes that are not on the path, and
whatever is then stored through the link, the rest of the path still stands.
-/
import Efl.Eina.Rbtree.Heap
import Efl.Eina.Rbtree.Remove

namespace Eina.Rbtree

open RedBlack

variable {α : Type}

/-- The nodes of `t` are in memory, with `p` pointing to the root. -/
def Rep (h : α → Node α) : Tree α → Option α → Prop
  | .nil, p => p = none
  | .node c l a r, p =>
    p = some a ∧ (h a).color = c ∧ Rep h l ((h a).son .left) ∧ Rep h r ((h a).son .right)

/-- The link at the end of a path that starts at the link `base`. -/
def linkFrom : List (Frame α) → Link α → Link α
  | [], base => base
  | f :: _, _ => .son f.node f.dir

/-- The stack of the C code along a path that starts at the link `base`. -/
def stackFrom : List (Frame α) → Link α → List (Link α × Direction)
  | [], _ => []
  | f :: path, base => (linkFrom path base, f.dir) :: stackFrom path base

theorem linkFrom_cons (f : Frame α) (path : List (Frame α)) (base : Link α) :
    linkFrom (f :: path) base = .son f.node f.dir := rfl

theorem linkFrom_append (p q : List (Frame α)) (base : Link α) :
    linkFrom (p ++ q) base = linkFrom p (linkFrom q base) := by
  cases p <;> rfl

theorem stackFrom_append (p q : List (Frame α)) (base : Link α) :
    stackFrom (p ++ q) base = stackFrom p (linkFrom q base) ++ stackFrom q base := by
  induction p with
  | nil => rfl
  | cons f p ih => simp [stackFrom, ih, linkFrom_append]

variable {t : Tree α} {p : Option α}

theorem Rep.congr {h h' : α → Node α} (hr : Rep h t p) (heq : ∀ a ∈ t.toList, h' a = h a) :
    Rep h' t p := by
  induction t generalizing p with
  | nil => exact hr
  | node c l a r ihl ihr =>
    obtain ⟨hp, hc, hl, hr⟩ := hr
    have ha : h' a = h a := heq a (by simp)
    refine ⟨hp, by rw [ha]; exact hc, ?_, ?_⟩
    · rw [ha]
      exact ihl hl (fun b hb => heq b (by simp [hb]))
    · rw [ha]
      exact ihr hr (fun b hb => heq b (by simp [hb]))

variable {m : Mem α} {n : α}

theorem Rep.son (h : Rep m.node t (some n)) (d : Direction) : Rep m.node (t.son d) (m.son n d) := by
  cases t with
  | nil => simp [Rep] at h
  | node c l a r =>
    obtain ⟨hn, -, hl, hr⟩ := h
    obtain rfl : n = a := by simpa using hn
    cases d with
    | left => exact hl
    | right => exact hr

theorem Rep.isRed (h : Rep m.node t p) :
    m.isRed p = true ↔ t.color = .red := by
  cases t with
  | nil =>
    obtain rfl : p = none := h
    simp [Mem.isRed]
  | node c l a r =>
    obtain ⟨rfl, hc, -⟩ := h
    simp [Mem.isRed, Mem.color, hc]

/-! ### Opened trees -/

def RepPath (m : Mem α) : List (Frame α) → Prop
  | [] => True
  | f :: path =>
    m.get (linkFrom path .root) = some f.node ∧ m.color f.node = f.color ∧
      Rep m.node f.other (m.son f.node f.dir.flip) ∧ RepPath m path

/-- Memory holds the frames of `path` and, at the link they lead to, the subtree `t`. -/
structure Opened (m : Mem α) (path : List (Frame α)) (t : Tree α) : Prop where
  frames : RepPath m path
  hole : Rep m.node t (m.get (linkFrom path .root))
  nodup : (plug path t).toList.Nodup

variable {f : Frame α}

theorem rep_fill :
    Rep m.node (f.fill t) p ↔
      p = some f.node ∧ m.color f.node = f.color ∧
        Rep m.node f.other (m.son f.node f.dir.flip) ∧ Rep m.node t (m.son f.node f.dir) := by
  obtain ⟨c, a, d, s⟩ := f
  cases d with
  | left =>
    simp only [Frame.fill, Tree.mk, Rep]
    tauto
  | right =>
    simp only [Frame.fill, Tree.mk, Rep, Mem.color, Mem.son, Direction.flip]

variable {path : List (Frame α)} {a : α}

theorem opened_cons :
    Opened m (f :: path) t ↔ Opened m path (f.fill t) := by
  constructor
  · rintro ⟨⟨hget, hc, ho, hp⟩, ht, hnd⟩
    exact ⟨hp, rep_fill.mpr ⟨hget, hc, ho, ht⟩, hnd⟩
  · rintro ⟨hp, hfill, hnd⟩
    obtain ⟨hget, hc, ho, ht⟩ := rep_fill.mp hfill
    exact ⟨⟨hget, hc, ho, hp⟩, ht, hnd⟩

theorem opened_append {p : List (Frame α)} :
    Opened m (p ++ path) t ↔ Opened m path (plug p t) := by
  induction p generalizing t with
  | nil => rfl
  | cons f p ih => rw [List.cons_append, opened_cons, ih, plug]

theorem opened_nil :
    Opened m [] t ↔ Rep m.node t m.root ∧ t.toList.Nodup :=
  ⟨fun h => ⟨h.hole, h.nodup⟩, fun h => ⟨trivial, h.1, h.2⟩⟩

theorem opened_of_plug {p : List (Frame α)} {u : Tree α} (h : Rep m.node t m.root)
    (hnd : t.toList.Nodup) (hplug : plug p u = t) : Opened m p u := by
  have hp : Opened m (p ++ []) u := by
    rw [opened_append, hplug]
    exact opened_nil.mpr ⟨h, hnd⟩
  simpa using hp

theorem Opened.closed (h : Opened m path t) :
    Rep m.node (plug path t) m.root := by
  have h' : Opened m (path ++ []) t := by simpa using h
  exact (opened_append.mp h').hole

theorem Opened.disjoint (h : Opened m path t) :
    t.toList.Nodup ∧ ∀ a ∈ before path ++ after path, a ∉ t.toList := by
  have hnd := h.nodup
  rw [toList_plug] at hnd
  rw [List.append_assoc, List.nodup_append] at hnd
  obtain ⟨-, hnd2, hdis⟩ := hnd
  rw [List.nodup_append] at hnd2
  obtain ⟨ht, -, hdis2⟩ := hnd2
  refine ⟨ht, ?_⟩
  intro a ha hat
  rcases List.mem_append.mp ha with hb | hc
  · exact hdis a hb a (List.mem_append.mpr (.inl hat)) rfl
  · exact hdis2 a hat a hc rfl

theorem mem_before_or_after (f : Frame α) (path : List (Frame α))
    (h : a = f.node ∨ a ∈ f.other.toList) : a ∈ before (f :: path) ++ after (f :: path) := by
  obtain ⟨c, n, d, s⟩ := f
  cases d <;> simp only [before, after, Frame.before, Frame.after, List.mem_append,
    List.mem_cons] <;> tauto

theorem mem_tail_before_or_after (f : Frame α) (path : List (Frame α))
    (h : a ∈ before path ++ after path) : a ∈ before (f :: path) ++ after (f :: path) := by
  simp only [before, after, List.mem_append] at h ⊢
  tauto

variable {m' : Mem α} {t' : Tree α}

theorem repPath_congr (h : RepPath m path) (hroot : m'.root = m.root)
    (hnode : ∀ a ∈ before path ++ after path, m'.node a = m.node a) : RepPath m' path := by
  induction path with
  | nil => trivial
  | cons f path ih =>
    obtain ⟨hget, hc, ho, hp⟩ := h
    have hf : m'.node f.node = m.node f.node :=
      hnode _ (mem_before_or_after f path (.inl rfl))
    have htail : ∀ a ∈ before path ++ after path, m'.node a = m.node a :=
      fun a ha => hnode a (mem_tail_before_or_after f path ha)
    refine ⟨?_, ?_, ?_, ih hp htail⟩
    · cases path with
      | nil =>
        show m'.root = some f.node
        rw [hroot]
        exact hget
      | cons g rest =>
        show (m'.node g.node).son g.dir = some f.node
        rw [htail _ (mem_before_or_after g rest (.inl rfl))]
        exact hget
    · rw [Mem.color, hf]
      exact hc
    · rw [Mem.son, hf]
      exact ho.congr (fun a ha => hnode a (mem_before_or_after f path (.inr ha)))

theorem Opened.update (h : Opened m path t) (hroot : m'.root = m.root)
    (hnode : ∀ a ∈ before path ++ after path, m'.node a = m.node a)
    (hrep : Rep m'.node t' (m.get (linkFrom path .root))) (hnd : (plug path t').toList.Nodup) :
    Opened m' path t' := by
  refine ⟨repPath_congr h.frames hroot hnode, ?_, hnd⟩
  cases path with
  | nil =>
    show Rep m'.node t' m'.root
    rw [hroot]
    exact hrep
  | cons f path =>
    show Rep m'.node t' ((m'.node f.node).son f.dir)
    rw [hnode _ (mem_before_or_after f path (.inl rfl))]
    exact hrep

variable [DecidableEq α]

/-- The subtree at the end of a path is replaced. -/
theorem Opened.replace {p' : Option α} (h : Opened m path t)
    (hroot : m'.root = m.root) (hnode : ∀ a ∈ before path ++ after path, m'.node a = m.node a)
    (hrep : Rep m'.node t' p') (hnd : (plug path t').toList.Nodup) :
    Opened (m'.set (linkFrom path .root) p') path t' := by
  cases path with
  | nil => exact ⟨trivial, hrep, hnd⟩
  | cons f path =>
    obtain ⟨hget, hc, ho, hp⟩ := h.frames
    have hf : m'.node f.node = m.node f.node :=
      hnode _ (mem_before_or_after f path (Or.inl rfl))
    -- the link lives in the node of the top frame, which occurs nowhere else
    have hdis : f.node ∉ t'.toList ∧ f.node ∉ f.other.toList ∧
        f.node ∉ before path ++ after path := by
      have hnd' := hnd
      rw [plug, toList_plug, Frame.toList_fill] at hnd'
      obtain ⟨c, n, d, s⟩ := f
      cases d <;> simp only [Frame.before, Frame.after, List.nodup_append, List.nil_append,
        List.append_nil] at hnd' ⊢ <;> grind
    have hsame : ∀ a ≠ f.node,
        (m'.set (.son f.node f.dir) p').node a = m'.node a := by
      intro a ha
      simp [Mem.set, Mem.setSon, Mem.setNode, Function.update_of_ne ha]
    have htop : (m'.set (.son f.node f.dir) p').node f.node =
        { m'.node f.node with son := Function.update (m'.node f.node).son f.dir p' } := by
      simp [Mem.set, Mem.setSon, Mem.setNode]
    have htail : ∀ a ∈ before path ++ after path,
        (m'.set (.son f.node f.dir) p').node a = m.node a := by
      intro a ha
      rw [hsame a (fun hc => hdis.2.2 (hc ▸ ha))]
      exact hnode a (mem_tail_before_or_after f path ha)
    have hroot' : (m'.set (.son f.node f.dir) p').root = m.root := hroot
    show Opened (m'.set (.son f.node f.dir) p') (f :: path) t'
    refine ⟨⟨?_, ?_, ?_, repPath_congr hp hroot' htail⟩, ?_, hnd⟩
    · cases path with
      | nil => exact hroot'.trans hget
      | cons g rest =>
        show ((m'.set (.son f.node f.dir) p').node g.node).son g.dir = some f.node
        rw [htail _ (mem_before_or_after g rest (.inl rfl))]
        exact hget
    · rw [Mem.color, htop]
      exact (congrArg Node.color hf).trans hc
    · rw [Mem.son, htop]
      show Rep _ f.other (Function.update (m'.node f.node).son f.dir p' f.dir.flip)
      rw [Function.update_of_ne (Direction.flip_ne _), hf]
      refine ho.congr (fun a ha => ?_)
      rw [hsame a (fun hc => hdis.2.1 (hc ▸ ha))]
      exact hnode a (mem_before_or_after f path (.inr ha))
    · show Rep _ t' (((m'.set (.son f.node f.dir) p').node f.node).son f.dir)
      rw [htop]
      show Rep _ t' (Function.update (m'.node f.node).son f.dir p' f.dir)
      rw [Function.update_self]
      exact hrep.congr (fun a ha => hsame a (fun hc => hdis.1 (hc ▸ ha)))

/-! ### Rotations -/

variable {d : Direction}

theorem singleRotation_eq {s : α} (hs : m.son n d.flip = some s) (hne : n ≠ s) :
    m.singleRotation n d = some
      ((m.setNode n ⟨Function.update (m.node n).son d.flip (m.son s d), .red⟩).setNode s
        ⟨Function.update (m.node s).son d (some n), .black⟩, s) := by
  have hne' : s ≠ n := fun h => hne h.symm
  rw [Mem.singleRotation, hs]
  simp only [Mem.setSon, Mem.setColor, Mem.setNode, Option.bind_eq_bind, Option.bind_some,
    Option.pure_def, Option.some.injEq, Prod.mk.injEq, and_true, Mem.mk.injEq, true_and]
  funext a
  by_cases has : a = s
  · subst has
    simp [hne']
  by_cases han : a = n
  · subst han
    simp [has]
  · simp [has, han]

/-- What a rotation of the subtree `t` at `n` leaves in memory, with `t'` at `top`. -/
structure Rotated (m m' : Mem α) (t t' : Tree α) (top : α) : Prop where
  root : m'.root = m.root
  frame : ∀ a ∉ t.toList, m'.node a = m.node a
  rep : Rep m'.node t' (some top)

/-- The memory follows a single rotation. -/
theorem singleRotation_rep (ht : Rep m.node t (some n)) (hnd : t.toList.Nodup)
    (hs : t.son d.flip ≠ .nil) :
    ∃ m' top, m.singleRotation n d = some (m', top) ∧
      Rotated m m' t (singleRotation t d) top := by
  match d, t, ht, hnd, hs with
  | .left, .node c l a (.node c2 rl b rr), ht, hnd, _ =>
    obtain ⟨hn, -, hl, hb, -, hrl, hrr⟩ := ht
    obtain rfl : n = a := by simpa using hn
    simp only [Tree.toList_node, List.nodup_append, List.nodup_cons, List.mem_append,
      List.mem_cons, not_or] at hnd
    have hnb : n ≠ b := hnd.2.1.1.2.1
    have hson : m.son n Direction.left.flip = some b := hb
    refine ⟨_, b, singleRotation_eq hson hnb, rfl, ?_, ?_⟩
    · intro x hx
      simp only [Tree.toList_node, List.mem_append, List.mem_cons, not_or] at hx
      simp [Mem.setNode, hx.2.1, hx.2.2.2.1]
    · have hl' : ∀ x ∈ l.toList, x ≠ n ∧ x ≠ b := by grind
      have hrl' : ∀ x ∈ rl.toList, x ≠ n ∧ x ≠ b := by grind
      have hrr' : ∀ x ∈ rr.toList, x ≠ n ∧ x ≠ b := by grind
      simp only [Mem.setNode]
      refine ⟨rfl, by simp, ⟨by simp, by simp [hnb], ?_, ?_⟩, ?_⟩
      · simp only [Function.update_of_ne hnb, Function.update_self]
        exact hl.congr (fun x hx => by simp [hl' x hx])
      · simp only [Function.update_of_ne hnb, Function.update_self]
        exact hrl.congr (fun x hx => by simp [hrl' x hx])
      · simp only [Function.update_self]
        exact hrr.congr (fun x hx => by simp [hrr' x hx])
  | .right, .node c (.node c2 ll b lr) a r, ht, hnd, _ =>
    obtain ⟨hn, -, ⟨hb, -, hll, hlr⟩, hr⟩ := ht
    obtain rfl : n = a := by simpa using hn
    simp only [Tree.toList_node, List.nodup_append,
      List.mem_cons] at hnd
    have hnb : n ≠ b := by grind
    have hson : m.son n Direction.right.flip = some b := hb
    refine ⟨_, b, singleRotation_eq hson hnb, rfl, ?_, ?_⟩
    · intro x hx
      simp only [Tree.toList_node, List.mem_append, List.mem_cons, not_or] at hx
      simp [Mem.setNode, hx.2.1, hx.1.2.1]
    · have hll' : ∀ x ∈ ll.toList, x ≠ n ∧ x ≠ b := by grind
      have hlr' : ∀ x ∈ lr.toList, x ≠ n ∧ x ≠ b := by grind
      have hr' : ∀ x ∈ r.toList, x ≠ n ∧ x ≠ b := by grind
      simp only [Mem.setNode]
      refine ⟨rfl, by simp, ?_, by simp, by simp [hnb], ?_, ?_⟩
      · simp only [Function.update_self]
        exact hll.congr (fun x hx => by simp [hll' x hx])
      · simp only [Function.update_of_ne hnb, Function.update_self]
        exact hlr.congr (fun x hx => by simp [hlr' x hx])
      · simp only [Function.update_of_ne hnb, Function.update_self]
        exact hr.congr (fun x hx => by simp [hr' x hx])

omit [DecidableEq α] in
theorem exists_fill (h : t ≠ .nil) (d : Direction) :
    ∃ f : Frame α, f.dir = d ∧ t = f.fill (t.son d) := by
  cases t with
  | nil => exact absurd rfl h
  | node c l a r =>
    cases d with
    | left => exact ⟨⟨c, a, .left, r⟩, rfl, rfl⟩
    | right => exact ⟨⟨c, a, .right, l⟩, rfl, rfl⟩

omit [DecidableEq α] in
theorem son_fill (f : Frame α) (t : Tree α) : (f.fill t).son f.dir = t := by
  obtain ⟨c, a, d, s⟩ := f
  cases d <;> rfl

omit [DecidableEq α] in
theorem nodup_fill (h : (f.fill t).toList.Nodup) :
    t.toList.Nodup ∧ f.node ∉ t.toList ∧ f.node ∉ f.other.toList ∧
      ∀ a ∈ f.other.toList, a ∉ t.toList := by
  obtain ⟨c, n, d, s⟩ := f
  cases d <;> simp only [Frame.fill, Tree.mk, Tree.toList_node] at h <;> grind

theorem rep_setSon {m1 : Mem α} {s s' : Tree α} {v : Option α}
    (h : Rep m.node (f.fill s) (some f.node)) (hnd : (f.fill s).toList.Nodup)
    (hframe : ∀ a ∉ s.toList, m1.node a = m.node a) (hv : Rep m1.node s' v)
    (hn : f.node ∉ s'.toList) :
    Rep (m1.setSon f.node f.dir v).node (f.fill s') (some f.node) := by
  obtain ⟨-, hns, hno, hdis⟩ := nodup_fill hnd
  obtain ⟨-, hc, ho, -⟩ := rep_fill.mp h
  have hn1 : m1.node f.node = m.node f.node := hframe _ hns
  have hupd : ∀ x ≠ f.node, (m1.setSon f.node f.dir v).node x = m1.node x := by
    intro x hx
    simp [Mem.setSon, Mem.setNode, hx]
  have hself : (m1.setSon f.node f.dir v).node f.node =
      { m1.node f.node with son := Function.update (m1.node f.node).son f.dir v } := by
    simp [Mem.setSon, Mem.setNode]
  refine rep_fill.mpr ⟨rfl, ?_, ?_, ?_⟩
  · rw [Mem.color, hself]
    exact (congrArg Node.color hn1).trans hc
  · rw [Mem.son, hself]
    show Rep _ f.other (Function.update (m1.node f.node).son f.dir v f.dir.flip)
    rw [Function.update_of_ne (Direction.flip_ne _), hn1]
    refine ho.congr (fun x hx => ?_)
    rw [hupd x (fun hxn => hno (hxn ▸ hx))]
    exact hframe x (hdis x hx)
  · rw [Mem.son, hself]
    show Rep _ s' (Function.update (m1.node f.node).son f.dir v f.dir)
    rw [Function.update_self]
    exact hv.congr (fun x hx => hupd x (fun hxn => hn (hxn ▸ hx)))

omit [DecidableEq α] in
theorem singleRotation_ne_nil (d : Direction) (h : t ≠ .nil) :
    singleRotation t d ≠ .nil := by
  unfold singleRotation
  split <;> simp_all

omit [DecidableEq α] in
theorem doubleRotation_fill (f : Frame α) (s : Tree α) :
    doubleRotation (f.fill s) f.dir.flip = singleRotation
      (f.fill (singleRotation s f.dir)) f.dir.flip := by
  obtain ⟨c, a, d, o⟩ := f
  cases d <;> rfl

/-- The memory follows a double rotation. -/
theorem doubleRotation_rep (ht : Rep m.node t (some n)) (hnd : t.toList.Nodup)
    (hs : (t.son d.flip).son d ≠ .nil) :
    ∃ m' top, m.doubleRotation n d = some (m', top) ∧
      Rotated m m' t (doubleRotation t d) top := by
  have hne : t.son d.flip ≠ .nil := by
    intro hc
    rw [hc] at hs
    exact hs rfl
  have htne : t ≠ .nil := by
    rintro rfl
    exact hne rfl
  obtain ⟨f, hfd, hfill⟩ := exists_fill htne d.flip
  set s := t.son d.flip with hsdef
  obtain rfl : d = f.dir.flip := by rw [hfd, Direction.flip_flip]
  rw [hfill] at ht hnd ⊢
  obtain ⟨hn, -, -, hinner⟩ := rep_fill.mp ht
  obtain rfl : n = f.node := by simpa using hn
  obtain ⟨hnds, hnf, -, -⟩ := nodup_fill hnd
  -- the inner rotation, one level down
  obtain ⟨b, hb⟩ : ∃ b, m.son f.node f.dir = some b := by
    cases hc : s with
    | nil => exact absurd hc hne
    | node c l b r =>
      rw [hc] at hinner
      exact ⟨b, hinner.1⟩
  rw [hb] at hinner
  obtain ⟨m1, save, hrun1, hrot1⟩ := singleRotation_rep hinner hnds hs
  -- the outer node takes the rotated son and is rotated itself
  have hrep1 := rep_setSon ht hnd hrot1.frame hrot1.rep (by simpa using hnf)
  have hlist : (f.fill (singleRotation s f.dir)).toList = (f.fill s).toList := by
    simp [Frame.toList_fill]
  obtain ⟨m2, top, hrun2, hrot2⟩ := singleRotation_rep hrep1
    (by rw [hlist]; exact hnd)
    (by rw [Direction.flip_flip, son_fill]; exact singleRotation_ne_nil _ hne)
  refine ⟨m2, top, ?_, hrot2.root.trans hrot1.root, ?_, ?_⟩
  · rw [Mem.doubleRotation]
    simp only [Direction.flip_flip, hb, hrun1, Option.bind_eq_bind, Option.bind_some]
    exact hrun2
  · intro x hx
    rw [hrot2.frame x (by rw [hlist]; exact hx)]
    rw [Frame.toList_fill] at hx
    simp only [List.mem_append, not_or] at hx
    have hxn : x ≠ f.node := by
      rintro rfl
      cases hd : f.dir <;> simp [Frame.before, Frame.after, hd] at hx
    simp only [Mem.setSon, Mem.setNode, Function.update_of_ne hxn]
    exact hrot1.frame x hx.1.2
  · rw [doubleRotation_fill]
    exact hrot2.rep

end Eina.Rbtree
