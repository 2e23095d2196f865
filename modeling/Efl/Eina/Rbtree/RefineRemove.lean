/-
`eina_rbtree_inline_remove` over memory computes the removal on trees.

The one delicate place is the node with two sons.  The successor takes over the memory of the
removed node, so the oldest of the links that were pushed below it, the address of the right son of
the removed node, is patched to that of the successor (`patchOldest_stackFrom`).
-/
import Efl.Eina.Rbtree.RefineInsert

namespace Eina.Rbtree

open RedBlack List

variable {α : Type} [DecidableEq α]

/-! ### The search -/

/-- The entries the search loop of a removal pushes. -/
def searchDepth (cmp : α → α → Direction) (x : α) : Tree α → Nat
  | .nil => 0
  | .node _ l r q =>
    if r = x then 0
    else
      match cmp r x with
      | .left => searchDepth cmp x l + 1
      | .right => searchDepth cmp x q + 1

/-- The entries pushed once the node is found, for the subtree at that node. -/
def foundDepth : Tree α → Nat
  | .node _ (.node _ _ _ _) _ (.node rc rl ra rr) => (leftmost rc rl ra rr []).path.length + 1
  | _ => 0

/-- The entries `eina_rbtree_inline_remove` pushes on its stack. -/
def removeDepth (cmp : α → α → Direction) (x : α) (t : Tree α) : Nat :=
  match removePath cmp x t [] with
  | none => searchDepth cmp x t
  | some (_, u) => searchDepth cmp x t + foundDepth u

variable {x : α} {t : Tree α}

theorem length_removePath {cmp : α → α → Direction} :
    ∀ {path p : List (Frame α)} {u : Tree α}, removePath cmp x t path = some (p, u) →
      p.length = path.length + searchDepth cmp x t := by
  induction t with
  | nil =>
    intro path p u h
    simp [removePath] at h
  | node c l r q ihl ihq =>
    intro path p u h
    rw [removePath] at h
    rw [searchDepth]
    by_cases hrx : r = x
    · rw [if_pos hrx] at h ⊢
      simp only [Option.some.injEq, Prod.mk.injEq] at h
      rw [← h.1, Nat.add_zero]
    rw [if_neg hrx] at h ⊢
    cases hd : cmp r x with
    | left =>
      rw [hd] at h
      have hlen := ihl h
      rw [length_cons] at hlen
      simp only
      omega
    | right =>
      rw [hd] at h
      have hlen := ihq h
      rw [length_cons] at hlen
      simp only
      omega

variable {m : Mem α} {p : List (Frame α)} (cmp : α → α → Direction)

theorem removeSearch_rep (x : α) (t : Tree α) :
    ∀ {path : List (Frame α)} (room : Nat), Opened m path t →
      m.removeSearch cmp x room (linkFrom path .root) (stackFrom path .root) =
        if searchDepth cmp x t ≤ room then
          some ((removePath cmp x t path).map fun p =>
            (linkFrom p.1 .root, stackFrom p.1 .root))
        else none := by
  induction t with
  | nil =>
    intro path room h
    have hget : m.get (linkFrom path .root) = none := h.hole
    rw [if_pos (show searchDepth cmp x .nil ≤ room from Nat.zero_le _)]
    cases room with
    | zero => rw [Mem.removeSearch, hget, removePath, Option.map_none]
    | succ room => rw [Mem.removeSearch, hget, removePath, Option.map_none]
  | node c l r q ihl ihq =>
    intro path room h
    have hget : m.get (linkFrom path .root) = some r := h.hole.1
    by_cases hrx : r = x
    · have hdepth : searchDepth cmp x (.node c l r q) ≤ room := by
        rw [searchDepth, if_pos hrx]
        exact Nat.zero_le _
      rw [if_pos hdepth]
      cases room with
      | zero => simp only [Mem.removeSearch, hget, removePath, if_pos hrx, Option.map_some]
      | succ room =>
        simp only [Mem.removeSearch, hget, removePath, if_pos hrx, Option.map_some]
    · rw [searchDepth, if_neg hrx]
      cases room with
      | zero =>
        rw [if_neg (by split <;> omega)]
        simp only [Mem.removeSearch, hget, if_neg hrx]
      | succ room =>
        simp only [Mem.removeSearch, hget, removePath, if_neg hrx]
        cases hd : cmp r x with
        | left =>
          have hopen : Opened m (⟨c, r, .left, q⟩ :: path) l := opened_cons.mpr h
          simp only [Nat.add_le_add_iff_right]
          exact ihl room hopen
        | right =>
          have hopen : Opened m (⟨c, r, .right, l⟩ :: path) q := opened_cons.mpr h
          simp only [Nat.add_le_add_iff_right]
          exact ihq room hopen

theorem removeSearch_root (x : α) (room : Nat) (h : Rep m.node t m.root)
    (hnd : t.toList.Nodup) :
    m.removeSearch cmp x room .root [] =
      if searchDepth cmp x t ≤ room then
        some ((removePath cmp x t []).map fun p => (linkFrom p.1 .root, stackFrom p.1 .root))
      else none :=
  removeSearch_rep cmp x t room (opened_nil.mpr ⟨h, hnd⟩)

/-! ### The successor -/

omit [DecidableEq α] in
theorem length_le_leftmost (l : Tree α) : ∀ (c : Color) (q : α) (r : Tree α)
    (path : List (Frame α)), path.length ≤ (leftmost c l q r path).path.length := by
  induction l with
  | nil =>
    intro c q r path
    exact le_refl _
  | node lc ll la lr ihl _ =>
    intro c q r path
    have h := ihl lc la lr (⟨c, q, .left, r⟩ :: path)
    rw [length_cons] at h
    rw [leftmost]
    omega

omit [DecidableEq α] in
theorem dir_leftmost (l : Tree α) : ∀ (c : Color) (q : α) (r : Tree α) (path : List (Frame α)),
    (∀ f ∈ path, f.dir = .left) → ∀ f ∈ (leftmost c l q r path).path, f.dir = .left := by
  induction l with
  | nil =>
    intro c q r path h
    exact h
  | node lc ll la lr ihl _ =>
    intro c q r path h
    rw [leftmost]
    refine ihl lc la lr _ ?_
    intro f hf
    rcases mem_cons.mp hf with rfl | hf
    · rfl
    · exact h f hf

omit [DecidableEq α] in
theorem patchOldest_stackFrom (hp : ∀ f ∈ p, f.dir = .left)
    (b b' : Link α) : Mem.patchOldest (b', .left) (stackFrom p b) = stackFrom p b' := by
  induction p with
  | nil => rfl
  | cons f p ih =>
    have hf : f.dir = .left := hp f (by simp)
    have ihp := ih (fun g hg => hp g (by simp [hg]))
    cases p with
    | nil => simp [stackFrom, Mem.patchOldest, linkFrom, hf]
    | cons g p =>
      simp only [stackFrom, Mem.patchOldest, linkFrom] at ihp ⊢
      rw [dropLast_cons_cons, cons_append, ihp]

omit [DecidableEq α] in
theorem leftmostSearch_rep (base : List (Frame α)) (l : Tree α) :
    ∀ {c : Color} {q : α} {r : Tree α} {p : List (Frame α)} (room : Nat),
      Opened m (p ++ base) (.node c l q r) →
      m.leftmostSearch room (linkFrom p (linkFrom base .root))
          (stackFrom p (linkFrom base .root)) =
        if (leftmost c l q r p).path.length ≤ p.length + room then
          some (linkFrom (leftmost c l q r p).path (linkFrom base .root),
            stackFrom (leftmost c l q r p).path (linkFrom base .root))
        else none := by
  induction l with
  | nil =>
    intro c q r p room h
    have hget : m.get (linkFrom p (linkFrom base .root)) = some q := by
      rw [← linkFrom_append]
      exact h.hole.1
    have hson : m.son q .left = none := h.hole.2.2.1
    rw [leftmost]
    cases room with
    | zero => simp [Mem.leftmostSearch, hget, hson]
    | succ room => simp [Mem.leftmostSearch, hget, hson]
  | node lc ll la lr ihl _ =>
    intro c q r p room h
    have hget : m.get (linkFrom p (linkFrom base .root)) = some q := by
      rw [← linkFrom_append]
      exact h.hole.1
    have hson : m.son q .left = some la := h.hole.2.2.1.1
    have hlen := length_le_leftmost ll lc la lr (⟨c, q, .left, r⟩ :: p)
    rw [length_cons] at hlen
    rw [leftmost]
    cases room with
    | zero =>
      rw [if_neg (by omega)]
      simp [Mem.leftmostSearch, hget, hson]
    | succ room =>
      have hopen : Opened m ((⟨c, q, .left, r⟩ :: p) ++ base) (.node lc ll la lr) :=
        opened_cons.mpr h
      have hrun := ihl room hopen
      rw [length_cons, Nat.add_right_comm] at hrun
      simp only [Mem.leftmostSearch, hget, hson, Option.bind_eq_bind, Option.bind_some]
      exact hrun

variable {path : List (Frame α)} {c : Color} {l0 : Tree α} {rl rr : Tree α} {f : Frame α}
  {rc : Color} {ra : α}

omit [DecidableEq α] in
theorem leftmostSearch_below
    (h : Opened m path (.node c l0 x (.node rc rl ra rr))) (room : Nat) :
    m.leftmostSearch room (.son x .right) [] =
      if (leftmost rc rl ra rr []).path.length ≤ room then
        some (linkFrom (leftmost rc rl ra rr []).path (.son x .right),
          stackFrom (leftmost rc rl ra rr []).path (.son x .right))
      else none := by
  have hbase : Opened m ([] ++ ⟨c, x, .right, l0⟩ :: path) (.node rc rl ra rr) :=
    opened_cons.mpr h
  have hrun := leftmostSearch_rep (⟨c, x, .right, l0⟩ :: path) rl room hbase
  rw [length_nil, Nat.zero_add] at hrun
  exact hrun

/-! ### The rebalancing loop -/

theorem finish_rep (c : Color) (h : Opened m path t) (hl : t.son .left ≠ .nil)
    (hr : t.son .right ≠ .nil) :
    ∃ m', Mem.removeStep.finish m (linkFrom path .root) c = some (m', false) ∧
      Opened m' path (recolor c t) := by
  match t, hl, hr with
  | .node c0 (.node lc ll la lr) a (.node rc rl ra rr), _, _ =>
    have hget : m.get (linkFrom path .root) = some a := h.hole.1
    have h1 : Opened (m.setColor a c) path
        (.node c (.node lc ll la lr) a (.node rc rl ra rr)) := h.setColor c hget
    have hleft : (m.setColor a c).son a .left = some la := h1.hole.2.2.1.1
    have hright : (m.setColor a c).son a .right = some ra := h1.hole.2.2.2.1
    have h1' : Opened (m.setColor a c) (⟨c, a, .left, .node rc rl ra rr⟩ :: path)
        (.node lc ll la lr) := opened_cons.mpr h1
    have h2 : Opened ((m.setColor a c).setColor la .black)
        (⟨c, a, .left, .node rc rl ra rr⟩ :: path) (.node .black ll la lr) :=
      h1'.setColor .black hleft
    have hright2 : ((m.setColor a c).setColor la .black).get (.son a .right) = some ra := by
      rw [get_setColor]
      exact hright
    have h3 := h2.setColor_other .black hright2
    refine ⟨((m.setColor a c).setColor la .black).setColor ra .black, ?_, opened_cons.mp h3⟩
    rw [Mem.removeStep.finish, hget]
    simp only [Option.bind_eq_bind, Option.bind_some, hleft, hright]
    rfl

omit [DecidableEq α] in
theorem son_fill_flip (f : Frame α) (t : Tree α) : (f.fill t).son f.dir.flip = f.other := by
  obtain ⟨c, a, d, s⟩ := f
  cases d <;> rfl

omit [DecidableEq α] in
theorem ne_nil_of_red (h : t.color = .red) : t ≠ .nil := by
  rintro rfl
  exact Color.noConfusion h

omit [DecidableEq α] in
theorem sons_singleRotation (h : (f.other.son f.dir.flip).color = .red)
    (d : Direction) :
    (singleRotation (f.fill t) f.dir).son d ≠ .nil := by
  obtain ⟨c, a, e, s⟩ := f
  cases s with
  | nil => exact absurd h (by cases e <;> simp [Tree.son])
  | node c2 sl b sr =>
    have hne := ne_nil_of_red h
    cases e with
    | left =>
      cases d with
      | left => simp [Frame.fill, Tree.mk, singleRotation, Tree.son]
      | right => exact hne
    | right =>
      cases d with
      | left => exact hne
      | right => simp [Frame.fill, Tree.mk, singleRotation, Tree.son]

omit [DecidableEq α] in
theorem sons_doubleRotation (h : (f.other.son f.dir).color = .red) (d : Direction) :
    (doubleRotation (f.fill t) f.dir).son d ≠ .nil := by
  obtain ⟨c, a, e, s⟩ := f
  cases s with
  | nil => exact absurd h (by cases e <;> simp [Tree.son])
  | node c2 sl b sr =>
    obtain ⟨il, i, ir, hi⟩ := Tree.color_eq_red h
    cases e with
    | left =>
      obtain rfl : sl = .node .red il i ir := hi
      cases d <;> simp [Frame.fill, Tree.mk, doubleRotation, singleRotation, Tree.son]
    | right =>
      obtain rfl : sr = .node .red il i ir := hi
      cases d <;> simp [Frame.fill, Tree.mk, doubleRotation, singleRotation, Tree.son]

/-- **One turn of the loop, below a sibling that is not red.** -/
theorem removeStep_rep {r : Frame α} (h : Opened m (r :: path) t) :
    ∃ m', m.removeStep (linkFrom path .root) r.node r.dir = some (m', (removeFix r t).2) ∧
      Opened m' path (removeFix r t).1 := by
  have hopen : Opened m path (r.fill t) := opened_cons.mp h
  have hget : m.get (linkFrom path .root) = some r.node := h.frames.1
  have hcolor : m.color r.node = r.color := h.frames.2.1
  have hother : Rep m.node r.other (m.son r.node r.dir.flip) := h.frames.2.2.1
  have hfill : Rep m.node (r.fill t) (some r.node) := hget ▸ hopen.hole
  have hnd := hopen.disjoint.1
  rw [Mem.removeStep, removeFix]
  cases ho : r.other with
  | nil =>
    rw [ho] at hother
    have hnone : m.son r.node r.dir.flip = none := hother
    rw [hnone]
    exact ⟨m, rfl, hopen⟩
  | node qc ql q qr =>
    have hne : r.other ≠ .nil := by rw [ho]; simp
    have hq : m.son r.node r.dir.flip = some q := by
      rw [ho] at hother
      exact hother.1
    have hsons : ∀ d, (RedBlack.Tree.node .black ql q qr).son d = r.other.son d := by
      intro d
      rw [ho]
      cases d <;> rfl
    rw [hq] at hother ⊢
    simp only [hsons, hcolor]
    by_cases hnd_red : (r.other.son r.dir.flip).color = .red
    · rw [if_pos ((hother.son r.dir.flip).isRed.mpr hnd_red), if_pos hnd_red]
      obtain ⟨m1, top, hrun, hrot⟩ := singleRotation_rep hfill hnd
        (by rw [son_fill_flip]; exact hne)
      obtain ⟨m2, hfin, hopen2⟩ := finish_rep r.color (hopen.rotated hrot (by simp))
        (sons_singleRotation hnd_red .left) (sons_singleRotation hnd_red .right)
      refine ⟨m2, ?_, hopen2⟩
      simp only [hget, hrun, Option.bind_eq_bind, Option.bind_some]
      exact hfin
    · rw [if_neg (fun hr => hnd_red ((hother.son r.dir.flip).isRed.mp hr)), if_neg hnd_red]
      by_cases hd_red : (r.other.son r.dir).color = .red
      · rw [if_pos ((hother.son r.dir).isRed.mpr hd_red), if_pos hd_red]
        obtain ⟨m1, top, hrun, hrot⟩ := doubleRotation_rep hfill hnd
          (by rw [son_fill_flip]; exact ne_nil_of_red hd_red)
        obtain ⟨m2, hfin, hopen2⟩ := finish_rep r.color (hopen.rotated hrot (by simp))
          (sons_doubleRotation hd_red .left) (sons_doubleRotation hd_red .right)
        refine ⟨m2, ?_, hopen2⟩
        simp only [hget, hrun, Option.bind_eq_bind, Option.bind_some]
        exact hfin
      · rw [if_neg (fun hr => hd_red ((hother.son r.dir).isRed.mp hr)), if_neg hd_red]
        have h1 := h.setColor_frame .black
        have hq1 : (m.setColor r.node .black).get (.son r.node r.dir.flip) = some q := by
          rw [get_setColor]
          exact hq
        have h2 := h1.setColor_other .red hq1
        refine ⟨_, rfl, ?_⟩
        rw [opened_cons] at h2
        simp only [ho] at h2
        exact h2

omit [DecidableEq α] in
theorem singleRotation_fill_red {r : Frame α} {ql qr : Tree α} {q : α}
    (ho : r.other = .node c ql q qr) :
    singleRotation (r.fill t) r.dir =
      Frame.fill ⟨.black, q, r.dir, r.other.son r.dir.flip⟩
        (Frame.fill ⟨.red, r.node, r.dir, r.other.son r.dir⟩ t) := by
  obtain ⟨c', a, d, s⟩ := r
  obtain rfl : s = .node c ql q qr := ho
  cases d <;> rfl

/-- **The rebalancing loop of a removal over memory.** -/
theorem removeLoop_rep : ∀ {m : Mem α} {t : Tree α}, Opened m path t →
    ∃ m', Mem.removeLoop (stackFrom path .root) m = some m' ∧
      Rep m'.node (removeRebalance path t) m'.root := by
  induction path with
  | nil =>
    intro m t h
    exact ⟨m, rfl, h.hole⟩
  | cons r path ih =>
    intro m t h
    have hget : m.get (linkFrom path .root) = some r.node := h.frames.1
    have hother : Rep m.node r.other (m.son r.node r.dir.flip) := h.frames.2.2.1
    -- what follows a turn that leaves `u` at the end of the rest of the path
    have hgo : ∀ {m1 : Mem α} {u : Tree α} (again : Bool), Opened m1 path u →
        ∃ m', (if again then Mem.removeLoop (stackFrom path .root) m1 else some m1) = some m' ∧
          Rep m'.node (if again then removeRebalance path u else plug path u) m'.root := by
      intro m1 u again hu
      cases again with
      | true => exact ih hu
      | false => exact ⟨m1, rfl, hu.closed⟩
    rw [stackFrom, Mem.removeLoop, hget]
    simp only [Option.bind_eq_bind, Option.bind_some]
    by_cases hred : r.other.color = .red
    · obtain ⟨ql, q, qr, ho⟩ := Tree.color_eq_red hred
      rw [if_pos (hother.isRed.mpr hred)]
      have hopen : Opened m path (r.fill t) := opened_cons.mp h
      have hfill : Rep m.node (r.fill t) (some r.node) := hget ▸ hopen.hole
      obtain ⟨m1, top, hrun, hrot⟩ := singleRotation_rep hfill hopen.disjoint.1
        (by rw [son_fill_flip]; exact ne_nil_of_red hred)
      have hopen1 := hopen.rotated hrot (by simp)
      have hrep1 := hrot.rep
      rw [singleRotation_fill_red ho] at hopen1 hrep1
      obtain rfl : top = q := by simpa using (rep_fill.mp hrep1).1
      obtain ⟨m2, hstep, hopen2⟩ := removeStep_rep (opened_cons.mpr (opened_cons.mpr hopen1))
      simp only [hrun, Option.bind_some]
      rw [linkFrom_cons] at hstep
      rw [hstep]
      obtain ⟨m', hrest, hrep⟩ := hgo (removeFix ⟨.red, r.node, r.dir, r.other.son r.dir⟩ t).2
        (opened_cons.mp hopen2)
      refine ⟨m', hrest, ?_⟩
      rw [removeRebalance]
      simp only [ho] at hrep ⊢
      split <;> rename_i u hfix <;> rw [hfix] at hrep <;> exact hrep
    · rw [if_neg (fun hr => hred (hother.isRed.mp hr))]
      obtain ⟨m1, hstep, hopen1⟩ := removeStep_rep h
      rw [hstep]
      obtain ⟨m', hrest, hrep⟩ := hgo (removeFix r t).2 hopen1
      refine ⟨m', hrest, ?_⟩
      rw [removeRebalance]
      split
      · rename_i ql q qr ho
        rw [ho] at hred
        exact absurd rfl hred
      · split <;> rename_i u hfix <;> rw [hfix] at hrep <;> exact hrep

/-! ### Detaching the node -/

omit [DecidableEq α] in
theorem toList_fill_split (c : Color) (d : Direction) (s t : Tree α) :
    ∃ A B, ∀ x, (Frame.fill ⟨c, x, d, s⟩ t).toList = A ++ x :: B := by
  cases d with
  | left => exact ⟨t.toList, s.toList, fun x => rfl⟩
  | right => exact ⟨s.toList, t.toList, fun x => rfl⟩

/-- The successor takes the place of the node. -/
theorem Opened.rename {y : α} {d : Direction} {s : Tree α}
    (h : Opened m (p ++ ⟨c, x, d, s⟩ :: path) t)
    (hy : y ∉ (plug (p ++ ⟨c, x, d, s⟩ :: path) t).toList) :
    Opened ((m.setNode y (m.node x)).set (linkFrom path .root) (some y))
      (p ++ ⟨c, y, d, s⟩ :: path) t := by
  have hopen : Opened m path (Frame.fill ⟨c, x, d, s⟩ (plug p t)) :=
    opened_cons.mp (opened_append.mp h)
  rw [plug_append, plug] at hy
  rw [opened_append, opened_cons]
  obtain ⟨A, B, hAB⟩ := toList_fill_split c d s (plug p t)
  have hnd := hopen.nodup
  have hylist : y ∉ A ++ x :: B := by
    rw [← hAB]
    intro hmem
    exact hy (by rw [toList_plug]; simp [hmem])
  have hnode : ∀ a ≠ y, (m.setNode y (m.node x)).node a = m.node a := by
    intro a ha
    simp [Mem.setNode, ha]
  have hself : (m.setNode y (m.node x)).node y = m.node x := by simp [Mem.setNode]
  obtain ⟨-, hc, ho, ht⟩ := rep_fill.mp hopen.hole
  have hsub : ∀ a, a ∈ s.toList ∨ a ∈ (plug p t).toList → a ≠ y := by
    rintro a ha rfl
    refine hylist ?_
    rw [← hAB]
    cases d <;> simp only [Frame.fill, Tree.mk, Tree.toList_node, mem_append] <;> tauto
  refine hopen.replace rfl ?_ ?_ ?_
  · intro a ha
    refine hnode a ?_
    rintro rfl
    refine hy ?_
    rw [toList_plug]
    simp only [mem_append] at ha ⊢
    tauto
  · refine rep_fill.mpr ⟨rfl, ?_, ?_, ?_⟩
    · rw [Mem.color, hself]
      exact hc
    · rw [Mem.son, hself]
      exact ho.congr (fun a ha => hnode a (hsub a (.inl ha)))
    · rw [Mem.son, hself]
      exact ht.congr (fun a ha => hnode a (hsub a (.inr ha)))
  · rw [toList_plug, hAB] at hnd hy ⊢
    rw [append_assoc, append_assoc, cons_append, ← append_assoc,
      nodup_middle, nodup_cons] at hnd ⊢
    refine ⟨fun hmem => hy ?_, hnd.2⟩
    simp only [mem_append] at hmem ⊢
    tauto

theorem set_node_of_link {a : α} (ha : a ∉ before path ++ after path) (v : Option α) :
    (m.set (linkFrom path .root) v).node a = m.node a := by
  cases path with
  | nil => rfl
  | cons f path =>
    have hne : a ≠ f.node := by
      rintro rfl
      exact ha (mem_before_or_after f path (.inl rfl))
    simp [linkFrom, Mem.set, Mem.setSon, Mem.setNode, hne]

/-- Removing a node with two sons, in the memory. -/
theorem removeDouble_rep
    (h : Opened m path (.node c l0 x (.node rc rl ra rr)))
    (hroom : path.length + ((leftmost rc rl ra rr []).path.length + 1) ≤ Mem.stackSize) :
    ∃ m', m.removeDouble x (linkFrom path .root) (stackFrom path .root) = some m' ∧
      Rep m'.node (removeDouble path c l0 (leftmost rc rl ra rr [])) m'.root := by
  set L := leftmost rc rl ra rr [] with hL
  have hbase : Opened m (⟨c, x, .right, l0⟩ :: path) (.node rc rl ra rr) := opened_cons.mpr h
  have hsearch := leftmostSearch_below h (Mem.stackSize - (path.length + 1))
  rw [← hL, if_pos (by omega)] at hsearch
  have hplug : plug L.path (.node L.color .nil L.node L.right) = .node rc rl ra rr :=
    plug_leftmost rl rc ra rr []
  -- the successor is cut out
  have hopenL : Opened m (L.path ++ ⟨c, x, .right, l0⟩ :: path)
      (.node L.color .nil L.node L.right) := by
    rw [opened_append, hplug]
    exact hbase
  have hlist : (plug (L.path ++ ⟨c, x, .right, l0⟩ :: path)
      (.node L.color .nil L.node L.right)).toList.Nodup := hopenL.nodup
  rw [toList_plug, append_assoc] at hlist
  simp only [Tree.toList_node, Tree.toList_nil, nil_append, cons_append] at hlist
  rw [nodup_middle, nodup_cons] at hlist
  obtain ⟨hqnot, hndcut⟩ := hlist
  have hcut : Opened (m.set (linkFrom L.path (.son x .right)) (m.son L.node .right))
      (L.path ++ ⟨c, x, .right, l0⟩ :: path) L.right := by
    have hrep : Rep m.node L.right (m.son L.node .right) := hopenL.hole.2.2.2
    have hset := hopenL.replace rfl (fun _ _ => rfl) hrep
      (by rw [toList_plug, append_assoc]; exact hndcut)
    rw [linkFrom_append] at hset
    exact hset
  have hqfree : L.node ∉ (plug (L.path ++ ⟨c, x, .right, l0⟩ :: path) L.right).toList := by
    rw [toList_plug, append_assoc]
    exact hqnot
  have hgetq : m.get (linkFrom L.path (.son x .right)) = some L.node := by
    have hget := hopenL.hole.1
    rw [linkFrom_append] at hget
    exact hget
  have hcolor : (m.set (linkFrom L.path (.son x .right)) (m.son L.node .right)).color L.node =
      L.color := by
    have hlink : linkFrom L.path (.son x .right) =
        linkFrom (L.path ++ ⟨c, x, .right, l0⟩ :: path) .root := by
      rw [linkFrom_append, linkFrom_cons]
    rw [hlink, Mem.color, set_node_of_link]
    · exact hopenL.hole.2.1
    · simp only [mem_append] at hqnot ⊢
      tauto
  -- and takes the place of the node
  have hmoved := hcut.rename hqfree
  have hstack : Mem.patchOldest (.son L.node .right, .left)
        (stackFrom L.path (.son x .right)) ++
          (linkFrom path .root, .right) :: stackFrom path .root =
      stackFrom (L.path ++ ⟨c, L.node, .right, l0⟩ :: path) .root := by
    rw [stackFrom_append, linkFrom_cons, stackFrom,
      patchOldest_stackFrom (dir_leftmost rl rc ra rr [] (by simp))]
  have hguard : path.length < Mem.stackSize := by omega
  rw [Mem.removeDouble, removeDouble]
  simp only [hguard, length_stackFrom, Option.bind_eq_bind,
    Option.bind_some, hsearch, hgetq, hcolor, hstack]
  by_cases hred : L.color = .red
  · rw [if_pos hred, if_pos hred]
    exact ⟨_, rfl, hmoved.closed⟩
  · rw [if_neg hred, if_neg hred]
    exact removeLoop_rep hmoved

variable {l r : Tree α}

/-- Removing a node with at most one son, in the memory. -/
theorem removeSingle_rep {p : Option α} (h : Opened m path (.node c l x r)) (hp : Rep m.node l0 p)
    (hsub : l0.toList.Sublist (RedBlack.Tree.node c l x r).toList) :
    ∃ m', m.removeSingle x (linkFrom path .root) (stackFrom path .root) p = some m' ∧
      Rep m'.node (removeSingle path c l0) m'.root := by
  have hnd : (plug path l0).toList.Nodup := by
    have hlist := h.nodup
    rw [toList_plug] at hlist ⊢
    exact hlist.sublist (((List.Sublist.refl _).append hsub).append (List.Sublist.refl _))
  have hset : Opened (m.set (linkFrom path .root) p) path l0 :=
    h.replace rfl (fun _ _ => rfl) hp hnd
  have hxpath : x ∉ before path ++ after path := by
    intro hmem
    exact h.disjoint.2 x hmem (by simp)
  have hcolor : (m.set (linkFrom path .root) p).color x = c := by
    rw [Mem.color, set_node_of_link hxpath]
    exact h.hole.2.1
  have hget : (m.set (linkFrom path .root) p).get (linkFrom path .root) = p := by
    cases path with
    | nil => rfl
    | cons f path => simp [linkFrom, Mem.get, Mem.set, Mem.setSon, Mem.setNode]
  have hrep0 : Rep (m.set (linkFrom path .root) p).node l0 p := by
    have hhole := hset.hole
    rw [hget] at hhole
    exact hhole
  unfold Mem.removeSingle removeSingle
  simp only [hcolor]
  by_cases hc : c = .red
  · rw [if_pos hc, if_pos hc]
    exact ⟨_, rfl, hset.closed⟩
  rw [if_neg hc, if_neg hc]
  cases hp0 : p with
  | none =>
    subst hp0
    have hblack : ¬ l0.color = .red := by
      intro hr
      have := hrep0.isRed.mpr hr
      simp [Mem.isRed] at this
    rw [if_neg hblack]
    exact removeLoop_rep hset
  | some a =>
    subst hp0
    by_cases hr : l0.color = .red
    · have hca : (m.set (linkFrom path .root) (some a)).color a = .red := by
        simpa [Mem.isRed] using hrep0.isRed.mpr hr
      simp only [hca, if_pos hr]
      exact ⟨_, rfl, (hset.setColor .black hget).closed⟩
    · have hca : (m.set (linkFrom path .root) (some a)).color a ≠ .red := by
        intro hc'
        exact hr (hrep0.isRed.mp (by simp [Mem.isRed, hc']))
      simp only [hca, if_neg hr]
      exact removeLoop_rep hset

theorem removeFound_rep (h : Opened m path (.node c l x r))
    (hroom : path.length + foundDepth (.node c l x r) ≤ Mem.stackSize) :
    ∃ m', m.removeFound x (linkFrom path .root) (stackFrom path .root) = some m' ∧
      Rep m'.node (removeFound path (.node c l x r)) m'.root := by
  have hl : Rep m.node l (m.son x .left) := h.hole.2.2.1
  have hr : Rep m.node r (m.son x .right) := h.hole.2.2.2
  unfold Mem.removeFound
  match l, r with
  | .node lc ll la lr, .node rc rl ra rr =>
    rw [hl.1, hr.1]
    exact removeDouble_rep h hroom
  | .nil, r =>
    rw [show m.son x .left = none from hl]
    exact removeSingle_rep h hr (by simp)
  | .node lc ll la lr, .nil =>
    rw [hl.1, show m.son x .right = none from hr]
    rw [hl.1] at hl
    exact removeSingle_rep h hl (by simp)

/--
**`eina_rbtree_inline_remove` over memory.**  The call has a value when the way to
the node, and from there to its successor, fits into the stack.
-/
theorem inlineRemove_rep (x : α) (h : Rep m.node t m.root)
    (hnd : t.toList.Nodup) (hroom : removeDepth cmp x t ≤ Mem.stackSize) :
    ∃ m', m.inlineRemove cmp x = some m' ∧ Rep m'.node (inlineRemove cmp t x) m'.root := by
  have hsdepth : searchDepth cmp x t ≤ Mem.stackSize := by
    rw [removeDepth] at hroom
    split at hroom <;> omega
  rw [Mem.inlineRemove, removeSearch_root cmp x Mem.stackSize h hnd, if_pos hsdepth,
    inlineRemove]
  cases hfound : removePath cmp x t [] with
  | none => exact ⟨m, rfl, h⟩
  | some pu =>
    obtain ⟨p, u⟩ := pu
    obtain ⟨hplug, c, l, r, rfl⟩ := removePath_some hfound
    have hlen := length_removePath hfound
    rw [removeDepth, hfound] at hroom
    simp only [length_nil] at hroom hlen
    have hopen := opened_of_plug h hnd hplug
    obtain ⟨m1, hrun, hrep⟩ := removeFound_rep hopen (by omega)
    have hndres : (removeFound p (.node c l x r)).toList.Nodup := by
      have hlist : (inlineRemove cmp t x).toList.Nodup := nodup_inlineRemove hnd
      rw [inlineRemove, hfound] at hlist
      simpa using hlist
    simp only [Option.map_some, Option.bind_eq_bind, Option.bind_some, hrun]
    cases hroot : m1.root with
    | none =>
      refine ⟨m1, rfl, ?_⟩
      rw [hroot] at hrep
      cases ht : removeFound p (.node c l x r) with
      | nil => exact hroot
      | node c' l' a' r' =>
        rw [ht] at hrep
        exact absurd hrep.1 (by simp)
    | some root =>
      refine ⟨m1.setColor root .black, rfl, ?_⟩
      have hroot' : (m1.setColor root .black).root = some root := hroot
      rw [hroot']
      rw [hroot] at hrep
      exact hrep.setColor hndres .black

theorem removeFound_overrun (h : Opened m path (.node c l x r))
    (hpath : path.length ≤ Mem.stackSize)
    (hroom : Mem.stackSize < path.length + foundDepth (.node c l x r)) :
    m.removeFound x (linkFrom path .root) (stackFrom path .root) = none := by
  have hl : Rep m.node l (m.son x .left) := h.hole.2.2.1
  have hr : Rep m.node r (m.son x .right) := h.hole.2.2.2
  match l, r with
  | .node lc ll la lr, .node rc rl ra rr =>
    have hdeep : Mem.stackSize < path.length + ((leftmost rc rl ra rr []).path.length + 1) :=
      hroom
    rw [Mem.removeFound, hl.1, hr.1]
    simp only [Mem.removeDouble, guard, length_stackFrom]
    by_cases hguard : path.length < Mem.stackSize
    · rw [if_pos hguard, leftmostSearch_below h, if_neg (by omega)]
      rfl
    · rw [if_neg hguard]
      rfl
  | .nil, r => exact absurd hroom (by simp [foundDepth, hpath])
  | .node lc ll la lr, .nil => exact absurd hroom (by simp [foundDepth, hpath])

theorem inlineRemove_overrun (h : Rep m.node t m.root)
    (hnd : t.toList.Nodup) (hroom : Mem.stackSize < removeDepth cmp x t) :
    m.inlineRemove cmp x = none := by
  rw [Mem.inlineRemove, removeSearch_root cmp x Mem.stackSize h hnd]
  by_cases hs : searchDepth cmp x t ≤ Mem.stackSize
  · rw [if_pos hs]
    rw [removeDepth] at hroom
    cases hfound : removePath cmp x t [] with
    | none =>
      rw [hfound] at hroom
      exact absurd hs (Nat.not_le_of_lt hroom)
    | some pu =>
      obtain ⟨p, u⟩ := pu
      obtain ⟨hplug, c, l, r, rfl⟩ := removePath_some hfound
      have hlen := length_removePath hfound
      rw [hfound] at hroom
      simp only [length_nil] at hroom hlen
      have hopen := opened_of_plug h hnd hplug
      have hnone := removeFound_overrun hopen (by omega) (by omega)
      simp only [Option.map_some, Option.bind_eq_bind, Option.bind_some, hnone]
      rfl
  · rw [if_neg hs]
    rfl

end Eina.Rbtree
