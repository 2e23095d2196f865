/-
Red-black trees seen through a cursor.

A tree stored through pointers is edited at a place reached by a path, here a list of frames,
innermost first: each holds the node the path went through, its colour, the side the path took and
the subtree left on the other side.  `plug` closes the path again.

  * `toList_plug`: the in-order sequence of the whole is the sequence of the hole
    between two lists that depend on the path alone.
  * `balanced_plug`: the whole is balanced when the hole has the black height the
    path expects and no red node meets a red frame.
-/
import Mathlib.Algebra.GroupWithZero.Nat
import Mathlib.Data.Finset.Basic

namespace RedBlack

open List

inductive Direction where
  | left
  | right
  deriving DecidableEq, Repr

/-- The other direction, written `dir ^ 1` in C. -/
def Direction.flip : Direction → Direction
  | .left => .right
  | .right => .left

variable (d : Direction)

@[simp] theorem Direction.flip_flip : d.flip.flip = d := by
  cases d <;> rfl

@[simp] theorem Direction.flip_ne : d.flip ≠ d := by
  cases d <;> simp [flip]

inductive Color where
  | red
  | black
  deriving DecidableEq, Repr

theorem Color.ne_red {c : Color} : c ≠ .red ↔ c = .black := by
  cases c <;> simp

inductive Tree (α : Type) where
  | nil
  | node (color : Color) (l : Tree α) (a : α) (r : Tree α)
  deriving DecidableEq, Repr

namespace Tree

variable {α β : Type} {t : Tree α} (l : Tree α) (c : Color)

/-- The colour of the root; an absent node counts as black. -/
def color : Tree α → Color
  | nil => .black
  | node c _ _ _ => c

def son : Tree α → Direction → Tree α
  | nil, _ => nil
  | node _ l _ _, .left => l
  | node _ _ _ r, .right => r

/-- The node whose son in direction `d` is `t` and whose other son is `s`. -/
def mk (d : Direction) (c : Color) (a : α) (t s : Tree α) : Tree α :=
  match d with
  | .left => node c t a s
  | .right => node c s a t

def setColor (c : Color) : Tree α → Tree α
  | nil => nil
  | node _ l a r => node c l a r

/-- The nodes in order, everything in the left son first. -/
def toList : Tree α → List α
  | nil => []
  | node _ l a r => l.toList ++ a :: r.toList

@[simp] theorem color_nil : (nil : Tree α).color = .black := rfl
@[simp] theorem color_node (l : Tree α) (a : α) (r : Tree α) :
    (node c l a r).color = c := rfl
@[simp] theorem color_mk (d : Direction) (c : Color) (a : α) (t s : Tree α) :
    (mk d c a t s).color = c := by cases d <;> rfl
@[simp] theorem toList_nil : (nil : Tree α).toList = [] := rfl
@[simp] theorem toList_node (l : Tree α) (a : α) (r : Tree α) :
    (node c l a r).toList = l.toList ++ a :: r.toList := rfl
@[simp] theorem toList_setColor (t : Tree α) : (t.setColor c).toList = t.toList := by
  cases t <;> rfl
@[simp] theorem setColor_node (c c' : Color) (l : Tree α) (a : α) (r : Tree α) :
    (node c l a r).setColor c' = node c' l a r := rfl
@[simp] theorem setColor_nil : (nil : Tree α).setColor c = nil := rfl

theorem color_eq_red (h : t.color = .red) : ∃ l a r, t = node .red l a r := by
  cases t with
  | nil => simp at h
  | node c l a r =>
    obtain rfl : c = .red := h
    exact ⟨l, a, r, rfl⟩

/-! ### Balance -/

/-- No red node has a red son. -/
def NoRedRed : Tree α → Prop
  | nil => True
  | node c l _ r => (c = .red → l.color = .black ∧ r.color = .black) ∧ l.NoRedRed ∧ r.NoRedRed

/-- For each way down to an absent son, the number of black nodes on it. -/
def blackCounts : Tree α → List Nat
  | nil => [0]
  | node c l _ r =>
    (l.blackCounts ++ r.blackCounts).map (· + if c = .black then 1 else 0)

/-- No red node has a red son and every way down meets `n` black nodes. -/
def Balanced : Tree α → Nat → Prop
  | nil, n => n = 0
  | node .red l _ r, n =>
    l.color = .black ∧ r.color = .black ∧ l.Balanced n ∧ r.Balanced n
  | node .black _ _ _, 0 => False
  | node .black l _ r, n + 1 => l.Balanced n ∧ r.Balanced n

@[simp] theorem balanced_nil (n : Nat) : (nil : Tree α).Balanced n ↔ n = 0 := Iff.rfl
@[simp] theorem balanced_red (a : α) (r : Tree α) (n : Nat) :
    (node .red l a r).Balanced n ↔
      l.color = .black ∧ r.color = .black ∧ l.Balanced n ∧ r.Balanced n := Iff.rfl
@[simp] theorem balanced_black_succ (a : α) (r : Tree α) (n : Nat) :
    (node .black l a r).Balanced (n + 1) ↔ l.Balanced n ∧ r.Balanced n := Iff.rfl
@[simp] theorem balanced_black_zero (a : α) (r : Tree α) :
    ¬ (node .black l a r).Balanced 0 := fun h => h

theorem balanced_black (a : α) (r : Tree α) (n : Nat) :
    (node .black l a r).Balanced n ↔ ∃ m, n = m + 1 ∧ l.Balanced m ∧ r.Balanced m := by
  cases n with
  | zero => simp
  | succ n => simp

theorem Balanced.noRedRed : ∀ {t : Tree α} {n : Nat}, t.Balanced n → t.NoRedRed
  | nil, _, _ => trivial
  | node .red _ _ _, _, h => ⟨fun _ => ⟨h.1, h.2.1⟩, h.2.2.1.noRedRed, h.2.2.2.noRedRed⟩
  | node .black _ _ _, _ + 1, h =>
    ⟨fun hc => Color.noConfusion hc, h.1.noRedRed, h.2.noRedRed⟩

theorem Balanced.blackCounts : ∀ {t : Tree α} {n : Nat}, t.Balanced n →
    ∀ k ∈ t.blackCounts, k = n
  | nil, n, h, k, hk => by
    obtain rfl : k = 0 := by simpa [Tree.blackCounts] using hk
    exact h.symm
  | node .red l a r, n, h, k, hk => by
    simp only [Tree.blackCounts, map_append, mem_append, mem_map] at hk
    rcases hk with ⟨j, hj, rfl⟩ | ⟨j, hj, rfl⟩
    · simpa using h.2.2.1.blackCounts j hj
    · simpa using h.2.2.2.blackCounts j hj
  | node .black l a r, n + 1, h, k, hk => by
    simp only [Tree.blackCounts, map_append, mem_append, mem_map] at hk
    rcases hk with ⟨j, hj, rfl⟩ | ⟨j, hj, rfl⟩
    · simpa using h.1.blackCounts j hj
    · simpa using h.2.blackCounts j hj

theorem Balanced.setBlack {n : Nat} (h : t.Balanced n) :
    ∃ m, (t.setColor .black).Balanced m := by
  match t, h with
  | nil, h => exact ⟨n, h⟩
  | node .red l a r, h => exact ⟨n + 1, h.2.2⟩
  | node .black l a r, h => exact ⟨n, h⟩

/-! ### Height -/

/-- The nodes on the longest way down. -/
def height : Tree α → Nat
  | nil => 0
  | node _ l _ r => max l.height r.height + 1

theorem Balanced.two_pow_le : ∀ {n : Nat}, t.Balanced n →
    2 ^ n ≤ t.toList.length + 1 := by
  induction t with
  | nil =>
    intro n h
    obtain rfl : n = 0 := h
    simp
  | node c l a r ihl ihr =>
    intro n h
    rw [toList_node, length_append, length_cons]
    cases c with
    | red =>
      have hl := ihl h.2.2.1
      omega
    | black =>
      obtain ⟨m, rfl, hbl, hbr⟩ := (balanced_black l a r n).mp h
      have hl := ihl hbl
      have hr := ihr hbr
      omega

theorem Balanced.height_le : ∀ {n : Nat}, t.Balanced n →
    t.height ≤ 2 * n + if t.color = .red then 1 else 0 := by
  induction t with
  | nil =>
    simp [height]
  | node c l a r ihl ihr =>
    intro n h
    rw [height, color_node]
    cases c with
    | red =>
      obtain ⟨hlc, hrc, hbl, hbr⟩ := h
      have hl := ihl hbl
      have hr := ihr hbr
      rw [hlc] at hl
      rw [hrc] at hr
      simp only [reduceCtorEq, if_false, if_true] at hl hr ⊢
      omega
    | black =>
      obtain ⟨m, rfl, hbl, hbr⟩ := (balanced_black l a r n).mp h
      have hl := ihl hbl
      have hr := ihr hbr
      have hle : ∀ c : Color, (if c = .red then 1 else 0) ≤ 1 := by
        intro c
        split <;> omega
      have h1 := hle l.color
      have h2 := hle r.color
      omega

/-! ### The order of the nodes

A direction callback is asked about a node and a second one, and answers with the
side of the first on which the second belongs.  A tree obeys it when the second of
two nodes met in order is never reported to be on the left of the first.
-/

/-- For every node, each node of its son `d` is on the side `d` that `cmp` reports. -/
def SearchTree (cmp : α → α → Direction) : Tree α → Prop
  | nil => True
  | node _ l a r =>
    (∀ x ∈ l.toList, cmp a x = .left) ∧ (∀ x ∈ r.toList, cmp a x = .right) ∧
      l.SearchTree cmp ∧ r.SearchTree cmp

/-- Met in order, no node is reported to be on the left of an earlier one. -/
def Ordered (cmp : α → α → Direction) (t : Tree α) : Prop :=
  t.toList.Pairwise fun a b => cmp a b = .right

end Tree

/-- A callback that sorts the nodes, with ties sent to the right. -/
structure Sorts {α : Type} (cmp : α → α → Direction) : Prop where
  asymm : ∀ a b, a ≠ b → cmp a b = .left → cmp b a = .right
  trans : ∀ a b c, cmp a b = .right → cmp b c = .right → cmp a c = .right

/-- A callback that sorts the nodes and never ties two of them. -/
structure SortsStrictly {α : Type} (cmp : α → α → Direction) : Prop extends Sorts cmp where
  strict : ∀ a b, a ≠ b → cmp a b = .right → cmp b a = .left

theorem Tree.Ordered.searchTree {α : Type} {cmp : α → α → Direction} {t : Tree α} :
    (∀ a ∈ t.toList, ∀ b ∈ t.toList, a ≠ b → cmp a b = .right → cmp b a = .left) →
      t.toList.Nodup → t.Ordered cmp → t.SearchTree cmp := by
  induction t with
  | nil =>
    intro _ _ _
    trivial
  | node c l a r ihl ihr =>
    intro hs hnd ho
    unfold Tree.Ordered at ho
    simp only [Tree.toList_node, nodup_append, pairwise_append,
      pairwise_cons, nodup_cons] at hnd ho
    have hsub : ∀ x, x ∈ l.toList ∨ x ∈ r.toList → x ∈ (Tree.node c l a r).toList := by
      intro x hx
      rw [Tree.toList_node, mem_append, mem_cons]
      tauto
    refine ⟨fun x hx => ?_, fun x hx => ho.2.1.1 x hx, ?_, ?_⟩
    · have hne : x ≠ a := hnd.2.2 x hx a (by simp)
      exact hs x (hsub x (.inl hx)) a (by simp) hne (ho.2.2 x hx a (by simp))
    · exact ihl (fun x hx y hy => hs x (hsub x (.inl hx)) y (hsub y (.inl hy))) hnd.1 ho.1
    · exact ihr (fun x hx y hy => hs x (hsub x (.inr hx)) y (hsub y (.inr hy))) hnd.2.1.2
        ho.2.1.2

/-! ### Paths -/

/-- One node a path goes through: `dir` is the side taken, `other` the son left behind. -/
structure Frame (α : Type) where
  color : Color
  node : α
  dir : Direction
  other : Tree α
  deriving DecidableEq, Repr

namespace Frame

variable {α : Type} (f : Frame α)

def fill (f : Frame α) (t : Tree α) : Tree α := Tree.mk f.dir f.color f.node t f.other

/-- What one frame puts before its hole in order. -/
def before (f : Frame α) : List α :=
  match f.dir with
  | .left => []
  | .right => f.other.toList ++ [f.node]

/-- What one frame puts after its hole in order. -/
def after (f : Frame α) : List α :=
  match f.dir with
  | .left => f.node :: f.other.toList
  | .right => []

@[simp] theorem color_fill (t : Tree α) : (f.fill t).color = f.color := by
  simp [fill]

theorem toList_fill (t : Tree α) :
    (f.fill t).toList = f.before ++ t.toList ++ f.after := by
  obtain ⟨c, a, d, s⟩ := f
  cases d <;> simp [fill, Tree.mk, before, after]

/-- The black nodes a frame adds to its hole. -/
def weight (f : Frame α) : Nat := if f.color = .black then 1 else 0

theorem balanced_fill {f : Frame α} {t : Tree α} {n : Nat} (ht : t.Balanced n)
    (ho : f.other.Balanced n)
    (hred : f.color = .red → t.color = .black ∧ f.other.color = .black) :
    (f.fill t).Balanced (n + f.weight) := by
  obtain ⟨c, a, d, s⟩ := f
  cases c with
  | red =>
    cases d <;> simp_all [fill, Tree.mk, weight]
  | black => cases d <;> simp_all [fill, Tree.mk, weight]

end Frame

variable {α : Type} {path : List (Frame α)} (p q : List (Frame α))

/-- The tree a path leads into, with `t` at its end. -/
def plug : List (Frame α) → Tree α → Tree α
  | [], t => t
  | f :: path, t => plug path (f.fill t)

def before : List (Frame α) → List α
  | [] => []
  | f :: path => before path ++ f.before

def after : List (Frame α) → List α
  | [] => []
  | f :: path => f.after ++ after path

theorem plug_append (t : Tree α) : plug (p ++ q) t = plug q (plug p t) := by
  induction p generalizing t with
  | nil => rfl
  | cons f p ih => exact ih _

/-- **In order, a path only adds nodes on the two sides of its hole.** -/
theorem toList_plug (path : List (Frame α)) (t : Tree α) :
    (plug path t).toList = before path ++ t.toList ++ after path := by
  induction path generalizing t with
  | nil => simp [plug, before, after]
  | cons f path ih => simp [plug, before, after, ih, Frame.toList_fill]

theorem before_append : before (p ++ q) = before q ++ before p := by
  induction p with
  | nil => simp [before]
  | cons f p ih => simp [before, ih]

theorem after_append : after (p ++ q) = after p ++ after q := by
  induction p with
  | nil => simp [after]
  | cons f p ih => simp [after, ih]

/-- The colour of the innermost frame; outside the tree counts as black. -/
def topColor : List (Frame α) → Color
  | [] => .black
  | f :: _ => f.color

/-- The path is balanced around a hole of black height `n`. -/
def PathBalanced : List (Frame α) → Nat → Prop
  | [], _ => True
  | f :: path, n =>
    f.other.Balanced n ∧ (f.color = .red → f.other.color = .black ∧ topColor path = .black) ∧
      PathBalanced path (n + f.weight)

/-- **A balanced path closes over a hole of the right height.** -/
theorem balanced_plug {t : Tree α} {n : Nat}
    (hp : PathBalanced path n) (ht : t.Balanced n)
    (hred : t.color = .red → topColor path = .black) : ∃ m, (plug path t).Balanced m := by
  induction path generalizing t n with
  | nil => exact ⟨n, ht⟩
  | cons f path ih =>
    obtain ⟨ho, hf, hp⟩ := hp
    refine ih hp (Frame.balanced_fill ht ho ?_) ?_
    · intro hc
      refine ⟨?_, (hf hc).1⟩
      cases htc : t.color with
      | black => rfl
      | red =>
        have hblack : f.color = .black := hred htc
        rw [hc] at hblack
        exact absurd hblack (by decide)
    · intro hc
      exact (hf (by simpa using hc)).2

theorem balanced_of_plug {t : Tree α} {m : Nat}
    (h : (plug path t).Balanced m) :
    ∃ n, PathBalanced path n ∧ t.Balanced n ∧ (topColor path = .red → t.color = .black) := by
  induction path generalizing t with
  | nil => exact ⟨m, trivial, h, fun hc => Color.noConfusion hc⟩
  | cons f path ih =>
    obtain ⟨n, hp, hfill, htop⟩ := ih h
    obtain ⟨c, a, d, s⟩ := f
    cases c with
    | red =>
      have hb : s.color = .black ∧ t.color = .black ∧ s.Balanced n ∧ t.Balanced n := by
        cases d <;> simp_all [Frame.fill, Tree.mk]
      refine ⟨n, ⟨hb.2.2.1, fun _ => ⟨hb.1, ?_⟩, by simpa [Frame.weight] using hp⟩,
        hb.2.2.2, fun _ => hb.2.1⟩
      cases htc : topColor path with
      | black => rfl
      | red =>
        have := htop htc
        simp at this
    | black =>
      obtain ⟨k, rfl, hs, ht⟩ : ∃ k, n = k + 1 ∧ s.Balanced k ∧ t.Balanced k := by
        cases d with
        | left =>
          obtain ⟨k, hk, h1, h2⟩ := (Tree.balanced_black _ _ _ _).mp hfill
          exact ⟨k, hk, h2, h1⟩
        | right =>
          obtain ⟨k, hk, h1, h2⟩ := (Tree.balanced_black _ _ _ _).mp hfill
          exact ⟨k, hk, h1, h2⟩
      exact ⟨k, ⟨hs, fun hc => Color.noConfusion hc, by simpa [Frame.weight] using hp⟩, ht,
        fun hc => Color.noConfusion hc⟩

end RedBlack
