/-
Nodes inserted in order, and the stack they overrun.

When every new node belongs to the right of all the others, the right side of the tree is a
sequence of levels from the bottom: a black node alone, a black node with a red right son, or a
black node with two red sons.  An insertion adds one to the lowest level; the third kind overflows
into the level above and becomes the second.  With 1, 2 and 3 for the three kinds and the level `i`
weighing `2 ^ i`, the right side spells the number of nodes (`Digit.value`), and the first tree of
`3 * (2 ^ 24 - 1) + 1` nodes takes 49 entries.
-/
import Efl.Eina.Rbtree.Run

namespace Eina.Rbtree

open RedBlack List

variable {α : Type}

/-! ### The right side of a tree -/

/-- The path down the right sons. -/
def rightPath : Tree α → List (Frame α) → List (Frame α)
  | .nil, path => path
  | .node c l a r, path => rightPath r (⟨c, a, .right, l⟩ :: path)

variable {cmp : α → α → Direction} {x : α} {t : Tree α} {path : List (Frame α)}

theorem insertPath_eq_rightPath (h : ∀ q ∈ t.toList, cmp q x = .right) (path : List (Frame α)) :
    insertPath cmp x t path = rightPath t path := by
  induction t generalizing path with
  | nil => rfl
  | node c l q r _ ihr =>
    rw [insertPath, h q (by simp)]
    exact ihr (fun a ha => h a (by simp [ha])) _

theorem rightPath_append (t : Tree α) (path : List (Frame α)) :
    rightPath t path = rightPath t [] ++ path := by
  induction t generalizing path with
  | nil => rfl
  | node c l a r _ ihr =>
    rw [rightPath, rightPath, ihr, ihr [⟨c, a, .right, l⟩]]
    simp

theorem rightPath_plug (h : ∀ f ∈ path, f.dir = .right) (t : Tree α) :
    rightPath (plug path t) [] = rightPath t [] ++ path := by
  induction path generalizing t with
  | nil => simp [plug]
  | cons f path ih =>
    rw [plug, ih (fun g hg => h g (by simp [hg]))]
    obtain ⟨c, a, d, s⟩ := f
    obtain rfl : d = .right := h _ mem_cons_self
    show rightPath (.node c s a t) [] ++ path = _
    rw [rightPath, rightPath_append]
    simp

/-! ### Levels -/

/-- A level of the right side, by the number of its nodes and of their red sons. -/
inductive Digit where
  | two
  | three
  | four

def Digit.weight : Digit → Nat
  | .two => 1
  | .three => 2
  | .four => 3

/-- The number a sequence of levels spells, lowest first. -/
def Digit.value : List Digit → Nat
  | [] => 0
  | d :: ds => d.weight + 2 * Digit.value ds

/-- Adding one. -/
def Digit.inc : List Digit → List Digit
  | [] => [.two]
  | .two :: ds => .three :: ds
  | .three :: ds => .four :: ds
  | .four :: ds => .three :: Digit.inc ds

theorem Digit.value_inc (ds : List Digit) : value (inc ds) = value ds + 1 := by
  induction ds with
  | nil => rfl
  | cons d ds ih =>
    cases d with
    | two => simp only [inc, value, weight]; omega
    | three => simp only [inc, value, weight]; omega
    | four => simp only [inc, value, weight]; omega

theorem Digit.value_add_three_le (ds : List Digit) : value ds + 3 ≤ 3 * 2 ^ ds.length := by
  induction ds with
  | nil => simp [value]
  | cons d ds ih =>
    have hw : d.weight ≤ 3 := by cases d <;> simp [weight]
    rw [value, length_cons]
    omega

/-- The frames, innermost first, are those of the levels `ds`. -/
def Spells : List Digit → List (Frame α) → Prop
  | [], path => path = []
  | .two :: ds, path => ∃ b rest, path = b :: rest ∧ ds = [] ∧ Spells ds rest ∧
      b.dir = .right ∧ b.color = .black ∧ b.other.color = .black
  | d :: ds, path => ∃ r b rest, path = r :: b :: rest ∧ Spells ds rest ∧
      r.dir = .right ∧ r.color = .red ∧ r.other.color = .black ∧
      b.dir = .right ∧ b.color = .black ∧ (b.other.color = .red ↔ d = .four)

variable {ds : List Digit}

theorem Spells.dir : ∀ {path : List (Frame α)}, Spells ds path →
    ∀ f ∈ path, f.dir = .right := by
  induction ds with
  | nil =>
    rintro path rfl f hf
    simp at hf
  | cons d ds ih =>
    intro path h
    cases d with
    | two =>
      obtain ⟨b, rest, rfl, -, hrest, hb, -⟩ := h
      simpa [hb] using ih hrest
    | three =>
      obtain ⟨r, b, rest, rfl, hrest, hr, -, -, hb, -⟩ := h
      simpa [hr, hb] using ih hrest
    | four =>
      obtain ⟨r, b, rest, rfl, hrest, hr, -, -, hb, -⟩ := h
      simpa [hr, hb] using ih hrest

theorem Spells.length : ∀ {path : List (Frame α)}, Spells ds path →
    2 * ds.length ≤ path.length + 1 := by
  induction ds with
  | nil =>
    simp
  | cons d ds ih =>
    intro path h
    cases d with
    | two =>
      obtain ⟨b, rest, rfl, rfl, -⟩ := h
      simp
    | three =>
      obtain ⟨r, b, rest, rfl, hrest, -⟩ := h
      have := ih hrest
      simp only [length_cons]
      omega
    | four =>
      obtain ⟨r, b, rest, rfl, hrest, -⟩ := h
      have := ih hrest
      simp only [length_cons]
      omega

theorem Spells.color_plug : ∀ {path : List (Frame α)}, Spells ds path →
    ∀ {t : Tree α}, t.color = .black → (plug path t).color = .black := by
  induction ds with
  | nil =>
    rintro path rfl t ht
    exact ht
  | cons d ds ih =>
    intro path h t _
    cases d with
    | two =>
      obtain ⟨b, rest, rfl, -, hrest, -, hc, -⟩ := h
      exact ih hrest (by rw [Frame.color_fill, hc])
    | three =>
      obtain ⟨r, b, rest, rfl, hrest, -, -, -, -, hc, -⟩ := h
      exact ih hrest (by rw [Frame.color_fill, hc])
    | four =>
      obtain ⟨r, b, rest, rfl, hrest, -, -, -, -, hc, -⟩ := h
      exact ih hrest (by rw [Frame.color_fill, hc])

theorem setColor_self {c : Color} (h : t.color = c) : t.setColor c = t := by
  cases t with
  | nil => rfl
  | node c' l a r =>
    obtain rfl : c' = c := h
    rfl

theorem insertRebalance_black (path : List (Frame α)) (h : t.color = .black) :
    insertRebalance path t = plug path t := by
  cases path with
  | nil => rfl
  | cons f path => rw [insertRebalance, if_pos h]

theorem Spells.done {rest : List (Frame α)} (h : Spells ds rest) (ht : t.color = .black) :
    rightPath ((insertRebalance rest t).setColor .black) [] = rightPath t [] ++ rest := by
  rw [insertRebalance_black rest ht, setColor_self (h.color_plug ht), rightPath_plug h.dir]

theorem color_setColor_black (t : Tree α) : (t.setColor .black).color = .black := by
  cases t <;> rfl

theorem insertRotate_still {q : Frame α} {al ar : Tree α} (hl : al.color = .black)
    (hr : ar.color = .black) :
    insertRotate q (.node .red al x ar) = q.fill (.node .red al x ar) := by
  have hsons : ∀ d, ((RedBlack.Tree.node .red al x ar).son d).color ≠ .red := by
    intro d
    cases d with
    | left => simp [Tree.son, hl]
    | right => simp [Tree.son, hr]
  rw [insertRotate, if_neg (hsons _), if_neg (hsons _)]

/-- **The loop adds one to the number the right side spells.** -/
theorem Spells.insert : ∀ {path : List (Frame α)}, Spells ds path →
    ∀ {al ar : Tree α} (x : α), al.color = .black → ar.color = .black →
      ∃ Q, rightPath ((insertRebalance path (.node .red al x ar)).setColor .black) [] =
          rightPath ar [] ++ Q ∧ Spells (Digit.inc ds) Q := by
  induction ds with
  | nil =>
    rintro path rfl al ar x hl _
    refine ⟨[⟨.black, x, .right, al⟩], ?_, _, [], rfl, rfl, rfl, rfl, rfl, hl⟩
    show rightPath ar [⟨.black, x, .right, al⟩] = _
    rw [rightPath_append]
  | cons d ds ih =>
    intro path h al ar x hl hr
    have hred : ¬ (RedBlack.Tree.node .red al x ar).color = .black := by simp
    cases d with
    | two =>
      obtain ⟨⟨bc, bn, bd, bo⟩, rest, rfl, rfl, hrest, hb, hbc, hbo⟩ := h
      obtain ⟨rfl, rfl⟩ : bd = .right ∧ bc = .black := ⟨hb, hbc⟩
      have hbo' : bo.color = .black := hbo
      rw [insertRebalance, if_neg hred, if_neg (by simp [hbo']), insertRotate_still hl hr,
        hrest.done (by simp)]
      refine ⟨⟨.red, x, .right, al⟩ :: ⟨.black, bn, .right, bo⟩ :: rest, ?_,
        _, _, rest, rfl, hrest, rfl, rfl, hl, rfl, rfl, by simp [hbo']⟩
      show rightPath ar [⟨.red, x, .right, al⟩, ⟨.black, bn, .right, bo⟩] ++ rest = _
      rw [rightPath_append, append_assoc]
      rfl
    | three =>
      obtain ⟨⟨rc, rn, rd, ro⟩, ⟨bc, bn, bd, bo⟩, rest, rfl, hrest, hrd, hrc, hro, hb, hbc,
        hbo⟩ := h
      obtain ⟨rfl, rfl, rfl, rfl⟩ : rd = .right ∧ rc = .red ∧ bd = .right ∧ bc = .black :=
        ⟨hrd, hrc, hb, hbc⟩
      have hro' : ro.color = .black := hro
      have hbo' : bo.color = .black := Color.ne_red.mp (fun hc => by simpa using hbo.mp hc)
      -- the red node meets a red one, which is rotated above its black father
      have hrot : insertRotate ⟨.black, bn, .right, bo⟩
          (Frame.fill ⟨.red, rn, .right, ro⟩ (.node .red al x ar)) =
          .node .black (.node .red bo bn ro) rn (.node .red al x ar) := rfl
      rw [insertRebalance, if_neg hred, if_neg (by simp [hro']), insertRotate_still hl hr,
        insertRebalance, if_neg (by simp), if_neg (by simp [hbo']), hrot,
        hrest.done (by simp)]
      refine ⟨⟨.red, x, .right, al⟩ :: ⟨.black, rn, .right, .node .red bo bn ro⟩ :: rest, ?_,
        _, _, rest, rfl, hrest, rfl, rfl, hl, rfl, rfl, by simp⟩
      show rightPath ar [⟨.red, x, .right, al⟩,
        ⟨.black, rn, .right, .node .red bo bn ro⟩] ++ rest = _
      rw [rightPath_append, append_assoc]
      rfl
    | four =>
      obtain ⟨⟨rc, rn, rd, ro⟩, ⟨bc, bn, bd, bo⟩, rest, rfl, hrest, hrd, hrc, hro, hb, hbc,
        hbo⟩ := h
      obtain ⟨rfl, rfl, rfl, rfl⟩ : rd = .right ∧ rc = .red ∧ bd = .right ∧ bc = .black :=
        ⟨hrd, hrc, hb, hbc⟩
      have hro' : ro.color = .black := hro
      have hbo' : bo.color = .red := hbo.mpr rfl
      -- both sons of the black node are red: it carries into the level above
      have hflip : insertFlip ⟨.black, bn, .right, bo⟩
          (Frame.fill ⟨.red, rn, .right, ro⟩ (.node .red al x ar)) =
          .node .red (bo.setColor .black) bn (.node .black ro rn (.node .red al x ar)) := rfl
      rw [insertRebalance, if_neg hred, if_neg (by simp [hro']), insertRotate_still hl hr,
        insertRebalance, if_neg (by simp), if_pos hbo', hflip]
      obtain ⟨Q, hQ, hspell⟩ := ih hrest bn (color_setColor_black bo)
        (show (RedBlack.Tree.node .black ro rn (.node .red al x ar)).color = .black from rfl)
      refine ⟨⟨.red, x, .right, al⟩ :: ⟨.black, rn, .right, ro⟩ :: Q, ?_,
        _, _, Q, rfl, hspell, rfl, rfl, hl, rfl, rfl, by simp [hro']⟩
      rw [hQ]
      show rightPath ar [⟨.red, x, .right, al⟩, ⟨.black, rn, .right, ro⟩] ++ Q = _
      rw [rightPath_append, append_assoc]
      rfl

/-! ### Nodes in order -/

theorem mem_insertAll (cmp : α → α → Direction) (xs : List α) :
    ∀ (t : Tree α) (y : α), y ∈ (xs.foldl (inlineInsert cmp) t).toList ↔ y ∈ xs ∨ y ∈ t.toList := by
  induction xs with
  | nil =>
    simp
  | cons x xs ih =>
    intro t y
    rw [foldl_cons, ih, mem_inlineInsert, mem_cons]
    tauto

/-- The right spine of a tree of ascending keys spells their number. -/
theorem spells_insertAll (xs : List α) :
    xs.Pairwise (fun a b => cmp a b = .right) →
      ∃ ds, Digit.value ds = xs.length ∧
        Spells ds (rightPath (xs.foldl (inlineInsert cmp) .nil) []) := by
  induction xs using reverseRecOn with
  | nil =>
    intro
    exact ⟨[], rfl, rfl⟩
  | append_singleton xs x ih =>
    intro h
    rw [pairwise_append] at h
    obtain ⟨hxs, -, hx⟩ := h
    obtain ⟨ds, hvalue, hspell⟩ := ih hxs
    have hright : ∀ q ∈ (xs.foldl (inlineInsert cmp) .nil).toList, cmp q x = .right := by
      intro q hq
      rw [mem_insertAll] at hq
      exact hx q (by simpa using hq) x (by simp)
    have hnil : (RedBlack.Tree.nil : Tree α).color = .black := rfl
    obtain ⟨Q, hQ, hinc⟩ := hspell.insert x hnil hnil
    refine ⟨Digit.inc ds, ?_, ?_⟩
    · rw [Digit.value_inc, hvalue, length_append]
      rfl
    · rw [foldl_append, foldl_cons, foldl_nil, inlineInsert,
        insertPath_eq_rightPath hright, hQ]
      exact hinc

theorem Spells.overruns (h : Spells ds path)
    (hvalue : 3 * (2 ^ 24 - 1) < Digit.value ds) : Mem.stackSize < path.length := by
  have hlevels : 25 ≤ ds.length := by
    by_contra hlt
    have hpow : 2 ^ ds.length ≤ 2 ^ 24 := Nat.pow_le_pow_right (by omega) (by omega)
    have hval := Digit.value_add_three_le ds
    omega
  have hpath := h.length
  show 48 < _
  omega

/-- **After enough nodes in order the next path is longer than the stack.** -/
theorem length_insertPath_insertAll {xs : List α}
    (h : (xs ++ [x]).Pairwise (fun a b => cmp a b = .right)) (hlen : 3 * (2 ^ 24 - 1) < xs.length) :
    Mem.stackSize < (insertPath cmp x (xs.foldl (inlineInsert cmp) .nil) []).length := by
  rw [pairwise_append] at h
  obtain ⟨hxs, -, hx⟩ := h
  obtain ⟨ds, hvalue, hspell⟩ := spells_insertAll xs hxs
  have hright : ∀ q ∈ (xs.foldl (inlineInsert cmp) .nil).toList, cmp q x = .right := by
    intro q hq
    rw [mem_insertAll] at hq
    exact hx q (by simpa using hq) x (by simp)
  rw [insertPath_eq_rightPath hright]
  exact hspell.overruns (by rw [hvalue]; exact hlen)

/-! ### The run over memory -/

section Runs

variable [DecidableEq α] {xs : List α}

/-- A run that has an end has kept within its stacks. -/
theorem admits_of_run {cmp : α → α → Direction} (hc : SortsStrictly cmp) (xs : List α) :
    ∀ {m m' : Mem α} {b : Built α}, Holds cmp m b →
      Runs.Admits Op.Legal (Built.step cmp) b (xs.map Op.insert) →
      (xs.map Op.insert).foldlM (Mem.step cmp) m = some m' →
      Runs.Admits (Op.Fits cmp) (Built.step cmp) b (xs.map Op.insert) := by
  induction xs with
  | nil =>
    intro m m' b _ _ _
    trivial
  | cons x xs ih =>
    intro m m' b h hlegal hrun
    rw [map_cons] at hlegal hrun ⊢
    obtain ⟨hx, hrest⟩ := hlegal
    have hfits : (Op.insert x).Fits cmp b := by
      refine ⟨hx, ?_⟩
      by_contra hdeep
      have hnone : m.step cmp (.insert x) = none :=
        inlineInsert_overrun cmp h.rep h.inv.tree.nodup (Nat.lt_of_not_le hdeep)
      rw [foldlM_cons, hnone] at hrun
      simp at hrun
    obtain ⟨m1, hstep, h1⟩ := h.step hc hfits
    rw [foldlM_cons, hstep] at hrun
    exact ⟨hfits, ih h1 hrest hrun⟩

theorem tree_insertAll (cmp : α → α → Direction) (xs : List α) : ∀ b : Built α,
    ((xs.map Op.insert).foldl (Built.step cmp) b).tree = xs.foldl (inlineInsert cmp) b.tree := by
  induction xs with
  | nil =>
    intro b
    rfl
  | cons x xs ih =>
    intro b
    rw [map_cons, foldl_cons, ih]
    rfl

theorem legal_insertAll (cmp : α → α → Direction) :
    ∀ {b : Built α}, xs.Nodup → (∀ x ∈ xs, x ∉ b.live) →
      Runs.Admits Op.Legal (Built.step cmp) b (xs.map Op.insert) := by
  induction xs with
  | nil =>
    intro b _ _
    trivial
  | cons x xs ih =>
    intro b hnd hb
    rw [nodup_cons] at hnd
    refine ⟨hb x (by simp), ih hnd.2 ?_⟩
    intro y hy
    rw [Built.step, Finset.mem_insert]
    rintro (rfl | hyb)
    · exact hnd.1 hy
    · exact hb y (by simp [hy]) hyb

theorem run_insertAll_eq_none {cmp : α → α → Direction} (hc : SortsStrictly cmp) (h : α → Node α)
    {x : α} (hnd : (xs ++ [x]).Nodup)
    (hord : (xs ++ [x]).Pairwise (fun a b => cmp a b = .right))
    (hlen : 3 * (2 ^ 24 - 1) < xs.length) :
    ((xs ++ [x]).map Op.insert).foldlM (Mem.step cmp) ⟨none, h⟩ = none := by
  cases hrun : ((xs ++ [x]).map Op.insert).foldlM (Mem.step cmp) ⟨none, h⟩ with
  | none => rfl
  | some m =>
    have hlegal := legal_insertAll cmp (b := .empty) hnd (by simp [Built.empty])
    have hstart : Holds cmp ⟨none, h⟩ (.empty : Built α) := ⟨rfl, Built.inv_empty cmp⟩
    have hfits := admits_of_run hc (xs ++ [x]) hstart hlegal hrun
    rw [map_append, Runs.admits_append] at hfits
    have hdepth : (insertPath cmp x
        ((xs.map Op.insert).foldl (Built.step cmp) .empty).tree []).length ≤ Mem.stackSize :=
      hfits.2.1.2
    rw [tree_insertAll] at hdepth
    have hlong := length_insertPath_insertAll hord hlen
    exact absurd hdepth (Nat.not_le_of_lt hlong)

end Runs

/-- The numbers below `n` inserted in increasing order; never unfolded for a large `n`. -/
@[irreducible] def ascending (n : Nat) : List (Op Nat) := (List.range n).map Op.insert

theorem legal_ascending (n : Nat) :
    Runs.Admits Op.Legal (Built.step natCmp) .empty (ascending n) := by
  rw [ascending]
  exact legal_insertAll natCmp nodup_range (by simp [Built.empty])

theorem run_ascending (n : Nat) (hn : 3 * (2 ^ 24 - 1) < n) (h : Nat → Node Nat) :
    (ascending (n + 1)).foldlM (Mem.step natCmp) ⟨none, h⟩ = none := by
  have hsplit : range (n + 1) = range n ++ [n] := range_succ
  rw [ascending, hsplit]
  refine run_insertAll_eq_none (sortsStrictly_of_order natCmp_order) h ?_ ?_ ?_
  · rw [← hsplit]
    exact nodup_range
  · rw [← hsplit]
    refine pairwise_lt_range.imp ?_
    intro a b hab
    rw [natCmp, if_neg (by omega)]
  · rw [length_range]
    exact hn

/-- Inserting `0, 1, 2, ...` in this order, the call for `50331646` pushes a 49th entry. -/
theorem ascending_overruns :
    IsStrictTotalOrder Nat (Before natCmp) ∧
      Runs.Admits Op.Legal (Built.step natCmp) .empty (ascending 50331647) ∧
      (ascending 50331647).foldlM (Mem.step natCmp) ⟨none, fun _ => ⟨fun _ => none, .red⟩⟩ = none ∧
      ¬ ∃ m t, (ascending 50331647).foldlM (Mem.step natCmp)
          ⟨none, fun _ => ⟨fun _ => none, .red⟩⟩ = some m ∧ Rep m.node t m.root ∧
        t.toList.Nodup ∧ IsRedBlack t ∧ t.SearchTree natCmp ∧
        ∀ x, x ∈ t.toList ↔ x ∈ ((ascending 50331647).foldl (Built.step natCmp) .empty).live := by
  have hnone : (ascending 50331647).foldlM (Mem.step natCmp)
      ⟨none, fun _ => ⟨fun _ => none, .red⟩⟩ = none :=
    run_ascending 50331646 (by omega) (fun _ => ⟨fun _ => none, .red⟩)
  refine ⟨natCmp_order, legal_ascending 50331647, hnone, ?_⟩
  rintro ⟨m, t, hrun, -⟩
  rw [hnone] at hrun
  simp at hrun

end Eina.Rbtree
