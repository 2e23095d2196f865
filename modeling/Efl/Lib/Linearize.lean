/-
Linearizing an acyclic graph: a depth first walk that lists what it meets, of whose
repetitions only the last ones stay.

A walk writes a node before all that follows it in the graph.  So every node it lists is
followed, at every place it is listed at, by each of its successors; and that is kept when all
but the last place of each node are dropped.  What is left is a topological order of the nodes
that can be reached, which ends in the order of the node that was walked last.
-/
import Mathlib.Data.List.Dedup
import Mathlib.Logic.Relation

namespace Linearize

open List

variable {α : Type}

/-- A graph whose edges go down. -/
structure Graph (α : Type) where
  succ : α → List α
  rank : α → Nat
  descends : ∀ a, ∀ b ∈ succ a, rank b < rank a

namespace Graph

variable {g g' : Graph α} {a b c : α}

/-- The walk from a node. -/
def walk (g : Graph α) (a : α) : List α :=
  a :: (g.succ a).attach.flatMap fun b => g.walk b.1
  termination_by g.rank a
  decreasing_by exact g.descends a b.1 b.2

theorem walk_eq (g : Graph α) (a : α) : g.walk a = a :: (g.succ a).flatMap g.walk := by
  rw [walk]
  rw [flatMap_subtype fun _ _ => rfl, unattach_attach]

theorem rise {P : α → Prop} (g : Graph α) (h : ∀ a, (∀ b ∈ g.succ a, P b) → P a) : ∀ a, P a := by
  intro a
  induction hn : g.rank a using Nat.strongRecOn generalizing a with
  | ind n ih =>
    refine h a ?_
    intro b hb
    exact ih (g.rank b) (hn ▸ g.descends a b hb) b rfl

def Edge (g : Graph α) (a b : α) : Prop := b ∈ g.succ a

theorem mem_walk : b ∈ g.walk a ↔ Relation.ReflTransGen g.Edge a b := by
  induction a using g.rise with
  | h a ih =>
    rw [walk_eq, mem_cons, mem_flatMap]
    constructor
    · rintro (rfl | ⟨c, hc, hb⟩)
      · exact Relation.ReflTransGen.refl
      · exact Relation.ReflTransGen.head hc ((ih c hc).mp hb)
    · intro h
      rcases Relation.ReflTransGen.cases_head h with rfl | ⟨c, hc, hb⟩
      · exact .inl rfl
      · exact .inr ⟨c, hc, (ih c hc).mpr hb⟩

theorem rank_of_mem_walk (h : b ∈ (g.succ a).flatMap g.walk) : g.rank b < g.rank a := by
  induction a using g.rise with
  | h a ih =>
    obtain ⟨c, hc, hb⟩ := mem_flatMap.mp h
    have hdown := g.descends a c hc
    rw [walk_eq, mem_cons] at hb
    rcases hb with rfl | hb
    · exact hdown
    · exact Nat.lt_trans (ih c hc hb) hdown

theorem walk_congr (hsucc : ∀ b, g.rank b ≤ g.rank a → g'.succ b = g.succ b) :
    g'.walk a = g.walk a := by
  induction a using g.rise with
  | h a ih =>
    rw [walk_eq, walk_eq, hsucc a (Nat.le_refl _)]
    congr 1
    refine flatMap_congr ?_
    intro b hb
    refine ih b hb ?_
    intro c hc
    exact hsucc c (Nat.le_trans hc (Nat.le_of_lt (g.descends a b hb)))

end Graph

/-! ### Lists in which nodes are followed by others -/

/-- Wherever `a` stands in the list, `b` stands behind it. -/
def Follows (l : List α) (a b : α) : Prop := ∀ s t, l = s ++ a :: t → b ∈ t

variable {x a b : α} {l : List α}

theorem Follows.tail (h : Follows (x :: l) a b) : Follows l a b := by
  intro s t hl
  exact h (x :: s) t (by rw [hl]; rfl)

theorem follows_cons (hl : Follows l a b) (hx : x = a → b ∈ l) :
    Follows (x :: l) a b := by
  intro s t h
  cases s with
  | nil =>
    obtain ⟨rfl, rfl⟩ := cons.inj h
    exact hx rfl
  | cons y s => exact hl s t (cons.inj h).2

variable {l' : List α}

theorem follows_append (hl : Follows l a b) (hl' : Follows l' a b) :
    Follows (l ++ l') a b := by
  intro s t h
  rcases append_eq_append_iff.mp h with ⟨u, rfl, hu⟩ | ⟨u, hu, ht⟩
  · exact hl' u t hu
  cases u with
  | nil =>
    exact hl' [] t ht.symm
  | cons y u =>
    obtain ⟨rfl, rfl⟩ := cons.inj ht
    exact mem_append_left _ (hl s u hu)

theorem follows_flatMap {β : Type} {f : β → List α} {xs : List β}
    (h : ∀ x ∈ xs, Follows (f x) a b) :
    Follows (xs.flatMap f) a b := by
  induction xs with
  | nil =>
    intro s t h'
    simp at h'
  | cons x xs ih =>
    exact follows_append (h x mem_cons_self)
      (ih fun y hy => h y (mem_cons_of_mem _ hy))

theorem follows_of_notMem (ha : a ∉ l') (hb : b ∈ l') :
    Follows (l ++ l') a b := by
  intro s t h
  rcases append_eq_append_iff.mp h with ⟨u, rfl, hu⟩ | ⟨u, -, ht⟩
  · exact absurd (hu ▸ mem_append_right u mem_cons_self) ha
  cases u with
  | nil =>
    rw [nil_append] at ht
    exact absurd (ht ▸ mem_cons_self) ha
  | cons y u =>
    obtain ⟨-, rfl⟩ := cons.inj ht
    exact mem_append_right u hb

theorem Graph.follows_walk {g : Graph α} (h : g.Edge a b) (c : α) :
    Follows (g.walk c) a b := by
  induction c using g.rise with
  | h c ih =>
    rw [walk_eq]
    refine follows_cons (follows_flatMap ih) ?_
    rintro rfl
    exact mem_flatMap.mpr ⟨b, h, by rw [walk_eq]; exact mem_cons_self⟩

/-! ### Only the last of each node stays -/

variable [DecidableEq α]

/-- The first of two elements stands before the second one. -/
def Precedes (l : List α) (a b : α) : Prop := l.idxOf a < l.idxOf b ∧ b ∈ l

theorem precedes_cons (hb : b ≠ x) (h : a = x ∧ b ∈ l ∨ Precedes l a b) :
    Precedes (x :: l) a b := by
  rcases h with ⟨rfl, hmem⟩ | ⟨hlt, hmem⟩
  · refine ⟨?_, mem_cons_of_mem _ hmem⟩
    rw [idxOf_cons_self, idxOf_cons_ne _ (symm hb)]
    exact Nat.succ_pos _
  · refine ⟨?_, mem_cons_of_mem _ hmem⟩
    rw [idxOf_cons_ne _ (symm hb)]
    by_cases ha : a = x
    · rw [ha, idxOf_cons_self]
      exact Nat.succ_pos _
    · rw [idxOf_cons_ne _ (symm ha)]
      exact Nat.succ_lt_succ hlt

theorem precedes_dedup (h : Follows l a b) (ha : a ∈ l) :
    Precedes l.dedup a b := by
  induction l with
  | nil => simp at ha
  | cons x l ih =>
    have htail := h.tail
    by_cases hx : x ∈ l
    · rw [dedup_cons_of_mem hx]
      refine ih htail ?_
      rcases mem_cons.mp ha with rfl | ha
      · exact hx
      · exact ha
    · rw [dedup_cons_of_notMem hx]
      rcases mem_cons.mp ha with rfl | hal
      · have hb : b ∈ l := h [] l rfl
        have hne : b ≠ a := by
          rintro rfl
          exact hx hb
        exact precedes_cons hne (.inl ⟨rfl, mem_dedup.mpr hb⟩)
      · have hrest := ih htail hal
        have hne : b ≠ x := by
          rintro rfl
          exact hx (mem_dedup.mp hrest.2)
        exact precedes_cons hne (.inr hrest)

/-- The walk without repetitions. -/
def Graph.order (g : Graph α) (a : α) : List α := (g.walk a).dedup

namespace Graph

variable {g : Graph α} {a b c : α}

theorem order_eq (g : Graph α) (a : α) :
    g.order a = a :: ((g.succ a).flatMap g.walk).dedup := by
  rw [order, walk_eq, dedup_cons_of_notMem]
  intro h
  exact absurd (rank_of_mem_walk h) (Nat.lt_irrefl _)

theorem nodup_order (g : Graph α) (a : α) : (g.order a).Nodup := nodup_dedup _

theorem mem_order : b ∈ g.order a ↔ Relation.ReflTransGen g.Edge a b := by
  rw [order, mem_dedup, mem_walk]

/-- **The order is topological.** -/
theorem precedes_order (hb : b ∈ g.order a) (h : g.Edge b c) : Precedes (g.order a) b c :=
  precedes_dedup (follows_walk h a) (mem_dedup.mp hb)

theorem order_suffix {l : List α} (h : g.succ a = l ++ [b]) :
    g.order b <:+ g.order a := by
  rw [order, order, walk_eq g a, h, flatMap_append, flatMap_cons, flatMap_nil,
    append_nil, ← cons_append, dedup_append]
  exact suffix_union_right _ _

end Graph

/-! ### Walks one after the other -/

theorem precedes_append (ha : a ∉ l) (hb : b ∉ l) :
    Precedes (l ++ l') a b ↔ Precedes l' a b := by
  unfold Precedes
  rw [idxOf_append_of_notMem ha, idxOf_append_of_notMem hb, mem_append,
    or_iff_right hb, Nat.add_lt_add_iff_left]

/-- Walks are listed one after the other, with some list `w` at the end, and only the last place
of each node stays.  Where the start of a walk is not met by a later one, the starts stay in order
unless `w` says otherwise. -/
theorem precedes_walks {f : α → List α} (hself : ∀ a, a ∈ f a) {starts w : List α}
    (happart : starts.Pairwise fun a b => a ∉ f b) :
    starts.Pairwise (Precedes (starts.flatMap f ++ w).dedup) ↔
      starts.Pairwise fun a b => a ∉ w ∨ Precedes w.dedup a b := by
  obtain ⟨u, hu⟩ : ∃ u, u ++ w.dedup = (starts.flatMap f ++ w).dedup := by
    rw [dedup_append]
    exact suffix_union_right _ _
  have hnodup : (u ++ w.dedup).Nodup := hu ▸ nodup_dedup _
  have hapart : ∀ x ∈ w, x ∉ u := fun x hx hxu =>
    disjoint_of_nodup_append hnodup hxu (mem_dedup.mpr hx)
  rw [pairwise_iff_getElem, pairwise_iff_getElem]
  refine forall₅_congr fun i j hi hj hij => ?_
  rw [pairwise_iff_getElem] at happart
  have hsplit : starts = (starts.take (i + 1)) ++ starts.drop (i + 1) :=
    (take_append_drop _ _).symm
  have hbehind : starts[j] ∈ starts.drop (i + 1) := by
    refine mem_iff_getElem.mpr ⟨j - (i + 1), ?_, ?_⟩
    · rw [length_drop]
      omega
    · rw [getElem_drop]
      congr 1
      omega
  by_cases ha : starts[i] ∈ w
  · rw [or_iff_right (not_not.mpr ha), ← hu]
    by_cases hb : starts[j] ∈ w
    · exact precedes_append (hapart _ ha) (hapart _ hb)
    refine iff_of_false ?_ fun h => hb (mem_dedup.mp h.2)
    rintro ⟨hlt, hmem⟩
    have hbu : starts[j] ∈ u :=
      (mem_append.mp hmem).resolve_right fun h => hb (mem_dedup.mp h)
    rw [idxOf_append_of_notMem (hapart _ ha), idxOf_append_of_mem hbu] at hlt
    have := idxOf_lt_length_of_mem hbu
    omega
  · refine iff_of_true (precedes_dedup ?_ ?_) (.inl ha)
    · have hlater : starts[i] ∉ (starts.drop (i + 1)).flatMap f ++ w := by
        intro hmem
        refine ha ((mem_append.mp hmem).resolve_left fun h => ?_)
        obtain ⟨m, hm, hmem⟩ := mem_flatMap.mp h
        obtain ⟨n, hn, rfl⟩ := mem_iff_getElem.mp hm
        rw [length_drop] at hn
        rw [getElem_drop] at hmem
        exact happart i (i + 1 + n) hi (by omega) (by omega) hmem
      rw [show starts.flatMap f ++ w = (starts.take (i + 1)).flatMap f ++
        ((starts.drop (i + 1)).flatMap f ++ w) by
          rw [← append_assoc, ← flatMap_append, ← hsplit]]
      exact follows_of_notMem hlater
        (mem_append_left _ (mem_flatMap.mpr ⟨_, hbehind, hself _⟩))
    · exact mem_append_left _
        (mem_flatMap.mpr ⟨_, getElem_mem hi, hself _⟩)

end Linearize
