/-
Trees of nodes with distinct integer keys.

Many trees of this library are sorted by a number the nodes carry, or by their
addresses, and no two nodes of one tree have the same.  `Keyed key t` says so.  Under
it the calls do what one expects of a set: an insertion adds one node, a removal takes
one out, and a lookup finds the node its callback answers 0 for, as long as the
callback's other answers point to the side the node is on.
-/
import Efl.Eina.Rbtree.Bounded

namespace Eina.Rbtree

open RedBlack

variable {α : Type}

/-- A comparison of nodes by their keys. -/
def byKey (key : α → Int) (left right : α) : Direction :=
  if key left < key right then .left else .right

theorem byKey_eq_left {key : α → Int} {a b : α} : byKey key a b = .left ↔ key a < key b := by
  unfold byKey
  split <;> simp_all

theorem byKey_eq_right {key : α → Int} {a b : α} : byKey key a b = .right ↔ key b ≤ key a := by
  unfold byKey
  split
  · simp only [reduceCtorEq, false_iff]
    omega
  · simp only [true_iff]
    omega

theorem sorts_byKey (key : α → Int) : Sorts (byKey key) := by
  refine ⟨?_, ?_⟩
  · intro a b _ hab
    rw [byKey_eq_left] at hab
    rw [byKey_eq_right]
    omega
  · intro a b c hab hbc
    rw [byKey_eq_right] at hab hbc ⊢
    omega

/-- A tree sorted by a key that tells its nodes apart. -/
structure Keyed (key : α → Int) (t : Tree α) : Prop where
  tree : IsTree (byKey key) t
  inj : ∀ a ∈ t.toList, ∀ b ∈ t.toList, key a = key b → a = b

theorem Keyed.nil (key : α → Int) : Keyed key .nil :=
  ⟨IsTree.nil _, by simp⟩

variable {key key' : α → Int} {t : Tree α} {x : α}

theorem Keyed.searchTree (h : Keyed key t) : t.SearchTree (byKey key) := by
  refine h.tree.ordered.searchTree ?_ h.tree.nodup
  intro a ha b hb hne hab
  rw [byKey_eq_right] at hab
  rw [byKey_eq_left]
  have hkey : key a ≠ key b := fun heq => hne (h.inj a ha b hb heq)
  omega

theorem Keyed.congr (h : Keyed key t) (heq : ∀ a ∈ t.toList, key' a = key a) : Keyed key' t := by
  refine ⟨h.tree.congr ?_, ?_⟩
  · intro a ha b hb
    rw [byKey, byKey, heq a ha, heq b hb]
  · intro a ha b hb hab
    rw [heq a ha, heq b hb] at hab
    exact h.inj a ha b hb hab

/-! ### The calls -/

theorem Keyed.insert (h : Keyed key t) (hx : ∀ a ∈ t.toList, key a ≠ key x) :
    Keyed key (inlineInsert (byKey key) t x) := by
  refine ⟨h.tree.insert (sorts_byKey key) (fun hm => hx x hm rfl), ?_⟩
  intro a ha b hb hab
  rw [mem_inlineInsert] at ha hb
  rcases ha with rfl | ha
  · rcases hb with rfl | hb
    · rfl
    · exact absurd hab.symm (hx b hb)
  · rcases hb with rfl | hb
    · exact absurd hab (hx a ha)
    · exact h.inj a ha b hb hab

theorem Keyed.mem_remove [DecidableEq α] (h : Keyed key t) (x y : α) :
    y ∈ (inlineRemove (byKey key) t x).toList ↔ y ≠ x ∧ y ∈ t.toList :=
  mem_inlineRemove h.tree.nodup h.searchTree y

theorem Keyed.remove [DecidableEq α] (h : Keyed key t) (x : α) :
    Keyed key (inlineRemove (byKey key) t x) := by
  refine ⟨h.tree.remove x, ?_⟩
  intro a ha b hb hab
  exact h.inj a ((h.mem_remove x a).mp ha).2 b ((h.mem_remove x b).mp hb).2 hab

theorem Keyed.lookup_eq_some [DecidableEq α] {f : α → Int} (h : Keyed key t) (hx : x ∈ t.toList)
    (h0 : f x = 0)
    (hside : ∀ q ∈ t.toList, (f q < 0 → key q < key x) ∧ (0 < f q → key x < key q))
    (honly : ∀ q ∈ t.toList, f q = 0 → q = x) : inlineLookup f t = some x := by
  have hsome := inlineLookup_isSome_of_ordered h.tree.ordered hx h0 (fun q hq =>
    ⟨fun hlt => byKey_eq_left.mpr ((hside q hq).1 hlt),
      fun hgt => byKey_eq_left.mpr ((hside q hq).2 hgt)⟩)
  obtain ⟨y, hy⟩ := Option.isSome_iff_exists.mp hsome
  obtain ⟨hym, hy0⟩ := inlineLookup_some hy
  rw [hy, honly y hym hy0]

theorem Keyed.lookup_key_iff [DecidableEq α] (h : Keyed key t) (k : Int) :
    inlineLookup (fun a => key a - k) t = some x ↔ x ∈ t.toList ∧ key x = k := by
  constructor
  · intro hfound
    obtain ⟨hx, h0⟩ := inlineLookup_some hfound
    exact ⟨hx, by omega⟩
  · rintro ⟨hx, rfl⟩
    refine h.lookup_eq_some hx (by omega) ?_ ?_
    · intro q _
      exact ⟨fun hlt => by omega, fun hgt => by omega⟩
    · intro q hq h0
      exact h.inj q hq x hx (by omega)

/-! ### Few keys -/

theorem Keyed.height_le (h : Keyed key t) {n : Nat} (hn : n + 1 < 2 ^ 25)
    (hkey : ∀ a ∈ t.toList, 0 ≤ key a ∧ key a < n) : t.height ≤ Mem.stackSize := by
  refine h.tree.height_le ?_
  have hnd : (t.toList.map fun a => (key a).toNat).Nodup := by
    refine List.Nodup.map_on ?_ h.tree.nodup
    intro a ha b hb hab
    have ha0 := (hkey a ha).1
    have hb0 := (hkey b hb).1
    exact h.inj a ha b hb (by omega)
  have hsub : (t.toList.map fun a => (key a).toNat) ⊆ List.range n := by
    intro k hk
    obtain ⟨a, ha, rfl⟩ := List.mem_map.mp hk
    have := hkey a ha
    rw [List.mem_range]
    omega
  have hlen := (List.subperm_of_subset hnd hsub).length_le
  rw [List.length_map, List.length_range] at hlen
  omega

end Eina.Rbtree
