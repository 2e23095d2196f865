/-
Deleting an element keeps the invariant, when the removal meets it.

`eina_rbtree_inline_remove` is asked to remove an element that was found by other
means.  It follows the comparison of keys from the root and leaves the tree alone
when it does not meet the element, that is, when the element is shadowed by one
with the same key.  `_eina_hash_del_by_hash_el` subtracts and frees the element in
either case.
-/
import Efl.Eina.Hash.Add

namespace Eina.Hash

open RedBlack Rbtree Option Function Finset

variable {Key Data : Type} {cb : Callbacks Key} {h : Hash Key Data} {s : Finset Addr}
  {a e : Addr} {b : Nat → Tree Addr} {num : Nat}

/-- The hash with the element `e` out of the tree below the head `a`. -/
def withoutElement (cb : Callbacks Key) (h : Hash Key Data) (a e : Addr) : Hash Key Data :=
  { h with head := update h.head a { h.head a with
      head := inlineRemove (cmpKeyNode cb h.element) (h.head a).head e } }

theorem withoutElement_hash (x : Addr) :
    ((withoutElement cb h a e).head x).hash = (h.head x).hash := by
  by_cases hx : x = a
  · subst hx
    simp [withoutElement]
  · simp [withoutElement, hx]

theorem withoutElement_head {x : Addr} (hx : x ≠ a) :
    (withoutElement cb h a e).head x = h.head x := by
  simp [withoutElement, hx]

theorem withoutElement_head_self : ((withoutElement cb h a e).head a).head =
    inlineRemove (cmpKeyNode cb h.element) (h.head a).head e := by
  simp [withoutElement]

theorem linking_withoutElement (hl : Linking cb h b) (a e : Addr) :
    Linking cb (withoutElement cb h a e) b := by
  refine ⟨?_, ?_, hl.apart, ?_⟩
  · intro i
    refine (hl.tree i).congr ?_
    intro x _ y _
    rw [cmpHashNode, cmpHashNode, withoutElement_hash, withoutElement_hash]
  · intro i x hx y hy heq
    rw [withoutElement_hash, withoutElement_hash] at heq
    exact hl.strict i x hx y hy heq
  · intro i x hx
    have hok := hl.heads i x hx
    by_cases hxa : x = a
    · subst hxa
      have hsub : ∀ y ∈ ((withoutElement cb h x e).head x).head.toList,
          y ∈ (h.head x).head.toList := by
        intro y hy
        rw [withoutElement_head_self] at hy
        exact (sublist_inlineRemove _ _ _).subset hy
      refine ⟨?_, ?_, hok.alloc, fun y hy => hok.elements y (hsub y hy)⟩
      · rw [withoutElement_head_self]
        exact hok.tree.remove e
      · intro y hy
        rw [withoutElement_hash]
        exact hok.hash y (hsub y hy)
    · exact hok.mono (withoutElement_head hxa) (fun _ _ => rfl) rfl hok.alloc hok.elements

/-! ### The head -/

/-- The hash with the head `a` out of bucket `num` of `b`. -/
def withoutHead (h : Hash Key Data) (b : Nat → Tree Addr) (num : Nat) (a : Addr) : Hash Key Data :=
  { h with
    buckets := some (update b num (inlineRemove (cmpHashNode h.head) (b num) a))
    freedHeads := insert a h.freedHeads }

theorem mem_withoutHead (hl : Linking cb h b) (ha : a ∈ (b num).toList) (i : Nat) (x : Addr) :
    x ∈ (update b num (inlineRemove (cmpHashNode h.head) (b num) a) i).toList ↔
      x ≠ a ∧ x ∈ (b i).toList := by
  by_cases hi : i = num
  · subst hi
    rw [update_self]
    exact mem_inlineRemove (hl.tree i).nodup (bucket_searchTree hl i) x
  rw [update_of_ne hi]
  constructor
  · intro hx
    refine ⟨?_, hx⟩
    rintro rfl
    exact hi (hl.apart i num x hx ha)
  · intro hx
    exact hx.2

theorem linking_withoutHead (hl : Linking cb h b) (ha : a ∈ (b num).toList) :
    Linking cb (withoutHead h b num a)
      (update b num (inlineRemove (cmpHashNode h.head) (b num) a)) := by
  have hmem := mem_withoutHead hl ha
  refine ⟨?_, ?_, ?_, ?_⟩
  · intro i
    by_cases hi : i = num
    · subst hi
      rw [update_self]
      exact (hl.tree i).remove a
    · rw [update_of_ne hi]
      exact hl.tree i
  · intro i x hx y hy heq
    exact hl.strict i x ((hmem i x).mp hx).2 y ((hmem i y).mp hy).2 heq
  · intro i j x hx hy
    exact hl.apart i j x ((hmem i x).mp hx).2 ((hmem j x).mp hy).2
  · intro i x hx
    obtain ⟨hne, hxb⟩ := (hmem i x).mp hx
    have hok := hl.heads i x hxb
    refine hok.mono rfl (fun _ _ => rfl) rfl ⟨hok.alloc.1, ?_⟩ hok.elements
    intro hfreed
    rcases mem_insert.mp hfreed with hxa | hxf
    · exact hne hxa
    · exact hok.alloc.2 hxf

/-! ### The element is forgotten -/

/-- A hash whose bucket array is in order and whose heads are filled by `s`. -/
structure Filled (cb : Callbacks Key) (h : Hash Key Data) (s : Finset Addr)
    (b : Nat → Tree Addr) : Prop where
  power : h.bucketsPowerSize ≤ 16
  buckets : h.buckets = some b
  linking : Linking cb h b
  filled : ∀ num, ∀ a ∈ (b num).toList, (h.head a).head ≠ .nil
  linked : ∀ e, e ∈ s ↔ ∃ num, ∃ a ∈ (b num).toList, e ∈ (h.head a).head.toList
  freed : ∀ a, a ∈ h.freedHeads ∨ a ∈ h.freedElements → a < h.next

theorem Filled.forget (hf : Filled cb h s b) (hpop : h.population = s.card + 1) (he : e ∉ s)
    (hlt : e < h.next) : Inv cb (h.forget e) s := by
  have hpop' : h.population - 1 = s.card := by omega
  have hfreed : ∀ x, x ∈ (h.forget e).freedHeads ∨ x ∈ (h.forget e).freedElements →
      x < (h.forget e).next := by
    rintro x (hx | hx)
    · exact hf.freed x (.inl hx)
    rcases mem_insert.mp hx with rfl | hx
    · exact hlt
    · exact hf.freed x (.inr hx)
  have hlink : Linking cb (h.forget e) b := by
    refine ⟨hf.linking.tree, hf.linking.strict, hf.linking.apart, ?_⟩
    intro num x hx
    have hok := hf.linking.heads num x hx
    refine hok.mono rfl (fun _ _ => rfl) rfl hok.alloc ?_
    intro y hy
    refine ⟨(hok.elements y hy).1, ?_⟩
    intro hfree
    rcases mem_insert.mp hfree with rfl | hfree
    · exact he ((hf.linked y).mpr ⟨num, x, hx, hy⟩)
    · exact (hok.elements y hy).2 hfree
  by_cases hzero : s.card = 0
  · -- the last element takes the bucket array with it
    obtain rfl := card_eq_zero.mp hzero
    have hnone : (h.forget e).buckets = none := by
      rw [Hash.forget]
      simp only [hpop', hzero, if_true]
    refine ⟨hf.power, ?_, ?_, ?_, hpop', by simp [hnone], hfreed⟩
    · intro b' hb'
      rw [hnone] at hb'
      simp at hb'
    · intro b' hb'
      rw [hnone] at hb'
      simp at hb'
    · simp [Linked, hnone]
  · have hsome : (h.forget e).buckets = some b := by
      rw [Hash.forget]
      simp only [hpop', hzero]
      exact hf.buckets
    have heq : ∀ b', (h.forget e).buckets = some b' → b' = b := by
      intro b' hb'
      rw [hsome] at hb'
      exact (some.inj hb').symm
    refine ⟨hf.power, ?_, ?_, ?_, hpop', ?_, hfreed⟩
    · intro b' hb'
      rw [heq b' hb']
      exact hlink
    · intro b' hb'
      rw [heq b' hb']
      exact hf.filled
    · intro x
      rw [hf.linked]
      constructor
      · intro hx
        exact ⟨b, hsome, hx⟩
      · rintro ⟨b', hb', hx⟩
        rw [heq b' hb'] at hx
        exact hx
    · rw [hsome]
      constructor
      · intro hn
        simp at hn
      · intro hs
        rw [hs] at hzero
        exact absurd rfl hzero

/-- What a deletion does to a hash whose linked elements are those of `s`. -/
structure Deleted (cb : Callbacks Key) (h h' : Hash Key Data) (s : Finset Addr) (e : Addr) :
    Prop where
  inv : Inv cb h' (s.erase e)
  element : h'.element = h.element
  freed : h'.freedElements = insert e h.freedElements

theorem notMem_of_ne (hl : Linking cb h b) (ha : a ∈ (b num).toList)
    (he : e ∈ (h.head a).head.toList) {i : Nat} {x : Addr} (hx : x ∈ (b i).toList) (hxa : x ≠ a) :
    e ∉ (h.head x).head.toList := by
  intro hex
  obtain ⟨h1, h2⟩ := (hl.heads i x hx).hash e hex
  obtain ⟨h3, h4⟩ := (hl.heads num a ha).hash e he
  obtain rfl : i = num := by rw [← h1, h3]
  exact hxa (hl.strict i x hx a ha (by rw [← h2, h4]))

theorem linked_withoutElement (hi : Inv cb h s) (hb : h.buckets = some b)
    (ha : a ∈ (b num).toList) (he : e ∈ (h.head a).head.toList)
    (hshadow : ¬ Shadowed (cmpKeyNode cb h.element) e (h.head a).head) (x : Addr) :
    x ∈ s.erase e ↔ ∃ i, ∃ y ∈ (b i).toList,
      x ∈ ((withoutElement cb h a e).head y).head.toList := by
  have hl := hi.linking b hb
  have htree := (hl.heads num a ha).tree
  have hmem := mem_inlineRemove_of_isSome htree.nodup
    ((removePath_isSome_iff [] htree.nodup htree.ordered he).mpr hshadow)
  rw [← withoutElement_head_self] at hmem
  rw [mem_erase, hi.linked]
  constructor
  · rintro ⟨hxe, b', hb', i, y, hy, hxy⟩
    rw [hb] at hb'
    obtain rfl := some.inj hb'
    refine ⟨i, y, hy, ?_⟩
    by_cases hya : y = a
    · subst hya
      exact (hmem x).mpr ⟨hxe, hxy⟩
    · rw [withoutElement_head hya]
      exact hxy
  · rintro ⟨i, y, hy, hxy⟩
    by_cases hya : y = a
    · subst hya
      obtain ⟨hxe, hx⟩ := (hmem x).mp hxy
      exact ⟨hxe, b, hb, i, y, hy, hx⟩
    · rw [withoutElement_head hya] at hxy
      refine ⟨?_, b, hb, i, y, hy, hxy⟩
      rintro rfl
      exact notMem_of_ne hl ha he hy hya hxy

theorem filled_withoutHead (hi : Inv cb h s) (hb : h.buckets = some b) (ha : a ∈ (b num).toList)
    (he : e ∈ (h.head a).head.toList)
    (hshadow : ¬ Shadowed (cmpKeyNode cb h.element) e (h.head a).head)
    (hnil : inlineRemove (cmpKeyNode cb h.element) (h.head a).head e = .nil) :
    Filled cb (withoutHead (withoutElement cb h a e) b num a) (s.erase e)
      (update b num
        (inlineRemove (cmpHashNode (withoutElement cb h a e).head) (b num) a)) := by
  have hl := hi.linking b hb
  have hl1 := linking_withoutElement hl a e
  have hmem := mem_withoutHead hl1 ha
  refine ⟨hi.power, rfl, linking_withoutHead hl1 ha, ?_, ?_, ?_⟩
  · intro i x hx
    obtain ⟨hxa, hxb⟩ := (hmem i x).mp hx
    show ((withoutElement cb h a e).head x).head ≠ .nil
    rw [withoutElement_head hxa]
    exact hi.filled b hb i x hxb
  · intro x
    rw [linked_withoutElement hi hb ha he hshadow]
    constructor
    · rintro ⟨i, y, hy, hxy⟩
      refine ⟨i, y, (hmem i y).mpr ⟨?_, hy⟩, hxy⟩
      rintro rfl
      rw [withoutElement_head_self, hnil] at hxy
      simp at hxy
    · rintro ⟨i, y, hy, hxy⟩
      exact ⟨i, y, ((hmem i y).mp hy).2, hxy⟩
  · rintro x (hx | hx)
    · rcases mem_insert.mp hx with rfl | hx
      · exact (hl.heads num x ha).alloc.1
      · exact hi.freed x (.inl hx)
    · exact hi.freed x (.inr hx)

theorem filled_withoutElement (hi : Inv cb h s) (hb : h.buckets = some b)
    (ha : a ∈ (b num).toList) (he : e ∈ (h.head a).head.toList)
    (hshadow : ¬ Shadowed (cmpKeyNode cb h.element) e (h.head a).head)
    (hnil : inlineRemove (cmpKeyNode cb h.element) (h.head a).head e ≠ .nil) :
    Filled cb (withoutElement cb h a e) (s.erase e) b := by
  refine ⟨hi.power, hb, linking_withoutElement (hi.linking b hb) a e, ?_,
    linked_withoutElement hi hb ha he hshadow, hi.freed⟩
  intro i x hx
  by_cases hxa : x = a
  · subst hxa
    rw [withoutElement_head_self]
    exact hnil
  · rw [withoutElement_head hxa]
    exact hi.filled b hb i x hx

/-- **`_eina_hash_del_by_hash_el` unlinks an element that is not shadowed.** -/
theorem delByHashEl_spec (hi : Inv cb h s) (hb : h.buckets = some b) (ha : a ∈ (b num).toList)
    (he : e ∈ (h.head a).head.toList) {keyHash : BitVec 32} (hnum : h.hashNum keyHash = num)
    (hshadow : ¬ Shadowed (cmpKeyNode cb h.element) e (h.head a).head)
    (hdepth : removeDepth (cmpKeyNode cb h.element) e (h.head a).head ≤ Mem.stackSize) :
    ∃ h', h.delByHashEl cb e a keyHash = some h' ∧ Deleted cb h h' s e := by
  have hl := hi.linking b hb
  have hlt : e < h.next := ((hl.heads num a ha).elements e he).1
  have hes : e ∈ s := (hi.linked e).mpr ⟨b, hb, num, a, ha, he⟩
  have hpop : h.population = (s.erase e).card + 1 := by
    rw [card_erase_add_one hes]
    exact hi.population
  have hnotin : e ∉ s.erase e := notMem_erase e s
  have hremove : boundedRemove (cmpKeyNode cb h.element) (h.head a).head e =
      some (inlineRemove (cmpKeyNode cb h.element) (h.head a).head e) := by
    rw [boundedRemove, if_pos hdepth]
  rw [delByHashEl, hremove]
  simp only [bind_eq_bind, bind_some]
  by_cases hnil : inlineRemove (cmpKeyNode cb h.element) (h.head a).head e = .nil
  · rw [if_pos hnil]
    have hnum1 : (withoutElement cb h a e).hashNum keyHash = num := hnum
    have hdrop : (withoutElement cb h a e).dropHead a keyHash =
        some (withoutHead (withoutElement cb h a e) b num a) := by
      rw [dropHead, show (withoutElement cb h a e).buckets = some b from hb]
      simp only [bind_eq_bind, bind_some, hnum1]
      rw [boundedRemove_of_height _ _ (height_bucket (linking_withoutElement hl a e) num)]
      rfl
    have hfill := filled_withoutHead hi hb ha he hshadow hnil
    refine ⟨(withoutHead (withoutElement cb h a e) b num a).forget e, ?_,
      hfill.forget hpop hnotin hlt, rfl, rfl⟩
    show bind ((withoutElement cb h a e).dropHead a keyHash) _ = _
    rw [hdrop]
    rfl
  · rw [if_neg hnil]
    have hfill := filled_withoutElement hi hb ha he hshadow hnil
    exact ⟨(withoutElement cb h a e).forget e, rfl, hfill.forget hpop hnotin hlt, rfl, rfl⟩

end Eina.Hash
