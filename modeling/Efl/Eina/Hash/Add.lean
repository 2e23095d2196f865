/-
Adding an element keeps the invariant.

The head is looked up first and, if it is missing, linked without elements, so
between the two halves of `eina_hash_add_alloc_by_hash` one head may be empty
(`HeadReady`).  A bucket never has more than 2 ^ 16 heads and its tree never gets too
deep; the tree of elements below a head may, and `addDepth` is how deep the new
element goes.
-/
import Efl.Eina.Hash.Inv

namespace Eina.Hash

open RedBlack Rbtree Option Function Finset

variable {Key Data : Type} {cb : Callbacks Key} {h h' : Hash Key Data} {s : Finset Addr} {num : Nat}

theorem HeadOk.mono {a : Addr} (hok : HeadOk cb h num a)
    (hhead : h'.head a = h.head a)
    (hkey : ∀ e ∈ (h.head a).head.toList, (h'.element e).key = (h.element e).key)
    (hpower : h'.bucketsPowerSize = h.bucketsPowerSize)
    (halloc : a < h'.next ∧ a ∉ h'.freedHeads)
    (helements : ∀ e ∈ (h.head a).head.toList, e < h'.next ∧ e ∉ h'.freedElements) :
    HeadOk cb h' num a := by
  refine ⟨?_, ?_, halloc, ?_⟩
  · rw [hhead]
    refine hok.tree.congr ?_
    intro x hx y hy
    rw [cmpKeyNode, cmpKeyNode, hkey x hx, hkey y hy]
  · intro e he
    rw [hhead] at he ⊢
    rw [hkey e he, hashNum, rbHash, size, hpower]
    exact hok.hash e he
  · intro e he
    rw [hhead] at he
    exact helements e he

theorem linking_getD (hi : Inv cb h s) : Linking cb h (h.buckets.getD fun _ => .nil) := by
  cases hb : h.buckets with
  | none => exact ⟨fun _ => IsTree.nil _, by simp, by simp, by simp⟩
  | some b => exact hi.linking b hb

theorem linked_getD (hi : Inv cb h s) (e : Addr) :
    e ∈ s ↔ ∃ num, ∃ a ∈ ((h.buckets.getD fun _ => .nil) num).toList,
      e ∈ (h.head a).head.toList := by
  rw [hi.linked]
  unfold Linked
  cases hb : h.buckets with
  | none => simp
  | some b => simp

theorem height_bucket {b : Nat → Tree Addr} (hl : Linking cb h b) (num : Nat) :
    (b num).height ≤ Mem.stackSize := by
  refine (hl.tree num).height_le ?_
  have hcard : (b num).toList.toFinset.card ≤ (range (2 ^ 16)).card := by
    refine card_le_card_of_injOn (fun a => (h.head a).hash.toNat) ?_ ?_
    · intro a _
      simpa using (h.head a).hash.isLt
    · intro a ha a' ha' heq
      rw [mem_coe, List.mem_toFinset] at ha ha'
      exact hl.strict num a ha a' ha' (BitVec.eq_of_toNat_eq heq)
  rw [List.toFinset_card_of_nodup (hl.tree num).nodup, card_range] at hcard
  omega

/-! ### The head -/

/-- The head `a` of `keyHash` is linked, with the elements it had, in `b`. -/
structure HeadReady (cb : Callbacks Key) (h h' : Hash Key Data) (s : Finset Addr)
    (keyHash : BitVec 32) (a : Addr) (b : Nat → Tree Addr) : Prop where
  buckets : h'.buckets = some b
  linking : Linking cb h' b
  mem : a ∈ (b (h.hashNum keyHash)).toList
  hash : (h'.head a).hash = h.rbHash keyHash
  tree : (h'.head a).head = treeOf h keyHash
  filled : ∀ num, ∀ x ∈ (b num).toList, x ≠ a → (h'.head x).head ≠ .nil
  linked : ∀ e, e ∈ s ↔ ∃ num, ∃ x ∈ (b num).toList, e ∈ (h'.head x).head.toList
  element : h'.element = h.element
  population : h'.population = h.population
  power : h'.bucketsPowerSize = h.bucketsPowerSize
  freedElements : h'.freedElements = h.freedElements
  freed : ∀ a, a ∈ h'.freedHeads ∨ a ∈ h'.freedElements → a < h'.next

/-- The hash with an empty head for `keyHash` linked into the bucket array `b`. -/
def withHead (h : Hash Key Data) (b : Nat → Tree Addr) (keyHash : BitVec 32) : Hash Key Data :=
  let head := update h.head h.next ⟨.nil, h.rbHash keyHash⟩
  { h with
    buckets := some (update b (h.hashNum keyHash)
      (inlineInsert (cmpHashNode head) (b (h.hashNum keyHash)) h.next))
    head := head
    next := h.next + 1 }

section NewHead

variable {b b' : Nat → Tree Addr} {keyHash : BitVec 32} (hl : Linking cb h b)
  (hb' : (withHead h b keyHash).buckets = some b')

include hl

theorem withHead_head {num : Nat} {x : Addr} (hx : x ∈ (b num).toList) :
    (withHead h b keyHash).head x = h.head x := by
  have hne : x ≠ h.next := ne_of_lt (hl.heads num x hx).alloc.1
  simp [withHead, update_of_ne hne]

omit hl in
theorem withHead_head_self (h : Hash Key Data) (b : Nat → Tree Addr) (keyHash : BitVec 32) :
    (withHead h b keyHash).head h.next = ⟨.nil, h.rbHash keyHash⟩ := by
  simp [withHead]

omit hl in
include hb' in
theorem mem_withHead (num : Nat) (x : Addr) :
    x ∈ (b' num).toList ↔ x ∈ (b num).toList ∨ (x = h.next ∧ num = h.hashNum keyHash) := by
  obtain rfl := some.inj hb'
  by_cases hn : num = h.hashNum keyHash
  · subst hn
    rw [update_self, mem_inlineInsert]
    tauto
  · rw [update_of_ne hn]
    tauto

theorem next_notMem (num : Nat) : h.next ∉ (b num).toList :=
  fun hm => lt_irrefl _ (hl.heads num _ hm).alloc.1

include hb' in
theorem tree_withHead (num : Nat) : IsTree (cmpHashNode (withHead h b keyHash).head) (b' num) := by
  have hold : ∀ i, IsTree (cmpHashNode (withHead h b keyHash).head) (b i) := by
    intro i
    refine (hl.tree i).congr ?_
    intro x hx y hy
    rw [cmpHashNode, cmpHashNode, withHead_head hl hx, withHead_head hl hy]
  obtain rfl := some.inj hb'
  by_cases hn : num = h.hashNum keyHash
  · subst hn
    rw [update_self]
    exact (hold _).insert (sorts_cmpHashNode _) (next_notMem hl _)
  · rw [update_of_ne hn]
    exact hold num

include hb' in
/-- A new head hangs in the tree of its bucket. -/
theorem linking_withHead
    (hnone : inlineLookup (cmpHash h.head (h.rbHash keyHash)) (b (h.hashNum keyHash)) = none)
    (hfreed : h.next ∉ h.freedHeads) : Linking cb (withHead h b keyHash) b' := by
  have hmem := mem_withHead hb'
  have hself := withHead_head_self h b keyHash
  -- no head of the bucket has the hash of the new one
  have hother : ∀ z ∈ (b (h.hashNum keyHash)).toList,
      ((withHead h b keyHash).head z).hash ≠ h.rbHash keyHash := by
    intro z hz hc
    rw [withHead_head hl hz] at hc
    rw [(lookup_head_iff hl _ _ z).mpr ⟨hz, hc⟩] at hnone
    simp at hnone
  refine ⟨tree_withHead hl hb', ?_, ?_, ?_⟩
  · intro num x hx y hy heq
    rcases (hmem num x).mp hx with hxb | ⟨rfl, rfl⟩
    · rcases (hmem num y).mp hy with hyb | ⟨rfl, rfl⟩
      · rw [withHead_head hl hxb, withHead_head hl hyb] at heq
        exact hl.strict num x hxb y hyb heq
      · rw [hself] at heq
        exact absurd heq (hother x hxb)
    · rcases (hmem _ y).mp hy with hyb | ⟨rfl, -⟩
      · rw [hself] at heq
        exact absurd heq.symm (hother y hyb)
      · rfl
  · intro i j x hxi hxj
    rcases (hmem i x).mp hxi with hxb | ⟨rfl, hin⟩
    · rcases (hmem j x).mp hxj with hxb' | ⟨rfl, -⟩
      · exact hl.apart i j x hxb hxb'
      · exact absurd hxb (next_notMem hl i)
    · rcases (hmem j _).mp hxj with hxb' | ⟨-, hjn⟩
      · exact absurd hxb' (next_notMem hl j)
      · rw [hin, hjn]
  · intro num x hx
    rcases (hmem num x).mp hx with hxb | ⟨rfl, rfl⟩
    · have hok := hl.heads num x hxb
      refine hok.mono (withHead_head hl hxb) (fun _ _ => rfl) rfl
        ⟨Nat.lt_succ_of_lt hok.alloc.1, hok.alloc.2⟩ ?_
      intro e he
      exact ⟨Nat.lt_succ_of_lt (hok.elements e he).1, (hok.elements e he).2⟩
    · have hempty : ∀ e, e ∉ ((withHead h b keyHash).head h.next).head.toList := by
        intro e
        rw [hself]
        simp
      refine ⟨?_, fun e he => absurd he (hempty e), ⟨Nat.lt_succ_self _, hfreed⟩,
        fun e he => absurd he (hempty e)⟩
      rw [hself]
      exact IsTree.nil _

end NewHead

theorem filled_getD (hi : Inv cb h s) {x : Addr}
    (hx : x ∈ ((h.buckets.getD fun _ => .nil) num).toList) : (h.head x).head ≠ .nil := by
  cases hb : h.buckets with
  | none =>
    rw [hb] at hx
    simp at hx
  | some b =>
    rw [hb] at hx
    exact hi.filled b hb num x hx

/-- **The first half of an addition finds the head of the key or links an empty one.** -/
theorem headFor_spec (hi : Inv cb h s) (keyHash : BitVec 32) :
    ∃ h' a b, h.headFor keyHash = some (h', a) ∧ HeadReady cb h h' s keyHash a b := by
  have hl := linking_getD hi
  have hlinked := linked_getD hi
  have hfilled : ∀ num, ∀ x ∈ ((h.buckets.getD fun _ => .nil) num).toList,
      (h.head x).head ≠ .nil := fun _ _ hx => filled_getD hi hx
  unfold headFor
  simp only
  generalize hb : h.buckets.getD (fun _ => RedBlack.Tree.nil) = b at hl hlinked hfilled
  cases hfound : inlineLookup (cmpHash h.head (h.rbHash keyHash)) (b (h.hashNum keyHash)) with
  | some a =>
    obtain ⟨ham, hhash⟩ := (lookup_head_iff hl _ _ _).mp hfound
    have htreeOf : treeOf h keyHash = (h.head a).head := by rw [treeOf, hb, hfound]
    refine ⟨_, a, b, rfl, rfl, ?_, ham, hhash, htreeOf.symm, fun num x hx _ => hfilled num x hx,
      hlinked, rfl, rfl, rfl, rfl, hi.freed⟩
    exact ⟨hl.tree, hl.strict, hl.apart, fun num x hx =>
      (hl.heads num x hx).mono rfl (fun _ _ => rfl) rfl (hl.heads num x hx).alloc
        (hl.heads num x hx).elements⟩
  | none =>
    have htreeOf : treeOf h keyHash = .nil := by rw [treeOf, hb, hfound]
    rw [boundedInsert_of_height _ _ (height_bucket hl _)]
    have hself := withHead_head_self h b keyHash
    have hmem := mem_withHead (show (withHead h b keyHash).buckets = some _ from rfl)
    refine ⟨withHead h b keyHash, h.next, _, rfl, rfl, linking_withHead hl rfl hfound ?_,
      (hmem _ _).mpr (.inr ⟨rfl, rfl⟩), by rw [hself], by rw [hself, htreeOf], ?_, ?_, rfl,
      rfl, rfl, rfl, fun a ha => Nat.lt_succ_of_lt (hi.freed a ha)⟩
    · exact fun hm => lt_irrefl _ (hi.freed _ (.inl hm))
    · intro num x hx hne
      rcases (hmem num x).mp hx with hxb | ⟨rfl, -⟩
      · rw [withHead_head hl hxb]
        exact hfilled num x hxb
      · exact absurd rfl hne
    · intro e
      rw [hlinked]
      constructor
      · rintro ⟨num, x, hx, he⟩
        refine ⟨num, x, (hmem num x).mpr (.inl hx), ?_⟩
        rw [withHead_head hl hx]
        exact he
      · rintro ⟨num, x, hx, he⟩
        rcases (hmem num x).mp hx with hxb | ⟨rfl, -⟩
        · rw [withHead_head hl hxb] at he
          exact ⟨num, x, hxb, he⟩
        · rw [hself] at he
          simp at he

/-! ### The element -/

theorem insertPath_congr {α : Type} {cmp cmp' : α → α → Direction} {x x' : α} {t : Tree α} :
    ∀ {path : List (Frame α)}, (∀ q ∈ t.toList, cmp q x = cmp' q x') →
      insertPath cmp x t path = insertPath cmp' x' t path := by
  induction t with
  | nil =>
    intro path _
    rfl
  | node c l q r ihl ihr =>
    intro path heq
    rw [insertPath, insertPath, heq q (by simp)]
    cases cmp' q x' with
    | left => exact ihl (fun a ha => heq a (by simp [ha]))
    | right => exact ihr (fun a ha => heq a (by simp [ha]))

/-- The side of an element on which a new one with the key goes. -/
def keyDir (cb : Callbacks Key) (element : Addr → Element Key Data) (key : Key) (q _ : Addr) :
    Direction :=
  if cb.keyCmp (element q).key key < 0 then .left else .right

/-- The elements above the place of a new one with the key. -/
def addDepth (cb : Callbacks Key) (h : Hash Key Data) (key : Key) : Nat :=
  (insertPath (keyDir cb h.element key) h.next (treeOf h (cb.keyHash key)) []).length

section NewElement

variable {key : Key} {data : Data} {a : Addr} {b : Nat → Tree Addr} {num : Nat}

/-- The state of the hash after `addElement`, when that has a value. -/
def withElement (cb : Callbacks Key) (h : Hash Key Data) (a : Addr) (key : Key) (data : Data) :
    Hash Key Data :=
  let element := update h.element h.next ⟨key, data⟩
  { h with
    head := update h.head a { h.head a with
      head := inlineInsert (cmpKeyNode cb element) (h.head a).head h.next }
    element := element
    next := h.next + 1
    population := h.population + 1 }

theorem withElement_hash (x : Addr) :
    ((withElement cb h a key data).head x).hash = (h.head x).hash := by
  by_cases hx : x = a
  · subst hx
    simp [withElement]
  · simp [withElement, hx]

theorem withElement_head {x : Addr} (hx : x ≠ a) :
    (withElement cb h a key data).head x = h.head x := by
  simp [withElement, hx]

theorem mem_withElement (x : Addr) :
    x ∈ ((withElement cb h a key data).head a).head.toList ↔
      x = h.next ∨ x ∈ (h.head a).head.toList := by
  simp only [withElement, update_self]
  rw [mem_inlineInsert]

theorem withElement_element {e : Addr} (he : e < h.next) :
    (withElement cb h a key data).element e = h.element e := by
  simp [withElement, ne_of_lt he]

theorem withElement_element_self :
    (withElement cb h a key data).element h.next = ⟨key, data⟩ := by
  simp [withElement]

theorem headOk_withElement (hk : KeyOrder cb) (hok : HeadOk cb h num a)
    (hfreed : h.next ∉ h.freedElements) (hnum : h.hashNum (cb.keyHash key) = num)
    (hhash : (h.head a).hash = h.rbHash (cb.keyHash key)) :
    HeadOk cb (withElement cb h a key data) num a := by
  have hnew : h.next ∉ (h.head a).head.toList :=
    fun hm => lt_irrefl _ (hok.elements _ hm).1
  have hold : IsTree (cmpKeyNode cb (withElement cb h a key data).element) (h.head a).head := by
    refine hok.tree.congr ?_
    intro x hx y hy
    rw [cmpKeyNode, cmpKeyNode, withElement_element (hok.elements x hx).1,
      withElement_element (hok.elements y hy).1]
  refine ⟨?_, ?_, ⟨Nat.lt_succ_of_lt hok.alloc.1, hok.alloc.2⟩, ?_⟩
  · have htree := hold.insert (sorts_cmpKeyNode hk _) hnew
    simp only [withElement, update_self] at htree ⊢
    exact htree
  · intro e he
    rw [mem_withElement] at he
    rw [withElement_hash]
    rcases he with rfl | he
    · rw [withElement_element_self]
      exact ⟨hnum, hhash.symm⟩
    · rw [withElement_element (hok.elements e he).1]
      exact hok.hash e he
  · intro e he
    rw [mem_withElement] at he
    rcases he with rfl | he
    · exact ⟨Nat.lt_succ_self _, hfreed⟩
    · exact ⟨Nat.lt_succ_of_lt (hok.elements e he).1, (hok.elements e he).2⟩

theorem linking_withElement (hk : KeyOrder cb) (hl : Linking cb h b)
    (ha : a ∈ (b num).toList) (hfreed : h.next ∉ h.freedElements)
    (hnum : h.hashNum (cb.keyHash key) = num)
    (hhash : (h.head a).hash = h.rbHash (cb.keyHash key)) :
    Linking cb (withElement cb h a key data) b := by
  refine ⟨?_, ?_, hl.apart, ?_⟩
  · intro i
    refine (hl.tree i).congr ?_
    intro x _ y _
    rw [cmpHashNode, cmpHashNode, withElement_hash, withElement_hash]
  · intro i x hx y hy heq
    rw [withElement_hash, withElement_hash] at heq
    exact hl.strict i x hx y hy heq
  · intro i x hx
    by_cases hxa : x = a
    · subst hxa
      obtain rfl : i = num := hl.apart i num x hx ha
      exact headOk_withElement hk (hl.heads i x hx) hfreed hnum hhash
    · have hok := hl.heads i x hx
      refine hok.mono (withElement_head hxa) ?_ rfl
        ⟨Nat.lt_succ_of_lt hok.alloc.1, hok.alloc.2⟩ ?_
      · intro e he
        rw [withElement_element (hok.elements e he).1]
      · intro e he
        exact ⟨Nat.lt_succ_of_lt (hok.elements e he).1, (hok.elements e he).2⟩

end NewElement

/-- What an addition does to a hash whose linked elements are those of `s`. -/
structure Added (cb : Callbacks Key) (h h' : Hash Key Data) (s : Finset Addr) (e : Addr)
    (key : Key) (data : Data) : Prop where
  fresh : e ∉ s
  inv : Inv cb h' (insert e s)
  element : h'.element e = ⟨key, data⟩
  others : ∀ x ∈ s, h'.element x = h.element x
  freedElements : h'.freedElements = h.freedElements
  power : h'.bucketsPowerSize = h.bucketsPowerSize
  tree : treeOf h' (cb.keyHash key) =
    inlineInsert (cmpKeyNode cb h'.element) (treeOf h (cb.keyHash key)) e

theorem treeOf_eq (hi : Inv cb h s) {b : Nat → Tree Addr} {a : Addr} {keyHash : BitVec 32}
    (hb : h.buckets = some b) (ha : a ∈ (b (h.hashNum keyHash)).toList)
    (hhash : (h.head a).hash = h.rbHash keyHash) : treeOf h keyHash = (h.head a).head := by
  have hfound := (lookup_head_iff (hi.linking b hb) _ _ a).mpr ⟨ha, hhash⟩
  rw [treeOf, hb]
  simp only [getD_some, hfound]

namespace HeadReady

variable {key : Key} {a : Addr} {b : Nat → Tree Addr}

theorem lt_next {keyHash : BitVec 32} (hready : HeadReady cb h h' s keyHash a b) :
    ∀ x ∈ s, x < h'.next := by
  intro x hx
  obtain ⟨num, y, hy, hxy⟩ := (hready.linked x).mp hx
  exact ((hready.linking.heads num y hy).elements x hxy).1

theorem hashNum_eq {keyHash : BitVec 32} (hready : HeadReady cb h h' s keyHash a b)
    (x : BitVec 32) : h'.hashNum x = h.hashNum x ∧ h'.rbHash x = h.rbHash x := by
  rw [hashNum, size, rbHash, hready.power]
  exact ⟨rfl, rfl⟩

theorem addElement_eq (hready : HeadReady cb h h' s (cb.keyHash key) a b) (data : Data) :
    h'.addElement cb a key data =
      if addDepth cb h key ≤ Mem.stackSize then some (withElement cb h' a key data)
      else none := by
  have hok := hready.linking.heads _ a hready.mem
  have hdir : ∀ q ∈ (h'.head a).head.toList,
      cmpKeyNode cb (update h'.element h'.next ⟨key, data⟩) q h'.next =
        keyDir cb h.element key q h.next := by
    intro q hq
    have hqne : q ≠ h'.next := ne_of_lt (hok.elements q hq).1
    rw [cmpKeyNode, keyDir, update_self, update_of_ne hqne, hready.element]
  have hdepth : (insertPath (cmpKeyNode cb (update h'.element h'.next ⟨key, data⟩))
      h'.next (h'.head a).head []).length = addDepth cb h key := by
    rw [insertPath_congr hdir, hready.tree]
    rfl
  rw [addElement]
  simp only [boundedInsert, hdepth]
  by_cases hfits : addDepth cb h key ≤ Mem.stackSize
  · rw [if_pos hfits, if_pos hfits]
    rfl
  · rw [if_neg hfits, if_neg hfits]
    rfl

theorem linked_withElement (hready : HeadReady cb h h' s (cb.keyHash key) a b) (data : Data)
    (e : Addr) : e ∈ insert h'.next s ↔ Linked (withElement cb h' a key data) e := by
  have hbuckets : (withElement cb h' a key data).buckets = some b := hready.buckets
  rw [mem_insert, hready.linked]
  constructor
  · rintro (rfl | ⟨num, x, hx, he⟩)
    · exact ⟨b, hbuckets, _, a, hready.mem, (mem_withElement _).mpr (.inl rfl)⟩
    refine ⟨b, hbuckets, num, x, hx, ?_⟩
    by_cases hxa : x = a
    · subst hxa
      exact (mem_withElement _).mpr (.inr he)
    · rw [withElement_head hxa]
      exact he
  · rintro ⟨b', hb', num, x, hx, he⟩
    rw [hbuckets] at hb'
    obtain rfl := some.inj hb'
    by_cases hxa : x = a
    · subst hxa
      rcases (mem_withElement _).mp he with rfl | he
      · exact .inl rfl
      · exact .inr ⟨num, x, hx, he⟩
    · rw [withElement_head hxa] at he
      exact .inr ⟨num, x, hx, he⟩

/-- A new element keeps the invariant. -/
theorem inv_withElement (hk : KeyOrder cb) (hi : Inv cb h s)
    (hready : HeadReady cb h h' s (cb.keyHash key) a b) (data : Data) :
    Inv cb (withElement cb h' a key data) (insert h'.next s) := by
  have hbuckets : (withElement cb h' a key data).buckets = some b := hready.buckets
  obtain ⟨hnum, hrb⟩ := hready.hashNum_eq (cb.keyHash key)
  have hfreed : h'.next ∉ h'.freedElements :=
    fun hm => lt_irrefl _ (hready.freed _ (.inr hm))
  have hlink : Linking cb (withElement cb h' a key data) b :=
    linking_withElement hk hready.linking hready.mem hfreed hnum (hready.hash.trans hrb.symm)
  have hsome : ∀ b', (withElement cb h' a key data).buckets = some b' → b' = b := by
    intro b' hb'
    rw [hbuckets] at hb'
    exact (some.inj hb').symm
  refine ⟨?_, ?_, ?_, hready.linked_withElement data, ?_, ?_, ?_⟩
  · show h'.bucketsPowerSize ≤ 16
    rw [hready.power]
    exact hi.power
  · intro b' hb'
    rw [hsome b' hb']
    exact hlink
  · intro b' hb' num x hx
    rw [hsome b' hb'] at hx
    by_cases hxa : x = a
    · subst hxa
      intro hnil
      have hm : h'.next ∈ ((withElement cb h' x key data).head x).head.toList :=
        (mem_withElement _).mpr (.inl rfl)
      rw [hnil] at hm
      simp at hm
    · rw [withElement_head hxa]
      exact hready.filled num x hx hxa
  · rw [card_insert_of_notMem (fun hm => lt_irrefl _ (hready.lt_next _ hm))]
    show h'.population + 1 = _
    rw [hready.population, hi.population]
  · rw [hbuckets]
    simp
  · intro x hx
    exact Nat.lt_succ_of_lt (hready.freed x hx)

end HeadReady

/-- **`eina_hash_add` links one more element, or overruns the stack.** -/
theorem addAllocByHash_spec (hk : KeyOrder cb) (hi : Inv cb h s) (key : Key) (data : Data) :
    if addDepth cb h key ≤ Mem.stackSize then
      ∃ h' e, h.addAllocByHash cb key (cb.keyHash key) (some data) = some (h', true) ∧
        Added cb h h' s e key data
    else h.addAllocByHash cb key (cb.keyHash key) (some data) = none := by
  obtain ⟨h1, a, b, hrun, hready⟩ := headFor_spec hi (cb.keyHash key)
  have hrun' : h.addAllocByHash cb key (cb.keyHash key) (some data) =
      (h1.addElement cb a key data).map fun h2 => (h2, true) := by
    rw [addAllocByHash, hrun]
    simp only [bind_eq_bind, map_eq_bind]
    rfl
  rw [hready.addElement_eq] at hrun'
  by_cases hfits : addDepth cb h key ≤ Mem.stackSize
  · rw [if_pos hfits] at hrun' ⊢
    have hinv := hready.inv_withElement hk hi data
    obtain ⟨hnum, hrb⟩ := hready.hashNum_eq (cb.keyHash key)
    refine ⟨withElement cb h1 a key data, h1.next, hrun',
      fun hm => lt_irrefl _ (hready.lt_next _ hm), hinv, withElement_element_self, ?_,
      hready.freedElements, hready.power, ?_⟩
    · intro x hx
      rw [withElement_element (hready.lt_next x hx), hready.element]
    · have hmem : a ∈ (b ((withElement cb h1 a key data).hashNum (cb.keyHash key))).toList := by
        show a ∈ (b (h1.hashNum (cb.keyHash key))).toList
        rw [hnum]
        exact hready.mem
      have hhash : ((withElement cb h1 a key data).head a).hash =
          (withElement cb h1 a key data).rbHash (cb.keyHash key) := by
        rw [withElement_hash, hready.hash]
        exact hrb.symm
      rw [treeOf_eq hinv hready.buckets hmem hhash, ← hready.tree]
      simp [withElement]
  · rw [if_neg hfits] at hrun' ⊢
    exact hrun'

end Eina.Hash
