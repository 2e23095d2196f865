/-
The iterator of `eina_hash.c`.

It walks three things, one inside the other: the bucket array by a number, the heads of a bucket by
an iterator over its tree, and the elements of a head by an iterator over theirs.  The two inner
iterators are made when they are needed and freed when they are exhausted, into the trash that
`eina_rbtree.c` keeps.

What is left to say is what the element iterator has left, then the elements of the heads that the
head iterator has left, then the buckets after this one (`Remains`).
-/
import Mathlib.Algebra.BigOperators.Group.List.Basic
import Efl.Eina.Hash.Bag
import Efl.Eina.Rbtree.Iterator

namespace Eina.Hash

open RedBlack Rbtree List Option

variable {Key Data : Type}

/-! ### The code -/

/-- An iterator over a tree of the hash; the tree stands for the links of its nodes. -/
structure Cursor where
  tree : Tree Addr
  it : Rbtree.Iterator Addr

/-- `eina_iterator_next` on an iterator over a tree. -/
def Cursor.next (turns : Nat) (c : Cursor) : Option (Cursor × Option (Option Addr)) :=
  (c.it.next (sonIn c.tree) turns).map fun (it, answer) => ({ c with it := it }, answer)

/--
`struct _Eina_Iterator_Hash`, with the iterators that `eina_rbtree.c` keeps for the next use.  The
index is -1 only between the first line that writes it and the last, where nothing compares it.
-/
structure IteratorHash where
  current : Option Cursor
  list : Option Cursor
  hashHead : Option Addr
  hashElement : Option Addr
  bucket : Nat
  index : Int
  iteratorTrash : List (Rbtree.Iterator Addr)

/-- `eina_hash_iterator_tuple_new` -/
def tupleNew (iteratorTrash : List (Rbtree.Iterator Addr)) : IteratorHash :=
  ⟨none, none, none, none, 0, 0, iteratorTrash⟩

namespace IteratorHash

/-- `it->current = eina_rbtree_iterator_prefix(…)` -/
def openCurrent (it : IteratorHash) (tree : Tree Addr) : IteratorHash :=
  let made := Iterator.prefixNew it.iteratorTrash (rootOf tree)
  { it with current := some ⟨tree, made.1⟩, iteratorTrash := made.2 }

/-- `it->list = eina_rbtree_iterator_prefix(it->hash_head->head)` -/
def openList (h : Hash Key Data) (it : IteratorHash) : Option IteratorHash :=
  it.hashHead.map fun hashHead =>
    let tree := (h.head hashHead).head
    let made := Iterator.prefixNew it.iteratorTrash (rootOf tree)
    { it with list := some ⟨tree, made.1⟩, iteratorTrash := made.2 }

/-- `eina_iterator_free(it->current); it->current = NULL;` -/
def freeCurrent (it : IteratorHash) : IteratorHash :=
  match it.current with
  | none => it
  | some c => { it with current := none, iteratorTrash := c.it.free it.iteratorTrash }

/-- `eina_iterator_free(it->list); it->list = NULL;` -/
def freeList (it : IteratorHash) : IteratorHash :=
  match it.list with
  | none => it
  | some c => { it with list := none, iteratorTrash := c.it.free it.iteratorTrash }

/-- `eina_iterator_next(it->current, &it->hash_head)` -/
def nextHead (turns : Nat) (it : IteratorHash) : Option (IteratorHash × Bool) :=
  match it.current with
  | none => some (it, false)
  | some c => (c.next turns).map fun (c, answer) =>
    match answer with
    | none => ({ it with current := some c }, false)
    | some hashHead => ({ it with current := some c, hashHead := hashHead }, true)

/-- `eina_iterator_next(it->list, &it->hash_element)` -/
def nextElement (turns : Nat) (it : IteratorHash) : Option (IteratorHash × Bool) :=
  match it.list with
  | none => some (it, false)
  | some c => (c.next turns).map fun (c, answer) =>
    match answer with
    | none => ({ it with list := some c }, false)
    | some hashElement => ({ it with list := some c, hashElement := hashElement }, true)

/-- What comes before the loop over the buckets: `ok`, and where that loop starts. -/
def advance (turns : Nat) (h : Hash Key Data) (it : IteratorHash) :
    Option (IteratorHash × Bool × Nat) :=
  match it.current with
  | none => some ({ it with index := -1 }, false, 0)
  | some _ => (it.nextElement turns).bind fun (it, ok) =>
    if ok then some (it, true, it.bucket)
    else (it.freeList.nextHead turns).bind fun (it, ok) =>
      if ok then
        (it.openList h).bind fun it =>
          (it.nextElement turns).map fun (it, ok) => (it, ok, it.bucket)
      else
        let it := { it.freeCurrent with bucket := it.bucket + 1 }
        some (it, false, it.bucket)

/-- The loop over the buckets; as many are left as the first argument says. -/
def seek (turns : Nat) (h : Hash Key Data) : Nat → IteratorHash → Nat → Option (IteratorHash × Nat)
  | 0, it, bucket => some (it, bucket)
  | left + 1, it, bucket => h.buckets.bind fun buckets =>
    match buckets bucket with
    | .nil => seek turns h left it (bucket + 1)
    | tree => ((it.openCurrent tree).nextHead turns).bind fun (it, ok) =>
      if ok then some (it, bucket) else seek turns h left it.freeCurrent (bucket + 1)

/-- The branch for `ok == EFL_FALSE`. -/
def fromBuckets (turns : Nat) (h : Hash Key Data) (it : IteratorHash) (bucket : Nat) :
    Option (IteratorHash × Bool × Nat) :=
  (seek turns h (h.size - bucket) it bucket).bind fun (it, bucket) =>
    (it.freeList.openList h).bind fun it =>
      (it.nextElement turns).map fun (it, ok) =>
        (it, if bucket = h.size then false else ok, bucket)

/--
`_eina_hash_iterator_next`: the iterator and `*data`, or nothing for `EFL_FALSE`.  The tuple that
is answered with is the one of the element.
-/
def next (turns : Nat) (h : Hash Key Data) (it : IteratorHash) :
    Option (IteratorHash × Option (Option Addr)) :=
  if it.index < h.population then
    (it.advance turns h).bind fun (it, ok, bucket) =>
      (if ok then some (it, true, bucket) else it.fromBuckets turns h bucket).map
        fun (it, ok, bucket) =>
          ({ it with index := it.index + 1, bucket := bucket },
            if ok then some it.hashElement else none)
  else some (it, none)

/-- What the first calls answer, one after the other. -/
def answers (turns : Nat) (h : Hash Key Data) : Nat → IteratorHash →
    Option (List (Option (Option Addr)))
  | 0, _ => some []
  | n + 1, it => (it.next turns h).bind fun (it, answer) =>
    (answers turns h n it).map fun rest => answer :: rest

end IteratorHash

/-! ### The order of the elements -/

/-- The elements of a head. -/
def elementsOf (h : Hash Key Data) (a : Addr) : List Addr := prefixOrder (h.head a).head

/-- The elements of a bucket. -/
def bucketOrder (h : Hash Key Data) (b : Nat → Tree Addr) (num : Nat) : List Addr :=
  (prefixOrder (b num)).flatMap (elementsOf h)

/-- The elements of some buckets, one after the other. -/
def fromOrder (h : Hash Key Data) (b : Nat → Tree Addr) (num left : Nat) : List Addr :=
  (List.range' num left).flatMap (bucketOrder h b)

/-- The elements of a hash, in the order of its iterators. -/
def order (h : Hash Key Data) : List Addr :=
  match h.buckets with
  | none => []
  | some b => fromOrder h b 0 h.size

theorem fromOrder_succ (h : Hash Key Data) (b : Nat → Tree Addr) (num left : Nat) :
    fromOrder h b num (left + 1) = bucketOrder h b num ++ fromOrder h b (num + 1) left := by
  rfl

section Order

variable {cb : Callbacks Key} {h : Hash Key Data} {s : Finset Addr} {b : Nat → Tree Addr}

variable {num : Nat}

theorem mem_bucketOrder {e : Nat} :
    e ∈ bucketOrder h b num ↔ ∃ a ∈ (b num).toList, e ∈ (h.head a).head.toList := by
  simp only [bucketOrder, elementsOf, mem_flatMap, (prefixOrder_perm _).mem_iff]

theorem elementsOf_nodup (hl : Linking cb h b) {a : Addr} (ha : a ∈ (b num).toList) :
    (elementsOf h a).Nodup :=
  (prefixOrder_perm _).nodup_iff.mpr (hl.heads num a ha).tree.nodup

theorem bucketOrder_nodup (hl : Linking cb h b) (num : Nat) : (bucketOrder h b num).Nodup := by
  have hheads : (prefixOrder (b num)).Nodup :=
    (prefixOrder_perm _).nodup_iff.mpr (hl.tree num).nodup
  refine nodup_flatMap.mpr ⟨fun a ha => ?_, ?_⟩
  · exact elementsOf_nodup hl ((prefixOrder_perm _).mem_iff.mp ha)
  · refine hheads.imp_of_mem fun {a a'} ha ha' hne => ?_
    have ha := (prefixOrder_perm _).mem_iff.mp ha
    have ha' := (prefixOrder_perm _).mem_iff.mp ha'
    intro e he he'
    have hhash := ((hl.heads num a ha).hash e ((prefixOrder_perm _).mem_iff.mp he)).2
    have hhash' := ((hl.heads num a' ha').hash e ((prefixOrder_perm _).mem_iff.mp he')).2
    exact hne (hl.strict num a ha a' ha' (hhash.symm.trans hhash'))

theorem fromOrder_nodup (hl : Linking cb h b) (num left : Nat) :
    (fromOrder h b num left).Nodup := by
  refine nodup_flatMap.mpr ⟨fun i _ => bucketOrder_nodup hl i, ?_⟩
  refine (nodup_range').imp fun {i j} hne => ?_
  intro e he he'
  obtain ⟨a, ha, hea⟩ := mem_bucketOrder.mp he
  obtain ⟨a', ha', hea'⟩ := mem_bucketOrder.mp he'
  exact hne (((hl.heads i a ha).hash e hea).1.symm.trans ((hl.heads j a' ha').hash e hea').1)

theorem order_nodup (hi : Inv cb h s) : (order h).Nodup := by
  unfold order
  cases hb : h.buckets with
  | none => exact nodup_nil
  | some b => exact fromOrder_nodup (hi.linking b hb) 0 h.size

/-- **The order has the elements of the hash**, and no others. -/
theorem mem_order (hi : Inv cb h s) {e : Addr} : e ∈ order h ↔ e ∈ s := by
  rw [hi.linked]
  unfold order
  cases hb : h.buckets with
  | none => simp [Linked, hb]
  | some b =>
    simp only [fromOrder, mem_flatMap, mem_bucketOrder, mem_range'_1, Linked, hb,
      some.injEq, exists_eq_left']
    constructor
    · rintro ⟨num, -, a, ha, he⟩
      exact ⟨num, a, ha, he⟩
    · rintro ⟨num, a, ha, he⟩
      refine ⟨num, ⟨Nat.zero_le _, ?_⟩, a, ha, he⟩
      rw [zero_add, ← (((hi.linking b hb).heads num a ha).hash e he).1]
      exact hashNum_lt h _

theorem length_order (hi : Inv cb h s) : (order h).length = h.population := by
  rw [hi.population, ← toFinset_card_of_nodup (order_nodup hi)]
  refine congrArg Finset.card (Finset.ext fun e => ?_)
  rw [List.mem_toFinset, mem_order hi]

theorem length_le_population (hi : Inv cb h s) (hb : h.buckets = some b) (hnum : num < h.size) :
    (b num).toList.length ≤ h.population ∧
      ∀ a ∈ (b num).toList, (h.head a).head.toList.length ≤ h.population := by
  have hsub : (bucketOrder h b num).Sublist (order h) := by
    have hmem : num ∈ range' 0 h.size := by simpa using hnum
    unfold order
    rw [hb]
    exact sublist_flatten_of_mem (mem_map_of_mem hmem)
  have hbucket : (bucketOrder h b num).length ≤ h.population := by
    rw [← length_order hi]
    exact hsub.length_le
  have hlength : ∀ a, (elementsOf h a).length = (h.head a).head.toList.length :=
    fun a => (prefixOrder_perm _).length_eq
  refine ⟨le_trans ?_ hbucket, fun a ha => le_trans ?_ hbucket⟩
  · rw [← (prefixOrder_perm _).length_eq, bucketOrder, length_flatMap]
    rw [← length_map]
    refine length_le_sum_of_one_le _ fun n hn => ?_
    obtain ⟨a, ha, rfl⟩ := mem_map.mp hn
    rw [hlength]
    have hne := hi.filled b hb num a ((prefixOrder_perm _).mem_iff.mp ha)
    cases htree : (h.head a).head with
    | nil => exact absurd htree hne
    | node c l x r =>
      rw [Tree.toList_node, length_append, length_cons]
      omega
  · rw [← hlength]
    exact (sublist_flatten_of_mem
      (mem_map_of_mem ((prefixOrder_perm _).mem_iff.mpr ha))).length_le

end Order

/-! ### The iterators inside -/

/-- An iterator over a tree has the nodes `left` to say. -/
structure Cursor.Left (c : Cursor) (turns : Nat) (left : List Addr) : Prop where
  shows : ∃ ws, Shows (sonIn c.tree) c.it ws ∧ pending prefixMask ws = left ∧ budget ws ≤ turns
  mask : c.it.mask = prefixMask

/-- **A call of an iterator over a tree** answers with the first node that is left. -/
theorem Cursor.Left.next {c : Cursor} {turns : Nat} {left : List Addr} (hc : c.Left turns left) :
    ∃ c', c.next turns = some (c', left.head?.map some) ∧ c'.Left turns left.tail := by
  obtain ⟨⟨ws, hshows, rfl, hbudget⟩, hmask⟩ := hc
  obtain ⟨it', vs, hnext, hshows', hmask', hpending, hbudget'⟩ := next_spec hshows hbudget
  rw [hmask] at hnext hpending hmask'
  refine ⟨{ c with it := it' }, ?_, ⟨vs, hshows', hpending, by omega⟩, hmask'⟩
  rw [Cursor.next, hnext, map_some]

variable {trash : List (Rbtree.Iterator Addr)}

theorem Cursor.Left.free {c : Cursor} {turns : Nat} {left : List Addr} (hc : c.Left turns left)
    (htrash : ∀ i ∈ trash, i.Spare) :
    ∀ i ∈ c.it.free trash, i.Spare := by
  obtain ⟨ws, hshows, -, -⟩ := hc.shows
  exact hshows.free htrash

theorem left_prefixNew (turns : Nat) {t : Tree Addr} (ht : t.toList.Nodup)
    (hturns : 3 * t.toList.length + 1 ≤ turns)
    (htrash : ∀ i ∈ trash, i.Spare) :
    (⟨t, (Iterator.prefixNew trash (rootOf t)).1⟩ : Cursor).Left turns (prefixOrder t) ∧
      ∀ i ∈ (Iterator.prefixNew trash (rootOf t)).2, i.Spare := by
  obtain ⟨hshows, hmask, hspare⟩ :=
    prefixNew_spec htrash (linked_of_sonIn ht fun x _ => rfl)
  refine ⟨⟨⟨_, hshows, ?_, ?_⟩, hmask⟩, hspare⟩
  · rw [pending, now_fresh, visits_prefix]
    exact append_nil _
  · rw [budget, costNow_fresh, cost_eq]
    exact hturns

namespace IteratorHash

variable {turns : Nat}

variable {c : Cursor}

theorem nextElement_cons (it : IteratorHash) {e : Addr} {es : List Addr} (hlist : it.list = some c)
    (hc : c.Left turns (e :: es)) :
    ∃ c', it.nextElement turns =
      some ({ it with list := some c', hashElement := some e }, true) ∧ c'.Left turns es := by
  obtain ⟨c', hnext, hleft⟩ := hc.next
  refine ⟨c', ?_, hleft⟩
  rw [nextElement, hlist]
  dsimp only
  rw [hnext]
  rfl

theorem nextElement_nil (it : IteratorHash) (hlist : it.list = some c) (hc : c.Left turns []) :
    ∃ c', it.nextElement turns = some ({ it with list := some c' }, false) ∧
      c'.Left turns [] := by
  obtain ⟨c', hnext, hleft⟩ := hc.next
  refine ⟨c', ?_, hleft⟩
  rw [nextElement, hlist]
  dsimp only
  rw [hnext]
  rfl

theorem nextHead_cons (it : IteratorHash) {a : Addr} {as : List Addr}
    (hcurrent : it.current = some c) (hc : c.Left turns (a :: as)) :
    ∃ c', it.nextHead turns =
      some ({ it with current := some c', hashHead := some a }, true) ∧ c'.Left turns as := by
  obtain ⟨c', hnext, hleft⟩ := hc.next
  refine ⟨c', ?_, hleft⟩
  rw [nextHead, hcurrent]
  dsimp only
  rw [hnext]
  rfl

theorem nextHead_nil (it : IteratorHash) (hcurrent : it.current = some c) (hc : c.Left turns []) :
    ∃ c', it.nextHead turns = some ({ it with current := some c' }, false) ∧
      c'.Left turns [] := by
  obtain ⟨c', hnext, hleft⟩ := hc.next
  refine ⟨c', ?_, hleft⟩
  rw [nextHead, hcurrent]
  dsimp only
  rw [hnext]
  rfl

theorem freeList_spec (turns : Nat) (it : IteratorHash) (hspare : ∀ i ∈ it.iteratorTrash, i.Spare)
    (hlist : ∀ c, it.list = some c → ∃ left, c.Left turns left) :
    ∃ trash, it.freeList = { it with list := none, iteratorTrash := trash } ∧
      ∀ i ∈ trash, i.Spare := by
  obtain ⟨current, list, hashHead, hashElement, bucket, index, trash⟩ := it
  cases list with
  | none => exact ⟨trash, rfl, hspare⟩
  | some c =>
    obtain ⟨left, hc⟩ := hlist c rfl
    exact ⟨_, rfl, hc.free hspare⟩

end IteratorHash

/-! ### One call -/

section Calls

variable {cb : Callbacks Key} {h : Hash Key Data} {s : Finset Addr} {b : Nat → Tree Addr}
  {turns : Nat} {it : IteratorHash}

/-- The elements of the heads that are left in a bucket, and of the buckets after it. -/
def restOrder (h : Hash Key Data) (b : Nat → Tree Addr) (bucket : Nat) (heads : List Addr) :
    List Addr :=
  heads.flatMap (elementsOf h) ++ fromOrder h b (bucket + 1) (h.size - (bucket + 1))

/-- The iterator was at a bucket, and goes on from there. -/
structure Walking (h : Hash Key Data) (b : Nat → Tree Addr) (turns : Nat) (it : IteratorHash)
    (left : List Addr) : Prop where
  spare : ∀ i ∈ it.iteratorTrash, i.Spare
  bucket : it.bucket < h.size
  head : ∃ a ∈ (b it.bucket).toList, it.hashHead = some a
  cursors : ∃ c heads l es, it.current = some c ∧ c.Left turns heads ∧
    (∀ a ∈ heads, a ∈ (b it.bucket).toList) ∧ it.list = some l ∧ l.Left turns es ∧
    left = es ++ restOrder h b it.bucket heads
  index : it.index + 1 + left.length = h.population

/-- What an iterator has still to say. -/
inductive Remains (h : Hash Key Data) (turns : Nat) : IteratorHash → List Addr → Prop where
  | new (trash : List (Rbtree.Iterator Addr)) (hspare : ∀ i ∈ trash, i.Spare) :
      Remains h turns (tupleNew trash) (order h)
  | walking {it : IteratorHash} {left : List Addr} {b : Nat → Tree Addr}
      (hb : h.buckets = some b) (hwalking : Walking h b turns it left) : Remains h turns it left
  | ended {it : IteratorHash} (hindex : it.index = h.population) : Remains h turns it []

variable {num : Nat} {a : Addr}

theorem exists_elementsOf (hi : Inv cb h s) (hb : h.buckets = some b) (ha : a ∈ (b num).toList) :
    ∃ e es, elementsOf h a = e :: es := by
  have hne := hi.filled b hb num a ha
  unfold elementsOf
  cases htree : (h.head a).head with
  | nil => exact absurd htree hne
  | node c l x r => exact ⟨x, _, rfl⟩

theorem openList_spec (it : IteratorHash) (hi : Inv cb h s) (hb : h.buckets = some b)
    (hturns : 3 * h.population + 1 ≤ turns) (hspare : ∀ i ∈ it.iteratorTrash, i.Spare)
    (hnum : num < h.size) (ha : a ∈ (b num).toList) (hhead : it.hashHead = some a) :
    ∃ l trash, it.openList h = some { it with list := some l, iteratorTrash := trash } ∧
      l.Left turns (elementsOf h a) ∧ ∀ i ∈ trash, i.Spare := by
  have hlength := (length_le_population hi hb hnum).2 a ha
  have htree := ((hi.linking b hb).heads num a ha).tree
  obtain ⟨hleft, htrash⟩ := left_prefixNew turns htree.nodup (by omega) hspare
  refine ⟨_, _, ?_, hleft, htrash⟩
  rw [IteratorHash.openList, hhead]
  rfl

variable {bucket : Nat}

/-- **The loop over the buckets** finds the first head that is left, if there is one. -/
theorem seek_spec (hi : Inv cb h s) (hb : h.buckets = some b)
    (hturns : 3 * h.population + 1 ≤ turns) (hspare : ∀ i ∈ it.iteratorTrash, i.Spare) {left : Nat}
    (hsum : bucket + left = h.size) :
    (∃ c heads a trash num, IteratorHash.seek turns h left it bucket =
        some ({ it with current := some c, hashHead := some a, iteratorTrash := trash }, num) ∧
      num < h.size ∧ c.Left turns heads ∧ (∀ x ∈ a :: heads, x ∈ (b num).toList) ∧
      fromOrder h b bucket left = elementsOf h a ++ restOrder h b num heads ∧
      ∀ i ∈ trash, i.Spare) ∨
    (IteratorHash.seek turns h left it bucket = some (it, h.size) ∧
      fromOrder h b bucket left = []) := by
  induction left generalizing bucket with
  | zero =>
    refine .inr ⟨?_, rfl⟩
    rw [← hsum]
    rfl
  | succ left ih =>
    rw [IteratorHash.seek, hb, bind_some, fromOrder_succ]
    cases htree : b bucket with
    | nil =>
      have hempty : bucketOrder h b bucket = [] := by
        rw [bucketOrder, htree]
        rfl
      rw [hempty]
      exact ih (by omega)
    | node color l a r =>
      have hnum : bucket < h.size := by omega
      have hnodup := ((hi.linking b hb).tree bucket).nodup
      have hlength := (length_le_population hi hb hnum).1
      rw [htree] at hnodup hlength
      obtain ⟨hleft, htrash⟩ := left_prefixNew turns hnodup (by omega) hspare
      obtain ⟨c, hnext, hc⟩ := IteratorHash.nextHead_cons
        (it.openCurrent (.node color l a r)) rfl hleft
      refine .inl ⟨c, _, a, _, bucket, ?_, hnum, hc, ?_, ?_, htrash⟩
      · dsimp only
        rw [hnext]
        rfl
      · intro x hx
        rw [htree]
        exact ((prefixOrder_perm _).mem_iff).mp hx
      · have hrest : h.size - (bucket + 1) = left := by omega
        rw [bucketOrder, htree, prefixOrder, flatMap_cons, append_assoc, restOrder,
          hrest]

variable {left : List Addr}

/-- The search for a bucket that is not empty. -/
theorem fromBuckets_found (it : IteratorHash) (hi : Inv cb h s) (hb : h.buckets = some b)
    (hturns : 3 * h.population + 1 ≤ turns) (hspare : ∀ i ∈ it.iteratorTrash, i.Spare)
    (hlist : ∀ c, it.list = some c → ∃ left, c.Left turns left) (hbucket : bucket ≤ h.size)
    {e : Addr} (horder : fromOrder h b bucket (h.size - bucket) = e :: left) :
    ∃ it' num, it.fromBuckets turns h bucket = some (it', true, num) ∧ it'.hashElement = some e ∧
      it'.index = it.index ∧ ∀ i : Int, i + 1 + left.length = h.population →
        Walking h b turns { it' with index := i, bucket := num } left := by
  rcases seek_spec hi hb hturns hspare (Nat.add_sub_cancel' hbucket) with
    ⟨c, heads, a, trash, num, hseek, hnum, hc, hheads, hrest, htrash⟩ | ⟨-, hnone⟩
  · have ha : a ∈ (b num).toList := hheads a mem_cons_self
    obtain ⟨x, es, hes⟩ := exists_elementsOf hi hb ha
    rw [horder, hes] at hrest
    obtain ⟨rfl, rfl⟩ := cons.inj hrest
    obtain ⟨trash1, hfree, htrash1⟩ := IteratorHash.freeList_spec turns
      { it with current := some c, hashHead := some a, iteratorTrash := trash }
      htrash hlist
    obtain ⟨l, trash2, hopen, hl, htrash2⟩ := openList_spec
      { it with
        current := some c, hashHead := some a, iteratorTrash := trash1, list := none }
      hi hb hturns htrash1 hnum ha rfl
    rw [hes] at hl
    obtain ⟨l', hnext, hl'⟩ := IteratorHash.nextElement_cons
      { it with
        current := some c, hashHead := some a, iteratorTrash := trash2, list := some l } rfl hl
    refine ⟨{ it with
      current := some c, hashHead := some a, iteratorTrash := trash2, list := some l',
      hashElement := some e }, num, ?_, rfl, rfl, fun i hindex => ?_⟩
    · rw [IteratorHash.fromBuckets, hseek, bind_some]
      dsimp only
      rw [hfree, hopen, bind_some, hnext, map_some]
      rw [if_neg (by omega)]
    · exact ⟨htrash2, hnum, ⟨a, ha, rfl⟩, ⟨c, heads, l', es, rfl, hc,
        fun y hy => hheads y (mem_cons_of_mem _ hy), rfl, hl', rfl⟩, hindex⟩
  · rw [horder] at hnone
    simp at hnone

theorem fromBuckets_none (it : IteratorHash) (hi : Inv cb h s) (hb : h.buckets = some b)
    (hturns : 3 * h.population + 1 ≤ turns) (hspare : ∀ i ∈ it.iteratorTrash, i.Spare)
    (hlist : ∀ c, it.list = some c → ∃ left, c.Left turns left) (hbucket : bucket ≤ h.size)
    (horder : fromOrder h b bucket (h.size - bucket) = []) (hnum : num < h.size)
    (ha : a ∈ (b num).toList) (hhead : it.hashHead = some a) :
    ∃ it', it.fromBuckets turns h bucket = some (it', false, h.size) ∧ it'.index = it.index := by
  obtain ⟨e, es, hes⟩ := exists_elementsOf hi hb ha
  rcases seek_spec hi hb hturns hspare (Nat.add_sub_cancel' hbucket) with
    ⟨c, heads, a', trash, num', -, -, -, hheads, hrest, -⟩ | ⟨hseek, -⟩
  · obtain ⟨e', es', hes'⟩ := exists_elementsOf hi hb (hheads a' mem_cons_self)
    rw [horder, hes'] at hrest
    simp at hrest
  obtain ⟨trash1, hfree, htrash1⟩ := IteratorHash.freeList_spec turns it hspare hlist
  obtain ⟨l, trash2, hopen, hl, -⟩ := openList_spec
    { it with list := none, iteratorTrash := trash1 } hi hb hturns htrash1 hnum ha hhead
  rw [hes] at hl
  obtain ⟨l', hnext, -⟩ := IteratorHash.nextElement_cons
    { it with list := some l, iteratorTrash := trash2 } rfl hl
  refine ⟨{ it with list := some l', iteratorTrash := trash2, hashElement := some e }, ?_, rfl⟩
  rw [IteratorHash.fromBuckets, hseek, bind_some]
  dsimp only
  rw [hfree, hopen, bind_some, hnext, map_some]
  rw [if_pos rfl]

/-- The first call gives the first element. -/
theorem next_new (hi : Inv cb h s) (hturns : 3 * h.population + 1 ≤ turns)
    {trash : List (Rbtree.Iterator Addr)} (hspare : ∀ i ∈ trash, i.Spare) :
    ∃ it', (tupleNew trash).next turns h = some (it', (order h).head?.map some) ∧
      Remains h turns it' (order h).tail := by
  have hlength := length_order hi
  cases horder : order h with
  | nil =>
    rw [horder] at hlength
    refine ⟨tupleNew trash, ?_, .ended ?_⟩
    · rw [IteratorHash.next, if_neg (by simp [tupleNew, ← hlength])]
      rfl
    · rw [← hlength]
      rfl
  | cons e left =>
    rw [horder, length_cons] at hlength
    unfold order at horder
    cases hb : h.buckets with
    | none =>
      rw [hb] at horder
      simp at horder
    | some b =>
      rw [hb] at horder
      obtain ⟨it', num, hrun, helement, hindex, hwalking⟩ := fromBuckets_found
        { tupleNew trash with index := -1 } hi hb hturns hspare
        (fun c hc => absurd hc (by simp [tupleNew])) (Nat.zero_le _) horder
      have hindex : it'.index = -1 := hindex
      refine ⟨{ it' with index := it'.index + 1, bucket := num }, ?_,
        .walking hb (hwalking _ ?_)⟩
      · rw [IteratorHash.next, if_pos (by simp [tupleNew, ← hlength])]
        change (IteratorHash.fromBuckets turns h _ 0).map _ = _
        rw [hrun, map_some]
        dsimp only
        rw [helement]
        rfl
      · omega

/-- A call in the middle of the walk gives the next element. -/
theorem next_walking (hi : Inv cb h s) (hb : h.buckets = some b)
    (hturns : 3 * h.population + 1 ≤ turns) (hwalking : Walking h b turns it left) :
    ∃ it', it.next turns h = some (it', left.head?.map some) ∧
      Remains h turns it' left.tail := by
  obtain ⟨hspare, hbucket, ⟨a0, ha0, hhead0⟩, ⟨c, heads, l, es, hcurrent, hc, hheads, hlist, hl,
    hleft⟩, hindex⟩ := hwalking
  have hless : it.index < h.population := by omega
  cases es with
  | cons e es =>
    -- the list has an element
    obtain ⟨l', hnext, hl'⟩ := IteratorHash.nextElement_cons it hlist hl
    have hadvance : it.advance turns h =
        some ({ it with list := some l', hashElement := some e }, true, it.bucket) := by
      unfold IteratorHash.advance
      split
      · rename_i hnone
        exact absurd (hnone.symm.trans hcurrent) (by simp)
      · rw [hnext]
        rfl
    subst hleft
    refine ⟨{ it with list := some l', hashElement := some e, index := it.index + 1 }, ?_,
      .walking hb ⟨hspare, hbucket, ⟨a0, ha0, hhead0⟩,
        ⟨c, heads, l', es, hcurrent, hc, hheads, rfl, hl', rfl⟩, ?_⟩⟩
    · rw [IteratorHash.next, if_pos hless, hadvance]
      rfl
    · rw [cons_append, length_cons] at hindex
      rw [cons_append, tail_cons]
      change it.index + 1 + 1 + _ = _
      omega
  | nil =>
    obtain ⟨l', hnext, hl'⟩ := IteratorHash.nextElement_nil it hlist hl
    obtain ⟨trash, hfree, htrash⟩ := IteratorHash.freeList_spec turns
      { it with list := some l' } hspare
      (fun x hx => ⟨[], by obtain rfl := some.inj hx; exact hl'⟩)
    cases heads with
    | cons a heads =>
      -- the bucket has another head, and the head an element
      have ha := hheads a mem_cons_self
      obtain ⟨e, es, hes⟩ := exists_elementsOf hi hb ha
      obtain ⟨c', hnextHead, hc'⟩ := IteratorHash.nextHead_cons
        { it with list := none, iteratorTrash := trash } hcurrent hc
      obtain ⟨l2, trash2, hopen, hl2, htrash2⟩ := openList_spec
        { it with
          list := none, iteratorTrash := trash, current := some c', hashHead := some a }
        hi hb hturns htrash hbucket ha rfl
      rw [hes] at hl2
      obtain ⟨l3, hnext2, hl3⟩ := IteratorHash.nextElement_cons
        { it with
          list := some l2, iteratorTrash := trash2, current := some c', hashHead := some a }
        rfl hl2
      rw [restOrder, flatMap_cons, hes, nil_append, append_assoc,
        cons_append] at hleft
      subst hleft
      refine ⟨{ it with
        list := some l3, iteratorTrash := trash2, current := some c', hashHead := some a,
        hashElement := some e, index := it.index + 1 }, ?_,
        .walking hb ⟨htrash2, hbucket, ⟨a, ha, rfl⟩, ⟨c', heads, l3, es, rfl, hc',
          fun y hy => hheads y (mem_cons_of_mem _ hy), rfl, hl3, rfl⟩, ?_⟩⟩
      · rw [IteratorHash.next, if_pos hless, IteratorHash.advance, hcurrent]
        dsimp only
        rw [hnext, bind_some]
        rw [hfree, hnextHead, bind_some]
        rw [hopen, bind_some, hnext2]
        rfl
      · rw [length_cons] at hindex
        rw [tail_cons]
        change it.index + 1 + 1 + _ = _
        omega
    | nil =>
      -- the bucket is exhausted, and the next one with a head is looked for
      obtain ⟨c', hnextHead, hc'⟩ := IteratorHash.nextHead_nil
        { it with list := none, iteratorTrash := trash } hcurrent hc
      have hadvance : it.advance turns h = some ({ it with
          list := none, current := none, iteratorTrash := c'.it.free trash,
          bucket := it.bucket + 1 }, false, it.bucket + 1) := by
        rw [IteratorHash.advance, hcurrent]
        dsimp only
        rw [hnext, bind_some]
        rw [hfree, hnextHead]
        rfl
      rw [IteratorHash.next, if_pos hless, hadvance, bind_some]
      dsimp only
      rw [if_neg (by simp)]
      cases horder : left with
      | cons e rest =>
        obtain ⟨it', num, hrun, helement, hindex', hwalking⟩ := fromBuckets_found
          { it with
            list := none, current := none, iteratorTrash := c'.it.free trash,
            bucket := it.bucket + 1 } hi hb hturns (hc'.free htrash)
          (fun x hx => absurd hx (by simp)) hbucket (hleft.symm.trans horder)
        have hindex' : it'.index = it.index := hindex'
        rw [hrun, map_some]
        refine ⟨_, ?_, .walking hb (hwalking (it'.index + 1) ?_)⟩
        · rw [helement]
          rfl
        · rw [horder, length_cons] at hindex
          omega
      | nil =>
        obtain ⟨it', hrun, hindex'⟩ := fromBuckets_none
          { it with
            list := none, current := none, iteratorTrash := c'.it.free trash,
            bucket := it.bucket + 1 } hi hb hturns (hc'.free htrash)
          (fun x hx => absurd hx (by simp)) hbucket (hleft.symm.trans horder) hbucket ha0
          hhead0
        rw [hrun]
        refine ⟨_, rfl, .ended ?_⟩
        rw [horder] at hindex
        rw [hindex']
        simpa using hindex

/-- **One call** answers with the first element that is left, and the others are left. -/
theorem next_remains (hi : Inv cb h s) (hturns : 3 * h.population + 1 ≤ turns)
    (hremains : Remains h turns it left) :
    ∃ it', it.next turns h = some (it', left.head?.map some) ∧ Remains h turns it' left.tail := by
  cases hremains with
  | new trash hspare => exact next_new hi hturns hspare
  | walking hb hwalking => exact next_walking hi hb hturns hwalking
  | ended hindex =>
    refine ⟨it, ?_, .ended hindex⟩
    rw [IteratorHash.next, if_neg (by omega)]
    rfl

theorem answers_spec (hi : Inv cb h s) (hturns : 3 * h.population + 1 ≤ turns)
    (hremains : Remains h turns it left) (n : Nat) :
    it.answers turns h n = some ((List.range n).map fun i => left[i]?.map some) := by
  induction n generalizing it left with
  | zero => rfl
  | succ n ih =>
    obtain ⟨it', hnext, hrest⟩ := next_remains hi hturns hremains
    rw [IteratorHash.answers, hnext, bind_some]
    dsimp only
    rw [ih hrest, range_succ_eq_map, map_cons, List.map_map,
      head?_eq_getElem?]
    refine congrArg some (congrArg _ (map_congr_left fun i _ => ?_))
    rw [getElem?_tail]
    rfl

/--
**Iterating over a hash that is left alone**: the calls answer with the tuples of the linked
elements, each of them once, and from then on with nothing.  The hash may be any that its calls
make, as `Inv` says, and the trash of `eina_rbtree.c` may hold any iterators that were freed.
-/
theorem tuples_iterate (hi : Inv cb h s) (trash : List (Rbtree.Iterator Addr))
    (hspare : ∀ i ∈ trash, i.Spare) (turns : Nat) (hturns : 3 * h.population + 1 ≤ turns) :
    ∃ elements : List Addr, elements.Nodup ∧ (∀ e, e ∈ elements ↔ Linked h e) ∧
      ∀ n, (tupleNew trash).answers turns h n =
        some ((List.range n).map fun i => elements[i]?.map some) :=
  ⟨order h, order_nodup hi, fun _ => (mem_order hi).trans (hi.linked _),
    fun n => answers_spec hi hturns (.new trash hspare) n⟩

end Calls

theorem tuples_iterate_three : ∃ h : Hash Nat Nat, Runs.run (bagStep natCallbacks) emptyHash
      [.add 0 (some 1), .add 0 (some 2), .add 1 (some 7)] = some (h, [true, true, true]) ∧
    ∃ elements : List Addr, elements.Nodup ∧ (∀ e, e ∈ elements ↔ Linked h e) ∧
      ∀ n, (tupleNew []).answers 10 h n =
        some ((List.range n).map fun i => elements[i]?.map some) := by
  obtain ⟨h, rs, M, hrun, -, s, hi, -⟩ := Runs.run_simulates
    (fun h M op hM hfits => bagStep_bags natCallbacks_order hM op hfits)
    [.add 0 (some 1), .add 0 (some 2), .add 1 (some 7)] _ 0 (bags_new new_emptyHash) (by
      refine ⟨Nat.le_of_ble_eq_true rfl, fun p1 hp1 => ?_⟩
      obtain rfl := some.inj hp1
      refine ⟨Nat.le_of_ble_eq_true rfl, fun p2 hp2 => ?_⟩
      obtain rfl := some.inj hp2
      exact ⟨Nat.le_of_ble_eq_true rfl, fun _ _ => trivial⟩)
  have hanswers : (Runs.run (bagStep natCallbacks) emptyHash
      [.add 0 (some 1), .add 0 (some 2), .add 1 (some 7)]).map
        (fun p => (p.1.population, p.2)) = some (3, [true, true, true]) := rfl
  rw [hrun] at hanswers
  obtain ⟨hpopulation, rfl⟩ := Prod.mk.inj (some.inj hanswers)
  refine ⟨h, hrun, tuples_iterate hi [] (fun i hi => absurd hi (by simp)) 10 ?_⟩
  dsimp only at hpopulation
  omega

/--
**What an iterator says after a run**: after calls that fit, its tuples are the pairs of the bag.
-/
theorem run_iterates [DecidableEq Data] [DecidableEq (Key × Data)] {cb : Callbacks Key}
    {h : Hash Key Data} (hk : KeyOrder cb) {p : Nat} {head : Addr → Head}
    {element : Addr → Element Key Data} (hnew : Hash.new p head element = some h)
    (ops : List (BagOp Key Data))
    (hops : Runs.Meets (fun h op => op.Fits cb h) (bagStep cb) h ops) :
    ∃ h' rs M', Runs.run (bagStep cb) h ops = some (h', rs) ∧ Runs.Traces BagNext 0 ops M' rs ∧
      ∃ elements : List Addr,
        (elements.map fun e => ((h'.element e).key, (h'.element e).data) : Multiset _) = M' ∧
        ∀ n, (tupleNew []).answers (3 * h'.population + 1) h' n =
          some ((List.range n).map fun i => elements[i]?.map some) := by
  obtain ⟨h', rs, M', hrun, htraces, s, hi, rfl⟩ := Runs.run_simulates
    (fun h M op hM hfits => bagStep_bags hk hM op hfits) ops h 0 (bags_new hnew) hops
  have hspare : ∀ i ∈ ([] : List (Rbtree.Iterator Addr)), i.Spare := by simp
  refine ⟨h', rs, _, hrun, htraces, order h', ?_,
    fun n => answers_spec hi (le_rfl) (.new [] hspare) n⟩
  have hval : ((order h' : List Addr) : Multiset Addr) = s.val :=
    (Multiset.Nodup.ext (Multiset.coe_nodup.mpr (order_nodup hi)) s.nodup).mpr
      fun e => mem_order hi
  rw [pairs, ← hval]
  rfl

/-- Two keys in one bucket, the first of them twice; one of its elements is deleted. -/
def fiveCalls : List (BagOp Nat Nat) :=
  [.add 0 (some 1), .add 0 (some 2), .add 1 (some 7), .del (some 0) (some 2), .add 2 (some 5)]

theorem fiveCalls_fit :
    Runs.Meets (fun h op => op.Fits natCallbacks h) (bagStep natCallbacks) emptyHash fiveCalls := by
  refine ⟨Nat.le_of_ble_eq_true rfl, ?_⟩
  intro p1 hp1
  obtain rfl := some.inj hp1
  refine ⟨Nat.le_of_ble_eq_true rfl, ?_⟩
  intro p2 hp2
  obtain rfl := some.inj hp2
  refine ⟨Nat.le_of_ble_eq_true rfl, ?_⟩
  intro p3 hp3
  obtain rfl := some.inj hp3
  refine ⟨⟨fun _ => ⟨2, ⟨_, rfl, 0, 0, by decide, by decide⟩, rfl, by decide⟩,
    delFits_of_height (by decide)⟩, ?_⟩
  intro p4 hp4
  obtain rfl := some.inj hp4
  exact ⟨Nat.le_of_ble_eq_true rfl, fun _ _ => trivial⟩

theorem run_iterates_five : ∃ h' rs M',
    Runs.run (bagStep natCallbacks) emptyHash fiveCalls = some (h', rs) ∧
      rs = [true, true, true, true, true] ∧ h'.population = 3 ∧
      Runs.Traces BagNext 0 fiveCalls M' rs ∧
      ∃ elements : List Addr,
        (elements.map fun e => ((h'.element e).key, (h'.element e).data) : Multiset _) = M' ∧
        ∀ n, (tupleNew []).answers (3 * h'.population + 1) h' n =
          some ((List.range n).map fun i => elements[i]?.map some) := by
  obtain ⟨h', rs, M', hrun, htraces, helements⟩ :=
    run_iterates natCallbacks_order new_emptyHash fiveCalls fiveCalls_fit
  have hanswers : (Runs.run (bagStep natCallbacks) emptyHash fiveCalls).map
      (fun p => (p.1.population, p.2)) = some (3, [true, true, true, true, true]) := rfl
  rw [hrun] at hanswers
  obtain ⟨hpopulation, hrs⟩ := Prod.mk.inj (some.inj hanswers)
  exact ⟨h', rs, M', hrun, hrs, hpopulation, htraces, helements⟩

end Eina.Hash
