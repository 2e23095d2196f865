/-
A hash with repeated keys, as a bag of pairs.

`eina_hash_add` does not look the key up.  Deletions by key alone find an element without data and
always unlink it.  A deletion by key and data, or by data alone, goes wrong at an element that is
shadowed by one with the same key: the lookup passes it by, or the iterator finds it and the
removal does not.  `BagOp.Fits` excludes that; three elements with one key are enough for it to
happen (`shadowed_elements`).
-/
import Efl.Eina.Hash.Map

namespace Eina.Hash

open RedBlack Rbtree List Option

variable {Key Data : Type} {cb : Callbacks Key} {h h' : Hash Key Data} {s : Finset Addr}

/-! ### The calls -/

inductive BagOp (Key Data : Type) where
  | add (key : Key) (data : Option Data)
  | del (key : Option Key) (data : Option Data)
  | delByData (data : Option Data)
  | delByKey (key : Key)

def bagStep [DecidableEq Data] (cb : Callbacks Key) (h : Hash Key Data) :
    BagOp Key Data → Option (Hash Key Data × Bool)
  | .add key data => h.add cb key data
  | .del key data => h.del cb key data
  | .delByData data => h.delByData cb data
  | .delByKey key => h.delByKey cb key none

/-- A pair with the property is taken out if there is one, and that is reported. -/
def Takes [DecidableEq (Key × Data)] (p : Key × Data → Prop) (M M' : Multiset (Key × Data))
    (r : Bool) : Prop :=
  (r = true ∧ ∃ x ∈ M, p x ∧ M' = M.erase x) ∨ (r = false ∧ M' = M ∧ ∀ x ∈ M, ¬ p x)

/-- The call on a bag of pairs. -/
def BagNext [DecidableEq (Key × Data)] (M : Multiset (Key × Data)) :
    BagOp Key Data → Multiset (Key × Data) → Bool → Prop
  | .add key (some data), M', r => M' = (key, data) ::ₘ M ∧ r = true
  | .add _ none, M', r => M' = M ∧ r = false
  | .del (some key) (some data), M', r => Takes (fun x => x = (key, data)) M M' r
  | .del (some key) none, M', r => Takes (fun x => x.1 = key) M M' r
  | .del none (some data), M', r => Takes (fun x => x.2 = data) M M' r
  | .del none none, M', r => M' = M ∧ r = false
  | .delByData (some data), M', r => Takes (fun x => x.2 = data) M M' r
  | .delByData none, M', r => M' = M ∧ r = false
  | .delByKey key, M', r => Takes (fun x => x.1 = key) M M' r

/-- The element is shadowed, in the tree of its key, by one with the same key. -/
def Hidden (cb : Callbacks Key) (h : Hash Key Data) (e : Addr) : Prop :=
  Shadowed (cmpKeyNode cb h.element) e (treeOf h (cb.keyHash (h.element e).key))

instance (cb : Callbacks Key) (h : Hash Key Data) (e : Addr) : Decidable (Hidden cb h e) :=
  decidableShadowed _ _ _

/-- If an element has the key and the data, one that has them is not hidden. -/
def PairFits (cb : Callbacks Key) (h : Hash Key Data) (key : Key) (data : Data) : Prop :=
  (∃ e, Linked h e ∧ h.element e = ⟨key, data⟩) →
    ∃ e, Linked h e ∧ h.element e = ⟨key, data⟩ ∧ ¬ Hidden cb h e

/-- The first element with the data, in the order of the iterators, is not hidden. -/
def DataFits [DecidableEq Data] (cb : Callbacks Key) (h : Hash Key Data) (data : Data) : Prop :=
  ∀ p, h.findByData data = some p → ¬ Hidden cb h p.2.2 ∧ DelFits cb h (h.element p.2.2).key

/--
The condition of a call: a deletion that looks for data does not meet a hidden
element, and no tree is walked deeper than its stack.
-/
def BagOp.Fits [DecidableEq Data] (cb : Callbacks Key) (h : Hash Key Data) :
    BagOp Key Data → Prop
  | .add key (some _) => AddFits cb h key
  | .add _ none => True
  | .del (some key) (some data) => PairFits cb h key data ∧ DelFits cb h key
  | .del (some key) none => DelFits cb h key
  | .del none (some data) => DataFits cb h data
  | .del none none => True
  | .delByData (some data) => DataFits cb h data
  | .delByData none => True
  | .delByKey key => DelFits cb h key

/-! ### The bag a hash stands for -/

/-- The pairs of a set of elements. -/
def pairs (h : Hash Key Data) (s : Finset Addr) : Multiset (Key × Data) :=
  s.val.map fun e => ((h.element e).key, (h.element e).data)

/-- The linked elements are the pairs of `M`. -/
def Bags (cb : Callbacks Key) (h : Hash Key Data) (M : Multiset (Key × Data)) : Prop :=
  ∃ s, Inv cb h s ∧ M = pairs h s

theorem mem_pairs {x : Key × Data} : x ∈ pairs h s ↔ ∃ e ∈ s, h.element e = ⟨x.1, x.2⟩ := by
  unfold pairs
  rw [Multiset.mem_map]
  constructor
  · rintro ⟨e, he, rfl⟩
    exact ⟨e, he, rfl⟩
  · rintro ⟨e, he, heq⟩
    exact ⟨e, he, by rw [heq]⟩

theorem pairs_added {e : Addr} {key : Key} {data : Data} (hadd : Added cb h h' s e key data) :
    pairs h' (insert e s) = (key, data) ::ₘ pairs h s := by
  unfold pairs
  rw [Finset.insert_val_of_notMem hadd.fresh, Multiset.map_cons, hadd.element]
  congr 1
  refine Multiset.map_congr rfl ?_
  intro x hx
  rw [hadd.others x hx]

theorem pairs_deleted [DecidableEq (Key × Data)] {e : Addr} (he : e ∈ s)
    (hdel : Deleted cb h h' s e) :
    pairs h' (s.erase e) = (pairs h s).erase ((h.element e).key, (h.element e).data) := by
  unfold pairs
  rw [hdel.element]
  exact Multiset.map_erase_of_mem _ _ he

section Steps

variable [DecidableEq Data] [DecidableEq (Key × Data)]

variable {e : Addr} {p : Key × Data → Prop} {num : Nat} {a : Addr}

omit [DecidableEq Data] in
theorem delByHashEl_takes (hi : Inv cb h s) {b : Nat → Tree Addr}
    (hb : h.buckets = some b) (ha : a ∈ (b num).toList) (he : e ∈ (h.head a).head.toList)
    {keyHash : BitVec 32} (hnum : h.hashNum keyHash = num)
    (hshadow : ¬ Shadowed (cmpKeyNode cb h.element) e (h.head a).head)
    (hdepth : removeDepth (cmpKeyNode cb h.element) e (h.head a).head ≤ Mem.stackSize)
      (hp : p ((h.element e).key, (h.element e).data)) :
    ∃ h' M', h.delByHashEl cb e a keyHash = some h' ∧ Takes p (pairs h s) M' true ∧
      Bags cb h' M' := by
  have hes : e ∈ s := (hi.linked e).mpr ⟨b, hb, num, a, ha, he⟩
  obtain ⟨h', hrun, hdel⟩ := delByHashEl_spec hi hb ha he hnum hshadow hdepth
  refine ⟨h', _, hrun, .inl ⟨rfl, _, mem_pairs.mpr ⟨e, hes, rfl⟩, hp, rfl⟩, s.erase e,
    hdel.inv, ?_⟩
  rw [pairs_deleted hes hdel]

variable {key : Key}

theorem delByKey_takes (hk : KeyOrder cb) (hi : Inv cb h s) {data : Option Data}
    (hdel : DelFits cb h key)
    (hp : ∀ x : Key × Data, p x ↔ x.1 = key ∧ (data = none ∨ data = some x.2))
    (hfound : ∀ e ∈ s, p ((h.element e).key, (h.element e).data) →
      (h.findByHash cb key data (cb.keyHash key)).isSome) :
    ∃ h' r M', h.delByKey cb key data = some (h', r) ∧ Takes p (pairs h s) M' r ∧
      Bags cb h' M' := by
  rw [delByKey]
  cases hfind : h.findByHash cb key data (cb.keyHash key) with
  | none =>
    refine ⟨h, false, _, rfl, .inr ⟨rfl, rfl, ?_⟩, s, hi, rfl⟩
    intro x hx hpx
    obtain ⟨e, he, heq⟩ := mem_pairs.mp hx
    have hsome := hfound e he (by rw [heq]; exact hpx)
    rw [hfind] at hsome
    simp at hsome
  | some q =>
    obtain ⟨b, hb, ha, he, hes, hkey, hdata, htree, hshadow⟩ :=
      findByHash_some hk hi hfind
    have hdepth : removeDepth (cmpKeyNode cb h.element) q.2 (h.head q.1).head ≤
        Mem.stackSize := by
      rw [htree]
      exact hdel q.2 ((hi.linked q.2).mp hes) hkey
    obtain ⟨h', M', hrun, htakes, hbags⟩ := delByHashEl_takes hi hb ha he rfl hshadow hdepth
      ((hp _).mpr ⟨hkey, hdata⟩)
    refine ⟨h', true, M', ?_, htakes, hbags⟩
    simp only [hrun]
    rfl

theorem delByKey_none_takes (hk : KeyOrder cb) (hi : Inv cb h s) (hdel : DelFits cb h key) :
    ∃ h' r M', h.delByKey cb key none = some (h', r) ∧
      Takes (fun x => x.1 = key) (pairs h s) M' r ∧ Bags cb h' M' := by
  refine delByKey_takes hk hi hdel (by simp) ?_
  rintro e he rfl
  exact findByHash_key_isSome hk hi he

variable {data : Data}

theorem delByKey_some_takes (hk : KeyOrder cb) (hi : Inv cb h s) (hpair : PairFits cb h key data)
    (hdel : DelFits cb h key) :
    ∃ h' r M', h.delByKey cb key (some data) = some (h', r) ∧
      Takes (fun x => x = (key, data)) (pairs h s) M' r ∧ Bags cb h' M' := by
  refine delByKey_takes hk hi hdel ?_ ?_
  · simp [Prod.ext_iff, eq_comm]
  · intro e he heq
    have helement : h.element e = ⟨key, data⟩ := by
      rw [Prod.mk.injEq] at heq
      rw [← heq.1, ← heq.2]
    -- the element found need not be this one, but one that is not hidden is there
    obtain ⟨x, hx, hxe, hhidden⟩ := hpair ⟨e, (hi.linked e).mp he, helement⟩
    have hsome := findByHash_isSome hk hi ((hi.linked x).mpr hx)
      (show some data = none ∨ some data = some (h.element x).data from .inr (by rw [hxe]))
      hhidden
    rw [hxe] at hsome
    exact hsome

omit [DecidableEq (Key × Data)] in
theorem findByData_some (hfind : h.findByData data = some (num, a, e)) :
    ∃ b, h.buckets = some b ∧ num < h.size ∧ a ∈ (b num).toList ∧
      e ∈ (h.head a).head.toList ∧ (h.element e).data = data := by
  unfold findByData at hfind
  rw [bind_eq_bind, bind_eq_some_iff] at hfind
  obtain ⟨b, hb, hfind⟩ := hfind
  obtain ⟨num', hnum, hfind⟩ := exists_of_findSome?_eq_some hfind
  obtain ⟨a', ha, hfind⟩ := exists_of_findSome?_eq_some hfind
  rw [map_eq_some_iff] at hfind
  obtain ⟨e', he, heq⟩ := hfind
  obtain ⟨rfl, rfl, rfl⟩ : num' = num ∧ a' = a ∧ e' = e := by simpa using heq
  refine ⟨b, hb, mem_range.mp hnum, (prefixOrder_perm _).mem_iff.mp ha,
    (prefixOrder_perm _).mem_iff.mp (mem_of_find?_eq_some he), ?_⟩
  simpa using find?_some he

omit [DecidableEq (Key × Data)] in
theorem findByData_none (hi : Inv cb h s) (hfind : h.findByData data = none) :
    ∀ e ∈ s, (h.element e).data ≠ data := by
  intro e he hdata
  obtain ⟨b, hb, num, a, ha, hea⟩ := (hi.linked e).mp he
  have hnum : num < h.size := by
    rw [← (((hi.linking b hb).heads num a ha).hash e hea).1]
    exact hashNum_lt h _
  unfold findByData at hfind
  rw [hb, bind_eq_bind, bind_some, findSome?_eq_none_iff] at hfind
  have h1 := hfind num (mem_range.mpr hnum)
  rw [findSome?_eq_none_iff] at h1
  have h2 := h1 a ((prefixOrder_perm _).mem_iff.mpr ha)
  rw [map_eq_none_iff, find?_eq_none] at h2
  exact h2 e ((prefixOrder_perm _).mem_iff.mpr hea) (by simpa using hdata)

theorem delByData_takes (hi : Inv cb h s) (hdata : DataFits cb h data) :
    ∃ h' r M', h.delByData cb (some data) = some (h', r) ∧
      Takes (fun x => x.2 = data) (pairs h s) M' r ∧ Bags cb h' M' := by
  rw [delByData]
  cases hfind : h.findByData data with
  | none =>
    refine ⟨h, false, _, rfl, .inr ⟨rfl, rfl, ?_⟩, s, hi, rfl⟩
    intro x hx hxd
    obtain ⟨e, he, heq⟩ := mem_pairs.mp hx
    refine findByData_none hi hfind e he ?_
    rw [heq]
    exact hxd
  | some q =>
    obtain ⟨num, a, e⟩ := q
    obtain ⟨b, hb, hnum, ha, he, hed⟩ := findByData_some hfind
    obtain ⟨hhidden, hdel⟩ := hdata (num, a, e) hfind
    obtain ⟨hhn, hhh⟩ := ((hi.linking b hb).heads num a ha).hash e he
    have htree : treeOf h (cb.keyHash (h.element e).key) = (h.head a).head :=
      treeOf_eq hi hb (by rw [hhn]; exact ha) hhh.symm
    have hes : e ∈ s := (hi.linked e).mpr ⟨b, hb, num, a, ha, he⟩
    have hdepth := hdel e ((hi.linked e).mp hes) rfl
    rw [htree] at hdepth
    rw [Hidden, htree] at hhidden
    obtain ⟨h', M', hrun, htakes, hbags⟩ := delByHashEl_takes hi hb ha he
      (hashNum_ofNat hi.power hnum) hhidden hdepth (p := fun x => x.2 = data) hed
    refine ⟨h', true, M', ?_, htakes, hbags⟩
    simp only [hrun]
    rfl

variable {M : Multiset (Key × Data)} {element : Addr → Element Key Data} {head : Addr → Head}

/-- **One call that fits answers and acts as on the bag.** -/
theorem bagStep_bags (hk : KeyOrder cb) (hM : Bags cb h M) (op : BagOp Key Data)
    (hfits : op.Fits cb h) :
    ∃ h' r M', bagStep cb h op = some (h', r) ∧ BagNext M op M' r ∧ Bags cb h' M' := by
  obtain ⟨s, hi, rfl⟩ := hM
  match op, hfits with
  | .add key none, _ => exact ⟨h, false, _, rfl, ⟨rfl, rfl⟩, s, hi, rfl⟩
  | .add key (some data), hadd =>
    obtain ⟨h', e, hrun, hadded⟩ := added_of_fits hk hi data hadd
    exact ⟨h', true, _, hrun, ⟨rfl, rfl⟩, insert e s, hadded.inv, (pairs_added hadded).symm⟩
  | .del (some key) (some data), ⟨hpair, hdel⟩ => exact delByKey_some_takes hk hi hpair hdel
  | .del (some key) none, hdel => exact delByKey_none_takes hk hi hdel
  | .del none (some data), hdata => exact delByData_takes hi hdata
  | .del none none, _ => exact ⟨h, false, _, rfl, ⟨rfl, rfl⟩, s, hi, rfl⟩
  | .delByData (some data), hdata => exact delByData_takes hi hdata
  | .delByData none, _ => exact ⟨h, false, _, rfl, ⟨rfl, rfl⟩, s, hi, rfl⟩
  | .delByKey key, hdel => exact delByKey_none_takes hk hi hdel

/-! ### Runs -/

omit [DecidableEq Data] [DecidableEq (Key × Data)] in
theorem Bags.card_eq (hM : Bags cb h M) : h.population = M.card := by
  obtain ⟨s, hi, rfl⟩ := hM
  rw [hi.population, pairs, Multiset.card_map]
  rfl

omit [DecidableEq Data] [DecidableEq (Key × Data)] in
theorem Bags.not_freed (hM : Bags cb h M) (he : Linked h e) : e ∉ h.freedElements := by
  obtain ⟨s, hi, rfl⟩ := hM
  obtain ⟨b, hb, num, a, ha, hea⟩ := he
  exact (((hi.linking b hb).heads num a ha).elements e hea).2

omit [DecidableEq Data] [DecidableEq (Key × Data)] in
theorem bags_new {p : Nat}
    (hnew : Hash.new p head element = some h) : Bags cb h 0 :=
  ⟨∅, inv_new hnew, rfl⟩

/--
**Every run whose calls fit behaves as the bag of pairs**: it returns what the bag
returns, the linked elements are the pairs of the bag, the population is their
number, and none of them was freed.  The number is returned as it is while it fits an `int`.
-/
theorem run_bags (hk : KeyOrder cb) {p : Nat} (hnew : Hash.new p head element = some h)
    (ops : List (BagOp Key Data))
    (hops : Runs.Meets (fun h op => op.Fits cb h) (bagStep cb) h ops) :
    ∃ h' rs M', Runs.run (bagStep cb) h ops = some (h', rs) ∧
      Runs.Traces BagNext 0 ops M' rs ∧ Bags cb h' M' ∧ h'.population = M'.card ∧
      (M'.card < 2 ^ 31 → h'.returnedPopulation = M'.card) ∧
      ∀ e, Linked h' e → e ∉ h'.freedElements := by
  obtain ⟨h', rs, M', hrun, htrace, hbags⟩ :=
    Runs.run_simulates (fun h M op hM hfits => bagStep_bags hk hM op hfits) ops h 0
      (bags_new hnew) hops
  refine ⟨h', rs, M', hrun, htrace, hbags, hbags.card_eq, ?_, fun e he => hbags.not_freed he⟩
  rw [← hbags.card_eq]
  exact returnedPopulation_eq

end Steps

theorem delFits_of_height {key : Key}
    (hheight : (treeOf h (cb.keyHash key)).height ≤ Mem.stackSize) : DelFits cb h key :=
  fun _ _ _ => (removeDepth_le _ _ _).trans hheight

/-- Two elements with one key: the second one is deleted by key and data, the first by data. -/
theorem run_bags_two : ∃ h' rs M',
    Runs.run (bagStep natCallbacks) emptyHash
        [.add 0 (some 1), .add 0 (some 2), .del (some 0) (some 2), .delByData (some 1)] =
      some (h', rs) ∧
      Runs.Traces BagNext 0
        [.add 0 (some 1), .add 0 (some 2), .del (some 0) (some 2), .delByData (some 1)] M' rs ∧
      Bags natCallbacks h' M' ∧ h'.population = M'.card ∧
      (M'.card < 2 ^ 31 → h'.returnedPopulation = M'.card) ∧
      ∀ e, Linked h' e → e ∉ h'.freedElements := by
  refine run_bags natCallbacks_order new_emptyHash _ ?_
  refine ⟨Nat.le_of_ble_eq_true rfl, ?_⟩
  intro p1 hp1
  obtain rfl := some.inj hp1
  refine ⟨Nat.le_of_ble_eq_true rfl, ?_⟩
  intro p2 hp2
  obtain rfl := some.inj hp2
  refine ⟨⟨?_, delFits_of_height (by decide)⟩, ?_⟩
  · intro
    exact ⟨2, ⟨_, rfl, 0, 0, by decide, by decide⟩, rfl, by decide⟩
  intro p3 hp3
  obtain rfl := some.inj hp3
  refine ⟨?_, fun _ _ => trivial⟩
  intro q hq
  obtain rfl := some.inj hq
  exact ⟨by decide, delFits_of_height (by decide)⟩

/-! ### Three elements with one key -/

/-- The element with data 1 becomes the left son of the one with data 2. -/
def threeAdds : List (BagOp Nat Nat) := [.add 0 (some 1), .add 0 (some 2), .add 0 (some 3)]

theorem not_traces_threeAdds (M : Multiset (Nat × Nat)) :
    ¬ Runs.Traces BagNext 0 (threeAdds ++ [.del (some 0) (some 1)]) M
      [true, true, true, false] := by
  rintro ⟨M1, r1, rs1, ⟨rfl, -⟩, h1, M2, r2, rs2, ⟨rfl, -⟩, h2, M3, r3, rs3, ⟨rfl, -⟩, h3,
    M4, r4, rs4, h4, h5, -⟩
  have hr : r4 = false := by
    rw [h5] at h3
    rw [h3] at h2
    rw [h2] at h1
    simp only [cons.injEq] at h1
    exact h1.2.2.2.1.symm
  rcases h4 with ⟨h4, -⟩ | ⟨-, -, h4⟩
  · rw [hr] at h4
    exact absurd h4 (by decide)
  · exact h4 (0, 1) (by decide) rfl

/--
`eina_hash_del` of a key and data that are stored returns false; `eina_hash_del_by_data`
of the same data returns true and frees an element that stays linked.
-/
theorem shadowed_elements :
    KeyOrder natCallbacks ∧
      (∃ h, Runs.run (bagStep natCallbacks) emptyHash
          (threeAdds ++ [.del (some 0) (some 1)]) = some (h, [true, true, true, false]) ∧
        ∀ M, ¬ Runs.Traces BagNext 0 (threeAdds ++ [.del (some 0) (some 1)]) M
          [true, true, true, false]) ∧
      ∃ h e, Runs.run (bagStep natCallbacks) emptyHash
          (threeAdds ++ [.delByData (some 1)]) = some (h, [true, true, true, true]) ∧
        Linked h e ∧ e ∈ h.freedElements ∧ h.element e = ⟨0, 1⟩ := by
  refine ⟨natCallbacks_order, ⟨_, rfl, not_traces_threeAdds⟩, _, 1, rfl, ?_, ?_, ?_⟩
  · exact ⟨_, rfl, 0, 0, by decide, by decide⟩
  · decide
  · rfl

end Eina.Hash
