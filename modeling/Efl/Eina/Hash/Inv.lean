/-
The invariant of a hash, and what each lookup means under it.

`Linking cb h b` says that the trees of heads are in order and that every element belongs to its
head by its key.  `Inv cb h s` adds that no head is empty and that the linked elements are those
of the set `s`, which the population counts.

A lookup with data goes on to the right of an element with the key and other data, and so does not
see the elements that are shadowed there.
-/
import Efl.Eina.Hash.Basic

namespace Eina.Hash

open RedBlack Rbtree Option

variable {Key Data : Type} {cb : Callbacks Key} {h : Hash Key Data}
  {element : Addr → Element Key Data} (head : Addr → Head)

/-- `key_cmp_cb` is a total order with result 0 exactly on equal keys. -/
structure KeyOrder (cb : Callbacks Key) : Prop where
  swap : ∀ a b, cb.keyCmp a b < 0 ↔ 0 < cb.keyCmp b a
  trans : ∀ a b c, cb.keyCmp a b < 0 → cb.keyCmp b c < 0 → cb.keyCmp a c < 0
  zero : ∀ a b, cb.keyCmp a b = 0 ↔ a = b

theorem sorts_cmpKeyNode (hk : KeyOrder cb) (element : Addr → Element Key Data) :
    Sorts (cmpKeyNode cb element) := by
  have hright : ∀ a b, cmpKeyNode cb element a b = .right ↔
      ¬ cb.keyCmp (element a).key (element b).key < 0 := by
    intro a b
    unfold cmpKeyNode
    split <;> simp_all
  refine ⟨?_, ?_⟩
  · intro a b _ hab
    rw [hright]
    have hlt : cb.keyCmp (element a).key (element b).key < 0 := by
      by_contra hn
      rw [(hright a b).mpr hn] at hab
      exact Direction.noConfusion hab
    have hgt := (hk.swap _ _).mp hlt
    omega
  · intro a b c hab hbc
    rw [hright] at hab hbc ⊢
    intro hac
    by_cases heq : cb.keyCmp (element b).key (element c).key = 0
    · rw [(hk.zero _ _).mp heq] at hab
      exact hab hac
    · have hcb : cb.keyCmp (element c).key (element b).key < 0 := (hk.swap _ _).mpr (by omega)
      exact hab (hk.trans _ _ _ hac hcb)

theorem sorts_cmpHashNode : Sorts (cmpHashNode head) := by
  have hright : ∀ a b, cmpHashNode head a b = .right ↔
      (head b).hash.toNat ≤ (head a).hash.toNat := by
    intro a b
    unfold cmpHashNode
    split
    · simp only [reduceCtorEq, false_iff]
      omega
    · simp only [true_iff]
      omega
  refine ⟨?_, ?_⟩
  · intro a b _ hab
    rw [hright]
    have hn : ¬ (head b).hash.toNat ≤ (head a).hash.toNat := by
      rw [← hright, hab]
      simp
    omega
  · intro a b c hab hbc
    rw [hright] at hab hbc ⊢
    omega

/-! ### The invariant -/

/-- The elements below a head in bucket `num` belong there. -/
structure HeadOk (cb : Callbacks Key) (h : Hash Key Data) (num : Nat) (a : Addr) : Prop where
  tree : IsTree (cmpKeyNode cb h.element) (h.head a).head
  hash : ∀ e ∈ (h.head a).head.toList, h.hashNum (cb.keyHash (h.element e).key) = num ∧
    h.rbHash (cb.keyHash (h.element e).key) = (h.head a).hash
  alloc : a < h.next ∧ a ∉ h.freedHeads
  elements : ∀ e ∈ (h.head a).head.toList, e < h.next ∧ e ∉ h.freedElements

/-- A bucket array whose heads may be empty. -/
structure Linking (cb : Callbacks Key) (h : Hash Key Data) (b : Nat → Tree Addr) : Prop where
  tree : ∀ num, IsTree (cmpHashNode h.head) (b num)
  strict : ∀ num, ∀ a ∈ (b num).toList, ∀ a' ∈ (b num).toList,
    (h.head a).hash = (h.head a').hash → a = a'
  apart : ∀ i j a, a ∈ (b i).toList → a ∈ (b j).toList → i = j
  heads : ∀ num, ∀ a ∈ (b num).toList, HeadOk cb h num a

/-- The element `e` is reachable from a bucket. -/
def Linked (h : Hash Key Data) (e : Addr) : Prop :=
  ∃ b, h.buckets = some b ∧ ∃ num, ∃ a ∈ (b num).toList, e ∈ (h.head a).head.toList

/-- What every hash satisfies whose linked elements are those of `s`. -/
structure Inv (cb : Callbacks Key) (h : Hash Key Data) (s : Finset Addr) : Prop where
  power : h.bucketsPowerSize ≤ 16
  linking : ∀ b, h.buckets = some b → Linking cb h b
  filled : ∀ b, h.buckets = some b → ∀ num, ∀ a ∈ (b num).toList, (h.head a).head ≠ .nil
  linked : ∀ e, e ∈ s ↔ Linked h e
  population : h.population = s.card
  empty : h.buckets = none ↔ s = ∅
  freed : ∀ a, a ∈ h.freedHeads ∨ a ∈ h.freedElements → a < h.next

theorem inv_new {p : Nat} {head : Addr → Head}
    (hnew : Hash.new p head element = some h) : Inv cb h ∅ := by
  unfold Hash.new at hnew
  split at hnew
  · simp at hnew
  split at hnew
  · simp at hnew
  obtain rfl := some.inj hnew
  refine ⟨?_, ?_, ?_, ?_, rfl, by simp, by simp⟩
  · show p ≤ 16
    omega
  · intro b hb
    simp at hb
  · intro b hb
    simp at hb
  · simp [Linked]

/-! ### Bucket and head of a key -/

theorem hashNum_lt (h : Hash Key Data) (x : BitVec 32) : h.hashNum x < h.size := by
  have hpos : 0 < h.size := Nat.two_pow_pos _
  have hle : h.hashNum x ≤ h.size - 1 := by
    refine Nat.and_le_right.trans ?_
    exact Nat.mod_le _ _
  omega

theorem hashNum_ofNat (hp : h.bucketsPowerSize ≤ 16) {num : Nat} (hnum : num < h.size) :
    h.hashNum (BitVec.ofNat 32 num) = num := by
  have hsize : h.size ≤ 2 ^ 16 := Nat.pow_le_pow_right (by omega) hp
  have h1 : num % 2 ^ 32 = num := Nat.mod_eq_of_lt (by omega)
  have h2 : (h.size - 1) % 2 ^ 32 = h.size - 1 := Nat.mod_eq_of_lt (by omega)
  rw [hashNum, BitVec.toNat_and, BitVec.toNat_ofNat, BitVec.toNat_ofNat, h1, h2]
  show num &&& (2 ^ h.bucketsPowerSize - 1) = num
  rw [Nat.and_two_pow_sub_one_eq_mod]
  exact Nat.mod_eq_of_lt hnum

variable {b : Nat → Tree Addr}

theorem cmpHashNode_strict (hl : Linking cb h b) (num : Nat) :
    ∀ x ∈ (b num).toList, ∀ y ∈ (b num).toList, x ≠ y →
      cmpHashNode h.head x y = .right → cmpHashNode h.head y x = .left := by
  intro x hx y hy hne hxy
  have hdiff : (h.head x).hash ≠ (h.head y).hash := fun he => hne (hl.strict num x hx y hy he)
  have hnat : (h.head x).hash.toNat ≠ (h.head y).hash.toNat :=
    fun he => hdiff (BitVec.eq_of_toNat_eq he)
  unfold cmpHashNode at hxy ⊢
  split at hxy
  · simp at hxy
  · rw [if_pos (by omega)]

theorem bucket_searchTree (hl : Linking cb h b) (num : Nat) :
    (b num).SearchTree (cmpHashNode h.head) :=
  (hl.tree num).ordered.searchTree (cmpHashNode_strict hl num) (hl.tree num).nodup

theorem cmpHash_agrees (x q : Addr) :
    (cmpHash head (head x).hash q < 0 → cmpHashNode head q x = .left) ∧
      (0 < cmpHash head (head x).hash q → cmpHashNode head q x = .right) := by
  unfold cmpHash cmpHashNode
  refine ⟨fun hlt => by rw [if_pos hlt], fun hgt => by rw [if_neg (by omega)]⟩

/-- **The lookup of a head finds the one with the hash.** -/
theorem lookup_head_iff (hl : Linking cb h b) (num : Nat) (hash : BitVec 16) (a : Addr) :
    inlineLookup (cmpHash h.head hash) (b num) = some a ↔
      a ∈ (b num).toList ∧ (h.head a).hash = hash := by
  have hzero : ∀ x, cmpHash h.head hash x = 0 ↔ (h.head x).hash = hash := by
    intro x
    unfold cmpHash
    constructor
    · intro hz
      exact BitVec.eq_of_toNat_eq (by omega)
    · intro he
      rw [he]
      omega
  constructor
  · intro hsome
    obtain ⟨hm, hz⟩ := inlineLookup_some hsome
    exact ⟨hm, (hzero a).mp hz⟩
  · rintro ⟨hm, rfl⟩
    have hpath := removePath_isSome [] (bucket_searchTree hl num) hm
    have hsome := inlineLookup_isSome hpath ((hzero a).mpr rfl)
      (fun q _ => cmpHash_agrees h.head a q)
    obtain ⟨x, hx⟩ := isSome_iff_exists.mp hsome
    obtain ⟨hxm, hxz⟩ := inlineLookup_some hx
    rw [hx, hl.strict num x hxm a hm ((hzero x).mp hxz)]

/-- The elements below the head of `keyHash`. -/
def treeOf (h : Hash Key Data) (keyHash : BitVec 32) : Tree Addr :=
  match inlineLookup (cmpHash h.head (h.rbHash keyHash))
      (h.buckets.getD (fun _ => .nil) (h.hashNum keyHash)) with
  | some a => (h.head a).head
  | none => .nil

variable {s : Finset Addr} {e : Addr}

theorem mem_treeOf (hi : Inv cb h s) (he : e ∈ s) :
    ∃ b a, h.buckets = some b ∧
      inlineLookup (cmpHash h.head (h.rbHash (cb.keyHash (h.element e).key)))
        (b (h.hashNum (cb.keyHash (h.element e).key))) = some a ∧
      e ∈ (h.head a).head.toList := by
  obtain ⟨b, hb, num, a, ha, hea⟩ := (hi.linked e).mp he
  have hl := hi.linking b hb
  obtain ⟨hnum, hhash⟩ := (hl.heads num a ha).hash e hea
  refine ⟨b, a, hb, ?_, hea⟩
  rw [lookup_head_iff hl, hnum, hhash]
  exact ⟨ha, rfl⟩

/-! ### Finding an element -/

variable [DecidableEq Data]

theorem cmpKeyData_agrees (cb : Callbacks Key) (element : Addr → Element Key Data)
    (data : Option Data) (x q : Addr) :
    (cmpKeyData cb element (element x).key data q < 0 → cmpKeyNode cb element q x = .left) ∧
      (0 < cmpKeyData cb element (element x).key data q →
        cmpKeyNode cb element q x = .right) := by
  unfold cmpKeyData cmpKeyNode
  simp only
  split
  · refine ⟨fun hlt => absurd hlt (by omega), fun _ => ?_⟩
    rw [if_neg (by omega)]
  · exact ⟨fun hlt => by rw [if_pos hlt], fun hgt => by rw [if_neg (by omega)]⟩

variable {data : Option Data} {key : Key}

theorem cmpKeyData_eq_zero (hk : KeyOrder cb)
    {x : Addr} :
    cmpKeyData cb element key data x = 0 ↔
      (element x).key = key ∧ (data = none ∨ data = some (element x).data) := by
  unfold cmpKeyData
  simp only
  split
  · rename_i htie
    simp only [one_ne_zero, false_iff]
    rintro ⟨-, hnone | hsome⟩
    · exact htie.2.1 hnone
    · exact htie.2.2 hsome
  · rename_i htie
    rw [← hk.zero]
    constructor
    · intro hz
      refine ⟨hz, ?_⟩
      by_contra hdata
      rw [not_or] at hdata
      exact htie ⟨hz, hdata.1, hdata.2⟩
    · intro hz
      exact hz.1

theorem findByHash_some (hk : KeyOrder cb) (hi : Inv cb h s) {a : Addr}
    (hfind : h.findByHash cb key data (cb.keyHash key) = some (a, e)) :
    ∃ b, h.buckets = some b ∧ a ∈ (b (h.hashNum (cb.keyHash key))).toList ∧
      e ∈ (h.head a).head.toList ∧ e ∈ s ∧ (h.element e).key = key ∧
      (data = none ∨ data = some (h.element e).data) ∧
      (h.head a).head = treeOf h (cb.keyHash key) ∧
      ¬ Shadowed (cmpKeyNode cb h.element) e (h.head a).head := by
  unfold findByHash at hfind
  simp only [bind_eq_bind, bind_eq_some_iff, pure_def, some.injEq,
    Prod.mk.injEq] at hfind
  obtain ⟨b, hb, a', ha', e', he', rfl, rfl⟩ := hfind
  have hl := hi.linking b hb
  obtain ⟨ham, -⟩ := (lookup_head_iff hl _ _ _).mp ha'
  obtain ⟨hem, hez⟩ := inlineLookup_some he'
  obtain ⟨hkey, hdata⟩ := (cmpKeyData_eq_zero hk).mp hez
  have hes : e' ∈ s := (hi.linked e').mpr ⟨b, hb, _, a', ham, hem⟩
  have htree := (hl.heads _ a' ham).tree
  have hagree : ∀ q ∈ (h.head a').head.toList,
      (cmpKeyData cb h.element key data q < 0 → cmpKeyNode cb h.element q e' = .left) ∧
        (0 < cmpKeyData cb h.element key data q → cmpKeyNode cb h.element q e' = .right) := by
    intro q _
    rw [← hkey]
    exact cmpKeyData_agrees cb h.element data e' q
  have hpath := removePath_isSome_of_lookup [] he' hagree
  have hshadow := (removePath_isSome_iff [] htree.nodup htree.ordered hem).mp hpath
  refine ⟨b, hb, ham, hem, hes, hkey, hdata, ?_, hshadow⟩
  rw [treeOf, hb]
  simp only [getD_some, ha']

theorem findByHash_isSome (hk : KeyOrder cb) (hi : Inv cb h s) (he : e ∈ s)
    (hdata : data = none ∨ data = some (h.element e).data)
    (hshadow : ¬ Shadowed (cmpKeyNode cb h.element) e (treeOf h (cb.keyHash (h.element e).key))) :
    (h.findByHash cb (h.element e).key data (cb.keyHash (h.element e).key)).isSome := by
  obtain ⟨b, a, hb, ha, hea⟩ := mem_treeOf hi he
  have hl := hi.linking b hb
  obtain ⟨ham, -⟩ := (lookup_head_iff hl _ _ _).mp ha
  have htree := (hl.heads _ a ham).tree
  have htreeOf : treeOf h (cb.keyHash (h.element e).key) = (h.head a).head := by
    rw [treeOf, hb]
    simp only [getD_some, ha]
  rw [htreeOf] at hshadow
  have hpath := (removePath_isSome_iff [] htree.nodup htree.ordered hea).mpr hshadow
  have hfound := inlineLookup_isSome hpath ((cmpKeyData_eq_zero hk).mpr ⟨rfl, hdata⟩)
    (fun q _ => cmpKeyData_agrees cb h.element data e q)
  obtain ⟨x, hx⟩ := isSome_iff_exists.mp hfound
  simp [findByHash, hb, ha, hx]

/-- **A lookup without data finds an element with the key whenever there is one.** -/
theorem findByHash_key_isSome (hk : KeyOrder cb) (hi : Inv cb h s) (he : e ∈ s) :
    (h.findByHash cb (h.element e).key none (cb.keyHash (h.element e).key)).isSome := by
  obtain ⟨b, a, hb, ha, hea⟩ := mem_treeOf hi he
  have hl := hi.linking b hb
  obtain ⟨ham, -⟩ := (lookup_head_iff hl _ _ _).mp ha
  have hagree : ∀ q ∈ (h.head a).head.toList,
      (cmpKeyData cb h.element (h.element e).key none q < 0 →
        cmpKeyNode cb h.element q e = .left) ∧
      (0 < cmpKeyData cb h.element (h.element e).key none q →
        cmpKeyNode cb h.element e q = .left) := by
    intro q _
    refine ⟨(cmpKeyData_agrees cb h.element none e q).1, fun hgt => ?_⟩
    have hq : 0 < cb.keyCmp (h.element q).key (h.element e).key := by
      simpa [cmpKeyData] using hgt
    rw [cmpKeyNode, if_pos ((hk.swap _ _).mpr hq)]
  have hfound := inlineLookup_isSome_of_ordered (hl.heads _ a ham).tree.ordered hea
    ((cmpKeyData_eq_zero hk).mpr ⟨rfl, .inl rfl⟩) hagree
  obtain ⟨x, hx⟩ := isSome_iff_exists.mp hfound
  simp [findByHash, hb, ha, hx]

end Eina.Hash
