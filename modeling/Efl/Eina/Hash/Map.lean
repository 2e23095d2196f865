/-
A hash as a finite map.

With `eina_hash_set`, `eina_hash_modify`, `eina_hash_del_by_key`, `eina_hash_find` and
`eina_hash_move` to a key that is not stored, no key is ever stored twice, so the
linked elements are the bindings of a map from keys to data.  `Models` is that
relation; each call answers and changes the hash as the map does.
-/
import Efl.Lib.Runs
import Efl.Eina.Hash.Del

namespace Eina.Hash

open RedBlack Rbtree Option Function Finset

variable {Key Data : Type} {cb : Callbacks Key} {h h' : Hash Key Data} {s : Finset Addr}

/-! ### The calls -/

/-- A call that treats the hash as a map. -/
inductive MapOp (Key Data : Type) where
  | set (key : Key) (data : Option Data)
  | modify (key : Key) (data : Option Data)
  | delByKey (key : Key)
  | find (key : Key)
  | move (oldKey newKey : Key)

/-- What a call returns. -/
inductive Ret (Data : Type) where
  | data (d : Option Data)
  | bool (b : Bool)
  deriving DecidableEq

def mapStep [DecidableEq Data] (cb : Callbacks Key) (h : Hash Key Data) :
    MapOp Key Data → Option (Hash Key Data × Ret Data)
  | .set key data => (h.set cb key data).map fun p => (p.1, .data p.2)
  | .modify key data => some ((h.modify cb key data).1, .data (h.modify cb key data).2)
  | .delByKey key => (h.delByKey cb key none).map fun p => (p.1, .bool p.2)
  | .find key => some (h, .data (h.find cb key))
  | .move oldKey newKey => (h.move cb oldKey newKey).map fun p => (p.1, .bool p.2)

/-- The call on a finite map. -/
def mapNext [DecidableEq Key] (m : Key → Option Data) :
    MapOp Key Data → (Key → Option Data) × Ret Data
  | .set key data => (update m key data, .data (m key))
  | .modify key data =>
    if data ≠ none ∧ m key ≠ none then (update m key data, .data (m key))
    else (m, .data none)
  | .delByKey key => (update m key none, .bool (m key).isSome)
  | .find key => (m, .data (m key))
  | .move oldKey newKey =>
    match m oldKey with
    | none => (m, .bool false)
    | some data =>
      (update (update m oldKey none) newKey (some data), .bool true)

/-- A linked element has the key. -/
def Stored (h : Hash Key Data) (key : Key) : Prop :=
  ∃ e, Linked h e ∧ (h.element e).key = key

/-- The way down to every element with the key, and on to its successor, fits. -/
def DelFits (cb : Callbacks Key) (h : Hash Key Data) (key : Key) : Prop :=
  ∀ e, Linked h e → (h.element e).key = key →
    removeDepth (cmpKeyNode cb h.element) e (treeOf h (cb.keyHash key)) ≤ Mem.stackSize

/-- The way down to the place of a new element with the key fits. -/
def AddFits (cb : Callbacks Key) (h : Hash Key Data) (key : Key) : Prop :=
  addDepth cb h key ≤ Mem.stackSize

/--
The condition of a call: a move is to a key that is not stored, and no tree of
elements is walked deeper than the stack of `eina_rbtree.c` allows.
-/
def MapOp.Fits [DecidableEq Data] (cb : Callbacks Key) (h : Hash Key Data) : MapOp Key Data → Prop
  | .set key none => DelFits cb h key
  | .set key (some _) => Stored h key ∨ AddFits cb h key
  | .modify _ _ => True
  | .delByKey key => DelFits cb h key
  | .find _ => True
  | .move oldKey newKey => ¬ Stored h newKey ∧ DelFits cb h oldKey ∧
      ∀ data p, h.find cb oldKey = some data → h.del cb (some oldKey) (some data) = some p →
        AddFits cb p.1 newKey

/-! ### The map a hash stands for -/

/-- The linked elements are the bindings of `m`. -/
structure Binds (h : Hash Key Data) (s : Finset Addr) (m : Key → Option Data) : Prop where
  unique : ∀ e ∈ s, ∀ e' ∈ s, (h.element e).key = (h.element e').key → e = e'
  binds : ∀ key data, m key = some data ↔ ∃ e ∈ s, h.element e = ⟨key, data⟩

/-- The hash stands for the map `m`. -/
def Models (cb : Callbacks Key) (h : Hash Key Data) (m : Key → Option Data) : Prop :=
  ∃ s, Inv cb h s ∧ Binds h s m

theorem Binds.eq_none_iff {m : Key → Option Data} (hb : Binds h s m) (key : Key) :
    m key = none ↔ ∀ e ∈ s, (h.element e).key ≠ key := by
  constructor
  · rintro hnone e he rfl
    have hsome := (hb.binds (h.element e).key (h.element e).data).mpr ⟨e, he, rfl⟩
    rw [hnone] at hsome
    simp at hsome
  · intro hno
    cases hm : m key with
    | none => rfl
    | some data =>
      obtain ⟨e, he, heq⟩ := (hb.binds key data).mp hm
      exact absurd (by rw [heq]) (hno e he)

theorem Binds.eq_some {m : Key → Option Data} (hb : Binds h s m) {e : Addr} (he : e ∈ s) :
    m (h.element e).key = some (h.element e).data :=
  (hb.binds _ _).mpr ⟨e, he, rfl⟩

section Lookup

variable [DecidableEq Data]

theorem findByHash_none_iff (hk : KeyOrder cb) (hi : Inv cb h s) (key : Key) :
    h.findByHash cb key none (cb.keyHash key) = none ↔ ∀ e ∈ s, (h.element e).key ≠ key := by
  constructor
  · rintro hnone e he rfl
    have hsome := findByHash_key_isSome hk hi he
    rw [hnone] at hsome
    simp at hsome
  · intro hno
    cases hfind : h.findByHash cb key none (cb.keyHash key) with
    | none => rfl
    | some p =>
      obtain ⟨b, -, -, -, hes, hkey, -⟩ := findByHash_some hk hi hfind
      exact absurd hkey (hno p.2 hes)

theorem find_eq (hk : KeyOrder cb) (hi : Inv cb h s) {m : Key → Option Data} (hb : Binds h s m)
    (key : Key) : h.find cb key = m key := by
  unfold find
  by_cases hpop : h.population = 0
  · rw [if_pos hpop]
    rw [hi.population, card_eq_zero] at hpop
    subst hpop
    exact ((hb.eq_none_iff key).mpr (by simp)).symm
  rw [if_neg hpop]
  cases hfind : h.findByHash cb key none (cb.keyHash key) with
  | none =>
    exact ((hb.eq_none_iff key).mpr ((findByHash_none_iff hk hi key).mp hfind)).symm
  | some p =>
    obtain ⟨b, -, -, -, hes, hkey, -⟩ := findByHash_some hk hi hfind
    rw [← hkey]
    exact (hb.eq_some hes).symm

end Lookup

/-! ### What each change does to the map -/

section Changes

variable [DecidableEq Key] {m : Key → Option Data} {e : Addr}

/-- An element that is added binds its key. -/
theorem Binds.added (hb : Binds h s m) {key : Key} {data : Data}
    (hadd : Added cb h h' s e key data) (hnone : m key = none) :
    Binds h' (insert e s) (update m key (some data)) := by
  have hno := (hb.eq_none_iff key).mp hnone
  have hkey : ∀ x ∈ s, (h'.element x).key ≠ key := by
    intro x hx
    rw [hadd.others x hx]
    exact hno x hx
  refine ⟨?_, ?_⟩
  · intro x hx y hy heq
    rcases mem_insert.mp hx with rfl | hxs
    · rcases mem_insert.mp hy with rfl | hys
      · rfl
      · rw [hadd.element] at heq
        exact absurd heq.symm (hkey y hys)
    · rcases mem_insert.mp hy with rfl | hys
      · rw [hadd.element] at heq
        exact absurd heq (hkey x hxs)
      · rw [hadd.others x hxs, hadd.others y hys] at heq
        exact hb.unique x hxs y hys heq
  · intro k d
    by_cases hkk : k = key
    · subst hkk
      rw [update_self]
      constructor
      · intro hd
        obtain rfl := some.inj hd
        exact ⟨e, mem_insert_self e s, hadd.element⟩
      · rintro ⟨x, hx, heq⟩
        rcases mem_insert.mp hx with rfl | hxs
        · rw [hadd.element] at heq
          simpa using heq
        · exact absurd (by rw [heq]) (hkey x hxs)
    · rw [update_of_ne hkk, hb.binds]
      constructor
      · rintro ⟨x, hx, heq⟩
        exact ⟨x, mem_insert_of_mem hx, by rw [hadd.others x hx]; exact heq⟩
      · rintro ⟨x, hx, heq⟩
        rcases mem_insert.mp hx with rfl | hxs
        · rw [hadd.element] at heq
          exact absurd (congrArg Element.key heq).symm hkk
        · exact ⟨x, hxs, by rw [← hadd.others x hxs]; exact heq⟩

theorem Binds.deleted (hb : Binds h s m) (he : e ∈ s) (hdel : Deleted cb h h' s e) :
    Binds h' (s.erase e) (update m (h.element e).key none) := by
  refine ⟨?_, ?_⟩
  · intro x hx y hy heq
    rw [hdel.element] at heq
    exact hb.unique x (mem_of_mem_erase hx) y (mem_of_mem_erase hy) heq
  · intro k d
    rw [hdel.element]
    by_cases hkk : k = (h.element e).key
    · rw [hkk, update_self]
      simp only [reduceCtorEq, false_iff]
      rintro ⟨x, hx, heq⟩
      rw [mem_erase] at hx
      exact hx.1 (hb.unique x hx.2 e he (by rw [heq]))
    · rw [update_of_ne hkk, hb.binds]
      constructor
      · rintro ⟨x, hx, heq⟩
        refine ⟨x, mem_erase.mpr ⟨?_, hx⟩, heq⟩
        rintro rfl
        rw [heq] at hkk
        exact hkk rfl
      · rintro ⟨x, hx, heq⟩
        exact ⟨x, mem_of_mem_erase hx, heq⟩

/-- The hash with other data in the element `e`. -/
def withData (h : Hash Key Data) (e : Addr) (data : Data) : Hash Key Data :=
  { h with element := update h.element e { h.element e with data := data } }

omit [DecidableEq Key] in
theorem withData_key (x : Addr) (data : Data) :
    ((withData h e data).element x).key = (h.element x).key := by
  by_cases hx : x = e
  · subst hx
    simp [withData]
  · simp [withData, hx]

omit [DecidableEq Key] in
theorem inv_withData (hi : Inv cb h s) (data : Data) : Inv cb (withData h e data) s := by
  refine ⟨hi.power, ?_, hi.filled, hi.linked, hi.population, hi.empty, hi.freed⟩
  intro b hb
  have hl := hi.linking b hb
  refine ⟨hl.tree, hl.strict, hl.apart, ?_⟩
  intro num x hx
  have hok := hl.heads num x hx
  exact hok.mono rfl (fun y _ => withData_key y data) rfl hok.alloc hok.elements

theorem Binds.withData (hb : Binds h s m) (he : e ∈ s) (data : Data) :
    Binds (withData h e data) s (update m (h.element e).key (some data)) := by
  refine ⟨?_, ?_⟩
  · intro x hx y hy heq
    rw [withData_key, withData_key] at heq
    exact hb.unique x hx y hy heq
  · intro k d
    have hother : ∀ x ≠ e, (Hash.withData h e data).element x = h.element x := by
      intro x hx
      simp [Hash.withData, hx]
    have hself : (Hash.withData h e data).element e = ⟨(h.element e).key, data⟩ := by
      simp [Hash.withData]
    by_cases hkk : k = (h.element e).key
    · rw [hkk, update_self]
      constructor
      · intro hd
        obtain rfl := some.inj hd
        exact ⟨e, he, hself⟩
      · rintro ⟨x, hx, heq⟩
        have hxk : (h.element x).key = (h.element e).key := by
          rw [← withData_key x, heq]
        obtain rfl := hb.unique x hx e he hxk
        rw [hself] at heq
        simpa using heq
    · rw [update_of_ne hkk, hb.binds]
      constructor
      · rintro ⟨x, hx, heq⟩
        refine ⟨x, hx, ?_⟩
        rw [hother]
        · exact heq
        · rintro rfl
          rw [heq] at hkk
          exact hkk rfl
      · rintro ⟨x, hx, heq⟩
        refine ⟨x, hx, ?_⟩
        rw [← hother]
        · exact heq
        · rintro rfl
          rw [hself] at heq
          exact hkk (congrArg Element.key heq).symm

end Changes

/-! ### The calls on a hash that stands for a map -/

section Steps

variable [DecidableEq Key] [DecidableEq Data] {m : Key → Option Data}
  {element : Addr → Element Key Data} {head : Addr → Head} {p : Nat}

omit [DecidableEq Data] in
theorem update_none_self {key : Key} (h : m key = none) : update m key none = m := by
  rw [← h, update_eq_self]

omit [DecidableEq Key] [DecidableEq Data] in
theorem added_of_fits (hk : KeyOrder cb) (hi : Inv cb h s) {key : Key} (data : Data)
    (hfits : AddFits cb h key) :
    ∃ h' e, h.addAllocByHash cb key (cb.keyHash key) (some data) = some (h', true) ∧
      Added cb h h' s e key data := by
  have hdepth : addDepth cb h key ≤ Mem.stackSize := hfits
  have hspec := addAllocByHash_spec hk hi key data
  rw [if_pos hdepth] at hspec
  exact hspec

/-- A deletion by key, and what it answers. -/
theorem delByKey_models (hk : KeyOrder cb) (hi : Inv cb h s) (hb : Binds h s m) {key : Key}
    {data : Option Data} (hdata : data = none ∨ data = m key) (hfits : DelFits cb h key) :
    ∃ h', h.delByKey cb key data = some (h', (m key).isSome) ∧
      Models cb h' (update m key none) := by
  cases hm : m key with
  | none =>
    have hno := (hb.eq_none_iff key).mp hm
    have hfind : h.findByHash cb key data (cb.keyHash key) = none := by
      cases hfind : h.findByHash cb key data (cb.keyHash key) with
      | none => rfl
      | some p =>
        obtain ⟨b, -, -, -, hes, hkey, -⟩ := findByHash_some hk hi hfind
        exact absurd hkey (hno p.2 hes)
    refine ⟨h, ?_, s, hi, ?_⟩
    · rw [delByKey, hfind]
      rfl
    · rw [update_none_self hm]
      exact hb
  | some d =>
    obtain ⟨x, hxs, hx⟩ := (hb.binds key d).mp hm
    have hxk : (h.element x).key = key := by rw [hx]
    -- the only element with the key is found without data, so it is not shadowed
    have hplain : (h.findByHash cb key none (cb.keyHash key)).isSome := by
      rw [← hxk]
      exact findByHash_key_isSome hk hi hxs
    obtain ⟨p, hp⟩ := isSome_iff_exists.mp hplain
    obtain ⟨b0, hb0, -, -, hps, hpk, -, htree0, hshadow0⟩ :=
      findByHash_some hk hi hp
    obtain rfl := hb.unique x hxs p.2 hps (by rw [hxk, hpk])
    have hmatch : data = none ∨ data = some (h.element p.2).data := by
      rw [hm] at hdata
      rw [hx]
      exact hdata
    have hfound : (h.findByHash cb key data (cb.keyHash key)).isSome := by
      rw [htree0, ← hpk] at hshadow0
      rw [← hpk]
      exact findByHash_isSome hk hi hps hmatch hshadow0
    obtain ⟨q, hq⟩ := isSome_iff_exists.mp hfound
    obtain ⟨b, hbk, ha, he, hqs, hqk, -, htree, hshadow⟩ :=
      findByHash_some hk hi hq
    have hdepth : removeDepth (cmpKeyNode cb h.element) q.2 (h.head q.1).head ≤
        Mem.stackSize := by
      rw [htree]
      exact hfits q.2 ((hi.linked q.2).mp hqs) hqk
    obtain ⟨h', hrun, hdel⟩ := delByHashEl_spec hi hbk ha he rfl hshadow hdepth
    have hbinds := hb.deleted hqs hdel
    rw [hqk] at hbinds
    refine ⟨h', ?_, s.erase q.2, hdel.inv, hbinds⟩
    rw [delByKey, hq]
    simp only [hrun]
    rfl

theorem modify_models (hk : KeyOrder cb) (hi : Inv cb h s) (hb : Binds h s m) (key : Key)
    (data : Option Data) :
    Models cb (h.modify cb key data).1 (mapNext m (.modify key data)).1 ∧
      Ret.data (h.modify cb key data).2 = (mapNext m (.modify key data)).2 := by
  cases data with
  | none =>
    exact ⟨⟨s, hi, hb⟩, rfl⟩
  | some d =>
    rw [modify, mapNext]
    cases hfind : h.findByHash cb key none (cb.keyHash key) with
    | none =>
      have hnone : m key = none :=
        (hb.eq_none_iff key).mpr ((findByHash_none_iff hk hi key).mp hfind)
      rw [if_neg (by simp [hnone])]
      exact ⟨⟨s, hi, hb⟩, rfl⟩
    | some p =>
      obtain ⟨b, -, -, -, hps, hpk, -⟩ := findByHash_some hk hi hfind
      have hsome := hb.eq_some hps
      rw [hpk] at hsome
      rw [if_pos ⟨by simp, by simp [hsome]⟩]
      have hbinds := hb.withData hps d
      rw [hpk] at hbinds
      exact ⟨⟨s, inv_withData hi d, hbinds⟩, by rw [hsome]⟩

/-- `eina_hash_set` answers the old value. -/
theorem set_models (hk : KeyOrder cb) (hi : Inv cb h s) (hb : Binds h s m) (key : Key)
    (data : Option Data) (hfits : (MapOp.set key data).Fits cb h) :
    ∃ h', h.set cb key data = some (h', m key) ∧ Models cb h' (update m key data) := by
  unfold Hash.set
  cases hfind : h.findByHash cb key none (cb.keyHash key) with
  | none =>
    have hno := (findByHash_none_iff hk hi key).mp hfind
    have hnone : m key = none := (hb.eq_none_iff key).mpr hno
    rw [hnone]
    cases data with
    | none =>
      refine ⟨h, rfl, s, hi, ?_⟩
      rw [update_none_self hnone]
      exact hb
    | some d =>
      have hadd : AddFits cb h key := by
        rcases hfits with ⟨e, hlinked, hek⟩ | hadd
        · exact absurd hek (hno e ((hi.linked e).mpr hlinked))
        · exact hadd
      obtain ⟨h', e, hrun, hadded⟩ := added_of_fits hk hi d hadd
      refine ⟨h', ?_, insert e s, hadded.inv, hb.added hadded hnone⟩
      simp only [hrun]
      rfl
  | some p =>
    obtain ⟨b, hbk, ha, he, hps, hpk, -, htree, hshadow⟩ :=
      findByHash_some hk hi hfind
    have hsome := hb.eq_some hps
    rw [hpk] at hsome
    rw [hsome]
    cases data with
    | none =>
      have hdepth : removeDepth (cmpKeyNode cb h.element) p.2 (h.head p.1).head ≤
          Mem.stackSize := by
        rw [htree]
        exact hfits p.2 ((hi.linked p.2).mp hps) hpk
      obtain ⟨h', hrun, hdel⟩ := delByHashEl_spec hi hbk ha he rfl hshadow hdepth
      have hbinds := hb.deleted hps hdel
      rw [hpk] at hbinds
      refine ⟨h', ?_, s.erase p.2, hdel.inv, hbinds⟩
      simp only [hrun]
      rfl
    | some d =>
      have hbinds := hb.withData hps d
      rw [hpk] at hbinds
      exact ⟨withData h p.2 d, rfl, s, inv_withData hi d, hbinds⟩

theorem move_models (hk : KeyOrder cb) (hi : Inv cb h s) (hb : Binds h s m) (oldKey newKey : Key)
    (hfits : (MapOp.move oldKey newKey : MapOp Key Data).Fits cb h) :
    ∃ h', h.move cb oldKey newKey = some (h', (m oldKey).isSome) ∧
      Models cb h' (mapNext m (.move oldKey newKey)).1 := by
  obtain ⟨hnew, hdel, hadd⟩ := hfits
  have hfind := find_eq hk hi hb oldKey
  rw [Hash.move, mapNext, hfind]
  cases hm : m oldKey with
  | none => exact ⟨h, rfl, s, hi, hb⟩
  | some d =>
    obtain ⟨h1, hrun1, s1, hi1, hb1⟩ :=
      delByKey_models hk hi hb (show some d = none ∨ some d = m oldKey from .inr hm.symm) hdel
    rw [hm] at hrun1
    have hdel1 : h.del cb (some oldKey) (some d) = some (h1, true) := hrun1
    have hnone : update m oldKey none newKey = none := by
      by_cases hsame : newKey = oldKey
      · rw [hsame, update_self]
      rw [update_of_ne hsame, hb.eq_none_iff]
      intro e he hek
      exact hnew ⟨e, (hi.linked e).mp he, hek⟩
    obtain ⟨h2, e, hrun2, hadded⟩ :=
      added_of_fits hk hi1 d (hadd d (h1, true) (hfind.trans hm) hdel1)
    refine ⟨h2, ?_, insert e s1, hadded.inv, hb1.added hadded hnone⟩
    simp only [hdel1]
    exact hrun2

/-- **One call that fits answers and acts as on the map.** -/
theorem mapStep_models (hk : KeyOrder cb) (hm : Models cb h m) (op : MapOp Key Data)
    (hfits : op.Fits cb h) :
    ∃ h', mapStep cb h op = some (h', (mapNext m op).2) ∧ Models cb h' (mapNext m op).1 := by
  obtain ⟨s, hi, hb⟩ := hm
  cases op with
  | set key data =>
    obtain ⟨h', hrun, hmodels⟩ := set_models hk hi hb key data hfits
    exact ⟨h', by rw [mapStep, hrun]; rfl, hmodels⟩
  | modify key data =>
    obtain ⟨hmodels, hret⟩ := modify_models hk hi hb key data
    exact ⟨_, by rw [mapStep, hret], hmodels⟩
  | delByKey key =>
    obtain ⟨h', hrun, hmodels⟩ := delByKey_models hk hi hb (.inl rfl) hfits
    exact ⟨h', by rw [mapStep, hrun]; rfl, hmodels⟩
  | find key => exact ⟨h, by rw [mapStep, find_eq hk hi hb]; rfl, s, hi, hb⟩
  | move oldKey newKey =>
    obtain ⟨h', hrun, hmodels⟩ := move_models hk hi hb oldKey newKey hfits
    refine ⟨h', ?_, hmodels⟩
    rw [mapStep, hrun, mapNext]
    cases m oldKey <;> rfl

/-! ### Runs -/

/-- The hash is a finite map: what it answers, counts and keeps linked. -/
structure IsMap (cb : Callbacks Key) (h : Hash Key Data) (m : Key → Option Data) : Prop where
  find : ∀ key, h.find cb key = m key
  population : ∃ keys : Finset Key, (∀ key, key ∈ keys ↔ m key ≠ none) ∧
    h.population = keys.card ∧ (keys.card < 2 ^ 31 → h.returnedPopulation = keys.card)
  filled : ∀ b, h.buckets = some b → ∀ num, ∀ a ∈ (b num).toList, (h.head a).head ≠ .nil
  buckets : h.buckets = none ↔ h.population = 0

omit [DecidableEq Data] in
theorem Binds.keys (hb : Binds h s m) :
    (∀ key, key ∈ s.image (fun e => (h.element e).key) ↔ m key ≠ none) ∧
      (s.image fun e => (h.element e).key).card = s.card := by
  refine ⟨?_, ?_⟩
  · intro key
    rw [mem_image, Ne, hb.eq_none_iff]
    simp only [not_forall, not_not, exists_prop]
  · rw [card_image_iff]
    intro x hx y hy heq
    exact hb.unique x hx y hy heq

theorem Models.isMap (hk : KeyOrder cb) (hm : Models cb h m) : IsMap cb h m := by
  obtain ⟨s, hi, hb⟩ := hm
  obtain ⟨hkeys, hcard⟩ := hb.keys
  rw [← hi.population] at hcard
  refine ⟨find_eq hk hi hb, ⟨_, hkeys, hcard.symm, fun hsmall => ?_⟩, hi.filled, ?_⟩
  · rw [hcard] at hsmall ⊢
    exact returnedPopulation_eq hsmall
  · rw [hi.empty, hi.population, card_eq_zero]

omit [DecidableEq Key] [DecidableEq Data] in
theorem models_new
    (hnew : Hash.new p head element = some h) : Models cb h fun _ => none :=
  ⟨∅, inv_new hnew, by simp, by simp⟩

/-! A tree of elements is deep only if many keys share their bucket and their head. -/

omit [DecidableEq Key] [DecidableEq Data] in
theorem mem_of_treeOf (hi : Inv cb h s) {keyHash : BitVec 32} {e : Addr}
    (he : e ∈ (treeOf h keyHash).toList) : e ∈ s := by
  unfold treeOf at he
  split at he
  · rename_i a ha
    rw [linked_getD hi]
    exact ⟨_, a, ((lookup_head_iff (linking_getD hi) _ _ a).mp ha).1, he⟩
  · simp at he

omit [DecidableEq Key] [DecidableEq Data] in
theorem isTree_treeOf (hi : Inv cb h s) (keyHash : BitVec 32) :
    IsTree (cmpKeyNode cb h.element) (treeOf h keyHash) := by
  unfold treeOf
  split
  · rename_i a ha
    have hl := linking_getD hi
    exact (hl.heads _ a ((lookup_head_iff hl _ _ a).mp ha).1).tree
  · exact IsTree.nil _

omit [DecidableEq Key] [DecidableEq Data] in
theorem height_treeOf (hi : Inv cb h s) (hcard : s.card + 1 < 2 ^ 25) (keyHash : BitVec 32) :
    (treeOf h keyHash).height ≤ Mem.stackSize := by
  have htree := isTree_treeOf hi keyHash
  refine htree.height_le ?_
  have hsub : (treeOf h keyHash).toList.toFinset ⊆ s := by
    intro e he
    exact mem_of_treeOf hi (List.mem_toFinset.mp he)
  have hle := card_le_card hsub
  rw [List.toFinset_card_of_nodup htree.nodup] at hle
  omega

omit [DecidableEq Key] [DecidableEq Data] in
theorem delFits_of_card (hi : Inv cb h s) (hcard : s.card + 1 < 2 ^ 25) (key : Key) :
    DelFits cb h key :=
  fun _ _ _ => (removeDepth_le _ _ _).trans (height_treeOf hi hcard _)

omit [DecidableEq Key] [DecidableEq Data] in
theorem addFits_of_card (hi : Inv cb h s) (hcard : s.card + 1 < 2 ^ 25) (key : Key) :
    AddFits cb h key := by
  have hpath := length_insertPath_le (keyDir cb h.element key) h.next
    (treeOf h (cb.keyHash key)) []
  rw [List.length_nil, Nat.zero_add] at hpath
  exact hpath.trans (height_treeOf hi hcard _)

/-- A move is to a key that is not bound. -/
def MapOp.Legal (m : Key → Option Data) : MapOp Key Data → Prop
  | .move _ newKey => m newKey = none
  | _ => True

/-- The key a call may bind. -/
def MapOp.key : MapOp Key Data → Key
  | .set key _ | .modify key _ | .delByKey key | .find key => key
  | .move _ newKey => newKey

omit [DecidableEq Data] in
theorem update_bound {f : Key → Option Data} {k key : Key} {v : Option Data} (hne : key ≠ k)
    (h : update f k v key ≠ none) : f key ≠ none := by
  rw [update_of_ne hne] at h
  exact h

omit [DecidableEq Data] in
theorem mapNext_bound {m : Key → Option Data} (op : MapOp Key Data) {key : Key}
    (h : (mapNext m op).1 key ≠ none) : key = op.key ∨ m key ≠ none := by
  by_cases hk : key = op.key
  · exact .inl hk
  refine .inr ?_
  cases op with
  | set k d => exact update_bound hk h
  | modify k d =>
    rw [mapNext] at h
    split at h
    · exact update_bound hk h
    · exact h
  | delByKey k => exact update_bound hk h
  | find k => exact h
  | move o n =>
    rw [mapNext] at h
    split at h
    · exact h
    have hold := update_bound hk h
    by_cases ho : key = o
    · rw [ho, update_self] at hold
      exact absurd rfl hold
    · exact update_bound ho hold

omit [DecidableEq Data] in
theorem Models.card_le (hm : Models cb h m) {keys : Finset Key}
    (hkeys : ∀ key, m key ≠ none → key ∈ keys) :
    ∃ s, Inv cb h s ∧ Binds h s m ∧ s.card ≤ keys.card := by
  obtain ⟨s, hi, hb⟩ := hm
  obtain ⟨hmem, hcard⟩ := hb.keys
  refine ⟨s, hi, hb, ?_⟩
  rw [← hcard]
  exact card_le_card (fun key hkey => hkeys key ((hmem key).mp hkey))

theorem fits_of_card (hk : KeyOrder cb) (hm : Models cb h m) {keys : Finset Key}
    (hkeys : ∀ key, m key ≠ none → key ∈ keys) (hcard : keys.card + 1 < 2 ^ 25)
    {op : MapOp Key Data} (hop : op.Legal m) : op.Fits cb h := by
  obtain ⟨s, hi, hb, hle⟩ := hm.card_le hkeys
  have hs : s.card + 1 < 2 ^ 25 := by omega
  match op, hop with
  | .set key none, _ => exact delFits_of_card hi hs key
  | .set key (some _), _ => exact .inr (addFits_of_card hi hs key)
  | .modify _ _, _ => trivial
  | .delByKey key, _ => exact delFits_of_card hi hs key
  | .find _, _ => trivial
  | .move oldKey newKey, hnew =>
    have hnone : m newKey = none := hnew
    refine ⟨?_, delFits_of_card hi hs oldKey, ?_⟩
    · rintro ⟨e, hlinked, hek⟩
      exact (hb.eq_none_iff newKey).mp hnone e ((hi.linked e).mpr hlinked) hek
    · intro data p hfind hdel
      have hdata : some data = none ∨ some data = m oldKey := by
        rw [← hfind]
        exact .inr (find_eq hk hi hb oldKey)
      obtain ⟨h1, hrun, hm1⟩ := delByKey_models hk hi hb hdata (delFits_of_card hi hs oldKey)
      have hp : p = (h1, (m oldKey).isSome) := by
        have hsame : h.delByKey cb oldKey (some data) = some p := hdel
        rw [hrun] at hsame
        exact (some.inj hsame).symm
      have hkeys1 : ∀ key, update m oldKey none key ≠ none → key ∈ keys := by
        intro key hne
        by_cases hko : key = oldKey
        · rw [hko, update_self] at hne
          exact absurd rfl hne
        · rw [update_of_ne hko] at hne
          exact hkeys key hne
      obtain ⟨s1, hi1, -, hle1⟩ := hm1.card_le hkeys1
      rw [hp]
      exact addFits_of_card hi1 (by omega) newKey

/-- **Every legal run of fewer than `2 ^ 25 - 1` calls fits.** -/
theorem meets_of_length (hk : KeyOrder cb) (ops : List (MapOp Key Data)) :
    ∀ {h : Hash Key Data} {m : Key → Option Data} {keys : Finset Key}, Models cb h m →
      (∀ key, m key ≠ none → key ∈ keys) → keys.card + ops.length + 1 < 2 ^ 25 →
      Runs.Admits MapOp.Legal (fun m op => (mapNext m op).1) m ops →
      Runs.Meets (fun h op => op.Fits cb h) (mapStep cb) h ops := by
  induction ops with
  | nil =>
    intro h m keys _ _ _ _
    trivial
  | cons op ops ih =>
    intro h m keys hm hkeys hcard hlegal
    obtain ⟨hop, hrest⟩ := hlegal
    rw [List.length_cons] at hcard
    have hfits := fits_of_card hk hm hkeys (by omega) hop
    refine ⟨hfits, ?_⟩
    intro p hp
    obtain ⟨h', hstep, hm'⟩ := mapStep_models hk hm op hfits
    rw [hstep] at hp
    obtain rfl := some.inj hp
    have hle : (insert op.key keys).card ≤ keys.card + 1 := card_insert_le _ _
    have hkeys' : ∀ key, (mapNext m op).1 key ≠ none → key ∈ insert op.key keys := by
      intro key hne
      rcases mapNext_bound op hne with hkey | hbound
      · rw [hkey]
        exact mem_insert_self _ _
      · exact mem_insert_of_mem (hkeys key hbound)
    exact ih hm' hkeys' (by omega) hrest

/--
**Every run whose calls fit behaves as the finite map**: it returns what the map
returns, and the hash it ends in is the map it ends in.
-/
theorem run_isMap (hk : KeyOrder cb) (hnew : Hash.new p head element = some h)
    (ops : List (MapOp Key Data))
    (hops : Runs.Meets (fun h op => op.Fits cb h) (mapStep cb) h ops) :
    ∃ h' rs m', Runs.run (mapStep cb) h ops = some (h', rs) ∧
      Runs.Traces (fun m op m' r => mapNext m op = (m', r)) (fun _ => none) ops m' rs ∧
      IsMap cb h' m' := by
  have hstep : ∀ (h : Hash Key Data) (m : Key → Option Data) (op : MapOp Key Data),
      Models cb h m → op.Fits cb h → ∃ h' r m',
        mapStep cb h op = some (h', r) ∧ mapNext m op = (m', r) ∧ Models cb h' m' := by
    intro h m op hm hfits
    obtain ⟨h', hrun, hmodels⟩ := mapStep_models hk hm op hfits
    exact ⟨h', _, _, hrun, rfl, hmodels⟩
  obtain ⟨h', rs, m', hrun, htrace, hmodels⟩ :=
    Runs.run_simulates hstep ops h (fun _ => none) (models_new hnew) hops
  exact ⟨h', rs, m', hrun, htrace, hmodels.isMap hk⟩

end Steps

/-- The hash `eina_hash_new` returns for 8 buckets. -/
def emptyHash : Hash Nat Nat := ⟨none, 0, 3, fun _ => ⟨.nil, 0⟩, fun _ => ⟨0, 0⟩, 0, ∅, ∅⟩

theorem new_emptyHash :
    Hash.new 3 (fun _ => ⟨.nil, 0⟩) (fun _ => (⟨0, 0⟩ : Element Nat Nat)) = some emptyHash := by
  simp [Hash.new, emptyHash]

/-- Numbers as keys, each its own hash, in increasing order. -/
def natCallbacks : Callbacks Nat := ⟨fun a b => (a : Int) - b, fun a => BitVec.ofNat 32 a⟩

theorem natCallbacks_order : KeyOrder natCallbacks :=
  ⟨fun a b => by simp only [natCallbacks]; omega,
    fun a b c hab hbc => by simp only [natCallbacks] at hab hbc ⊢; omega,
    fun a b => by simp only [natCallbacks]; omega⟩

/-- The keys 0 and 524288 fall into one bucket and under one head, and 8 into the same bucket. -/
theorem run_isMap_colliding : ∃ h' rs m',
    Runs.run (mapStep natCallbacks) emptyHash
        [.set 0 (some 10), .set 524288 (some 11), .set 8 (some 12), .set 0 none,
          .move 524288 0, .find 0, .delByKey 8] = some (h', rs) ∧
      Runs.Traces (fun m op m' r => mapNext m op = (m', r)) (fun _ => none)
        [.set 0 (some 10), .set 524288 (some 11), .set 8 (some 12), .set 0 none,
          .move 524288 0, .find 0, .delByKey 8] m' rs ∧
      IsMap natCallbacks h' m' := by
  refine run_isMap natCallbacks_order new_emptyHash _ ?_
  have hkeys : ∀ key : Nat, (none : Option Nat) ≠ none → key ∈ (∅ : Finset Nat) := by simp
  refine meets_of_length natCallbacks_order _ (models_new new_emptyHash) hkeys (by simp) ?_
  exact ⟨trivial, trivial, trivial, trivial, rfl, trivial, trivial, trivial⟩

end Eina.Hash
