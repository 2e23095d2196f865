/-
Where the private data of an object lies.

The data of a class that is no mixin lies where the class says, behind the data of its parent; so
the areas of an object's class and its ancestors follow each other.  The data of the mixins is laid
out again for every class, behind the data of the class itself.  `Filled` says that every class of
a hierarchy has the offsets `efl_class_new` computes for it, which later classes do not change.
-/
import Efl.Eo.Class.Mro

namespace Eo

open List Option Layout

namespace Layout

/-- The layout of objects with a header of some size, as `efl_object_init` computes it. -/
def ofHeader (header align : Nat) : Layout where
  eoSz := (header + align - 1) / align * align
  align := align

variable {l : Layout} {size : Nat}

theorem le_alignSize (hl : 0 < l.align) : size ≤ l.alignSize size := by
  have hdiv := Nat.div_add_mod (size + l.align - 1) l.align
  have hmod := Nat.mod_lt (size + l.align - 1) hl
  rw [alignSize, Nat.mul_comm]
  omega

theorem alignSize_mod : l.alignSize size % l.align = 0 := Nat.mul_mod_left _ _

theorem ofHeader_eoSz (header align : Nat) :
    (ofHeader header align).eoSz = (ofHeader header align).alignSize header := rfl

end Layout

namespace Classes

variable {c c' : Classes} {l : Layout} {id x y : ClassId} {k : Klass}
  {hparent : ∀ p, k.parent = some p → p < c.klasses.length}
  {hextensions : ∀ e ∈ k.extensions, e < c.klasses.length} {desc : Description} {mro : List ClassId}

/-- `_efl_data_scope_get`: where the data of a class begins in an object. -/
def dataScope (klass : Klass) (id : ClassId) (k : Klass) : Option Nat :=
  if k.desc.type ≠ .mixin then some k.dataOffset
  else if k.desc.dataSize = 0 then none
  else (klass.extnDataOff.find? fun d => decide (d.1 = id)).map (·.2)

/-- `_efl_data_scope_safe_get`, for an object of the class `klass` -/
def dataScopeGet (c : Classes) (klass : Klass) (id : ClassId) : Option Nat :=
  (c.get id).bind fun k => if 0 < k.desc.dataSize then dataScope klass id k else none

/-! ### Areas one behind the other -/

/-- The offset that is found for a class. -/
def offsetOf (offsets : List (ClassId × Nat)) (id : ClassId) : Option Nat :=
  (offsets.find? fun d => decide (d.1 = id)).map (·.2)

theorem offsetOf_cons (d : ClassId × Nat) (offsets : List (ClassId × Nat)) (id : ClassId) :
    offsetOf (d :: offsets) id = if d.1 = id then some d.2 else offsetOf offsets id := by
  unfold offsetOf
  by_cases h : d.1 = id
  · simp [h]
  · simp [h]

theorem feedOffsets_cons (id size : Nat) (rest : List (ClassId × Nat)) (off : Nat) :
    feedOffsets l ((id, size) :: rest) off =
      ((id, off) :: (feedOffsets l rest (off + l.alignSize size)).1,
        (feedOffsets l rest (off + l.alignSize size)).2) := rfl

theorem feedOffsets_le : ∀ (mixins : List (ClassId × Nat)) (off : Nat),
    off ≤ (feedOffsets l mixins off).2 := by
  intro mixins
  induction mixins with
  | nil =>
    intro off
    exact Nat.le_refl _
  | cons m rest ih =>
    intro off
    exact Nat.le_trans (Nat.le_add_right _ _) (ih _)

theorem feedOffsets_area (halign : off % l.align = 0) :
    ∀ {mixins : List (ClassId × Nat)}, (mixins.map (·.1)).Nodup → ∀ {id size : Nat},
      (id, size) ∈ mixins → ∃ o, offsetOf (feedOffsets l mixins off).1 id = some o ∧ off ≤ o ∧
        o % l.align = 0 ∧ o + l.alignSize size ≤ (feedOffsets l mixins off).2 := by
  intro mixins
  induction mixins generalizing off with
  | nil =>
    intro _ id size h
    simp at h
  | cons m rest ih =>
    intro hnodup id size hmem
    obtain ⟨first, firstSize⟩ := m
    obtain ⟨hnot, hnodup⟩ := nodup_cons.mp hnodup
    rw [feedOffsets_cons]
    rw [offsetOf_cons]
    rcases mem_cons.mp hmem with heq | hmem
    · obtain ⟨rfl, rfl⟩ := Prod.mk.inj heq
      exact ⟨off, if_pos rfl, Nat.le_refl _, halign, feedOffsets_le rest _⟩
    have hne : first ≠ id := by
      rintro rfl
      exact hnot (mem_map.mpr ⟨_, hmem, rfl⟩)
    have hmod : (off + l.alignSize firstSize) % l.align = 0 := by
      rw [Nat.add_mod, halign, alignSize_mod, Nat.zero_mod]
    obtain ⟨o, ho, hle, hmod, hend⟩ := ih hmod hnodup hmem
    exact ⟨o, by rw [if_neg hne, ho], Nat.le_trans (Nat.le_add_right _ _) hle, hmod, hend⟩

/-- The mixins are laid out one behind the other. -/
theorem feedOffsets_disjoint (halign : off % l.align = 0) :
    ∀ {mixins : List (ClassId × Nat)}, (mixins.map (·.1)).Nodup → ∀ {id size id' size' o o' : Nat},
      (id, size) ∈ mixins → (id', size') ∈ mixins → id ≠ id' →
      offsetOf (feedOffsets l mixins off).1 id = some o →
      offsetOf (feedOffsets l mixins off).1 id' = some o' →
      o + l.alignSize size ≤ o' ∨ o' + l.alignSize size' ≤ o := by
  intro mixins
  induction mixins generalizing off with
  | nil =>
    intro _ id size id' size' o o' h
    simp at h
  | cons m rest ih =>
    intro hnodup id size id' size' o o' hmem hmem' hne ho ho'
    obtain ⟨first, firstSize⟩ := m
    obtain ⟨hnot, hrest⟩ := nodup_cons.mp hnodup
    have hmod : (off + l.alignSize firstSize) % l.align = 0 := by
      rw [Nat.add_mod, halign, alignSize_mod, Nat.zero_mod]
    have hfirst : ∀ {i s : Nat}, (i, s) ∈ rest → first ≠ i := by
      rintro i s hi rfl
      exact hnot (mem_map.mpr ⟨_, hi, rfl⟩)
    rw [feedOffsets_cons] at ho ho'
    rw [offsetOf_cons] at ho ho'
    rcases mem_cons.mp hmem with heq | hin
    · obtain ⟨rfl, rfl⟩ := Prod.mk.inj heq
      have hin' : (id', size') ∈ rest := by
        rcases mem_cons.mp hmem' with heq | h
        · exact absurd (Prod.mk.inj heq).1.symm hne
        · exact h
      rw [if_pos rfl] at ho
      rw [if_neg (hfirst hin')] at ho'
      obtain ⟨p, hp, hle, -, -⟩ := feedOffsets_area hmod hrest hin'
      obtain rfl := some.inj (hp.symm.trans ho')
      obtain rfl := some.inj ho
      exact .inl hle
    · rw [if_neg (hfirst hin)] at ho
      rcases mem_cons.mp hmem' with heq | hin'
      · obtain ⟨rfl, rfl⟩ := Prod.mk.inj heq
        rw [if_pos rfl] at ho'
        obtain ⟨p, hp, hle, -, -⟩ := feedOffsets_area hmod hrest hin
        obtain rfl := some.inj (hp.symm.trans ho)
        obtain rfl := some.inj ho'
        exact .inr hle
      · rw [if_neg (hfirst hin')] at ho'
        exact ih hmod hrest hin hin' hne ho ho'

/-! ### Every class has the offsets that were computed for it -/

/-- The types of a class and of its parent go together. -/
def Kin (child parent : ClassType) : Prop :=
  match child with
  | .regular | .regularNoInstant => parent = .regular ∨ parent = .regularNoInstant
  | .interface | .mixin => parent = .interface ∨ parent = .mixin
  | .invalid => False

/-- What `efl_class_new` sees to. -/
structure Filled (l : Layout) (c : Classes) : Prop where
  filled : ∀ id k, c.get id = some k →
    k = fill l c id k.desc k.parent k.extensions k.mro.tail
  kin : ∀ id k, c.get id = some k → ∀ p kp, k.parent = some p → c.get p = some kp →
    Kin k.desc.type kp.desc.type
  noData : ∀ id k, c.get id = some k → k.desc.type = .interface → k.desc.dataSize = 0
  known : ∀ id k, c.get id = some k → ∀ x ∈ k.mro, ∃ kx, c.get x = some kx

theorem checkParent_ok {kp : Klass} (h : checkParent desc (some kp) = .ok ()) :
    Kin desc.type kp.desc.type := by
  unfold checkParent at h
  cases htype : desc.type <;> rw [htype] at h <;> dsimp only at h ⊢
  · by_contra hkin
    rw [if_pos (not_or.mp hkin)] at h
    simp at h
  · by_contra hkin
    rw [if_pos (not_or.mp hkin)] at h
    simp at h
  · by_contra hkin
    rw [if_pos (not_or.mp hkin)] at h
    simp at h
  · by_contra hkin
    rw [if_pos (not_or.mp hkin)] at h
    simp at h
  · simp at h

theorem prepare_checks {parentId : Option ClassId}
    {extnIds extensions mro : List ClassId}
    (h : c.prepare desc parentId extnIds = .ok (extensions, mro)) :
    checkParent desc (parentId.bind c.get) = .ok () ∧
      (desc.type = .interface → desc.dataSize = 0) := by
  unfold prepare at h
  split at h
  · simp at h
  split at h
  · simp at h
  split at h
  · simp at h
  rename_i hinterface
  refine ⟨?_, fun htype => by_contra fun hsize => hinterface ⟨htype, hsize⟩⟩
  cases hcheck : checkParent desc (parentId.bind c.get) with
  | error r =>
    rw [hcheck] at h
    simp [bind, Except.bind] at h
  | ok u => rfl

theorem dataMixins_push
    (h : ∀ x ∈ mro, x < c.klasses.length) :
    (c.push k hparent hextensions).dataMixins mro = c.dataMixins mro := by
  refine filterMap_congr fun x hx => ?_
  rw [get_push_of_lt (h x hx)]

theorem fill_push
    {parent : Option ClassId} {extensions mro : List ClassId}
    (hp : ∀ p, parent = some p → p < c.klasses.length) (hmro : ∀ x ∈ mro, x < c.klasses.length) :
    fill l (c.push k hparent hextensions) id desc parent extensions mro =
      fill l c id desc parent extensions mro := by
  have hget : parent.bind (c.push k hparent hextensions).get = parent.bind c.get := by
    cases parent with
    | none => rfl
    | some p => exact get_push_of_lt (hp p rfl)
  unfold fill
  rw [hget, dataMixins_push hmro]

/-- A new class keeps the layout. -/
theorem filled_push (h : Filled l c) (hparent : ∀ p, k.parent = some p → p < c.klasses.length)
    (hextensions : ∀ e ∈ k.extensions, e < c.klasses.length)
    (hfill : k = fill l c c.klasses.length k.desc k.parent k.extensions k.mro.tail)
    (hkin : ∀ p kp, k.parent = some p → c.get p = some kp → Kin k.desc.type kp.desc.type)
    (hnoData : k.desc.type = .interface → k.desc.dataSize = 0)
    (hmro : ∀ x ∈ k.mro.tail, x < c.klasses.length) : Filled l (c.push k hparent hextensions) := by
  refine ⟨?_, ?_, ?_, ?_⟩
  · intro id k' hget
    rcases get_push hget with ⟨hid, hold⟩ | ⟨rfl, rfl⟩
    · rw [fill_push (fun p hp => Nat.lt_trans ((c.older id k' hold).1 p hp) hid)]
      · exact h.filled id k' hold
      · intro x hx
        obtain ⟨kx, hkx⟩ := h.known id k' hold x (mem_of_mem_tail hx)
        exact get_lt hkx
    · rw [fill_push hparent hmro]
      exact hfill
  · intro id k' hget p kp hp hkp
    rcases get_push hget with ⟨hid, hold⟩ | ⟨rfl, rfl⟩
    · rw [get_push_of_lt (Nat.lt_trans ((c.older id k' hold).1 p hp) hid)] at hkp
      exact h.kin id k' hold p kp hp hkp
    · rw [get_push_of_lt (hparent p hp)] at hkp
      exact hkin p kp hp hkp
  · intro id k' hget
    rcases get_push hget with ⟨hid, hold⟩ | ⟨rfl, rfl⟩
    · exact h.noData id k' hold
    · exact hnoData
  · intro id k' hget x hx
    rcases get_push hget with ⟨hid, hold⟩ | ⟨rfl, rfl⟩
    · obtain ⟨kx, hkx⟩ := h.known id k' hold x hx
      exact ⟨kx, (get_push_of_lt (get_lt hkx)).trans hkx⟩
    have hlist : k'.mro = c.klasses.length :: k'.mro.tail := congrArg Klass.mro hfill
    rw [hlist] at hx
    rcases mem_cons.mp hx with rfl | hx
    · exact ⟨k', get_push_self⟩
    · obtain ⟨kx, hkx⟩ : ∃ kx, c.get x = some kx := ⟨_, getElem?_eq_getElem (hmro x hx)⟩
      exact ⟨kx, (get_push_of_lt (hmro x hx)).trans hkx⟩

theorem walk_lt {e : ClassId} (he : e < c.klasses.length) (hx : x ∈ c.graph.walk e) :
    x < c.klasses.length := by
  rw [Linearize.Graph.walk_eq, mem_cons] at hx
  rcases hx with rfl | hx
  · exact he
  · have hlt : c.graph.rank x < c.graph.rank e := Linearize.Graph.rank_of_mem_walk hx
    exact Nat.lt_trans hlt he

theorem eflClassNew_filled (h : Filled l c) (desc : Description)
    (parentId : Option ClassId) (extnIds : List ClassId) (initialized : Bool) :
    Filled l (eflClassNew l c desc parentId extnIds initialized).1 := by
  unfold eflClassNew
  split
  · exact h
  rename_i extensions mro hprepare
  have hparent := prepare_parent hprepare
  have hextensions := prepare_extensions hprepare
  obtain ⟨hcheck, hnoData⟩ := prepare_checks hprepare
  refine filled_push h hparent hextensions rfl ?_ hnoData ?_
  · intro p kp hp hkp
    have hp' : parentId = some p := hp
    rw [hp', bind_some, hkp] at hcheck
    exact checkParent_ok hcheck
  · intro x hx
    have hmro := mroInit_ok hparent hextensions (prepare_ok hprepare).2.2.2
    have hx' : x ∈ mro := hx
    rw [hmro, mem_dedup, mem_flatMap] at hx'
    obtain ⟨e, he, hwalk⟩ := hx'
    refine walk_lt ?_ hwalk
    rcases mem_append.mp he with he | he
    · exact hextensions e (mem_filter.mp he).1
    · exact hparent e (by simpa using he)

theorem hierarchy_filled (l : Layout) (requests : List Request) :
    Filled l (hierarchy l requests) := by
  suffices ∀ c : Classes, Filled l c → Filled l (requests.foldl
      (fun c r => (eflClassNew l c r.desc r.parentId r.extnIds r.initialized).1) c) by
    refine this empty ⟨?_, ?_, ?_, ?_⟩ <;> intro id k h <;> exact absurd h (by simp [get, empty])
  induction requests with
  | nil =>
    intro c h
    exact h
  | cons r requests ih =>
    intro c h
    exact ih _ (eflClassNew_filled h r.desc r.parentId r.extnIds r.initialized)

/-! ### The areas of an object -/

/-- The parent of a class. -/
def Parent (c : Classes) (x y : ClassId) : Prop := ∃ k, c.get x = some k ∧ k.parent = some y

theorem isMixin_iff : c.isMixin x = true ↔ ∃ kx, c.get x = some kx ∧ kx.desc.type = .mixin := by
  unfold isMixin
  cases c.get x with
  | none => simp
  | some kx => simp

theorem parent_unique : Relator.RightUnique c.Parent := by
  rintro x y z ⟨k, hk, hy⟩ ⟨k', hk', hz⟩
  obtain rfl := some.inj (hk.symm.trans hk')
  exact some.inj (hy.symm.trans hz)

theorem exists_super (h : c.Super x y) : ∃ ky, c.get y = some ky := by
  obtain ⟨k, hk, hparent | ⟨hextension, -⟩⟩ := h
  · have hlt := Nat.lt_trans ((c.older x k hk).1 y hparent) (get_lt hk)
    exact ⟨_, getElem?_eq_getElem hlt⟩
  · have hlt := Nat.lt_trans ((c.older x k hk).2 y hextension) (get_lt hk)
    exact ⟨_, getElem?_eq_getElem hlt⟩

/-- A mixin or an interface. -/
def Abstract (k : Klass) : Prop := k.desc.type = .mixin ∨ k.desc.type = .interface

theorem Filled.abstract (h : Filled l c) (hreach : Relation.ReflTransGen c.Super x y) :
    (∃ kx, c.get x = some kx ∧ Abstract kx) → ∃ ky, c.get y = some ky ∧ Abstract ky := by
  induction hreach using Relation.ReflTransGen.head_induction_on with
  | refl => exact id
  | head hstep _ ih =>
    rintro ⟨ka, hka, habstract⟩
    refine ih ?_
    obtain ⟨kb, hkb⟩ := exists_super hstep
    obtain ⟨k, hk, hparent | ⟨-, hmixin⟩⟩ := hstep
    · obtain rfl := some.inj (hka.symm.trans hk)
      have hkin := h.kin _ ka hka _ kb hparent hkb
      refine ⟨kb, hkb, ?_⟩
      rcases habstract with htype | htype <;> rw [htype] at hkin <;> exact hkin.symm
    · obtain ⟨kb, hkb, htype⟩ := isMixin_iff.mp hmixin
      exact ⟨kb, hkb, .inl htype⟩

theorem Filled.ancestor (h : Filled l c) {ky : Klass} (hky : c.get y = some ky)
    (hconcrete : ¬Abstract ky) (hreach : Relation.ReflTransGen c.Super x y) :
    Relation.ReflTransGen c.Parent x y := by
  induction hreach using Relation.ReflTransGen.head_induction_on with
  | refl => exact Relation.ReflTransGen.refl
  | head hstep hrest ih =>
    obtain ⟨k, hk, hparent | ⟨-, hmixin⟩⟩ := hstep
    · exact Relation.ReflTransGen.head ⟨k, hk, hparent⟩ ih
    obtain ⟨kb, hkb, htype⟩ := isMixin_iff.mp hmixin
    obtain ⟨k', hk', habstract⟩ := h.abstract hrest ⟨kb, hkb, .inl htype⟩
    obtain rfl := some.inj (hky.symm.trans hk')
    exact absurd habstract hconcrete

theorem Filled.dataOffset (h : Filled l c) (hk : c.get id = some k) :
    k.dataOffset = match k.parent.bind c.get with
      | none => l.eoSz
      | some p => p.dataOffset + l.alignSize p.desc.dataSize :=
  congrArg Klass.dataOffset (h.filled id k hk)

theorem Filled.behind (h : Filled l c) (hreach : Relation.ReflTransGen c.Parent x y) :
    ∀ {kx ky : Klass}, c.get x = some kx → c.get y = some ky →
      y = x ∨ ky.dataOffset + l.alignSize ky.desc.dataSize ≤ kx.dataOffset := by
  induction hreach using Relation.ReflTransGen.head_induction_on with
  | refl =>
    intro kx ky hkx hky
    exact .inl rfl
  | head hstep _ ih =>
    intro kx ky hkx hky
    obtain ⟨k, hk, hparent⟩ := hstep
    obtain rfl := some.inj (hkx.symm.trans hk)
    obtain ⟨kb, hkb⟩ := exists_super ⟨kx, hkx, .inl hparent⟩
    have hoffset := h.dataOffset hkx
    rw [hparent, bind_some, hkb] at hoffset
    refine .inr ?_
    rw [hoffset]
    rcases ih hkb hky with rfl | hle
    · obtain rfl := some.inj (hkb.symm.trans hky)
      exact Nat.le_refl _
    · exact Nat.le_trans hle (Nat.le_add_right _ _)

theorem Filled.aligned (h : Filled l c) (hl : l.eoSz % l.align = 0) :
    ∀ (id : ClassId) (k : Klass), c.get id = some k →
      l.eoSz ≤ k.dataOffset ∧ k.dataOffset % l.align = 0 := by
  intro id
  induction id using Nat.strongRecOn with
  | ind id ih =>
    intro k hk
    have hoffset := h.dataOffset hk
    cases hparent : k.parent with
    | none =>
      rw [hparent] at hoffset
      rw [hoffset]
      exact ⟨Nat.le_refl _, hl⟩
    | some p =>
      obtain ⟨kp, hkp⟩ := exists_super ⟨k, hk, .inl hparent⟩
      obtain ⟨hle, hmod⟩ := ih p ((c.older id k hk).1 p hparent) kp hkp
      rw [hparent, bind_some, hkp] at hoffset
      rw [hoffset]
      refine ⟨Nat.le_trans hle (Nat.le_add_right _ _), ?_⟩
      rw [Nat.add_mod, hmod, alignSize_mod, Nat.zero_mod]

theorem Filled.mro_eq (h : Filled l c) (hk : c.get id = some k) : k.mro = id :: k.mro.tail :=
  congrArg Klass.mro (h.filled id k hk)

theorem Filled.feed (h : Filled l c) (hk : c.get id = some k) (htype : k.desc.type ≠ .mixin) :
    (k.extnDataOff, k.objSize) =
      feedOffsets l (c.dataMixins k.mro.tail) (k.dataOffset + l.alignSize k.desc.dataSize) := by
  have hfill := h.filled id k hk
  have hoffset := h.dataOffset hk
  have hextn := congrArg Klass.extnDataOff hfill
  have hsize := congrArg Klass.objSize hfill
  unfold fill at hextn hsize
  dsimp only at hextn hsize
  rw [if_neg (fun hm => htype hm.1), if_neg htype] at hextn hsize
  rw [hoffset]
  exact Prod.ext hextn hsize

theorem map_dataMixins_sublist (c : Classes) (mro : List ClassId) :
    ((c.dataMixins mro).map (·.1)).Sublist mro := by
  induction mro with
  | nil => exact List.Sublist.slnil
  | cons x mro ih =>
    unfold dataMixins at ih ⊢
    rw [filterMap_cons]
    cases hget : c.get x with
    | none => exact ih.cons _
    | some k =>
      dsimp only
      by_cases hdata : k.desc.type = .mixin ∧ 0 < k.desc.dataSize
      · rw [if_pos hdata]
        exact ih.cons_cons _
      · rw [if_neg hdata]
        exact ih.cons _

theorem mem_dataMixins {kx : Klass} (hx : x ∈ mro) (hkx : c.get x = some kx)
    (htype : kx.desc.type = .mixin) (hsize : 0 < kx.desc.dataSize) :
    (x, kx.desc.dataSize) ∈ c.dataMixins mro := by
  refine mem_filterMap.mpr ⟨x, hx, ?_⟩
  rw [hkx]
  dsimp only
  rw [if_pos ⟨htype, hsize⟩]

/-- Where the data of the classes of an object lies. -/
structure Areas (header align : Nat) (c : Classes) (k : Klass) : Prop where
  /-- Behind the header, aligned, and before the end of the object. -/
  inside : ∀ x ∈ k.mro, ∀ kx, c.get x = some kx → 0 < kx.desc.dataSize →
    ∃ off, c.dataScopeGet k x = some off ∧ header ≤ off ∧ off % align = 0 ∧
      off + kx.desc.dataSize ≤ k.objSize
  /-- No area overlaps another one. -/
  disjoint : ∀ x ∈ k.mro, ∀ y ∈ k.mro, x ≠ y → ∀ kx ky, c.get x = some kx → c.get y = some ky →
    0 < kx.desc.dataSize → 0 < ky.desc.dataSize → ∀ off off', c.dataScopeGet k x = some off →
      c.dataScopeGet k y = some off' →
        off + kx.desc.dataSize ≤ off' ∨ off' + ky.desc.dataSize ≤ off

section Object

variable {kx : Klass}

theorem Filled.fixed (h : Filled l c) (hmembers : ∀ x ∈ k.mro, Relation.ReflTransGen c.Super id x)
    (hk : c.get id = some k) (hx : x ∈ k.mro) (hkx : c.get x = some kx)
    (htype : kx.desc.type ≠ .mixin) (hsize : 0 < kx.desc.dataSize) :
    Relation.ReflTransGen c.Parent id x ∧ c.dataScopeGet k x = some kx.dataOffset ∧
      kx.dataOffset + l.alignSize kx.desc.dataSize ≤
        k.dataOffset + l.alignSize k.desc.dataSize := by
  have hconcrete : ¬Abstract kx := by
    rintro (hmixin | hinterface)
    · exact htype hmixin
    · have := h.noData x kx hkx hinterface
      omega
  have hchain := h.ancestor hkx hconcrete (hmembers x hx)
  refine ⟨hchain, ?_, ?_⟩
  · rw [dataScopeGet, hkx, bind_some, if_pos hsize, dataScope, if_pos htype]
  · rcases h.behind hchain hk hkx with rfl | hle
    · obtain rfl := some.inj (hk.symm.trans hkx)
      exact Nat.le_refl _
    · exact Nat.le_trans hle (Nat.le_add_right _ _)

theorem Filled.laidOut (h : Filled l c) (hk : c.get id = some k) (hktype : k.desc.type ≠ .mixin)
    (hx : x ∈ k.mro) (hkx : c.get x = some kx) (htype : kx.desc.type = .mixin)
    (hsize : 0 < kx.desc.dataSize) : (x, kx.desc.dataSize) ∈ c.dataMixins k.mro.tail ∧
      c.dataScopeGet k x = offsetOf k.extnDataOff x := by
  refine ⟨mem_dataMixins ?_ hkx htype hsize, ?_⟩
  · rw [h.mro_eq hk] at hx
    rcases mem_cons.mp hx with rfl | hx
    · obtain rfl := some.inj (hk.symm.trans hkx)
      exact absurd htype hktype
    · exact hx
  · rw [dataScopeGet, hkx, bind_some, if_pos hsize, dataScope, if_neg (by simp [htype]),
      if_neg (Nat.ne_of_gt hsize)]
    rfl

end Object

/-- The areas of the data of a class lie apart and inside of the object. -/
theorem Filled.areas {header align : Nat} (halign : 0 < align)
    (h : Filled (Layout.ofHeader header align) c) (hk : c.get id = some k)
    (hnodup : k.mro.Nodup) (hmembers : ∀ x ∈ k.mro, Relation.ReflTransGen c.Super id x)
    (htype : k.desc.type = .regular ∨ k.desc.type = .regularNoInstant) :
    Areas header align c k := by
  have hktype : k.desc.type ≠ .mixin := by
    rcases htype with h | h <;> rw [h] <;> decide
  have hheader : header ≤ (Layout.ofHeader header align).eoSz := by
    rw [ofHeader_eoSz]
    exact le_alignSize halign
  have haligned := h.aligned (Nat.mul_mod_left _ _)
  obtain ⟨hkoff, hkmod⟩ := haligned id k hk
  have hstart : (k.dataOffset + (Layout.ofHeader header align).alignSize k.desc.dataSize) %
      (Layout.ofHeader header align).align = 0 := by
    rw [Nat.add_mod, hkmod, alignSize_mod, Nat.zero_mod]
  obtain ⟨hextn, hobj⟩ := Prod.mk.inj (h.feed hk hktype)
  have hend : k.dataOffset + (Layout.ofHeader header align).alignSize k.desc.dataSize ≤
      k.objSize := by
    rw [hobj]
    exact feedOffsets_le _ _
  have honce : ((c.dataMixins k.mro.tail).map (·.1)).Nodup := by
    rw [h.mro_eq hk] at hnodup
    exact (map_dataMixins_sublist c _).nodup (nodup_cons.mp hnodup).2
  -- where the data of a mixin is found, and that it lies behind the data of the other classes
  have hmixin : ∀ x ∈ k.mro, ∀ kx, c.get x = some kx → kx.desc.type = .mixin →
      0 < kx.desc.dataSize → (x, kx.desc.dataSize) ∈ c.dataMixins k.mro.tail ∧
      c.dataScopeGet k x = offsetOf k.extnDataOff x ∧ ∃ o, c.dataScopeGet k x = some o ∧
        k.dataOffset + (Layout.ofHeader header align).alignSize k.desc.dataSize ≤ o ∧
        o % align = 0 ∧
        o + (Layout.ofHeader header align).alignSize kx.desc.dataSize ≤ k.objSize := by
    intro x hx kx hkx hxtype hsize
    obtain ⟨hmem, hget⟩ := h.laidOut hk hktype hx hkx hxtype hsize
    obtain ⟨o, ho, hle, hmod, hstop⟩ := feedOffsets_area hstart honce hmem
    exact ⟨hmem, hget, o, by rw [hget, hextn, ho], hle, hmod, hobj ▸ hstop⟩
  refine ⟨?_, ?_⟩
  · intro x hx kx hkx hsize
    have hfits : kx.desc.dataSize ≤ (Layout.ofHeader header align).alignSize kx.desc.dataSize :=
      le_alignSize halign
    by_cases hxtype : kx.desc.type = .mixin
    · obtain ⟨-, -, o, ho, hle, hmod, hstop⟩ := hmixin x hx kx hkx hxtype hsize
      exact ⟨o, ho, by omega, hmod, by omega⟩
    obtain ⟨-, hget, hle⟩ := h.fixed hmembers hk hx hkx hxtype hsize
    obtain ⟨hoff, hmod⟩ := haligned x kx hkx
    exact ⟨_, hget, by omega, hmod, by omega⟩
  · intro x hx y hy hne kx ky hkx hky hsizex hsizey off off' hoff hoff'
    have hfitsx : kx.desc.dataSize ≤ (Layout.ofHeader header align).alignSize kx.desc.dataSize :=
      le_alignSize halign
    have hfitsy : ky.desc.dataSize ≤ (Layout.ofHeader header align).alignSize ky.desc.dataSize :=
      le_alignSize halign
    by_cases hxtype : kx.desc.type = .mixin
    · obtain ⟨hmemx, hgetx, o, ho, hlex, -, -⟩ := hmixin x hx kx hkx hxtype hsizex
      obtain rfl := some.inj (ho.symm.trans hoff)
      by_cases hytype : ky.desc.type = .mixin
      · obtain ⟨hmemy, hgety, -⟩ := hmixin y hy ky hky hytype hsizey
        rw [hgetx, hextn] at hoff
        rw [hgety, hextn] at hoff'
        have hapart := feedOffsets_disjoint hstart honce hmemx hmemy hne hoff hoff'
        omega
      · obtain ⟨-, hgety, hley⟩ := h.fixed hmembers hk hy hky hytype hsizey
        obtain rfl := some.inj (hgety.symm.trans hoff')
        omega
    · obtain ⟨hchainx, hgetx, hlex⟩ := h.fixed hmembers hk hx hkx hxtype hsizex
      obtain rfl := some.inj (hgetx.symm.trans hoff)
      by_cases hytype : ky.desc.type = .mixin
      · obtain ⟨-, -, o, ho, hley, -, -⟩ := hmixin y hy ky hky hytype hsizey
        obtain rfl := some.inj (ho.symm.trans hoff')
        omega
      obtain ⟨hchainy, hgety, -⟩ := h.fixed hmembers hk hy hky hytype hsizey
      obtain rfl := some.inj (hgety.symm.trans hoff')
      rcases Relation.ReflTransGen.total_of_right_unique parent_unique hchainx hchainy with
        hxy | hyx
      · have hle := (h.behind hxy hkx hky).resolve_left hne.symm
        omega
      · have hle := (h.behind hyx hky hkx).resolve_left hne
        omega

/--
**The private data of an object.**  In an object of a class of any hierarchy, the areas of the
classes of its method resolution order that have data lie apart from each other, aligned, behind
the header of the object and before its end.
-/
theorem data_apart (header : Nat) {align : Nat} (halign : 0 < align) (requests : List Request)
    (hk : (hierarchy (Layout.ofHeader header align) requests).get id = some k)
    (htype : k.desc.type = .regular ∨ k.desc.type = .regularNoInstant) :
    Areas header align (hierarchy (Layout.ofHeader header align) requests) k := by
  have horder := (hierarchy_inOrder (Layout.ofHeader header align) requests).linearizes hk
  exact (hierarchy_filled _ requests).areas halign hk horder.once
    (fun x hx => (horder.members x).mp hx) htype

theorem data_apart_diamond : ∃ k, (hierarchy (Layout.ofHeader 60 8) diamond).get 4 = some k ∧
    k.extnDataOff = [(0, 80)] ∧ Areas 60 8 (hierarchy (Layout.ofHeader 60 8) diamond) k := by
  have hlook : ((hierarchy (Layout.ofHeader 60 8) diamond).get 4).map
      (fun k => (k.desc.type, k.extnDataOff)) = some (.regular, [(0, 80)]) := by
    with_unfolding_all decide
  obtain ⟨k, hk, heq⟩ := map_eq_some_iff.mp hlook
  obtain ⟨htype, hextn⟩ := Prod.mk.inj heq
  exact ⟨k, hk, hextn, data_apart 60 (by decide) diamond hk (.inl htype)⟩

end Classes

end Eo
