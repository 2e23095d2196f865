/-
Who owns the references of users.

The references of a living object are those the program holds and one of its parent, and an object
of which the program holds one is not destroyed.  That is so as long as the program gives back no
more than it holds, nothing dangles, and two things do not happen: an object that is being destroyed
gets a parent, and the parent is gone when an invalidation that was started by taking the object
from it comes to its end.
-/
import Efl.Eo.Life.Links

namespace Eo.Life

open List Option World

variable {w w' : World} {x y p : Id} {i : Instr} {is rest stack : List Instr} {o o' : Object}
  {f : Object → Object}

/-! ### The owners -/

/-- The references of users, and who owns them; no name leads to an object that is gone. -/
structure Refs (w : World) : Prop where
  owned : ∀ x o, w.object x = some o →
    o.userRefcount = w.held x + if o.parent = none then 0 else 1
  kept : ∀ x, 0 < w.held x → ∃ o, w.object x = some o ∧ o.delTriggered = false
  detached : ∀ x o, w.object x = some o → o.delTriggered = true → o.parent = none
  linked : Linked w

/-- The instructions of the destruction of an object. -/
def Instr.destroys : Instr → Option Id
  | .delParent x | .delEvent x | .destructor x | .destructorLoop x _ | .destructorParent x |
    .free x => some x
  | _ => none

/-- What is still to be given back is held, and what is being destroyed is marked so. -/
structure Waits (w : World) (stack : List Instr) : Prop where
  pending : ∀ x, stack.count (.unref x) ≤ w.held x
  destroys : ∀ j ∈ stack, ∀ x, j.destroys = some x → ∀ o, w.object x = some o →
    o.delTriggered = true

theorem World.modify_some (h : (w.modify x f).object y = some o') :
    ∃ o, w.object y = some o ∧ o' = if y = x then f o else o := by
  rw [modify_object] at h
  split at h
  · rename_i hy
    obtain ⟨o, ho, hf⟩ := map_eq_some_iff.mp h
    exact ⟨o, ho, by rw [if_pos hy, hf]⟩
  · rename_i hy
    exact ⟨o', h, (if_neg hy).symm⟩

variable {parent : Option Id} {d : Int}

theorem World.relink_some (h : (w.relink x parent).object y = some o') :
    ∃ o, w.object y = some o ∧ o'.parent = (if y = x then parent else o.parent) ∧
      o'.userRefcount = o.userRefcount ∧ o'.delTriggered = o.delTriggered := by
  obtain ⟨o, ho, rfl⟩ := map_eq_some_iff.mp h
  exact ⟨o, ho, rfl, rfl, rfl⟩

/-- The part of an object that this is about. -/
def Object.owners (o : Object) : (Option Id × List Id × Bool) × Int × Bool :=
  (o.links, o.userRefcount, o.delTriggered)

theorem Alike.owners (h : Alike Object.still w w') : Alike Object.owners w w' := by
  refine ⟨?_, h.fresh⟩
  intro x
  have hx := congrArg (Option.map Object.owners) (h.object x)
  rw [Option.map_map, Option.map_map] at hx
  exact hx

theorem Alike.owners_links (h : Alike Object.owners w w') : Alike Object.links w w' := by
  refine ⟨?_, h.fresh⟩
  intro x
  have hx := congrArg (Option.map Prod.fst) (h.object x)
  rw [Option.map_map, Option.map_map] at hx
  exact hx

theorem Refs.alike (h : Refs w) (halike : Alike Object.owners w w') (hheld : w'.held = w.held) :
    Refs w' := by
  have hnone (x : Id) (hx : w.object x ≠ none) : w'.object x ≠ none :=
    mt (halike.none_iff x).mp hx
  have hsome (x : Id) (o' : Object) (ho' : w'.object x = some o') : ∃ o, w.object x = some o ∧
      o'.parent = o.parent ∧ o'.userRefcount = o.userRefcount ∧
      o'.delTriggered = o.delTriggered := by
    obtain ⟨o, ho, howners⟩ := halike.get ho'
    simp only [Object.owners, Object.links, Prod.mk.injEq] at howners
    exact ⟨o, ho, howners.1.1, howners.2⟩
  constructor
  · intro x o' ho'
    obtain ⟨o, ho, hparent, huser, -⟩ := hsome x o' ho'
    rw [hparent, huser, hheld]
    exact h.owned x o ho
  · intro x hx
    rw [hheld] at hx
    obtain ⟨o, ho, halive⟩ := h.kept x hx
    obtain ⟨o', ho'⟩ := ne_none_iff_exists'.mp (hnone x (by simp [ho]))
    obtain ⟨o1, ho1, -, -, hdying⟩ := hsome x o' ho'
    obtain rfl := some.inj (ho.symm.trans ho1)
    exact ⟨o', ho', hdying.trans halive⟩
  · intro x o' ho' hdying
    obtain ⟨o, ho, hparent, -, hsame⟩ := hsome x o' ho'
    rw [hparent]
    exact h.detached x o ho (hsame.symm.trans hdying)
  · exact h.linked.alike halike.owners_links

/-- Moving an object to another parent moves a reference with it. -/
theorem Refs.relink (h : Refs w) (ho : w.object x = some o)
    (hparent : ∀ p, parent = some p → w.object p ≠ none)
    (hdying : o.delTriggered = true → parent = none)
    (hcount : (if o.parent = none then 0 else 1) + d = if parent = none then 0 else 1)
    (hsame : Alike Object.still ((w.relink x parent).modify x fun o =>
      { o with userRefcount := o.userRefcount + d }) w')
    (hheld : w'.held = w.held) : Refs w' := by
  refine Refs.alike ?_ hsame.owners hheld
  have hnone (y : Id) (hy : w.object y ≠ none) : ((w.relink x parent).modify x
      fun o => { o with userRefcount := o.userRefcount + d }).object y ≠ none := by
    intro hdead
    rw [modify_object] at hdead
    split at hdead
    · rw [map_eq_none_iff, relink_none_iff] at hdead
      exact hy hdead
    · rw [relink_none_iff] at hdead
      exact hy hdead
  constructor
  · intro y o2 ho2
    obtain ⟨o1, ho1, rfl⟩ := modify_some ho2
    obtain ⟨oy, hoy, hp, huser, -⟩ := relink_some ho1
    have howned := h.owned y oy hoy
    by_cases hyx : y = x
    · rw [hyx] at hoy howned ⊢
      obtain rfl := some.inj (ho.symm.trans hoy)
      rw [if_pos hyx] at hp
      rw [if_pos rfl]
      dsimp only
      rw [hp]
      show _ = (w.held x : Int) + _
      omega
    · rw [if_neg hyx] at hp ⊢
      rw [hp, huser]
      exact howned
  · intro y hy
    obtain ⟨oy, hoy, halive⟩ := h.kept y hy
    obtain ⟨o2, ho2⟩ := ne_none_iff_exists'.mp (hnone y (by simp [hoy]))
    refine ⟨o2, ho2, ?_⟩
    obtain ⟨o1, ho1, rfl⟩ := modify_some ho2
    obtain ⟨oy', hoy', -, -, hdel⟩ := relink_some ho1
    obtain rfl := some.inj (hoy.symm.trans hoy')
    split
    · exact hdel.trans halive
    · exact hdel.trans halive
  · intro y o2 ho2 hdel
    obtain ⟨o1, ho1, rfl⟩ := modify_some ho2
    obtain ⟨oy, hoy, hp, -, hdel1⟩ := relink_some ho1
    by_cases hyx : y = x
    · rw [hyx] at hoy
      obtain rfl := some.inj (ho.symm.trans hoy)
      rw [if_pos hyx] at hp hdel ⊢
      exact hp.trans (hdying (hdel1.symm.trans hdel))
    · rw [if_neg hyx] at hp hdel ⊢
      exact hp.trans (h.detached y oy hoy (hdel1.symm.trans hdel))
  · have hlive : w.object x ≠ none := by simp [ho]
    exact (h.linked.relink hlive hparent).alike (alike_modify x fun _ => rfl)

theorem Refs.users (h : Refs w) (ho : w.object x = some o)
    (hsame : Alike Object.still (w.modify x fun o => { o with userRefcount := o.userRefcount + d })
      w')
    (hheld : (w'.held x : Int) = w.held x + d) (hother : ∀ y ≠ x, w'.held y = w.held y)
    (hkept : 0 < w'.held x → o.delTriggered = false) : Refs w' := by
  let w1 : World :=
    { w.modify x fun o => { o with userRefcount := o.userRefcount + d } with held := w'.held }
  have h1 : Refs w1 := by
    have hnone (y : Id) (hy : w.object y ≠ none) : w1.object y ≠ none := by
      rw [← isSome_iff_ne_none] at hy ⊢
      exact (modify_isSome _).trans hy
    have hsome (y : Id) (o1 : Object) (ho1 : w1.object y = some o1) : ∃ oy, w.object y = some oy ∧
        o1 = if y = x then { oy with userRefcount := oy.userRefcount + d } else oy :=
      modify_some ho1
    constructor
    · intro y o1 ho1
      obtain ⟨oy, hoy, rfl⟩ := hsome y o1 ho1
      have howned := h.owned y oy hoy
      by_cases hyx : y = x
      · rw [hyx] at howned ⊢
        rw [if_pos rfl]
        show oy.userRefcount + d = (w'.held x : Int) + if oy.parent = none then 0 else 1
        omega
      · rw [if_neg hyx]
        rw [howned, hother y hyx]
    · intro y hy
      by_cases hyx : y = x
      · rw [hyx] at hy ⊢
        refine ⟨{ o with userRefcount := o.userRefcount + d }, ?_, hkept hy⟩
        show (if x = x then (w.object x).map _ else w.object x) = _
        rw [if_pos rfl, ho, map_some]
      · have hheldy : 0 < w.held y := by
          rw [← hother y hyx]
          exact hy
        obtain ⟨oy, hoy, halive⟩ := h.kept y hheldy
        refine ⟨oy, ?_, halive⟩
        show (if y = x then (w.object y).map _ else w.object y) = _
        rw [if_neg hyx, hoy]
    · intro y o1 ho1 hdel
      obtain ⟨oy, hoy, rfl⟩ := hsome y o1 ho1
      split at hdel
      · rw [if_pos ‹_›]
        exact h.detached y oy hoy hdel
      · rw [if_neg ‹_›]
        exact h.detached y oy hoy hdel
    · have hlinks : Alike Object.links w (w.modify x fun o =>
          { o with userRefcount := o.userRefcount + d }) := alike_modify x fun _ => rfl
      exact h.linked.alike ⟨hlinks.object, hlinks.fresh⟩
  exact h1.alike ⟨hsame.owners.object, hsame.fresh⟩ rfl

/-! ### What comes to the stack -/

variable {r : World × List Instr}

theorem unref_not_mem (htree : Tree w) (hexec : exec w i = some r) (y : Id) :
    .unref y ∉ r.2 := by
  intro hmem
  have hlead := exec_leads htree hexec _ hmem
  cases i with
  | invalidateLoop x stash => cases stash <;> simp [Instr.Leads] at hlead
  | _ => simp [Instr.Leads] at hlead

theorem exec_destroys {j : Instr} (htree : Tree w) (hexec : exec w i = some r) (hj : j ∈ r.2)
    (hy : j.destroys = some y) : i.destroys = some y ∨
      ∀ o, r.1.object y = some o → o.delTriggered = true := by
  have hlead := exec_leads htree hexec j hj
  by_cases hi : ∃ x, i = .unrefInternal x
  · obtain ⟨x, rfl⟩ := hi
    right
    have hxy : x = y := by grind [Instr.destroys]
    cases unrefInternal_cases hexec with
    | stay w' halike hheld => simp at hj
    | trigger o r ho hle halike hheld his =>
      intro o' ho'
      obtain ⟨o1, ho1, hstill⟩ := halike.get ho'
      obtain ⟨o2, -, rfl⟩ := modify_some ho1
      have hsame : o'.delTriggered = _ := congrArg (fun o => o.delTriggered) hstill
      rw [hsame, if_pos hxy.symm]
      rfl
  · cases i with
    | unrefInternal x => exact absurd ⟨x, rfl⟩ hi
    | invalidateLoop x stash =>
      cases stash with
      | nil => exact hlead.elim
      | cons c stash => grind [Instr.destroys]
    | _ => grind [Instr.destroys]

/-! ### Every step of a careful program keeps the owners -/

theorem Refs.trigger (h : Refs w) (ho : w.object x = some o) (hle : o.userRefcount ≤ 0)
    (hsame : Alike Object.still (w.modify x fun o => { o with delTriggered := true }) w')
    (hheld : w'.held = w.held) : Refs w' := by
  refine Refs.alike ?_ hsame.owners hheld
  have howned := h.owned x o ho
  have hparent : o.parent = none := by
    by_contra hparent
    rw [if_neg hparent] at howned
    omega
  have hnone (y : Id) (hy : w.object y ≠ none) :
      (w.modify x fun o => { o with delTriggered := true }).object y ≠ none := by
    rw [← isSome_iff_ne_none] at hy ⊢
    exact (modify_isSome _).trans hy
  constructor
  · intro y o1 ho1
    obtain ⟨oy, hoy, rfl⟩ := modify_some ho1
    have hy := h.owned y oy hoy
    split <;> exact hy
  · intro y hy
    rw [modify_held] at hy
    have hyx : y ≠ x := by
      rintro rfl
      omega
    obtain ⟨oy, hoy, halive⟩ := h.kept y hy
    refine ⟨oy, ?_, halive⟩
    rw [modify_object, if_neg hyx, hoy]
  · intro y o1 ho1 hdel
    obtain ⟨oy, hoy, rfl⟩ := modify_some ho1
    by_cases hyx : y = x
    · rw [hyx] at hoy
      obtain rfl := some.inj (ho.symm.trans hoy)
      rw [if_pos hyx]
      exact hparent
    · rw [if_neg hyx] at hdel ⊢
      exact h.detached y oy hoy hdel
  · exact h.linked.alike (alike_modify x fun _ => rfl)

theorem Refs.free (h : Refs w) (htree : Tree w) (ho : w.object x = some o)
    (hdying : o.delTriggered = true) (hparent : w.parentOf x = none)
    (hchildren : w.childrenOf x = []) : Refs (w.free x) := by
  have hsome {y : Id} {oy : Object} (hoy : (w.free x).object y = some oy) :
      w.object y = some oy :=
    (Option.ite_none_left_eq_some.mp hoy).2
  constructor
  · intro y oy hoy
    exact h.owned y oy (hsome hoy)
  · intro y hy
    obtain ⟨oy, hoy, halive⟩ := h.kept y hy
    refine ⟨oy, ?_, halive⟩
    rw [free_object, if_neg, hoy]
    rintro rfl
    obtain rfl := some.inj (ho.symm.trans hoy)
    rw [hdying] at halive
    simp at halive
  · intro y oy hoy hdel
    exact h.detached y oy (hsome hoy) hdel
  · exact h.linked.free htree hparent hchildren

theorem Unparent.refs (h : Unparent w x r) (hrefs : Refs w) (htree : Tree w)
    (hparent : w.parentOf x ≠ none) : Refs r.1 := by
  cases h with
  | lost p hp hdead => exact hrefs
  | dying o ho hdying =>
    rw [parentOf_some ho] at hparent
    exact absurd (hrefs.detached x o ho hdying) hparent
  | drop o r ho hdying hunref =>
    rw [parentOf_some ho] at hparent
    have hlive : w.object x ≠ none := by simp [ho]
    have htree' : Tree (w.relink x none) := htree.relink hlive (by simp)
    cases hunref with
    | gone hnone =>
      rw [relink_none_iff, ho] at hnone
      simp at hnone
    | fallback o1 ho1 hone hhas =>
      have hnone := (hasParent_iff htree' ho1).mp hhas
      rw [← parentOf_some ho1, parentOf_relink none hlive, if_pos rfl] at hnone
      exact absurd rfl hnone
    | drop o1 r ho1 hlast halike hheld his hlength =>
      refine hrefs.relink ho (by simp) (fun _ => rfl) ?_ halike.still hheld
      rw [if_neg hparent]
      rfl

/-- `_efl_object_parent_set` keeps the references right. -/
theorem ParentSet.refs (ho : w.object x = some o) (h : ParentSet w x o parent r) (hrefs : Refs w)
    (htree : Tree w) (hcareful : ∀ p, parent = some p → w.Attaches x p → o.delTriggered = false) :
    Refs r.1 := by
  cases h with
  | stay parent hstay => exact hrefs
  | attach p po hpo hother hvalid hne hself =>
    have halive := hcareful p rfl ⟨o, ho, po, hpo, hother, hvalid, hne, hself⟩
    have hparent : ∀ q, some p = some q → w.object q ≠ none := by
      intro q hq
      rw [← some.inj hq, hpo]
      simp
    have hlate : o.delTriggered = true → some p = none := by
      intro hdying
      rw [halive] at hdying
      simp at hdying
    split
    · rename_i hnone
      refine hrefs.relink (d := 1) ho hparent hlate ?_ ⟨?_, rfl⟩ rfl
      · rw [if_pos hnone]
        rfl
      · intro y
        unfold World.ref
        rw [modify_object, modify_object]
        split
        · rw [Option.map_map, Option.map_map]
          rfl
        · rfl
    · rename_i hsome
      refine hrefs.relink (d := 0) ho hparent hlate ?_ ⟨?_, rfl⟩ rfl
      · rw [if_neg hsome]
        rfl
      · intro y
        rw [modify_object]
        split
        · cases (w.relink x (some p)).object y <;> simp
        · rfl
  | detach r hparent hvalid hrunning hunparent =>
    refine hunparent.refs hrefs htree ?_
    rw [parentOf_some ho]
    exact hparent
  | start hparent hvalid hrunning => exact hrefs.alike (alike_modify x fun _ => rfl) rfl

/--
What may go wrong in an instruction: an object that is being destroyed gets a parent, or the parent
of an object is gone before it could be taken from it.
-/
def Instr.Careful (w : World) : Instr → Prop
  | .parentSet x (some p) => w.Attaches x p → ∀ o ∈ w.object x, o.delTriggered = false
  | .unparent x => w.parentOf x ≠ none
  | _ => True

instance decidableCareful (w : World) (i : Instr) : Decidable (i.Careful w) := by
  unfold Instr.Careful
  split <;> infer_instance

/--
The program gives back what it holds, and does not need already for a call of `efl_unref` that is
still to come, and takes no reference of an object that is being destroyed.
-/
def Call.Owned (w : World) (stack : List Instr) : Call → Prop
  | .ref x => ∀ o ∈ w.object x, o.delTriggered = false
  | .unref x => ∀ o ∈ w.object x,
      (o.userRefcount = 1 ∧ o.hasParent = true) ∨ stack.count (.unref x) < w.held x
  | .del x => ∀ o ∈ w.object x, o.parent ≠ none ∨ stack.count (.unref x) < w.held x
  | _ => True

instance decidableOwned (w : World) (stack : List Instr) (c : Call) :
    Decidable (c.Owned w stack) := by
  unfold Call.Owned
  split <;> infer_instance

theorem Unref.refs (h : Unref w x true r) (hrefs : Refs w)
    (hheld : ∀ o, w.object x = some o → ¬(o.userRefcount = 1 ∧ o.hasParent = true) → 0 < w.held x) :
    Refs r.1 := by
  cases h with
  | gone hnone => exact hrefs
  | fallback o ho hone hparent =>
    obtain ⟨hstill, hsame⟩ := del_still w x
    exact hrefs.alike hstill.owners hsame
  | drop o r ho hlast halike hsame his hlength =>
    have hpos := hheld o ho hlast
    have hx : r.1.held x = w.held x - 1 := by
      rw [hsame]
      exact if_pos rfl
    refine hrefs.users ho halike.still ?_ ?_ ?_
    · omega
    · intro y hyx
      rw [hsame]
      exact if_neg hyx
    · intro
      obtain ⟨o', ho', halive⟩ := hrefs.kept x hpos
      rw [← some.inj (ho.symm.trans ho')] at halive
      exact halive

/-- **One careful instruction keeps the owners.** -/
theorem exec_refs (h : Refs w) (htree : Tree w) (hwaits : Waits w (i :: rest))
    (hcareful : i.Careful w) (htidy : i.Tidy w) (hexec : exec w i = some r) :
    Refs r.1 := by
  cases exec_change hexec with
  | still i r hstill hheld => exact h.alike hstill.owners hheld
  | parentSet x parent o r ho hset =>
    refine hset.refs ho h htree ?_
    rintro p rfl hattaches
    exact hcareful hattaches o ho
  | unparent x o r ho hunparent => exact hunparent.refs h htree hcareful
  | invalidate x => exact h.alike (alike_modify x fun _ => rfl) rfl
  | unref x r hunref =>
    refine hunref.refs h ?_
    have hpending := hwaits.pending x
    rw [count_cons_self] at hpending
    omega
  | trigger x o r ho hle halike hheld => exact h.trigger ho hle halike hheld
  | free x o ho =>
    exact h.free htree ho (hwaits.destroys _ mem_cons_self x rfl o ho) htidy.1 htidy.2

/-! ### What waits on the stack -/

/-- No object comes to life, and none that is being destroyed is saved. -/
def Marks (w w' : World) : Prop :=
  ∀ x o', w'.object x = some o' →
    ∃ o, w.object x = some o ∧ (o.delTriggered = true → o'.delTriggered = true)

theorem Marks.refl (w : World) : Marks w w := fun _ o ho => ⟨o, ho, id⟩

theorem Marks.trans {w'' : World} (h : Marks w w') (h' : Marks w' w'') : Marks w w'' := by
  intro x o'' ho''
  obtain ⟨o', ho', hdel'⟩ := h' x o'' ho''
  obtain ⟨o, ho, hdel⟩ := h x o' ho'
  exact ⟨o, ho, hdel' ∘ hdel⟩

theorem Alike.marks (h : Alike Object.still w w') : Marks w w' := by
  intro x o' ho'
  obtain ⟨o, ho, hstill⟩ := h.get ho'
  have hsame : o'.delTriggered = o.delTriggered := congrArg (fun o => o.delTriggered) hstill
  exact ⟨o, ho, hsame.trans⟩

theorem marks_modify (x : Id)
    (h : ∀ o, o.delTriggered = true → (f o).delTriggered = true) : Marks w (w.modify x f) := by
  intro y o' ho'
  obtain ⟨o, ho, rfl⟩ := modify_some ho'
  refine ⟨o, ho, ?_⟩
  intro hdel
  split
  · exact h o hdel
  · exact hdel

theorem marks_relink (x : Id) (parent : Option Id) : Marks w (w.relink x parent) := by
  intro y o' ho'
  obtain ⟨o, ho, -, -, hdel⟩ := relink_some ho'
  exact ⟨o, ho, hdel.trans⟩

theorem Unref.marks {owned : Bool} (h : Unref w x owned r) :
    Marks w r.1 := by
  cases h with
  | gone hnone => exact Marks.refl w
  | fallback o ho hone hparent => exact (del_still w x).1.marks
  | drop o r ho hlast halike hheld his hlength =>
    refine Marks.trans ?_ halike.still.marks
    exact marks_modify x fun _ hdel => hdel

theorem Unref.held (h : Unref w x false r) : r.1.held = w.held := by
  cases h with
  | gone hnone => rfl
  | fallback o ho hone hparent => exact (del_still w x).2
  | drop o r ho hlast halike hheld his hlength => exact hheld

theorem Unparent.marks (h : Unparent w x r) :
    Marks w r.1 ∧ r.1.held = w.held := by
  cases h with
  | lost p hparent hp => exact ⟨Marks.refl w, rfl⟩
  | dying o ho hdying => exact ⟨marks_relink x none, rfl⟩
  | drop o r ho hdying hunref => exact ⟨(marks_relink x none).trans hunref.marks, hunref.held⟩

theorem ParentSet.marks (h : ParentSet w x o parent r) : Marks w r.1 ∧ r.1.held = w.held := by
  cases h with
  | stay parent hstay => exact ⟨Marks.refl w, rfl⟩
  | attach p po hpo hother hvalid hne hself =>
    split
    · refine ⟨(marks_relink x (some p)).trans ?_, rfl⟩
      exact marks_modify x fun _ hdel => hdel
    · exact ⟨marks_relink x (some p), rfl⟩
  | detach r hparent hvalid hrunning hunparent => exact hunparent.marks
  | start hparent hvalid hrunning => exact ⟨marks_modify x fun _ hdel => hdel, rfl⟩

theorem exec_marks (hexec : exec w i = some r) :
    Marks w r.1 ∧ ((∀ x, i ≠ .unref x) → r.1.held = w.held) := by
  cases exec_change hexec with
  | still i r hstill hheld => exact ⟨hstill.marks, fun _ => hheld⟩
  | parentSet x parent o r ho hset => exact ⟨hset.marks.1, fun _ => hset.marks.2⟩
  | unparent x o r ho hunparent => exact ⟨hunparent.marks.1, fun _ => hunparent.marks.2⟩
  | invalidate x => exact ⟨marks_modify x fun _ hdel => hdel, fun _ => rfl⟩
  | unref x r hunref => exact ⟨hunref.marks, fun hne => absurd rfl (hne x)⟩
  | trigger x o r ho hle halike hheld =>
    refine ⟨Marks.trans ?_ halike.marks, fun _ => hheld⟩
    exact marks_modify x fun _ _ => rfl
  | free x o ho =>
    refine ⟨?_, fun _ => rfl⟩
    intro y o ho
    exact ⟨o, (ite_none_left_eq_some.mp ho).2, id⟩

theorem Unref.pending (h : Unref w x true r) (y : Id) :
    w.held y - (if x = y then 1 else 0) ≤ r.1.held y := by
  cases h with
  | gone hnone => exact Nat.sub_le _ _
  | fallback o ho hone hparent =>
    rw [(del_still w x).2]
    exact Nat.sub_le _ _
  | drop o r ho hlast halike hheld his hlength =>
    rw [hheld]
    show _ ≤ if y = x then w.held y - 1 else w.held y
    by_cases hxy : x = y
    · exact Nat.le_of_eq (by rw [if_pos hxy, if_pos hxy.symm])
    · rw [if_neg (Ne.symm hxy)]
      exact Nat.sub_le _ _

theorem exec_waits (htree : Tree w) (h : Waits w (i :: rest)) (hexec : exec w i = some r) :
    Waits r.1 (r.2 ++ rest) := by
  obtain ⟨hmarks, hheld⟩ := exec_marks hexec
  constructor
  · intro y
    have hpending := h.pending y
    have hzero : r.2.count (.unref y) = 0 := by
      rw [count_eq_zero]
      exact unref_not_mem htree hexec y
    rw [count_append, hzero, Nat.zero_add]
    rw [count_cons] at hpending
    by_cases hi : ∀ x, i ≠ .unref x
    · rw [hheld hi]
      omega
    push Not at hi
    obtain ⟨x, rfl⟩ := hi
    cases hexec
    have hgive := (unref_cases w x true).pending y
    by_cases hxy : x = y
    · rw [if_pos hxy] at hgive
      rw [hxy, if_pos (beq_self_eq_true _)] at hpending
      exact Nat.le_trans (Nat.le_sub_of_add_le hpending) hgive
    · rw [if_neg hxy] at hgive
      omega
  · intro j hj y hy o ho
    obtain ⟨o', ho', hdel⟩ := hmarks y o ho
    rcases mem_append.mp hj with hj | hj
    · rcases exec_destroys htree hexec hj hy with hi | hmark
      · exact hdel (h.destroys i mem_cons_self y hi o' ho')
      · exact hmark o ho
    · exact hdel (h.destroys j (mem_cons_of_mem i hj) y hy o' ho')

end Eo.Life
