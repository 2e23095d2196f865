/-
An object that is invalidated has no children.

`_efl_invalidate` puts the children aside once and takes them from the object one by one, while
their callbacks run.  Each child there is at the end of the loop was not put aside, or could not be
taken away.  So the object has no children in the end, unless it gets one behind the back of the
loop, or a child is invalidated already when its turn comes.
-/
import Efl.Eo.Life.Links
import Efl.Lib.Runs

namespace Eo.Life

open Runs List Option World

variable {w w' : World} {x y c p : Id} {i : Instr} {is rest stack pre : List Instr} {o o' : Object}

/-! ### What is above an instruction -/

/-- `P` holds of every instruction on the stack and of what is above it. -/
def Everywhere (P : List Instr → Instr → Prop) (stack : List Instr) : Prop :=
  ∀ above f below, stack = above ++ f :: below → P above f

variable {P : List Instr → Instr → Prop} {above below : List Instr}

theorem everywhere_append (his : Everywhere P is)
    (hrest : ∀ above f below, rest = above ++ f :: below → P (is ++ above) f) :
    Everywhere P (is ++ rest) := by
  intro above f below hparts
  rcases append_eq_append_iff.mp hparts with ⟨mid, rfl, hmid⟩ | ⟨mid, rfl, hmid⟩
  · exact hrest mid f below hmid
  cases mid with
  | nil =>
    have hempty := hrest [] f below hmid.symm
    rwa [append_nil, append_nil] at hempty
  | cons g mid =>
    obtain ⟨rfl, rfl⟩ := cons.inj hmid
    exact his above f mid rfl

theorem everywhere_nil : Everywhere P [] := by
  intro above f below hparts
  simp at hparts

theorem everywhere_cons (hi : P [] i) (his : Everywhere (fun above f => P (i :: above) f) is) :
    Everywhere P (i :: is) := by
  intro above f below hparts
  cases above with
  | nil =>
    obtain ⟨rfl, -⟩ := cons.inj hparts
    exact hi
  | cons g above =>
    obtain ⟨rfl, hrest⟩ := cons.inj hparts
    exact his above f below hrest

theorem Everywhere.head (h : Everywhere P (i :: rest)) : P [] i :=
  h [] i rest rfl

theorem Everywhere.tail (h : Everywhere P (i :: rest)) {f : Instr}
    (hparts : rest = above ++ f :: below) :
    P (i :: above) f :=
  h (i :: above) f below (by rw [hparts, cons_append])

/-! ### Children and the loop -/

namespace World

def invalidOf (w : World) (x : Id) : Bool := ((w.object x).map (·.invalidate)).getD false

theorem invalidOf_some (ho : w.object x = some o) : w.invalidOf x = o.invalidate := by
  rw [invalidOf, ho, map_some, getD_some]

end World

/-- A child is about to be taken from its parent by what is above the rest of a turn. -/
def Detaching (w : World) (c : Id) (above : List Instr) : Prop :=
  (above = [.callParentSet c none] ∧ w.invalidOf c = false) ∨
    (above = [.parentSet c none, .unrefInternal c] ∧ w.invalidOf c = false) ∨
      .unparent c ∈ above

/-- The children that the loop does not know of. -/
def Instr.Reaches (w : World) (above : List Instr) : Instr → Prop
  | .invalidateLoop x stash => ∀ c ∈ w.childrenOf x, c ∈ stash
  | .invalidateNext x child stash =>
    ∀ c ∈ w.childrenOf x, c ∈ stash ∨ (c = child ∧ Detaching w c above)
  | _ => True

/-- The loops know of all children, and an object without a loop has none once it is invalidated. -/
structure Emptied (w : World) (stack : List Instr) : Prop where
  reaches : Everywhere (fun above f => f.Reaches w above) stack
  empty : ∀ x, w.invalidOf x = true → w.childrenOf x = []

theorem parentOf_of_mem (htree : Tree w) (hc : w.object c ≠ none) (h : c ∈ w.childrenOf x) :
    w.parentOf c = some x ∧ w.object x ≠ none := by
  have hx : w.object x ≠ none := by
    intro hnone
    rw [World.childrenOf, hnone] at h
    simp at h
  have hcount := htree.listed c x hc hx
  have hpos := count_pos_iff.mpr h
  refine ⟨?_, hx⟩
  by_contra hother
  rw [if_neg hother] at hcount
  omega

theorem not_mem_relink (htree : Tree w) (hc : w.object c ≠ none) :
    c ∉ (w.relink c none).childrenOf x := by
  intro h
  have htree' : Tree (w.relink c none) := htree.relink hc (by simp)
  have hlive : (w.relink c none).object c ≠ none := by
    rw [Ne, relink_none_iff]
    exact hc
  obtain ⟨hparent, -⟩ := parentOf_of_mem htree' hlive h
  rw [parentOf_relink none hc] at hparent
  simp at hparent

/-! ### What an instruction does to children -/

theorem mem_relink {parent : Option Id} (h : c ∈ (w.relink x parent).childrenOf y) :
    c ∈ w.childrenOf y ∨ (c = x ∧ parent = some y) := by
  by_cases hy : w.object y = none
  · rw [World.childrenOf, (relink_none_iff parent).mpr hy] at h
    simp at h
  rw [childrenOf_relink parent hy, mem_append] at h
  rcases h with h | h
  · left
    split at h
    · exact mem_of_mem_erase h
    · exact h
  · right
    split at h
    · rename_i hparent
      exact ⟨mem_singleton.mp h, hparent⟩
    · simp at h

variable {r : World × List Instr}

theorem Unparent.not_mem (htree : Tree w) (hx : w.object x ≠ none) (h : Unparent w x r) :
    x ∉ r.1.childrenOf y := by
  cases h with
  | lost p hparent hp =>
    intro hmem
    obtain ⟨hy, hlive⟩ := parentOf_of_mem htree hx hmem
    obtain rfl := some.inj (hparent.symm.trans hy)
    exact hlive hp
  | dying o ho hdying => exact not_mem_relink htree hx
  | drop o r ho hdying hunref =>
    rw [hunref.links.childrenOf]
    exact not_mem_relink htree hx

theorem arises_child (c y : Id) : Arises (fun w => c ∈ w.childrenOf y) c y where
  links := by
    intro u u' h halike
    rwa [halike.childrenOf] at h
  relink := by
    intro u x parent _ h
    exact (mem_relink h).imp_right fun ⟨hc, hp⟩ => ⟨hc.symm, hp⟩
  free := by
    intro u x h
    rw [childrenOf_free] at h
    split at h
    · simp at h
    · exact h

theorem Alike.invalidOf (h : Alike Object.still w w') (x : Id) : w'.invalidOf x =
    w.invalidOf x := by
  have hx := congrArg (fun o => (o.map fun o => o.invalidate).getD false) (h.object x)
  rw [Option.map_map, Option.map_map] at hx
  exact hx

theorem invalidOf_modify {f : Object → Object} (x y : Id)
    (h : ∀ o, (f o).invalidate = o.invalidate) :
    (w.modify x f).invalidOf y = w.invalidOf y := by
  unfold World.invalidOf
  rw [modify_object]
  split
  · cases w.object y with
    | none => rfl
    | some o => simp [h]
  · rfl

theorem invalidOf_relink (parent : Option Id) :
    (w.relink x parent).invalidOf y = w.invalidOf y := by
  unfold World.invalidOf World.relink
  dsimp only
  cases w.object y <;> rfl

theorem Unref.invalidOf {owned : Bool} (h : Unref w x owned r) (y : Id) :
    r.1.invalidOf y = w.invalidOf y := by
  cases h with
  | gone hnone => rfl
  | fallback o ho hone hparent => exact (del_still w x).1.invalidOf y
  | drop o r ho hlast halike hheld his hlength =>
    rw [halike.still.invalidOf]
    exact invalidOf_modify x y fun _ => rfl

theorem Unparent.invalidOf (h : Unparent w x r) (y : Id) :
    r.1.invalidOf y = w.invalidOf y := by
  cases h with
  | lost p hparent hp => rfl
  | dying o ho hdying => exact invalidOf_relink none
  | drop o r ho hdying hunref => rw [hunref.invalidOf, invalidOf_relink]

/-- An object becomes invalid at the end of its own loop over the children. -/
theorem exec_invalidOf (hexec : exec w i = some r) (h : r.1.invalidOf y = true) :
    w.invalidOf y = true ∨ i = .invalidateLoop y [] := by
  cases exec_change hexec with
  | still i r hstill hheld =>
    left
    rwa [hstill.invalidOf] at h
  | parentSet x parent o r ho hset =>
    left
    cases hset with
    | stay parent hstay => exact h
    | attach p po hpo hother hvalid hne hself =>
      split at h
      · rw [World.ref, invalidOf_modify x, invalidOf_relink] at h
        · exact h
        · exact fun _ => rfl
      · rwa [invalidOf_relink] at h
    | detach r hparent hvalid hrunning hunparent => rwa [hunparent.invalidOf] at h
    | start hparent hvalid hrunning =>
      rw [invalidOf_modify x] at h
      · exact h
      · exact fun _ => rfl
  | unparent x o r ho hunparent =>
    left
    rwa [hunparent.invalidOf] at h
  | invalidate x =>
    by_cases hy : y = x
    · rw [hy]
      exact .inr rfl
    left
    unfold World.invalidOf at h ⊢
    rwa [modify_object, if_neg hy] at h
  | unref x r hunref =>
    left
    rwa [hunref.invalidOf] at h
  | trigger x o r ho hle halike hheld =>
    left
    rw [halike.invalidOf, invalidOf_modify x] at h
    · exact h
    · exact fun _ => rfl
  | free x o ho =>
    left
    unfold World.invalidOf at h ⊢
    rw [free_object] at h
    split at h
    · simp at h
    · exact h

/-! ### Every step keeps that -/

/-- A loop over the children of an object has one of them still to come. -/
def Instr.Expects (p x : Id) : Instr → Prop
  | .invalidateLoop q stash | .invalidateNext q _ stash => q = p → x ∈ stash
  | _ => True

instance decidableExpects (p x : Id) (i : Instr) : Decidable (i.Expects p x) := by
  unfold Instr.Expects
  split <;> infer_instance

/--
What may go wrong in an instruction: an object gets a child that a loop over its children does not
come to any more, or the child a loop comes to is invalidated already.
-/
def Instr.Foreseen (w : World) (stack : List Instr) : Instr → Prop
  | .parentSet x (some p) => w.Attaches x p → ∀ f ∈ stack, f.Expects p x
  | .invalidateLoop x (c :: _) => ∀ o ∈ w.object c, o.invalidate = true → o.parent ≠ some x
  | _ => True

instance decidableForeseen (w : World) (stack : List Instr) :
    (i : Instr) → Decidable (i.Foreseen w stack)
  | .parentSet x (some p) =>
    inferInstanceAs (Decidable (w.Attaches x p → ∀ f ∈ stack, f.Expects p x))
  | .invalidateLoop x (c :: _) =>
    inferInstanceAs (Decidable (∀ o ∈ w.object c, o.invalidate = true → o.parent ≠ some x))
  | .parentSet _ none | .invalidateLoop _ [] | .user | .callParentSet _ _ | .unparent _
  | .invalidateChildren _ | .invalidateNext _ _ _ | .invalidateMethod _ | .unref _
  | .unrefInternal _ | .delParent _ | .delEvent _ | .destructor _ | .destructorLoop _ _
  | .destructorParent _ | .free _ => inferInstanceAs (Decidable True)

theorem Detaching.step {stash : List Id} (htree : Tree w)
    (hframes : Frames w (i :: (above ++ .invalidateNext x c stash :: below)))
    (hexec : exec w i = some r) (h : Detaching w c (i :: above)) (hmem : c ∈ w.childrenOf x)
    (hmem' : c ∈ r.1.childrenOf x) : Detaching r.1 c (r.2 ++ above) := by
  have hc : w.object c ≠ none := by
    refine hframes.live c ?_
    rw [holds_cons, holds_append, holds_cons]
    simp only [Instr.givesBack, if_true]
    omega
  obtain ⟨hparent, hx⟩ := parentOf_of_mem htree hc hmem
  rcases h with ⟨hparts, hvalid⟩ | ⟨hparts, hvalid⟩ | hmember
  · obtain ⟨rfl, rfl⟩ := cons.inj hparts
    obtain ⟨hstill, -⟩ := exec_still (i := .callParentSet c none) trivial hexec
    cases exec_cases hexec with
    | callGone x parent hnone => exact absurd hnone hc
    | call x parent o ho => exact .inr (.inl ⟨rfl, (hstill.invalidOf c).trans hvalid⟩)
  · obtain ⟨rfl, rfl⟩ := cons.inj hparts
    obtain ⟨o, ho, hset⟩ := parentSet_cases hexec
    rw [parentOf_some ho] at hparent
    rw [invalidOf_some ho] at hvalid
    cases hset with
    | stay parent hstay =>
      rcases hstay rfl with hnone | hinvalid
      · rw [hnone] at hparent
        simp at hparent
      · rw [hvalid] at hinvalid
        simp at hinvalid
    | detach r hsome hvalid' hrunning hunparent =>
      exact absurd hmem' (hunparent.not_mem htree hc)
    | start hsome hvalid' hrunning => exact .inr (.inr (by simp))
  · rcases mem_cons.mp hmember with rfl | hmember
    · cases exec_cases hexec with
      | unparent x o ho => exact absurd hmem' ((unparent_cases ho).not_mem htree hc)
    · exact .inr (.inr (mem_append_right _ hmember))

theorem leaves_reaches (htree : Tree w) (h : i.Reaches w []) (hforeseen : i.Foreseen w rest)
    (hlive : ∀ x c stash, i = .invalidateLoop x (c :: stash) → w.object c ≠ none)
    (hexec : exec w i = some r) :
    Everywhere (fun above f => f.Reaches r.1 above) r.2 := by
  have hother (hnone : ∀ j, i.Leads j → ∀ x stash, j ≠ .invalidateLoop x stash ∧
      ∀ c, j ≠ .invalidateNext x c stash) : Everywhere
        (fun above f => f.Reaches r.1 above) r.2 := by
    intro above f below hparts
    have hlead := exec_leads htree hexec f (by rw [hparts]; simp)
    cases f with
    | invalidateLoop x stash => exact absurd rfl (hnone _ hlead x stash).1
    | invalidateNext x c stash => exact absurd rfl ((hnone _ hlead x stash).2 c)
    | _ => trivial
  cases exec_cases hexec with
  | invalidateChildren x o ho hchildren =>
    obtain ⟨hstill, -⟩ := exec_still (i := .invalidateChildren x) trivial hexec
    refine everywhere_cons ?_ everywhere_nil
    intro c hc
    rw [hstill.links.childrenOf, childrenOf_some ho] at hc
    exact mem_reverse.mpr hc
  | invalidateLoop x c stash =>
    have hc := hlive x c stash rfl
    refine everywhere_cons trivial (everywhere_cons ?_ everywhere_nil)
    intro c' hc'
    rcases mem_cons.mp (h c' hc') with rfl | hstash
    · refine .inr ⟨rfl, .inl ⟨rfl, ?_⟩⟩
      obtain ⟨o, ho⟩ := ne_none_iff_exists'.mp hc
      obtain ⟨hparent, -⟩ := parentOf_of_mem htree hc hc'
      rw [parentOf_some ho] at hparent
      rw [invalidOf_some ho, ← Bool.not_eq_true]
      exact fun hinvalid => hforeseen o ho hinvalid hparent
    · exact .inl hstash
  | invalidateNext x c stash =>
    refine everywhere_cons trivial (everywhere_cons ?_ everywhere_nil)
    intro c' hc'
    refine (h c' hc').resolve_right ?_
    rintro ⟨-, hdetaching⟩
    rcases hdetaching with ⟨habs, -⟩ | ⟨habs, -⟩ | habs
    · simp at habs
    · simp at habs
    · simp at habs
  | _ => exact hother (by grind [Instr.Leads])

/-- **One instruction keeps the loops over all children**, as long as nothing unforeseen happens. -/
theorem exec_emptied (h : Emptied w (i :: rest)) (htree : Tree w) (hframes : Frames w (i :: rest))
    (hforeseen : i.Foreseen w rest) (hexec : exec w i = some r) : Emptied r.1 (r.2 ++ rest) := by
  have hhead : i.Reaches w [] := h.reaches.head
  constructor
  · refine everywhere_append ?_ ?_
    · refine leaves_reaches htree hhead hforeseen ?_ hexec
      rintro x c stash rfl
      refine hframes.live c ?_
      rw [holds_cons]
      simp only [Instr.givesBack, count_cons_self]
      omega
    · intro above f below hparts
      have hold : f.Reaches w (i :: above) := h.reaches.tail hparts
      cases f with
      | invalidateLoop x stash =>
        intro c hc
        rcases (arises_child _ _).exec hexec hc with hc | ⟨rfl, hattaches⟩
        · exact hold c hc
        · exact hforeseen hattaches (.invalidateLoop x stash) (by rw [hparts]; simp) rfl
      | invalidateNext x child stash =>
        intro c hc
        rcases (arises_child _ _).exec hexec hc with hc' | ⟨rfl, hattaches⟩
        · rcases hold c hc' with hstash | ⟨rfl, hdetaching⟩
          · exact .inl hstash
          · rw [hparts] at hframes
            exact .inr ⟨rfl, hdetaching.step htree hframes hexec hc' hc⟩
        · exact .inl (hforeseen hattaches (.invalidateNext x child stash)
            (by rw [hparts]; simp) rfl)
      | _ => trivial
  · intro x hx
    rw [eq_nil_iff_forall_not_mem]
    intro c hc
    rcases exec_invalidOf hexec hx with hx' | rfl
    · rcases (arises_child _ _).exec hexec hc with hc' | ⟨rfl, o, ho, po, hpo, -, hvalid, -⟩
      · rw [h.empty x hx'] at hc'
        simp at hc'
      · rw [invalidOf_some hpo, hvalid] at hx'
        simp at hx'
    · rcases (arises_child _ _).exec hexec hc with hc' | ⟨habs, -⟩
      · exact absurd (hhead c hc') (by simp)
      · simp at habs

theorem Emptied.call {u : World} {l : List Instr} (h : Emptied w stack) (hturn : UserTurn stack)
    (hchildren : ∀ x c, c ∈ u.childrenOf x → c ∈ w.childrenOf x)
    (hinvalid : ∀ x, u.invalidOf x = true → w.invalidOf x = true)
    (his : ∀ j ∈ l, ∀ x stash, j ≠ .invalidateLoop x stash ∧ ∀ c, j ≠ .invalidateNext x c stash) :
    Emptied u (l ++ stack) := by
  constructor
  · refine everywhere_append ?_ ?_
    · intro above f below hparts
      have hf := his f (by rw [hparts]; simp)
      cases f with
      | invalidateLoop x stash => exact absurd rfl (hf x stash).1
      | invalidateNext x c stash => exact absurd rfl ((hf x stash).2 c)
      | _ => trivial
    · intro above f below hparts
      have hold : f.Reaches w above := h.reaches above f below hparts
      cases f with
      | invalidateLoop x stash => exact fun c hc => hold c (hchildren x c hc)
      | invalidateNext x child stash =>
        intro c hc
        rcases hold c (hchildren x c hc) with hstash | ⟨rfl, hdetaching⟩
        · exact .inl hstash
        -- it l the program's turn, so nothing of `efl_parent_set` l on top
        have htop : above.head? = some .user := by
          rcases hturn with hempty | huser
          · rw [hempty] at hparts
            simp at hparts
          rw [hparts] at huser
          cases above with
          | nil => simp at huser
          | cons g above => exact huser
        rcases hdetaching with ⟨habs, -⟩ | ⟨habs, -⟩ | hmem
        · rw [habs] at htop
          simp at htop
        · rw [habs] at htop
          simp at htop
        · exact .inr ⟨rfl, .inr (.inr (mem_append_right _ hmem))⟩
      | _ => trivial
  · intro x hx
    rw [eq_nil_iff_forall_not_mem]
    intro c hc
    have hmem := hchildren x c hc
    rw [h.empty x (hinvalid x hx)] at hmem
    simp at hmem

/-- A call keeps the parents that were invalidated without children. -/
theorem call_emptied {c : Call} (h : Emptied w stack) (htree : Tree w) (hturn : UserTurn stack)
    (hcall : call w c = some r) : Emptied r.1 (r.2 ++ stack) := by
  have hstill {w' : World} {is : List Instr} (halike : Alike Object.still w w')
    (his : ∀ j ∈ is, ∀ x stash,
      j ≠ .invalidateLoop x stash ∧ ∀ c, j ≠ .invalidateNext x c stash) :
      Emptied w' (is ++ stack) := by
    refine h.call hturn ?_ ?_ his
    · intro x c hc
      rwa [halike.links.childrenOf] at hc
    · intro x hx
      rwa [halike.invalidOf] at hx
  cases c with
  | add parent isRef =>
    cases hcall
    unfold World.add
    split
    · exact h
    refine h.call hturn ?_ ?_ ?_
    · intro x c hc
      unfold World.childrenOf at hc
      dsimp only at hc
      split at hc
      · simp [newObject] at hc
      · exact hc
    · intro x hx
      unfold World.invalidOf at hx
      dsimp only at hx
      split at hx
      · simp [newObject] at hx
      · exact hx
    · intro j hj
      simp only [mem_append, mem_cons, not_mem_nil, or_false] at hj
      rcases hj with (hj | rfl | rfl) | hj
      · split at hj
        · simp at hj
        · rw [mem_singleton.mp hj]
          simp
      · simp
      · simp
      · split at hj
        · simp at hj
        · rw [mem_singleton.mp hj]
          simp
  | parentSet x parent =>
    have hexec : exec w (.callParentSet x parent) = some r := hcall
    refine hstill (exec_still (i := .callParentSet x parent) trivial hexec).1 ?_
    intro j hj
    rcases exec_leads htree hexec j hj with rfl | rfl
    · simp
    · simp
  | del x =>
    cases hcall
    refine hstill (del_still w x).1 ?_
    intro j hj
    cases hx : w.object x with
    | none =>
      rw [World.del, hx] at hj
      simp at hj
    | some o => rcases mem_del hx hj with ⟨rfl, -⟩ | rfl | rfl <;> simp
  | ref x =>
    simp only [Life.call] at hcall
    split at hcall
    · cases hcall
      exact h
    cases hcall
    have halike : Alike Object.links w (w.ref x) := alike_modify x fun _ => rfl
    refine h.call hturn ?_ ?_ (by simp)
    · intro y c hc
      have hsame : ((w.ref x).hold x).childrenOf y = (w.ref x).childrenOf y := rfl
      rwa [hsame, halike.childrenOf] at hc
    · intro y hy
      have hsame : ((w.ref x).hold x).invalidOf y = w.invalidOf y :=
        invalidOf_modify x y fun _ => rfl
      rwa [hsame] at hy
  | unref x =>
    have hexec : exec w (.unref x) = some r := hcall
    cases hexec
    refine h.call hturn ?_ ?_ ?_
    · intro y c hc
      rwa [(unref_cases w x true).links.childrenOf] at hc
    · intro y hy
      rwa [(unref_cases w x true).invalidOf] at hy
    · intro j hj
      rcases mem_unref htree (unref_cases w x true) hj with rfl | rfl <;> simp
  | invalidate x =>
    simp only [Life.call] at hcall
    split at hcall
    · cases hcall
      exact h
    cases hcall
    have halike : Alike Object.still w (w.addRef x) := alike_modify x fun _ => rfl
    exact hstill halike (by simp)

/-! ### Every run -/

/-- What has to hold of the next instruction. -/
def Op.Foreseen (m : Machine) : Op → Prop
  | .go => ∀ i ∈ m.stack.head?, i.Foreseen m.world m.stack.tail
  | _ => True

instance decidableOpForeseen (m : Machine) (op : Op) : Decidable (op.Foreseen m) := by
  unfold Op.Foreseen
  split <;> infer_instance

/-- All that is known of a state of such a run. -/
structure Cleared (m : Machine) : Prop where
  tree : Tree m.world
  linked : Linked m.world
  frames : Frames m.world m.stack
  emptied : Emptied m.world m.stack

theorem step_cleared {m m' : Machine} {op : Op} (h : Cleared m) (htidy : op.Tidy m)
    (hforeseen : op.Foreseen m) (hstep : m.step op = some m') : Cleared m' := by
  have htree := step_tree h.tree hstep
  have hlinked := step_linked h.linked h.tree htidy hstep
  have hframes := step_frames h.frames (h.tree.fresh _ (Nat.le_refl _)) hstep
  rcases step_cases hstep with ⟨c, r, -, hturn, hcall, rfl⟩ | ⟨rest, -, hstack, rfl⟩ |
    ⟨i, rest, r, rfl, hstack, hexec, rfl⟩
  · exact ⟨htree, hlinked, hframes, call_emptied h.emptied h.tree hturn hcall⟩
  · refine ⟨htree, hlinked, hframes, ?_, h.emptied.empty⟩
    have hreaches := h.emptied.reaches
    rw [hstack] at hreaches
    intro above f below hparts
    have hold : f.Reaches m.world (.user :: above) := hreaches.tail hparts
    cases f with
    | invalidateLoop x stash => exact hold
    | invalidateNext x child stash =>
      intro c hc
      rcases hold c hc with hstash | ⟨rfl, ⟨habs, -⟩ | ⟨habs, -⟩ | hmem⟩
      · exact .inl hstash
      · simp at habs
      · simp at habs
      · exact .inr ⟨rfl, .inr (.inr (by simpa using hmem))⟩
    | _ => trivial
  · have hemptied := h.emptied
    have hold := h.frames
    rw [hstack] at hemptied hold
    have hi : i.Foreseen m.world rest := by
      have hnext := hforeseen i (by rw [hstack]; rfl)
      rwa [hstack] at hnext
    exact ⟨htree, hlinked, hframes, exec_emptied hemptied h.tree hold hi hexec⟩

/--
**An invalidated object has no children**, in every state that a run without surprises reaches, and
the run goes on.
-/
theorem run_emptied {ops : List Op} {m : Machine} {answers : List Unit}
    (hops : EachStep (Steps Machine.step) (fun m op => op.Tidy m ∧ op.Foreseen m) start ops)
    (h : Traces (Steps Machine.step) start ops m answers) :
    (∀ x o, m.world.object x = some o → o.invalidate = true → o.children = []) ∧
      m.Proceeds := by
  have hstart : Cleared start := by
    refine ⟨start_tree, start_linked, start_frames, everywhere_nil, ?_⟩
    intro x hx
    simp [World.invalidOf, start] at hx
  have hcleared := traces_invariant_of
    (fun _ _ _ _ hcleared hop hstep => step_cleared hcleared hop.1 hop.2 hstep) ops start m answers
    hops hstart h
  refine ⟨?_, machine_proceeds hcleared.frames hcleared.linked⟩
  intro x o hx hinvalid
  rw [← childrenOf_some hx]
  refine hcleared.emptied.empty x ?_
  rw [invalidOf_some hx, hinvalid]

/--
The child of a family, which has two children itself, is invalidated; the callback of the child
whose turn comes first gives the other one a new child.
-/
def invalidates : List Op :=
  family ++ addChild 1 ++ [.call (.add none true), .ret, .go, .call (.invalidate 1), .ret] ++
    gos 3 ++ .ret :: gos 4 ++ .call (.parentSet 4 (some 2)) :: gos 2 ++ .ret :: gos 10 ++
    .ret :: gos 4 ++ .ret :: gos 18

set_option maxRecDepth 4000 in
theorem run_emptied_invalidates : ∃ m, invalidates.foldlM Machine.step start = some m ∧
    ((m.world.object 1).map (·.invalidate) = some true ∧
      (m.world.object 2).map (·.invalidate) = some true) ∧
    ((∀ x o, m.world.object x = some o → o.invalidate = true → o.children = []) ∧
      m.Proceeds) := by
  have hrun : (invalidates.foldlM Machine.step start).map (fun m =>
      ((m.world.object 1).map (·.invalidate), (m.world.object 2).map (·.invalidate))) =
      some (some true, some true) := by
    decide
  obtain ⟨m, hm, hobjects⟩ := map_eq_some_iff.mp hrun
  refine ⟨m, hm, Prod.mk.inj hobjects, run_emptied ?_ (traces_foldlM invalidates start m hm)⟩
  exact eachStep_of_obeys invalidates start (by decide)

/-! ### A child that comes too late -/

/-- An object with a child is destroyed, and the callback of the child gives it another one. -/
def adopts : List Op :=
  [.call (.add none true), .ret, .go] ++ addChild 0 ++ [.call (.add none true), .ret, .go] ++
    .call (.unref 0) :: gos 2 ++ .ret :: gos 4 ++ .call (.parentSet 2 (some 0)) :: gos 2 ++
    .ret :: gos 8

/-- It stays with the parent that is invalidated. -/
theorem late_child_stays : ∃ m answers o,
    Traces (Steps Machine.step) start adopts m answers ∧
      m.world.object 0 = some o ∧ o.invalidate = true ∧ o.children = [2] := by
  have hrun : (adopts.foldlM Machine.step start).bind
      (fun m => (m.world.object 0).map fun o => (o.invalidate, o.children)) = some (true, [2]) := by
    decide
  obtain ⟨m, hm, hobject⟩ := bind_eq_some_iff.mp hrun
  obtain ⟨o, ho, hends⟩ := map_eq_some_iff.mp hobject
  obtain ⟨hinvalid, hchildren⟩ := Prod.mk.inj hends
  exact ⟨m, _, o, traces_foldlM _ start m hm, ho, hinvalid, hchildren⟩

end Eo.Life
