/-
Ancestors.

`_efl_object_parent_set` refuses an object as its own parent, and nothing else.  As long as no
object is put below one of its own descendants the parents make no cycle, whatever the callbacks
do, and what climbs from parent to parent comes to an end.
-/
import Efl.Eo.Life.Ends
import Efl.Lib.Climb
import Efl.Lib.Runs

namespace Eo.Life

open Climb Relation Runs Option World

variable {w w' : World} {x y p : Id} {i : Instr} {rest stack : List Instr} {o : Object}
  {r : World × List Instr} {a b : Id} {m : Machine} {op : Op}

/-! ### What climbs -/

/-- `efl_invalidated_get`; no answer yet where the fuel is used up. -/
def World.invalidatedGet (w : World) : Nat → Id → Option Bool
  | 0, _ => none
  | fuel + 1, x =>
    match w.object x with
    | none => some false
    | some o =>
      match o.parent with
      | some p => if o.invalidate then some true else w.invalidatedGet fuel p
      | none => some o.invalidate

/--
`efl_provider_find`, where `own` says what an object answers itself: it is of the class, or knows a
provider of it.
-/
def World.providerFind (w : World) (own : Id → Option Id) : Nat → Id → Option (Option Id)
  | 0, _ => none
  | fuel + 1, x =>
    match w.object x with
    | none => some none
    | some o =>
      if o.invalidate then some none
      else
        match own x with
        | some r => some (some r)
        | none =>
          match o.parent with
          | some p => w.providerFind own fuel p
          | none => some none

/-! ### One step -/

theorem arises_parent (a b : Id) : Arises (fun w => w.parentOf a = some b) a b where
  links := by
    intro u u' h halike
    rwa [halike.parentOf] at h
  relink := by
    intro u x parent hx h
    rw [parentOf_relink parent hx] at h
    split at h
    · rename_i hax
      exact .inr ⟨hax.symm, h⟩
    · exact .inl h
  free := by
    intro u x h
    rw [parentOf_free] at h
    exact (ite_none_left_eq_some.mp h).2

theorem call_parentOf {c : Call} (hcall : call w c = some r)
    (hparent : r.1.parentOf a = some b) : w.parentOf a = some b := by
  have hsame {w' : World} (halike : Alike Object.links w w') (h : w'.parentOf a = some b) :
      w.parentOf a = some b := by
    rwa [halike.parentOf] at h
  cases c with
  | add parent isRef =>
    cases hcall
    unfold World.add at hparent
    split at hparent
    · exact hparent
    unfold World.parentOf at hparent
    dsimp only at hparent
    split at hparent
    · simp [newObject] at hparent
    · exact hparent
  | parentSet x parent =>
    have hexec : exec w (.callParentSet x parent) = some r := hcall
    exact hsame (exec_still (i := .callParentSet x parent) trivial hexec).1.links hparent
  | del x =>
    cases hcall
    exact hsame (del_still w x).1.links hparent
  | ref x =>
    simp only [call] at hcall
    split at hcall
    · cases hcall
      exact hparent
    cases hcall
    have halike : Alike Object.links w (w.ref x) := alike_modify x fun _ => rfl
    exact hsame ⟨halike.object, halike.fresh⟩ hparent
  | unref x =>
    have hexec : exec w (.unref x) = some r := hcall
    cases hexec
    exact hsame (unref_cases w x true).links hparent
  | invalidate x =>
    simp only [call] at hcall
    split at hcall
    · cases hcall
      exact hparent
    cases hcall
    have halike : Alike Object.links w (w.addRef x) := alike_modify x fun _ => rfl
    exact hsame halike hparent

/-! ### Every run -/

/-- An object does not get a parent that it is an ancestor of. -/
def Op.Upward (m : Machine) : Op → Prop
  | .go => ∀ x p rest, m.stack = .parentSet x (some p) :: rest → m.world.Attaches x p →
      ¬ReflTransGen (Next m.world.parentOf) p x
  | _ => True

theorem step_acyclic {m m' : Machine} (h : Acyclic m.world.parentOf)
    (hup : op.Upward m) (hstep : m.step op = some m') : Acyclic m'.world.parentOf := by
  rcases step_cases hstep with ⟨c, r, -, -, hcall, rfl⟩ | ⟨rest, -, -, rfl⟩ |
    ⟨i, rest, r, rfl, hstack, hexec, rfl⟩
  · exact h.mono fun a b hab => call_parentOf hcall hab
  · exact h
  · by_cases hattaches : ∃ x p, i = .parentSet x (some p) ∧ m.world.Attaches x p
    · obtain ⟨x, p, rfl, hattaches⟩ := hattaches
      refine h.add ?_ (hup x p rest hstack hattaches)
      intro a b hab
      rcases (arises_parent a b).exec hexec hab with hold | ⟨heq, -⟩
      · exact .inl hold
      · obtain ⟨rfl, hb⟩ := Instr.parentSet.inj heq
        exact .inr ⟨rfl, (some.inj hb).symm⟩
    · refine h.mono ?_
      intro a b hab
      rcases (arises_parent a b).exec hexec hab with hold | ⟨heq, hab⟩
      · exact hold
      · exact absurd ⟨a, b, heq, hab⟩ hattaches

theorem parents_wellFounded (htree : Tree w) (h : Acyclic w.parentOf) :
    WellFounded fun b a => w.parentOf a = some b := by
  refine h.wellFounded (Set.finite_lt_nat w.fresh) ?_
  intro a b hab
  exact htree.parents a b hab

theorem invalidatedGet_ends (htree : Tree w) (h : Acyclic w.parentOf) (x : Id) :
    ∃ fuel b, w.invalidatedGet fuel x = some b := by
  induction x using (parents_wellFounded htree h).induction with
  | _ x ih =>
    cases ho : w.object x with
    | none => exact ⟨1, false, by rw [World.invalidatedGet, ho]⟩
    | some o =>
      cases hp : o.parent with
      | none => exact ⟨1, o.invalidate, by simp only [World.invalidatedGet, ho, hp]⟩
      | some p =>
        by_cases hinvalid : o.invalidate
        · exact ⟨1, true, by simp only [World.invalidatedGet, ho, hp, if_pos hinvalid]⟩
        obtain ⟨fuel, b, hfuel⟩ := ih p (by rw [parentOf_some ho, hp])
        refine ⟨fuel + 1, b, ?_⟩
        simp only [World.invalidatedGet, ho, hp, if_neg hinvalid, hfuel]

theorem providerFind_ends (htree : Tree w) (h : Acyclic w.parentOf) (own : Id → Option Id)
    (x : Id) :
    ∃ fuel r, w.providerFind own fuel x = some r := by
  induction x using (parents_wellFounded htree h).induction with
  | _ x ih =>
    cases ho : w.object x with
    | none => exact ⟨1, none, by rw [World.providerFind, ho]⟩
    | some o =>
      by_cases hinvalid : o.invalidate
      · exact ⟨1, none, by simp only [World.providerFind, ho, if_pos hinvalid]⟩
      cases hown : own x with
      | some r => exact ⟨1, some r, by simp only [World.providerFind, ho, if_neg hinvalid, hown]⟩
      | none =>
        cases hp : o.parent with
        | none =>
          refine ⟨1, none, ?_⟩
          simp only [World.providerFind, ho, if_neg hinvalid, hown, hp]
        | some p =>
          obtain ⟨fuel, r, hfuel⟩ := ih p (by rw [parentOf_some ho, hp])
          refine ⟨fuel + 1, r, ?_⟩
          simp only [World.providerFind, ho, if_neg hinvalid, hown, hp, hfuel]

/--
Nothing is its own ancestor, and what climbs or descends goes on and comes to an end.
-/
structure Ends (m : Machine) : Prop where
  acyclic : Acyclic m.world.parentOf
  invalidated : ∀ x, ∃ fuel b, m.world.invalidatedGet fuel x = some b
  provider : ∀ own x, ∃ fuel r, m.world.providerFind own fuel x = some r
  /-- `_efl_invalidate`, and all else the library has begun -/
  goesOn : Acc (fun m' m => GoesOn m m') m
  proceeds : m.Proceeds

/-- All that is known of a state of such a run. -/
structure Rooted (m : Machine) : Prop where
  tree : Tree m.world
  linked : Linked m.world
  frames : Frames m.world m.stack
  acyclic : Acyclic m.world.parentOf

theorem start_rooted : Rooted start := by
  refine ⟨start_tree, start_linked, start_frames, ?_⟩
  intro x hx
  obtain ⟨y, hy, -⟩ := TransGen.head'_iff.mp hx
  simp [Next, World.parentOf, start] at hy

theorem step_rooted {m m' : Machine} (h : Rooted m) (htidy : op.Tidy m) (hup : op.Upward m)
    (hstep : m.step op = some m') : Rooted m' :=
  ⟨step_tree h.tree hstep, step_linked h.linked h.tree htidy hstep,
    step_frames h.frames (h.tree.fresh _ (Nat.le_refl _)) hstep, step_acyclic h.acyclic hup hstep⟩

/-- **Parents make no cycle** in any run in which no object gets a parent from below itself. -/
theorem run_ends {ops : List Op} {answers : List Unit}
    (hops : EachStep (Steps Machine.step) (fun m op => op.Tidy m ∧ op.Upward m) start ops)
    (h : Traces (Steps Machine.step) start ops m answers) : Ends m := by
  have hrooted := traces_invariant_of
    (fun _ _ _ _ hrooted hop hstep => step_rooted hrooted hop.1 hop.2 hstep) ops start m answers
    hops start_rooted h
  have hacyclic := hrooted.acyclic
  exact ⟨hacyclic, invalidatedGet_ends hrooted.tree hacyclic,
    providerFind_ends hrooted.tree hacyclic, goesOn_ends hrooted.tree,
    machine_proceeds hrooted.frames hrooted.linked⟩

/-! ### A family that changes places -/

/-- An object and its ancestors, where the fuel is enough for them. -/
def World.ancestors (w : World) : Nat → Id → Option (List Id)
  | 0, _ => none
  | fuel + 1, x =>
    match w.parentOf x with
    | none => some [x]
    | some p => (w.ancestors fuel p).map (x :: ·)

theorem mem_ancestors {fuel : Nat} {l : List Id} (h : w.ancestors fuel p = some l)
    (hpath : ReflTransGen (Next w.parentOf) p x) : x ∈ l := by
  induction fuel generalizing p l with
  | zero => simp [World.ancestors] at h
  | succ fuel ih =>
    rw [World.ancestors] at h
    split at h
    · -- nothing is above a root
      rename_i hnone
      obtain rfl := some.inj h
      rcases ReflTransGen.cases_head hpath with heq | ⟨q, hq, -⟩
      · simp [heq]
      · simp [Next, hnone] at hq
    · rename_i q hq
      obtain ⟨l', hl', rfl⟩ := map_eq_some_iff.mp h
      rcases ReflTransGen.cases_head hpath with heq | ⟨q', hq', hpath⟩
      · simp [heq]
      · obtain rfl := some.inj (hq.symm.trans hq')
        exact List.mem_cons_of_mem _ (ih hl' hpath)

/-- A new parent is found not to be below the object. -/
def Op.isUpward (m : Machine) : Op → Bool
  | .go =>
    match m.stack.head? with
    | some (.parentSet x (some p)) => (m.world.ancestors m.world.fresh p).any (!·.contains x)
    | _ => true
  | _ => true

theorem upward_of_isUpward (h : op.isUpward m = true) : op.Upward m := by
  cases op with
  | call c => trivial
  | ret => trivial
  | go =>
    intro x p rest hstack _ hpath
    rw [Op.isUpward, hstack] at h
    obtain ⟨l, hl, hx⟩ := (Option.any_eq_true _ _).mp h
    have hmem := mem_ancestors hl hpath
    simp [hmem] at hx

/--
The grandchild of a family becomes a child of the head, and then gets its former parent as a child.
-/
def swaps : List Op :=
  family ++ [.call (.parentSet 2 (some 0)), .go, .go, .call (.parentSet 1 (some 2)), .go, .go]

set_option maxRecDepth 4000 in
theorem run_ends_swaps : ∃ m, swaps.foldlM Machine.step start = some m ∧
    (m.world.parentOf 1 = some 2 ∧ m.world.parentOf 2 = some 0) ∧ Ends m := by
  have hrun : (swaps.foldlM Machine.step start).map (fun m =>
      (m.world.parentOf 1, m.world.parentOf 2)) = some (some 2, some 0) := by
    decide
  obtain ⟨m, hm, hparents⟩ := map_eq_some_iff.mp hrun
  have hobeys :
      Obeys (fun m op => op.Tidy m ∧ Op.isUpward m op = true) Machine.step start swaps := by
    decide
  have heach := eachStep_of_obeys swaps start hobeys
  refine ⟨m, hm, Prod.mk.inj hparents, run_ends ?_ (traces_foldlM swaps start m hm)⟩
  intro before op after b rs hops htraces
  obtain ⟨htidy, hup⟩ := heach before op after b rs hops htraces
  exact ⟨htidy, upward_of_isUpward hup⟩

/-! ### An object below its own child -/

/-- The object becomes a child of its child. -/
def parentBelowChild : List Op :=
  [.call (.add none true), .ret, .go] ++ addChild 0 ++ [.call (.parentSet 0 (some 1)), .go, .go]

/-- Each of two objects is the parent of the other, and the question for one never comes to an
end. -/
theorem parents_in_circle : ∃ m answers,
    Traces (Steps Machine.step) start parentBelowChild m answers ∧
      ¬Acyclic m.world.parentOf ∧ ∀ fuel, m.world.invalidatedGet fuel 0 = none := by
  have hrun : (parentBelowChild.foldlM Machine.step start).map (fun m =>
      ((m.world.object 0).map fun o => (o.parent, o.invalidate),
        (m.world.object 1).map fun o => (o.parent, o.invalidate))) =
      some (some (some 1, false), some (some 0, false)) := by
    decide
  obtain ⟨m, hm, hends⟩ := map_eq_some_iff.mp hrun
  obtain ⟨hzero, hone⟩ := Prod.mk.inj hends
  obtain ⟨o0, ho0, hzero⟩ := map_eq_some_iff.mp hzero
  obtain ⟨o1, ho1, hone⟩ := map_eq_some_iff.mp hone
  obtain ⟨hparent0, hvalid0⟩ := Prod.mk.inj hzero
  obtain ⟨hparent1, hvalid1⟩ := Prod.mk.inj hone
  refine ⟨m, _, traces_foldlM parentBelowChild start m hm, ?_, ?_⟩
  · intro h
    have hup : Next m.world.parentOf 0 1 := by rw [Next, parentOf_some ho0, hparent0]
    have hdown : Next m.world.parentOf 1 0 := by rw [Next, parentOf_some ho1, hparent1]
    exact h 0 ((TransGen.single hup).tail hdown)
  · have hboth (fuel : Nat) : m.world.invalidatedGet fuel 0 = none ∧
        m.world.invalidatedGet fuel 1 = none := by
      induction fuel with
      | zero => exact ⟨rfl, rfl⟩
      | succ fuel ih =>
        constructor
        · simp only [World.invalidatedGet, ho0, hparent0, hvalid0]
          exact ih.2
        · simp only [World.invalidatedGet, ho1, hparent1, hvalid1]
          exact ih.1
    exact fun fuel => (hboth fuel).1

end Eo.Life
