/-
The owners of references in every run.

A run of a careful program keeps parents, children and counts in agreement.  A short run shows
what a callback of the invalidation can do to an object that somebody else still holds.
-/
import Efl.Eo.Life.Refs
import Efl.Lib.Runs

namespace Eo.Life

open Runs List Option World

variable {w w' : World} {x y p : Id} {is stack : List Instr} {o : Object} {m : Machine}

/-! ### Every call keeps the owners -/

theorem Waits.push {u : World} {l : List Instr} (h : Waits w stack) (hmarks : Marks w u)
    (hheld : ∀ y, w.held y ≤ u.held y)
    (his : ∀ j ∈ l, (∀ y, j ≠ .unref y) ∧ j.destroys = none) : Waits u (l ++ stack) := by
  constructor
  · intro y
    have hzero : l.count (.unref y) = 0 := by
      rw [count_eq_zero]
      intro hmem
      exact (his _ hmem).1 y rfl
    rw [count_append, hzero, Nat.zero_add]
    exact Nat.le_trans (h.pending y) (hheld y)
  · intro j hj y hy o ho
    obtain ⟨o', ho', hdel⟩ := hmarks y o ho
    rcases mem_append.mp hj with hj | hj
    · rw [(his j hj).2] at hy
      simp at hy
    · exact hdel (h.destroys j hj y hy o' ho')

theorem Waits.later (h : Waits w stack) (hx : stack.count (.unref x) < w.held x) :
    Waits w (.unref x :: stack) := by
  constructor
  · intro y
    rw [count_cons]
    by_cases hxy : x = y
    · rw [← hxy, if_pos (beq_self_eq_true _)]
      exact hx
    · rw [if_neg (by simp [hxy])]
      exact h.pending y
  · intro j hj y hy
    rcases mem_cons.mp hj with rfl | hj
    · simp [Instr.destroys] at hy
    · exact h.destroys j hj y hy

/-- A new object has the reference of its parent, or of the program. -/
theorem add_refs (h : Refs w) (htree : Tree w) (hframes : Frames w stack) (hwaits : Waits w stack)
    (parent : Option Id) (isRef : Bool) : Refs (w.add parent isRef).1 ∧
      Waits (w.add parent isRef).1 ((w.add parent isRef).2 ++ stack) := by
  have hlinked := h.linked.add parent isRef
  unfold World.add at hlinked ⊢
  split
  · exact ⟨h, hwaits⟩
  rename_i hparent
  rw [if_neg hparent] at hlinked
  have hfresh := htree.fresh w.fresh (Nat.le_refl _)
  have hheld : w.held w.fresh = 0 := by
    by_contra hpos
    obtain ⟨o, ho, -⟩ := h.kept w.fresh (Nat.pos_of_ne_zero hpos)
    rw [hfresh] at ho
    simp at ho
  constructor
  · constructor
    · intro y o ho
      dsimp only at ho ⊢
      split at ho
      · rename_i hy
        obtain rfl := some.inj ho
        rw [if_pos hy]
        rfl
      · rename_i hy
        rw [if_neg hy]
        exact h.owned y o ho
    · intro y hy
      dsimp only at hy ⊢
      by_cases hyx : y = w.fresh
      · rw [if_pos hyx]
        exact ⟨newObject, rfl, rfl⟩
      · rw [if_neg hyx] at hy ⊢
        exact h.kept y hy
    · intro y o ho hdel
      dsimp only at ho
      split at ho
      · obtain rfl := some.inj ho
        rfl
      · exact h.detached y o ho hdel
    · exact hlinked
  · constructor
    · intro y
      have hpending := hwaits.pending y
      rw [count_append, count_append, count_append]
      have hfirst : (if parent = none then [] else [Instr.callParentSet w.fresh parent]).count
          (.unref y) = 0 := by
        split
        · rfl
        · simp
      have hsecond : [Instr.user, .unrefInternal w.fresh].count (.unref y) = 0 := by simp
      rw [hfirst, hsecond]
      dsimp only
      by_cases hy : y = w.fresh
      · rw [if_pos hy]
        rw [hy] at hpending
        have hone : (if isRef then [] else [Instr.unref w.fresh]).count (.unref y) ≤ 1 := by
          split
          · exact Nat.zero_le _
          · exact count_le_length
        rw [hy] at hone ⊢
        omega
      · rw [if_neg hy]
        have hzero : (if isRef then [] else [Instr.unref w.fresh]).count (.unref y) = 0 := by
          split
          · rfl
          · simp [Ne.symm hy]
        omega
    · intro j hj y hy o ho
      rw [mem_append] at hj
      rcases hj with hj | hj
      · have hnone : j.destroys = none := by
          simp only [mem_append, mem_cons, not_mem_nil, or_false] at hj
          rcases hj with (hj | rfl | rfl) | hj
          · split at hj
            · simp at hj
            · rw [mem_singleton.mp hj]
              rfl
          · rfl
          · rfl
          · split at hj
            · simp at hj
            · rw [mem_singleton.mp hj]
              rfl
        rw [hnone] at hy
        simp at hy
      · dsimp only at ho
        split at ho
        · -- nothing on the stack knows the new object
          rename_i hyx
          have hholds : 0 < holds stack y := by
            have hback : j.givesBack y = 1 := by
              cases j <;> simp [Instr.destroys] at hy <;> simp [Instr.givesBack, hy]
            have hle : j.givesBack y ≤ holds stack y := givesBack_le_holds hj
            omega
          exact absurd (by rw [hyx]; exact hfresh) (hframes.live y hholds)
        · exact hwaits.destroys j hj y hy o ho

/-- A call keeps the references right. -/
theorem call_refs {c : Call} {r : World × List Instr} (h : Refs w) (htree : Tree w)
    (hframes : Frames w stack) (hwaits : Waits w stack) (howned : c.Owned w stack)
    (hcall : call w c = some r) : Refs r.1 ∧ Waits r.1 (r.2 ++ stack) := by
  have hdel (x : Id) (hfirst : ∀ o ∈ w.object x, o.parent ≠ none) :
      Refs (w.del x).1 ∧ Waits (w.del x).1 ((w.del x).2 ++ stack) := by
    obtain ⟨hstill, hsame⟩ := del_still w x
    refine ⟨h.alike hstill.owners hsame, hwaits.push hstill.marks (by simp [hsame]) ?_⟩
    intro j hj
    cases hx : w.object x with
    | none =>
      rw [World.del, hx] at hj
      simp at hj
    | some o =>
      rcases mem_del hx hj with ⟨-, hnone⟩ | rfl | rfl
      · exact absurd hnone (hfirst o hx)
      · exact ⟨by simp, rfl⟩
      · exact ⟨by simp, rfl⟩
  cases c with
  | add parent isRef =>
    cases hcall
    exact add_refs h htree hframes hwaits parent isRef
  | parentSet x parent =>
    have hstack : Waits w (.callParentSet x parent :: stack) :=
      hwaits.push (l := [_]) (Marks.refl w) (fun _ => Nat.le_refl _) (by simp [Instr.destroys])
    have hexec : exec w (.callParentSet x parent) = some r := hcall
    exact ⟨exec_refs h htree hstack trivial trivial hexec, exec_waits htree hstack hexec⟩
  | del x =>
    cases hcall
    by_cases hparent : ∀ o ∈ w.object x, o.parent ≠ none
    · exact hdel x hparent
    push Not at hparent
    obtain ⟨o, ho, hparent⟩ := hparent
    have hpending := (howned o ho).resolve_left fun hne => hne hparent
    have hx : w.object x = some o := ho
    obtain ⟨hstill, hsame⟩ := del_still w x
    have hlist : (w.del x).2 = [.unref x, .unrefInternal x] := by
      rw [World.del, hx]
      dsimp only
      rw [if_pos hparent]
    refine ⟨h.alike hstill.owners hsame, ?_⟩
    rw [hlist]
    have hlast : Waits (w.del x).1 (.unrefInternal x :: stack) :=
      hwaits.push (l := [_]) hstill.marks (by simp [hsame]) (by simp [Instr.destroys])
    refine hlast.later ?_
    rw [hsame]
    exact hpending
  | ref x =>
    simp only [call] at hcall
    split at hcall
    · cases hcall
      exact ⟨h, hwaits⟩
    rename_i hx
    obtain ⟨o, ho⟩ := ne_none_iff_exists'.mp hx
    cases hcall
    have hx : ((w.ref x).hold x).held x = w.held x + 1 := if_pos rfl
    have hother (y : Id) (hy : y ≠ x) : ((w.ref x).hold x).held y = w.held y := if_neg hy
    have hmarks : Marks w (w.ref x) := marks_modify x fun _ hdel => hdel
    constructor
    · refine h.users (d := 1) ho ⟨?_, rfl⟩ (by rw [hx]; rfl) hother fun _ => howned o ho
      intro y
      rw [hold_object, World.ref, modify_object, modify_object]
      split
      · rw [Option.map_map, Option.map_map]
        rfl
      · rfl
    · refine hwaits.push hmarks ?_ (by simp)
      intro y
      by_cases hy : y = x
      · rw [hy, hx]
        exact Nat.le_add_right _ _
      · exact Nat.le_of_eq (by rw [hother y hy])
  | unref x =>
    by_cases hlast : ∃ o ∈ w.object x, o.userRefcount = 1 ∧ o.hasParent = true
    · -- the reference of the parent: the fallback
      obtain ⟨o, ho, hlast⟩ := hlast
      have hx : w.object x = some o := ho
      have hfallback : w.unref x true = w.del x := by
        rw [World.unref, hx]
        exact if_pos hlast
      have hexec : some (w.unref x true) = some r := hcall
      rw [hfallback] at hexec
      cases hexec
      refine hdel x ?_
      intro o' ho'
      rw [← some.inj (hx.symm.trans ho')]
      exact (hasParent_iff htree hx).mp hlast.2
    · have hexec : exec w (.unref x) = some r := hcall
      cases hx : w.object x with
      | none =>
        rw [exec, World.unref, hx] at hexec
        cases hexec
        exact ⟨h, hwaits⟩
      | some o =>
        have hpending := (howned o hx).resolve_left fun hone => hlast ⟨o, hx, hone⟩
        have hstack := hwaits.later hpending
        exact ⟨exec_refs h htree hstack trivial trivial hexec, exec_waits htree hstack hexec⟩
  | invalidate x =>
    simp only [call] at hcall
    split at hcall
    · cases hcall
      exact ⟨h, hwaits⟩
    cases hcall
    have halike : Alike Object.still w (w.addRef x) := alike_modify x fun _ => rfl
    refine ⟨h.alike halike.owners rfl, hwaits.push halike.marks (fun _ => Nat.le_refl _) ?_⟩
    simp [Instr.destroys]

/-! ### Every run -/

/-- What has to hold of a call, or of the next instruction. -/
def Op.Careful (m : Machine) : Op → Prop
  | .call c => c.Owned m.world m.stack
  | .ret => True
  | .go => ∀ i ∈ m.stack.head?, i.Careful m.world

instance decidableOpCareful (m : Machine) (op : Op) : Decidable (op.Careful m) := by
  unfold Op.Careful
  split <;> infer_instance

/-- All that is known of a state of the run of a careful program. -/
structure Orderly (m : Machine) : Prop where
  tree : Tree m.world
  frames : Frames m.world m.stack
  refs : Refs m.world
  waits : Waits m.world m.stack

theorem start_orderly : Orderly start := by
  refine ⟨start_tree, start_frames, ⟨?_, ?_, ?_, start_linked⟩, ?_⟩
  · intro x o ho
    simp [start] at ho
  · intro x hx
    simp [start] at hx
  · intro x o ho
    simp [start] at ho
  · constructor
    · intro x
      exact Nat.zero_le _
    · intro j hj
      simp [start] at hj

theorem step_orderly {m m' : Machine} {op : Op} (h : Orderly m) (htidy : op.Tidy m)
    (hcareful : op.Careful m) (hstep : m.step op = some m') : Orderly m' := by
  have htree := step_tree h.tree hstep
  have hframes := step_frames h.frames (h.tree.fresh _ (Nat.le_refl _)) hstep
  rcases step_cases hstep with ⟨c, r, rfl, -, hcall, rfl⟩ | ⟨rest, -, hstack, rfl⟩ |
    ⟨i, rest, r, rfl, hstack, hexec, rfl⟩
  · obtain ⟨hrefs, hwaits⟩ := call_refs h.refs h.tree h.frames h.waits hcareful hcall
    exact ⟨htree, hframes, hrefs, hwaits⟩
  · refine ⟨htree, hframes, h.refs, ?_⟩
    have hwaits := h.waits
    rw [hstack] at hwaits
    constructor
    · intro x
      have hpending := hwaits.pending x
      exact hpending
    · intro j hj
      exact hwaits.destroys j (mem_cons_of_mem _ hj)
  · have hwaits := h.waits
    rw [hstack] at hwaits
    have hi : i.Careful m.world := hcareful i (by rw [hstack]; rfl)
    have hti : i.Tidy m.world := htidy.2 rfl i (by rw [hstack]; rfl)
    exact ⟨htree, hframes, exec_refs h.refs h.tree hwaits hi hti hexec,
      exec_waits h.tree hwaits hexec⟩

/-- Parents, children and owners agree, and what somebody holds is not destroyed. -/
structure Consistent (w : World) : Prop where
  once : ∀ p op x o, w.object p = some op → w.object x = some o → o.parent = some p →
    op.children.count x = 1
  elsewhere : ∀ p op x, w.object p = some op → (∀ o, w.object x = some o → o.parent ≠ some p) →
    x ∉ op.children
  parent : ∀ x o p, w.object x = some o → o.parent = some p → w.object p ≠ none
  owned : ∀ x o, w.object x = some o →
    o.userRefcount = w.held x + if o.parent = none then 0 else 1
  kept : ∀ x, 0 < w.held x → ∃ o, w.object x = some o ∧ o.delTriggered = false

theorem Orderly.consistent (h : Orderly m) : Consistent m.world := by
  refine ⟨?_, ?_, ?_, h.refs.owned, h.refs.kept⟩
  · intro p op x o hop ho hparent
    have hcount := h.tree.listed x p (by simp [ho]) (by simp [hop])
    rwa [childrenOf_some hop, parentOf_some ho, if_pos hparent] at hcount
  · intro p op x hop hother hmem
    rw [← childrenOf_some hop] at hmem
    obtain ⟨o, ho⟩ := ne_none_iff_exists'.mp (h.refs.linked.members p x hmem)
    have hcount := h.tree.listed x p (by simp [ho]) (by simp [hop])
    rw [parentOf_some ho, if_neg (hother o ho)] at hcount
    exact count_eq_zero.mp hcount hmem
  · intro x o p ho hparent
    exact h.refs.linked.parents x p (by rw [parentOf_some ho, hparent])

/-- **Owners agree in every state** that a run of a careful program reaches, and the run goes on. -/
theorem run_consistent {ops : List Op} {answers : List Unit}
    (hops : EachStep (Steps Machine.step) (fun m op => op.Tidy m ∧ op.Careful m) start ops)
    (h : Traces (Steps Machine.step) start ops m answers) : Consistent m.world ∧ m.Proceeds := by
  have horderly := traces_invariant_of
    (fun _ _ _ _ horderly hop hstep => step_orderly horderly hop.1 hop.2 hstep) ops start m answers
    hops start_orderly h
  exact ⟨horderly.consistent, machine_proceeds horderly.frames horderly.refs.linked⟩

/-! ### A parent that gives a reference back twice -/

/--
The family loses its head: the callback of the child takes one more reference of the grandchild,
and the program gives the child up in the end.
-/
def givesUp : List Op :=
  family ++ .call (.del 0) :: gos 4 ++ .ret :: gos 4 ++ [.call (.ref 2), .ret] ++ gos 4 ++
    .ret :: gos 15 ++ [.ret, .go, .go, .ret, .go] ++ .call (.unref 1) :: gos 3 ++
    [.ret, .go, .go, .ret, .go]

set_option maxRecDepth 4000 in
/-- Two of the three objects are freed, and the last one has the three references of the program. -/
theorem run_consistent_givesUp : ∃ m, givesUp.foldlM Machine.step start = some m ∧
    m.world.held 2 = 3 ∧ (Consistent m.world ∧ m.Proceeds) := by
  have hrun : (givesUp.foldlM Machine.step start).map (fun m => m.world.held 2) = some 3 := by
    decide
  obtain ⟨m, hm, hheld⟩ := map_eq_some_iff.mp hrun
  refine ⟨m, hm, hheld, run_consistent ?_ (traces_foldlM givesUp start m hm)⟩
  exact eachStep_of_obeys givesUp start (by decide)

/--
An object and its child, of which the program holds a reference; the callback of the invalidation
takes the child from its parent as well.
-/
def detachesTwice : List Op :=
  [.call (.add none true), .ret, .go] ++ addChild 0 ++ [.call (.del 1), .go, .go,
    .call (.parentSet 1 none), .go, .go, .go, .ret] ++
    gos 8 ++ [.ret, .go, .go, .ret, .go]

/-- The program calls `efl_ref`, `efl_unref` and `efl_del` as its own references allow. -/
def Op.Owned (m : Machine) : Op → Prop
  | .call c => c.Owned m.world m.stack
  | _ => True

instance decidableOpOwned (m : Machine) (op : Op) : Decidable (op.Owned m) := by
  unfold Op.Owned
  split <;> infer_instance

/-- The program holds a reference of the child, and the child is freed. -/
theorem held_object_freed : Obeys (fun m op => op.Owned m) Machine.step start detachesTwice ∧
    ∃ m answers, Traces (Steps Machine.step) start detachesTwice m answers ∧
      m.world.held 1 = 1 ∧ m.world.object 1 = none ∧ ¬Consistent m.world := by
  refine ⟨by decide, ?_⟩
  have hrun : (detachesTwice.foldlM Machine.step start).map
      (fun m => (m.world.held 1, (m.world.object 1).isNone)) = some (1, true) := by
    decide
  obtain ⟨m, hm, hends⟩ := map_eq_some_iff.mp hrun
  obtain ⟨hheld, hfreed⟩ := Prod.mk.inj hends
  rw [isNone_iff_eq_none] at hfreed
  refine ⟨m, _, traces_foldlM detachesTwice start m hm, hheld, hfreed, ?_⟩
  intro h
  obtain ⟨o, ho, -⟩ := h.kept 1 (by omega)
  rw [hfreed] at ho
  simp at ho

end Eo.Life
