/-
What the library does on its own comes to an end.

As long as the program makes no calls, each instruction uses up something: an assignment of a
parent that is still to be made, an object that was not invalidated, not destroyed or had a parent,
or a part of the work that is on the stack.  No cycle of parents is needed against that, since an
object is invalidated once.
-/
import Efl.Eo.Life.Links
import Mathlib.Algebra.Order.BigOperators.Group.List
import Mathlib.Algebra.Order.Ring.Nat
import Mathlib.Data.Prod.Lex

namespace Eo.Life

open List Option World

variable {w w' : World} {x y p c : Id} {i : Instr} {is rest stack : List Instr} {o o' : Object}

/-! ### What an object still has before it -/

def Object.rank (o : Object) : Nat :=
  (if o.isInvalidating then 0 else 1) + (if o.delTriggered then 0 else 1) +
    if o.parent = none then 0 else 1

namespace World

def rankOf (w : World) (x : Id) : Nat := ((w.object x).map Object.rank).getD 0

def rank (w : World) : Nat := ((List.range w.fresh).map w.rankOf).sum

theorem rankOf_some (ho : w.object x = some o) : w.rankOf x = o.rank := by
  rw [rankOf, ho, map_some, getD_some]

theorem rank_le (hfresh : w'.fresh = w.fresh) (h : ∀ x, w'.rankOf x ≤ w.rankOf x) :
    w'.rank ≤ w.rank := by
  rw [rank, hfresh]
  exact sum_le_sum fun x _ => h x

theorem rank_lt (hfresh : w'.fresh = w.fresh) (h : ∀ x, w'.rankOf x ≤ w.rankOf x)
    (hx : x < w.fresh) (hlt : w'.rankOf x < w.rankOf x) : w'.rank < w.rank := by
  rw [rank, hfresh]
  exact sum_lt_sum _ _ (fun y _ => h y) ⟨x, mem_range.mpr hx, hlt⟩

end World

theorem rankOf_modify {f : Object → Object} (x y : Id) :
    (w.modify x f).rankOf y = if y = x then ((w.object x).map fun o => (f o).rank).getD 0
      else w.rankOf y := by
  unfold World.rankOf
  rw [modify_object]
  split
  · rename_i hy
    rw [hy, Option.map_map]
    rfl
  · rfl

theorem rankOf_relink (x y : Id) : (w.relink x none).rankOf y ≤ w.rankOf y := by
  unfold World.rankOf World.relink
  dsimp only
  cases w.object y with
  | none => exact le_rfl
  | some o =>
    unfold Object.rank
    by_cases hy : y = x
    · simp only [if_pos hy]
      simp
    · simp only [if_neg hy]
      exact le_rfl

theorem Alike.rankOf (h : Alike Object.quiet w w') (x : Id) : w'.rankOf x = w.rankOf x := by
  have hx := congrArg (fun o => (o.map Object.rank).getD 0) (h.object x)
  rw [Option.map_map, Option.map_map] at hx
  exact hx

/-! ### What is left of the work -/

namespace World

/-- The siblings from a child on. -/
def behind (w : World) (c : Id) : Nat :=
  match w.parentOf c with
  | none => 0
  | some p => ((w.childrenOf p).dropWhile fun d => decide (d ≠ c)).length

end World

/-- A bound of the instructions that an instruction comes to, if no object has less before it. -/
@[grind =]
def Instr.weight (w : World) : Instr → Nat
  | .user | .unrefInternal _ | .parentSet _ _ | .free _ => 1
  | .callParentSet _ _ | .unparent _ => 3
  | .unref _ => 5
  | .invalidateChildren x => 2 + 6 * (w.childrenOf x).length
  | .invalidateLoop _ stash => 1 + 6 * stash.length
  | .invalidateNext _ _ stash => 3 + 6 * stash.length
  | .invalidateMethod _ => 4
  | .destructorParent _ => 6
  | .destructorLoop _ none => 7
  | .destructorLoop _ (some c) => 11 + 4 * w.behind c
  | .destructor x => 12 + 4 * (w.childrenOf x).length
  | .delEvent x => 14 + 4 * (w.childrenOf x).length
  | .delParent x => 16 + 4 * (w.childrenOf x).length

def work (w : World) (stack : List Instr) : Nat := (stack.map (Instr.weight w)).sum

@[simp] theorem work_nil : work w [] = 0 := rfl

@[simp] theorem work_cons : work w (i :: stack) = i.weight w + work w stack := by
  simp [work]

@[simp] theorem work_append : work w (is ++ stack) = work w is + work w stack := by
  simp [work]

/-- Nothing has more children than before. -/
structure Fewer (w w' : World) : Prop where
  children : ∀ x, (w'.childrenOf x).length ≤ (w.childrenOf x).length
  behind : ∀ c, w'.behind c ≤ w.behind c

theorem Fewer.weight (h : Fewer w w') (i : Instr) : i.weight w' ≤ i.weight w := by
  cases i with
  | invalidateChildren x | destructor x | delEvent x | delParent x =>
    have hx := h.children x
    simp only [Instr.weight]
    omega
  | destructorLoop x next =>
    cases next with
    | none => exact le_rfl
    | some c =>
      have hc := h.behind c
      simp only [Instr.weight]
      omega
  | _ => exact le_rfl

theorem Fewer.work (h : Fewer w w') (stack : List Instr) : work w' stack ≤ work w stack :=
  sum_le_sum fun i _ => h.weight i

theorem Alike.fewer (h : Alike Object.links w w') : Fewer w w' := by
  constructor
  · intro x
    rw [h.childrenOf]
  · intro c
    unfold World.behind
    rw [h.parentOf]
    split
    · exact le_rfl
    · rw [h.childrenOf]

theorem fewer_free (x : Id) :
    Fewer w (w.free x) := by
  constructor
  · intro y
    rw [childrenOf_free]
    split
    · exact Nat.zero_le _
    · exact le_rfl
  · intro c
    unfold World.behind
    rw [parentOf_free]
    by_cases hc : c = x
    · rw [if_pos hc]
      exact Nat.zero_le _
    rw [if_neg hc]
    split
    · exact le_rfl
    rw [childrenOf_free]
    split
    · exact Nat.zero_le _
    · exact le_rfl

/-! ### One instruction -/

/-- An assignment of a parent that is still to be made. -/
@[grind =]
def Instr.gives : Instr → Nat
  | .callParentSet _ (some _) | .parentSet _ (some _) => 1
  | _ => 0

def gifts (stack : List Instr) : Nat := (stack.map Instr.gives).sum

@[simp] theorem gifts_nil : gifts [] = 0 := rfl

@[simp] theorem gifts_cons : gifts (i :: stack) = i.gives + gifts stack := by
  simp [gifts]

@[simp] theorem gifts_append : gifts (is ++ stack) = gifts is + gifts stack := by
  simp [gifts]

theorem gifts_zero (h : ∀ j ∈ is, j.gives = 0) : gifts is = 0 := by
  induction is with
  | nil => rfl
  | cons j is ih =>
    rw [gifts_cons, h j mem_cons_self, ih fun k hk => h k (mem_cons_of_mem j hk)]

/-- What an instruction uses up. -/
def UsesUp (w : World) (i : Instr) (r : World × List Instr) : Prop :=
  gifts r.2 < i.gives ∨ (gifts r.2 ≤ i.gives ∧ r.1.rank < w.rank) ∨
    (gifts r.2 ≤ i.gives ∧ r.1.rank ≤ w.rank ∧ Fewer w r.1 ∧ work r.1 r.2 < i.weight w)

theorem Alike.rank (h : Alike Object.quiet w w') : w'.rank ≤ w.rank :=
  rank_le h.fresh fun x => le_of_eq (h.rankOf x)

variable {r : World × List Instr}

theorem usesUp_quiet (h : Alike Object.quiet w r.1) (hgifts : gifts r.2 ≤ i.gives)
    (hwork : work r.1 r.2 < i.weight w) : UsesUp w i r :=
  .inr (.inr ⟨hgifts, h.rank, h.still.links.fewer, hwork⟩)

variable {owned : Bool}

theorem Unref.rankOf (h : Unref w x owned r) (y : Id) :
    r.1.rankOf y = w.rankOf y := by
  cases h with
  | gone hnone => rfl
  | fallback o ho hone hparent => exact (del_quiet w x).rankOf y
  | drop o r ho hlast halike hheld his hlength =>
    rw [halike.rankOf, rankOf_modify]
    split
    · rename_i hy
      rw [hy]
      rfl
    · rfl

theorem Unref.fresh (h : Unref w x owned r) :
    r.1.fresh = w.fresh := h.links.fresh

theorem Unref.work (htree : Tree w) (h : Unref w x owned r) (w' : World) :
    gifts r.2 = 0 ∧ work w' r.2 ≤ 4 ∧ (w.hasParentOf x = false → work w' r.2 ≤ 2) := by
  cases h with
  | gone hnone => simp
  | fallback o ho hone hparent =>
    have hsome := (hasParent_iff htree ho).mp hparent
    have hlist : (w.del x).2 = [.callParentSet x none, .unrefInternal x] := by
      rw [World.del, ho]
      dsimp only
      rw [if_neg hsome]
    rw [hlist]
    refine ⟨rfl, le_rfl, ?_⟩
    intro hno
    rw [hasParentOf_some ho, hparent] at hno
    simp at hno
  | drop o r ho hlast halike hheld his hlength =>
    have hwork : Eo.Life.work w' r.2 ≤ r.2.length := by
      generalize r.2 = is at his
      induction is with
      | nil => exact le_rfl
      | cons j is ih =>
        rw [work_cons, his j mem_cons_self, length_cons]
        have hrest := ih fun k hk => his k (mem_cons_of_mem j hk)
        simp only [Instr.weight]
        omega
    refine ⟨gifts_zero fun j hj => ?_, by omega, fun _ => by omega⟩
    rw [his j hj]
    rfl

theorem relink_links (htree : Tree w) (ho : w.object x = some o) (hparent : o.parent = none) :
    Alike Object.links w (w.relink x none) := by
  have hnone : w.parentOf x = none := by rw [parentOf_some ho, hparent]
  have hhas : o.hasParent = false := by
    have hx := htree.hasParent x
    rw [hasParentOf_some ho, hnone] at hx
    exact hx
  refine ⟨?_, rfl⟩
  intro y
  unfold World.relink
  dsimp only
  rw [hnone]
  by_cases hy : y = x
  · rw [hy, ho]
    simp [Object.links, hparent, hhas]
  cases w.object y with
  | none => rfl
  | some oy => simp [hy]

theorem Unparent.usesUp (htree : Tree w) (ho : w.object x = some o) (h : Unparent w x r)
    (hpos : 0 < i.weight w) (hweight : o.parent = none → i.weight w = 3) : UsesUp w i r := by
  have hlive : w.object x ≠ none := by simp [ho]
  have hle (w' : World) (hsame : ∀ y, w'.rankOf y = (w.relink x none).rankOf y) (y : Id) :
      w'.rankOf y ≤ w.rankOf y := by
    rw [hsame]
    exact rankOf_relink x y
  have hlt (w' : World) (hfresh : w'.fresh = w.fresh)
      (hsame : ∀ y, w'.rankOf y = (w.relink x none).rankOf y) (hparent : o.parent ≠ none) :
      w'.rank < w.rank := by
    refine rank_lt hfresh (hle w' hsame) (htree.lt hlive) ?_
    rw [hsame, rankOf_some ho, World.rankOf, World.relink]
    dsimp only
    rw [ho, map_some, map_some, getD_some]
    unfold Object.rank
    simp only [if_true, if_neg hparent]
    omega
  cases h with
  | lost p hp hdead => exact usesUp_quiet (Alike.refl w) (Nat.zero_le _) hpos
  | dying o' ho' hdying =>
    by_cases hparent : o.parent = none
    · exact .inr (.inr ⟨Nat.zero_le _, rank_le rfl (hle _ fun _ => rfl),
        (relink_links htree ho hparent).fewer, hpos⟩)
    · exact .inr (.inl ⟨Nat.zero_le _, hlt _ rfl (fun _ => rfl) hparent⟩)
  | drop o' r ho' hdying hunref =>
    have htree' : Tree (w.relink x none) := htree.relink hlive (by simp)
    have hhas : (w.relink x none).hasParentOf x = false := by
      rw [hasParentOf_relink none hlive, if_pos rfl]
      rfl
    obtain ⟨hgifts, -, hwork⟩ := hunref.work htree' r.1
    have hgifts' : gifts r.2 ≤ i.gives := by
      rw [hgifts]
      exact Nat.zero_le _
    by_cases hparent : o.parent = none
    · refine .inr (.inr ⟨hgifts', rank_le hunref.fresh (hle _ hunref.rankOf), ?_, ?_⟩)
      · have hlinks := (relink_links htree ho hparent).trans hunref.links
        exact hlinks.fewer
      · have htwo := hwork hhas
        rw [hweight hparent]
        omega
    · exact .inr (.inl ⟨hgifts', hlt _ hunref.fresh hunref.rankOf hparent⟩)

theorem startInvalidate_rankOf (w : World) (x y : Id) :
    (w.startInvalidate x).1.rankOf y ≤ w.rankOf y := by
  have hmodify : (w.modify x fun o => { o with isInvalidating := true }).rankOf y ≤ w.rankOf y := by
    rw [rankOf_modify]
    split
    · rename_i hy
      rw [hy, World.rankOf]
      cases w.object x with
      | none => exact le_rfl
      | some o =>
        unfold Object.rank
        simp
    · exact le_rfl
  unfold World.startInvalidate
  split
  · exact le_rfl
  split
  · exact le_rfl
  split
  · exact hmodify
  · exact hmodify

/-- Dropping a reference uses up work. -/
theorem unrefInternal_usesUp (htree : Tree w) (hexec : w.unrefInternal x = some r) :
    UsesUp w (.unrefInternal x) r := by
  unfold World.unrefInternal at hexec
  split at hexec
  · simp at hexec
  rename_i o ho
  dsimp only at hexec
  split at hexec
  · cases hexec
    exact usesUp_quiet (alike_modify x fun _ => rfl) (Nat.zero_le _) Nat.zero_lt_one
  rename_i hgone
  have halive : o.delTriggered = false := by
    by_contra hdying
    exact hgone (Or.inr (Or.inr (Or.inr (by simpa using hdying))))
  -- the object counts one less, since its destruction starts
  have hle (y : Id) : ((w.modify x fun o => { o with refcount := o.refcount - 1 }).modify x fun o =>
      { o with delTriggered := true, refcount := o.refcount + 1 }).rankOf y ≤
        w.rankOf y - if y = x then 1 else 0 := by
    rw [rankOf_modify]
    by_cases hy : y = x
    · rw [if_pos hy, hy, modify_object, if_pos rfl, ho, rankOf_some ho]
      unfold Object.rank
      simp only [halive]
      simp
    · rw [if_neg hy, if_neg hy, rankOf_modify, if_neg hy]
      exact le_rfl
  have hpos : 0 < w.rankOf x := by
    rw [rankOf_some ho]
    unfold Object.rank
    simp only [halive]
    simp
  have hfresh : ((w.modify x fun o => { o with refcount := o.refcount - 1 }).modify x fun o =>
      { o with delTriggered := true, refcount := o.refcount + 1 }).fresh = w.fresh := rfl
  generalize (w.modify x fun o => { o with refcount := o.refcount - 1 }).modify x
    (fun o => { o with delTriggered := true, refcount := o.refcount + 1 }) = w1 at hexec hle hfresh
  have hlt (w' : World) (hsame : w'.fresh = w1.fresh) (h : ∀ y, w'.rankOf y ≤ w1.rankOf y) :
      w'.rank < w.rank := by
    refine rank_lt (hsame.trans hfresh) (fun y => ?_) (htree.lt (by simp [ho])) (x := x) ?_
    · exact le_trans (h y) (le_trans (hle y) (Nat.sub_le _ _))
    · have hx := le_trans (h x) (hle x)
      rw [if_pos rfl] at hx
      omega
  split at hexec
  · cases hexec
    exact .inr (.inl ⟨Nat.zero_le _, hlt _ rfl fun _ => le_rfl⟩)
  split at hexec
  · have hstart := startInvalidate_rankOf w1 x
    obtain ⟨-, his⟩ := startInvalidate_spec w1 x
    have hsame := (startInvalidate_still w1 x).1.fresh
    generalize w1.startInvalidate x = s at hexec hstart his hsame
    obtain ⟨w2, is⟩ := s
    cases hexec
    refine .inr (.inl ⟨?_, hlt w2 hsame hstart⟩)
    rcases his with rfl | rfl
    · exact Nat.zero_le _
    · exact Nat.zero_le _
  · cases hexec
    exact .inr (.inl ⟨Nat.zero_le _, hlt _ rfl fun _ => le_rfl⟩)

theorem dropWhile_of_count {xs ys : List Id} (h : (xs ++ c :: ys).count c = 1) :
    (xs ++ c :: ys).dropWhile (fun d => decide (d ≠ c)) = c :: ys := by
  rw [count_append, count_cons_self] at h
  have hnot : c ∉ xs := count_eq_zero.mp (by omega)
  rw [dropWhile_append_of_pos]
  · simp
  · intro d hd
    simpa using ne_of_mem_of_not_mem hd hnot

/-- A step along the list of children leaves fewer behind. -/
theorem behind_next (htree : Tree w) {d : Id} (hnext : w.next c = some d) :
    2 ≤ w.behind c ∧ (if w.object d = none then w.behind d =
      0 else w.behind d + 1 ≤ w.behind c) := by
  unfold World.next at hnext
  split at hnext
  · simp at hnext
  rename_i p hparent
  split at hnext
  · simp at hnext
  rename_i po hpo
  have hparent : w.parentOf c = some p := hparent
  have hbehind : w.behind c = (po.children.dropWhile fun e => decide (e ≠ c)).length := by
    unfold World.behind
    rw [hparent]
    dsimp only
    rw [childrenOf_some hpo]
  obtain ⟨e, rest, hparts⟩ : ∃ e rest, (po.children.dropWhile fun e => decide (e ≠ c)) =
      e :: d :: rest := by
    cases hdrop : po.children.dropWhile fun e => decide (e ≠ c) with
    | nil =>
      rw [hdrop] at hnext
      simp at hnext
    | cons e tail =>
      rw [hdrop] at hnext
      cases tail with
      | nil => simp at hnext
      | cons d' rest =>
        obtain rfl := some.inj hnext
        exact ⟨e, rest, rfl⟩
  rw [hparts, length_cons, length_cons] at hbehind
  refine ⟨by omega, ?_⟩
  split
  · rename_i hdead
    unfold World.behind World.parentOf
    rw [hdead]
    rfl
  rename_i hlive
  have hchildren : po.children =
      (po.children.takeWhile (fun e => decide (e ≠ c)) ++ [e]) ++ d :: rest := by
    have happend := takeWhile_append_dropWhile (p := fun e => decide (e ≠ c)) (l := po.children)
    rw [hparts] at happend
    rw [append_assoc]
    exact happend.symm
  have hmem : d ∈ po.children := by
    rw [hchildren]
    simp
  have hlisted := htree.listed d p hlive (by simp [hpo])
  rw [childrenOf_some hpo] at hlisted
  have hpos := count_pos_iff.mpr hmem
  have hdparent : w.parentOf d = some p := by
    by_contra hother
    rw [if_neg hother] at hlisted
    omega
  rw [if_pos hdparent] at hlisted
  have hdbehind : w.behind d = rest.length + 1 := by
    unfold World.behind
    rw [hdparent]
    dsimp only
    rw [childrenOf_some hpo]
    rw [hchildren] at hlisted ⊢
    rw [dropWhile_of_count hlisted, length_cons]
  omega

theorem behind_le (htree : Tree w) (hx : w.object x ≠ none) (hc : c ∈ w.childrenOf x) :
    w.behind c ≤ (w.childrenOf x).length := by
  unfold World.behind
  split
  · exact Nat.zero_le _
  rename_i p hparent
  by_cases hlive : w.object c = none
  · rw [World.parentOf, hlive] at hparent
    simp at hparent
  have hlisted := htree.listed c x hlive hx
  have hpos := count_pos_iff.mpr hc
  have hx : w.parentOf c = some x := by
    by_contra hother
    rw [if_neg hother] at hlisted
    omega
  obtain rfl := some.inj (hparent.symm.trans hx)
  exact (dropWhile_sublist _).length_le

/-- **Every instruction uses up something.** -/
theorem exec_usesUp (htree : Tree w) (hexec : exec w i = some r) :
    UsesUp w i r := by
  have hquiet (hi : i.Still) (hgifts : gifts r.2 ≤ i.gives) (hwork : work w r.2 < i.weight w) :
      UsesUp w i r := by
    have halike := (exec_quiet hi hexec).1
    exact usesUp_quiet halike hgifts (Nat.lt_of_le_of_lt (halike.still.links.fewer.work r.2) hwork)
  cases exec_cases hexec with
  | callGone x parent hx =>
    exact usesUp_quiet (Alike.refl w) (Nat.zero_le _) (by simp [Instr.weight])
  | call x parent o ho =>
    refine usesUp_quiet (alike_modify x fun _ => rfl) ?_ (by simp [Instr.weight])
    cases parent <;> simp [Instr.gives]
  | parentSet x parent r hset =>
    obtain ⟨o, ho, hset⟩ := parentSet_cases hset
    cases hset with
    | stay parent hstay =>
      exact usesUp_quiet (Alike.refl w) (Nat.zero_le _) (by simp [Instr.weight])
    | attach p po hpo hother hvalid hne hself => exact .inl (by simp [Instr.gives])
    | detach r hparent hvalid hrunning hunparent =>
      exact hunparent.usesUp htree ho (by simp [Instr.weight]) fun hnone => absurd hnone hparent
    | start hparent hvalid hrunning =>
      refine .inr (.inl ⟨Nat.zero_le _, ?_⟩)
      refine rank_lt rfl (fun y => ?_) (htree.lt (x := x) (by simp [ho])) ?_
      · rw [rankOf_modify]
        split
        · rename_i hy
          rw [hy, ho, rankOf_some ho]
          unfold Object.rank
          simp
        · exact le_rfl
      · rw [rankOf_modify, ho, rankOf_some ho]
        unfold Object.rank
        simp [hrunning]
  | unparent x o ho =>
    exact (unparent_cases ho).usesUp htree ho (by simp [Instr.weight]) fun _ => rfl
  | invalidateChildren x o ho hchildren =>
    refine usesUp_quiet (alike_addRefs (fun _ _ => rfl) _ w) (le_rfl) ?_
    simp only [work_cons, work_nil, Instr.weight, length_reverse]
    rw [childrenOf_some ho]
    omega
  | invalidateEnd x hx =>
    refine .inr (.inr ⟨le_rfl, rank_le rfl fun y => ?_, ?_, ?_⟩)
    · rw [rankOf_modify]
      split
      · rename_i hy
        rw [hy]
        exact le_rfl
      · exact le_rfl
    · have halike : Alike Object.links w
          (w.modify x fun o => { o with invalidate := true }) := alike_modify x fun _ => rfl
      exact halike.fewer
    · simp [Instr.weight]
  | invalidateLoop x c stash =>
    refine hquiet trivial (by simp [Instr.gives]) ?_
    simp only [work_cons, work_nil, Instr.weight, length_cons]
    omega
  | invalidateNext x c stash | delEvent x =>
    refine hquiet trivial (by simp [Instr.gives]) ?_
    simp only [work_cons, work_nil, Instr.weight]
    omega
  | invalidateMethod x o ho | destructorParent x o ho =>
    refine hquiet trivial ?_ ?_
    · split <;> simp [Instr.gives]
    · split <;> simp [Instr.weight]
  | unref x =>
    have hunref := unref_cases w x true
    obtain ⟨hgifts, hwork, -⟩ := hunref.work htree (w.unref x true).1
    refine .inr (.inr ⟨by rw [hgifts]; exact Nat.zero_le _, ?_, hunref.links.fewer, ?_⟩)
    · exact rank_le hunref.fresh fun y => le_of_eq (hunref.rankOf y)
    · exact Nat.lt_succ_of_le hwork
  | unrefInternal x r hunref => exact unrefInternal_usesUp htree hunref
  | delParent x o ho =>
    refine hquiet trivial ?_ ?_
    · split <;> simp [Instr.gives]
    · split
      · simp only [cons_append, nil_append, work_cons, work_nil, Instr.weight]
        omega
      · simp only [nil_append, work_cons, work_nil, Instr.weight]
        omega
  | destructor x o ho =>
    refine hquiet trivial ?_ ?_
    · split <;> simp [Instr.gives]
    · split
      · simp only [work_cons, work_nil, Instr.weight]
        omega
      rename_i hchildren
      obtain ⟨c, rest, hparts⟩ := exists_cons_of_ne_nil hchildren
      have hc : c ∈ w.childrenOf x := by
        rw [childrenOf_some ho, hparts]
        exact mem_cons_self
      have hbehind := behind_le htree (by simp [ho]) hc
      rw [hparts, head?_cons]
      simp only [work_cons, work_nil, Instr.weight]
      omega
  | destructorEnd x => exact hquiet trivial (by simp [Instr.gives]) (by simp [Instr.weight])
  | destructorLoop x c =>
    refine hquiet trivial (by simp [Instr.gives]) ?_
    cases hnext : w.next c with
    | none =>
      simp only [work_cons, work_nil, Instr.weight]
      omega
    | some d =>
      obtain ⟨htwo, hless⟩ := behind_next htree hnext
      simp only [work_cons, work_nil, Instr.weight]
      split at hless <;> omega
  | free x o ho =>
    refine .inr (.inr ⟨le_rfl, rank_le rfl fun y => ?_, fewer_free x, ?_⟩)
    · unfold World.rankOf
      rw [free_object]
      split
      · exact Nat.zero_le _
      · exact le_rfl
    · simp [Instr.weight]

/-! ### Every run without calls -/

/-- The library goes on, or a callback returns. -/
def GoesOn (m m' : Machine) : Prop := m.step .go = some m' ∨ m.step .ret = some m'

/-- What a state still has before it -/
def Machine.ahead (m : Machine) : Nat ×ₗ Nat ×ₗ Nat :=
  toLex (gifts m.stack, toLex (m.world.rank, work m.world m.stack))

/-- **Every step has less work ahead**, counted over the whole stack. -/
theorem goesOn_ahead {m m' : Machine} (htree : Tree m.world) (h : GoesOn m m') :
    m'.ahead < m.ahead := by
  have hless : gifts m'.stack < gifts m.stack ∨ (gifts m'.stack ≤ gifts m.stack ∧
      (m'.world.rank < m.world.rank ∨ (m'.world.rank ≤ m.world.rank ∧
        work m'.world m'.stack < work m.world m.stack))) := by
    have hop : ∃ op, m.step op = some m' ∧ ∀ c, op ≠ .call c := by
      rcases h with h | h
      · exact ⟨.go, h, by simp⟩
      · exact ⟨.ret, h, by simp⟩
    obtain ⟨op, hstep, hcall⟩ := hop
    rcases step_cases hstep with ⟨c, r, hc, -⟩ | ⟨rest, -, hstack, rfl⟩ |
      ⟨i, rest, r, -, hstack, hexec, rfl⟩
    · exact absurd hc (hcall c)
    · rw [hstack]
      refine .inr ⟨?_, .inr ⟨le_rfl, ?_⟩⟩
      · simp
      · simp [Instr.weight]
    · rw [hstack]
      simp only [gifts_append, gifts_cons, work_append, work_cons]
      rcases exec_usesUp htree hexec with hgifts | ⟨hgifts, hrank⟩ | ⟨hgifts, hrank, hfewer, hwork⟩
      · exact .inl (by omega)
      · exact .inr ⟨by omega, .inl hrank⟩
      · have hrest := hfewer.work rest
        exact .inr ⟨by omega, .inr ⟨hrank, by omega⟩⟩
  unfold Machine.ahead
  rw [Prod.Lex.toLex_lt_toLex]
  rcases hless with hlt | ⟨hle, hless⟩
  · exact .inl hlt
  rcases lt_or_eq_of_le hle with hlt | heq
  · exact .inl hlt
  refine .inr ⟨heq, ?_⟩
  rw [Prod.Lex.toLex_lt_toLex]
  rcases hless with hlt | ⟨hle, hlt⟩
  · exact .inl hlt
  rcases lt_or_eq_of_le hle with hlt' | heq
  · exact .inl hlt'
  · exact .inr ⟨heq, hlt⟩

/-- **What the library does comes to an end**, from any state of a run. -/
theorem goesOn_ends {m : Machine} (htree : Tree m.world) : Acc (fun m' m => GoesOn m m') m := by
  generalize hahead : m.ahead = n
  induction n using WellFoundedLT.induction generalizing m with
  | _ n ih =>
    refine Acc.intro m ?_
    intro m' hgoes
    have hlt := goesOn_ahead htree hgoes
    rw [hahead] at hlt
    refine ih m'.ahead hlt ?_ rfl
    rcases hgoes with hstep | hstep
    · exact step_tree htree hstep
    · exact step_tree htree hstep

end Eo.Life
