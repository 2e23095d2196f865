/-
No list of children leads to freed memory.

As long as no object is freed that still has a parent or children, every parent and every child
exists, and no freed node of a list is touched.  So the machine never stops short: whoever has the
turn, the library or the program, there is a next state.
-/
import Efl.Eo.Life.Tree

namespace Eo.Life

open List Option World

variable {w w' : World} {x y p c : Id} {i : Instr} {rest : List Instr} {parent : Option Id}
  {r : World × List Instr} {m m' : Machine} {op : Op}

/-! ### Parents and children exist -/

/-- No name of a parent or of a child leads to an object that is gone. -/
structure Linked (w : World) : Prop where
  parents : ∀ x p, w.parentOf x = some p → w.object p ≠ none
  members : ∀ p x, x ∈ w.childrenOf p → w.object x ≠ none

theorem Linked.alike (h : Linked w) (halike : Alike Object.links w w') : Linked w' := by
  constructor
  · intro x p hp
    rw [halike.parentOf] at hp
    exact mt (halike.none_iff p).mp (h.parents x p hp)
  · intro p x hx
    rw [halike.childrenOf] at hx
    exact mt (halike.none_iff x).mp (h.members p x hx)

theorem childrenOf_gone (hp : w.object p = none) : w.childrenOf p = [] := by
  rw [World.childrenOf, hp]
  rfl

theorem Linked.relink (h : Linked w) (hx : w.object x ≠ none)
    (hparent : ∀ p, parent = some p → w.object p ≠ none) : Linked (w.relink x parent) := by
  constructor
  · intro y p hp
    rw [Ne, relink_none_iff]
    rw [parentOf_relink parent hx] at hp
    split at hp
    · exact hparent p hp
    · exact h.parents y p hp
  · intro p y hy
    rw [Ne, relink_none_iff]
    have hp : w.object p ≠ none := by
      intro hnone
      rw [childrenOf_gone ((relink_none_iff parent).mpr hnone)] at hy
      simp at hy
    rw [childrenOf_relink parent hp, mem_append] at hy
    rcases hy with hy | hy
    · refine h.members p y ?_
      split at hy
      · exact mem_of_mem_erase hy
      · exact hy
    · split at hy
      · rw [mem_singleton.mp hy]
        exact hx
      · simp at hy

theorem linked_structural : Structural Linked := ⟨Linked.alike, Linked.relink⟩

/-- An object that is in no list and has none leaves no name behind. -/
theorem Linked.free (h : Linked w) (htree : Tree w) (hparent : w.parentOf x = none)
    (hchildren : w.childrenOf x = []) : Linked (w.free x) := by
  have hlive (y : Id) (hne : y ≠ x) (hy : w.object y ≠ none) : (w.free x).object y ≠ none := by
    rwa [free_object, if_neg hne]
  have hown {y p : Id} (hp : w.parentOf y = some p) : y ∈ w.childrenOf p := by
    have hy : w.object y ≠ none := by
      intro hnone
      rw [World.parentOf, hnone] at hp
      simp at hp
    have hcount := htree.listed y p hy (h.parents y p hp)
    rw [if_pos hp] at hcount
    exact count_pos_iff.mp (by omega)
  constructor
  · intro y p hp
    rw [parentOf_free] at hp
    obtain ⟨-, hp⟩ := Option.ite_none_left_eq_some.mp hp
    refine hlive p ?_ (h.parents y p hp)
    intro hpx
    have hmem := hown hp
    rw [hpx, hchildren] at hmem
    simp at hmem
  · intro p y hy
    rw [childrenOf_free] at hy
    split at hy
    · simp at hy
    have hylive := h.members p y hy
    refine hlive y ?_ hylive
    rintro rfl
    have hp : w.object p ≠ none := by
      intro hnone
      rw [childrenOf_gone hnone] at hy
      simp at hy
    have hcount := htree.listed y p hylive hp
    have hpos := count_pos_iff.mpr hy
    rw [hparent, if_neg (by simp)] at hcount
    omega

theorem Linked.add (h : Linked w) (parent : Option Id) (isRef : Bool) :
    Linked (w.add parent isRef).1 := by
  unfold World.add
  split
  · exact h
  have hlive (y : Id) (hy : w.object y ≠ none) :
      (if y = w.fresh then some newObject else w.object y) ≠ none := by
    split
    · simp
    · exact hy
  constructor
  · intro y p hp
    unfold World.parentOf at hp
    dsimp only at hp
    split at hp
    · simp [newObject] at hp
    · exact hlive p (h.parents y p hp)
  · intro p y hy
    unfold World.childrenOf at hy
    dsimp only at hy
    split at hy
    · simp [newObject] at hy
    · exact hlive y (h.members p y hy)

/-! ### Nothing dangles -/

/--
What would lead to freed memory: an object is freed with a parent or children, or the child that
the loop of `_efl_object_destructor` goes on to was freed in the turn before.
-/
def Instr.Tidy (w : World) : Instr → Prop
  | .destructorLoop _ (some c) => w.object c ≠ none
  | .free x => w.parentOf x = none ∧ w.childrenOf x = []
  | _ => True

instance decidableTidy (w : World) (i : Instr) : Decidable (i.Tidy w) := by
  unfold Instr.Tidy
  split <;> infer_instance

/-- What every step of a run has to meet: the counts fit their type, and nothing dangles. -/
def Op.Tidy (m : Machine) (op : Op) : Prop :=
  m.world.Fits ∧ (op = .go → ∀ i ∈ m.stack.head?, i.Tidy m.world)

instance decidableOpTidy (m : Machine) (op : Op) : Decidable (op.Tidy m) :=
  inferInstanceAs (Decidable (_ ∧ (op = .go → ∀ i ∈ m.stack.head?, i.Tidy m.world)))

/-- **One step keeps the links**, as long as nothing dangles. -/
theorem step_linked (h : Linked m.world) (htree : Tree m.world) (htidy : op.Tidy m)
    (hstep : m.step op = some m') : Linked m'.world := by
  refine step_keeps linked_structural h h.add ?_ hstep
  intro x rest hop hstack
  obtain ⟨hparent, hchildren⟩ := htidy.2 hop (.free x) (by rw [hstack]; rfl)
  exact h.free htree hparent hchildren

theorem start_linked : Linked start.world := by
  constructor
  · intro x p hp
    simp [World.parentOf, start] at hp
  · intro p x hx
    simp [World.childrenOf, start] at hx

/-! ### The library goes on -/

theorem mem_of_head? {l : List Id} (h : c ∈ l.head?.toList) : c ∈ l :=
  mem_of_mem_head? (Option.mem_toList.mp h)

theorem Linked.removable (h : Linked w) (x : Id) : w.Removable x := by
  intro p _ c hc
  refine h.members p c ?_
  rw [removeTouches, mem_append, mem_append] at hc
  rcases hc with (hc | hc) | hc
  · exact mem_of_head? hc
  · have hlast := mem_of_mem_getLast? (Option.mem_toList.mp hc)
    exact (takeWhile_sublist _).mem hlast
  · exact (dropWhile_sublist _).mem (mem_of_mem_tail (mem_of_head? hc))

theorem Linked.appendable (h : Linked w) (p : Id) : w.Appendable p := by
  intro c hc
  refine h.members p c ?_
  rw [appendTouches, mem_append] at hc
  rcases hc with hc | hc
  · exact mem_of_head? hc
  · exact mem_of_mem_getLast? (Option.mem_toList.mp hc)

theorem Linked.detach (h : Linked w) (x : Id) : w.detach x = some (w.unparent x) :=
  if_pos (h.removable x)

theorem parentSet_progress (h : Linked w) (hx : w.object x ≠ none) (parent : Option Id) :
    ∃ r, w.parentSet x parent = some r := by
  obtain ⟨o, ho⟩ := ne_none_iff_exists'.mp hx
  rw [World.parentSet, ho]
  dsimp only
  split
  · exact ⟨_, rfl⟩
  cases parent with
  | some p =>
    dsimp only
    split
    · exact ⟨_, rfl⟩
    split
    · exact ⟨_, rfl⟩
    split
    · exact ⟨_, rfl⟩
    · rw [if_pos ⟨h.removable x, h.appendable p⟩]
      exact ⟨_, rfl⟩
  | none =>
    dsimp only
    split
    · exact ⟨_, rfl⟩
    split
    · -- nothing to invalidate any more
      have hstart : Linked (w.startInvalidate x).1 := h.alike (startInvalidate_still w x).1.links
      exact ⟨_, hstart.detach x⟩
    · exact ⟨_, rfl⟩

/-- **The library can go on** with what is on the stack. -/
theorem exec_progress (hframes : Frames w (i :: rest)) (h : Linked w) (htidy : i.Tidy w)
    (hi : i ≠ .user) : ∃ r, exec w i = some r := by
  have hguard := hframes.stackOk.1
  -- what gives a reference back has one, and what needs one has it below itself
  have howner (x : Id) (hx : 0 < i.givesBack x) : w.object x ≠ none :=
    hframes.live x (by rw [holds_cons]; omega)
  have hguarded (x : Id) (hx : 0 < holds rest x) : w.object x ≠ none :=
    hframes.live x (by rw [holds_cons]; omega)
  cases i with
  | user => exact absurd rfl hi
  | callParentSet x parent =>
    rw [exec]
    split <;> exact ⟨_, rfl⟩
  | parentSet x parent => exact parentSet_progress h (hguarded x hguard) parent
  | unparent x =>
    rw [exec, if_neg (hguarded x hguard)]
    exact ⟨_, h.detach x⟩
  | invalidateChildren x =>
    obtain ⟨o, ho⟩ := ne_none_iff_exists'.mp (hguarded x hguard.1)
    rw [exec, ho]
    dsimp only
    rw [if_neg]
    · exact ⟨_, rfl⟩
    · rintro ⟨c, hc, hnone⟩
      exact h.members x c (by rwa [childrenOf_some ho]) hnone
  | invalidateLoop x stash =>
    cases stash with
    | nil =>
      rw [exec, if_neg (hguarded x hguard.1)]
      exact ⟨_, rfl⟩
    | cons c stash => exact ⟨_, rfl⟩
  | invalidateNext x c stash | unref x | delEvent x => exact ⟨_, rfl⟩
  | invalidateMethod x =>
    obtain ⟨o, ho⟩ := ne_none_iff_exists'.mp (hguarded x hguard)
    rw [exec, ho]
    exact ⟨_, rfl⟩
  | delParent x | destructor x | destructorParent x =>
    obtain ⟨o, ho⟩ := ne_none_iff_exists'.mp (howner x (by simp [Instr.givesBack]))
    rw [exec, ho]
    exact ⟨_, rfl⟩
  | unrefInternal x =>
    obtain ⟨o, ho⟩ := ne_none_iff_exists'.mp (howner x (by simp))
    rw [exec, World.unrefInternal, ho]
    dsimp only
    split
    · exact ⟨_, rfl⟩
    split
    · exact ⟨_, rfl⟩
    split <;> exact ⟨_, rfl⟩
  | destructorLoop x next =>
    cases next with
    | none => exact ⟨_, rfl⟩
    | some c =>
      rw [exec, if_neg]
      · exact ⟨_, rfl⟩
      · rintro (hnone | ⟨p, hp, hnone⟩)
        · exact htidy hnone
        · exact h.parents c p hp hnone
  | free x =>
    rw [exec, if_neg (howner x (by simp [Instr.givesBack]))]
    exact ⟨_, rfl⟩

/-- Whose turn it is. -/
def Op.InTurn (stack : List Instr) : Op → Prop
  | .call _ => UserTurn stack
  | .ret => stack.head? = some .user
  | .go => ∃ i ∈ stack.head?, i ≠ .user

/-- Every step that is in turn, and in which nothing dangles, leads to a next state. -/
def Machine.Proceeds (m : Machine) : Prop :=
  ∀ op : Op, op.InTurn m.stack → op.Tidy m → ∃ m', m.step op = some m'

theorem call_progress (w : World) (c : Call) : ∃ r, call w c = some r := by
  cases c with
  | add parent isRef | del x | unref x => exact ⟨_, rfl⟩
  | parentSet x parent =>
    show ∃ r, exec w (.callParentSet x parent) = some r
    rw [exec]
    split <;> exact ⟨_, rfl⟩
  | ref x | invalidate x =>
    rw [call]
    split <;> exact ⟨_, rfl⟩

/-- **The machine does not stop short.** -/
theorem machine_proceeds (hframes : Frames m.world m.stack) (h : Linked m.world) : m.Proceeds := by
  obtain ⟨w, stack⟩ := m
  intro op hturn htidy
  cases op with
  | call c =>
    obtain ⟨r, hr⟩ := call_progress w c
    have hstep : (⟨w, stack⟩ : Machine).step (.call c) =
        (call w c).map fun r => ⟨r.1, r.2 ++ stack⟩ := if_pos hturn
    rw [hstep, hr]
    exact ⟨_, rfl⟩
  | ret =>
    obtain ⟨rest, rfl⟩ := head?_eq_some_iff.mp hturn
    exact ⟨_, rfl⟩
  | go =>
    obtain ⟨i, hhead, hi⟩ := hturn
    obtain ⟨rest, rfl⟩ := head?_eq_some_iff.mp hhead
    obtain ⟨r, hr⟩ := exec_progress hframes h (htidy.2 rfl i rfl) hi
    rw [Machine.step]
    dsimp only
    rw [hr]
    exact ⟨_, rfl⟩

/-! ### A small family -/

def gos (n : Nat) : List Op := List.replicate n .go

/-- An object is created below another one. -/
def addChild (p : Id) : List Op := .call (.add (some p) true) :: gos 3 ++ [.ret, .go]

/--
An object with two children, of which the second goes below the first; the program holds two
references of that one.
-/
def family : List Op :=
  [.call (.add none true), .ret, .go] ++ addChild 0 ++ addChild 0 ++
    [.call (.ref 2), .call (.parentSet 2 (some 1)), .go, .go]

end Eo.Life
