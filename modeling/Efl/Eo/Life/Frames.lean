/-
What is on the stack, and the counts of references.

Every instruction that touches the memory of an object has a reference to it below itself on the
stack, and the count of an object is the number of references on the stack and the one that all
user references share.  None of this depends on what the program does.
-/
import Mathlib.Algebra.GroupWithZero.Nat
import Efl.Eo.Life.Basic

namespace Eo.Life

open List

variable {w w' : World} {x y : Id} {i : Instr} {is rest stack : List Instr} {o : Object}

/-! ### Worlds -/

namespace World

variable (f : Object → Object)

@[simp] theorem modify_object :
    (w.modify x f).object y = if y = x then (w.object y).map f else w.object y := rfl

@[simp] theorem modify_fresh : (w.modify x f).fresh = w.fresh := rfl

@[simp] theorem modify_held : (w.modify x f).held = w.held := rfl

@[simp] theorem hold_object : (w.hold x).object = w.object := rfl

@[simp] theorem unhold_object : (w.unhold x).object = w.object := rfl

@[simp] theorem free_object :
    (w.free x).object y = if y = x then none else w.object y := rfl

theorem modify_isSome :
    ((w.modify x f).object y).isSome = (w.object y).isSome := by
  rw [modify_object]
  split
  · exact Option.isSome_map
  · rfl

end World

/-! ### Instructions -/

/-- What one instruction did. -/
inductive Exec (w : World) : Instr → World × List Instr → Prop where
  | callGone (x : Id) (parent : Option Id) : w.object x = none →
      Exec w (.callParentSet x parent) (w, [])
  | call (x : Id) (parent : Option Id) (o : Object) : w.object x = some o →
      Exec w (.callParentSet x parent) (w.addRef x, [.parentSet x parent, .unrefInternal x])
  | parentSet (x : Id) (parent : Option Id) (r : World × List Instr) :
      w.parentSet x parent = some r → Exec w (.parentSet x parent) r
  | unparent (x : Id) (o : Object) : w.object x = some o → Exec w (.unparent x) (w.unparent x)
  | invalidateChildren (x : Id) (o : Object) : w.object x = some o →
      (∀ c ∈ o.children, w.object c ≠ none) → Exec w (.invalidateChildren x)
        (o.children.foldl World.addRef w, [.invalidateLoop x o.children.reverse])
  | invalidateEnd (x : Id) : w.object x ≠ none → Exec w (.invalidateLoop x [])
      (w.modify x fun o => { o with invalidate := true }, [])
  | invalidateLoop (x c : Id) (stash : List Id) : Exec w (.invalidateLoop x (c :: stash))
      (w, [.callParentSet c none, .invalidateNext x c stash])
  | invalidateNext (x c : Id) (stash : List Id) : Exec w (.invalidateNext x c stash)
      (w, [.unrefInternal c, .invalidateLoop x stash])
  | invalidateMethod (x : Id) (o : Object) : w.object x = some o → Exec w (.invalidateMethod x)
      (w, if o.isInvalidating then [] else [.callParentSet x none])
  | unref (x : Id) : Exec w (.unref x) (w.unref x true)
  | unrefInternal (x : Id) (r : World × List Instr) : w.unrefInternal x = some r →
      Exec w (.unrefInternal x) r
  | delParent (x : Id) (o : Object) : w.object x = some o → Exec w (.delParent x)
      (w, (if o.hasParent then [.parentSet x none] else []) ++ [.delEvent x])
  | delEvent (x : Id) : Exec w (.delEvent x) (w, [.user, .destructor x])
  | destructor (x : Id) (o : Object) : w.object x = some o → Exec w (.destructor x)
      (w, if o.children = [] then [.destructorParent x] else [.destructorLoop x o.children.head?])
  | destructorEnd (x : Id) : Exec w (.destructorLoop x none) (w, [.destructorParent x])
  | destructorLoop (x c : Id) : Exec w (.destructorLoop x (some c))
      (w, [.callParentSet c none, .destructorLoop x (w.next c)])
  | destructorParent (x : Id) (o : Object) : w.object x = some o → Exec w (.destructorParent x)
      (w, (if o.parent = none then [] else [.callParentSet x none]) ++ [.user, .free x])
  | free (x : Id) (o : Object) : w.object x = some o → Exec w (.free x)
      (w.free x, [])

variable {r : World × List Instr}

/-- What an instruction can do, said once. -/
theorem exec_cases (h : exec w i = some r) : Exec w i r := by
  cases i with
  | user => simp [exec] at h
  | parentSet x parent => exact .parentSet x parent r h
  | unrefInternal x => exact .unrefInternal x r h
  | unref x =>
    cases h
    exact .unref x
  | invalidateNext x c stash =>
    cases h
    exact .invalidateNext x c stash
  | delEvent x =>
    cases h
    exact .delEvent x
  | invalidateLoop x stash =>
    cases stash with
    | nil =>
      obtain ⟨hx, ⟨⟩⟩ := Option.ite_none_left_eq_some.mp h
      exact .invalidateEnd x hx
    | cons c stash =>
      cases h
      exact .invalidateLoop x c stash
  | destructorLoop x next =>
    cases next with
    | none =>
      cases h
      exact .destructorEnd x
    | some c =>
      obtain ⟨-, ⟨⟩⟩ := Option.ite_none_left_eq_some.mp h
      exact .destructorLoop x c
  | unparent x =>
    obtain ⟨hx, h⟩ := Option.ite_none_left_eq_some.mp h
    obtain ⟨o, ho⟩ := Option.ne_none_iff_exists'.mp hx
    obtain ⟨-, ⟨⟩⟩ := Option.ite_none_right_eq_some.mp h
    exact .unparent x o ho
  | free x =>
    obtain ⟨hx, ⟨⟩⟩ := Option.ite_none_left_eq_some.mp h
    obtain ⟨o, ho⟩ := Option.ne_none_iff_exists'.mp hx
    exact .free x o ho
  | invalidateMethod x | delParent x | destructor x | destructorParent x =>
    simp only [exec] at h
    split at h
    · simp at h
    rename_i o ho
    cases h
    constructor
    exact ho
  | callParentSet x parent =>
    simp only [exec] at h
    split at h
    · rename_i hx
      cases h
      exact .callGone x parent hx
    · rename_i o ho
      cases h
      exact .call x parent o ho
  | invalidateChildren x =>
    simp only [exec] at h
    split at h
    · simp at h
    rename_i o ho
    obtain ⟨hchildren, ⟨⟩⟩ := Option.ite_none_left_eq_some.mp h
    exact .invalidateChildren x o ho fun c hc hnone => hchildren ⟨c, hc, hnone⟩

/-! ### References on the stack -/

/-- The references to an object that an instruction gives back. -/
@[grind =]
def Instr.givesBack (x : Id) : Instr → Nat
  | .unrefInternal y | .delParent y | .delEvent y | .destructor y | .destructorLoop y _ |
    .destructorParent y | .free y => if y = x then 1 else 0
  | .invalidateLoop _ stash => stash.count x
  | .invalidateNext _ c stash => (if c = x then 1 else 0) + stash.count x
  | _ => 0

@[simp] theorem unrefInternal_givesBack :
    (Instr.unrefInternal y).givesBack x = if y = x then 1 else 0 := rfl

def holds (stack : List Instr) (x : Id) : Nat := (stack.map (Instr.givesBack x)).sum

@[simp] theorem holds_nil : holds [] x = 0 := rfl

@[simp] theorem holds_cons : holds (i :: stack) x = i.givesBack x + holds stack x := by
  simp [holds]

@[simp] theorem holds_append : holds (is ++ rest) x = holds is x + holds rest x := by
  simp [holds]

theorem givesBack_le_holds {j : Instr} (hj : j ∈ stack) : j.givesBack x ≤ holds stack x := by
  induction stack with
  | nil => simp at hj
  | cons i stack ih =>
    rcases mem_cons.mp hj with rfl | hj
    · exact Nat.le_add_right _ _
    · exact Nat.le_trans (ih hj) (Nat.le_add_left _ _)

/-- What stands below an instruction. -/
def Instr.Guarded (rest : List Instr) : Instr → Prop
  | .parentSet x _ | .unparent x | .invalidateMethod x => 0 < holds rest x
  | .invalidateChildren x | .invalidateLoop x _ | .invalidateNext x _ _ =>
    0 < holds rest x ∧
      (rest.head? = some (.unparent x) ∨ rest.head? = some (.delEvent x))
  | .delParent x | .delEvent x | .destructor x | .destructorLoop x _ | .destructorParent x |
    .free x => holds rest x = 0
  | _ => True

def StackOk : List Instr → Prop
  | [] => True
  | i :: rest => i.Guarded rest ∧ StackOk rest

/-- The references to an object that are not those of users. -/
def Object.internal (o : Object) : Int := o.refcount - if 0 < o.userRefcount then 1 else 0

/-- The references on the stack are those the counts know of. -/
structure Frames (w : World) (stack : List Instr) : Prop where
  stackOk : StackOk stack
  counted : ∀ x o, w.object x = some o → o.internal = holds stack x
  live : ∀ x, 0 < holds stack x → w.object x ≠ none

theorem StackOk.tail (h : StackOk (i :: rest)) : StackOk rest := h.2

/-- Nothing has to stand below an instruction of the program's interface. -/
def Instr.Free (j : Instr) : Prop := ∀ rest, j.Guarded rest

theorem stackOk_free (hrest : StackOk rest) (h : ∀ j ∈ is, j.Free) : StackOk (is ++ rest) := by
  induction is with
  | nil => exact hrest
  | cons j is ih =>
    exact ⟨h j mem_cons_self _, ih fun j' hj' => h j' (mem_cons_of_mem _ hj')⟩

/-! ### What happens to the counts -/

/-- The internal references of every object change by `d`. -/
def Shifts (w w' : World) (d : Id → Int) : Prop :=
  ∀ x, (w'.object x).map Object.internal = (w.object x).map fun o => o.internal + d x

variable {d : Id → Int} {l : List Instr} {w'' : World}

theorem Shifts.trans {d' : Id → Int} (h : Shifts w w' d) (h' : Shifts w' w'' d') :
    Shifts w w'' fun x => d x + d' x := by
  intro x
  have h1 := h x
  have h2 := h' x
  cases ho : w.object x with
  | none =>
    rw [ho, Option.map_none, Option.map_eq_none_iff] at h1
    rw [h1] at h2
    simpa using h2
  | some o =>
    rw [ho, Option.map_some, Option.map_eq_some_iff] at h1
    obtain ⟨o', ho', h1⟩ := h1
    rw [ho', Option.map_some, h1] at h2
    rw [h2, Option.map_some, Int.add_assoc]

theorem Shifts.refl (w : World) : Shifts w w fun _ => 0 := by
  intro x
  cases w.object x <;> simp

theorem shifts_modify {f : Object → Object} (x : Id) (n : Int)
    (h : ∀ o, w.object x = some o → (f o).internal = o.internal + n) :
    Shifts w (w.modify x f) fun y => if y = x then n else 0 := by
  intro y
  rw [World.modify_object]
  dsimp only
  split
  · rename_i hy
    rw [hy]
    cases ho : w.object x with
    | none => rfl
    | some o => simp [h o ho]
  · cases w.object y <;> simp

theorem shifts_same {f : Object → Object} (x : Id) (h : ∀ o, (f o).internal = o.internal) :
    Shifts w (w.modify x f) fun _ => 0 := by
  have hshift := shifts_modify (w := w) x 0 (fun o _ => by rw [h, Int.add_zero])
  simpa using hshift

theorem Shifts.object (h : Shifts w w' d) : w'.object x = none ↔ w.object x = none := by
  have hx := h x
  constructor
  · intro hnone
    rw [hnone] at hx
    exact Option.map_eq_none_iff.mp hx.symm
  · intro hnone
    rw [hnone] at hx
    exact Option.map_eq_none_iff.mp hx

theorem Frames.replace (h : Frames w (i :: rest)) (hshift : Shifts w w' d)
    (hstack : StackOk (is ++ rest)) (hlive : ∀ x, 0 < holds is x → w.object x ≠ none)
    (hcount : ∀ x, w.object x ≠ none → (holds is x : Int) = i.givesBack x + d x) :
    Frames w' (is ++ rest) := by
  refine ⟨hstack, ?_, ?_⟩
  · intro x o' ho'
    have hx := hshift x
    cases ho : w.object x with
    | none =>
      rw [ho', ho] at hx
      simp at hx
    | some o =>
      rw [ho', ho, Option.map_some, Option.map_some] at hx
      have hinternal := Option.some.inj hx
      have hold := h.counted x o ho
      have hnew := hcount x (by rw [ho]; simp)
      rw [holds_cons] at hold
      rw [hinternal, holds_append]
      omega
  · intro x hx hnone
    rw [hshift.object] at hnone
    rw [holds_append] at hx
    rcases Nat.eq_zero_or_pos (holds is x) with hzero | hpos
    · refine h.live x ?_ hnone
      rw [holds_cons]
      omega
    · exact hlive x hpos hnone

/-- What an instruction, or a part of one, does to the counts. -/
structure Pushes (w w' : World) (is : List Instr) (n : Id → Int) : Prop where
  shifts : ∃ d, Shifts w w' d ∧ ∀ x, w.object x ≠ none → (holds is x : Int) = n x + d x
  live : ∀ x, 0 < holds is x → w.object x ≠ none

theorem pushes_nil (h : Shifts w w' d) (hd : ∀ x, d x = 0) :
    Pushes w w' [] fun _ => 0 :=
  ⟨⟨d, h, fun x _ => by simp [hd]⟩, fun x hx => absurd hx (by simp)⟩

theorem pushes_same (h : ∀ x, holds is x = 0) : Pushes w w is fun _ => 0 := by
  refine ⟨⟨fun _ => 0, Shifts.refl w, fun x _ => by simp [h]⟩, ?_⟩
  intro x hx
  rw [h] at hx
  exact absurd hx (Nat.lt_irrefl 0)

theorem Frames.push (h : Frames w (i :: rest)) (hpush : Pushes w w' l fun x => i.givesBack x)
    (hstack : StackOk (l ++ rest)) : Frames w' (l ++ rest) := by
  obtain ⟨d, hshift, hcount⟩ := hpush.shifts
  exact h.replace hshift hstack hpush.live hcount

theorem shifts_ref (w : World) (x : Id) : Shifts w (w.ref x) fun _ => 0 := by
  refine shifts_same x ?_
  intro o
  unfold Object.internal
  dsimp only
  split <;> split <;> split <;> omega

theorem shifts_addRef (w : World) (x : Id) : Shifts w (w.addRef x) fun y => if y =
    x then 1 else 0 := by
  refine shifts_modify x 1 ?_
  unfold Object.internal
  dsimp only
  omega

theorem shifts_unhold (h : Shifts w w' d) : Shifts w (w'.unhold x) d := h

theorem del_pushes (w : World) (x : Id) :
    Pushes w (w.del x).1 (w.del x).2 (fun _ => 0) ∧ ∀ j ∈ (w.del x).2, j.Free := by
  unfold World.del
  split
  · exact ⟨pushes_same fun _ => rfl, by simp⟩
  rename_i o ho
  have hfirst (y : Id) :
      (if o.parent = none then Instr.unref x else .callParentSet x none).givesBack y = 0 := by
    split <;> rfl
  refine ⟨⟨⟨_, shifts_addRef w x, ?_⟩, ?_⟩, ?_⟩
  · intro y
    by_cases hy : y = x
    · simp [hfirst, hy]
    · simp [hfirst, hy, Ne.symm hy]
  · intro y hy
    by_cases hne : y = x
    · simp [hne, ho]
    · simp [hfirst, Ne.symm hne] at hy
  · intro j hj rest
    rcases mem_cons.mp hj with rfl | hj
    · split <;> trivial
    · rw [mem_singleton.mp hj]
      trivial

theorem unref_pushes (w : World) (x : Id) (owned : Bool) :
    Pushes w (w.unref x owned).1 (w.unref x owned).2 (fun _ => 0) ∧
      ∀ j ∈ (w.unref x owned).2, j.Free := by
  unfold World.unref
  split
  · exact ⟨pushes_same fun _ => rfl, by simp⟩
  rename_i o ho
  split
  · exact del_pushes w x
  have hlive : w.object x ≠ none := by simp [ho]
  have hshift : Shifts w
      (if owned then (w.modify x fun o =>
          { o with refcount := o.refcount + 1, userRefcount := o.userRefcount - 1 }).unhold x
        else w.modify x fun o =>
          { o with refcount := o.refcount + 1, userRefcount := o.userRefcount - 1 })
      fun y => if y = x then (if o.userRefcount = 1 then 2 else 1) else 0 := by
    have hmodify := shifts_modify x (if o.userRefcount = 1 then 2 else 1)
      (f := fun o => { o with refcount := o.refcount + 1, userRefcount := o.userRefcount - 1 })
      (by
        intro o' ho'
        obtain rfl := Option.some.inj (ho.symm.trans ho')
        unfold Object.internal
        dsimp only
        split <;> split <;> split <;> omega)
    split
    · exact shifts_unhold hmodify
    · exact hmodify
  dsimp only
  split
  · rename_i hone
    rw [if_pos hone] at hshift
    refine ⟨⟨⟨_, hshift, ?_⟩, ?_⟩, ?_⟩
    · intro y _
      by_cases hy : y = x
      · simp [hy]
      · simp [hy, Ne.symm hy]
    · intro y hy
      by_cases hne : y = x
      · rw [hne]
        exact hlive
      · simp [Instr.givesBack, Ne.symm hne] at hy
    · intro j hj rest
      rw [mem_cons, mem_singleton, or_self] at hj
      rw [hj]
      trivial
  · rename_i hone
    rw [if_neg hone] at hshift
    refine ⟨⟨⟨_, hshift, ?_⟩, ?_⟩, ?_⟩
    · intro y
      by_cases hy : y = x
      · simp [hy]
      · simp [hy, Ne.symm hy]
    · intro y hy
      by_cases hne : y = x
      · rw [hne]
        exact hlive
      · simp [Ne.symm hne] at hy
    · intro j hj rest
      rw [mem_singleton.mp hj]
      trivial

theorem shifts_unlink (h : w.unlink x = some w') : Shifts w w' fun _ => 0 := by
  unfold World.unlink at h
  split at h
  · obtain rfl := Option.some.inj h
    exact Shifts.refl w
  split at h
  · simp at h
  · obtain rfl := Option.some.inj h
    exact shifts_same _ fun _ => rfl

theorem shifts_attach (w : World) (x p : Id) (isNew : Bool) :
    Shifts w (w.attach x p isNew) fun _ => 0 := by
  have hlink := (shifts_same (w := w) x
    (f := fun o => { o with parent := some p, hasParent := true })
    fun _ => rfl).trans (shifts_same p (f := fun o => { o with children := o.children ++ [x] })
      fun _ => rfl)
  unfold World.attach
  split
  · exact hlink.trans (shifts_ref _ x)
  · exact hlink

theorem Pushes.after {n : Id → Int} (h : Pushes w' w'' is n)
    (hshift : Shifts w w' fun _ => 0) : Pushes w w'' is n := by
  obtain ⟨⟨d, hd, hcount⟩, hlive⟩ := h
  have hobject (y : Id) : w'.object y = none ↔ w.object y = none := hshift.object
  refine ⟨⟨d, ?_, ?_⟩, ?_⟩
  · have htrans := hshift.trans hd
    simpa using htrans
  · intro y hy
    exact hcount y fun hnone => hy ((hobject y).mp hnone)
  · intro y hy hnone
    exact hlive y hy ((hobject y).mpr hnone)

theorem unparent_pushes (w : World) (x : Id) :
    Pushes w (w.unparent x).1 (w.unparent x).2 (fun _ => 0) ∧ ∀ j ∈ (w.unparent x).2, j.Free := by
  unfold World.unparent
  split
  · exact ⟨pushes_same fun _ => rfl, by simp⟩
  rename_i w1 hunlink
  have hshift := (shifts_unlink hunlink).trans (shifts_same (w := w1) x
    (f := fun o => { o with parent := none, hasParent := false }) fun _ => rfl)
  dsimp only
  split
  · exact ⟨pushes_nil hshift fun _ => rfl, by simp⟩
  split
  · exact ⟨pushes_nil hshift fun _ => rfl, by simp⟩
  obtain ⟨hpush, hfree⟩ := unref_pushes
    (w1.modify x fun o => { o with parent := none, hasParent := false }) x false
  exact ⟨hpush.after hshift, hfree⟩

theorem startInvalidate_spec (w : World) (x : Id) :
    Shifts w (w.startInvalidate x).1 (fun _ => 0) ∧
      ((w.startInvalidate x).2 = [] ∨ (w.startInvalidate x).2 =
        [.user, .invalidateChildren x]) := by
  unfold World.startInvalidate
  split
  · exact ⟨Shifts.refl w, .inl rfl⟩
  split
  · exact ⟨Shifts.refl w, .inl rfl⟩
  split
  · exact ⟨shifts_same x fun _ => rfl, .inl rfl⟩
  · exact ⟨shifts_same x fun _ => rfl, .inr rfl⟩

theorem Frames.parentSet {parent : Option Id} (h : Frames w (.parentSet x parent :: rest))
    (hexec : w.parentSet x parent = some r) :
    Frames r.1 (r.2 ++ rest) := by
  have hguard : 0 < holds rest x := h.stackOk.1
  have hnone {is : List Instr} {w' : World} (hpush : Pushes w w' is fun _ => 0)
      (hfree : ∀ j ∈ is, j.Free) : Frames w' (is ++ rest) :=
    h.push hpush (stackOk_free h.stackOk.tail hfree)
  have hstay : Frames w ([] ++ rest) := hnone (pushes_same fun _ => rfl) (by simp)
  unfold World.parentSet at hexec
  split at hexec
  · simp at hexec
  split at hexec
  · cases hexec
    exact hstay
  split at hexec
  · split at hexec
    · cases hexec
      exact hstay
    split at hexec
    · cases hexec
      exact hstay
    split at hexec
    · cases hexec
      exact hstay
    rename_i w1 hunlink
    obtain ⟨-, ⟨⟩⟩ := Option.ite_none_right_eq_some.mp hexec
    exact hnone (pushes_nil ((shifts_unlink hunlink).trans (shifts_attach _ x _ _))
      fun _ => rfl) (by simp)
  · split at hexec
    · cases hexec
      exact hstay
    obtain ⟨hshift, his⟩ := startInvalidate_spec w x
    generalize w.startInvalidate x = s at hexec hshift his
    obtain ⟨w1, is⟩ := s
    dsimp only at hexec hshift his
    split at hexec
    · obtain ⟨-, ⟨⟩⟩ := Option.ite_none_right_eq_some.mp hexec
      obtain ⟨hpush, hfree⟩ := unparent_pushes w1 x
      exact hnone (hpush.after hshift) hfree
    · rename_i hne
      obtain rfl := his.resolve_left hne
      cases hexec
      refine h.push (Pushes.after (pushes_same fun _ => rfl) hshift)
        ⟨trivial, ⟨?_, .inl rfl⟩, hguard, h.stackOk.tail⟩
      simpa [Instr.givesBack] using hguard

/-- The frames below stay what they were when a reference is dropped. -/
theorem Frames.unrefInternal (h : Frames w (.unrefInternal x :: rest))
    (hexec : w.unrefInternal x = some r) : Frames r.1 (r.2 ++ rest) := by
  unfold World.unrefInternal at hexec
  split at hexec
  · simp at hexec
  rename_i o ho
  have hlive : w.object x ≠ none := by simp [ho]
  have hcount := h.counted x o ho
  rw [holds_cons] at hcount
  have hself : Instr.givesBack x (.unrefInternal x) = 1 := by simp
  dsimp only at hexec
  split at hexec
  · -- one reference less
    cases hexec
    refine h.push ⟨⟨_, shifts_modify x (-1) ?_, ?_⟩, fun y hy => absurd hy (by simp)⟩
      h.stackOk.tail
    · unfold Object.internal
      dsimp only
      omega
    · intro y
      by_cases hy : y = x
      · simp [hy]
      · simp [hy, Ne.symm hy]
  · -- the last one, and the destruction holds one of its own
    have hgone : holds rest x = 0 := by
      unfold Object.internal at hcount
      split at hcount <;> omega
    have hshift : Shifts w ((w.modify x fun o => { o with refcount := o.refcount - 1 }).modify x
        fun o => { o with delTriggered := true, refcount := o.refcount + 1 }) fun _ => 0 := by
      have h1 := shifts_modify (w := w) x (-1) (f := fun o => { o with refcount := o.refcount - 1 })
        (by
          unfold Object.internal
          dsimp only
          omega)
      have h2 := shifts_modify (w := w.modify x fun o => { o with refcount := o.refcount - 1 }) x 1
        (f := fun o => { o with delTriggered := true, refcount := o.refcount + 1 })
        (by
          unfold Object.internal
          dsimp only
          omega)
      have hboth := h1.trans h2
      have hzero : (fun y => (if y = x then (-1 : Int) else 0) + if y = x then 1 else 0) =
          fun _ => 0 := by
        funext y
        split <;> rfl
      rw [hzero] at hboth
      exact hboth
    have hdel {w' : World} {is : List Instr} (hs : Shifts w w' fun _ => 0)
        (his : ∀ y, holds is y = if x = y then 1 else 0)
        (hstack : StackOk (is ++ rest)) : Frames w' (is ++ rest) := by
      refine h.push ⟨⟨_, hs, ?_⟩, ?_⟩ hstack
      · intro y _
        rw [his]
        rfl
      · intro y hy
        rw [his] at hy
        split at hy
        · rename_i hxy
          rw [← hxy]
          exact hlive
        · simp at hy
    generalize (w.modify x fun o => { o with refcount := o.refcount - 1 }).modify x
      (fun o => { o with delTriggered := true, refcount := o.refcount + 1 }) = w1 at hexec hshift
    have htail := h.stackOk.tail
    split at hexec
    · cases hexec
      exact hdel hshift (by simp [Instr.givesBack]) ⟨trivial, hgone, htail⟩
    split at hexec
    · obtain ⟨hstart, his⟩ := startInvalidate_spec w1 x
      generalize w1.startInvalidate x = s at hexec hstart his
      obtain ⟨w2, is⟩ := s
      cases hexec
      rcases his with rfl | rfl
      · exact hdel (hshift.trans hstart) (by simp [Instr.givesBack]) ⟨hgone, htail⟩
      refine hdel (hshift.trans hstart) (by simp [Instr.givesBack])
        ⟨trivial, ⟨?_, .inr rfl⟩, hgone, htail⟩
      simp [Instr.givesBack, hgone]
    · cases hexec
      exact hdel hshift (by simp [Instr.givesBack]) ⟨hgone, htail⟩

theorem shifts_addRefs : ∀ (xs : List Id) (w : World),
    Shifts w (xs.foldl World.addRef w) fun y => xs.count y := by
  intro xs
  induction xs with
  | nil =>
    intro w
    exact Shifts.refl w
  | cons x xs ih =>
    intro w
    have hboth := (shifts_addRef w x).trans (ih (w.addRef x))
    have hcount : (fun y => (if y = x then (1 : Int) else 0) + (xs.count y : Int)) =
        fun y => ((x :: xs).count y : Int) := by
      funext y
      by_cases hy : y = x
      · rw [hy]
        simp [Int.add_comm]
      · rw [if_neg hy]
        simp [Ne.symm hy]
    rw [hcount] at hboth
    exact hboth

theorem pushes_handOn (h : Frames w (i :: rest)) (his : ∀ y, holds is y = i.givesBack y) :
    Pushes w w is fun y => i.givesBack y := by
  refine ⟨⟨_, Shifts.refl w, ?_⟩, ?_⟩
  · intro y _
    rw [his, Int.add_zero]
  · intro y hy
    refine h.live y ?_
    rw [holds_cons, ← his]
    omega

/-- **One instruction keeps the references in order.** -/
theorem exec_frames (h : Frames w (i :: rest)) (hexec : exec w i = some r) :
    Frames r.1 (r.2 ++ rest) := by
  have htail := h.stackOk.tail
  have hguard := h.stackOk.1
  cases exec_cases hexec with
  | callGone x parent hx => exact h.push (pushes_same fun _ => rfl) htail
  | call x parent o ho =>
    refine h.push ⟨⟨_, shifts_addRef w x, ?_⟩, ?_⟩ ⟨?_, trivial, htail⟩
    · intro y
      by_cases hy : y = x
      · simp [Instr.givesBack, hy]
      · simp [Instr.givesBack, hy, Ne.symm hy]
    · intro y hy
      by_cases hne : y = x
      · simp [hne, ho]
      · simp [Instr.givesBack, Ne.symm hne] at hy
    · show 0 < holds (.unrefInternal x :: rest) x
      rw [holds_cons, unrefInternal_givesBack, if_pos rfl]
      omega
  | parentSet x parent r hset => exact h.parentSet hset
  | unparent x o ho =>
    obtain ⟨hpush, hfree⟩ := unparent_pushes w x
    exact h.push hpush (stackOk_free htail hfree)
  | invalidateChildren x o ho hchildren =>
    refine h.push ⟨⟨_, shifts_addRefs o.children w, ?_⟩, ?_⟩ ⟨hguard, htail⟩
    · simp [Instr.givesBack]
    · intro y hy
      refine hchildren y ?_
      simpa [Instr.givesBack] using hy
  | invalidateEnd x hx =>
    exact h.push (pushes_nil (shifts_same x fun _ => rfl) fun _ => rfl) htail
  | invalidateLoop x c stash =>
    refine h.push (pushes_handOn h fun y => ?_) ⟨trivial, hguard, htail⟩
    simp [Instr.givesBack, count_cons, Nat.add_comm]
  | invalidateNext x c stash =>
    refine h.push (pushes_handOn h fun y => ?_) ⟨trivial, hguard, htail⟩
    simp [Instr.givesBack]
  | invalidateMethod x o ho =>
    split
    · exact h.push (pushes_same fun _ => rfl) htail
    · exact h.push (pushes_same fun _ => rfl) ⟨trivial, htail⟩
  | unref x =>
    obtain ⟨hpush, hfree⟩ := unref_pushes w x true
    exact h.push hpush (stackOk_free htail hfree)
  | unrefInternal x r hunref => exact h.unrefInternal hunref
  | delParent x o ho =>
    refine h.push (pushes_handOn h fun y => ?_) ?_
    · split <;> simp [Instr.givesBack]
    · split
      · refine ⟨?_, hguard, htail⟩
        show 0 < holds (.delEvent x :: rest) x
        rw [holds_cons, show (Instr.delEvent x).givesBack x = 1 by simp [Instr.givesBack]]
        omega
      · exact ⟨hguard, htail⟩
  | delEvent x | destructorLoop x c =>
    exact h.push (pushes_handOn h fun y => by simp [Instr.givesBack])
      ⟨trivial, hguard, htail⟩
  | destructor x o ho =>
    refine h.push (pushes_handOn h fun y => ?_) ?_
    · split <;> simp [Instr.givesBack]
    · split <;> exact ⟨hguard, htail⟩
  | destructorEnd x =>
    exact h.push (pushes_handOn h fun y => by simp [Instr.givesBack]) ⟨hguard, htail⟩
  | destructorParent x o ho =>
    refine h.push (pushes_handOn h fun y => ?_) ?_
    · split <;> simp [Instr.givesBack]
    · split
      · exact ⟨trivial, hguard, htail⟩
      · exact ⟨trivial, trivial, hguard, htail⟩
  | free x o ho =>
    refine ⟨htail, ?_, ?_⟩
    · intro y o ho
      rw [World.free_object] at ho
      split at ho
      · simp at ho
      rename_i hy
      have hcount := h.counted y o ho
      simpa [Instr.givesBack, Ne.symm hy] using hcount
    · intro y hy
      rw [nil_append] at hy
      rw [World.free_object]
      split
      · rename_i hyx
        have hzero : holds rest x = 0 := hguard
        rw [hyx, hzero] at hy
        exact absurd hy (Nat.lt_irrefl 0)
      · refine h.live y ?_
        rw [holds_cons]
        omega

theorem Frames.pushFree {u : World} (h : Frames w stack) (hshift : Shifts w u d)
    (hstack : StackOk (l ++ stack)) (hlive : ∀ x, 0 < holds l x → w.object x ≠ none)
    (hcount : ∀ x, w.object x ≠ none → (holds l x : Int) = d x) : Frames u (l ++ stack) := by
  have huser : Frames w (.user :: stack) :=
    ⟨⟨trivial, h.stackOk⟩, fun x o ho => by simpa [Instr.givesBack] using h.counted x o ho,
      fun x hx => h.live x (by simpa [Instr.givesBack] using hx)⟩
  exact huser.replace hshift hstack hlive fun x hx => by simpa [Instr.givesBack] using hcount x hx

/-- A new object has nothing on the stack but what made it. -/
theorem add_frames (h : Frames w stack) (hfresh : w.object w.fresh = none) (parent : Option Id)
    (isRef : Bool) :
    Frames (w.add parent isRef).1 ((w.add parent isRef).2 ++ stack) := by
  unfold World.add
  split
  · exact h
  dsimp only
  have hnew : holds stack w.fresh = 0 := by
    by_contra hpos
    exact h.live w.fresh (Nat.pos_of_ne_zero hpos) hfresh
  have hfront (is : List Instr) (his : ∀ j ∈ is, j.Free ∧ ∀ y, j.givesBack y = 0) :
      StackOk (is ++ stack) ∧ ∀ y, holds is y = 0 := by
    refine ⟨stackOk_free h.stackOk fun j hj => (his j hj).1, ?_⟩
    intro y
    unfold holds
    rw [List.sum_eq_zero_iff_forall_eq_nat]
    intro n hn
    obtain ⟨j, hj, rfl⟩ := mem_map.mp hn
    exact (his j hj).2 y
  have hbehind := hfront (if isRef then [] else [.unref w.fresh]) (by
    intro j hj
    split at hj
    · simp at hj
    · rw [mem_singleton.mp hj]
      exact ⟨fun _ => trivial, fun _ => rfl⟩)
  generalize (if isRef = true then [] else [Instr.unref w.fresh]) = behind at hbehind
  have hstack : StackOk ((if parent = none then [] else [.callParentSet w.fresh parent]) ++
      [.user, .unrefInternal w.fresh] ++ behind ++ stack) := by
    rw [append_assoc, append_assoc]
    refine stackOk_free ⟨trivial, trivial, hbehind.1⟩ ?_
    intro j hj
    split at hj
    · simp at hj
    · rw [mem_singleton.mp hj]
      exact fun _ => trivial
  have hcount (y : Id) : holds ((if parent = none then [] else [.callParentSet w.fresh parent]) ++
      [.user, .unrefInternal w.fresh] ++ behind ++ stack) y =
        (if w.fresh = y then 1 else 0) + holds stack y := by
    rw [holds_append, holds_append, hbehind.2]
    split <;> simp [Instr.givesBack]
  refine ⟨hstack, ?_, ?_⟩
  · intro y o ho
    dsimp only at ho
    rw [hcount]
    split at ho
    · rename_i hy
      obtain rfl := Option.some.inj ho
      rw [hy, if_pos rfl, hnew]
      rfl
    · rename_i hy
      rw [if_neg (Ne.symm hy), Nat.zero_add]
      exact h.counted y o ho
  · intro y hy
    dsimp only
    rw [hcount] at hy
    split
    · simp
    rename_i hne
    rw [if_neg (Ne.symm hne), Nat.zero_add] at hy
    exact h.live y hy

theorem call_frames {c : Call} (h : Frames w stack) (hfresh : w.object w.fresh = none)
    (hcall : call w c = some r) :
    Frames r.1 (r.2 ++ stack) := by
  have huser (i : Instr) (hi : i.Free) (hzero : ∀ y, i.givesBack y = 0) : Frames w (i :: stack) :=
    ⟨⟨hi _, h.stackOk⟩, fun x o ho => by simpa [hzero] using h.counted x o ho,
      fun x hx => h.live x (by simpa [hzero] using hx)⟩
  cases c with
  | add parent isRef =>
    cases hcall
    exact add_frames h hfresh parent isRef
  | parentSet x parent =>
    exact exec_frames (huser (.callParentSet x parent) (fun _ => trivial) fun _ => rfl) hcall
  | del x =>
    cases hcall
    obtain ⟨hpush, hfree⟩ := del_pushes w x
    exact (huser .user (fun _ => trivial) fun _ => rfl).push hpush (stackOk_free h.stackOk hfree)
  | ref x =>
    simp only [call] at hcall
    split at hcall
    · cases hcall
      exact h
    cases hcall
    exact h.pushFree (shifts_ref w x) h.stackOk
      (fun _ hy => absurd hy (by simp)) fun _ _ => rfl
  | unref x => exact exec_frames (huser (.unref x) (fun _ => trivial) fun _ => rfl) hcall
  | invalidate x =>
    simp only [call] at hcall
    split at hcall
    · cases hcall
      exact h
    rename_i hx
    cases hcall
    refine h.pushFree (shifts_addRef w x) ⟨trivial, ?_, trivial, h.stackOk⟩ ?_ ?_
    · show 0 < holds (.unrefInternal x :: stack) x
      rw [holds_cons, unrefInternal_givesBack, if_pos rfl]
      omega
    · intro y hy
      by_cases hne : y = x
      · rw [hne]
        exact hx
      · simp [Instr.givesBack, Ne.symm hne] at hy
    · intro y
      by_cases hy : y = x
      · simp [Instr.givesBack, hy]
      · simp [Instr.givesBack, hy, Ne.symm hy]

/-- **One step keeps the references in order.** -/
theorem step_frames {m m' : Machine} {op : Op} (h : Frames m.world m.stack)
    (hfresh : m.world.object m.world.fresh = none) (hstep : m.step op = some m') :
    Frames m'.world m'.stack := by
  obtain ⟨w, stack⟩ := m
  unfold Machine.step at hstep
  cases op with
  | call c =>
    dsimp only at hstep
    split at hstep
    · obtain ⟨r, hr, rfl⟩ := Option.map_eq_some_iff.mp hstep
      exact call_frames h hfresh hr
    · simp at hstep
  | ret =>
    dsimp only at hstep
    split at hstep
    · cases hstep
      refine ⟨h.stackOk.tail, ?_, ?_⟩
      · intro x o ho
        simpa [Instr.givesBack] using h.counted x o ho
      · intro x hx
        exact h.live x (by simpa [Instr.givesBack] using hx)
    · simp at hstep
  | go =>
    dsimp only at hstep
    split at hstep
    · simp at hstep
    · obtain ⟨r, hr, rfl⟩ := Option.map_eq_some_iff.mp hstep
      exact exec_frames h hr

theorem start_frames : Frames start.world start.stack :=
  ⟨trivial, fun _ _ ho => absurd ho (by simp [start]), fun _ hx => absurd hx (by simp [start])⟩

end Eo.Life
