/-
Climbing from one element to the next, as a partial function says.

Where nothing is above itself and only finitely many elements are above others, every climb comes
to an end.  One edge more keeps that, as long as its lower end is not above its upper end.
-/
import Mathlib.Data.Set.Finite.Basic

namespace Climb

open Relation

variable {α : Type} {up up' : α → Option α} {x p : α}

/-- `b` is next above `a`. -/
def Next (up : α → Option α) (a b : α) : Prop := up a = some b

/-- Nothing is above itself. -/
def Acyclic (up : α → Option α) : Prop := ∀ x, ¬TransGen (Next up) x x

theorem Acyclic.mono (h : Acyclic up) (hsub : ∀ a b, up' a = some b → up a = some b) :
    Acyclic up' :=
  fun x hx => h x (TransGen.mono hsub x x hx)

theorem reaches_or (hup : ∀ a b, up' a = some b → up a = some b ∨ (a = x ∧ b = p)) {a b : α}
    (h : ReflTransGen (Next up') a b) :
    ReflTransGen (Next up) a b ∨ (ReflTransGen (Next up) a x ∧ ReflTransGen (Next up) p b) := by
  induction h with
  | refl => exact .inl ReflTransGen.refl
  | tail _ hedge ih =>
    rename_i c d _
    rcases hup c d hedge with hold | ⟨rfl, rfl⟩
    · rcases ih with ih | ⟨hfirst, hlast⟩
      · exact .inl (ih.tail hold)
      · exact .inr ⟨hfirst, hlast.tail hold⟩
    · rcases ih with ih | ⟨hfirst, -⟩
      · exact .inr ⟨ih, ReflTransGen.refl⟩
      · exact .inr ⟨hfirst, ReflTransGen.refl⟩

/-- **A new edge makes no cycle**, if its lower end is not above its upper end. -/
theorem Acyclic.add (h : Acyclic up) (hup : ∀ a b, up' a = some b → up a = some b ∨ (a = x ∧ b = p))
    (hp : ¬ReflTransGen (Next up) p x) : Acyclic up' := by
  intro y hy
  obtain ⟨z, hfirst, hrest⟩ := TransGen.head'_iff.mp hy
  rcases hup y z hfirst with hold | ⟨rfl, rfl⟩
  · rcases reaches_or hup hrest with hpath | ⟨hbefore, hafter⟩
    · exact h y (TransGen.head' hold hpath)
    · have hstep : Next up y z := hold
      exact hp (hafter.trans (ReflTransGen.head hstep hbefore))
  · rcases reaches_or hup hrest with hpath | ⟨-, hafter⟩
    · exact hp hpath
    · exact hp hafter

/-- **Every climb comes to an end.** -/
theorem Acyclic.wellFounded (h : Acyclic up) {s : Set α} (hs : s.Finite)
    (hmem : ∀ a b, up a = some b → b ∈ s) : WellFounded fun b a => up a = some b := by
  have : Finite s := hs
  let above (b a : s) : Prop := TransGen (Next up) a.1 b.1
  have : IsTrans s above := ⟨fun _ _ _ hab hbc => TransGen.trans hbc hab⟩
  have : Std.Irrefl above := ⟨fun a ha => h a.1 ha⟩
  have hwf : WellFounded above := Finite.wellFounded_of_trans_of_irrefl above
  have hacc (b : s) : Acc (fun b a => up a = some b) b.1 := by
    induction b using hwf.induction with
    | _ b ih =>
      refine Acc.intro b.1 ?_
      intro c hc
      exact ih ⟨c, hmem b.1 c hc⟩ (TransGen.single hc)
  refine ⟨fun a => Acc.intro a ?_⟩
  intro b hb
  exact hacc ⟨b, hmem a b hb⟩

end Climb
