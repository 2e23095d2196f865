/-
Lists of words, each written behind a separator.
-/
import Mathlib.Data.List.Infix
import Mathlib.Data.List.Flatten

namespace Separated

open List

variable {α : Type} [DecidableEq α] {x : α} {c y z : List α} {cs ds : List (List α)}

/-- Each word behind a separator. -/
def render (x : α) (cs : List (List α)) : List α := cs.flatMap (x :: ·)

/-- No word holds the separator. -/
def Words (x : α) (cs : List (List α)) : Prop := ∀ c ∈ cs, x ∉ c

omit [DecidableEq α] in
@[simp] theorem render_nil : render x [] = [] := rfl

omit [DecidableEq α] in
@[simp] theorem render_cons : render x (c :: cs) = x :: (c ++ render x cs) := rfl

omit [DecidableEq α] in
@[simp] theorem render_append : render x (cs ++ ds) = render x cs ++ render x ds := by
  simp only [render, flatMap_append]

omit [DecidableEq α] in
theorem render_eq_intercalate : ∀ (c : List α) (cs : List (List α)),
    render x (c :: cs) = x :: [x].intercalate (c :: cs) := by
  intro c cs
  induction cs generalizing c with
  | nil => simp [render]
  | cons d cs ih =>
    rw [render_cons, ih]
    simp

theorem splitOn_render (h : Words x (c :: cs)) :
    ((render x (c :: cs)).drop 1).splitOn x = c :: cs := by
  rw [render_eq_intercalate]
  exact splitOn_intercalate x h (by simp)

theorem render_splitOn (x : α) (xs : List α) : render x (xs.splitOn x) = x :: xs := by
  obtain ⟨c, cs, hc⟩ := exists_cons_of_ne_nil (splitOn_ne_nil x xs)
  have hback : [x].intercalate (xs.splitOn x) = xs := intercalate_splitOn x
  rw [hc] at hback ⊢
  rw [render_eq_intercalate, hback]

theorem words_splitOn (x : α) (xs : List α) : Words x (xs.splitOn x) := by
  induction xs with
  | nil => simp [Words]
  | cons y ys ih =>
    intro c hc
    rw [splitOn_cons_eq_if_modifyHead] at hc
    by_cases hy : y = x
    · subst hy
      simp only [BEq.rfl, if_true, mem_cons] at hc
      rcases hc with rfl | hc
      · simp
      · exact ih c hc
    · have hbeq : (y == x) = false := by simpa using hy
      rw [hbeq] at hc
      obtain ⟨d, ds, hd⟩ := exists_cons_of_ne_nil (splitOn_ne_nil x ys)
      rw [hd] at hc ih
      simp only [Bool.false_eq_true, if_false, modifyHead_cons, mem_cons] at hc
      rcases hc with rfl | hc
      · have hd' := ih d (by simp)
        simp [hd', Ne.symm hy]
      · exact ih c (by simp [hc])

omit [DecidableEq α] in
theorem infix_word_append (hc : x ∉ c) : x :: y <:+: c ++ z ↔ x :: y <:+: z := by
  induction c with
  | nil => rfl
  | cons a c ih =>
    have ha : x ≠ a := fun h => hc (by simp [h])
    have hc' : x ∉ c := fun h => hc (by simp [h])
    rw [cons_append, infix_cons_iff, ih hc']
    constructor
    · rintro (h | h)
      · obtain ⟨hxa, -⟩ := cons_prefix_cons.mp h
        exact absurd hxa ha
      · exact h
    · exact .inr

/-- **A word with a separator at both sides is one of the words before the last.** -/
theorem infix_render_iff (h : Words x cs) (hy : x ∉ y) :
    x :: (y ++ [x]) <:+: render x cs ↔ y ∈ cs.dropLast := by
  induction cs with
  | nil => simp
  | cons c cs ih =>
    have hc : x ∉ c := h c (by simp)
    have hcs : Words x cs := fun d hd => h d (by simp [hd])
    rw [render_cons, infix_cons_iff, infix_word_append hc, ih hcs,
      cons_prefix_cons, and_iff_right rfl]
    cases cs with
    | nil =>
      simp only [render_nil, append_nil, dropLast_nil, not_mem_nil, or_false,
        dropLast_singleton, iff_false]
      intro hfront
      exact hc (hfront.subset (by simp))
    | cons d cs =>
      rw [dropLast_cons_cons, mem_cons]
      refine or_congr_left ⟨fun hfront => ?_, ?_⟩
      · obtain ⟨rest, hrest⟩ := hfront
        have htake : ∀ (w rest : List α), x ∉ w →
            (w ++ x :: rest).takeWhile (fun a => decide (a ≠ x)) = w := by
          intro w rest hw
          induction w with
          | nil => simp
          | cons a w ihw =>
            have ha : a ≠ x := fun h => hw (by simp [h])
            rw [cons_append, takeWhile_cons_of_pos (by simpa using ha),
              ihw fun h => hw (by simp [h])]
        have heq : (y ++ x :: rest) = c ++ x :: (d ++ render x cs) := by
          simpa using hrest
        rw [← htake y rest hy, heq, htake c _ hc]
      · rintro rfl
        exact ⟨d ++ render x cs, by simp⟩

end Separated
