/-
`eina_file_path_sanitize` of an absolute path: what it is for, and when it does that.

A component that is pushed without being looked at may be empty, `.` or `..`.  It is then taken
for a directory: it stays in the path, or a later `..` removes it in place of the directory
before it.  Either is only made good if the path comes back to the root behind it, where there
is nothing left to be wrong (`Mended`).
-/
import Efl.Eina.FilePath.Escape

namespace Eina.FilePath

open Separated List

/-- The components of a path that begins with a slash. -/
def components (path : List UInt8) : List (List UInt8) := (path.drop 1).splitOn 47

/-- One component more, as names of directories. -/
def resolveStep (at' : List (List UInt8)) (c : List UInt8) : List (List UInt8) :=
  if c = [] ∨ c = dot then at' else if c = dotdot then at'.dropLast else at' ++ [c]

/-- **Lexical resolution**: empty components and `.` are dropped, `..` removes the component
    before it and does nothing at the root. -/
def resolve (cs : List (List UInt8)) : List (List UInt8) := cs.foldl resolveStep []

/-- What is asked of the call: none of the three substrings, the same components, and a second
    call changes nothing. -/
def Sanitizes (cwd : Option (List UInt8)) (path : List UInt8) : Prop :=
  ∃ out, Outcome.Ends (pathSanitize cwd path) out ∧
    ¬[47, 47] <:+: out ∧ ¬[47, 46, 47] <:+: out ∧ ¬[47, 46, 46, 47] <:+: out ∧
    resolve (components out) = resolve (components path) ∧
    Outcome.Ends (pathSanitize cwd out) out

/-- An absolute path. -/
structure AbsolutePath where
  bytes : List UInt8
  absolute : bytes.head? = some 47
  string : 0 ∉ bytes

/-- No name of a directory. -/
def Special (c : List UInt8) : Prop := c = [] ∨ c = dot ∨ c = dotdot

instance : DecidablePred Special :=
  fun c => inferInstanceAs (Decidable (c = [] ∨ c = dot ∨ c = dotdot))

/-- Whether the walk over the components comes out right, where it is `depth` components below
    the root, and `stained` if a special component behind a `.` was taken for one of them: such
    a stain is gone when the walk is at the root again.  The last component must not be `..`
    behind a `.`. -/
def mended (stained : Bool) (depth : Nat) : List (List UInt8) → Bool
  | [] => true
  | [c] => if c = dotdot then !(stained && decide (1 < depth)) else !stained
  | c :: d :: rest =>
    if c = [] then mended stained depth (d :: rest)
    else if c = dotdot then mended (stained && decide (1 < depth)) (depth - 1) (d :: rest)
    else if c = dot then
      if rest = [] then decide (d ≠ dotdot) && !stained
      else mended (stained || decide (Special d)) (depth + 1) rest
    else mended stained (depth + 1) (d :: rest)

/-- Every special component that follows a `.` is made good: the path comes back to the root
    behind it. -/
def Mended (cs : List (List UInt8)) : Prop := mended false 0 cs = true

/-! ### The walk and the resolution -/

variable {kept at' cs rest : List (List UInt8)} {c d : List UInt8} {stained : Bool} {depth : Nat}
  {path : List UInt8} (cwd : Option (List UInt8))

/-- What the walk has kept, against the directory that the path names so far. -/
structure Against (kept at' : List (List UInt8)) (stained : Bool) (depth : Nat) : Prop where
  depth : depth = kept.length
  clean : stained = false → kept = at' ∧ ∀ c ∈ kept, ¬Special c
  stain : stained = true → at'.length < kept.length

theorem Against.length_le (h : Against kept at' stained depth) : at'.length ≤ kept.length := by
  cases hs : stained with
  | true => exact le_of_lt (h.stain hs)
  | false => rw [(h.clean hs).1]

theorem Against.push (h : Against kept at' stained depth) (hc : ¬Special c) :
    Against (kept ++ [c]) (at' ++ [c]) stained (depth + 1) where
  depth := by simp [h.depth]
  clean := by
    intro hs
    obtain ⟨heq, hclean⟩ := h.clean hs
    refine ⟨by rw [heq], ?_⟩
    intro e he
    rcases mem_append.mp he with he | he
    · exact hclean e he
    · rwa [mem_singleton.mp he]
  stain := by
    intro hs
    have hlt := h.stain hs
    simp
    omega

theorem Against.pop (h : Against kept at' stained depth) :
    Against kept.dropLast at'.dropLast (stained && decide (1 < depth)) (depth - 1) := by
  have hdepth := h.depth
  refine ⟨by simp [hdepth], ?_, ?_⟩
  · intro hs
    cases hstained : stained with
    | false =>
      obtain ⟨heq, hclean⟩ := h.clean hstained
      exact ⟨by rw [heq], fun e he => hclean e ((dropLast_sublist _).subset he)⟩
    | true =>
      have hlt := h.stain hstained
      have hroot : ¬1 < depth := by simpa [hstained] using hs
      have hkept : kept.dropLast = [] := length_eq_zero_iff.mp (by simp; omega)
      have hat : at' = [] := length_eq_zero_iff.mp (by omega)
      rw [hkept, hat]
      simp
  · intro hs
    simp only [Bool.and_eq_true, decide_eq_true_eq] at hs
    have hlt := h.stain hs.1
    simp only [length_dropLast]
    omega

theorem Against.stains (h : Against kept at' stained depth) (hd : Special d) :
    Against (kept ++ [d]) (resolveStep at' d) true (depth + 1) := by
  have hle := h.length_le
  refine ⟨by simp [h.depth], fun hs => absurd hs (by simp), fun _ => ?_⟩
  have hstep : (resolveStep at' d).length ≤ at'.length := by
    rw [resolveStep]
    rcases hd with rfl | rfl | rfl
    · simp
    · simp
    · simp [dot, dotdot]
  simp
  omega

theorem resolveStep_name (hc : ¬Special c) : resolveStep at' c = at' ++ [c] := by
  have h01 : ¬(c = [] ∨ c = dot) := fun h => hc (h.elim .inl fun h => .inr (.inl h))
  have h2 : c ≠ dotdot := fun h => hc (.inr (.inr h))
  rw [resolveStep, if_neg h01, if_neg h2]

theorem foldl_names (h : ∀ c ∈ cs, ¬Special c) : ∀ at', cs.foldl resolveStep at' = at' ++ cs := by
  induction cs with
  | nil => simp
  | cons c cs ih =>
    intro at'
    rw [foldl_cons, resolveStep_name (h c (by simp)), ih fun e he => h e (by simp [he])]
    simp

theorem escapeComponents_name (hc : ¬Special c) : escapeComponents kept (c :: d :: rest) =
    escapeComponents (kept ++ [c]) (d :: rest) := by
  have h0 : c ≠ [] := fun h => hc (.inl h)
  have h1 : c ≠ dot := fun h => hc (.inr (.inl h))
  have h2 : c ≠ dotdot := fun h => hc (.inr (.inr h))
  rw [escapeComponents, if_neg h0, if_neg h2, if_neg h1]

theorem escapeComponents_names (h : ∀ c ∈ cs, ¬Special c) : ∀ kept,
    escapeComponents kept (cs ++ [d]) = escapeComponents (kept ++ cs) [d] := by
  induction cs with
  | nil => simp
  | cons c cs ih =>
    intro kept
    obtain ⟨e, rest, he⟩ := exists_cons_of_ne_nil (show cs ++ [d] ≠ [] by simp)
    rw [cons_append, he, escapeComponents_name (h c (by simp)), ← he,
      ih fun e he => h e (by simp [he])]
    simp

/-- What is asked of the components that are kept in the end, where the path names `dir`. -/
def Good (out dir : List (List UInt8)) : Prop :=
  (∀ c ∈ out.dropLast, ¬Special c) ∧ resolve out = dir ∧ escapeComponents [] out = out

theorem Against.good_iff (h : Against kept at' stained depth) (hc : c ≠ dotdot) :
    Good (kept ++ [c]) (resolveStep at' c) ↔ stained = false := by
  have hresolve : (∀ e ∈ kept, ¬Special e) → resolve (kept ++ [c]) = resolveStep kept c := by
    intro hclean
    rw [resolve, foldl_append, foldl_names hclean]
    rfl
  constructor
  · rintro ⟨hclean, hto, -⟩
    rw [dropLast_concat] at hclean
    rw [hresolve hclean] at hto
    by_contra hs
    have hlt := h.stain (by simpa using hs)
    have hlength := congrArg length hto
    simp only [resolveStep] at hlength
    split at hlength
    · omega
    · simp at hlength
      omega
  · intro hs
    obtain ⟨rfl, hclean⟩ := h.clean hs
    refine ⟨by rwa [dropLast_concat], hresolve hclean, ?_⟩
    rw [escapeComponents_names hclean, nil_append, escapeComponents, if_neg hc]

theorem not_good_dotdot (dir : List (List UInt8)) : ¬Good (kept ++ [dotdot]) dir := by
  rintro ⟨hclean, -, hagain⟩
  rw [dropLast_concat] at hclean
  rw [escapeComponents_names hclean] at hagain
  have hlast := append_inj_right' hagain rfl
  exact absurd hlast (by decide)

/-- **The walk comes out right exactly when every stain is made good.** -/
theorem Against.escapeComponents_good : ∀ n cs kept at' stained depth, cs.length ≤ n → cs ≠ [] →
    Against kept at' stained depth →
    (Good (escapeComponents kept cs) (cs.foldl resolveStep at') ↔
      mended stained depth cs = true) := by
  intro n
  induction n with
  | zero =>
    intro cs kept at' stained depth hn hne
    exact absurd (length_eq_zero_iff.mp (by omega)) hne
  | succ n ih =>
    intro cs kept at' stained depth hn hne h
    rcases cs with _ | ⟨c, _ | ⟨d, rest⟩⟩
    · exact absurd rfl hne
    · by_cases hc : c = dotdot
      · subst hc
        have hgood := h.pop.good_iff (show [] ≠ dotdot by decide)
        rw [mended, if_pos rfl, Bool.not_eq_true']
        exact hgood
      · rw [escapeComponents, if_neg hc, mended, if_neg hc, Bool.not_eq_true']
        exact h.good_iff hc
    · simp only [length_cons] at hn
      rw [mended, foldl_cons]
      by_cases h0 : c = []
      · subst h0
        exact ih (d :: rest) kept at' stained depth (by simp; omega) (by simp) h
      by_cases h2 : c = dotdot
      · subst h2
        exact ih (d :: rest) _ _ _ _ (by simp; omega) (by simp) h.pop
      by_cases h1 : c = dot
      · subst h1
        rw [escapeComponents, if_neg h0, if_neg h2, if_pos rfl, if_neg h0, if_neg h2, if_pos rfl,
          foldl_cons]
        by_cases hrest : rest = []
        · rw [if_pos hrest, hrest, escapeComponents]
          by_cases hd : d = dotdot
          · subst hd
            simpa using not_good_dotdot _
          · rw [decide_eq_true hd, Bool.true_and, Bool.not_eq_true']
            exact h.good_iff hd
        · rw [if_neg hrest]
          by_cases hd : Special d
          · rw [decide_eq_true hd, Bool.or_true]
            exact ih rest _ _ _ _ (by omega) hrest (h.stains hd)
          · rw [decide_eq_false hd, Bool.or_false, resolveStep_name hd]
            exact ih rest _ _ _ _ (by omega) hrest (h.push hd)
      · have hc : ¬Special c := fun h => h.elim h0 fun h => h.elim h1 h2
        rw [escapeComponents_name hc, if_neg h0, if_neg h2, if_neg h1, resolveStep_name hc]
        exact ih (d :: rest) _ _ _ _ (by simp; omega) (by simp) (h.push hc)

/-! ### Strings -/

theorem mem_escapeComponents (h : c ∈ escapeComponents kept cs) :
    c ∈ kept ∨ c ∈ cs ∨ c = [] := by
  fun_induction escapeComponents kept cs <;> grind [mem_of_mem_dropLast]

theorem escapeComponents_ne_nil (h : kept ≠ [] ∨ cs ≠ []) : escapeComponents kept cs ≠ [] := by
  fun_induction escapeComponents kept cs <;> simp_all

theorem render_components (h : path.head? = some 47) :
    render 47 (components path) = path := by
  obtain ⟨tail, rfl⟩ : ∃ tail, path = 47 :: tail := by
    cases path with
    | nil => simp at h
    | cons a tail => exact ⟨tail, by rw [Option.some.inj h]⟩
  exact render_splitOn 47 tail

theorem names_components (h : 0 ∉ path) : Names (components path) := by
  intro c hc
  refine ⟨words_splitOn 47 _ c hc, fun h0 => h ?_⟩
  have hmem : 0 ∈ render 47 ((path.drop 1).splitOn 47) :=
    mem_flatMap.mpr ⟨c, hc, mem_cons_of_mem _ h0⟩
  rw [render_splitOn] at hmem
  exact (drop_sublist 1 path).subset ((mem_cons.mp hmem).resolve_left (by decide))

theorem components_render (h : Names cs) (hne : cs ≠ []) : components (render 47 cs) = cs := by
  obtain ⟨c, rest, rfl⟩ := exists_cons_of_ne_nil hne
  exact splitOn_render fun c hc => (h c hc).1

/-- **The call on an absolute path** returns the components that the walk keeps. -/
theorem pathSanitize_ends (hne : cs ≠ []) (h : Names cs) :
    Outcome.Ends (pathSanitize cwd (render 47 cs)) (render 47 (escapeComponents [] cs)) := by
  obtain ⟨c, rest, rfl⟩ := exists_cons_of_ne_nil hne
  obtain ⟨m, hends, hm⟩ := Head.escapeLoop_ends _ [] (c :: rest)
    ⟨render 47 (c :: rest) ++ [0], (render 47 (c :: rest)).length, 0, 0⟩ (le_rfl)
    ⟨h, ⟨[], rfl⟩, by simp, ⟨[], [], rfl, rfl, by simp⟩, rfl⟩
  have hreturn : Outcome.Ends (fun fuel => pathSanitize cwd (render 47 (c :: rest)) fuel)
      (string m) := hends.bind (Outcome.ends_const (string m))
  rwa [hm] at hreturn

/-- **The call does what it is for exactly when every special component behind a `.` is made
    good.** -/
theorem pathSanitize_sanitizes_iff (path : AbsolutePath) :
    Sanitizes cwd path.bytes ↔ Mended (components path.bytes) := by
  have hnames := names_components path.string
  have hne : components path.bytes ≠ [] := splitOn_ne_nil _ _
  obtain ⟨cs, hcs⟩ : ∃ cs, components path.bytes = cs := ⟨_, rfl⟩
  have hrender := render_components path.absolute
  rw [hcs] at hnames hne hrender ⊢
  have hends := pathSanitize_ends cwd hne hnames
  have hout : Names (escapeComponents [] cs) := by
    intro c hc
    rcases mem_escapeComponents hc with h | h | rfl
    · simp at h
    · exact hnames c h
    · simp
  have houtne : escapeComponents [] cs ≠ [] := escapeComponents_ne_nil (.inr hne)
  have hagain := pathSanitize_ends cwd houtne hout
  have hback := components_render hout houtne
  have hgood := Against.escapeComponents_good _ cs [] [] false 0 (le_rfl) hne
    ⟨rfl, fun _ => ⟨rfl, by simp⟩, by simp⟩
  have hinfix : ∀ y, 47 ∉ y → (47 :: (y ++ [47]) <:+: render 47 (escapeComponents [] cs) ↔
      y ∈ (escapeComponents [] cs).dropLast) :=
    fun y hy => infix_render_iff (fun c hc => (hout c hc).1) hy
  have hspecial : (∀ c ∈ (escapeComponents [] cs).dropLast, ¬Special c) ↔
      ¬[47, 47] <:+: render 47 (escapeComponents [] cs) ∧
      ¬[47, 46, 47] <:+: render 47 (escapeComponents [] cs) ∧
      ¬[47, 46, 46, 47] <:+: render 47 (escapeComponents [] cs) := by
    have h0 := hinfix [] (by simp)
    have h1 := hinfix dot (by decide)
    have h2 := hinfix dotdot (by decide)
    simp only [dot, dotdot, nil_append, cons_append] at h0 h1 h2
    rw [h0, h1, h2]
    constructor
    · intro h
      exact ⟨fun hm => h _ hm (.inl rfl), fun hm => h _ hm (.inr (.inl rfl)),
        fun hm => h _ hm (.inr (.inr rfl))⟩
    · rintro ⟨h0, h1, h2⟩ c hc (rfl | rfl | rfl)
      · exact h0 hc
      · exact h1 hc
      · exact h2 hc
  rw [Mended, ← hgood, Good, hspecial]
  rw [hrender] at hends
  constructor
  · rintro ⟨out, hcall, h0, h1, h2, hsame, htwice⟩
    obtain rfl := hcall.unique hends
    rw [hback, hcs] at hsame
    refine ⟨⟨h0, h1, h2⟩, hsame, ?_⟩
    have hequal := congrArg components (hagain.unique htwice)
    rwa [hback, components_render (fun c hc => ?_) (escapeComponents_ne_nil (.inr houtne))]
      at hequal
    rcases mem_escapeComponents hc with h | h | rfl
    · simp at h
    · exact hout c h
    · simp
  · rintro ⟨⟨h0, h1, h2⟩, hsame, htwice⟩
    rw [htwice] at hagain
    exact ⟨_, hends, h0, h1, h2, by rw [hback, hcs]; exact hsame, hagain⟩

/-- `/usr/./lib/../bin//x` -/
def usrBin : AbsolutePath where
  bytes := [47, 117, 115, 114, 47, 46, 47, 108, 105, 98, 47, 46, 46, 47, 98, 105, 110, 47, 47, 120]
  absolute := rfl
  string := by decide

theorem pathSanitize_sanitizes_iff_usrBin : Sanitizes none usrBin.bytes := by
  have hmended : Mended (components usrBin.bytes) := by
    unfold Mended
    decide
  exact (pathSanitize_sanitizes_iff none usrBin).mpr hmended

theorem sanitize_dot_slashes : ¬Sanitizes none [47, 46, 47, 47, 97] := by
  rintro ⟨out, ⟨n, hn⟩, h0, -⟩
  have hout : out = [47, 47, 97] := by
    have hrun := hn (n + 4) (by omega)
    exact (Outcome.returns.inj hrun).symm
  exact h0 (hout ▸ ⟨[], [97], rfl⟩)

end Eina.FilePath
