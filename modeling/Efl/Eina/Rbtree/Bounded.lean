/-
The tree as its users see it: insertion and removal on trees, undefined when the
path does not fit into the stack, and the inline lookup.

`IsTree cmp t` is what every tree built by these calls satisfies when `cmp` sorts
its nodes, ties allowed.  A tie is sent to the right by the search, but a rotation
may have put the node on the left of one it ties with.  Such a node is shadowed: it
is in the tree and no search that follows `cmp` meets it (`removePath_isSome_iff`).
-/
import Efl.Eina.Rbtree.RefineRemove

namespace Eina.Rbtree

open RedBlack List

variable {α : Type}

/-- A node comes before its sons, and `son[1]` before `son[0]`: the order of
`eina_rbtree_iterator_prefix`. -/
def prefixOrder : Tree α → List α
  | .nil => []
  | .node _ l a r => a :: (prefixOrder r ++ prefixOrder l)

theorem prefixOrder_perm (t : Tree α) : (prefixOrder t).Perm t.toList := by
  induction t with
  | nil => exact List.Perm.refl _
  | node c l a r ihl ihr =>
    refine List.Perm.trans ?_ perm_middle.symm
    exact ((ihr.append ihl).trans perm_append_comm).cons a

/-- A red-black tree without repetition whose order agrees with `cmp`. -/
structure IsTree (cmp : α → α → Direction) (t : Tree α) : Prop where
  nodup : t.toList.Nodup
  ordered : t.Ordered cmp
  root : t.color = .black
  balanced : ∃ n, t.Balanced n

theorem IsTree.nil (cmp : α → α → Direction) : IsTree cmp .nil :=
  ⟨nodup_nil, List.Pairwise.nil, rfl, 0, rfl⟩

variable {cmp : α → α → Direction} {t : Tree α} {x : α} {m : Mem α}

theorem IsTree.insert (hc : Sorts cmp) (h : IsTree cmp t) (hx : x ∉ t.toList) :
    IsTree cmp (inlineInsert cmp t x) := by
  obtain ⟨n, hn⟩ := h.balanced
  exact ⟨nodup_inlineInsert cmp h.nodup hx, ordered_inlineInsert hc h.ordered hx,
    color_inlineInsert cmp t x, balanced_inlineInsert cmp hn⟩

theorem IsTree.remove [DecidableEq α] (x : α) (h : IsTree cmp t) :
    IsTree cmp (inlineRemove cmp t x) := by
  obtain ⟨n, hn⟩ := h.balanced
  exact ⟨nodup_inlineRemove h.nodup, ordered_inlineRemove h.ordered,
    color_inlineRemove cmp x h.root, balanced_inlineRemove cmp hn⟩

theorem IsTree.congr {cmp' : α → α → Direction} (h : IsTree cmp t)
    (heq : ∀ a ∈ t.toList, ∀ b ∈ t.toList, cmp' a b = cmp a b) : IsTree cmp' t := by
  refine ⟨h.nodup, ?_, h.root, h.balanced⟩
  refine List.Pairwise.imp_of_mem ?_ h.ordered
  intro a b ha hb hab
  rw [heq a ha b hb]
  exact hab

/-! ### How deep a path can get -/

theorem length_insertPath_le (cmp : α → α → Direction) (x : α) (t : Tree α) :
    ∀ path : List (Frame α), (insertPath cmp x t path).length ≤ path.length + t.height := by
  induction t with
  | nil =>
    intro path
    exact Nat.le_add_right _ _
  | node c l q r ihl ihr =>
    intro path
    rw [insertPath, RedBlack.Tree.height]
    split
    · have h := ihl (⟨c, q, .left, r⟩ :: path)
      rw [length_cons] at h
      omega
    · have h := ihr (⟨c, q, .right, l⟩ :: path)
      rw [length_cons] at h
      omega

theorem length_leftmost_le (l : Tree α) : ∀ (c : Color) (q : α) (r : Tree α)
    (path : List (Frame α)), (leftmost c l q r path).path.length ≤ path.length + l.height := by
  induction l with
  | nil =>
    intro c q r path
    exact Nat.le_add_right _ _
  | node lc ll la lr ihl _ =>
    intro c q r path
    have h := ihl lc la lr (⟨c, q, .left, r⟩ :: path)
    rw [length_cons] at h
    rw [leftmost, RedBlack.Tree.height]
    omega

theorem foundDepth_le (t : Tree α) : foundDepth t ≤ t.height := by
  unfold foundDepth
  split
  · rename_i rc rl ra rr
    have h := length_leftmost_le rl rc ra rr []
    rw [length_nil] at h
    simp only [RedBlack.Tree.height]
    omega
  · exact Nat.zero_le _

theorem searchDepth_le [DecidableEq α] (cmp : α → α → Direction) (x : α) (t : Tree α) :
    ∀ path : List (Frame α), searchDepth cmp x t +
      (match removePath cmp x t path with
        | none => 0
        | some (_, u) => u.height) ≤ t.height := by
  induction t with
  | nil =>
    intro path
    exact le_refl _
  | node c l r q ihl ihq =>
    intro path
    rw [searchDepth, removePath]
    by_cases hrx : r = x
    · rw [if_pos hrx, if_pos hrx, Nat.zero_add]
    rw [if_neg hrx, if_neg hrx]
    simp only [RedBlack.Tree.height]
    cases cmp r x with
    | left =>
      have h := ihl (⟨c, r, .left, q⟩ :: path)
      simp only
      omega
    | right =>
      have h := ihq (⟨c, r, .right, l⟩ :: path)
      simp only
      omega

theorem removeDepth_le [DecidableEq α] (cmp : α → α → Direction) (x : α) (t : Tree α) :
    removeDepth cmp x t ≤ t.height := by
  have h := searchDepth_le cmp x t []
  rw [removeDepth]
  split
  · rename_i hp
    rw [hp] at h
    exact h
  · rename_i u hp
    rw [hp] at h
    have hu := foundDepth_le u
    simp only at h
    omega

/-- A red-black tree of fewer than `2 ^ 25 - 1` nodes is no higher than the stacks. -/
theorem height_le_stackSize {n : Nat} (hroot : t.color = .black) (hn : t.Balanced n)
    (hlen : t.toList.length + 1 < 2 ^ 25) : t.height ≤ Mem.stackSize := by
  have hpow : 2 ^ n < 2 ^ 25 := by
    have hle := hn.two_pow_le
    omega
  have hlt : n < 25 := (Nat.pow_lt_pow_iff_right (by omega)).mp hpow
  have hle := hn.height_le
  rw [hroot] at hle
  simp only [reduceCtorEq, if_false] at hle
  show _ ≤ 48
  omega

theorem IsTree.height_le (h : IsTree cmp t) (hlen : t.toList.length + 1 < 2 ^ 25) :
    t.height ≤ Mem.stackSize := by
  obtain ⟨n, hn⟩ := h.balanced
  exact height_le_stackSize h.root hn hlen

/-! ### The calls on trees -/

/-- `eina_rbtree_inline_insert`, undefined when the path overruns the stack. -/
def boundedInsert (cmp : α → α → Direction) (t : Tree α) (x : α) : Option (Tree α) :=
  if (insertPath cmp x t []).length ≤ Mem.stackSize then some (inlineInsert cmp t x) else none

/-- `eina_rbtree_inline_remove`, undefined when the path overruns the stack. -/
def boundedRemove [DecidableEq α] (cmp : α → α → Direction) (t : Tree α) (x : α) :
    Option (Tree α) :=
  if removeDepth cmp x t ≤ Mem.stackSize then some (inlineRemove cmp t x) else none

theorem boundedInsert_of_height (cmp : α → α → Direction) (x : α) (h : t.height ≤ Mem.stackSize) :
    boundedInsert cmp t x = some (inlineInsert cmp t x) := by
  have hpath := length_insertPath_le cmp x t []
  rw [length_nil, Nat.zero_add] at hpath
  rw [boundedInsert, if_pos (hpath.trans h)]

theorem boundedRemove_of_height [DecidableEq α] (cmp : α → α → Direction) (x : α)
    (h : t.height ≤ Mem.stackSize) : boundedRemove cmp t x = some (inlineRemove cmp t x) := by
  rw [boundedRemove, if_pos ((removeDepth_le cmp x t).trans h)]

/-! ### Lookup -/

/-- `eina_rbtree_inline_lookup`: `cmp` holds the key and is asked about the nodes. -/
@[grind =]
def inlineLookup (cmp : α → Int) : Tree α → Option α
  | .nil => none
  | .node _ l a r =>
    if cmp a ≠ 0 then
      if cmp a < 0 then inlineLookup cmp l else inlineLookup cmp r
    else some a

variable {f : α → Int}

theorem inlineLookup_some {a : α} (h : inlineLookup f t = some a) :
    a ∈ t.toList ∧ f a = 0 := by
  induction t with
  | nil => simp [inlineLookup] at h
  | node c l q r ihl ihr =>
    rw [inlineLookup] at h
    by_cases hne : f q ≠ 0
    · rw [if_pos hne] at h
      by_cases hlt : f q < 0
      · rw [if_pos hlt] at h
        obtain ⟨hm, h0⟩ := ihl h
        exact ⟨by simp [hm], h0⟩
      · rw [if_neg hlt] at h
        obtain ⟨hm, h0⟩ := ihr h
        exact ⟨by simp [hm], h0⟩
    · rw [if_neg hne] at h
      obtain rfl : q = a := by simpa using h
      exact ⟨by simp, by simpa using hne⟩

theorem inlineLookup_isSome [DecidableEq α] :
    ∀ {path : List (Frame α)}, (removePath cmp x t path).isSome → f x = 0 →
      (∀ q ∈ t.toList, (f q < 0 → cmp q x = .left) ∧ (0 < f q → cmp q x = .right)) →
      (inlineLookup f t).isSome := by
  induction t with
  | nil =>
    intro path h
    simp [removePath] at h
  | node c l q r ihl ihr =>
    intro path h hx hf
    rw [removePath] at h
    rw [inlineLookup]
    by_cases hne : f q ≠ 0
    · have hqx : q ≠ x := by
        rintro rfl
        exact hne hx
      rw [if_neg hqx] at h
      rw [if_pos hne]
      obtain ⟨hleft, hright⟩ := hf q (by simp)
      by_cases hlt : f q < 0
      · rw [hleft hlt] at h
        rw [if_pos hlt]
        exact ihl h hx (fun a ha => hf a (by simp [ha]))
      · rw [hright (by omega)] at h
        rw [if_neg hlt]
        exact ihr h hx (fun a ha => hf a (by simp [ha]))
    · rw [if_neg hne]
      rfl

/-- What is in the tree is found. -/
theorem inlineLookup_isSome_of_ordered : t.Ordered cmp → x ∈ t.toList → f x = 0 →
      (∀ q ∈ t.toList, (f q < 0 → cmp q x = .left) ∧ (0 < f q → cmp x q = .left)) →
      (inlineLookup f t).isSome := by
  induction t with
  | nil =>
    intro _ hx
    simp at hx
  | node c l q r ihl ihr =>
    intro ho hx h0 hf
    unfold Tree.Ordered at ho
    simp only [Tree.toList_node, pairwise_append, pairwise_cons, mem_append,
      mem_cons] at ho hx
    obtain ⟨hol, ⟨hoq, hor⟩, hlr⟩ := ho
    rw [inlineLookup]
    by_cases hne : f q ≠ 0
    · rw [if_pos hne]
      have hqx : x ≠ q := by
        rintro rfl
        exact hne h0
      obtain ⟨hleft, hright⟩ := hf q (by simp)
      by_cases hlt : f q < 0
      · rw [if_pos hlt]
        have hxl : x ∈ l.toList := by
          rcases hx with hx | hx | hx
          · exact hx
          · exact absurd hx hqx
          · have hq := hoq x hx
            rw [hleft hlt] at hq
            simp at hq
        exact ihl hol hxl h0 (fun a ha => hf a (by simp [ha]))
      · rw [if_neg hlt]
        have hxr : x ∈ r.toList := by
          rcases hx with hx | hx | hx
          · have hq := hlr x hx q (.inl rfl)
            rw [hright (by omega)] at hq
            simp at hq
          · exact absurd hx hqx
          · exact hx
        exact ihr hor hxr h0 (fun a ha => hf a (by simp [ha]))
    · rw [if_neg hne]
      rfl

/-- The removal goes to what a lookup finds. -/
theorem removePath_isSome_of_lookup [DecidableEq α] :
    ∀ (path : List (Frame α)), inlineLookup f t = some x →
      (∀ q ∈ t.toList, (f q < 0 → cmp q x = .left) ∧ (0 < f q → cmp q x = .right)) →
      (removePath cmp x t path).isSome := by
  induction t with
  | nil =>
    intro path h
    simp [inlineLookup] at h
  | node c l q r ihl ihr =>
    intro path h hf
    rw [inlineLookup] at h
    rw [removePath]
    by_cases hqx : q = x
    · rw [if_pos hqx]
      rfl
    rw [if_neg hqx]
    by_cases hne : f q ≠ 0
    · rw [if_pos hne] at h
      obtain ⟨hleft, hright⟩ := hf q (by simp)
      by_cases hlt : f q < 0
      · rw [if_pos hlt] at h
        rw [hleft hlt]
        exact ihl _ h (fun a ha => hf a (by simp [ha]))
      · rw [if_neg hlt] at h
        rw [hright (by omega)]
        exact ihr _ h (fun a ha => hf a (by simp [ha]))
    · rw [if_neg hne] at h
      exact absurd (by simpa using h) hqx

/-! ### Ties -/

/-- `x` is in the left son of a node that `cmp` sends it to the right of. -/
def Shadowed (cmp : α → α → Direction) (x : α) : Tree α → Prop
  | .nil => False
  | .node _ l q r =>
    (x ∈ l.toList ∧ cmp q x = .right) ∨ Shadowed cmp x l ∨ Shadowed cmp x r

instance decidableShadowed [DecidableEq α] (cmp : α → α → Direction) (x : α) :
    ∀ t, Decidable (Shadowed cmp x t)
  | .nil => inferInstanceAs (Decidable False)
  | .node _ l q r =>
    have := decidableShadowed cmp x l
    have := decidableShadowed cmp x r
    inferInstanceAs (Decidable
      ((x ∈ l.toList ∧ cmp q x = .right) ∨ Shadowed cmp x l ∨ Shadowed cmp x r))

theorem Shadowed.mem (h : Shadowed cmp x t) :
    x ∈ t.toList := by
  induction t with
  | nil => simp [Shadowed] at h
  | node c l q r ihl ihr =>
    rcases h with ⟨hm, -⟩ | hl | hr
    · simp [hm]
    · simp [ihl hl]
    · simp [ihr hr]

theorem mem_of_removePath [DecidableEq α] :
    ∀ {path : List (Frame α)}, (removePath cmp x t path).isSome → x ∈ t.toList := by
  induction t with
  | nil =>
    intro path h
    simp [removePath] at h
  | node c l q r ihl ihr =>
    intro path h
    rw [removePath] at h
    by_cases hqx : q = x
    · simp [hqx]
    rw [if_neg hqx] at h
    split at h
    · simp [ihl h]
    · simp [ihr h]

/-- **A search that follows `cmp` meets exactly the nodes that are not shadowed.** -/
theorem removePath_isSome_iff [DecidableEq α] :
    ∀ (path : List (Frame α)), t.toList.Nodup → t.Ordered cmp → x ∈ t.toList →
      ((removePath cmp x t path).isSome ↔ ¬ Shadowed cmp x t) := by
  induction t with
  | nil =>
    intro path _ _ hx
    simp at hx
  | node c l q r ihl ihr =>
    intro path hnd ho hx
    unfold Tree.Ordered at ho
    simp only [Tree.toList_node, nodup_append, nodup_cons, mem_cons,
      pairwise_append, pairwise_cons, mem_append] at hnd ho hx
    obtain ⟨hndl, ⟨hqr, hndr⟩, hdis⟩ := hnd
    obtain ⟨hol, ⟨hoq, hor⟩, -⟩ := ho
    have hshadow : ∀ {s : Tree α}, x ∉ s.toList → ¬ Shadowed cmp x s :=
      fun hxs hsh => hxs hsh.mem
    rw [removePath]
    by_cases hqx : q = x
    · subst hqx
      have hql : q ∉ l.toList := fun hm => hdis q hm q (.inl rfl) rfl
      rw [if_pos rfl]
      refine iff_of_true rfl ?_
      rintro (⟨hm, -⟩ | hl | hr)
      · exact hql hm
      · exact hshadow hql hl
      · exact hshadow hqr hr
    · rw [if_neg hqx]
      by_cases hxl : x ∈ l.toList
      · have hxr : x ∉ r.toList := fun hm => hdis x hxl x (.inr hm) rfl
        cases hd : cmp q x with
        | left =>
          simp only [ihl _ hndl hol hxl, Shadowed, hd]
          tauto
        | right =>
          -- the search goes to the wrong side
          have hnot : ¬ (removePath cmp x r (⟨c, q, .right, l⟩ :: path)).isSome :=
            fun hsome => hxr (mem_of_removePath hsome)
          simp only [Shadowed, hd]
          exact iff_of_false hnot (fun hsh => hsh (.inl ⟨hxl, trivial⟩))
      · have hxr : x ∈ r.toList := by
          rcases hx with hx | rfl | hx
          · exact absurd hx hxl
          · exact absurd rfl hqx
          · exact hx
        rw [hoq x hxr]
        simp only [ihr _ hndr hor hxr, Shadowed]
        tauto

end Eina.Rbtree
