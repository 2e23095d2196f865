/-
The merging of `eina_list_sort` on the links of the nodes.

The nodes are taken in pairs, and the runs are kept on a stack of a fixed size, which has a
run for every bit that is set in the number of pairs.  Only the links forward are kept up
while the runs are merged; the links back are written at the end.

The callback is asked about two nodes of the memory, so its answer has no value where one
of them is not there.  The order of the nodes is the one that `Lists.sort` gives.
-/
import Efl.Lib.Chain
import Efl.Lib.Ones
import Efl.Eina.List.Sort

namespace Eina.Lists.Links

open Chain Ones List Option Function

variable {A P : Type} [DecidableEq A]

/-! ### The code -/

section Code

variable (cmp : Heap A P → A → A → Option Int)

/-- The loop of `eina_list_sort_merge`, and the rest behind it. -/
def mergeLoop : Nat → Heap A P → A → Option A → Option A → Option (Heap A P)
  | n, H, last, some a, some b =>
    match n with
    | 0 => none
    | n + 1 => (cmp H a b).bind fun r =>
      if r < 0 then
        (setNext H last (some a)).bind fun H => (H a).bind fun c =>
          mergeLoop n H a c.next (some b)
      else
        (setNext H last (some b)).bind fun H => (H b).bind fun c =>
          mergeLoop n H b (some a) c.next
  | _, H, last, some a, none => setNext H last (some a)
  | _, H, last, none, b => setNext H last b

/-- `eina_list_sort_merge` -/
def sortMerge (n : Nat) (H : Heap A P) (a b : A) : Option (Heap A P × A) :=
  (cmp H a b).bind fun r =>
    if r < 0 then
      (H a).bind fun c => (mergeLoop cmp n H a c.next (some b)).map fun H => (H, a)
    else
      (H b).bind fun c => (mergeLoop cmp n H b (some a) c.next).map fun H => (H, b)

/-- `stack[i++] = x`, on a stack of `size` entries that is given from its top. -/
def push (size : Nat) (x : A) (stack : List A) : Option (List A) :=
  if stack.length < size then some (x :: stack) else none

/-- `((stack[i++] = a)->next = b)->next = 0` -/
def sortPair (size : Nat) (H : Heap A P) (stack : List A) (a b : A) :
    Option (Heap A P × List A) :=
  (push size a stack).bind fun stack => (setNext H a (some b)).bind fun H =>
    (setNext H b none).map fun H => (H, stack)

/-- `for (idx = n ^ tmp; idx &= idx - 1; i--)` -/
def sortMergeTop (n : Nat) : Nat → Nat → Heap A P → List A → Option (Heap A P × List A)
  | 0, _, _, _ => none
  | fuel + 1, idx, H, stack =>
    let idx := idx &&& (idx - 1)
    if idx = 0 then some (H, stack)
    else
      match stack with
      | b :: a :: stack => (sortMerge cmp n H a b).bind fun m =>
        sortMergeTop n fuel idx m.1 (m.2 :: stack)
      | _ => none

/-- The first loop of `eina_list_sort`: `k` pairs are done. -/
def sortPairs (size n : Nat) : Nat → Nat → Heap A P → List A → Option A →
    Option (Heap A P × List A)
  | _, _, H, stack, none => some (H, stack)
  | 0, _, _, _, some _ => none
  | fuel + 1, k, H, stack, some a => (H a).bind fun c =>
    match c.next with
    | none => (push size a stack).map fun stack => (H, stack)
    | some b => (H b).bind fun d => (cmp H a b).bind fun r =>
      (if r < 0 then sortPair size H stack a b else sortPair size H stack b a).bind fun p =>
        (sortMergeTop cmp n ((k + 1) ^^^ k) ((k + 1) ^^^ k) p.1 p.2).bind fun m =>
          sortPairs size n fuel (k + 1) m.1 m.2 d.next

/-- The last loop of `eina_list_sort`: `while (i-- > 1)`. -/
def sortMergeAll (n : Nat) : Heap A P → A → List A → Option (Heap A P × A)
  | H, run, [] => some (H, run)
  | H, run, a :: stack => (sortMerge cmp n H a run).bind fun m => sortMergeAll n m.1 m.2 stack

/-- Both loops: the first node of the sorted ones, `stack[0]`. -/
def sortRuns (size n : Nat) (H : Heap A P) (tail : A) : Option (Heap A P × A) :=
  (sortPairs cmp size n n 0 H [] (some tail)).bind fun s =>
    match s.2 with
    | [] => none
    | run :: stack => sortMergeAll cmp n s.1 run stack

/-- `eina_list_sort_rebuild_prev`: the node before `list` is `prev`. -/
def rebuildPrev : Nat → Heap A P → Option A → Option A → Option (Heap A P × Option A)
  | _, H, prev, none => some (H, prev)
  | 0, _, _, some _ => none
  | n + 1, H, prev, some x => (setPrev H x prev).bind fun H => (H x).bind fun c =>
    rebuildPrev n H (some x) c.next

end Code

/-! ### Links forward -/

/-- The links forward lead from `list` over `xs` to the end. -/
def Path (H : Heap A P) : Option A → List (A × P) → Prop
  | list, [] => list = none
  | list, (x, v) :: xs => list = some x ∧ ∃ n p, H x = some ⟨n, p, v⟩ ∧ Path H n xs

/-- Nothing but the nodes in `ys` was changed. -/
def Outside (H H' : Heap A P) (ys : List A) : Prop := ∀ y ∉ ys, H' y = H y

variable {H H' H'' : Heap A P} {list : Option A} {xs ys : List (A × P)} {x : A} {v : P}

omit [DecidableEq A] in
theorem Outside.refl (H : Heap A P) (zs : List A) : Outside H H zs := fun _ _ => rfl

variable {zs : List A}

omit [DecidableEq A] in
theorem Outside.trans (h : Outside H H' zs) (h' : Outside H' H'' zs) :
    Outside H H'' zs := fun y hy => (h' y hy).trans (h y hy)

omit [DecidableEq A] in
theorem Outside.mono {ws : List A} (h : Outside H H' zs) (hsub : ∀ y ∈ zs, y ∈ ws) :
    Outside H H' ws := fun y hy => h y fun hmem => hy (hsub y hmem)

omit [DecidableEq A] in
theorem Path.congr (h : Path H list xs) (hsame : ∀ x ∈ keys xs, H' x = H x) : Path H' list xs := by
  induction xs generalizing list with
  | nil => exact h
  | cons x xs ih =>
    obtain ⟨hlist, n, p, hx, hrest⟩ := h
    refine ⟨hlist, n, p, (hsame x.1 mem_cons_self).trans hx, ih hrest fun y hy => ?_⟩
    exact hsame y (mem_cons_of_mem _ hy)

omit [DecidableEq A] in
theorem Path.outside (h : Path H list xs) (hout : Outside H H' zs)
    (hapart : ∀ y ∈ keys xs, y ∉ zs) :
    Path H' list xs :=
  h.congr fun y hy => hout y (hapart y hy)

omit [DecidableEq A] in
theorem Path.head (h : Path H list xs) : list = first xs none := by
  cases xs with
  | nil => exact h
  | cons x xs => exact h.1

variable {p : Option A}

omit [DecidableEq A] in
theorem path_of_seg (h : Seg H p xs none) : Path H (first xs none) xs := by
  induction xs generalizing p with
  | nil => rfl
  | cons x xs ih => exact ⟨rfl, _, _, h.1, ih h.2⟩

theorem outside_update (c : Option (Cell A P)) : Outside H (update H x c) [x] := by
  intro y hy
  exact update_of_ne (by simpa using hy) _ _

theorem Path.link {n : Option A} (h : Path H list xs) (hx : H x = some ⟨n, p, v⟩)
    (hout : x ∉ keys xs) :
    ∃ H', setNext H x list = some H' ∧ Path H' (some x) ((x, v) :: xs) ∧ Outside H H' [x] := by
  refine ⟨_, modify_eq hx _, ⟨rfl, list, p, update_self _ _ _, ?_⟩, outside_update _⟩
  refine h.outside (outside_update _) fun y hy => ?_
  rw [mem_singleton]
  rintro rfl
  exact hout hy

/-! ### Merging -/

/-- The callback answers for two nodes that are there by what they carry. -/
def Answers (cmp : Heap A P → A → A → Option Int) (func : A × P → A × P → Int) : Prop :=
  ∀ H x y n p v m q w, H x = some ⟨n, p, v⟩ → H y = some ⟨m, q, w⟩ →
    cmp H x y = some (func (x, v) (y, w))

variable {cmp : Heap A P → A → A → Option Int} {func : A × P → A × P → Int}

omit [DecidableEq A] in
theorem keys_perm {zs ws : List (A × P)} (h : zs.Perm ws) (y : A) : y ∈ keys zs ↔ y ∈ keys ws :=
  (h.map Prod.fst).mem_iff

variable {n : Nat} {H : Heap A P} {xs : List (A × P)}

/-- Two runs become one. -/
theorem mergeLoop_spec (hcmp : Answers cmp func) {a b : Option A} {last : A} {v : P} {m : Option A}
    {ys : List (A × P)} (hn : xs.length + ys.length ≤ n) (hxs : Path H a xs) (hys : Path H b ys)
    (hlast : H last = some ⟨m, p, v⟩) (hnodup : (last :: keys (xs ++ ys)).Nodup) :
    ∃ H', mergeLoop cmp n H last a b = some H' ∧
      Path H' (some last) ((last, v) :: Lists.sortMerge func xs ys) ∧
      Outside H H' (last :: keys (xs ++ ys)) := by
  induction n generalizing H last v m p a b xs ys with
  | zero =>
    obtain rfl : xs = [] := eq_nil_of_length_eq_zero (by omega)
    obtain rfl : ys = [] := eq_nil_of_length_eq_zero (by omega)
    obtain rfl : a = none := hxs
    obtain ⟨H', hset, hpath, hout⟩ := hys.link hlast (by simp)
    exact ⟨H', by rw [mergeLoop, hset], by rwa [Lists.sortMerge], hout⟩
  | succ n ih =>
    obtain ⟨hfresh, hxy⟩ := nodup_cons.mp hnodup
    cases xs with
    | nil =>
      obtain rfl : a = none := hxs
      obtain ⟨H', hset, hpath, hout⟩ := hys.link hlast (by simpa using hfresh)
      refine ⟨H', by rw [mergeLoop, hset], by rwa [Lists.sortMerge], hout.mono (by simp)⟩
    | cons px xs =>
    obtain ⟨x, u⟩ := px
    cases ys with
    | nil =>
      obtain rfl : b = none := hys
      obtain ⟨H', hset, hpath, hout⟩ := hxs.link hlast (by simpa using hfresh)
      have hmerge : Lists.sortMerge func ((x, u) :: xs) [] = (x, u) :: xs :=
        Lists.sortMerge.eq_2 _ _ (by simp)
      obtain rfl := hxs.head
      refine ⟨H', by rw [first_cons] at hset ⊢; rw [mergeLoop, hset], by rwa [hmerge], ?_⟩
      exact hout.mono (by simp)
    | cons py ys =>
      obtain ⟨y, w⟩ := py
      obtain ⟨hlx, hly⟩ : last ∉ keys ((x, u) :: xs) ∧ last ∉ keys ((y, w) :: ys) := by
        rw [keys_append, mem_append, not_or] at hfresh
        exact hfresh
      obtain ⟨rfl, nx, px, hx, -⟩ := id hxs
      obtain ⟨rfl, ny, py, hy, -⟩ := id hys
      rw [mergeLoop, hcmp H x y _ _ _ _ _ _ hx hy, bind_some, Lists.sortMerge]
      by_cases hlt : func (x, u) (y, w) < 0
      · obtain ⟨H1, hset, ⟨-, nl, pl, hl1, hrest⟩, hout1⟩ := hxs.link hlast hlx
        obtain ⟨rfl, nx, px, hx1, hxs1⟩ := hrest
        have hys1 : Path H1 (some y) ((y, w) :: ys) := hys.outside hout1 fun z hz hzl =>
          hly (mem_singleton.mp hzl ▸ hz)
        obtain ⟨H', hloop, hpath, hout⟩ :=
          ih (by simp at hn ⊢; omega) hxs1 hys1 hx1 (by simpa using hxy)
        refine ⟨H', ?_, ?_, (hout1.mono (by simp)).trans (hout.mono fun z hz => ?_)⟩
        · rw [if_pos hlt, hset, bind_some, hx1]
          exact hloop
        · rw [if_pos hlt]
          exact ⟨rfl, some x, pl, (hout last hfresh).trans hl1, hpath⟩
        · exact mem_cons_of_mem _ hz
      · obtain ⟨H1, hset, ⟨-, nl, pl, hl1, hrest⟩, hout1⟩ := hys.link hlast hly
        obtain ⟨rfl, ny, py, hy1, hys1⟩ := hrest
        have hxs1 : Path H1 (some x) ((x, u) :: xs) := hxs.outside hout1 fun z hz hzl =>
          hlx (mem_singleton.mp hzl ▸ hz)
        have hperm : ((x, u) :: xs ++ (y, w) :: ys).Perm ((y, w) :: ((x, u) :: xs ++ ys)) :=
          perm_middle
        obtain ⟨H', hloop, hpath, hout⟩ := ih (by simp at hn ⊢; omega) hxs1 hys1 hy1
          ((hperm.map Prod.fst).nodup_iff.mp hxy)
        have hmem := keys_perm hperm
        refine ⟨H', ?_, ?_, (hout1.mono (by simp)).trans (hout.mono fun z hz => ?_)⟩
        · rw [if_neg hlt, hset, bind_some, hy1]
          exact hloop
        · rw [if_neg hlt]
          have hlast' := hout last fun hin => hfresh ((hmem last).mpr hin)
          exact ⟨rfl, some y, pl, hlast'.trans hl1, hpath⟩
        · exact mem_cons_of_mem _ ((hmem z).mpr hz)

variable {a b : A}

/-- **Two runs are merged.** -/
theorem sortMerge_spec (hcmp : Answers cmp func) {ys : List (A × P)}
    (hn : xs.length + ys.length ≤ n) (hxs : Path H (some a) xs) (hys : Path H (some b) ys)
    (hnodup : (keys (xs ++ ys)).Nodup) :
    ∃ H' x, sortMerge cmp n H a b = some (H', x) ∧
      Path H' (some x) (Lists.sortMerge func xs ys) ∧ Outside H H' (keys (xs ++ ys)) := by
  cases xs with
  | nil => simp [Path] at hxs
  | cons px xs =>
  obtain ⟨x, u⟩ := px
  cases ys with
  | nil => simp [Path] at hys
  | cons py ys =>
    obtain ⟨y, w⟩ := py
    obtain ⟨hax, nx, px, hx, hxs'⟩ := id hxs
    obtain ⟨hby, ny, py, hy, hys'⟩ := id hys
    obtain rfl := some.inj hax
    obtain rfl := some.inj hby
    rw [sortMerge, hcmp H a b _ _ _ _ _ _ hx hy, bind_some, Lists.sortMerge]
    by_cases hlt : func (a, u) (b, w) < 0
    · obtain ⟨H', hloop, hpath, hout⟩ := mergeLoop_spec hcmp (n := n)
        (by simp at hn ⊢; omega) hxs' hys hx (by simpa using hnodup)
      refine ⟨H', a, ?_, by rwa [if_pos hlt], hout⟩
      rw [if_pos hlt, hx, bind_some, hloop, map_some]
    · have hperm : ((a, u) :: xs ++ (b, w) :: ys).Perm ((b, w) :: ((a, u) :: xs ++ ys)) :=
        perm_middle
      obtain ⟨H', hloop, hpath, hout⟩ := mergeLoop_spec hcmp (n := n)
        (by simp at hn ⊢; omega) hxs hys' hy ((hperm.map Prod.fst).nodup_iff.mp hnodup)
      refine ⟨H', b, ?_, by rwa [if_neg hlt], hout.mono fun z hz => (keys_perm hperm z).mpr hz⟩
      rw [if_neg hlt, hy, bind_some, hloop, map_some]

/-! ### The stack of runs -/

/-- The runs on the stack. -/
def Runs (H : Heap A P) (stack : List A) (runs : List (List (A × P))) : Prop :=
  List.Forall₂ (fun a run => Path H (some a) run) stack runs

variable {stack : List A} {runs : List (List (A × P))} {size : Nat}

omit [DecidableEq A] in
theorem Runs.congr (h : Runs H stack runs) (hsame : ∀ x ∈ keys runs.flatten, H' x = H x) :
    Runs H' stack runs := by
  unfold Runs at h ⊢
  induction h with
  | nil => exact List.Forall₂.nil
  | cons hrun hrest ih =>
    rw [flatten_cons, keys_append] at hsame
    refine List.Forall₂.cons (hrun.congr fun x hx => hsame x ?_) (ih fun x hx => hsame x ?_)
    · exact mem_append_left _ hx
    · exact mem_append_right _ hx

theorem Runs.merge (hcmp : Answers cmp func) {ra rb : List (A × P)}
    (h : Runs H (b :: a :: stack) (rb :: ra :: runs))
    (hnodup : (keys (rb :: ra :: runs).flatten).Nodup)
      (hn : (rb :: ra :: runs).flatten.length ≤ n) :
    ∃ H' x, sortMerge cmp n H a b = some (H', x) ∧
      Runs H' (x :: stack) (Lists.sortMerge func ra rb :: runs) ∧
      Outside H H' (keys (rb :: ra :: runs).flatten) := by
  obtain ⟨hb, hrest⟩ := forall₂_cons.mp h
  obtain ⟨ha, hruns⟩ := forall₂_cons.mp hrest
  rw [flatten_cons, flatten_cons, ← append_assoc] at hnodup hn
  rw [keys_append] at hnodup
  obtain ⟨htop, -, hapart⟩ := nodup_append.mp hnodup
  have hcomm : (ra ++ rb).Perm (rb ++ ra) := perm_append_comm
  simp only [length_append] at hn
  obtain ⟨H', x, hmerge, hpath, hout⟩ := sortMerge_spec hcmp (n := n) (by omega) ha hb
    ((hcomm.map Prod.fst).nodup_iff.mpr htop)
  have hruns' : Runs H stack runs := hruns
  refine ⟨H', x, hmerge, List.Forall₂.cons hpath (hruns'.congr fun y hy => hout y ?_),
    hout.mono fun y hy => ?_⟩
  · intro hy'
    exact hapart y ((keys_perm hcomm y).mp hy') y hy rfl
  · rw [flatten_cons, flatten_cons, ← append_assoc, keys_append]
    exact mem_append_left _ ((keys_perm hcomm y).mp hy)

theorem sortMergeTop_spec (hcmp : Answers cmp func) {fuel j t : Nat}
    (hfuel : 2 ^ j * (2 ^ (t + 1) - 1) ≤ fuel) (hdepth : t < runs.length)
    (hruns : Runs H stack runs) (hnodup : (keys runs.flatten).Nodup)
      (hn : runs.flatten.length ≤ n) :
    ∃ H' stack', sortMergeTop cmp n fuel (2 ^ j * (2 ^ (t + 1) - 1)) H stack = some (H', stack') ∧
      Runs H' stack' (Lists.sortMergeTop func fuel (2 ^ j * (2 ^ (t + 1) - 1)) runs) ∧
      (Lists.sortMergeTop func fuel (2 ^ j * (2 ^ (t + 1) - 1)) runs).length + t = runs.length ∧
      Outside H H' (keys runs.flatten) := by
  induction t generalizing j fuel H stack runs with
  | zero =>
    obtain ⟨fuel, rfl⟩ : ∃ f, fuel = f + 1 := by
      refine Nat.exists_eq_succ_of_ne_zero (ne_of_gt (lt_of_lt_of_le ?_ hfuel))
      exact Nat.mul_pos (Nat.two_pow_pos _) (by decide)
    unfold sortMergeTop Lists.sortMergeTop
    simp only [and_pred]
    exact ⟨H, stack, rfl, hruns, rfl, Outside.refl _ _⟩
  | succ t ih =>
    have hpow : 0 < 2 ^ (t + 1 + 1) - 1 :=
      Nat.sub_pos_of_lt (Nat.one_lt_two_pow (Nat.succ_ne_zero _))
    have hpow' : 0 < 2 ^ (t + 1) - 1 :=
      Nat.sub_pos_of_lt (Nat.one_lt_two_pow (Nat.succ_ne_zero _))
    have hidx : 0 < 2 ^ j * (2 ^ (t + 1 + 1) - 1) := Nat.mul_pos (Nat.two_pow_pos _) hpow
    have hidx' : 2 ^ (j + 1) * (2 ^ (t + 1) - 1) ≠ 0 :=
      ne_of_gt (Nat.mul_pos (Nat.two_pow_pos _) hpow')
    obtain ⟨fuel, rfl⟩ : ∃ f, fuel = f + 1 :=
      Nat.exists_eq_succ_of_ne_zero (ne_of_gt (lt_of_lt_of_le hidx hfuel))
    have hless : 2 ^ (j + 1) * (2 ^ (t + 1) - 1) ≤ fuel := by
      rw [← and_pred]
      refine le_trans Nat.and_le_right ?_
      omega
    obtain ⟨rb, ra, runs, rfl⟩ : ∃ rb ra rest, runs = rb :: ra :: rest := by
      match runs, hdepth with
      | rb :: ra :: rest, _ => exact ⟨rb, ra, rest, rfl⟩
    obtain ⟨b, stack, -, hruns', rfl⟩ := forall₂_cons_right_iff.mp hruns
    obtain ⟨a, stack, -, -, rfl⟩ := forall₂_cons_right_iff.mp hruns'
    obtain ⟨H1, x, hmerge, hruns1, hout1⟩ := hruns.merge hcmp hnodup hn
    have hperm : (Lists.sortMerge func ra rb :: runs).flatten.Perm
        (rb :: ra :: runs).flatten := by
      simp only [flatten_cons, ← append_assoc]
      exact ((Lists.sortMerge_perm func ra rb).trans perm_append_comm).append_right _
    obtain ⟨H', stack', htop, hruns2, hlen, hout2⟩ := ih hless
      (by simp only [length_cons] at hdepth ⊢; omega) hruns1
      ((hperm.map Prod.fst).nodup_iff.mpr hnodup) (by rw [hperm.length_eq]; exact hn)
    rw [sortMergeTop, Lists.sortMergeTop]
    rw [and_pred, if_neg hidx', if_neg hidx', hmerge]
    refine ⟨H', stack', htop, hruns2, ?_,
      hout1.trans (hout2.mono fun y hy => (keys_perm hperm y).mp hy)⟩
    simp only [length_cons] at hlen ⊢
    omega

/-! ### The passes over the list -/

omit [DecidableEq A] in
theorem push_eq (h : stack.length < size) (x : A) :
    push size x stack = some (x :: stack) := if_pos h

theorem sortPair_spec {u w : P} {n m q : Option A} (hsize : stack.length < size)
    (ha : H a = some ⟨n, p, u⟩) (hb : H b = some ⟨m, q, w⟩) (hab : a ≠ b) :
    ∃ H', sortPair size H stack a b = some (H', a :: stack) ∧
      Path H' (some a) [(a, u), (b, w)] ∧ Outside H H' [a, b] := by
  have h1 : setNext H a (some b) = some _ := modify_eq ha _
  have hout1 : Outside H (update H a (some ⟨some b, p, u⟩)) [a] := outside_update _
  have ha1 := update_self a (some ⟨some b, p, u⟩) H
  generalize update H a _ = H1 at h1 hout1 ha1
  have hb1 : H1 b = some ⟨m, q, w⟩ := (hout1 b (by simpa using symm hab)).trans hb
  have hnil : Path H1 none [] := rfl
  obtain ⟨H2, h2, hpath, hout2⟩ := hnil.link hb1 (by simp)
  have ha2 := (hout2 a (by simpa using hab)).trans ha1
  refine ⟨H2, ?_, ⟨rfl, _, _, ha2, hpath⟩, (hout1.mono (by simp)).trans (hout2.mono (by simp))⟩
  rw [sortPair, push_eq hsize, bind_some, h1, bind_some, h2, map_some]

/-- The runs on the stack are merged as the bits of their number say. -/
theorem sortPairs_spec (hcmp : Answers cmp func) {w fuel k : Nat} {list : Option A}
    (hfuel : xs.length ≤ fuel) (hcount : 2 * k + xs.length < 2 ^ (w + 1)) (hpath : Path H list xs)
    (hruns : Runs H stack runs) (hlen : runs.length = ones k)
    (hnodup : (keys (runs.flatten ++ xs)).Nodup) (hn : (runs.flatten ++ xs).length ≤ n) :
    ∃ H' stack', sortPairs cmp (w + 1) n fuel k H stack list = some (H', stack') ∧
      Runs H' stack' (Lists.sortPairs func k runs xs) ∧
      Outside H H' (keys (runs.flatten ++ xs)) := by
  induction fuel generalizing k H stack runs list xs with
  | zero =>
    obtain rfl : xs = [] := eq_nil_of_length_eq_zero (by omega)
    obtain rfl : list = none := hpath
    exact ⟨H, stack, rfl, hruns, Outside.refl _ _⟩
  | succ fuel ih =>
    match xs, hpath with
    | [], hpath =>
      obtain rfl : list = none := hpath
      exact ⟨H, stack, rfl, hruns, Outside.refl _ _⟩
    | [(a, u)], hpath =>
      obtain ⟨rfl, n', p, ha, hend⟩ := hpath
      obtain rfl : n' = none := hend
      have hroom : stack.length < w + 1 := by
        rw [List.Forall₂.length_eq hruns]
        have := ones_le (k := k) (w := w) (by simp at hcount; omega)
        omega
      refine ⟨H, a :: stack, ?_, List.Forall₂.cons ⟨rfl, none, p, ha, rfl⟩ hruns,
        Outside.refl _ _⟩
      rw [sortPairs, ha, bind_some]
      rw [push_eq hroom, map_some]
    | (a, u) :: (b, v) :: tail, hpath =>
      obtain ⟨rfl, _, p, ha, rfl, m, q, hb, htail⟩ := hpath
      have hroom : stack.length < w + 1 := by
        rw [List.Forall₂.length_eq hruns]
        have := ones_le (k := k) (w := w) (by simp at hcount; omega)
        omega
      have hparts := hnodup
      rw [keys_append] at hparts
      obtain ⟨hflat, hnodup', hapart⟩ := nodup_append.mp hparts
      have hab : a ≠ b := by
        rw [keys_cons, nodup_cons] at hnodup'
        rintro rfl
        exact hnodup'.1 mem_cons_self
      generalize hrun : (if func (a, u) (b, v) < 0 then [(a, u), (b, v)]
        else [(b, v), (a, u)]) = run
      have hperm : run.Perm [(a, u), (b, v)] := by
        rw [← hrun]
        split
        · exact List.Perm.refl _
        · exact List.Perm.swap _ _ []
      obtain ⟨H1, x, hpair, hrunpath, hout1⟩ : ∃ H1 x,
          (if func (a, u) (b, v) < 0 then sortPair (w + 1) H stack a b
            else sortPair (w + 1) H stack b a) = some (H1, x :: stack) ∧
            Path H1 (some x) run ∧ Outside H H1 [a, b] := by
        rw [← hrun]
        split
        · obtain ⟨H1, h1, hp1, hout1⟩ := sortPair_spec hroom ha hb hab
          exact ⟨H1, a, h1, hp1, hout1⟩
        · obtain ⟨H1, h1, hp1, hout1⟩ := sortPair_spec hroom hb ha (symm hab)
          exact ⟨H1, b, h1, hp1, hout1.mono (by simp)⟩
      have hall : ((run :: runs).flatten ++ tail).Perm
          (runs.flatten ++ (a, u) :: (b, v) :: tail) := by
        have hcomm : (run ++ runs.flatten).Perm (runs.flatten ++ run) := perm_append_comm
        refine (hcomm.append_right tail).trans ?_
        refine ((hperm.append_left runs.flatten).append_right tail).trans ?_
        rw [append_assoc]
        exact List.Perm.refl _
      have hnodup1 := (hall.map Prod.fst).nodup_iff.mpr hnodup
      have hn1 := hn
      rw [← hall.length_eq] at hn1
      have hparts1 : (keys (run :: runs).flatten ++ keys tail).Nodup := by
        rw [← keys_append]
        exact hnodup1
      have hflat1 := nodup_append.mp hparts1
      have hruns1 : Runs H1 (x :: stack) (run :: runs) := by
        refine List.Forall₂.cons hrunpath (hruns.congr fun y hy => hout1 y fun hy' => ?_)
        exact hapart y hy y (mem_append_left (keys tail) hy') rfl
      have htail1 : Path H1 m tail := htail.outside hout1 fun y hy hy' => by
        refine hflat1.2.2 y ?_ y hy rfl
        rw [flatten_cons, keys_append]
        exact mem_append_left _ ((keys_perm hperm y).mpr hy')
      obtain ⟨t, ht, hxor, hones⟩ := succ_xor k
      have htop := sortMergeTop_spec hcmp (j := 0) (t := t) (le_rfl)
        (by simp only [length_cons]; omega) hruns1 hflat1.1
        (le_trans (by simp) hn1)
      rw [pow_zero, one_mul, ← hxor] at htop
      obtain ⟨H2, stack', htop, hruns2, hlen2, hout2⟩ := htop
      have hperm2 := Lists.sortMergeTop_perm func ((k + 1) ^^^ k) ((k + 1) ^^^ k) (run :: runs)
      have hall2 := hperm2.append_right tail
      have htail2 : Path H2 m tail := htail1.outside hout2 fun y hy hy' =>
        hflat1.2.2 y hy' y hy rfl
      rw [length_cons, hlen, hones, add_right_cancel_iff] at hlen2
      obtain ⟨H', stack'', hrest, hruns', hout'⟩ := ih (by simp at hfuel; omega)
        (by simp at hcount; omega) htail2 hruns2 hlen2
        ((hall2.map Prod.fst).nodup_iff.mpr hnodup1) (by rw [hall2.length_eq]; exact hn1)
      refine ⟨H', stack'', ?_, ?_,
        (hout1.mono ?_).trans ((hout2.mono ?_).trans (hout'.mono ?_))⟩
      · rw [sortPairs, ha, bind_some]
        dsimp only
        rw [hb, bind_some, hcmp H a b _ _ _ _ _ _ ha hb, bind_some, hpair,
          bind_some, htop, bind_some, hrest]
      · rw [Lists.sortPairs, hrun]
        exact hruns'
      · intro y hy
        rw [keys_append]
        exact mem_append_right _ (mem_append_left (keys tail) hy)
      · intro y hy
        refine (keys_perm hall y).mp ?_
        rw [keys_append]
        exact mem_append_left _ hy
      · intro y hy
        exact (keys_perm hall y).mp ((keys_perm hall2 y).mp hy)

theorem sortMergeAll_spec (hcmp : Answers cmp func) {x : A} {run : List (A × P)}
    (hrun : Path H (some x) run) (hruns : Runs H stack runs)
    (hnodup : (keys (run ++ runs.flatten)).Nodup) (hn : (run ++ runs.flatten).length ≤ n) :
    ∃ H' y, sortMergeAll cmp n H x stack = some (H', y) ∧
      Path H' (some y) (Lists.sortMergeAll func run runs) ∧
      Outside H H' (keys (run ++ runs.flatten)) := by
  induction runs generalizing H x stack run with
  | nil =>
    obtain rfl := forall₂_nil_right_iff.mp hruns
    exact ⟨H, x, rfl, hrun, Outside.refl _ _⟩
  | cons ra runs ih =>
    obtain ⟨a, stack, -, hrest, rfl⟩ := forall₂_cons_right_iff.mp hruns
    obtain ⟨H1, y, hmerge, hruns1, hout1⟩ :=
      Runs.merge hcmp (List.Forall₂.cons hrun hruns) hnodup hn
    obtain ⟨hpath1, hrest1⟩ := forall₂_cons.mp hruns1
    have hperm : (Lists.sortMerge func ra run ++ runs.flatten).Perm
        (run ++ (ra :: runs).flatten) := by
      rw [flatten_cons, ← append_assoc]
      exact ((Lists.sortMerge_perm func ra run).trans perm_append_comm).append_right _
    obtain ⟨H', z, hall, hpath', hout'⟩ := ih hpath1 hrest1
      ((hperm.map Prod.fst).nodup_iff.mpr hnodup) (by rw [hperm.length_eq]; exact hn)
    refine ⟨H', z, ?_, hpath', hout1.trans (hout'.mono fun w hw => (keys_perm hperm w).mp hw)⟩
    rw [sortMergeAll, hmerge, bind_some, hall]

/-- **The links forward come to lead through the sorted nodes.** -/
theorem sortRuns_spec (hcmp : Answers cmp func) {w : Nat} {x : A} (hpath : Path H (some x) xs)
    (hnodup : (keys xs).Nodup) (hn : xs.length ≤ n) (hcount : xs.length < 2 ^ (w + 1)) :
    ∃ H' y, sortRuns cmp (w + 1) n H x = some (H', y) ∧
      Path H' (some y) (Lists.sort func xs) ∧ Outside H H' (keys xs) := by
  have hperm := Lists.sortPairs_perm func 0 [] xs
  obtain ⟨H1, stack, h1, hruns, hout1⟩ := sortPairs_spec hcmp (w := w) (k := 0) hn
    (by omega) hpath List.Forall₂.nil rfl hnodup hn
  unfold sortRuns Lists.sort
  cases hpairs : Lists.sortPairs func 0 [] xs with
  | nil =>
    rw [hpairs] at hperm
    obtain rfl : xs = [] := hperm.nil_eq.symm
    simp [Path] at hpath
  | cons run runs =>
    rw [hpairs] at hperm hruns
    obtain ⟨a, stack, hrun, hrest, rfl⟩ := forall₂_cons_right_iff.mp hruns
    have hall : (run ++ runs.flatten).Perm xs := hperm
    obtain ⟨H2, y, h2, hpath2, hout2⟩ := sortMergeAll_spec hcmp (n := n) hrun hrest
      ((hall.map Prod.fst).nodup_iff.mpr hnodup) (by rw [hall.length_eq]; exact hn)
    refine ⟨H2, y, ?_, hpath2, hout1.trans (hout2.mono fun z hz => (keys_perm hall z).mp hz)⟩
    rw [h1]
    exact h2

theorem rebuildPrev_spec (prev : Option A) {list : Option A} (hn : xs.length ≤ n)
    (hpath : Path H list xs) (hnodup : (keys xs).Nodup) :
    ∃ H', rebuildPrev n H prev list = some (H', last prev xs) ∧ Seg H' prev xs none ∧
      Outside H H' (keys xs) := by
  induction xs generalizing n H prev list with
  | nil =>
    obtain rfl : list = none := hpath
    exact ⟨H, by cases n <;> rfl, trivial, Outside.refl _ _⟩
  | cons x xs ih =>
    obtain ⟨n, rfl⟩ : ∃ m, n = m + 1 := by
      cases n with
      | zero => simp at hn
      | succ m => exact ⟨m, rfl⟩
    obtain ⟨rfl, m, p, hx, hrest⟩ := hpath
    obtain ⟨hfresh, hxs⟩ := nodup_cons.mp hnodup
    have hset : setPrev H x.1 prev = some _ := modify_eq hx _
    have hout : Outside H (update H x.1 (some ⟨m, prev, x.2⟩)) [x.1] := outside_update _
    have hx1 := update_self x.1 (some ⟨m, prev, x.2⟩) H
    generalize update H x.1 _ = H1 at hset hout hx1
    have hrest1 : Path H1 m xs := hrest.outside hout fun y hy hy' =>
      hfresh (mem_singleton.mp hy' ▸ hy)
    obtain ⟨H', hback, hseg, hout'⟩ := ih (some x.1) (by simpa using hn) hrest1 hxs
    refine ⟨H', ?_, ⟨?_, hseg⟩, (hout.mono (by simp)).trans (hout'.mono ?_)⟩
    · rw [rebuildPrev, hset, bind_some, hx1, bind_some, hback]
      rfl
    · rw [hout' x.1 hfresh, hx1, hrest.head]
    · intro y hy
      exact mem_cons_of_mem _ hy

end Eina.Lists.Links
