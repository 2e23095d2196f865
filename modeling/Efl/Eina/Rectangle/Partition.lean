/-
The free and the live rectangles of a pool tile its area.

Every operation but the ones of the improved skyline packing replaces rectangles by others
that contain each pixel as often: `fuse` makes two out of two or one out of two, and a
request cuts a free rectangle into the granted one and what is left.  `mult` counts, so that
sorting the list and the order of the pieces do not matter.
-/
import Efl.Lib.Partition
import Efl.Lib.Runs
import Efl.Eina.Rectangle.Pool
import Mathlib.Data.List.Perm.Basic

namespace Eina.Rectangle

open Cover Runs Outcome

variable {r found r' : Rectangle} {type : Packing} {empty xs ys news : List Rectangle} {α : Type}
  {w h : Int}

/-- All widths and heights are positive. -/
def AllPos (xs : List Rectangle) : Prop := ∀ r ∈ xs, 0 < r.w ∧ 0 < r.h

@[simp] theorem allPos_nil : AllPos [] := by
  simp [AllPos]

@[simp] theorem allPos_cons : AllPos (r :: xs) ↔ (0 < r.w ∧ 0 < r.h) ∧ AllPos xs := by
  simp [AllPos]

@[simp] theorem allPos_append : AllPos (xs ++ ys) ↔ AllPos xs ∧ AllPos ys := by
  simp only [AllPos, List.mem_append]
  constructor
  · intro h
    exact ⟨fun r hr => h r (.inl hr), fun r hr => h r (.inr hr)⟩
  · intro h r hr
    rcases hr with hr | hr
    · exact h.1 r hr
    · exact h.2 r hr

theorem AllPos.perm (h : AllPos xs) (hperm : xs.Perm ys) : AllPos ys := by
  intro r hr
  exact h r (hperm.mem_iff.mpr hr)

theorem takeFirst_perm {test : α → Bool} {a : α} : ∀ {xs ys : List α},
    takeFirst test xs = some (a, ys) → test a = true ∧ xs.Perm (a :: ys) := by
  intro xs
  induction xs with
  | nil =>
    intro ys h
    simp [takeFirst] at h
  | cons b xs ih =>
    intro ys h
    rw [takeFirst] at h
    split at h
    · rename_i htest
      obtain ⟨⟩ := h
      exact ⟨htest, List.Perm.refl _⟩
    · obtain ⟨⟨a', ys'⟩, hrest, hpair⟩ := Option.map_eq_some_iff.mp h
      obtain ⟨⟩ := hpair
      obtain ⟨htest, hperm⟩ := ih hrest
      exact ⟨htest, (hperm.cons b).trans (List.Perm.swap _ _ _)⟩

theorem takeFirst_none {test : α → Bool} : ∀ {xs : List α},
    takeFirst test xs = none → ∀ x ∈ xs, test x = false := by
  intro xs
  induction xs with
  | nil =>
    intro _ x hx
    simp at hx
  | cons b xs ih =>
    intro h x hx
    rw [takeFirst] at h
    split at h
    · simp at h
    rename_i htest
    have hrest := ih (Option.map_eq_none_iff.mp h)
    rcases List.mem_cons.mp hx with rfl | hx
    · exact Bool.eq_false_iff.mpr htest
    · exact hrest x hx

/-! ### Fusing -/

theorem fuse_mult (hr : 0 < r.w ∧ 0 < r.h) (hf : 0 < found.w ∧ 0 < found.h)
    (h : fuse type r found = some (news, r')) (p : Int × Int) :
    mult pixels (r' :: news) p = mult pixels [r, found] p := by
  unfold fuse at h
  split at h
  · obtain ⟨⟩ := h
    simp only [mult_cons, mult_nil, mem_pixels]
    split_ifs <;> omega
  split at h
  · obtain ⟨⟩ := h
    simp only [mult_cons, mem_pixels]
    split_ifs <;> omega
  split at h
  · obtain ⟨⟩ := h
    simp only [mult_cons, mult_nil, mem_pixels]
    split_ifs <;> omega
  · simp at h

theorem fuse_smaller (hr : 0 < r.w ∧ 0 < r.h) (hf : 0 < found.w ∧ 0 < found.h)
    (h : fuse type r found = some (news, r')) :
    AllPos (r' :: news) ∧ (news = [] ∨ (news.length = 1 ∧ r'.h < r.h)) := by
  unfold fuse at h
  split at h
  · obtain ⟨⟩ := h
    refine ⟨?_, .inl rfl⟩
    simp only [allPos_cons, allPos_nil, and_true]
    omega
  split at h
  · obtain ⟨⟩ := h
    refine ⟨?_, .inl rfl⟩
    simp only [allPos_cons, allPos_nil, and_true]
    omega
  split at h
  · obtain ⟨⟩ := h
    refine ⟨?_, .inr ⟨rfl, ?_⟩⟩
    · simp only [allPos_cons, allPos_nil, and_true]
      omega
    · simp only
      omega
  · simp at h

theorem fuseFirst_spec : ∀ {empty empty' : List Rectangle}, fuseFirst type r empty = some
    (empty', r') →
    ∃ found rest news, empty.Perm (found :: rest) ∧ fuse type r found = some (news, r') ∧
      empty'.Perm (news ++ rest) := by
  intro empty
  induction empty with
  | nil =>
    intro empty' h
    simp [fuseFirst] at h
  | cons found empty ih =>
    intro empty' h
    rw [fuseFirst] at h
    split at h
    · rename_i news r1 hfuse
      obtain ⟨⟩ := h
      exact ⟨found, empty, news, List.Perm.refl _, hfuse, List.perm_append_comm⟩
    · obtain ⟨⟨empty1, r1⟩, hrest, hpair⟩ := Option.map_eq_some_iff.mp h
      obtain ⟨⟩ := hpair
      obtain ⟨found1, rest, news, hperm, hfuse, hperm'⟩ := ih hrest
      refine ⟨found1, found :: rest, news, ?_, hfuse, ?_⟩
      · exact (hperm.cons found).trans (List.Perm.swap _ _ _)
      · exact (hperm'.cons found).trans List.perm_middle.symm

/-- Merging ends and covers the same cells. -/
theorem mergeLoop_ends (type : Packing) (n : Nat) : ∀ (k : Nat) (empty : List Rectangle)
    (r : Rectangle), empty.length = n → r.h.toNat = k → AllPos (r :: empty) →
      ∃ ys, Outcome.Ends (fun turns => mergeLoop type turns empty r) ys ∧ AllPos ys ∧
        ∀ p, mult pixels ys p = mult pixels (r :: empty) p := by
  -- the length of the list goes down, or it stays and the height of `r` goes down
  induction n using Nat.strong_induction_on with
  | _ n ihn =>
    intro k
    induction k using Nat.strong_induction_on with
    | _ k ihk =>
      intro empty r hlen hheight hpos
      cases hfirst : fuseFirst type r empty with
      | none =>
        refine ⟨empty ++ [r], ⟨1, ?_⟩, ?_, ?_⟩
        · intro m hm
          obtain ⟨m, rfl⟩ : ∃ j, m = j + 1 := ⟨m - 1, by omega⟩
          simp only [mergeLoop, hfirst]
        · simp only [allPos_append, allPos_cons] at *
          exact ⟨hpos.2, hpos.1, allPos_nil⟩
        · intro p
          exact mult_perm (List.perm_append_singleton r empty)
      | some pair =>
        obtain ⟨empty', r'⟩ := pair
        obtain ⟨found, rest, news, hperm, hfuse, hperm'⟩ := fuseFirst_spec hfirst
        have hposFound : AllPos (found :: rest) := (allPos_cons.mp hpos).2.perm hperm
        obtain ⟨hr, -⟩ := allPos_cons.mp hpos
        obtain ⟨hf, hrest⟩ := allPos_cons.mp hposFound
        obtain ⟨hnews, hsmaller⟩ := fuse_smaller hr hf hfuse
        have hmult (p : Int × Int) :
            mult pixels (r' :: empty') p = mult pixels (r :: empty) p := by
          have h1 := fuse_mult hr hf hfuse p
          rw [mult_perm (hperm'.cons r'), mult_perm (hperm.cons r)]
          simp only [mult_cons, mult_append, mult_nil] at h1 ⊢
          omega
        have hpos' : AllPos (r' :: empty') := by
          refine AllPos.perm ?_ (hperm'.symm.cons r')
          simp only [allPos_cons, allPos_append] at hnews ⊢
          exact ⟨hnews.1, hnews.2, hrest⟩
        have hlen' : empty'.length + 1 = news.length + empty.length := by
          rw [hperm'.length_eq, hperm.length_eq]
          simp only [List.length_append, List.length_cons]
          omega
        have hloop : ∀ m, mergeLoop type (m + 1) empty r = mergeLoop type m empty' r' := by
          intro m
          simp only [mergeLoop, hfirst]
        have hdone : ∃ ys, Outcome.Ends (fun turns => mergeLoop type turns empty' r') ys ∧
            AllPos ys ∧ ∀ p, mult pixels ys p = mult pixels (r' :: empty') p := by
          rcases hsmaller with hnil | ⟨hone, hlow⟩
          · rw [hnil, List.length_nil] at hlen'
            exact ihn empty'.length (by omega) _ empty' r' rfl rfl hpos'
          · refine ihk r'.h.toNat (by omega) empty' r' (by omega) rfl hpos'
        obtain ⟨ys, hends, hys, hm⟩ := hdone
        exact ⟨ys, hends.succ hloop, hys, fun p => (hm p).trans (hmult p)⟩

theorem mergeList_ends (type : Packing) (hempty : AllPos empty) (hr : 0 ≤ r.w ∧ 0 ≤ r.h) :
    ∃ ys, Outcome.Ends (fun turns => mergeList turns type empty r) ys ∧ AllPos ys ∧
      ∀ p, mult pixels ys p = mult pixels (r :: empty) p := by
  unfold mergeList
  split
  · refine ⟨empty, ends_const _, hempty, ?_⟩
    intro p
    rw [mult_cons, if_neg]
    · omega
    · simp only [mem_pixels]
      omega
  · have hpos : AllPos (r :: empty) := by
      simp only [allPos_cons]
      exact ⟨by omega, hempty⟩
    exact mergeLoop_ends type _ _ empty r rfl rfl hpos

/-! ### Cutting -/

theorem splitSpace_mult (htype : type ≠ .bottomLeftSkylineImproved) (hw : 0 < w)
    (hh : 0 < h) (hfit : w ≤ r.w ∧ h ≤ r.h) (p : Int × Int) :
    mult pixels (⟨r.x, r.y, w, h⟩ :: splitSpace type r w h) p = mult pixels [r] p := by
  unfold splitSpace
  split
  · simp only [mult_cons, mult_nil, mem_pixels]
    split_ifs <;> omega
  split
  · simp only [mult_cons, mem_pixels]
    split_ifs <;> omega
  dsimp only
  split
  · simp only [mult_cons, mem_pixels]
    split_ifs <;> omega
  · simp only [mult_cons, mem_pixels]
    split_ifs <;> omega

theorem splitSpace_nonneg (hw : 0 < w) (hh : 0 < h) (hfit : w ≤ r.w ∧ h ≤ r.h) :
    ∀ s ∈ splitSpace type r w h, 0 ≤ s.w ∧ 0 ≤ s.h := by
  intro s hs
  unfold splitSpace at hs
  split at hs
  · rw [List.mem_singleton] at hs
    subst hs
    simp only
    omega
  split at hs
  · rw [List.mem_singleton] at hs
    subst hs
    simp only
    omega
  · simp only [List.mem_cons, List.not_mem_nil, or_false] at hs
    rcases hs with rfl | rfl
    · split_ifs <;> simp only <;> omega
    · split_ifs <;> simp only <;> omega

theorem foldlM_mergeList_ends (type : Packing) : ∀ (pieces empty : List Rectangle), AllPos empty →
    (∀ s ∈ pieces, 0 ≤ s.w ∧ 0 ≤ s.h) →
      ∃ ys, Outcome.Ends (fun turns => pieces.foldlM (mergeList turns type) empty) ys ∧ AllPos ys ∧
        ∀ p, mult pixels ys p = mult pixels (pieces ++ empty) p := by
  intro pieces
  induction pieces with
  | nil =>
    intro empty hempty _
    exact ⟨empty, ends_const _, hempty, fun _ => rfl⟩
  | cons s pieces ih =>
    intro empty hempty hnonneg
    obtain ⟨ys, hends, hys, hm⟩ := mergeList_ends type hempty (hnonneg s List.mem_cons_self)
    obtain ⟨zs, hends', hzs, hm'⟩ :=
      ih ys hys fun s' hs' => hnonneg s' (List.mem_cons_of_mem _ hs')
    refine ⟨zs, ?_, hzs, ?_⟩
    · exact hends.bind hends'
    · intro p
      have h1 := hm p
      have h2 := hm' p
      simp only [mult_append, mult_cons] at *
      omega

/-! ### The pool -/

namespace Pool

/-- The area of the pool. -/
def area (pool : Pool) : Set (Int × Int) := pixels ⟨0, 0, pool.w, pool.h⟩

/-- The free and the live rectangles are well formed and tile the area. -/
structure Partitioned (pool : Pool) : Prop where
  positive : AllPos (pool.empty ++ pool.head)
  tiles : Tiles pixels (pool.empty ++ pool.head) pool.area
  counted : pool.references = pool.head.length

variable {pool : Pool} {rect : Rectangle} {w h : Int}

theorem sortEmpty_perm (pool : Pool) : pool.sortEmpty.empty.Perm pool.empty := by
  unfold sortEmpty
  split
  · exact List.Perm.refl _
  · exact Lists.sort_perm _ _

theorem Partitioned.corner (hp : Partitioned pool) (hr : r ∈ pool.empty) :
    0 ≤ r.x ∧ 0 ≤ r.y := by
  have hpos := hp.positive r (List.mem_append_left _ hr)
  have hmem : ((r.x, r.y) : Int × Int) ∈ pool.area := by
    rw [← hp.tiles.cover_eq]
    refine ⟨r, List.mem_append_left _ hr, ?_⟩
    simp only [mem_pixels]
    omega
  simp only [area, mem_pixels] at hmem
  omega

/-- A request keeps the partition of the pool. -/
theorem request_partitioned (hp : Partitioned pool) (htype : pool.type ≠ .bottomLeftSkylineImproved)
    (w h : Int) : ∃ pool' out, Outcome.Ends (fun turns => request turns pool w h) (pool', out) ∧
      Partitioned pool' ∧ pool'.type = pool.type ∧ pool'.area = pool.area := by
  unfold request
  split
  · exact ⟨pool, none, ends_const _, hp, rfl, rfl⟩
  split
  · exact ⟨pool, none, ends_const _, hp, rfl, rfl⟩
  obtain ⟨hhead, htype', hw, hh, hrefs⟩ := sortEmpty_fields pool
  have hsort := sortEmpty_perm pool
  simp only [returns_bind]
  cases hfirst : takeFirst (fun r => decide (w ≤ r.w ∧ h ≤ r.h)) pool.sortEmpty.empty with
  | none =>
    refine ⟨pool.sortEmpty, none, ?_, ⟨?_, ?_, ?_⟩, htype', ?_⟩
    · simp only [emptySpaceFind, hfirst]
      exact ends_const _
    · rw [hhead]
      exact hp.positive.perm (hsort.symm.append_right _)
    · rw [hhead]
      refine Tiles.of_mult (by simpa only [area, hw, hh] using hp.tiles) ?_
      intro p
      exact mult_perm (hsort.append_right _)
    · rw [hrefs, hhead]
      exact hp.counted
    · simp only [area, hw, hh]
  | some pair =>
    obtain ⟨r, rest⟩ := pair
    obtain ⟨hfit, hperm⟩ := takeFirst_perm hfirst
    have hfit' : w ≤ r.w ∧ h ≤ r.h := by simpa using hfit
    have hperm' : pool.empty.Perm (r :: rest) := hsort.symm.trans hperm
    have hempty : AllPos (r :: rest) :=
      AllPos.perm (allPos_append.mp hp.positive).1 hperm'
    obtain ⟨hcorner, -⟩ := hp.corner (hperm'.mem_iff.mpr List.mem_cons_self)
    obtain ⟨ys, hends, hys, hm⟩ := foldlM_mergeList_ends pool.type (splitSpace pool.type r w h)
      rest (allPos_cons.mp hempty).2 (splitSpace_nonneg (by omega) (by omega) hfit')
    refine ⟨pool.granted ys ⟨r.x, r.y, w, h⟩, some ⟨r.x, r.y, w, h⟩, ?_, ?_, rfl, rfl⟩
    · simp only [emptySpaceFind, hfirst]
      refine Outcome.Ends.bind (hends.bind (ends_const _)) ?_
      dsimp only
      rw [if_neg (by omega)]
      exact ends_const _
    · refine ⟨?_, ?_, ?_⟩
      · simp only [granted, allPos_append, allPos_cons]
        exact ⟨hys, ⟨by omega, by omega⟩, (allPos_append.mp hp.positive).2⟩
      · refine Tiles.of_mult hp.tiles ?_
        intro p
        have hcut := splitSpace_mult htype (h := h) (by omega) (by omega) hfit' p
        have hlist := hm p
        have hold := mult_perm (f := pixels) (p := p) hperm'
        simp only [granted, mult_append, mult_cons, mult_nil] at *
        omega
      · simp only [granted, hp.counted, List.length_cons]

theorem release_partitioned (hp : Partitioned pool)
    (htype : pool.type ≠ .bottomLeftSkylineImproved) {k : Nat}
    (hk : pool.head[k]? = some rect) : ∃ pool',
      Outcome.Ends (fun turns => release turns pool k rect) pool' ∧
        Partitioned pool' ∧ pool'.type = pool.type ∧ pool'.area = pool.area := by
  have hlt : k < pool.head.length := (getElem?_eq_some_iff.mp hk).1
  have hhead : pool.head.Perm (rect :: pool.head.eraseIdx k) := by
    obtain ⟨_, rfl⟩ := getElem?_eq_some_iff.mp hk
    exact (List.getElem_cons_eraseIdx_perm hlt).symm
  obtain ⟨hempty, hlive⟩ := allPos_append.mp hp.positive
  have hlive' : AllPos (rect :: pool.head.eraseIdx k) := hlive.perm hhead
  obtain ⟨hrect, hrest⟩ := allPos_cons.mp hlive'
  obtain ⟨ys, hends, hys, hm⟩ := mergeList_ends (r := rect) pool.type hempty (by omega)
  refine ⟨pool.released k ys, ?_, ?_, rfl, rfl⟩
  · simp only [release, htype]
    exact hends.bind (ends_const _)
  · refine ⟨?_, ?_, ?_⟩
    · simp only [allPos_append]
      exact ⟨hys, hrest⟩
    · refine Tiles.of_mult hp.tiles ?_
      intro p
      have hlist := hm p
      have hold := mult_perm (f := pixels) (p := p) hhead
      simp only [released, mult_append, mult_cons] at *
      omega
    · simp only [released, hp.counted, List.length_eraseIdx, if_pos hlt]

/-! ### Runs -/

theorem step_partitioned (hp : Partitioned pool) (htype : pool.type ≠ .bottomLeftSkylineImproved)
    (op : Op) : ∃ pool' out, Step pool op pool' out ∧ Partitioned pool' ∧ pool'.type = pool.type ∧
      pool'.area = pool.area := by
  cases op with
  | request w h => exact request_partitioned hp htype w h
  | release k =>
    cases hk : pool.head[k]? with
    | none =>
      refine ⟨pool, none, ?_, hp, rfl, rfl⟩
      simp only [Step, step, hk]
      exact ends_const _
    | some rect =>
      obtain ⟨pool', hends, hp', htype', harea⟩ := release_partitioned hp htype hk
      refine ⟨pool', none, ?_, hp', htype', harea⟩
      simp only [Step, step, hk]
      exact hends.bind (ends_const _)

theorem request_granted {turns : Nat} {pool' : Pool}
    (h' : request turns pool w h = .returns (pool', some rect)) : rect.w = w ∧ rect.h = h := by
  unfold request at h'
  split at h'
  · simp at h'
  split at h'
  · simp at h'
  obtain ⟨empty, -, h'⟩ := bind_eq_returns.mp h'
  obtain ⟨⟨empty', x, y⟩, -, h'⟩ := bind_eq_returns.mp h'
  dsimp only at h'
  split at h'
  · simp at h'
  obtain ⟨empty'', -, h'⟩ := bind_eq_returns.mp h'
  obtain ⟨⟩ := h'
  exact ⟨rfl, rfl⟩

/-- What a call returns: a granted rectangle has the size that was asked for. -/
def Grants (op : Op) (out : Option Rectangle) : Prop :=
  ∀ w h rect, op = .request w h → out = some rect → rect.w = w ∧ rect.h = h

theorem step_grants (pool : Pool) (op : Op) (pool' : Pool) (out : Option Rectangle)
    (h : Step pool op pool' out) : Grants op out := by
  rintro w h' rect rfl rfl
  obtain ⟨n, hn⟩ := h
  exact request_granted (hn n (le_refl n))

theorem new_head (type : Packing) (hnew : new w h = some pool) :
    (pool.packingSet type).head = [] := by
  unfold new at hnew
  split at hnew
  · simp at hnew
  · obtain rfl := Option.some.inj hnew
    rfl

theorem new_partitioned (hnew : new w h = some pool) (type : Packing) :
    Partitioned (pool.packingSet type) ∧ pool.w = w ∧ pool.h = h := by
  unfold new at hnew
  split at hnew
  · simp at hnew
  obtain rfl := Option.some.inj hnew
  refine ⟨⟨?_, ?_, rfl⟩, rfl, rfl⟩
  · simp only [packingSet, List.append_nil, allPos_cons, allPos_nil, and_true]
    omega
  · intro p
    simp only [packingSet, area, List.append_nil, mult_cons, mult_nil]
    constructor
    · intro hp
      rw [if_pos hp]
    · intro hp
      rw [if_neg hp]

/--
**The pool is partitioned**: whatever is requested and released, the free rectangles and those that
were granted and not given back are disjoint, not empty and make up the area; a granted rectangle
has the size that was asked for, and `references` counts those in use.
-/
theorem run_partitioned (w h : Int) (pool : Pool) (hnew : new w h = some pool) (type : Packing)
    (htype : type ≠ .bottomLeftSkylineImproved) (ops : List Op) :
    (∃ pool' outs, Traces Step (pool.packingSet type) ops pool' outs) ∧
      ∀ pool' outs, Traces Step (pool.packingSet type) ops pool' outs →
        (pool'.empty ++ inUse ops outs).Pairwise (fun r s => Disjoint r.pixels s.pixels) ∧
        (∀ r ∈ pool'.empty ++ inUse ops outs, 0 < r.w ∧ 0 < r.h) ∧
        cover pixels (pool'.empty ++ inUse ops outs) = pixels ⟨0, 0, w, h⟩ ∧
        pool'.references = (inUse ops outs).length ∧ List.Forall₂ Grants ops outs := by
  obtain ⟨hstart, hw, hh⟩ := new_partitioned hnew type
  let I (p : Pool) : Prop := Partitioned p ∧ p.type = type ∧ p.area = pixels ⟨0, 0, w, h⟩
  have hI : I (pool.packingSet type) := ⟨hstart, rfl, by simp only [area, packingSet, hw, hh]⟩
  have hstep : ∀ p op, I p → ∃ p' out, Step p op p' out ∧ I p' := by
    intro p op hp
    obtain ⟨p', out, hs, hp', htype', harea⟩ :=
      step_partitioned hp.1 (by rw [hp.2.1]; exact htype) op
    exact ⟨p', out, hs, hp', htype'.trans hp.2.1, harea.trans hp.2.2⟩
  obtain ⟨hexists, hkeep⟩ := traces_total Step.unique hstep ops hI
  refine ⟨hexists, ?_⟩
  intro pool' outs hrun
  obtain ⟨hp, -, harea⟩ := hkeep pool' outs hrun
  have hhead : (pool.packingSet type).head = [] := new_head type hnew
  rw [← run_use hhead hrun]
  exact ⟨hp.tiles.pairwise, hp.positive, by rw [hp.tiles.cover_eq, harea], hp.counted,
    traces_forall₂ step_grants ops _ _ _ hrun⟩

theorem run_partitioned_grantedAgain : ∃ pool pool', new 64 64 = some pool ∧
    Traces Step (pool.packingSet .bottomLeftSkyline) grantedAgain pool'
      [some ⟨0, 0, 16, 16⟩, some ⟨16, 0, 8, 32⟩, some ⟨24, 0, 20, 10⟩, none,
        some ⟨44, 0, 8, 20⟩] ∧
      pool'.references = 3 ∧
      cover pixels (pool'.empty ++ [⟨44, 0, 8, 20⟩, ⟨24, 0, 20, 10⟩, ⟨0, 0, 16, 16⟩]) =
        pixels ⟨0, 0, 64, 64⟩ := by
  have hnew : new 64 64 = some ⟨[], [⟨0, 0, 64, 64⟩], cmp, 0, .ascending, 0, 64, 64, false⟩ := rfl
  have hrun : ∃ pool', Traces Step (sized64 .bottomLeftSkyline [] [⟨0, 0, 64, 64⟩] 0)
      grantedAgain pool' [some ⟨0, 0, 16, 16⟩, some ⟨16, 0, 8, 32⟩, some ⟨24, 0, 20, 10⟩, none,
        some ⟨44, 0, 8, 20⟩] := by
    refine exists_traces_cons (b := sized64 .bottomLeftSkyline [⟨0, 0, 16, 16⟩]
      [⟨16, 0, 48, 64⟩, ⟨0, 16, 16, 48⟩] 0) (step_of_turns 20 fun _ => rfl) ?_
    refine exists_traces_cons (b := sized64 .bottomLeftSkyline [⟨16, 0, 8, 32⟩, ⟨0, 0, 16, 16⟩]
      [⟨0, 16, 16, 48⟩, ⟨24, 0, 40, 64⟩, ⟨16, 32, 8, 32⟩] 0) (step_of_turns 20 fun _ => rfl) ?_
    refine exists_traces_cons (b := sized64 .bottomLeftSkyline
      [⟨24, 0, 20, 10⟩, ⟨16, 0, 8, 32⟩, ⟨0, 0, 16, 16⟩]
      [⟨0, 16, 16, 48⟩, ⟨44, 0, 20, 64⟩, ⟨24, 10, 20, 22⟩, ⟨16, 32, 28, 32⟩] 0)
      (step_of_turns 20 fun _ => by with_unfolding_all rfl) ?_
    refine exists_traces_cons (b := sized64 .bottomLeftSkyline [⟨24, 0, 20, 10⟩, ⟨0, 0, 16, 16⟩]
      [⟨44, 0, 20, 64⟩, ⟨16, 0, 8, 10⟩, ⟨16, 10, 28, 6⟩, ⟨0, 16, 44, 48⟩] 1)
      (step_of_turns 20 fun _ => rfl) ?_
    refine exists_traces_cons (b := sized64 .bottomLeftSkyline
      [⟨44, 0, 8, 20⟩, ⟨24, 0, 20, 10⟩, ⟨0, 0, 16, 16⟩]
      [⟨16, 0, 8, 10⟩, ⟨16, 10, 28, 6⟩, ⟨0, 16, 44, 48⟩, ⟨52, 0, 12, 64⟩, ⟨44, 20, 8, 44⟩] 0)
      (step_of_turns 20 fun _ => by with_unfolding_all rfl) ?_
    exact ⟨_, rfl, rfl⟩
  obtain ⟨pool', hrun⟩ := hrun
  obtain ⟨-, -, hcover, hcount, -⟩ :=
    (run_partitioned 64 64 _ hnew .bottomLeftSkyline (by decide) grantedAgain).2 pool' _ hrun
  exact ⟨_, pool', hnew, hrun, hcount, hcover⟩

end Pool

end Eina.Rectangle
