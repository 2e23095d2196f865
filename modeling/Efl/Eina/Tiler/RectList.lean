/-
`rect_list_del_split_strict` on the nodes of the lists.

A node that is taken out of a list goes to the pool, where the next piece that is appended may take
it from again, while the list is still walked.  `malloc` gives an address above all others.
-/
import Mathlib.Data.List.Forall2
import Efl.Lib.Forward
import Efl.Lib.Partition
import Efl.Eina.Tiler.Coverage

namespace Eina.Tiler

open Cover Forward List Option
open Function (update update_self update_of_ne)

/-- The nodes and the pool; `next` is undefined where there is no node. -/
structure Nodes where
  next : Nat → Option (Option Nat)
  rect : Nat → Rect
  /-- `list_node_pool.node` -/
  pool : Option Nat
  /-- `list_node_pool.len` -/
  len : Nat
  /-- What `malloc` gives. -/
  fresh : Nat

/-- `list_t` -/
structure NodeList where
  head : Option Nat
  tail : Option Nat
  deriving DecidableEq

/-- `list_zeroed` -/
def NodeList.zeroed : NodeList := ⟨none, none⟩

namespace Nodes

/-- `node->next = v` -/
def setNext (m : Nodes) (node : Nat) (v : Option Nat) : Option Nodes :=
  (m.next node).map fun _ => { m with next := update m.next node (some v) }

/-- `rect_list_node_pool_get` -/
def poolGet (m : Nodes) : Option (Nodes × Nat) :=
  match m.pool with
  | some node => (m.next node).map fun next => ({ m with pool := next, len := m.len - 1 }, node)
  | none =>
    some ({ m with next := update m.next m.fresh (some none), fresh := m.fresh + 1 }, m.fresh)

/-- `rect_list_node_pool_put` -/
def poolPut (m : Nodes) (node : Nat) : Option Nodes :=
  if m.len < 1024 then
    (m.setNext node m.pool).map fun m => { m with pool := some node, len := m.len + 1 }
  else (m.next node).map fun _ => { m with next := update m.next node none }

/-- `rect_list_append_node` -/
def appendNode (m : Nodes) (rects : NodeList) (node : Nat) : Option (Nodes × NodeList) :=
  match rects.tail with
  | some tail => (m.setNext tail (some node)).map fun m => (m, { rects with tail := some node })
  | none => some (m, ⟨some node, some node⟩)

/-- `rect_list_append` -/
def append (m : Nodes) (rects : NodeList) (r : Rect) : Option (Nodes × NodeList) :=
  m.poolGet.bind fun (m, node) =>
  ({ m with rect := update m.rect node r }.setNext node none).bind fun m =>
  m.appendNode rects node

/-- `_split_strict`, which appends the pieces one after the other. -/
def appendAll : Nodes → NodeList → List Rect → Option (Nodes × NodeList)
  | m, dirty, [] => some (m, dirty)
  | m, dirty, r :: rs => (m.append dirty r).bind fun (m, dirty) => m.appendAll dirty rs

/-- `rect_list_concat`; `other` is empty afterwards. -/
def concat (m : Nodes) (rects other : NodeList) : Option (Nodes × NodeList) :=
  match other.head with
  | none => some (m, rects)
  | some head =>
    match rects.tail with
    | some tail =>
      (m.setNext tail (some head)).map fun m => (m, { rects with tail := other.tail })
    | none => some (m, other)

/-- `rect_list_unlink_next` -/
def unlinkNext (m : Nodes) (rects : NodeList) (parent : Option Nat) :
    Option (Nodes × NodeList × Nat) :=
  let unlinked : Option (Nodes × NodeList × Nat) :=
    match parent with
    | some parent =>
      (m.next parent).bind fun node =>
      node.bind fun node =>
      (m.next node).bind fun next =>
      (m.setNext parent next).map fun m => (m, rects, node)
    | none =>
      rects.head.bind fun node =>
      (m.next node).map fun next => (m, { rects with head := next }, node)
  unlinked.bind fun (m, rects, node) =>
  let rects := if rects.tail = some node then { rects with tail := parent } else rects
  (m.setNext node none).map fun m => (m, rects, node)

/-- `rect_list_del_next` -/
def delNext (m : Nodes) (rects : NodeList) (parent : Option Nat) : Option (Nodes × NodeList) :=
  (m.unlinkNext rects parent).bind fun (m, rects, node) =>
  (m.poolPut node).map fun m => (m, rects)

/-- The loop of `rect_list_del_split_strict`, within some turns. -/
def delLoop (delR : Rect) : Nat → Nodes → NodeList → NodeList → Option Nat → Option Nat →
    Option (Nodes × NodeList × NodeList)
  | _, m, rects, modified, _, none => some (m, rects, modified)
  | 0, _, _, _, _, some _ => none
  | turns + 1, m, rects, modified, prev, some cur =>
    let current := m.rect cur
    let intra := calcIntraRectArea delR current
    if intra.1 ≤ 0 ∨ intra.2 ≤ 0 then
      (m.next cur).bind fun next => delLoop delR turns m rects modified (some cur) next
    else if intra = (current.width, current.height) then
      (m.next cur).bind fun next =>
      (m.delNext rects prev).bind fun (m, rects) =>
      delLoop delR turns m rects modified prev next
    else
      (m.appendAll modified (splitStrict delR current)).bind fun (m, modified) =>
      (m.next cur).bind fun next =>
      (m.delNext rects prev).bind fun (m, rects) =>
      delLoop delR turns m rects modified prev next

/-- `rect_list_del_split_strict` -/
def delSplit (turns : Nat) (m : Nodes) (rects : NodeList) (delR : Rect) :
    Option (Nodes × NodeList) :=
  (delLoop delR turns m rects .zeroed none rects.head).bind fun (m, rects, modified) =>
  m.concat rects modified

/-! ### What the lists hold -/

/-- The nodes of a list. -/
structure Holds (next : Nat → Option (Option Nat)) (l : NodeList) (xs : List Nat) : Prop where
  seg : Seg next l.head xs none
  tail : l.tail = xs.getLast?

/-- Two lists and the pool, all of different nodes. -/
structure Apart (m : Nodes) (rects modified : NodeList) (xs ms ps : List Nat) : Prop where
  rects : Holds m.next rects xs
  modified : Holds m.next modified ms
  pool : Seg m.next m.pool ps none
  nodup : (xs ++ (ms ++ ps)).Nodup
  below : ∀ y ∈ xs ++ (ms ++ ps), y < m.fresh

variable {m m' : Nodes} {rects modified : NodeList} {xs ms ps : List Nat} {node : Nat} {r : Rect}
  {pre rest : List Nat} {next : Nat → Option (Option Nat)} {l : NodeList} (delR : Rect)

theorem Holds.update (h : Holds next l xs)
    (hnode : node ∉ xs) (v : Option Nat) : Holds (update next node (some v)) l xs :=
  ⟨h.seg.update hnode v, h.tail⟩

theorem holds_zeroed (next : Nat → Option (Option Nat)) : Holds next .zeroed [] := ⟨rfl, rfl⟩

theorem setNext_eq (h : (m.next node).isSome) (v : Option Nat) :
    m.setNext node v = some { m with next := update m.next node (some v) } := by
  obtain ⟨w, hw⟩ := isSome_iff_exists.mp h
  rw [setNext, hw]
  rfl

theorem perm_node : (xs ++ (ms ++ node :: ps)).Perm (node :: (xs ++ (ms ++ ps))) := by
  rw [← append_assoc, ← append_assoc]
  exact perm_middle

theorem poolGet_spec (h : Apart m rects modified xs ms ps) : ∃ m' node ps',
    m.poolGet = some (m', node) ∧ Apart m' rects modified xs ms ps' ∧ m'.rect = m.rect ∧
      (m'.next node).isSome ∧ node ∉ xs ++ (ms ++ ps') ∧ node < m'.fresh := by
  obtain ⟨hrects, hmodified, hpool, hnodup, hbelow⟩ := h
  unfold poolGet
  cases ps with
  | nil =>
    have hnone : m.pool = none := hpool
    rw [hnone]
    have hnew : m.fresh ∉ xs ++ (ms ++ []) := fun hin => lt_irrefl _ (hbelow _ hin)
    rw [mem_append, mem_append, not_or, not_or] at hnew
    refine ⟨_, _, [], rfl, ⟨hrects.update hnew.1 none, hmodified.update hnew.2.1 none, rfl,
      hnodup, ?_⟩, rfl, ?_, ?_, Nat.lt_succ_self _⟩
    · intro y hy
      exact Nat.lt_succ_of_lt (hbelow y hy)
    · dsimp only
      rw [update_self]
      rfl
    · rw [mem_append, mem_append, not_or, not_or]
      exact hnew
  | cons node ps =>
    obtain ⟨hfirst, next, hnext, hrest⟩ := hpool
    rw [hfirst]
    dsimp only
    rw [hnext]
    have hcons := perm_node.nodup_iff.mp hnodup
    rw [nodup_cons] at hcons
    refine ⟨_, _, ps, rfl, ⟨hrects, hmodified, hrest, hcons.2, ?_⟩, rfl, ?_, hcons.1, ?_⟩
    · intro y hy
      exact hbelow y (perm_node.mem_iff.mpr (mem_cons_of_mem _ hy))
    · rw [hnext]
      rfl
    · exact hbelow node (perm_node.mem_iff.mpr mem_cons_self)

theorem appendNode_spec (h : Holds m.next l ms) (hnode : node ∉ ms)
    (hnodup : ms.Nodup) (hnone : m.next node = some none) : ∃ next l',
    m.appendNode l node = some ({ m with next := next }, l') ∧ Holds next l' (ms ++ [node]) ∧
      ∀ y ∉ ms, next y = m.next y := by
  obtain ⟨hseg, htail⟩ := h
  unfold appendNode
  rcases eq_nil_or_concat ms with rfl | ⟨init, last, rfl⟩
  · rw [htail]
    exact ⟨m.next, _, rfl, ⟨⟨rfl, none, hnone, rfl⟩, rfl⟩, fun _ _ => rfl⟩
  rw [concat_eq_append] at *
  rw [getLast?_concat] at htail
  obtain ⟨q, hinit, hq, n, hn, hend⟩ := seg_append.mp hseg
  have hlast : last ∉ init := by
    rw [nodup_append] at hnodup
    exact fun hin => hnodup.2.2 last hin last (by simp) rfl
  have hne : node ≠ last := by
    rintro rfl
    exact hnode (by simp)
  rw [htail]
  dsimp only
  rw [setNext_eq (by rw [hn]; rfl)]
  refine ⟨_, _, rfl, ⟨?_, ?_⟩, ?_⟩
  · rw [append_assoc, seg_append]
    refine ⟨q, hinit.update hlast _, hq, some node, update_self .., rfl, none, ?_, rfl⟩
    rw [update_of_ne hne, hnone]
  · rw [getLast?_concat]
  · intro y hy
    refine update_of_ne ?_ _ _
    rintro rfl
    exact hy (by simp)

/-- A rectangle is put on the other list. -/
theorem append_spec (h : Apart m rects modified xs ms ps) (r : Rect) : ∃ m' modified' node ps',
    m.append modified r = some (m', modified') ∧
      Apart m' rects modified' xs (ms ++ [node]) ps' ∧ m'.rect node = r ∧
      ∀ y ∈ xs ++ ms, m'.rect y = m.rect y := by
  obtain ⟨m1, node, ps', hget, h1, hrect, hthere, hnode, hfresh⟩ := poolGet_spec h
  obtain ⟨hrects, hmodified, hpool, hnodup, hbelow⟩ := h1
  rw [mem_append, mem_append, not_or, not_or] at hnode
  obtain ⟨hxs, hms, hps⟩ := hnode
  have hnodups := hnodup
  rw [nodup_append, nodup_append] at hnodups
  obtain ⟨hnodupx, ⟨hnodupm, hnodupp, hmp⟩, hxmp⟩ := hnodups
  obtain ⟨next, modified', happend, hholds, hsame⟩ := appendNode_spec
    (m := { m1 with rect := update m1.rect node r, next := update m1.next node (some none) })
    (hmodified.update hms none) hms hnodupm (update_self ..)
  refine ⟨{ m1 with rect := update m1.rect node r, next := next }, modified', node, ps', ?_,
    ⟨⟨?_, hrects.tail⟩, hholds, ?_, ?_, ?_⟩, ?_, ?_⟩
  · unfold append
    rw [hget]
    dsimp only [bind_some]
    rw [setNext_eq (m := { m1 with rect := update m1.rect node r }) hthere]
    exact happend
  · refine (hrects.seg.update hxs none).congr fun y hy => hsame y fun hin => ?_
    exact hxmp y hy y (mem_append_left _ hin) rfl
  · refine (hpool.update hps none).congr fun y hy => hsame y fun hin => ?_
    exact hmp y hin y hy rfl
  · rw [append_assoc]
    refine perm_node.nodup_iff.mpr (nodup_cons.mpr ⟨?_, hnodup⟩)
    rw [mem_append, mem_append, not_or, not_or]
    exact ⟨hxs, hms, hps⟩
  · intro y hy
    simp only [mem_append, mem_singleton] at hy
    rcases hy with hy | (hy | rfl) | hy
    · exact hbelow y (mem_append_left _ hy)
    · exact hbelow y (mem_append_right _ (mem_append_left _ hy))
    · exact hfresh
    · exact hbelow y (mem_append_right _ (mem_append_right _ hy))
  · exact update_self ..
  · intro y hy
    have hne : y ≠ node := by
      rintro rfl
      rcases mem_append.mp hy with hy | hy
      · exact hxs hy
      · exact hms hy
    dsimp only
    rw [update_of_ne hne, hrect]

theorem appendAll_spec (rs : List Rect) : ∀ {m : Nodes} {modified : NodeList} {ms ps : List Nat},
    Apart m rects modified xs ms ps → ∃ m' modified' ns ps',
      m.appendAll modified rs = some (m', modified') ∧
        Apart m' rects modified' xs (ms ++ ns) ps' ∧ ns.map m'.rect = rs ∧
        ∀ y ∈ xs ++ ms, m'.rect y = m.rect y := by
  induction rs with
  | nil =>
    intro m modified ms ps h
    refine ⟨m, modified, [], ps, rfl, ?_, rfl, fun _ _ => rfl⟩
    rw [append_nil]
    exact h
  | cons r rs ih =>
    intro m modified ms ps h
    obtain ⟨m1, modified1, node, ps1, happend, h1, hnode, hsame1⟩ := append_spec h r
    obtain ⟨m2, modified2, ns, ps2, hrest, h2, hns, hsame2⟩ := ih h1
    refine ⟨m2, modified2, node :: ns, ps2, ?_, ?_, ?_, ?_⟩
    · rw [appendAll, happend]
      exact hrest
    · rw [append_assoc] at h2
      exact h2
    · rw [map_cons, hns, hsame2 node (by simp), hnode]
    · intro y hy
      rw [hsame2, hsame1 y hy]
      rcases mem_append.mp hy with hy | hy
      · exact mem_append_left _ hy
      · exact mem_append_right _ (mem_append_left _ hy)

/-! ### Taking a node out -/

theorem poolPut_spec (h : Apart m rects modified xs ms ps) (hthere : (m.next node).isSome)
    (hnode : node ∉ xs ++ (ms ++ ps)) (hfresh : node < m.fresh) : ∃ m' ps',
    m.poolPut node = some m' ∧ Apart m' rects modified xs ms ps' ∧ m'.rect = m.rect := by
  obtain ⟨hrects, hmodified, hpool, hnodup, hbelow⟩ := h
  have hnodes := hnode
  rw [mem_append, mem_append, not_or, not_or] at hnode
  obtain ⟨hxs, hms, hps⟩ := hnode
  unfold poolPut
  split
  · rw [setNext_eq hthere]
    refine ⟨_, node :: ps, rfl, ⟨hrects.update hxs _, hmodified.update hms _, ?_, ?_, ?_⟩, rfl⟩
    · exact ⟨rfl, m.pool, update_self .., hpool.update hps _⟩
    · exact perm_node.nodup_iff.mpr (nodup_cons.mpr ⟨hnodes, hnodup⟩)
    · intro y hy
      simp only [mem_append, mem_cons] at hy
      rcases hy with hy | hy | rfl | hy
      · exact hbelow y (mem_append_left _ hy)
      · exact hbelow y (mem_append_right _ (mem_append_left _ hy))
      · exact hfresh
      · exact hbelow y (mem_append_right _ (mem_append_right _ hy))
  · obtain ⟨v, hv⟩ := isSome_iff_exists.mp hthere
    rw [hv]
    have hsame {ys : List Nat} {p : Option Nat} (hys : node ∉ ys) (hseg : Seg m.next p ys none) :
        Seg (update m.next node none) p ys none := by
      refine hseg.congr fun y hy => update_of_ne ?_ _ _
      rintro rfl
      exact hys hy
    exact ⟨_, ps, rfl, ⟨⟨hsame hxs hrects.seg, hrects.tail⟩, ⟨hsame hms hmodified.seg,
      hmodified.tail⟩, hsame hps hpool, hnodup, hbelow⟩, rfl⟩

/-- A node is taken out of the list. -/
theorem unlinkNext_spec
    (h : Holds m.next l (pre ++ node :: rest)) (hnodup : (pre ++ node :: rest).Nodup) :
    ∃ next l', m.unlinkNext l pre.getLast? = some ({ m with next := next }, l', node) ∧
      Holds next l' (pre ++ rest) ∧ (next node).isSome ∧
      ∀ y, y ∉ pre ++ node :: rest → next y = m.next y := by
  obtain ⟨hseg, htail⟩ := h
  have hrest : node ∉ pre ++ rest := by
    have hcons := (perm_middle.nodup_iff.mp hnodup)
    exact (nodup_cons.mp hcons).1
  -- where the last node goes, the one before it becomes the last
  have hlast : (if l.tail = some node then pre.getLast? else l.tail) = (pre ++ rest).getLast? := by
    rw [htail]
    rcases eq_nil_or_concat rest with rfl | ⟨rest', last, rfl⟩
    · rw [getLast?_concat, if_pos rfl, append_nil]
    have hne : last ≠ node := by
      rintro rfl
      exact hrest (by simp)
    rw [concat_eq_append, ← cons_append, ← append_assoc, getLast?_concat,
      if_neg (by simpa using hne), ← append_assoc, getLast?_concat]
  -- the node is cleared once it is linked to by none
  have hclear (next : Nat → Option (Option Nat)) (head : Option Nat)
      (hthere : (next node).isSome) (hseg' : Seg next head (pre ++ rest) none)
      (hsame : ∀ y, y ∉ pre ++ node :: rest → next y = m.next y) : ∃ next' l',
      (({ m with next := next } : Nodes).setNext node none).map (fun m =>
        (m, if l.tail = some node then { head := head, tail := pre.getLast? } else
          { l with head := head }, node)) = some ({ m with next := next' }, l', node) ∧
      Holds next' l' (pre ++ rest) ∧ (next' node).isSome ∧
      ∀ y, y ∉ pre ++ node :: rest → next' y = m.next y := by
    rw [setNext_eq hthere]
    refine ⟨_, _, rfl, ⟨?_, ?_⟩, ?_, ?_⟩
    · have hupdate := hseg'.update hrest none
      split
      · exact hupdate
      · exact hupdate
    · rw [← hlast]
      split
      · rfl
      · rfl
    · rw [update_self]
      rfl
    · intro y hy
      have hne : y ≠ node := by
        rintro rfl
        exact hy (by simp)
      rw [update_of_ne hne]
      exact hsame y hy
  unfold unlinkNext
  rcases eq_nil_or_concat pre with rfl | ⟨init, parent, rfl⟩
  · obtain ⟨hhead, next, hnext, hseg'⟩ := hseg
    rw [hhead, bind_some, hnext]
    exact hclear m.next _ (by rw [hnext]; rfl) hseg' fun _ _ => rfl
  rw [concat_eq_append] at *
  rw [append_assoc] at hseg hnodup
  obtain ⟨next, hnext, hseg'⟩ := hseg.unlink hnodup
  obtain ⟨q, -, -, n, hn, hq, -⟩ := seg_append.mp hseg
  have hne : node ≠ parent := by
    rintro rfl
    exact hrest (by simp)
  have hclear' := hclear (update m.next parent (some next)) l.head
    (by rw [update_of_ne hne, hnext]; rfl) (by rw [append_assoc]; exact hseg') (by
      intro y hy
      refine update_of_ne ?_ _ _
      rintro rfl
      exact hy (by simp))
  rw [getLast?_concat] at hclear' ⊢
  dsimp only
  rw [hn, bind_some, hq, bind_some, hnext, bind_some,
    setNext_eq (by rw [hn]; rfl)]
  exact hclear'

theorem delNext_spec
    (h : Apart m rects modified (pre ++ node :: rest) ms ps) : ∃ m' rects' ps',
    m.delNext rects pre.getLast? = some (m', rects') ∧
      Apart m' rects' modified (pre ++ rest) ms ps' ∧ m'.rect = m.rect := by
  obtain ⟨hrects, hmodified, hpool, hnodup, hbelow⟩ := h
  have hperm : (pre ++ node :: rest ++ (ms ++ ps)).Perm (node :: (pre ++ rest ++ (ms ++ ps))) := by
    rw [append_assoc, append_assoc]
    exact perm_middle
  have hcons := nodup_cons.mp (hperm.nodup_iff.mp hnodup)
  have hparts := nodup_append.mp hnodup
  obtain ⟨next, rects', hunlink, hholds, hthere, hsame⟩ := unlinkNext_spec hrects hparts.1
  have hkeep {ys : List Nat} {p : Option Nat} (hys : ∀ y ∈ ys, y ∈ ms ++ ps)
      (hseg : Seg m.next p ys none) : Seg next p ys none := by
    refine hseg.congr fun y hy => hsame y fun hin => ?_
    exact hparts.2.2 y hin y (hys y hy) rfl
  have hapart : Apart { m with next := next } rects' modified (pre ++ rest) ms ps := by
    refine ⟨hholds, ⟨hkeep (fun y hy => mem_append_left _ hy) hmodified.seg, hmodified.tail⟩,
      hkeep (fun y hy => mem_append_right _ hy) hpool, hcons.2, fun y hy => ?_⟩
    exact hbelow y (hperm.mem_iff.mpr (mem_cons_of_mem _ hy))
  obtain ⟨m', ps', hput, hapart', hrect⟩ := poolPut_spec hapart hthere hcons.1
    (hbelow node (hperm.mem_iff.mpr mem_cons_self))
  refine ⟨m', rects', ps', ?_, hapart', hrect⟩
  unfold delNext
  rw [hunlink, bind_some]
  dsimp only
  rw [hput]
  rfl

/-! ### The whole deletion -/

/-- The rectangles that stay. -/
def staysAs (delR current : Rect) : Bool :=
  decide ((calcIntraRectArea delR current).1 ≤ 0 ∨ (calcIntraRectArea delR current).2 ≤ 0)

/-- The pieces of a rectangle that does not stay. -/
def piecesOf (delR current : Rect) : List Rect :=
  if staysAs delR current then []
  else if calcIntraRectArea delR current = (current.width, current.height) then []
  else splitStrict delR current

theorem delSplitStrict_eq (rs : List Rect) :
    delSplitStrict rs delR = rs.filter (staysAs delR) ++ rs.flatMap (piecesOf delR) := by
  unfold delSplitStrict
  dsimp only
  congr 1
  induction rs with
  | nil => rfl
  | cons r rs ih =>
    rw [filter_cons, flatMap_cons, ← ih]
    unfold piecesOf staysAs
    split
    · rename_i hcut
      rw [flatMap_cons]
      simp only [Bool.and_eq_true, Bool.not_eq_true', decide_eq_false_iff_not] at hcut
      rw [if_neg (by simpa using hcut.1), if_neg hcut.2]
    rename_i hcut
    simp only [Bool.and_eq_true, Bool.not_eq_true', decide_eq_false_iff_not, not_and,
      not_not] at hcut
    split
    · rfl
    rename_i hstays
    rw [if_pos (hcut (by simpa using hstays))]
    rfl

theorem seg_start {next next' : Nat → Option (Option Nat)} {p p' q : Option Nat}
    (h : Seg next p xs q) (h' : Seg next' p' xs q) : p = p' := by
  cases xs with
  | nil =>
    have hp : p = q := h
    have hp' : p' = q := h'
    rw [hp, hp']
  | cons x xs => exact h.1.trans h'.1.symm

theorem Apart.behind (h : Apart m rects modified (pre ++ rest) ms ps) {cur : Option Nat}
    (hseg : Seg next cur rest none) :
    Seg m.next cur rest none := by
  obtain ⟨q, -, hrest⟩ := seg_append.mp h.rects.seg
  obtain rfl := seg_start hseg hrest
  exact hrest

/-- **The loop**: the rest of the list is walked. -/
theorem delLoop_spec : ∀ (rest pre : List Nat) {turns : Nat} {m : Nodes}
    {rects modified : NodeList} {ms ps : List Nat} {cur : Option Nat}, rest.length ≤ turns →
    Apart m rects modified (pre ++ rest) ms ps → Seg m.next cur rest none →
    ∃ m' rects' modified' rest' ns ps',
      delLoop delR turns m rects modified pre.getLast? cur = some (m', rects', modified') ∧
      Apart m' rects' modified' (pre ++ rest') (ms ++ ns) ps' ∧
      rest'.map m'.rect = (rest.map m.rect).filter (staysAs delR) ∧
      ns.map m'.rect = (rest.map m.rect).flatMap (piecesOf delR) ∧
      ∀ y ∈ pre ++ ms, m'.rect y = m.rect y := by
  intro rest
  induction rest with
  | nil =>
    intro pre turns m rects modified ms ps cur _ h hseg
    obtain rfl : cur = none := hseg
    refine ⟨m, rects, modified, [], [], ps, ?_, ?_, rfl, rfl, fun _ _ => rfl⟩
    · unfold delLoop
      rfl
    · rw [append_nil ms]
      exact h
  | cons c rest ih =>
    intro pre turns m rects modified ms ps cur hturns h hseg
    obtain ⟨rfl, next, hnext, hrest⟩ := hseg
    cases turns with
    | zero => simp at hturns
    | succ turns =>
    rw [length_cons, Nat.succ_le_succ_iff] at hturns
    have hsplit : pre ++ c :: rest = pre ++ [c] ++ rest := by simp
    rw [delLoop, map_cons, filter_cons, flatMap_cons]
    dsimp only
    by_cases hstays : (calcIntraRectArea delR (m.rect c)).1 ≤ 0 ∨
        (calcIntraRectArea delR (m.rect c)).2 ≤ 0
    · -- nothing to do
      have hstaysAs : staysAs delR (m.rect c) = true := by simpa [staysAs] using hstays
      rw [hsplit] at h
      obtain ⟨m', rects', modified', rest', ns, ps', hloop, hapart, hkept, hpieces, hsame⟩ :=
        ih (pre ++ [c]) hturns h hrest
      refine ⟨m', rects', modified', c :: rest', ns, ps', ?_, ?_, ?_, ?_, ?_⟩
      · rw [if_pos hstays, hnext]
        rw [getLast?_concat] at hloop
        exact hloop
      · rw [append_assoc] at hapart
        exact hapart
      · rw [if_pos hstaysAs, map_cons, hkept, hsame c (by simp)]
      · rw [piecesOf, if_pos hstaysAs]
        exact hpieces
      · intro y hy
        refine hsame y ?_
        simp only [mem_append] at hy ⊢
        tauto
    have hstaysAs : ¬staysAs delR (m.rect c) = true := by simpa [staysAs] using hstays
    rw [if_neg hstays, if_neg hstaysAs, piecesOf, if_neg hstaysAs]
    by_cases hinside : calcIntraRectArea delR (m.rect c) =
        ((m.rect c).width, (m.rect c).height)
    · -- it is covered
      obtain ⟨m1, rects1, ps1, hdel, h1, hrect⟩ := delNext_spec h
      obtain ⟨m', rects', modified', rest', ns, ps', hloop, hapart, hkept, hpieces, hsame⟩ :=
        ih pre hturns h1 (h1.behind hrest)
      rw [hrect] at hkept hpieces hsame
      refine ⟨m', rects', modified', rest', ns, ps', ?_, hapart, hkept, ?_, hsame⟩
      · rw [if_pos hinside, hnext, hdel]
        exact hloop
      · rw [if_pos hinside]
        exact hpieces
    · -- the pieces outside are appended to the other list
      obtain ⟨m1, modified1, ns1, ps1, happend, h1, hns1, hsame1⟩ :=
        appendAll_spec (splitStrict delR (m.rect c)) h
      have hseg1 : Seg m1.next (some c) (c :: rest) none := h1.behind ⟨rfl, next, hnext, hrest⟩
      obtain ⟨-, next1, hnext1, hrest1⟩ := hseg1
      obtain ⟨m2, rects2, ps2, hdel, h2, hrect⟩ := delNext_spec h1
      obtain ⟨m', rects', modified', rest', ns, ps', hloop, hapart, hkept, hpieces, hsame⟩ :=
        ih pre hturns h2 (h2.behind hrest1)
      rw [hrect] at hkept hpieces hsame
      have hold : rest.map m1.rect = rest.map m.rect := by
        refine map_congr_left fun y hy => hsame1 y ?_
        simp [hy]
      rw [hold] at hkept hpieces
      refine ⟨m', rects', modified', rest', ns1 ++ ns, ps', ?_, ?_, hkept, ?_, ?_⟩
      · rw [if_neg hinside, happend, bind_some]
        rw [hnext1, hdel]
        exact hloop
      · rw [← append_assoc]
        exact hapart
      · rw [if_neg hinside, map_append, ← hns1]
        congr 1
        refine map_congr_left fun y hy => hsame y ?_
        simp [hy]
      · intro y hy
        rw [hsame, hsame1]
        · simp only [mem_append] at hy ⊢
          tauto
        · simp only [mem_append] at hy ⊢
          tauto

/-- The two lists are joined. -/
theorem concat_spec (h : Apart m rects modified xs ms ps) : ∃ next rects',
    m.concat rects modified = some ({ m with next := next }, rects') ∧
      Holds next rects' (xs ++ ms) := by
  obtain ⟨hrects, hmodified, -, hnodup, -⟩ := h
  unfold concat
  cases ms with
  | nil =>
    have hhead : modified.head = none := hmodified.seg
    rw [hhead, append_nil]
    exact ⟨m.next, rects, rfl, hrects⟩
  | cons node ms =>
  have hhead : modified.head = some node := hmodified.seg.1
  rw [hhead]
  rw [hrects.tail]
  rcases eq_nil_or_concat xs with rfl | ⟨init, last, rfl⟩
  · exact ⟨m.next, modified, rfl, hmodified⟩
  rw [concat_eq_append] at *
  rw [getLast?_concat]
  dsimp only
  obtain ⟨q, hinit, hq, n, hn, -⟩ := seg_append.mp hrects.seg
  have hparts := nodup_append.mp hnodup
  have hlast : last ∉ init := by
    intro hin
    exact (nodup_append.mp hparts.1).2.2 last hin last (by simp) rfl
  have hother : last ∉ node :: ms := fun hin =>
    hparts.2.2 last (by simp) last (mem_append_left _ hin) rfl
  rw [setNext_eq (by rw [hn]; rfl)]
  refine ⟨_, _, rfl, ⟨?_, ?_⟩⟩
  · rw [append_assoc, seg_append]
    refine ⟨q, hinit.update hlast _, hq, some node, update_self .., ?_⟩
    rw [← hhead]
    exact hmodified.seg.update hother _
  · rw [getLast?_append, ← hmodified.tail]
    cases htail : modified.tail with
    | some t => rfl
    | none =>
      have hsome := hmodified.tail
      rw [htail, getLast?_cons] at hsome
      simp at hsome

/-- **`rect_list_del_split_strict` on the nodes** does what it does on the list. -/
theorem delSplit_spec {turns : Nat} (h : Apart m rects .zeroed xs [] ps)
    (hturns : xs.length ≤ turns) : ∃ m' rects' xs',
    m.delSplit turns rects delR = some (m', rects') ∧ Holds m'.next rects' xs' ∧
      xs'.map m'.rect = delSplitStrict (xs.map m.rect) delR := by
  obtain ⟨m1, rects1, modified1, kept, ns, ps1, hloop, h1, hkept, hpieces, -⟩ :=
    delLoop_spec delR xs [] hturns h h.rects.seg
  obtain ⟨next, rects', hconcat, hholds⟩ := concat_spec h1
  refine ⟨{ m1 with next := next }, rects', kept ++ ns, ?_, hholds, ?_⟩
  · unfold delSplit
    rw [getLast?_nil] at hloop
    rw [hloop]
    exact hconcat
  · rw [delSplitStrict_eq, map_append, hkept, hpieces]

end Nodes

/-! ### What is left -/

/-- A rectangle that covers something. -/
structure Rect.Positive (r : Rect) : Prop extends r.Ok where
  width_pos : 0 < r.width
  height_pos : 0 < r.height

open Classical in
theorem mult_ite {c : Prop} [Decidable c] {r : Rect} {p : Int × Int} :
    mult Rect.cells (if c then [r] else []) p = if c ∧ p ∈ r.cells then 1 else 0 := by
  by_cases hc : c
  · rw [if_pos hc, mult_cons]
    simp [hc]
  · rw [if_neg hc, mult_nil, if_neg fun h => hc h.1]

/-- **One rectangle**: the pieces cover what of it is outside, each cell once. -/
theorem splitStrict_tiles {a b : Rect} (ha : a.Positive) (hb : b.Positive)
    (hmeet : ¬((calcIntraRectArea a b).1 ≤ 0 ∨ (calcIntraRectArea a b).2 ≤ 0)) :
    Tiles Rect.cells (splitStrict a b) (b.cells \ a.cells) := by
  classical
  obtain ⟨⟨haright, habottom, -⟩, hawidth, haheight⟩ := ha
  obtain ⟨hleft, hright, hwidth, htop, hheight⟩ := splitRows_rest (a := a) hb.toOk
  obtain ⟨⟨hbright, hbbottom, -⟩, hbwidth, hbheight⟩ := hb
  simp only [calcIntraRectArea, not_or, not_le] at hmeet
  have hmeetx : a.left < b.right ∧ b.left < a.right := by omega
  have hmeety : a.top < b.bottom ∧ b.top < a.bottom := by omega
  rintro ⟨x, y⟩
  unfold splitStrict splitColumns
  rw [splitRows_fst, mult_append, mult_append, mult_append, mult_ite, mult_ite, mult_ite, mult_ite,
    Set.mem_sdiff]
  simp only [Rect.mem_cells, Rect.init, hleft, hright]
  rw [hheight, htop]
  clear hmeet hleft hright hwidth htop hheight
  -- of the cells of `b`, the pieces take those above, below, to the left and to the right of `a`
  obtain ⟨inside, hinside⟩ : ∃ inside, inside ↔ (b.left ≤ x ∧ x < b.right ∧ b.top ≤ y ∧
      y < b.bottom) := ⟨_, Iff.rfl⟩
  have habove : (0 < a.top - b.top ∧ b.left ≤ x ∧ x < b.left + b.width ∧ b.top ≤ y ∧
      y < b.top + (a.top - b.top)) ↔ inside ∧ y < a.top := by
    rw [hinside]
    constructor <;> omega
  have hbelow : (0 < b.bottom - a.bottom ∧ b.left ≤ x ∧ x < b.left + b.width ∧ a.bottom ≤ y ∧
      y < a.bottom + (b.bottom - a.bottom)) ↔ inside ∧ a.bottom ≤ y := by
    rw [hinside]
    constructor <;> omega
  have hbefore : (0 < a.left - b.left ∧ b.left ≤ x ∧ x < b.left + (a.left - b.left) ∧
      max a.top b.top ≤ y ∧ y < min a.bottom b.bottom) ↔
        inside ∧ x < a.left ∧ a.top ≤ y ∧ y < a.bottom := by
    rw [hinside, max_le_iff, lt_min_iff]
    constructor <;> omega
  have hbehind : (0 < b.right - a.right ∧ a.right ≤ x ∧ x < a.right + (b.right - a.right) ∧
      max a.top b.top ≤ y ∧ y < min a.bottom b.bottom) ↔
        inside ∧ a.right ≤ x ∧ a.top ≤ y ∧ y < a.bottom := by
    rw [hinside, max_le_iff, lt_min_iff]
    constructor <;> omega
  rw [if_congr habove rfl rfl, if_congr hbelow rfl rfl, if_congr hbefore rfl rfl,
    if_congr hbehind rfl rfl, ← hinside]
  clear habove hbelow hbefore hbehind hinside hmeetx hmeety
  by_cases hin : inside
  · simp only [hin, true_and]
    constructor
    · intro hp
      split_ifs <;> omega
    · intro hp
      split_ifs <;> omega
  · simp [hin]

theorem splitStrict_pos {a b r : Rect} (hb : b.Positive)
    (hmeet : ¬((calcIntraRectArea a b).1 ≤ 0 ∨ (calcIntraRectArea a b).2 ≤ 0))
    (hr : r ∈ splitStrict a b) : r.Positive := by
  obtain ⟨hleft, hright, hwidth, htop, hheight⟩ := splitRows_rest (a := a) hb.toOk
  obtain ⟨⟨hbright, hbbottom, -⟩, hbwidth, hbheight⟩ := hb
  suffices hpos : 0 < r.width ∧ 0 < r.height from ⟨splitStrict_ok hr, hpos.1, hpos.2⟩
  simp only [calcIntraRectArea] at hmeet
  unfold splitStrict splitColumns at hr
  rw [splitRows_fst] at hr
  simp only [mem_append] at hr
  rcases hr with (hr | hr) | hr | hr
  all_goals
    split at hr
    · rw [mem_singleton.mp hr]
      simp only [Rect.init]
      omega
    · exact absurd hr not_mem_nil

open Nodes

/-- What becomes of one rectangle. -/
def partOf (delR current : Rect) : List Rect :=
  (if staysAs delR current then [current] else []) ++ piecesOf delR current

theorem partOf_tiles {delR r : Rect} (hdel : delR.Positive) (hr : r.Positive) :
    Tiles Rect.cells (partOf delR r) (r.cells \ delR.cells) ∧ ∀ x ∈ partOf delR r, x.Positive := by
  unfold partOf piecesOf
  by_cases hstays : (calcIntraRectArea delR r).1 ≤ 0 ∨ (calcIntraRectArea delR r).2 ≤ 0
  · have hstaysAs : staysAs delR r = true := by simpa [staysAs] using hstays
    rw [if_pos hstaysAs, if_pos hstaysAs]
    refine ⟨fun p => ?_, fun x hx => ?_⟩
    · simp only [calcIntraRectArea] at hstays
      rw [append_nil, mult_cons, mult_nil]
      constructor
      · intro hp
        rw [if_pos hp.1]
      · intro hp
        rw [if_neg]
        intro hin
        refine hp ⟨hin, ?_⟩
        simp only [Rect.mem_cells] at hin ⊢
        omega
    · rw [append_nil, mem_singleton] at hx
      rwa [hx]
  have hstaysAs : ¬staysAs delR r = true := by simpa [staysAs] using hstays
  rw [if_neg hstaysAs, if_neg hstaysAs]
  split
  · rename_i hinside
    refine ⟨fun p => ⟨fun hp => ?_, fun _ => mult_nil⟩, fun x hx => absurd hx not_mem_nil⟩
    obtain ⟨⟨hbright, hbbottom, -⟩, -⟩ := hr
    simp only [calcIntraRectArea, Prod.mk.injEq] at hinside
    rw [Set.mem_sdiff] at hp
    simp only [Rect.mem_cells] at hp
    omega
  · exact ⟨splitStrict_tiles hdel hr hstays, fun x hx => splitStrict_pos hr hstays hx⟩

theorem delSplitStrict_perm (delR : Rect) (rs : List Rect) :
    (delSplitStrict rs delR).Perm (rs.map (partOf delR)).flatten := by
  rw [delSplitStrict_eq, ← flatMap_def]
  induction rs with
  | nil => exact List.Perm.refl _
  | cons r rs ih =>
    rw [filter_cons, flatMap_cons, flatMap_cons]
    have hmove :
        (rs.filter (staysAs delR) ++ (piecesOf delR r ++ rs.flatMap (piecesOf delR))).Perm
        (piecesOf delR r ++ rs.flatMap (partOf delR)) := by
      rw [← append_assoc]
      refine (perm_append_comm.append_right _).trans ?_
      rw [append_assoc]
      exact ih.append_left _
    unfold partOf
    split
    · exact hmove.cons r
    · exact hmove

end Eina.Tiler

open Eina.Tiler Eina.Tiler.Nodes

/--
**Deleting**: on every list of nodes `rect_list_del_split_strict` ends with a well-formed list of
rectangles that cover something.  What it covers is what the list covered before without the deleted
rectangle, and each rectangle of before has its own disjoint part of it.
-/
theorem Eina.Tiler.delSplit_exact (m : Nodes) (rects : NodeList) (xs ps : List Nat) (delR : Rect)
    (turns : Nat) (h : Apart m rects .zeroed xs [] ps) (hpos : ∀ x ∈ xs, (m.rect x).Positive)
    (hdel : delR.Positive) (hturns : xs.length ≤ turns) : ∃ m' rects' xs',
      m.delSplit turns rects delR = some (m', rects') ∧ Holds m'.next rects' xs' ∧
      (∀ x ∈ xs', (m'.rect x).Positive) ∧
      Cover.cover Rect.cells (xs'.map m'.rect) =
        Cover.cover Rect.cells (xs.map m.rect) \ delR.cells ∧
      ∃ parts : List (List Rect), List.Forall₂
          (fun r part => Cover.Tiles Rect.cells part (r.cells \ delR.cells)) (xs.map m.rect) parts ∧
        (xs'.map m'.rect).Perm parts.flatten := by
  obtain ⟨m', rects', xs', hsplit, hholds, hrects⟩ := delSplit_spec delR h hturns
  have hperm := delSplitStrict_perm delR (xs.map m.rect)
  rw [← hrects] at hperm
  have hparts (r : Rect) (hr : r ∈ xs.map m.rect) :
      Cover.Tiles Rect.cells (partOf delR r) (r.cells \ delR.cells) ∧
        ∀ x ∈ partOf delR r, x.Positive := by
    obtain ⟨x, hx, rfl⟩ := List.mem_map.mp hr
    exact partOf_tiles hdel (hpos x hx)
  refine ⟨m', rects', xs', hsplit, hholds, ?_, ?_, (xs.map m.rect).map (partOf delR), ?_, hperm⟩
  · intro x hx
    have hin := hperm.mem_iff.mp (List.mem_map_of_mem hx)
    obtain ⟨r, hr, hpart⟩ := List.mem_flatMap.mp hin
    exact (hparts r hr).2 _ hpart
  · ext p
    have hcell {r : Rect} (hr : r ∈ xs.map m.rect) :
        p ∈ Cover.cover Rect.cells (partOf delR r) ↔ p ∈ r.cells ∧ p ∉ delR.cells := by
      rw [(hparts r hr).1.cover_eq, Set.mem_sdiff]
    constructor
    · rintro ⟨y, hy, hp⟩
      have hin := hperm.mem_iff.mp hy
      obtain ⟨r, hr, hpart⟩ := List.mem_flatMap.mp hin
      obtain ⟨hcells, hout⟩ := (hcell hr).mp ⟨y, hpart, hp⟩
      exact ⟨⟨r, hr, hcells⟩, hout⟩
    · rintro ⟨⟨r, hr, hcells⟩, hout⟩
      obtain ⟨y, hpart, hp⟩ := (hcell hr).mpr ⟨hcells, hout⟩
      refine ⟨y, hperm.mem_iff.mpr ?_, hp⟩
      exact List.mem_flatMap.mpr ⟨r, hr, hpart⟩
  · exact List.forall₂_map_right_iff.mpr (List.forall₂_same.mpr fun r hr => (hparts r hr).1)

/-- Two rectangles of a list, the first of which is cut in four. -/
def Eina.Tiler.twoNodes : Nodes where
  next := fun node => if node = 0 then some (some 1) else if node = 1 then some none else none
  rect := fun node => if node = 0 then Rect.init 0 0 4 4 else Rect.init 5 0 2 2
  pool := none
  len := 0
  fresh := 2

theorem Eina.Tiler.delSplit_exact_twoNodes : ∃ m' rects' xs',
    twoNodes.delSplit 2 ⟨some 0, some 1⟩ (Rect.init 1 1 2 2) = some (m', rects') ∧
      Holds m'.next rects' xs' ∧ (∀ x ∈ xs', (m'.rect x).Positive) ∧
      Cover.cover Rect.cells (xs'.map m'.rect) =
        Cover.cover Rect.cells ([0, 1].map twoNodes.rect) \ (Rect.init 1 1 2 2).cells ∧
      ∃ parts : List (List Rect), List.Forall₂
          (fun r part => Cover.Tiles Rect.cells part (r.cells \ (Rect.init 1 1 2 2).cells))
          ([0, 1].map twoNodes.rect) parts ∧
        (xs'.map m'.rect).Perm parts.flatten := by
  refine delSplit_exact twoNodes ⟨some 0, some 1⟩ [0, 1] [] (Rect.init 1 1 2 2) 2 ?_ ?_ ?_ ?_
  · refine ⟨⟨⟨rfl, _, rfl, rfl, _, rfl, rfl⟩, rfl⟩, holds_zeroed _, rfl, by decide, by decide⟩
  · intro x hx
    rcases List.mem_cons.mp hx with rfl | hx
    · exact ⟨Rect.ok_init _ _ _ _, by decide, by decide⟩
    · obtain rfl := List.mem_singleton.mp hx
      exact ⟨Rect.ok_init _ _ _ _, by decide, by decide⟩
  · exact ⟨Rect.ok_init _ _ _ _, by decide, by decide⟩
  · exact le_refl 2
