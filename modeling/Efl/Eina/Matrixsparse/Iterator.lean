/-
The two iterators of a sparse matrix.

Both go through the cells with the pointers `ref.row` and `ref.col`; a pointer is the list of
the rows, or of the cells of its row, from it on.  At the end of a row they go to the first
cell of the next row, and stop there when that row has no cell.  Hence they are right exactly
when no row without cells stands before a row with cells (`NoGap`).  Only
`eina_matrixsparse_cell_idx_clear` leaves a row without cells linked.

What a call yields is the row number of the cell and the cell.  The message about a dummy
cell that was written to is left out.
-/
import Efl.Eina.Matrixsparse.Size
import Efl.Lib.Iterate
import Mathlib.Data.List.Sort

namespace Eina.Matrixsparse

open Track Runs Iterate List

variable {α : Type}

namespace Matrix

/-- The pointers `ref.row` and `ref.col` of an iterator. -/
structure Ref (α : Type) where
  row : List (Row α)
  col : List (Cell α)

/-- The cells `rows->cols`, none where there is no row. -/
def firstCells : List (Row α) → List (Cell α)
  | [] => []
  | r :: _ => r.cells.items

/-- `eina_matrixsparse_iterator_new` -/
def iteratorNew (m : Matrix α) : Ref α := ⟨m.rows.items, firstCells m.rows.items⟩

/-- `ref` one cell further, where `cs` are the cells behind the one it is at. -/
def Ref.advance (ref : Ref α) (cs : List (Cell α)) : Ref α :=
  if cs = [] then ⟨ref.row.tail, firstCells ref.row.tail⟩ else ⟨ref.row, cs⟩

/-- `_eina_matrixsparse_iterator_next` -/
def iteratorNext (ref : Ref α) : Option ((Nat × Cell α) × Ref α) :=
  match ref.row, ref.col with
  | r :: _, c :: cs => some ((r.row, c), ref.advance cs)
  | _, _ => none

/-- `Eina_Matrixsparse_Iterator_Complete` -/
structure Complete (α : Type) where
  ref : Ref α
  idxRow : Nat
  idxCol : Nat

/-- `eina_matrixsparse_iterator_complete_new` -/
def iteratorCompleteNew (m : Matrix α) : Complete α := ⟨iteratorNew m, 0, 0⟩

/-- The place behind `idx`. -/
def idxNext (sizeCols i j : Nat) : Nat × Nat :=
  if j + 1 = sizeCols then (i + 1, 0) else (i, j + 1)

/-- `_eina_matrixsparse_iterator_complete_next` -/
def iteratorCompleteNext (sizeRows sizeCols : Nat) (it : Complete α) :
    Option ((Nat × Cell α) × Complete α) :=
  if sizeRows ≤ it.idxRow then none
  else
    let idx := idxNext sizeCols it.idxRow it.idxCol
    match it.ref.row, it.ref.col with
    | r :: _, c :: cs =>
      if c.col = it.idxCol ∧ r.row = it.idxRow then
        some ((r.row, c), ⟨it.ref.advance cs, idx.1, idx.2⟩)
      else some ((it.idxRow, ⟨it.idxCol, none⟩), ⟨it.ref, idx.1, idx.2⟩)
    | _, _ => some ((it.idxRow, ⟨it.idxCol, none⟩), ⟨it.ref, idx.1, idx.2⟩)

variable {m : Matrix α} {i j : Nat} {d : Option α} {r : Row α} {x : Nat × Cell α}
  {rs : List (Row α)} {ref : Ref α}

/-! ### The cells an iterator goes through -/

def rowCells (r : Row α) : List (Nat × Cell α) := r.cells.items.map fun c => (r.row, c)

/-- The cells from the first one of `rs` on, up to a row without cells. -/
def walk : List (Row α) → List (Nat × Cell α)
  | [] => []
  | r :: rs => if r.cells.items = [] then [] else rowCells r ++ walk rs

/-- The cells from `ref` on. -/
def Ref.pending (ref : Ref α) : List (Nat × Cell α) :=
  match ref.row, ref.col with
  | r :: rs, c :: cs => (c :: cs).map (fun c => (r.row, c)) ++ walk rs
  | _, _ => []

theorem pending_first (rs : List (Row α)) : Ref.pending ⟨rs, firstCells rs⟩ = walk rs := by
  cases rs with
  | nil => rfl
  | cons r rs =>
    rw [walk]
    cases hcells : r.cells.items with
    | nil => simp [Ref.pending, firstCells, hcells]
    | cons c cs => simp [Ref.pending, firstCells, rowCells, hcells]

theorem pending_cons (r : Row α) (rs : List (Row α)) (c : Cell α) (cs : List (Cell α)) :
    Ref.pending ⟨r :: rs, c :: cs⟩ =
      (r.row, c) :: (Ref.advance ⟨r :: rs, c :: cs⟩ cs).pending := by
  unfold Ref.advance
  cases cs with
  | nil =>
    rw [if_pos rfl, pending_first]
    rfl
  | cons c' cs => rfl

theorem iteratorNext_nil (h : ref.pending = []) : iteratorNext ref = none := by
  obtain ⟨row, col⟩ := ref
  cases row with
  | nil => rfl
  | cons r rs =>
    cases col with
    | nil => rfl
    | cons c cs => simp [Ref.pending] at h

theorem iteratorNext_cons {xs : List (Nat × Cell α)}
    (h : ref.pending = x :: xs) :
    ∃ ref', iteratorNext ref = some (x, ref') ∧ ref'.pending = xs := by
  obtain ⟨row, col⟩ := ref
  cases row with
  | nil => simp [Ref.pending] at h
  | cons r rs =>
    cases col with
    | nil => simp [Ref.pending] at h
    | cons c cs =>
      rw [pending_cons] at h
      obtain ⟨rfl, rfl⟩ := cons.inj h
      exact ⟨_, rfl, rfl⟩

theorem iterator_yields (m : Matrix α) : Yields iteratorNext (iteratorNew m)
    (walk m.rows.items) := by
  have hall : ∀ (xs : List (Nat × Cell α)) (ref : Ref α), ref.pending = xs →
      Yields iteratorNext ref xs := by
    intro xs
    induction xs with
    | nil =>
      intro ref h
      exact .done (iteratorNext_nil h)
    | cons x xs ih =>
      intro ref h
      obtain ⟨ref', hnext, hrest⟩ := iteratorNext_cons h
      exact .more hnext (ih ref' hrest)
  exact hall _ _ (pending_first m.rows.items)

/-! ### The places of a matrix -/

def place (x : Nat × Cell α) : Nat × Nat := (x.1, x.2.col)

/-- All places in row-major order. -/
def places (rows cols : Nat) : List (Nat × Nat) :=
  (List.range rows).flatMap fun i => (List.range cols).map fun j => (i, j)

/-- The places from row `i` and column `j` on. -/
def placesFrom (rows cols i j : Nat) : List (Nat × Nat) :=
  if i < rows then
    (List.range' j (cols - j)).map (fun j => (i, j)) ++
      (List.range' (i + 1) (rows - (i + 1))).flatMap fun i => (List.range cols).map fun j => (i, j)
  else []

theorem placesFrom_row (rows cols i : Nat) : placesFrom rows cols i 0 =
    (List.range' i (rows - i)).flatMap fun i => (List.range cols).map fun j => (i, j) := by
  unfold placesFrom
  split
  · rw [show rows - i = (rows - (i + 1)) + 1 by omega, range'_succ, flatMap_cons,
      Nat.sub_zero, range_eq_range']
  · rw [show rows - i = 0 by omega]
    rfl

theorem placesFrom_zero (rows cols : Nat) : placesFrom rows cols 0 0 = places rows cols := by
  rw [placesFrom_row, places, Nat.sub_zero, ← range_eq_range']

theorem placesFrom_next {rows cols : Nat} (hi : i < rows) (hj : j < cols) :
    placesFrom rows cols i j =
      (i, j) :: placesFrom rows cols (idxNext cols i j).1 (idxNext cols i j).2 := by
  unfold idxNext
  split
  · rw [placesFrom_row, placesFrom, if_pos hi, show cols - j = 1 by omega]
    rfl
  rw [placesFrom, placesFrom, if_pos hi, if_pos hi,
    show cols - j = (cols - (j + 1)) + 1 by omega]
  rfl

theorem idxNext_lt {cols : Nat} (hj : j < cols) : (idxNext cols i j).2 < cols := by
  unfold idxNext
  split
  · exact lt_of_le_of_lt (Nat.zero_le j) hj
  · omega

/-- Row-major order. -/
def Before (p q : Nat × Nat) : Prop := p.1 < q.1 ∨ p.1 = q.1 ∧ p.2 < q.2

theorem before_places (rows cols : Nat) : (places rows cols).Pairwise Before := by
  unfold places
  rw [pairwise_flatMap]
  constructor
  · intro i _
    rw [pairwise_map]
    exact pairwise_lt_range.imp fun h => .inr ⟨rfl, h⟩
  · refine pairwise_lt_range.imp ?_
    intro i i' h p hp q hq
    obtain ⟨-, -, rfl⟩ := mem_map.mp hp
    obtain ⟨-, -, rfl⟩ := mem_map.mp hq
    exact .inl h

theorem mem_places {rows cols : Nat} {p : Nat × Nat} :
    p ∈ places rows cols ↔ p.1 < rows ∧ p.2 < cols := by
  obtain ⟨i, j⟩ := p
  simp [places]

theorem nodup_of_before {ps : List (Nat × Nat)} (h : ps.Pairwise Before) : ps.Nodup := by
  refine h.imp ?_
  rintro p q hpq rfl
  unfold Before at hpq
  omega

theorem sublist_of_before {ps qs : List (Nat × Nat)} (hp : ps.Pairwise Before)
    (hq : qs.Pairwise Before) (h : ps ⊆ qs) : ps.Sublist qs := by
  have hanti : Std.Antisymm Before := by
    refine ⟨?_⟩
    intro p q hpq hqp
    unfold Before at hpq hqp
    omega
  exact sublist_of_subperm_of_pairwise (subperm_of_subset (nodup_of_before hp) h) hp hq

/-! ### The complete iterator -/

/-- All the places `ps`, with the cells `xs` where there are some. -/
def fill : List (Nat × Nat) → List (Nat × Cell α) → List (Nat × Cell α)
  | [], _ => []
  | p :: ps, [] => (p.1, ⟨p.2, none⟩) :: fill ps []
  | p :: ps, x :: xs =>
    if place x = p then x :: fill ps xs else (p.1, ⟨p.2, none⟩) :: fill ps (x :: xs)

/-- The complete iterator goes over all places, in their order. -/
theorem complete_yields (rows cols : Nat) : ∀ (ps : List (Nat × Nat)) (it : Complete α),
    placesFrom rows cols it.idxRow it.idxCol = ps → it.idxCol < cols →
      Yields (iteratorCompleteNext rows cols) it (fill ps it.ref.pending) := by
  intro ps
  induction ps with
  | nil =>
    intro it hps hcol
    have hrow : rows ≤ it.idxRow := by
      by_contra hlt
      rw [placesFrom_next (by omega) hcol] at hps
      simp at hps
    exact .done (by rw [iteratorCompleteNext, if_pos hrow])
  | cons p ps ih =>
    intro it hps hcol
    have hrow : it.idxRow < rows := by
      by_contra hge
      rw [placesFrom, if_neg hge] at hps
      simp at hps
    rw [placesFrom_next hrow hcol] at hps
    obtain ⟨rfl, hrest⟩ := cons.inj hps
    have hnext (ref : Ref α) := ih ⟨ref, (idxNext cols it.idxRow it.idxCol).1,
      (idxNext cols it.idxRow it.idxCol).2⟩ hrest (idxNext_lt hcol)
    obtain ⟨⟨row, col⟩, i, j⟩ := it
    have hdummy (hpending : fill ((i, j) :: ps) (Ref.pending ⟨row, col⟩) =
          (i, ⟨j, none⟩) :: fill ps (Ref.pending ⟨row, col⟩))
        (hcall : iteratorCompleteNext rows cols ⟨⟨row, col⟩, i, j⟩ =
          some ((i, ⟨j, none⟩), ⟨⟨row, col⟩, (idxNext cols i j).1, (idxNext cols i j).2⟩)) :
        Yields (iteratorCompleteNext rows cols) ⟨⟨row, col⟩, i, j⟩
          (fill ((i, j) :: ps) (Ref.pending ⟨row, col⟩)) := by
      rw [hpending]
      exact .more hcall (hnext ⟨row, col⟩)
    cases row with
    | nil =>
      refine hdummy rfl ?_
      rw [iteratorCompleteNext, if_neg (by simpa using hrow)]
    | cons r rs =>
      cases col with
      | nil =>
        refine hdummy rfl ?_
        rw [iteratorCompleteNext, if_neg (by simpa using hrow)]
      | cons c cs =>
        rw [pending_cons]
        by_cases hhere : c.col = j ∧ r.row = i
        · have hplace : place (r.row, c) = (i, j) := by rw [place, hhere.1, hhere.2]
          rw [fill, if_pos hplace]
          refine .more ?_ (hnext (Ref.advance ⟨r :: rs, c :: cs⟩ cs))
          rw [iteratorCompleteNext, if_neg (by simpa using hrow)]
          exact if_pos hhere
        · have hplace : place (r.row, c) ≠ (i, j) := by
            intro h
            exact hhere ⟨congrArg Prod.snd h, congrArg Prod.fst h⟩
          rw [← pending_cons]
          refine hdummy ?_ ?_
          · rw [pending_cons, fill, if_neg hplace]
          · rw [iteratorCompleteNext, if_neg (by simpa using hrow)]
            exact if_neg hhere

theorem fill_spec : ∀ (ps : List (Nat × Nat)) (xs : List (Nat × Cell α)),
    (xs.map place).Sublist ps → ps.Nodup → (fill ps xs).map place = ps ∧
      ∀ x ∈ fill ps xs, x ∈ xs ∨ x.2.data = none ∧ place x ∉ xs.map place := by
  intro ps
  induction ps with
  | nil =>
    intro xs _ _
    exact ⟨rfl, by simp [fill]⟩
  | cons p ps ih =>
    intro xs hsub hnodup
    rw [nodup_cons] at hnodup
    cases xs with
    | nil =>
      obtain ⟨hplaces, hmem⟩ := ih [] (nil_sublist _) hnodup.2
      refine ⟨by rw [fill, map_cons, hplaces]; rfl, ?_⟩
      intro x hx
      rcases mem_cons.mp hx with rfl | hx
      · exact .inr ⟨rfl, by simp⟩
      · exact hmem x hx
    | cons y ys =>
      rw [fill]
      split
      · rename_i hy
        rw [map_cons, hy] at hsub
        obtain ⟨hplaces, hmem⟩ := ih ys (cons_sublist_cons.mp hsub) hnodup.2
        refine ⟨by rw [map_cons, hplaces, hy], ?_⟩
        intro x hx
        rcases mem_cons.mp hx with rfl | hx
        · exact .inl mem_cons_self
        rcases hmem x hx with h | ⟨hnone, hnot⟩
        · exact .inl (mem_cons_of_mem _ h)
        -- the place of `y` comes only once
        refine .inr ⟨hnone, ?_⟩
        have hx' : place x ∈ ps := by
          rw [← hplaces]
          exact mem_map_of_mem hx
        rw [map_cons, mem_cons, not_or]
        refine ⟨?_, hnot⟩
        intro h
        rw [h, hy] at hx'
        exact hnodup.1 hx'
      · rename_i hy
        have hsub' : ((y :: ys).map place).Sublist ps := by
          rcases sublist_cons_iff.mp hsub with h | ⟨zs, hzs, -⟩
          · exact h
          · exact absurd (cons.inj hzs).1 hy
        obtain ⟨hplaces, hmem⟩ := ih (y :: ys) hsub' hnodup.2
        refine ⟨by rw [map_cons, hplaces]; rfl, ?_⟩
        intro x hx
        rcases mem_cons.mp hx with rfl | hx
        · exact .inr ⟨rfl, fun h => hnodup.1 (hsub'.subset h)⟩
        · exact hmem x hx

/-! ### Rows without cells -/

/-- No row without cells stands before a row with cells. -/
def NoGap (m : Matrix α) : Prop :=
  m.rows.items.Pairwise fun r s => r.cells.items = [] → s.cells.items = []

theorem mem_walk (hx : x ∈ walk rs) :
    ∃ r ∈ rs, x ∈ rowCells r := by
  induction rs with
  | nil => simp [walk] at hx
  | cons r rs ih =>
    rw [walk] at hx
    split at hx
    · simp at hx
    rcases mem_append.mp hx with hx | hx
    · exact ⟨r, mem_cons_self, hx⟩
    · obtain ⟨s, hs, hx⟩ := ih hx
      exact ⟨s, mem_cons_of_mem _ hs, hx⟩

/-- The walk reaches every cell exactly if no row without cells comes before one with some. -/
theorem walk_all_iff (hrs : rs.Pairwise fun r s => r.row < s.row) :
    (∀ r ∈ rs, ∀ x ∈ rowCells r, x ∈ walk rs) ↔
      rs.Pairwise fun r s => r.cells.items = [] → s.cells.items = [] := by
  induction rs with
  | nil => simp
  | cons r rs ih =>
    rw [pairwise_cons] at hrs
    rw [pairwise_cons, ← ih hrs.2, walk]
    constructor
    · intro h
      constructor
      · intro s hs hnil
        have hs' := h s (mem_cons_of_mem _ hs)
        rw [if_pos hnil] at hs'
        have : rowCells s = [] := eq_nil_iff_forall_not_mem.mpr fun x hx => by simpa using hs' x hx
        simpa [rowCells] using this
      · intro s hs x hx
        have hx' := h s (mem_cons_of_mem _ hs) x hx
        split at hx'
        · simp at hx'
        rcases mem_append.mp hx' with hxr | hxr
        · -- the cell is in another row than `r`
          obtain ⟨c, -, rfl⟩ := mem_map.mp hxr
          obtain ⟨c', -, hsame⟩ := mem_map.mp hx
          have hlt := hrs.1 s hs
          have : s.row = r.row := congrArg Prod.fst hsame
          omega
        · exact hxr
    · rintro ⟨hempty, hrest⟩ s hs x hx
      split
      · rename_i hnil
        have hnone : s.cells.items = [] := by
          rcases mem_cons.mp hs with rfl | hs
          · exact hnil
          · exact hempty s hs hnil
        rw [rowCells, hnone] at hx
        exact hx
      · rw [mem_append]
        rcases mem_cons.mp hs with rfl | hs
        · exact .inl hx
        · exact .inr (hrest s hs x hx)

theorem mem_rowCells : (i, ⟨j, d⟩) ∈ rowCells r ↔
    r.row = i ∧ ∃ c ∈ r.cells.items, c.col = j ∧ c.data = d := by
  simp only [rowCells, mem_map, Prod.mk.injEq]
  constructor
  · rintro ⟨c, hc, hrow, rfl⟩
    exact ⟨hrow, _, hc, rfl, rfl⟩
  · rintro ⟨hrow, c, hc, rfl, rfl⟩
    exact ⟨c, hc, hrow, rfl⟩

theorem has_of_walk (h : (i, (⟨j, d⟩ : Cell α)) ∈ walk m.rows.items) : Has m i j d := by
  obtain ⟨r, hr, hx⟩ := mem_walk h
  exact ⟨r, hr, mem_rowCells.mp hx⟩

theorem noGap_iff (hm : Valid m) :
    NoGap m ↔ ∀ i j d, (i, (⟨j, d⟩ : Cell α)) ∈ walk m.rows.items ↔ Has m i j d := by
  unfold NoGap
  rw [← walk_all_iff hm.rows.ordered]
  constructor
  · intro h i j d
    refine ⟨has_of_walk, ?_⟩
    rintro ⟨r, hr, hrest⟩
    exact h r hr _ (mem_rowCells.mpr hrest)
  · rintro h r hr ⟨i, j, d⟩ hx
    exact (h i j d).mpr ⟨r, hr, mem_rowCells.mp hx⟩

theorem before_walk (hm : Valid m) : ((walk m.rows.items).map place).Pairwise Before := by
  have hall : ∀ rs : List (Row α), rs.Pairwise (fun r s => r.row < s.row) →
      (∀ r ∈ rs, Track.Valid Cell.col r.cells) → ((walk rs).map place).Pairwise Before := by
    intro rs
    induction rs with
    | nil =>
      intro _ _
      exact List.Pairwise.nil
    | cons r rs ih =>
      intro hord hcells
      rw [pairwise_cons] at hord
      rw [walk]
      split
      · exact List.Pairwise.nil
      rw [map_append, pairwise_append]
      refine ⟨?_, ih hord.2 fun s hs => hcells s (mem_cons_of_mem _ hs), ?_⟩
      · rw [rowCells, map_map, pairwise_map]
        exact (hcells r mem_cons_self).ordered.imp fun h => .inr ⟨rfl, h⟩
      · intro p hp q hq
        obtain ⟨x, hx, rfl⟩ := mem_map.mp hp
        obtain ⟨c, -, rfl⟩ := mem_map.mp hx
        obtain ⟨y, hy, rfl⟩ := mem_map.mp hq
        obtain ⟨s, hs, hy⟩ := mem_walk hy
        obtain ⟨c', -, rfl⟩ := mem_map.mp hy
        exact .inl (hord.1 s hs)
  exact hall m.rows.items hm.rows.ordered hm.cells

/-! ### What the iterators have to yield -/

/-- What is stored at each place. -/
abbrev Content (α : Type) := Nat → Nat → Option (Option α)

/-- Every stored cell once, in row-major order. -/
def IteratesStored (m : Matrix α) (content : Content α) : Prop :=
  ∃ xs, Yields iteratorNext (iteratorNew m) xs ∧ (xs.map place).Pairwise Before ∧
    ∀ i j d, (i, (⟨j, d⟩ : Cell α)) ∈ xs ↔ content i j = some d

/-- Every place in row-major order, with what is stored there. -/
def IteratesAll (m : Matrix α) (content : Content α) : Prop :=
  ∃ xs, Yields (iteratorCompleteNext m.sizeRows m.sizeCols) (iteratorCompleteNew m) xs ∧
    xs.map place = places m.sizeRows m.sizeCols ∧
    ∀ i j d, (i, (⟨j, d⟩ : Cell α)) ∈ xs → d = (content i j).join

/-- The matrix is valid and holds the content. -/
structure Holds (m : Matrix α) (rows cols : Nat) (content : Content α) : Prop where
  valid : Valid m
  sizeRows : m.sizeRows = rows
  sizeCols : m.sizeCols = cols
  colsPos : 0 < cols
  has : ∀ i j d, Has m i j d ↔ content i j = some d

variable {rows cols : Nat} {content : Content α} {m' : Matrix α}

theorem iteratesStored_iff (h : Holds m rows cols content) : IteratesStored m content ↔
    NoGap m := by
  rw [noGap_iff h.valid]
  constructor
  · rintro ⟨xs, hyields, -, hmem⟩ i j d
    obtain rfl := hyields.unique (iterator_yields m)
    rw [hmem, h.has]
  · intro hall
    refine ⟨walk m.rows.items, iterator_yields m, before_walk h.valid, ?_⟩
    intro i j d
    rw [hall, h.has]

theorem iteratesAll_of_noGap (h : Holds m rows cols content) (hgap : NoGap m) :
    IteratesAll m content := by
  have hall := (noGap_iff h.valid).mp hgap
  have hbefore := before_walk h.valid
  have hsub : ((walk m.rows.items).map place).Sublist (places m.sizeRows m.sizeCols) := by
    refine sublist_of_before hbefore (before_places _ _) ?_
    intro p hp
    obtain ⟨⟨i, j, d⟩, hx, rfl⟩ := mem_map.mp hp
    obtain ⟨r, hr, rfl, c, hc, rfl, -⟩ := (hall i j d).mp hx
    exact mem_places.mpr ⟨h.valid.rowBound r hr, h.valid.colBound r hr c hc⟩
  obtain ⟨hplaces, hmem⟩ := fill_spec (places m.sizeRows m.sizeCols) (walk m.rows.items) hsub
    (nodup_of_before (before_places _ _))
  refine ⟨fill (places m.sizeRows m.sizeCols) (walk m.rows.items), ?_, hplaces, ?_⟩
  · rw [← pending_first]
    refine complete_yields m.sizeRows m.sizeCols _ (iteratorCompleteNew m) (placesFrom_zero _ _) ?_
    rw [h.sizeCols]
    exact h.colsPos
  · intro i j d hx
    rcases hmem _ hx with hx | ⟨rfl, hnot⟩
    · rw [(h.has i j d).mp ((hall i j d).mp hx)]
      rfl
    cases hc : content i j with
    | none => rfl
    | some d =>
      have hx' := (hall i j d).mpr ((h.has i j d).mpr hc)
      exact absurd (mem_map_of_mem hx') hnot

/-! ### Runs -/

/-- The operations that store and clear cells. -/
inductive CellOp (α : Type) where
  | dataIdxSet (row col : Nat) (data : Option α)
  | cellIdxClear (row col : Nat)
  | rowIdxClear (row : Nat)
  | columnIdxClear (col : Nat)

def CellOp.op : CellOp α → Op α
  | .dataIdxSet row col data => .dataIdxSet row col data
  | .cellIdxClear row col => .cellIdxClear row col
  | .rowIdxClear row => .rowIdxClear row
  | .columnIdxClear col => .columnIdxClear col

def CellStep (m : Matrix α) (op : CellOp α) (m' : Matrix α) (answer : Answer α) : Prop :=
  Step m op.op m' answer

/-- What the operations mean for the content of a matrix of `rows` by `cols` places. -/
def CellOp.next (rows cols : Nat) (content : Content α) : CellOp α → Content α
  | .dataIdxSet row col data => fun i j =>
    if i = row ∧ j = col ∧ row < rows ∧ col < cols then some data else content i j
  | .cellIdxClear row col => fun i j => if i = row ∧ j = col then none else content i j
  | .rowIdxClear row => fun i j => if i = row then none else content i j
  | .columnIdxClear col => fun i j => if j = col then none else content i j

theorem Clears.holds {gone : Nat → Nat → Prop} [∀ i j, Decidable (gone i j)]
    (h : Holds m rows cols content) (hclears : Clears m gone m') :
    Holds m' rows cols fun i j => if gone i j then none else content i j := by
  refine ⟨hclears.valid, hclears.sizeRows.trans h.sizeRows, hclears.sizeCols.trans h.sizeCols,
    h.colsPos, ?_⟩
  intro i j d
  rw [hclears.has, h.has]
  by_cases hgone : gone i j
  · simp [hgone]
  · simp [hgone]

theorem cellStep_holds (h : Holds m rows cols content) (op : CellOp α) :
    ∃ m' answer, CellStep m op m' answer ∧ Holds m' rows cols (op.next rows cols content) := by
  cases op with
  | dataIdxSet row col data =>
    obtain ⟨m', b, hset, ⟨-, rfl, hout⟩ | ⟨-, hstores, hrow, hcol⟩⟩ :=
      dataIdxSet_stores h.valid row col data
    · refine ⟨m', .done b, by rw [CellStep, CellOp.op, Step, step, hset]; rfl, h.valid, h.sizeRows,
        h.sizeCols, h.colsPos, ?_⟩
      rw [h.sizeRows, h.sizeCols] at hout
      intro i j d
      rw [h.has, CellOp.next]
      dsimp only
      rw [if_neg (fun hin => hout hin.2.2)]
    · refine ⟨m', .done b, by rw [CellStep, CellOp.op, Step, step, hset]; rfl, hstores.valid,
        hstores.sizeRows.trans h.sizeRows, hstores.sizeCols.trans h.sizeCols, h.colsPos, ?_⟩
      rw [h.sizeRows] at hrow
      rw [h.sizeCols] at hcol
      intro i j d
      rw [hstores.has, h.has, CellOp.next]
      dsimp only
      by_cases hhere : i = row ∧ j = col
      · rw [if_pos hhere, if_pos ⟨hhere.1, hhere.2, hrow, hcol⟩, Option.some.injEq, eq_comm]
      · rw [if_neg hhere, if_neg (fun hin => hhere ⟨hin.1, hin.2.1⟩)]
  | cellIdxClear row col =>
    obtain ⟨m', b, hclear, hclears⟩ := cellIdxClear_clears h.valid row col
    exact ⟨m', .done b, by rw [CellStep, CellOp.op, Step, step, hclear]; rfl, hclears.holds h⟩
  | rowIdxClear row =>
    obtain ⟨m', b, hclear, hclears, -⟩ := rowIdxClear_clears h.valid row
    exact ⟨m', .done b, by rw [CellStep, CellOp.op, Step, step, hclear]; rfl, hclears.holds h⟩
  | columnIdxClear col =>
    obtain ⟨m', b, hclear, hclears, -⟩ := columnIdxClear_clears h.valid col
    exact ⟨m', .done b, by rw [CellStep, CellOp.op, Step, step, hclear]; rfl, hclears.holds h⟩

/-- A cell is cleared on its own only where its row has another one. -/
def CellOp.LeavesCell (m : Matrix α) : CellOp α → Prop
  | .cellIdxClear row col => (∃ d, Has m row col d) → ∃ j d, Has m row j d ∧ j ≠ col
  | _ => True

/-- Every row has a cell. -/
def Full (m : Matrix α) : Prop := ∀ k ∈ m.rows.items.map Row.row, ∃ j d, Has m k j d

theorem Full.noGap (hm : Valid m) (h : Full m) : NoGap m := by
  refine pairwise_of_forall_mem_list ?_
  intro r hr s _ hnil
  obtain ⟨j, d, hd⟩ := h r.row (mem_map_of_mem hr)
  obtain ⟨c, hc, -⟩ := (has_iff hm hr rfl).mp hd
  rw [hnil] at hc
  simp at hc

theorem cellStep_full (h : Valid m ∧ Full m) (op : CellOp α) (hop : op.LeavesCell m)
    {answer : Answer α} (hstep : CellStep m op m' answer) : Valid m' ∧ Full m' := by
  obtain ⟨hm, hfull⟩ := h
  have hkeeps {m1 : Matrix α} {gone : Nat → Nat → Prop} (hclears : Clears m gone m1)
      (hstays : Stays m m1) : Valid m1 ∧ Full m1 :=
    ⟨hclears.valid, fun k hk => hstays k hk (hfull k (hclears.rows k hk))⟩
  cases op with
  | dataIdxSet row col data =>
    obtain ⟨m1, b, hset, hcases⟩ := dataIdxSet_stores hm row col data
    have hstep' : step m (.dataIdxSet row col data) = .returns (m1, .done b) := by
      rw [step, hset]
      rfl
    obtain ⟨rfl, -⟩ := Step.unique _ _ _ _ _ _ hstep' hstep
    rcases hcases with ⟨-, rfl, -⟩ | ⟨-, hstores, -⟩
    · exact ⟨hm, hfull⟩
    refine ⟨hstores.valid, ?_⟩
    intro k hk
    by_cases hkrow : k = row
    · exact ⟨col, data, (hstores.has _ _ _).mpr (by rw [if_pos ⟨hkrow, rfl⟩])⟩
    · obtain ⟨j, d, hd⟩ := hfull k ((hstores.rows k hk).resolve_right hkrow)
      exact ⟨j, d, (hstores.has _ _ _).mpr (by rw [if_neg (fun h => hkrow h.1)]; exact hd)⟩
  | cellIdxClear row col =>
    obtain ⟨m1, b, hclear, hclears⟩ := cellIdxClear_clears hm row col
    have hstep' : step m (.cellIdxClear row col) = .returns (m1, .done b) := by
      rw [step, hclear]
      rfl
    obtain ⟨rfl, -⟩ := Step.unique _ _ _ _ _ _ hstep' hstep
    refine hkeeps hclears ?_
    rintro k - ⟨j, d, hd⟩
    by_cases hhere : k = row ∧ j = col
    · obtain ⟨rfl, rfl⟩ := hhere
      obtain ⟨j', d', hd', hne⟩ := hop ⟨d, hd⟩
      exact ⟨j', d', (hclears.has _ _ _).mpr ⟨hd', fun h => hne h.2⟩⟩
    · exact ⟨j, d, (hclears.has _ _ _).mpr ⟨hd, hhere⟩⟩
  | rowIdxClear row =>
    obtain ⟨m1, b, hclear, hclears, hstays⟩ := rowIdxClear_clears hm row
    have hstep' : step m (.rowIdxClear row) = .returns (m1, .done b) := by
      rw [step, hclear]
      rfl
    obtain ⟨rfl, -⟩ := Step.unique _ _ _ _ _ _ hstep' hstep
    exact hkeeps hclears hstays
  | columnIdxClear col =>
    obtain ⟨m1, b, hclear, hclears, hstays⟩ := columnIdxClear_clears hm col
    have hstep' : step m (.columnIdxClear col) = .returns (m1, .done b) := by
      rw [step, hclear]
      rfl
    obtain ⟨rfl, -⟩ := Step.unique _ _ _ _ _ _ hstep' hstep
    exact hkeeps hclears hstays

/--
**When the iterators are right**: in every state a run reaches, both iterators yield what the
run has stored exactly when no row without cells stands before a row with cells; and no run
that never clears the only cell of a row on its own has such a row.
-/
theorem run_iterates_iff {rows cols : Nat} {m : Matrix α} (hnew : new rows cols = some m)
    (ops : List (CellOp α)) : ∃ m' answers, Traces CellStep m ops m' answers ∧
      (IteratesStored m' (ops.foldl (CellOp.next rows cols) fun _ _ => none) ∧
        IteratesAll m' (ops.foldl (CellOp.next rows cols) fun _ _ => none) ↔ NoGap m') ∧
      (EachStep CellStep (fun m op => CellOp.LeavesCell m op) m ops → NoGap m') := by
  obtain ⟨hvalid, hnone⟩ := valid_new hnew
  have hstart : Holds m rows cols (fun _ _ => none) ∧ Full m := by
    unfold new at hnew
    split at hnew
    · simp at hnew
    obtain rfl := Option.some.inj hnew
    exact ⟨⟨hvalid, rfl, rfl, by omega, fun i j d => by simp [hnone i j d]⟩,
      by simp [Full, Track.empty]⟩
  obtain ⟨m', answers, hrun, hholds⟩ := traces_simulates (R := fun m c => Holds m rows cols c)
    (fun m c op h => cellStep_holds h op) ops m _ hstart.1
  refine ⟨m', answers, hrun, ⟨fun h => (iteratesStored_iff hholds).mp h.1, ?_⟩, ?_⟩
  · intro hgap
    exact ⟨(iteratesStored_iff hholds).mpr hgap, iteratesAll_of_noGap hholds hgap⟩
  · intro hok
    obtain ⟨hm', hfull⟩ := traces_invariant_of
      (fun m op m' answer h hop hstep => cellStep_full h op hop hstep) ops m m' answers hok
      ⟨hvalid, hstart.2⟩ hrun
    exact hfull.noGap hm'

/-- Two cells of different rows; the first one is cleared, and its row stays without cells. -/
def clearedFirst : List (CellOp Nat) :=
  [.dataIdxSet 0 0 (some 1), .dataIdxSet 1 0 (some 2), .cellIdxClear 0 0]

theorem run_iterates_iff_two : ∃ m' answers, Traces CellStep twoBySix
    [.dataIdxSet 0 0 (some 1), .dataIdxSet 1 0 (some 2)] m' answers ∧ NoGap m' := by
  obtain ⟨m', answers, hrun, -, hgap⟩ := run_iterates_iff (show new 2 6 = some twoBySix from rfl)
    [.dataIdxSet 0 0 (some 1), .dataIdxSet 1 0 (some 2)]
  refine ⟨m', answers, hrun, hgap ?_⟩
  exact eachStep_cons trivial fun _ _ _ => eachStep_cons trivial fun _ _ _ => eachStep_nil

/-- The iterator stops at the row without cells, although a cell of row 1 is stored. -/
theorem iterator_stops_at_gap : ∃ m' answers, Traces CellStep twoBySix clearedFirst m' answers ∧
    Yields iteratorNext (iteratorNew m') [] ∧
    clearedFirst.foldl (CellOp.next 2 6) (fun _ _ => none) 1 0 = some (some 2) ∧
    ¬IteratesStored m' (clearedFirst.foldl (CellOp.next 2 6) fun _ _ => none) := by
  have hyields : Yields iteratorNext (iteratorNew (⟨⟨[⟨0, ⟨[], none, none⟩⟩,
      ⟨1, ⟨[⟨0, some 2⟩], some 0, some 0⟩⟩], some 1, some 1⟩, 2, 6⟩ : Matrix Nat)) [] := .done rfl
  refine ⟨⟨⟨[⟨0, ⟨[], none, none⟩⟩, ⟨1, ⟨[⟨0, some 2⟩], some 0, some 0⟩⟩], some 1, some 1⟩, 2, 6⟩,
    [.done true, .done true, .done true],
    ⟨_, _, _, rfl, rfl, _, _, _, rfl, rfl, _, _, _, rfl, rfl, rfl, rfl⟩, hyields, rfl, ?_⟩
  rintro ⟨xs, hxs, -, hmem⟩
  obtain rfl := hxs.unique hyields
  have := (hmem 1 0 (some 2)).mpr rfl
  simp at this

end Matrix

end Eina.Matrixsparse
