/-
What the operations of a sparse matrix keep, and what they do to its content.

`Valid` is the representation invariant; `Has m i j d` says that the data `d` is stored at a
place.  Every operation but `eina_matrixsparse_size_set` keeps the first, whatever its
arguments are; a change of the size keeps it when `SizeSetKeeps` holds.
-/
import Efl.Eina.Matrixsparse.Basic

namespace Eina.Matrixsparse

open Track List

variable {α : Type}

namespace Matrix

/-- Both kinds of lists are valid, and all numbers are below the size. -/
structure Valid (m : Matrix α) : Prop where
  rows : Track.Valid Row.row m.rows
  cells : ∀ r ∈ m.rows.items, Track.Valid Cell.col r.cells
  rowBound : ∀ r ∈ m.rows.items, r.row < m.sizeRows
  colBound : ∀ r ∈ m.rows.items, ∀ c ∈ r.cells.items, c.col < m.sizeCols

/-- The data `d` is stored in row `i` and column `j`. -/
def Has (m : Matrix α) (i j : Nat) (d : Option α) : Prop :=
  ∃ r ∈ m.rows.items, r.row = i ∧ ∃ c ∈ r.cells.items, c.col = j ∧ c.data = d

variable {m : Matrix α} {row col i j : Nat} {d data : Option α} {r : Row α} {cells : Track (Cell α)}
  {m1 m' : Matrix α} {gone : Nat → Nat → Prop} {s : Row α}

theorem valid_new {rows cols : Nat} (h : new rows cols = some m) :
    Valid m ∧ ∀ i j d, ¬Has m i j d := by
  unfold new at h
  split at h
  · simp at h
  obtain rfl := Option.some.inj h
  refine ⟨⟨valid_empty, ?_, ?_, ?_⟩, ?_⟩
  all_goals simp [Has, Track.empty]

/-! ### One row -/

theorem eq_of_row (hm : Valid m) (hr : r ∈ m.rows.items) (hs : s ∈ m.rows.items)
    (h : r.row = s.row) : r = s :=
  eq_of_key hm.rows.ordered hr hs h

theorem rowAt_eq (hm : Valid m) (hr : r ∈ m.rows.items) : m.rowAt r.row = .returns r := by
  unfold rowAt
  cases hfind : m.rows.items.find? (fun s => decide (s.row = r.row)) with
  | none =>
    have := find?_eq_none.mp hfind r hr
    exact absurd (decide_eq_true rfl) this
  | some s =>
    have hs : s.row = r.row := by simpa using find?_some hfind
    rw [eq_of_row hm (mem_of_find?_eq_some hfind) hr hs]

theorem rows_setCells (m : Matrix α) (row : Nat) (cells : Track (Cell α)) :
    (m.setCells row cells).rows.items.map Row.row = m.rows.items.map Row.row := by
  simp only [setCells, map_map]
  apply map_congr_left
  intro r _
  simp only [Function.comp]
  split
  · rfl
  · rfl

theorem mem_setCells : s ∈ (m.setCells row cells).rows.items ↔
    (∃ r ∈ m.rows.items, r.row = row ∧ s = { r with cells := cells }) ∨
      (s ∈ m.rows.items ∧ s.row ≠ row) := by
  simp only [setCells, mem_map]
  constructor
  · rintro ⟨r, hr, rfl⟩
    split
    · rename_i h
      exact .inl ⟨r, hr, h, rfl⟩
    · rename_i h
      exact .inr ⟨hr, h⟩
  · rintro (⟨r, hr, h, rfl⟩ | ⟨hs, h⟩)
    · exact ⟨r, hr, if_pos h⟩
    · exact ⟨s, hs, if_neg h⟩

theorem valid_setCells (hm : Valid m) (hcells : Track.Valid Cell.col cells)
    (hbound : ∀ c ∈ cells.items, c.col < m.sizeCols) : Valid (m.setCells row cells) := by
  refine ⟨⟨?_, ?_, ?_⟩, ?_, ?_, ?_⟩
  · have hord := hm.rows.ordered
    rw [← pairwise_map] at hord ⊢
    rw [rows_setCells]
    exact hord
  · have hlast := hm.rows.last
    rw [← getLast?_map] at hlast ⊢
    rw [rows_setCells]
    exact hlast
  · rw [rows_setCells]
    exact hm.rows.lastUsed
  · intro s hs
    rcases mem_setCells.mp hs with ⟨r, hr, -, rfl⟩ | ⟨hs, -⟩
    · exact hcells
    · exact hm.cells s hs
  · intro s hs
    rcases mem_setCells.mp hs with ⟨r, hr, -, rfl⟩ | ⟨hs, -⟩
    · exact hm.rowBound r hr
    · exact hm.rowBound s hs
  · intro s hs
    rcases mem_setCells.mp hs with ⟨r, hr, -, rfl⟩ | ⟨hs, -⟩
    · exact hbound
    · exact hm.colBound s hs

theorem has_setCells (hr : r ∈ m.rows.items) (hrow : r.row = row) :
    Has (m.setCells row cells) i j d ↔
      if i = row then ∃ c ∈ cells.items, c.col = j ∧ c.data = d else Has m i j d := by
  split
  · rename_i hi
    constructor
    · rintro ⟨s, hs, hsi, hc⟩
      rcases mem_setCells.mp hs with ⟨r', -, -, rfl⟩ | ⟨-, hne⟩
      · exact hc
      · exact absurd (hsi.trans hi) hne
    · intro hc
      exact ⟨{ r with cells := cells }, mem_setCells.mpr (.inl ⟨r, hr, hrow, rfl⟩),
        hrow.trans hi.symm, hc⟩
  · rename_i hi
    constructor
    · rintro ⟨s, hs, hsi, hc⟩
      rcases mem_setCells.mp hs with ⟨r', -, hr', rfl⟩ | ⟨hs, -⟩
      · exact absurd (hsi.symm.trans hr') hi
      · exact ⟨s, hs, hsi, hc⟩
    · rintro ⟨s, hs, hsi, hc⟩
      refine ⟨s, mem_setCells.mpr (.inr ⟨hs, ?_⟩), hsi, hc⟩
      rw [hsi]
      exact hi

theorem has_iff (hm : Valid m) (hr : r ∈ m.rows.items) (hrow : r.row = i) :
    Has m i j d ↔ ∃ c ∈ r.cells.items, c.col = j ∧ c.data = d := by
  constructor
  · rintro ⟨s, hs, hsi, hc⟩
    rw [eq_of_row hm hr hs (hrow.trans hsi.symm)]
    exact hc
  · intro hc
    exact ⟨r, hr, hrow, hc⟩

/-! ### Looking up -/

/-- A valid matrix with the same content and the same rows. -/
structure Same (m m' : Matrix α) : Prop where
  valid : Valid m'
  rows : m'.rows.items.map Row.row = m.rows.items.map Row.row
  sizeRows : m'.sizeRows = m.sizeRows
  sizeCols : m'.sizeCols = m.sizeCols
  has : ∀ i j d, Has m' i j d ↔ Has m i j d

theorem Same.trans {m' m'' : Matrix α} (h : Same m m') (h' : Same m' m'') : Same m m'' :=
  ⟨h'.valid, h'.rows.trans h.rows, h'.sizeRows.trans h.sizeRows, h'.sizeCols.trans h.sizeCols,
    fun i j d => (h'.has i j d).trans (h.has i j d)⟩

theorem rowIdxGet_same (hm : Valid m) (row : Nat) : ∃ m',
    m.rowIdxGet row = .returns (decide (row ∈ m.rows.items.map Row.row), m') ∧ Same m m' := by
  obtain ⟨t, hget, ht, hitems⟩ := idxGet_spec hm.rows row
  refine ⟨{ m with rows := t }, ?_, ⟨ht, ?_, ?_, ?_⟩, ?_, rfl, rfl, ?_⟩
  · simp only [rowIdxGet, hget]
    rfl
  · rw [hitems]
    exact hm.cells
  · rw [hitems]
    exact hm.rowBound
  · rw [hitems]
    exact hm.colBound
  · rw [hitems]
  · intro i j d
    simp only [Has, hitems]

theorem rowCellIdxGet_same (hm : Valid m) (hr : r ∈ m.rows.items) (col : Nat) : ∃ m',
    m.rowCellIdxGet r.row col = .returns (decide (col ∈ r.cells.items.map Cell.col), m') ∧
      Same m m' := by
  obtain ⟨t, hget, ht, hitems⟩ := idxGet_spec (hm.cells r hr) col
  have hvalid : Valid (m.setCells r.row t) :=
    valid_setCells hm ht (by rw [hitems]; exact hm.colBound r hr)
  refine ⟨m.setCells r.row t, ?_, hvalid, rows_setCells m r.row t, rfl, rfl, ?_⟩
  · simp only [rowCellIdxGet, rowAt_eq hm hr, Outcome.returns_bind, hget]
    rfl
  · intro i j d
    rw [has_setCells hr rfl]
    split
    · rename_i hi
      rw [has_iff hm hr hi.symm, hitems]
    · rfl

theorem has_col (hm : Valid m) (hr : r ∈ m.rows.items) :
    col ∈ r.cells.items.map Cell.col ↔ ∃ d, Has m r.row col d := by
  rw [mem_map]
  constructor
  · rintro ⟨c, hc, rfl⟩
    exact ⟨c.data, r, hr, rfl, c, hc, rfl, rfl⟩
  · rintro ⟨d, h⟩
    obtain ⟨c, hc, hcol, -⟩ := (has_iff hm hr rfl).mp h
    exact ⟨c, hc, hcol⟩

theorem cellIdxFind_same (hm : Valid m) (row col : Nat) : ∃ b m',
    m.cellIdxFind row col = .returns (b, m') ∧ Same m m' ∧ (b = true ↔ ∃ d, Has m row col d) := by
  obtain ⟨m1, hget, hsame⟩ := rowIdxGet_same hm row
  by_cases hrow : row ∈ m.rows.items.map Row.row
  · have hrow1 : row ∈ m1.rows.items.map Row.row := by rw [hsame.rows]; exact hrow
    obtain ⟨r, hr, rfl⟩ := mem_map.mp hrow1
    obtain ⟨m2, hcell, hsame2⟩ := rowCellIdxGet_same hsame.valid hr col
    refine ⟨decide (col ∈ r.cells.items.map Cell.col), m2, ?_, hsame.trans hsame2, ?_⟩
    · simp only [cellIdxFind, hget, hrow]
      exact hcell
    · rw [decide_eq_true_iff, has_col hsame.valid hr]
      simp only [hsame.has]
  · refine ⟨false, m1, ?_, hsame, ?_⟩
    · simp only [cellIdxFind, hget, hrow]
      rfl
    · simp only [Bool.false_eq_true, false_iff]
      rintro ⟨d, r, hr, rfl, -⟩
      exact hrow (mem_map_of_mem hr)

/-! ### Storing -/

/-- A valid matrix of the same size in which `data` is stored at one more place. -/
structure Stores (m : Matrix α) (row col : Nat) (data : Option α) (m' : Matrix α) : Prop where
  valid : Valid m'
  sizeRows : m'.sizeRows = m.sizeRows
  sizeCols : m'.sizeCols = m.sizeCols
  rows : ∀ k ∈ m'.rows.items.map Row.row, k ∈ m.rows.items.map Row.row ∨ k = row
  has : ∀ i j d, Has m' i j d ↔ if i = row ∧ j = col then d = data else Has m i j d

/-- A row that is added is empty, and the other cells are as they were. -/
theorem rowIdxAdd_valid (hm : Valid m) (hrow : row ∉ m.rows.items.map Row.row)
    (hbound : row < m.sizeRows) : ∃ m', m.rowIdxAdd row = .returns m' ∧ Valid m' ∧
      m'.sizeRows = m.sizeRows ∧ m'.sizeCols = m.sizeCols ∧
      (⟨row, Track.empty⟩ : Row α) ∈ m'.rows.items ∧
      (∀ k ∈ m'.rows.items.map Row.row, k ∈ m.rows.items.map Row.row ∨ k = row) ∧
      ∀ i j d, Has m' i j d ↔ Has m i j d := by
  obtain ⟨t, front, back, hadd, ht, hitems, hitems', -, -⟩ :=
    idxAdd_spec (b := (⟨row, Track.empty⟩ : Row α)) hm.rows hrow
  have hmem (s : Row α) : s ∈ t.items ↔ s = ⟨row, Track.empty⟩ ∨ s ∈ m.rows.items := by
    rw [hitems, hitems']
    simp only [mem_append, mem_cons]
    tauto
  refine ⟨{ m with rows := t }, ?_, ⟨ht, ?_, ?_, ?_⟩, rfl, rfl, (hmem _).mpr (.inl rfl), ?_, ?_⟩
  · simp only [rowIdxAdd, hadd]
    rfl
  · intro s hs
    rcases (hmem s).mp hs with rfl | hs
    · exact valid_empty
    · exact hm.cells s hs
  · intro s hs
    rcases (hmem s).mp hs with rfl | hs
    · exact hbound
    · exact hm.rowBound s hs
  · intro s hs
    rcases (hmem s).mp hs with rfl | hs
    · simp [Track.empty]
    · exact hm.colBound s hs
  · intro k hk
    obtain ⟨s, hs, rfl⟩ := mem_map.mp hk
    rcases (hmem s).mp hs with rfl | hs
    · exact .inr rfl
    · exact .inl (mem_map_of_mem hs)
  · intro i j d
    constructor
    · rintro ⟨s, hs, hsi, c, hc, hcd⟩
      rcases (hmem s).mp hs with rfl | hs
      · simp [Track.empty] at hc
      · exact ⟨s, hs, hsi, c, hc, hcd⟩
    · rintro ⟨s, hs, hrest⟩
      exact ⟨s, (hmem s).mpr (.inr hs), hrest⟩

/-- Adding a cell to a row stores its data. -/
theorem rowCellIdxAdd_stores (hm : Valid m) (hr : r ∈ m.rows.items)
    (hcol : col ∉ r.cells.items.map Cell.col) (hbound : col < m.sizeCols) (data : Option α) :
    ∃ m', m.rowCellIdxAdd r.row col data = .returns m' ∧ Stores m r.row col data m' := by
  obtain ⟨t, front, back, hadd, ht, hitems, hitems', -, -⟩ :=
    idxAdd_spec (b := (⟨col, data⟩ : Cell α)) (hm.cells r hr) hcol
  have hmem (c : Cell α) : c ∈ t.items ↔ c = ⟨col, data⟩ ∨ c ∈ r.cells.items := by
    rw [hitems, hitems']
    simp only [mem_append, mem_cons]
    tauto
  refine ⟨m.setCells r.row t, ?_, valid_setCells hm ht ?_, rfl, rfl,
    fun k hk => .inl (by rw [← rows_setCells m r.row]; exact hk), ?_⟩
  · simp only [rowCellIdxAdd, rowAt_eq hm hr, Outcome.returns_bind, hadd]
    rfl
  · intro c hc
    rcases (hmem c).mp hc with rfl | hc
    · exact hbound
    · exact hm.colBound r hr c hc
  · intro i j d
    rw [has_setCells hr rfl]
    by_cases hi : i = r.row
    · rw [if_pos hi, has_iff hm hr hi.symm]
      by_cases hj : j = col
      · rw [if_pos ⟨hi, hj⟩]
        constructor
        · rintro ⟨c, hc, hcj, rfl⟩
          rcases (hmem c).mp hc with rfl | hc
          · rfl
          · exact absurd (mem_map.mpr ⟨c, hc, hcj.trans hj⟩) hcol
        · rintro rfl
          exact ⟨⟨col, d⟩, (hmem _).mpr (.inl rfl), hj.symm, rfl⟩
      · rw [if_neg (fun h => hj h.2)]
        constructor
        · rintro ⟨c, hc, hcj, hcd⟩
          rcases (hmem c).mp hc with rfl | hc
          · exact absurd hcj.symm hj
          · exact ⟨c, hc, hcj, hcd⟩
        · rintro ⟨c, hc, hrest⟩
          exact ⟨c, (hmem c).mpr (.inr hc), hrest⟩
    · rw [if_neg hi, if_neg (fun h => hi h.1)]

theorem cellIdxAdd_stores (hm : Valid m) (hnew : ∀ d, ¬Has m row col d) (hrow : row < m.sizeRows)
    (hcol : col < m.sizeCols) (data : Option α) :
    ∃ m', m.cellIdxAdd row col data = .returns m' ∧ Stores m row col data m' := by
  obtain ⟨m1, hget, hsame⟩ := rowIdxGet_same hm row
  -- the row, found or new, has no cell in this column
  have hready : ∃ m2 r, (if decide (row ∈ m.rows.items.map Row.row) then Outcome.returns m1
      else m1.rowIdxAdd row) = .returns m2 ∧ Valid m2 ∧ m2.sizeRows = m.sizeRows ∧
      m2.sizeCols = m.sizeCols ∧ r ∈ m2.rows.items ∧ r.row = row ∧
      (∀ k ∈ m2.rows.items.map Row.row, k ∈ m.rows.items.map Row.row ∨ k = row) ∧
      ∀ i j d, Has m2 i j d ↔ Has m i j d := by
    by_cases hmem : row ∈ m.rows.items.map Row.row
    · have hmem1 : row ∈ m1.rows.items.map Row.row := by rw [hsame.rows]; exact hmem
      obtain ⟨r, hr, hrow⟩ := mem_map.mp hmem1
      exact ⟨m1, r, by simp only [hmem, decide_true, if_true], hsame.valid, hsame.sizeRows,
        hsame.sizeCols, hr, hrow, fun k hk => .inl (by rw [← hsame.rows]; exact hk), hsame.has⟩
    · obtain ⟨m2, hadd, hvalid, hs1, hs2, hr, hrows, hhas⟩ := rowIdxAdd_valid hsame.valid
        (by rw [hsame.rows]; exact hmem) (by rw [hsame.sizeRows]; exact hrow)
      exact ⟨m2, ⟨row, Track.empty⟩, by
        simp only [hmem, decide_false, Bool.false_eq_true, if_false, hadd], hvalid,
        hs1.trans hsame.sizeRows, hs2.trans hsame.sizeCols, hr, rfl,
        fun k hk => by rw [← hsame.rows]; exact hrows k hk,
        fun i j d => (hhas i j d).trans (hsame.has i j d)⟩
  obtain ⟨m2, r, hready, hvalid, hs1, hs2, hr, rfl, hrows, hhas⟩ := hready
  have hfree : col ∉ r.cells.items.map Cell.col := by
    rw [has_col hvalid hr]
    rintro ⟨d, h⟩
    exact hnew d ((hhas _ _ _).mp h)
  obtain ⟨m3, hadd, hstores⟩ := rowCellIdxAdd_stores hvalid hr hfree (by rw [hs2]; exact hcol) data
  refine ⟨m3, ?_, hstores.valid, hstores.sizeRows.trans hs1, hstores.sizeCols.trans hs2, ?_, ?_⟩
  · simp only [cellIdxAdd, hget, Outcome.returns_bind, hready]
    exact hadd
  · intro k hk
    rcases hstores.rows k hk with hk | hk
    · exact hrows k hk
    · exact .inr hk
  · intro i j d
    rw [hstores.has]
    simp only [hhas]

/-- Storing into a cell that is there. -/
theorem setCellData_stores (hm : Valid m) {d' : Option α} (hhas : Has m row col d')
    (data : Option α) : ∃ m', m.setCellData row col data = .returns m' ∧
      Stores m row col data m' := by
  obtain ⟨r, hr, rfl, c', hc', hcol, -⟩ := hhas
  let f (c : Cell α) : Cell α := if c.col = col then { c with data := data } else c
  have hf (c : Cell α) : (f c).col = c.col := by
    unfold f
    split
    · rfl
    · rfl
  have hkeys : (r.cells.items.map f).map Cell.col = r.cells.items.map Cell.col := by
    rw [map_map]
    exact map_congr_left fun c _ => hf c
  have hold := hm.cells r hr
  have hvalid : Track.Valid Cell.col { r.cells with items := r.cells.items.map f } := by
    refine ⟨?_, ?_, ?_⟩
    · have hord := hold.ordered
      rw [← pairwise_map] at hord ⊢
      rw [hkeys]
      exact hord
    · have hlast := hold.last
      rw [← getLast?_map] at hlast ⊢
      rw [hkeys]
      exact hlast
    · rw [hkeys]
      exact hold.lastUsed
  refine ⟨m.setCells r.row { r.cells with items := r.cells.items.map f }, ?_,
    valid_setCells hm hvalid ?_, rfl, rfl,
    fun k hk => .inl (by rw [← rows_setCells m]; exact hk), ?_⟩
  · simp only [setCellData, rowAt_eq hm hr]
    rfl
  · intro c hc
    obtain ⟨c1, hc1, rfl⟩ := mem_map.mp hc
    rw [hf]
    exact hm.colBound r hr c1 hc1
  · intro i j d
    rw [has_setCells hr rfl]
    by_cases hi : i = r.row
    · rw [if_pos hi, has_iff hm hr hi.symm]
      by_cases hj : j = col
      · rw [if_pos ⟨hi, hj⟩]
        constructor
        · rintro ⟨c, hc, hcj, rfl⟩
          obtain ⟨c1, -, rfl⟩ := mem_map.mp hc
          rw [hf] at hcj
          unfold f
          rw [if_pos (hcj.trans hj)]
        · rintro rfl
          refine ⟨f c', mem_map_of_mem hc', by rw [hf, hcol, hj], ?_⟩
          unfold f
          rw [if_pos hcol]
      · rw [if_neg (fun h => hj h.2)]
        constructor
        · rintro ⟨c, hc, hcj, hcd⟩
          obtain ⟨c1, hc1, rfl⟩ := mem_map.mp hc
          rw [hf] at hcj
          unfold f at hcd
          rw [if_neg (by rw [hcj]; exact hj)] at hcd
          exact ⟨c1, hc1, hcj, hcd⟩
        · rintro ⟨c, hc, hcj, hcd⟩
          have hfc : f c = c := by
            unfold f
            rw [if_neg (by rw [hcj]; exact hj)]
          exact ⟨f c, mem_map_of_mem hc, by rw [hf, hcj], by rw [hfc, hcd]⟩
    · rw [if_neg hi, if_neg (fun h => hi h.1)]

theorem Stores.ofSame (hsame : Same m m1) (h : Stores m1 row col data m') :
    Stores m row col data m' := by
  refine ⟨h.valid, h.sizeRows.trans hsame.sizeRows, h.sizeCols.trans hsame.sizeCols,
    fun k hk => by rw [← hsame.rows]; exact h.rows k hk, ?_⟩
  intro i j d
  rw [h.has]
  simp only [hsame.has]

theorem store_cases (hm : Valid m) (hrow : row < m.sizeRows) (hcol : col < m.sizeCols)
    (data : Option α) : ∃ b m1, m.cellIdxFind row col = .returns (b, m1) ∧ Same m m1 ∧
      ((b = true ∧ (∃ d, Has m1 row col d) ∧
        ∃ m', m1.setCellData row col data = .returns m' ∧ Stores m row col data m') ∨
      (b = false ∧ ∃ m', m1.cellIdxAdd row col data = .returns m' ∧ Stores m row col data m')) := by
  obtain ⟨b, m1, hfind, hsame, hb⟩ := cellIdxFind_same hm row col
  refine ⟨b, m1, hfind, hsame, ?_⟩
  cases b with
  | true =>
    obtain ⟨d, hd⟩ := hb.mp rfl
    have hd1 : Has m1 row col d := (hsame.has _ _ _).mpr hd
    obtain ⟨m', hset, hstores⟩ := setCellData_stores hsame.valid hd1 data
    exact .inl ⟨rfl, ⟨d, hd1⟩, m', hset, hstores.ofSame hsame⟩
  | false =>
    have hnew : ∀ d, ¬Has m1 row col d := by
      intro d hd
      exact absurd (hb.mpr ⟨d, (hsame.has _ _ _).mp hd⟩) (by simp)
    obtain ⟨m', hadd, hstores⟩ := cellIdxAdd_stores hsame.valid hnew
      (by rw [hsame.sizeRows]; exact hrow) (by rw [hsame.sizeCols]; exact hcol) data
    exact .inr ⟨rfl, m', hadd, hstores.ofSame hsame⟩

theorem dataIdxSet_stores (hm : Valid m) (row col : Nat) (data : Option α) : ∃ m' b,
    m.dataIdxSet row col data = .returns (m', b) ∧
      ((b = false ∧ m' = m ∧ ¬(row < m.sizeRows ∧ col < m.sizeCols)) ∨
        (b = true ∧ Stores m row col data m' ∧ row < m.sizeRows ∧ col < m.sizeCols)) := by
  unfold dataIdxSet
  by_cases hrow : row < m.sizeRows
  · by_cases hcol : col < m.sizeCols
    · rw [if_neg (by simpa using hrow), if_neg (by simpa using hcol)]
      obtain ⟨b, m1, hfind, -, ⟨rfl, -, m', hset, hstores⟩ | ⟨rfl, m', hadd, hstores⟩⟩ :=
        store_cases hm hrow hcol data
      · refine ⟨m', true, ?_, .inr ⟨rfl, hstores, hrow, hcol⟩⟩
        simp only [hfind, Outcome.returns_bind, hset]
        rfl
      · refine ⟨m', true, ?_, .inr ⟨rfl, hstores, hrow, hcol⟩⟩
        simp only [hfind, Outcome.returns_bind, hadd]
        rfl
    · rw [if_neg (by simpa using hrow), if_pos hcol]
      exact ⟨m, false, rfl, .inl ⟨rfl, rfl, fun h => hcol h.2⟩⟩
  · rw [if_pos hrow]
    exact ⟨m, false, rfl, .inl ⟨rfl, rfl, fun h => hrow h.1⟩⟩

theorem cellData_eq (hm : Valid m) (hhas : Has m row col d) : m.cellData row col = .returns d := by
  obtain ⟨r, hr, rfl, c, hc, rfl, rfl⟩ := hhas
  simp only [cellData, rowAt_eq hm hr, Outcome.returns_bind]
  cases hfind : r.cells.items.find? (fun c' => decide (c'.col = c.col)) with
  | none =>
    have := find?_eq_none.mp hfind c hc
    exact absurd (decide_eq_true rfl) this
  | some c' =>
    have hkey : c'.col = c.col := by simpa using find?_some hfind
    have hsame : c' = c :=
      eq_of_key (hm.cells r hr).ordered (mem_of_find?_eq_some hfind) hc hkey
    rw [hsame]
    rfl

theorem dataIdxReplace_valid (hm : Valid m) (row col : Nat) (data : Option α) : ∃ m' b old,
    m.dataIdxReplace row col data = .returns (m', b, old) ∧ Valid m' := by
  unfold dataIdxReplace
  split
  · exact ⟨m, false, none, rfl, hm⟩
  split
  · exact ⟨m, false, none, rfl, hm⟩
  rename_i hrow hcol
  obtain ⟨b, m1, hfind, hsame, ⟨rfl, ⟨d, hd⟩, m', hset, hstores⟩ | ⟨rfl, m', hadd, hstores⟩⟩ :=
    store_cases hm (by simpa using hrow) (by simpa using hcol) data
  · refine ⟨m', true, d, ?_, hstores.valid⟩
    simp only [hfind, Outcome.returns_bind, cellData_eq hsame.valid hd, hset]
    rfl
  · refine ⟨m', true, none, ?_, hstores.valid⟩
    simp only [hfind, Outcome.returns_bind, hadd]
    rfl

theorem cellIdxGet_valid (hm : Valid m) (row col : Nat) : ∃ m' b found,
    m.cellIdxGet row col = .returns (m', b, found) ∧ Valid m' := by
  unfold cellIdxGet
  split
  · exact ⟨m, false, false, rfl, hm⟩
  split
  · exact ⟨m, false, false, rfl, hm⟩
  obtain ⟨b, m', hfind, hsame, -⟩ := cellIdxFind_same hm row col
  refine ⟨m', true, b, ?_, hsame.valid⟩
  simp only [hfind]
  rfl

theorem dataIdxGet_valid (hm : Valid m) (row col : Nat) : ∃ m' d,
    m.dataIdxGet row col = .returns (m', d) ∧ Valid m' := by
  obtain ⟨b, m', hfind, hsame, hb⟩ := cellIdxFind_same hm row col
  cases b with
  | true =>
    obtain ⟨d, hd⟩ := hb.mp rfl
    refine ⟨m', d, ?_, hsame.valid⟩
    simp only [dataIdxGet, hfind, Outcome.returns_bind,
      cellData_eq hsame.valid ((hsame.has _ _ _).mpr hd)]
    rfl
  | false =>
    refine ⟨m', none, ?_, hsame.valid⟩
    simp only [dataIdxGet, hfind]
    rfl

/-! ### Clearing -/

/-- A valid matrix of the same size from which the places `gone` are cleared. -/
structure Clears (m : Matrix α) (gone : Nat → Nat → Prop) (m' : Matrix α) : Prop where
  valid : Valid m'
  sizeRows : m'.sizeRows = m.sizeRows
  sizeCols : m'.sizeCols = m.sizeCols
  rows : ∀ k ∈ m'.rows.items.map Row.row, k ∈ m.rows.items.map Row.row
  has : ∀ i j d, Has m' i j d ↔ Has m i j d ∧ ¬gone i j

theorem Clears.ofSame (hsame : Same m m1)
    (h : Clears m1 gone m') : Clears m gone m' := by
  refine ⟨h.valid, h.sizeRows.trans hsame.sizeRows, h.sizeCols.trans hsame.sizeCols,
    fun k hk => by rw [← hsame.rows]; exact h.rows k hk, ?_⟩
  intro i j d
  rw [h.has, hsame.has]

theorem Same.clears {m' : Matrix α} (hsame : Same m m')
    (h : ∀ i j, gone i j → ∀ d, ¬Has m i j d) : Clears m gone m' := by
  refine ⟨hsame.valid, hsame.sizeRows, hsame.sizeCols,
    fun k hk => by rw [← hsame.rows]; exact hk, ?_⟩
  intro i j d
  rw [hsame.has]
  constructor
  · intro hd
    exact ⟨hd, fun hgone => h i j hgone d hd⟩
  · intro hd
    exact hd.1

/-- Every row that is left has a cell if it had one. -/
def Stays (m m' : Matrix α) : Prop :=
  ∀ k ∈ m'.rows.items.map Row.row, (∃ j d, Has m k j d) → ∃ j d, Has m' k j d

theorem Same.stays {m' : Matrix α} (hsame : Same m m') : Stays m m' := by
  intro k _ hcell
  simp only [hsame.has]
  exact hcell

theorem Stays.ofSame (hsame : Same m m1) (h : Stays m1 m') : Stays m m' := by
  intro k hk hcell
  refine h k hk ?_
  simp only [hsame.has]
  exact hcell

theorem rowUnlink_clears (hm : Valid m) (hrow : row ∈ m.rows.items.map Row.row) : ∃ m',
    m.rowUnlink row = .returns m' ∧ Clears m (fun i _ => i = row) m' ∧
      m'.rows.items = m.rows.items.filter fun r => decide (r.row ≠ row) := by
  obtain ⟨t, hunlink, ht, hitems⟩ := unlink_spec hm.rows hrow
  have hmem (s : Row α) : s ∈ t.items ↔ s ∈ m.rows.items ∧ s.row ≠ row := by
    rw [hitems]
    simp
  refine ⟨{ m with rows := t }, ?_, ⟨⟨ht, ?_, ?_, ?_⟩, rfl, rfl, ?_, ?_⟩, hitems⟩
  · simp only [rowUnlink, hunlink]
    rfl
  · intro s hs
    exact hm.cells s ((hmem s).mp hs).1
  · intro s hs
    exact hm.rowBound s ((hmem s).mp hs).1
  · intro s hs
    exact hm.colBound s ((hmem s).mp hs).1
  · intro k hk
    obtain ⟨s, hs, rfl⟩ := mem_map.mp hk
    exact mem_map_of_mem ((hmem s).mp hs).1
  · intro i j d
    constructor
    · rintro ⟨s, hs, hsi, hrest⟩
      obtain ⟨hs, hne⟩ := (hmem s).mp hs
      exact ⟨⟨s, hs, hsi, hrest⟩, by rw [← hsi]; exact hne⟩
    · rintro ⟨⟨s, hs, hsi, hrest⟩, hne⟩
      exact ⟨s, (hmem s).mpr ⟨hs, by rw [hsi]; exact hne⟩, hsi, hrest⟩

theorem rowUnlink_stays {m' : Matrix α} (hclears : Clears m (fun i _ => i = row) m')
    (hitems : m'.rows.items = m.rows.items.filter fun r => decide (r.row ≠ row)) : Stays m m' := by
  rintro k hk ⟨j, d, hd⟩
  refine ⟨j, d, (hclears.has k j d).mpr ⟨hd, ?_⟩⟩
  obtain ⟨s, hs, rfl⟩ := mem_map.mp hk
  rw [hitems, mem_filter] at hs
  simpa using hs.2

theorem cellUnlink_clears (hm : Valid m) (hr : r ∈ m.rows.items)
    (hcol : col ∈ r.cells.items.map Cell.col) : ∃ m',
    m.cellUnlink r.row col = .returns m' ∧ Clears m (fun i j => i = r.row ∧ j = col) m' ∧
      m'.rows.items.map Row.row = m.rows.items.map Row.row := by
  obtain ⟨t, hunlink, ht, hitems⟩ := unlink_spec (hm.cells r hr) hcol
  have hmem (c : Cell α) : c ∈ t.items ↔ c ∈ r.cells.items ∧ c.col ≠ col := by
    rw [hitems]
    simp
  refine ⟨m.setCells r.row t, ?_, ⟨valid_setCells hm ht ?_, rfl, rfl,
    fun k hk => by rw [← rows_setCells m r.row]; exact hk, ?_⟩, rows_setCells m r.row t⟩
  · simp only [cellUnlink, rowAt_eq hm hr, Outcome.returns_bind, hunlink]
    rfl
  · intro c hc
    exact hm.colBound r hr c ((hmem c).mp hc).1
  · intro i j d
    rw [has_setCells hr rfl]
    by_cases hi : i = r.row
    · rw [if_pos hi, has_iff hm hr hi.symm]
      constructor
      · rintro ⟨c, hc, hcj, hcd⟩
        obtain ⟨hc, hne⟩ := (hmem c).mp hc
        exact ⟨⟨c, hc, hcj, hcd⟩, fun h => hne (hcj.trans h.2)⟩
      · rintro ⟨⟨c, hc, hcj, hcd⟩, hne⟩
        refine ⟨c, (hmem c).mpr ⟨hc, ?_⟩, hcj, hcd⟩
        intro h
        exact hne ⟨hi, hcj.symm.trans h⟩
    · rw [if_neg hi]
      constructor
      · intro h
        exact ⟨h, fun h' => hi h'.1⟩
      · intro h
        exact h.1

theorem rowIdxClear_clears (hm : Valid m) (row : Nat) : ∃ m' b,
    m.rowIdxClear row = .returns (m', b) ∧ Clears m (fun i _ => i = row) m' ∧ Stays m m' := by
  have hnone (hrow : row ∉ m.rows.items.map Row.row) :
      ∀ i (_ : Nat), i = row → ∀ d, ¬Has m i ‹Nat› d := by
    rintro i j rfl d ⟨r, hr, rfl, -⟩
    exact hrow (mem_map_of_mem hr)
  have hrefl : Same m m := ⟨hm, rfl, rfl, rfl, fun _ _ _ => Iff.rfl⟩
  unfold rowIdxClear
  split
  · refine ⟨m, false, rfl, hrefl.clears ?_, hrefl.stays⟩
    intro i j hi d hd
    obtain ⟨r, hr, hri, -⟩ := hd
    have := hm.rowBound r hr
    omega
  · obtain ⟨m1, hget, hsame⟩ := rowIdxGet_same hm row
    by_cases hrow : row ∈ m.rows.items.map Row.row
    · obtain ⟨m', hunlink, hclears, hitems⟩ :=
        rowUnlink_clears hsame.valid (by rw [hsame.rows]; exact hrow)
      refine ⟨m', true, ?_, hclears.ofSame hsame, (rowUnlink_stays hclears hitems).ofSame hsame⟩
      simp only [hget, Outcome.returns_bind, hrow, hunlink]
      rfl
    · refine ⟨m1, true, ?_, hsame.clears fun i j hi d => hnone hrow i j hi d, hsame.stays⟩
      simp only [hget, hrow]
      rfl

theorem cellIdxClear_clears (hm : Valid m) (row col : Nat) : ∃ m' b,
    m.cellIdxClear row col = .returns (m', b) ∧ Clears m (fun i j => i = row ∧ j = col) m' := by
  have hrefl : Same m m := ⟨hm, rfl, rfl, rfl, fun _ _ _ => Iff.rfl⟩
  unfold cellIdxClear
  split
  · refine ⟨m, false, rfl, hrefl.clears ?_⟩
    rintro i j ⟨hi, -⟩ d ⟨r, hr, hri, -⟩
    have := hm.rowBound r hr
    omega
  split
  · refine ⟨m, false, rfl, hrefl.clears ?_⟩
    rintro i j ⟨-, hj⟩ d ⟨r, hr, -, c, hc, hcj, -⟩
    have := hm.colBound r hr c hc
    omega
  obtain ⟨b, m1, hfind, hsame, hb⟩ := cellIdxFind_same hm row col
  cases b with
  | true =>
    obtain ⟨d, hd⟩ := hb.mp rfl
    obtain ⟨r, hr, rfl, c, hc, rfl, -⟩ := (hsame.has _ _ _).mpr hd
    obtain ⟨m', hunlink, hclears, -⟩ :=
      cellUnlink_clears hsame.valid hr (mem_map_of_mem hc)
    refine ⟨m', true, ?_, hclears.ofSame hsame⟩
    simp only [hfind, Outcome.returns_bind, hunlink]
    rfl
  | false =>
    refine ⟨m1, true, ?_, hsame.clears ?_⟩
    · simp only [hfind]
      rfl
    · rintro i j ⟨rfl, rfl⟩ d hd
      exact absurd (hb.mpr ⟨d, hd⟩) (by simp)

theorem other_cell (hcells : Track.Valid Cell.col cells) (hcol : col ∈ cells.items.map Cell.col)
    (h : cells.items.head?.map Cell.col ≠ some col ∨ cells.last ≠ some col) :
    ∃ c ∈ cells.items, c.col ≠ col := by
  obtain ⟨c', hc', -⟩ := mem_map.mp hcol
  rcases h with h | h
  · cases hitems : cells.items with
    | nil =>
      rw [hitems] at hc'
      simp at hc'
    | cons c cs =>
      refine ⟨c, mem_cons_self, ?_⟩
      rw [hitems] at h
      simpa using h
  · obtain ⟨last, hlast⟩ := hcells.last_isSome (ne_nil_of_mem hc')
    obtain ⟨c, hc, hend⟩ := mem_map.mp (hcells.last_mem hlast)
    refine ⟨c, hc, ?_⟩
    intro hsame
    exact h (by rw [hlast, ← hend, hsame])

/-- Clearing a column empties its cell of a row and nothing else. -/
theorem columnClearIn_clears (hm : Valid m) (hr : r ∈ m.rows.items) (col : Nat) : ∃ m',
    columnClearIn col m r.row = .returns m' ∧ Clears m (fun i j => i = r.row ∧ j = col) m' ∧
      Stays m m' ∧ ∀ k ∈ m.rows.items.map Row.row, k ≠ r.row → k ∈ m'.rows.items.map Row.row := by
  obtain ⟨m1, hget, hsame⟩ := rowCellIdxGet_same hm hr col
  by_cases hcol : col ∈ r.cells.items.map Cell.col
  · have hrow1 : r.row ∈ m1.rows.items.map Row.row := by
      rw [hsame.rows]
      exact mem_map_of_mem hr
    obtain ⟨r1, hr1, hr1row⟩ := mem_map.mp hrow1
    have hcol1 : col ∈ r1.cells.items.map Cell.col := by
      obtain ⟨d, hd⟩ := (has_col hm hr).mp hcol
      exact (has_col hsame.valid hr1).mpr ⟨d, (hsame.has _ _ _).mpr (by rw [hr1row]; exact hd)⟩
    have hstart : columnClearIn col m r.row =
        if r1.cells.items.head?.map Cell.col ≠ some col ∨ r1.cells.last ≠ some col then
          m1.cellUnlink r1.row col else m1.rowUnlink r1.row := by
      simp only [columnClearIn, hget, Outcome.returns_bind, hcol, decide_true]
      rw [← hr1row, rowAt_eq hsame.valid hr1]
      rfl
    rw [hstart]
    split
    · obtain ⟨m', hunlink, hclears, hrows⟩ := cellUnlink_clears hsame.valid hr1 hcol1
      have hstays : Stays m1 m' := by
        rintro k - ⟨j, d, hd⟩
        by_cases hk : k = r1.row
        · obtain ⟨c, hc, hne⟩ := other_cell (hsame.valid.cells r1 hr1) hcol1 ‹_›
          exact ⟨c.col, c.data, (hclears.has _ _ _).mpr
            ⟨⟨r1, hr1, hk.symm, c, hc, rfl, rfl⟩, fun h => hne h.2⟩⟩
        · exact ⟨j, d, (hclears.has _ _ _).mpr ⟨hd, fun h => hk h.1⟩⟩
      rw [hr1row] at hclears
      refine ⟨m', hunlink, hclears.ofSame hsame, hstays.ofSame hsame, ?_⟩
      intro k hk _
      rw [hrows, hsame.rows]
      exact hk
    · -- the only cell of the row: nothing else is stored in it
      rename_i honly
      obtain ⟨m', hunlink, hclears, hitems⟩ := rowUnlink_clears hsame.valid
        (mem_map_of_mem hr1)
      have hsingle : ∀ c ∈ r1.cells.items, c.col = col := by
        simp only [not_or, not_not] at honly
        have hv := hsame.valid.cells r1 hr1
        intro c hc
        have hle := hv.le_last honly.2 c hc
        obtain ⟨c0, hc0, hc0col⟩ := Option.map_eq_some_iff.mp honly.1
        obtain ⟨rest, hrest⟩ := head?_eq_some_iff.mp hc0
        have hord := hv.ordered
        rw [hrest] at hord hc
        rcases mem_cons.mp hc with rfl | hc
        · exact hc0col
        · have := (pairwise_cons.mp hord).1 c hc
          omega
      refine ⟨m', hunlink, ⟨hclears.valid, hclears.sizeRows.trans hsame.sizeRows,
        hclears.sizeCols.trans hsame.sizeCols, (hclears.ofSame hsame).rows, ?_⟩,
        (rowUnlink_stays hclears hitems).ofSame hsame, ?_⟩
      · intro i j d
        rw [hclears.has, hsame.has, hr1row]
        constructor
        · rintro ⟨hd, hne⟩
          exact ⟨hd, fun h => hne h.1⟩
        · rintro ⟨hd, hne⟩
          refine ⟨hd, ?_⟩
          rintro rfl
          obtain ⟨c, hc, hcj, -⟩ :=
            (has_iff hsame.valid hr1 hr1row).mp ((hsame.has _ _ _).mpr hd)
          exact hne ⟨rfl, hcj.symm.trans (hsingle c hc)⟩
      · intro k hk hne
        rw [← hsame.rows] at hk
        obtain ⟨s, hs, rfl⟩ := mem_map.mp hk
        rw [hitems]
        refine mem_map_of_mem (mem_filter.mpr ⟨hs, ?_⟩)
        rw [hr1row]
        simpa using hne
  · refine ⟨m1, ?_, hsame.clears ?_, hsame.stays, ?_⟩
    · simp only [columnClearIn, hget, hcol]
      rfl
    · rintro i j ⟨rfl, rfl⟩ d hd
      exact hcol ((has_col hm hr).mpr ⟨d, hd⟩)
    · intro k hk _
      rw [hsame.rows]
      exact hk

theorem foldlM_columnClearIn (col : Nat) : ∀ (ks : List Nat) (m : Matrix α), Valid m → ks.Nodup →
    (∀ k ∈ ks, k ∈ m.rows.items.map Row.row) →
      ∃ m', ks.foldlM (columnClearIn col) m = .returns m' ∧
        Clears m (fun i j => i ∈ ks ∧ j = col) m' ∧ Stays m m' := by
  intro ks
  induction ks with
  | nil =>
    intro m hm _ _
    have hrefl : Same m m := ⟨hm, rfl, rfl, rfl, fun _ _ _ => Iff.rfl⟩
    exact ⟨m, rfl, hrefl.clears (by simp), hrefl.stays⟩
  | cons k ks ih =>
    intro m hm hnodup hmem
    rw [nodup_cons] at hnodup
    obtain ⟨r, hr, rfl⟩ := mem_map.mp (hmem k mem_cons_self)
    obtain ⟨m1, hstep, hclears, hstays, hrows⟩ := columnClearIn_clears hm hr col
    obtain ⟨m', hfold, hclears', hstays'⟩ := ih m1 hclears.valid hnodup.2 (by
      intro k hk
      refine hrows k (hmem k (mem_cons_of_mem _ hk)) ?_
      rintro rfl
      exact hnodup.1 hk)
    refine ⟨m', ?_, ⟨hclears'.valid, hclears'.sizeRows.trans hclears.sizeRows,
      hclears'.sizeCols.trans hclears.sizeCols, fun k hk => hclears.rows k (hclears'.rows k hk),
      ?_⟩, fun k hk hcell => hstays' k hk (hstays k (hclears'.rows k hk) hcell)⟩
    · rw [foldlM_cons, hstep]
      exact hfold
    · intro i j d
      rw [hclears'.has, hclears.has]
      simp only [mem_cons]
      tauto

theorem columnIdxClear_clears (hm : Valid m) (col : Nat) : ∃ m' b,
    m.columnIdxClear col = .returns (m', b) ∧ Clears m (fun _ j => j = col) m' ∧ Stays m m' := by
  unfold columnIdxClear
  split
  · have hrefl : Same m m := ⟨hm, rfl, rfl, rfl, fun _ _ _ => Iff.rfl⟩
    refine ⟨m, false, rfl, hrefl.clears ?_, hrefl.stays⟩
    rintro i j hj d ⟨r, hr, -, c, hc, hcj, -⟩
    have := hm.colBound r hr c hc
    omega
  · have hnodup : (m.rows.items.map Row.row).Nodup := by
      rw [List.Nodup, pairwise_map]
      exact hm.rows.ordered.imp fun h => ne_of_lt h
    obtain ⟨m', hfold, hclears, hstays⟩ := foldlM_columnClearIn col _ m hm hnodup fun k hk => hk
    refine ⟨m', true, ?_, ⟨hclears.valid, hclears.sizeRows, hclears.sizeCols, hclears.rows, ?_⟩,
      hstays⟩
    · simp only [hfold]
      rfl
    · intro i j d
      rw [hclears.has]
      constructor
      · rintro ⟨hd, hne⟩
        refine ⟨hd, ?_⟩
        rintro rfl
        obtain ⟨r, hr, rfl, -⟩ := hd
        exact hne ⟨mem_map_of_mem hr, rfl⟩
      · rintro ⟨hd, hne⟩
        exact ⟨hd, fun h => hne h.2⟩

end Matrix

end Eina.Matrixsparse
