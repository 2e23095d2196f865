/-
Lookups and insertions with the arithmetic of `unsigned long`.

The distances that choose where a search starts are differences; the code subtracts in 64 bits,
where a difference may wrap around.  On an ordered list it does not, since a search is only made
for a number between the first and the last one, and `last_used` is compared before it is
subtracted.
-/
import Mathlib.Algebra.Group.Nat.Defs
import Efl.Eina.Matrixsparse.Valid

namespace Eina.Matrixsparse

open List Outcome

/-- The difference of two `unsigned long`. -/
def ulongSub (a b : Nat) : Nat := (a + 2 ^ 64 - b) % 2 ^ 64

theorem ulongSub_eq {a b : Nat} (hle : b ≤ a) (ha : a < 2 ^ 64) : ulongSub a b = a - b := by
  have hsplit : a + 2 ^ 64 - b = (a - b) + 2 ^ 64 := by omega
  rw [ulongSub, hsplit, Nat.add_mod_right]
  exact Nat.mod_eq_of_lt (by omega)

namespace Track

variable {β : Type} {key : β → Nat} {t : Track β} {k : Nat} {b : β} {used : Option Nat}
  {first last : Nat}

/-- The `find_parms_get` functions -/
def findParmsUlong : Nat → Nat → Option Nat → Nat → Start := findParmsBy ulongSub

/-- The `idx_get` functions -/
def idxGetUlong (key : β → Nat) (t : Track β) (k : Nat) : Outcome (Bool × Track β) :=
  idxGetBy ulongSub key t k

/-- The `idx_add` functions -/
def idxAddUlong (key : β → Nat) (t : Track β) (b : β) : Outcome (Track β) :=
  idxAddBy ulongSub key t b

/-! ### No distance wraps around -/

/-- The numbers of the items are `unsigned long`. -/
def Ulong (key : β → Nat) (t : Track β) : Prop := ∀ b ∈ t.items, key b < 2 ^ 64

theorem findParmsBy_congr {sub sub' : Nat → Nat → Nat}
    (hfirst : sub k first = sub' k first) (hlast : sub last k = sub' last k)
    (hused : ∀ u, used = some u →
      (u < k → sub k u = sub' k u) ∧ (¬ u < k → sub u k = sub' u k)) :
    findParmsBy sub first last used k = findParmsBy sub' first last used k := by
  unfold findParmsBy
  rw [hfirst, hlast]
  cases used with
  | none => rfl
  | some u =>
    obtain ⟨hbelow, habove⟩ := hused u rfl
    dsimp only
    by_cases hlt : u < k
    · rw [if_pos hlt, if_pos hlt, hbelow hlt]
    · rw [if_neg hlt, if_neg hlt, habove hlt]

theorem findParmsUlong_eq (h1 : first ≤ k) (h2 : k ≤ last)
    (hlast : last < 2 ^ 64) (hused : ∀ u, used = some u → u < 2 ^ 64) :
    findParmsUlong first last used k = findParmsGet first last used k := by
  have hk : k < 2 ^ 64 := lt_of_le_of_lt h2 hlast
  refine findParmsBy_congr (ulongSub_eq h1 hk) (ulongSub_eq h2 hlast) fun u hu => ⟨?_, ?_⟩
  · intro hlt
    exact ulongSub_eq (le_of_lt hlt) hk
  · intro hlt
    exact ulongSub_eq (Nat.le_of_not_lt hlt) (hused u hu)

theorem Valid.start_ulong (ht : Valid key t) (hu : Ulong key t) {first : β} {last : Nat}
    (hlast : t.last = some last) (h1 : key first ≤ k) (h2 : k ≤ last) :
    findParmsUlong (key first) last t.lastUsed k = findParmsGet (key first) last t.lastUsed k := by
  have hlt : ∀ n ∈ t.items.map key, n < 2 ^ 64 := by
    intro n hn
    obtain ⟨b, hb, rfl⟩ := mem_map.mp hn
    exact hu b hb
  exact findParmsUlong_eq h1 h2 (hlt last (ht.last_mem hlast))
    fun u hused => hlt u (ht.lastUsed u hused)

theorem idxGetUlong_eq (ht : Valid key t) (hu : Ulong key t) (k : Nat) :
    idxGetUlong key t k = idxGet key t k := by
  unfold idxGetUlong idxGet idxGetBy
  cases hitems : t.items with
  | nil => rfl
  | cons first rest =>
    dsimp only
    by_cases hk : key first = k
    · rw [if_pos hk, if_pos hk]
    by_cases hlt : k < key first
    · rw [if_neg hk, if_neg hk, if_pos hlt, if_pos hlt]
    cases hlast : t.last with
    | none => rfl
    | some last =>
      dsimp only
      by_cases heq : last = k
      · rw [if_pos heq, if_pos heq]
      by_cases hbehind : last < k
      · rw [if_neg heq, if_neg heq, if_pos hbehind, if_pos hbehind]
      rw [if_neg heq, if_neg heq, if_neg hbehind, if_neg hbehind]
      have hstart := ht.start_ulong hu hlast (le_of_not_gt hlt) (le_of_not_gt hbehind)
      change findParmsBy ulongSub (key first) last t.lastUsed k = findParmsBy _ _ _ _ _ at hstart
      rw [hstart]

theorem idxAddUlong_eq (ht : Valid key t) (hu : Ulong key t) (b : β) :
    idxAddUlong key t b = idxAdd key t b := by
  unfold idxAddUlong idxAdd idxAddBy
  cases hitems : t.items with
  | nil => rfl
  | cons first rest =>
    dsimp only
    by_cases hlt : key b < key first
    · rw [if_pos hlt, if_pos hlt]
    cases hlast : t.last with
    | none => rfl
    | some last =>
      dsimp only
      by_cases hbehind : last < key b
      · rw [if_pos hbehind, if_pos hbehind]
      unfold siblingsFindBy
      have hstart := ht.start_ulong hu hlast (le_of_not_gt hlt) (le_of_not_gt hbehind)
      change findParmsBy ulongSub (key first) last t.lastUsed (key b) =
        findParmsBy _ _ _ _ _ at hstart
      rw [hstart]

end Track

variable {α : Type}

namespace Matrix

/-- `_eina_matrixsparse_row_idx_get` -/
def rowIdxGetUlong (m : Matrix α) (row : Nat) : Outcome (Bool × Matrix α) := do
  let (found, rows) ← m.rows.idxGetUlong Row.row row
  return (found, { m with rows := rows })

/-- `_eina_matrixsparse_row_cell_idx_get` -/
def rowCellIdxGetUlong (m : Matrix α) (row col : Nat) : Outcome (Bool × Matrix α) := do
  let r ← m.rowAt row
  let (found, cells) ← r.cells.idxGetUlong Cell.col col
  return (found, m.setCells row cells)

/-- `_eina_matrixsparse_cell_idx_get` -/
def cellIdxFindUlong (m : Matrix α) (row col : Nat) : Outcome (Bool × Matrix α) := do
  let (found, m) ← m.rowIdxGetUlong row
  if found then m.rowCellIdxGetUlong row col else return (false, m)

/-- `_eina_matrixsparse_row_idx_add` -/
def rowIdxAddUlong (m : Matrix α) (row : Nat) : Outcome (Matrix α) := do
  let rows ← m.rows.idxAddUlong Row.row ⟨row, Track.empty⟩
  return { m with rows := rows }

/-- `_eina_matrixsparse_row_cell_idx_add` -/
def rowCellIdxAddUlong (m : Matrix α) (row col : Nat) (data : Option α) : Outcome (Matrix α) := do
  let r ← m.rowAt row
  let cells ← r.cells.idxAddUlong Cell.col ⟨col, data⟩
  return m.setCells row cells

/-! ### Ordered matrices -/

/--
Rows and columns are strictly ordered `unsigned long`, and `last_used`, where it is set, is any
linked row or cell.
-/
structure Ordered (m : Matrix α) : Prop where
  rows : Track.Valid Row.row m.rows
  cells : ∀ r ∈ m.rows.items, Track.Valid Cell.col r.cells
  rowUlong : Track.Ulong Row.row m.rows
  colUlong : ∀ r ∈ m.rows.items, Track.Ulong Cell.col r.cells

/-- The rows and the cells that are linked. -/
def linked (m : Matrix α) : List (Nat × List (Cell α)) :=
  m.rows.items.map fun r => (r.row, r.cells.items)

/-- The cell in row `i` and column `j` is linked. -/
def Linked (m : Matrix α) (i j : Nat) : Prop :=
  ∃ r ∈ m.rows.items, r.row = i ∧ j ∈ r.cells.items.map Cell.col

variable {m m' : Matrix α} {r : Row α} {cells : Track (Cell α)} {row col : Nat}

theorem Ordered.eq_of_row (hm : Ordered m) {s : Row α} (hr : r ∈ m.rows.items)
    (hs : s ∈ m.rows.items) (h : r.row = s.row) : r = s :=
  Track.eq_of_key hm.rows.ordered hr hs h

theorem Ordered.rowAt_eq (hm : Ordered m) (hr : r ∈ m.rows.items) :
    m.rowAt r.row = .returns r := by
  unfold rowAt
  cases hfind : m.rows.items.find? (fun s => decide (s.row = r.row)) with
  | none =>
    have := find?_eq_none.mp hfind r hr
    exact absurd (decide_eq_true rfl) this
  | some s =>
    have hs := mem_of_find?_eq_some hfind
    have hrow : s.row = r.row := by simpa using find?_some hfind
    rw [hm.eq_of_row hs hr hrow]

theorem Ordered.setCells (hm : Ordered m) (hcells : Track.Valid Cell.col cells)
    (hu : Track.Ulong Cell.col cells) : Ordered (m.setCells row cells) := by
  have hmem : ∀ s ∈ (m.setCells row cells).rows.items, s.cells = cells ∨ s ∈ m.rows.items := by
    intro s hs
    rcases mem_setCells.mp hs with ⟨r, -, -, rfl⟩ | ⟨hs, -⟩
    · exact .inl rfl
    · exact .inr hs
  refine ⟨⟨?_, ?_, ?_⟩, ?_, ?_, ?_⟩
  · have hord := hm.rows.ordered
    rw [← pairwise_map] at hord ⊢
    rw [rows_setCells]
    exact hord
  · rw [← getLast?_map, rows_setCells, getLast?_map]
    exact hm.rows.last
  · rw [rows_setCells]
    exact hm.rows.lastUsed
  · intro s hs
    rcases hmem s hs with h | h
    · rw [h]
      exact hcells
    · exact hm.cells s h
  · intro s hs
    have hrow : s.row ∈ (m.setCells row cells).rows.items.map Row.row := mem_map_of_mem hs
    rw [rows_setCells] at hrow
    obtain ⟨r, hr, heq⟩ := mem_map.mp hrow
    rw [← heq]
    exact hm.rowUlong r hr
  · intro s hs
    rcases hmem s hs with h | h
    · rw [h]
      exact hu
    · exact hm.colUlong s h

theorem Ordered.linked_setCells (hm : Ordered m) (hr : r ∈ m.rows.items)
    (h : cells.items = r.cells.items) : (m.setCells r.row cells).linked = m.linked := by
  unfold linked Matrix.setCells
  simp only [map_map]
  refine map_congr_left fun s hs => ?_
  simp only [Function.comp]
  by_cases hrow : s.row = r.row
  · rw [if_pos hrow, hm.eq_of_row hs hr hrow, h]
  · rw [if_neg hrow]

/-! ### Lookups -/

/-- **A row is found exactly when it is linked.** -/
theorem rowIdxGetUlong_spec (hm : Ordered m) (row : Nat) : ∃ m',
    m.rowIdxGetUlong row = .returns (decide (row ∈ m.rows.items.map Row.row), m') ∧
      Ordered m' ∧ m'.rows.items = m.rows.items := by
  obtain ⟨t, hget, ht, hitems⟩ := Track.idxGet_spec hm.rows row
  refine ⟨{ m with rows := t }, ?_, ⟨ht, ?_, ?_, ?_⟩, hitems⟩
  · simp only [rowIdxGetUlong, Track.idxGetUlong_eq hm.rows hm.rowUlong, hget]
    rfl
  · intro r hr
    exact hm.cells r (hitems ▸ hr)
  · intro r hr
    exact hm.rowUlong r (hitems ▸ hr)
  · intro r hr
    exact hm.colUlong r (hitems ▸ hr)

theorem rowCellIdxGetUlong_spec (hm : Ordered m) (hr : r ∈ m.rows.items) (col : Nat) : ∃ m',
    m.rowCellIdxGetUlong r.row col = .returns (decide (col ∈ r.cells.items.map Cell.col), m') ∧
      Ordered m' ∧ m'.linked = m.linked := by
  obtain ⟨t, hget, ht, hitems⟩ := Track.idxGet_spec (hm.cells r hr) col
  have hu : Track.Ulong Cell.col t := by
    intro c hc
    exact hm.colUlong r hr c (hitems ▸ hc)
  refine ⟨m.setCells r.row t, ?_, hm.setCells ht hu, hm.linked_setCells hr hitems⟩
  simp only [rowCellIdxGetUlong, hm.rowAt_eq hr, returns_bind,
    Track.idxGetUlong_eq (hm.cells r hr) (hm.colUlong r hr), hget]
  rfl

/-- **A cell is found exactly when it is linked**, and only `last_used` moves. -/
theorem cellIdxFindUlong_spec (hm : Ordered m) (row col : Nat) : ∃ found m',
    m.cellIdxFindUlong row col = .returns (found, m') ∧ (found = true ↔ Linked m row col) ∧
      Ordered m' ∧ m'.linked = m.linked := by
  obtain ⟨m1, hget, hm1, hitems⟩ := rowIdxGetUlong_spec hm row
  have hlinked : m1.linked = m.linked := by rw [linked, linked, hitems]
  by_cases hrow : row ∈ m.rows.items.map Row.row
  · obtain ⟨r, hr, rfl⟩ := mem_map.mp hrow
    obtain ⟨m2, hcell, hm2, hlinked2⟩ := rowCellIdxGetUlong_spec hm1 (hitems ▸ hr) col
    refine ⟨decide (col ∈ r.cells.items.map Cell.col), m2, ?_, ?_, hm2,
      hlinked2.trans hlinked⟩
    · simp only [cellIdxFindUlong, hget, hrow]
      exact hcell
    · rw [decide_eq_true_iff]
      constructor
      · intro hcol
        exact ⟨r, hr, rfl, hcol⟩
      · rintro ⟨s, hs, hsrow, hcol⟩
        rwa [← hm.eq_of_row hs hr hsrow]
  · refine ⟨false, m1, ?_, ?_, hm1, hlinked⟩
    · simp only [cellIdxFindUlong, hget, hrow]
      rfl
    · simp only [Bool.false_eq_true, false_iff]
      rintro ⟨s, hs, rfl, -⟩
      exact hrow (mem_map_of_mem hs)

/-! ### Insertions -/

/-- The item is new, and stands behind the smaller and before the larger ones. -/
def Between {β : Type} (key : β → Nat) (b : β) (old new : List β) : Prop :=
  ∃ front back, old = front ++ back ∧ new = front ++ b :: back ∧ (∀ c ∈ front, key c < key b) ∧
    ∀ c ∈ back, key b < key c

theorem Between.mem {β : Type} {key : β → Nat} {b c : β} {old new : List β}
    (h : Between key b old new) (hc : c ∈ new) : c = b ∨ c ∈ old := by
  obtain ⟨front, back, rfl, rfl, -, -⟩ := h
  simp only [mem_append, mem_cons] at hc ⊢
  tauto

theorem rowIdxAddUlong_spec (hm : Ordered m) (hlt : row < 2 ^ 64)
    (hnew : row ∉ m.rows.items.map Row.row) : ∃ m', m.rowIdxAddUlong row = .returns m' ∧
      Between Row.row ⟨row, Track.empty⟩ m.rows.items m'.rows.items ∧ Ordered m' := by
  obtain ⟨t, front, back, hadd, ht, hitems, hitems', hfront, hback⟩ :=
    Track.idxAdd_spec (b := (⟨row, Track.empty⟩ : Row α)) hm.rows hnew
  have hbetween : Between Row.row (⟨row, Track.empty⟩ : Row α) m.rows.items t.items :=
    ⟨front, back, hitems, hitems', hfront, hback⟩
  refine ⟨{ m with rows := t }, ?_, hbetween, ht, ?_, ?_, ?_⟩
  · simp only [rowIdxAddUlong, Track.idxAddUlong_eq hm.rows hm.rowUlong, hadd]
    rfl
  · intro s hs
    rcases hbetween.mem hs with rfl | hs
    · exact Track.valid_empty
    · exact hm.cells s hs
  · intro s hs
    rcases hbetween.mem hs with rfl | hs
    · exact hlt
    · exact hm.rowUlong s hs
  · intro s hs
    rcases hbetween.mem hs with rfl | hs
    · intro c hc
      simp [Track.empty] at hc
    · exact hm.colUlong s hs

theorem rowCellIdxAddUlong_spec (hm : Ordered m) (hr : r ∈ m.rows.items) (hlt : col < 2 ^ 64)
    (hnew : col ∉ r.cells.items.map Cell.col) (data : Option α) : ∃ cells,
      m.rowCellIdxAddUlong r.row col data = .returns (m.setCells r.row cells) ∧
      Between Cell.col ⟨col, data⟩ r.cells.items cells.items ∧
      Ordered (m.setCells r.row cells) := by
  obtain ⟨t, front, back, hadd, ht, hitems, hitems', hfront, hback⟩ :=
    Track.idxAdd_spec (b := (⟨col, data⟩ : Cell α)) (hm.cells r hr) hnew
  have hbetween : Between Cell.col (⟨col, data⟩ : Cell α) r.cells.items t.items :=
    ⟨front, back, hitems, hitems', hfront, hback⟩
  have hu : Track.Ulong Cell.col t := by
    intro c hc
    rcases hbetween.mem hc with rfl | hc
    · exact hlt
    · exact hm.colUlong r hr c hc
  refine ⟨t, ?_, hbetween, hm.setCells ht hu⟩
  simp only [rowCellIdxAddUlong, hm.rowAt_eq hr, returns_bind,
    Track.idxAddUlong_eq (hm.cells r hr) (hm.colUlong r hr), hadd]
  rfl

/--
**Lookups and insertions are exact**, wherever `last_used` points: a cell is found if and only if
it is linked, and a row or a cell with a new number goes between its neighbours, without an
assertion that fails.
-/
theorem search_exact (hm : Ordered m) :
    (∀ row col, ∃ found m', m.cellIdxFindUlong row col = .returns (found, m') ∧
      (found = true ↔ Linked m row col) ∧ Ordered m' ∧ m'.linked = m.linked) ∧
    (∀ row < 2 ^ 64, row ∉ m.rows.items.map Row.row → ∃ m',
      m.rowIdxAddUlong row = .returns m' ∧
        Between Row.row ⟨row, Track.empty⟩ m.rows.items m'.rows.items ∧ Ordered m') ∧
    ∀ r ∈ m.rows.items, ∀ col data, col < 2 ^ 64 → col ∉ r.cells.items.map Cell.col → ∃ cells,
      m.rowCellIdxAddUlong r.row col data = .returns (m.setCells r.row cells) ∧
        Between Cell.col ⟨col, data⟩ r.cells.items cells.items ∧
        Ordered (m.setCells r.row cells) :=
  ⟨cellIdxFindUlong_spec hm, fun _ hlt hnew => rowIdxAddUlong_spec hm hlt hnew,
    fun _ hr _ data hlt hnew => rowCellIdxAddUlong_spec hm hr hlt hnew data⟩

/-- Three rows, one with three cells; `last_used` is in the middle. -/
def spread : Matrix Nat where
  rows := ⟨[⟨3, Track.empty⟩, ⟨70, ⟨[⟨0, some 5⟩, ⟨8, none⟩, ⟨2 ^ 64 - 1, some 6⟩],
    some (2 ^ 64 - 1), some 8⟩⟩, ⟨900, Track.empty⟩], some 900, some 70⟩
  sizeRows := 1000
  sizeCols := 2 ^ 64 - 1

theorem ordered_spread : Ordered spread := by
  refine ⟨⟨by decide, rfl, ?_⟩, ?_, ?_, ?_⟩
  · decide
  · intro r hr
    simp only [spread, mem_cons, not_mem_nil, or_false] at hr
    rcases hr with rfl | rfl | rfl
    · exact Track.valid_empty
    · refine ⟨by decide, rfl, ?_⟩
      decide
    · exact Track.valid_empty
  · unfold Track.Ulong
    decide
  · unfold Track.Ulong
    decide

theorem search_exact_spread : ∃ found m',
    spread.cellIdxFindUlong 70 (2 ^ 63) = .returns (found, m') ∧
    (found = true ↔ Linked spread 70 (2 ^ 63)) ∧ Ordered m' ∧ m'.linked = spread.linked :=
  (search_exact ordered_spread).1 70 (2 ^ 63)

end Matrix

end Eina.Matrixsparse
