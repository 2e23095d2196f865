/-
A sparse matrix is a map.

A `Grid` is a size and what is stored at each place.  A matrix does as it says, whatever its
pointers to the rows and cells used last make of the searches.
-/
import Efl.Eina.Matrixsparse.Iterator

namespace Eina.Matrixsparse

open List Runs Track

variable {α : Type}

/-- A size, and what is stored at each place. -/
structure Grid (α : Type) where
  rows : Nat
  cols : Nat
  content : Matrix.Content α

namespace Grid

open Matrixsparse.Matrix

/-- What an operation on cells leaves. -/
def cellNext (g : Grid α) (op : CellOp α) : Grid α :=
  { g with content := op.next g.rows g.cols g.content }

/-- What an operation leaves. -/
def next (g : Grid α) : Op α → Grid α
  | .dataIdxSet row col data => g.cellNext (.dataIdxSet row col data)
  | .dataIdxReplace row col data => g.cellNext (.dataIdxSet row col data)
  | .cellIdxClear row col => g.cellNext (.cellIdxClear row col)
  | .rowIdxClear row => g.cellNext (.rowIdxClear row)
  | .columnIdxClear col => g.cellNext (.columnIdxClear col)
  | .sizeSet rows cols =>
    if rows = 0 ∨ cols = 0 then g
    else ⟨rows, cols, fun i j => if i < rows ∧ j < cols then g.content i j else none⟩
  | .cellIdxGet _ _ => g
  | .dataIdxGet _ _ => g

/-- What an operation returns. -/
def answer (g : Grid α) : Op α → Answer α
  | .dataIdxSet row col _ => .done (decide (row < g.rows ∧ col < g.cols))
  | .dataIdxReplace row col _ =>
    .replaced (decide (row < g.rows ∧ col < g.cols)) (g.content row col).join
  | .cellIdxClear row col => .done (decide (row < g.rows ∧ col < g.cols))
  | .rowIdxClear row => .done (decide (row < g.rows))
  | .columnIdxClear col => .done (decide (col < g.cols))
  | .sizeSet rows cols => .done (decide (0 < rows ∧ 0 < cols))
  | .cellIdxGet row col =>
    .cell (decide (row < g.rows ∧ col < g.cols)) (g.content row col).isSome
  | .dataIdxGet row col => .data (g.content row col).join

/-- What the operations of a run return. -/
def answers : Grid α → List (Op α) → List (Answer α)
  | _, [] => []
  | g, op :: ops => g.answer op :: (g.next op).answers ops

end Grid

namespace Matrix

/-- The matrix holds what the map says. -/
def Is (m : Matrix α) (g : Grid α) : Prop := Holds m g.rows g.cols g.content

variable {m m' : Matrix α} {g : Grid α} {row col rows cols : Nat} {b : Bool} {data : Option α}

/-! ### Looking up -/

/-- Nothing is stored outside of the size. -/
theorem Is.outside (h : m.Is g) (hout : ¬(row < g.rows ∧ col < g.cols)) :
    g.content row col = none := by
  rw [Option.eq_none_iff_forall_ne_some]
  intro d hd
  obtain ⟨r, hr, rfl, c, hc, rfl, -⟩ := (h.has row col d).mpr hd
  rw [← h.sizeRows, ← h.sizeCols] at hout
  exact hout ⟨h.valid.rowBound r hr, h.valid.colBound r hr c hc⟩

/-- A lookup says what is stored, and moves at most the pointers used last. -/
theorem Is.find (h : m.Is g) (row col : Nat) : ∃ m1,
    m.cellIdxFind row col = .returns ((g.content row col).isSome, m1) ∧ m1.Is g ∧
      ∀ d, g.content row col = some d → m1.cellData row col = .returns d := by
  obtain ⟨b, m1, hfind, hsame, hb⟩ := cellIdxFind_same h.valid row col
  have hbool : b = (g.content row col).isSome := by
    rw [Bool.eq_iff_iff, hb, Option.isSome_iff_exists]
    exact exists_congr fun d => h.has row col d
  have his : m1.Is g := ⟨hsame.valid, hsame.sizeRows.trans h.sizeRows,
    hsame.sizeCols.trans h.sizeCols, h.colsPos, fun i j d => (hsame.has i j d).trans (h.has i j d)⟩
  refine ⟨m1, by rw [hfind, hbool], his, fun d hd => ?_⟩
  exact cellData_eq his.valid ((his.has row col d).mpr hd)

/-! ### Storing and clearing -/

/-- Operations on cells do as the map says. -/
theorem Is.cell (h : m.Is g) (op : CellOp α) :
    ∃ m', Step m op.op m' (g.answer op.op) ∧ m'.Is (g.cellNext op) := by
  obtain ⟨m', answer, hstep, his⟩ := cellStep_holds h op
  suffices hanswer : answer = g.answer op.op from ⟨m', hanswer ▸ hstep, his⟩
  unfold CellStep Step at hstep
  cases op with
  | dataIdxSet row col data | cellIdxClear row col | rowIdxClear row | columnIdxClear col =>
    -- past its checks of the place, every call says true
    obtain ⟨⟨m1, b⟩, hcall, ⟨⟩⟩ := Outcome.bind_eq_returns.mp hstep
    simp only [CellOp.op, Grid.answer, ← h.sizeRows, ← h.sizeCols, dataIdxSet, cellIdxClear,
      rowIdxClear, columnIdxClear] at hcall ⊢
    repeat' (split at hcall <;> simp_all [Outcome.bind_eq_returns])
    all_goals grind

/-- Replacing stores as setting does, and says what was there. -/
theorem Is.replace (h : m.Is g) (hset : m.dataIdxSet row col data = .returns (m', b)) :
    m.dataIdxReplace row col data = .returns (m', b, (g.content row col).join) := by
  unfold dataIdxSet at hset
  unfold dataIdxReplace
  by_cases hin : row < g.rows ∧ col < g.cols
  · obtain ⟨m1, hfind, -, hdata⟩ := h.find row col
    have hrow : ¬¬row < m.sizeRows := not_not.mpr (h.sizeRows ▸ hin.1)
    have hcol : ¬¬col < m.sizeCols := not_not.mpr (h.sizeCols ▸ hin.2)
    rw [if_neg hrow, if_neg hcol, hfind, Outcome.returns_bind] at hset ⊢
    cases hcontent : g.content row col with
    | none =>
      rw [hcontent] at hset
      obtain ⟨m2, hadd, hreturn⟩ := Outcome.bind_eq_returns.mp hset
      cases hreturn
      simp only [Option.isSome_none, Bool.false_eq_true, if_false, hadd]
      rfl
    | some d =>
      rw [hcontent] at hset
      obtain ⟨m2, hstore, hreturn⟩ := Outcome.bind_eq_returns.mp hset
      cases hreturn
      simp only [Option.isSome_some, if_true, hdata d hcontent, Outcome.returns_bind, hstore]
      rfl
  · rw [h.outside hin]
    rw [← h.sizeRows, ← h.sizeCols, not_and_or] at hin
    rcases hin with hin | hin
    · simp_all
    · simp_all

/-! ### A new size -/

/-- What lies inside of the new size stays. -/
theorem Is.sizeSet (h : m.Is g) (hkeeps : SizeSetKeeps m rows cols) :
    ∃ m', m.sizeSet rows cols = .returns (m', decide (0 < rows ∧ 0 < cols)) ∧
      m'.Is (g.next (.sizeSet rows cols)) := by
  obtain ⟨m', b, hset⟩ := (sizeSet_returns_iff h.valid).mpr hkeeps
  have hvalid := sizeSet_valid h.valid hset
  unfold Grid.next
  dsimp only
  by_cases hpos : rows = 0 ∨ cols = 0
  · have hout : decide (0 < rows ∧ 0 < cols) = false := decide_eq_false (by omega)
    rw [if_pos hpos, hout]
    exact ⟨m, if_pos hpos, h⟩
  have hin : decide (0 < rows ∧ 0 < cols) = true := decide_eq_true (by omega)
  rw [if_neg hpos, hin]
  by_cases hsize : rows = m.sizeRows ∧ cols = m.sizeCols
  · refine ⟨m, by rw [Matrix.sizeSet, if_neg hpos, if_pos hsize], h.valid, hsize.1.symm,
      hsize.2.symm, by dsimp only; omega, fun i j d => ?_⟩
    rw [h.sizeRows, h.sizeCols] at hsize
    obtain ⟨rfl, rfl⟩ := hsize
    rw [h.has]
    dsimp only
    by_cases hij : i < g.rows ∧ j < g.cols
    · rw [if_pos hij]
    · rw [if_neg hij, h.outside hij]
  obtain ⟨t, hcall, hitems, hend, -, -⟩ := sizeSet_shrinks h.valid hpos hsize
  have hord : t.items.Pairwise fun a b => a.row < b.row := by
    rw [hitems]
    exact ordered_shrunk (h.valid.rows.ordered.filter _)
  rw [hcall] at hset
  obtain ⟨t', ht', hreturn⟩ := Outcome.bind_eq_returns.mp hset
  obtain ⟨rfl, rfl⟩ := Prod.mk.inj (Outcome.returns.inj hreturn)
  refine ⟨_, by rw [hcall, ht']; rfl, hvalid, rfl, rfl, by dsimp only; omega, fun i j d => ?_⟩
  simp only [Has, (repairLastUsed_valid hord hend ht').1, hitems]
  constructor
  · rintro ⟨s, hs, rfl, c, hc, rfl, rfl⟩
    obtain ⟨r, hr, hrow, hcells⟩ := mem_shrunk hs
    obtain ⟨hr, hlt⟩ := mem_filter.mp hr
    obtain ⟨hc, hless⟩ := ((shrinkCells_some (h.valid.cells r hr) hcells).2 c).mp hc
    rw [hrow, if_pos ⟨of_decide_eq_true hlt, hless⟩]
    exact (h.has _ _ _).mp ⟨r, hr, rfl, c, hc, rfl, rfl⟩
  · intro hcontent
    split at hcontent
    · rename_i hij
      obtain ⟨r, hr, rfl, c, hc, rfl, rfl⟩ := (h.has i j d).mpr hcontent
      cases hcells : shrinkCells cols r.cells with
      | none =>
        have := (shrinkCells_none (h.valid.cells r hr)).mp hcells c hc
        omega
      | some cells =>
        have hshrunk : shrinkRow cols r = some { r with cells := cells } := by
          rw [shrinkRow, hcells]
          rfl
        refine ⟨_, mem_filterMap.mpr ⟨r, mem_filter.mpr ⟨hr, decide_eq_true hij.1⟩, hshrunk⟩, rfl,
          c, ?_, rfl, rfl⟩
        exact ((shrinkCells_some (h.valid.cells r hr) hcells).2 c).mpr ⟨hc, hij.2⟩
    · cases hcontent

/-! ### Runs -/

/-- **One operation** returns what the map says, and leaves what it says. -/
theorem Is.step (h : m.Is g) (op : Op α) (hop : op.Keeps m) :
    ∃ m', Step m op m' (g.answer op) ∧ m'.Is (g.next op) := by
  unfold Step
  cases op with
  | dataIdxSet row col data => exact h.cell (.dataIdxSet row col data)
  | dataIdxReplace row col data =>
    obtain ⟨m', hstep, his⟩ := h.cell (.dataIdxSet row col data)
    obtain ⟨⟨m1, b⟩, hset, hreturn⟩ := Outcome.bind_eq_returns.mp hstep
    injection hreturn with hreturn
    obtain ⟨rfl, hb⟩ := Prod.mk.inj hreturn
    obtain rfl := Answer.done.inj hb
    exact ⟨m1, by rw [Matrix.step, h.replace hset]; rfl, his⟩
  | cellIdxClear row col => exact h.cell (.cellIdxClear row col)
  | rowIdxClear row => exact h.cell (.rowIdxClear row)
  | columnIdxClear col => exact h.cell (.columnIdxClear col)
  | sizeSet rows cols =>
    obtain ⟨m', hset, his⟩ := h.sizeSet hop
    exact ⟨m', by rw [Matrix.step, hset]; rfl, his⟩
  | cellIdxGet row col =>
    by_cases hin : row < g.rows ∧ col < g.cols
    · obtain ⟨m1, hfind, his, -⟩ := h.find row col
      refine ⟨m1, ?_, his⟩
      rw [Grid.answer, decide_eq_true hin]
      rw [← h.sizeRows, ← h.sizeCols] at hin
      simp only [Matrix.step, cellIdxGet, hin.1, hin.2, hfind]
      rfl
    · refine ⟨m, ?_, h⟩
      rw [Grid.answer, decide_eq_false hin, h.outside hin]
      rw [← h.sizeRows, ← h.sizeCols, not_and_or] at hin
      rcases hin with hin | hin
      · simp [Matrix.step, cellIdxGet, hin]
      · simp [Matrix.step, cellIdxGet, hin]
  | dataIdxGet row col =>
    obtain ⟨m1, hfind, his, hdata⟩ := h.find row col
    refine ⟨m1, ?_, his⟩
    simp only [Matrix.step, Grid.answer, dataIdxGet, hfind]
    cases hcontent : g.content row col with
    | none => rfl
    | some d =>
      simp only [Outcome.returns_bind, Option.isSome_some, if_true, hdata d hcontent]
      rfl

/--
**A matrix is a map**: every operation of a run whose new sizes meet their condition returns what
the map says, and what is stored in the end is what it says.
-/
theorem run_is {rows cols : Nat} {m : Matrix α} (hnew : new rows cols = some m)
    (ops : List (Op α)) (hok : EachStep Step (fun m op => Op.Keeps m op) m ops) :
    ∃ m', Traces Step m ops m' (Grid.answers ⟨rows, cols, fun _ _ => none⟩ ops) ∧
      m'.Is (ops.foldl Grid.next ⟨rows, cols, fun _ _ => none⟩) := by
  obtain ⟨hvalid, hnone⟩ := valid_new hnew
  have his : m.Is ⟨rows, cols, fun _ _ => none⟩ := by
    unfold new at hnew
    split at hnew
    · cases hnew
    obtain rfl := Option.some.inj hnew
    exact ⟨hvalid, rfl, rfl, by dsimp only; omega, fun i j d => by simp [hnone i j d]⟩
  clear hnew hvalid hnone
  generalize (⟨rows, cols, fun _ _ => none⟩ : Grid α) = g at his ⊢
  induction ops generalizing m g with
  | nil => exact ⟨m, ⟨rfl, rfl⟩, his⟩
  | cons op ops ih =>
    obtain ⟨m1, hstep, his1⟩ := his.step op (hok [] op ops m [] rfl ⟨rfl, rfl⟩)
    obtain ⟨m', hrun, hend⟩ := ih (fun before op' after b rs hops htraces =>
      hok (op :: before) op' after b (g.answer op :: rs) (by rw [hops]; rfl)
        ⟨m1, _, rs, hstep, rfl, htraces⟩) (g.next op) his1
    exact ⟨m', ⟨m1, _, _, hstep, rfl, hrun⟩, hend⟩

/-- Three cells are stored, two of them are outside of the new size, and the third one is replaced,
read, cleared and read again. -/
def storedAndShrunk : List (Op Nat) :=
  [.dataIdxSet 0 5 (some 1), .dataIdxSet 1 0 (some 2), .dataIdxSet 2 1 (some 3), .sizeSet 2 3,
    .dataIdxGet 2 1, .dataIdxReplace 1 0 (some 4), .dataIdxGet 1 0, .columnIdxClear 0,
    .dataIdxGet 1 0]

theorem run_is_storedAndShrunk : ∃ m', Traces Step (⟨Track.empty, 3, 6⟩ : Matrix Nat)
      storedAndShrunk m' [.done true, .done true, .done true, .done true, .data none,
        .replaced true (some 2), .data (some 4), .done true, .data none] ∧
    m'.Is (storedAndShrunk.foldl Grid.next ⟨3, 6, fun _ _ => none⟩) := by
  refine run_is (show new 3 6 = some (⟨Track.empty, 3, 6⟩ : Matrix Nat) from rfl) storedAndShrunk ?_
  refine eachStep_cons_of Step.unique trivial
    (show Step _ _ ⟨⟨[oneCellRow 0 5 1], some 0, some 0⟩, 3, 6⟩ (.done true) from rfl) ?_
  refine eachStep_cons_of Step.unique trivial
    (show Step _ _ ⟨⟨[oneCellRow 0 5 1, oneCellRow 1 0 2], some 1, some 1⟩, 3, 6⟩ (.done true)
      from rfl) ?_
  refine eachStep_cons_of Step.unique trivial
    (show Step _ _ ⟨⟨[oneCellRow 0 5 1, oneCellRow 1 0 2, oneCellRow 2 1 3], some 2, some 2⟩, 3, 6⟩
      (.done true) from rfl) ?_
  refine eachStep_cons (by unfold Op.Keeps; decide) fun _ _ _ => ?_
  refine eachStep_cons trivial fun _ _ _ => ?_
  refine eachStep_cons trivial fun _ _ _ => ?_
  refine eachStep_cons trivial fun _ _ _ => ?_
  refine eachStep_cons trivial fun _ _ _ => ?_
  exact eachStep_cons trivial fun _ _ _ => eachStep_nil

end Matrix

end Eina.Matrixsparse
