/-
The size of a sparse matrix, and the runs of all its operations.

`eina_matrixsparse_size_set` frees the rows and cells that are outside the new size.  It
moves `last_used` of the matrix away from a row that loses all its cells only when it had
moved it before, from a row behind the new end.  Else `last_used` keeps pointing to the freed
row, and the last repair reads its number when any row is left: `SizeSetKeeps` says when not.
-/
import Efl.Eina.Matrixsparse.Valid
import Efl.Lib.Runs

namespace Eina.Matrixsparse

open Track Runs List Option

variable {α : Type}

namespace Matrix

variable {m : Matrix α} {rows cols : Nat} {r : Row α} {cells : Track (Cell α)} {rs : List (Row α)}

/-! ### The cells of a row -/

/-- A row loses all its cells to a new number of columns. -/
def Emptied (cols : Nat) (r : Row α) : Prop :=
  ∀ c ∈ r.cells.items, cols ≤ c.col

instance (r : Row α) : Decidable (Emptied cols r) :=
  inferInstanceAs (Decidable (∀ c ∈ r.cells.items, cols ≤ c.col))

theorem shrinkCells_none (hcells : Track.Valid Cell.col cells) :
    shrinkCells cols cells = none ↔ ∀ c ∈ cells.items, cols ≤ c.col := by
  obtain ⟨hitems, -, -⟩ := truncate_spec hcells cols
  unfold shrinkCells
  dsimp only
  rw [hitems]
  constructor
  · intro h
    split at h
    · rename_i hnil
      intro c hc
      have := filter_eq_nil_iff.mp hnil c hc
      simpa using this
    · simp at h
  · intro h
    rw [if_pos]
    rw [filter_eq_nil_iff]
    intro c hc
    have := h c hc
    simp only [decide_eq_true_eq]
    omega

theorem shrinkCells_some (hcells : Track.Valid Cell.col cells) {cells' : Track (Cell α)}
    (h : shrinkCells cols cells = some cells') :
    Track.Valid Cell.col cells' ∧ ∀ c, c ∈ cells'.items ↔ c ∈ cells.items ∧ c.col < cols := by
  obtain ⟨hitems, hlast, hused⟩ := truncate_spec hcells cols
  have hord : (cells.truncate Cell.col cols).items.Pairwise fun a b => a.col < b.col := by
    rw [hitems]
    exact hcells.ordered.filter _
  have hend : (cells.truncate Cell.col cols).last =
      (cells.truncate Cell.col cols).items.getLast?.map Cell.col := by
    rw [hlast, hitems]
  have hmem (c : Cell α) : c ∈ (cells.truncate Cell.col cols).items ↔
      c ∈ cells.items ∧ c.col < cols := by
    rw [hitems]
    simp
  unfold shrinkCells at h
  dsimp only at h
  split at h
  · simp at h
  obtain rfl := some.inj h
  split
  · -- `last_used` was behind the new end and is now the last cell
    refine ⟨⟨hord, hend, ?_⟩, hmem⟩
    intro k hk
    rw [hend] at hk
    obtain ⟨c, hc, rfl⟩ := map_eq_some_iff.mp hk
    exact mem_map_of_mem (mem_of_getLast? hc)
  · rename_i hupdate
    refine ⟨⟨hord, hend, ?_⟩, hmem⟩
    intro k hk
    rw [hused] at hk
    rw [hk] at hupdate
    obtain ⟨c, hc, rfl⟩ := mem_map.mp (hcells.lastUsed k hk)
    simp only [any_some, decide_eq_true_eq] at hupdate
    exact mem_map_of_mem ((hmem c).mpr ⟨hc, by omega⟩)

/-! ### The rows -/

/-- What is left of a row. -/
def shrinkRow (cols : Nat) (r : Row α) : Option (Row α) :=
  (shrinkCells cols r.cells).map fun cells => { r with cells := cells }

theorem mem_shrunk {s : Row α} (hs : s ∈ rs.filterMap (shrinkRow cols)) :
    ∃ r ∈ rs, s.row = r.row ∧ shrinkCells cols r.cells = some s.cells := by
  obtain ⟨r, hr, hshrink⟩ := mem_filterMap.mp hs
  obtain ⟨cells, hcells, rfl⟩ := map_eq_some_iff.mp hshrink
  exact ⟨r, hr, rfl, hcells⟩

theorem ordered_shrunk (h : rs.Pairwise fun a b => a.row < b.row) :
    (rs.filterMap (shrinkRow cols)).Pairwise fun a b => a.row < b.row := by
  rw [pairwise_filterMap]
  refine h.imp ?_
  intro a b hab a' ha' b' hb'
  obtain ⟨-, -, rfl⟩ := map_eq_some_iff.mp ha'
  obtain ⟨-, -, rfl⟩ := map_eq_some_iff.mp hb'
  exact hab

theorem getLast?_append_cons (before rest : List (Row α)) (r : Row α) :
    (before ++ r :: rest).getLast?.map Row.row =
      if rest = [] then some r.row else (before ++ rest).getLast?.map Row.row := by
  rcases eq_nil_or_concat rest with rfl | ⟨front, s, rfl⟩
  · simp
  rw [if_neg (by simp)]
  rw [concat_eq_append, ← cons_append, ← append_assoc, ← append_assoc,
    getLast?_concat, getLast?_concat]

/--
The column loop.  The pointer to the last row stays right.  `last_used` is not touched unless
`update` is set; then it starts as the last row, and what it ends as is linked.
-/
theorem shrinkRows_spec (cols : Nat) (update : Bool) : ∀ (rest before : List (Row α))
    (last used : Option Nat), rest.Pairwise (fun a b => a.row < b.row) →
      last = (before ++ rest).getLast?.map Row.row →
      let t := shrinkRows cols update before last used rest
      t.items = before ++ rest.filterMap (shrinkRow cols) ∧
        t.last = t.items.getLast?.map Row.row ∧
        (update = false → t.lastUsed = used) ∧
        (update = true → (∀ k, used = some k → last = some k) →
          ∀ k, t.lastUsed = some k → t.last = some k) := by
  intro rest
  induction rest with
  | nil =>
    intro before last used _ hlast
    simp only [append_nil] at hlast
    refine ⟨by simp [shrinkRows], hlast, fun _ => rfl, fun _ h => h⟩
  | cons r rest ih =>
    intro before last used hord hlast
    rw [pairwise_cons] at hord
    rw [getLast?_append_cons] at hlast
    rw [shrinkRows]
    cases hcells : shrinkCells cols r.cells with
    | some cells =>
      have hrow : shrinkRow cols r = some { r with cells := cells } := by
        rw [shrinkRow, hcells]
        rfl
      have hlast' : last =
          (before ++ [{ r with cells := cells }] ++ rest).getLast?.map Row.row := by
        rw [append_assoc, singleton_append, getLast?_append_cons]
        exact hlast
      have hspec := ih (before ++ [{ r with cells := cells }]) last used hord.2 hlast'
      rw [filterMap_cons_some hrow]
      simpa using hspec
    | none =>
      have hrow : shrinkRow cols r = none := by
        rw [shrinkRow, hcells]
        rfl
      rw [filterMap_cons_none hrow]
      have hlast' : (if rest = [] then before.getLast?.map Row.row else last) =
          (before ++ rest).getLast?.map Row.row := by
        split
        · rename_i hnil
          rw [hnil, append_nil]
        · rename_i hnil
          rw [hlast, if_neg hnil]
      obtain ⟨hitems, hend, hkept, hmoved⟩ := ih before
        (if rest = [] then before.getLast?.map Row.row else last)
        (if update = true ∧ used = some r.row then rest.head?.map Row.row else used) hord.2 hlast'
      refine ⟨hitems, hend, ?_, ?_⟩
      · intro hupdate
        rw [hkept hupdate, if_neg (by simp [hupdate])]
      · intro hupdate hused k hk
        refine hmoved hupdate ?_ k hk
        intro k' hk'
        by_cases hr : used = some r.row
        · -- the row that goes is the last one, so nothing is behind it
          rw [if_pos ⟨hupdate, hr⟩] at hk'
          have hsame := hused _ hr
          rw [hlast] at hsame
          split at hsame
          · rename_i hnil
            rw [hnil] at hk'
            simp at hk'
          · rename_i hnil
            obtain ⟨s, hs, hsrow⟩ := map_eq_some_iff.mp hsame
            rw [getLast?_append_of_ne_nil _ hnil] at hs
            have := hord.1 s (mem_of_getLast? hs)
            omega
        · rw [if_neg (fun h => hr h.2)] at hk'
          have hsame := hused k' hk'
          split
          · rename_i hnil
            rw [hlast, if_pos hnil] at hsame
            exact absurd (hk'.trans hsame.symm) hr
          · exact hsame

theorem mem_row_shrunk (hrs : ∀ r ∈ rs, Track.Valid Cell.col r.cells) {k : Nat} :
    k ∈ (rs.filterMap (shrinkRow cols)).map Row.row ↔ ∃ r ∈ rs, r.row = k ∧ ¬Emptied cols r := by
  rw [List.mem_map]
  constructor
  · rintro ⟨s, hs, rfl⟩
    obtain ⟨r, hr, hrow, hcells⟩ := mem_shrunk hs
    refine ⟨r, hr, hrow.symm, ?_⟩
    intro hempty
    rw [(shrinkCells_none (hrs r hr)).mpr hempty] at hcells
    simp at hcells
  · rintro ⟨r, hr, rfl, hkeeps⟩
    cases hcells : shrinkCells cols r.cells with
    | none => exact absurd ((shrinkCells_none (hrs r hr)).mp hcells) hkeeps
    | some cells =>
      refine ⟨{ r with cells := cells }, mem_filterMap.mpr ⟨r, hr, ?_⟩, rfl⟩
      rw [shrinkRow, hcells]
      rfl

/-- The repair reads a freed row unless `last_used` is linked or no row is left. -/
theorem repairLastUsed_returns_iff {t : Track (Row α)}
    (hlast : t.last = t.items.getLast?.map Row.row) :
    (∃ t', repairLastUsed t = .returns t') ↔
      ∀ k, t.lastUsed = some k → k ∈ t.items.map Row.row ∨ t.items = [] := by
  unfold repairLastUsed
  cases hused : t.lastUsed with
  | none => simp
  | some used =>
    cases hend : t.last with
    | none =>
      have hnil : t.items = [] := by
        rw [hend] at hlast
        simpa using hlast.symm
      simp [hnil]
    | some last =>
      have hne : t.items ≠ [] := by
        rintro hnil
        rw [hend, hnil] at hlast
        simp at hlast
      dsimp only
      constructor
      · rintro ⟨t', ht'⟩ k hk
        obtain rfl := Option.some.inj hk
        split at ht'
        · cases ht'
        · rename_i hlinked
          exact .inl (not_not.mp hlinked)
      · intro h
        have hlinked := (h used rfl).resolve_right hne
        exact ⟨_, if_neg (not_not.mpr hlinked)⟩

/-- What the repair returns has the same rows, and its pointers are right. -/
theorem repairLastUsed_valid {t t' : Track (Row α)}
    (hord : t.items.Pairwise fun a b => a.row < b.row)
    (hlast : t.last = t.items.getLast?.map Row.row) (h : repairLastUsed t = .returns t') :
    t'.items = t.items ∧ Track.Valid Row.row t' := by
  unfold repairLastUsed at h
  have hend (last : Nat) (hsome : t.last = some last) : last ∈ t.items.map Row.row := by
    rw [hlast] at hsome
    obtain ⟨s, hs, rfl⟩ := map_eq_some_iff.mp hsome
    exact mem_map_of_mem (mem_of_getLast? hs)
  split at h
  · rename_i hused
    obtain rfl := Outcome.returns.inj h
    exact ⟨rfl, hord, hlast, by simp [hused]⟩
  rename_i used hused
  split at h
  · rename_i hnone
    obtain rfl := Outcome.returns.inj h
    exact ⟨rfl, hord, hlast, by simp [hnone]⟩
  rename_i last hsome
  split at h
  · cases h
  rename_i hlinked
  obtain rfl := Outcome.returns.inj h
  split
  · refine ⟨rfl, hord, hlast, fun k hk => hend k hk⟩
  · refine ⟨rfl, hord, hlast, fun k hk => ?_⟩
    obtain rfl := Option.some.inj (hused.symm.trans hk)
    exact not_not.mp hlinked

/-! ### The new size -/

/--
When a new size reads no freed row: `last_used` is not a row that is inside the new number of
rows and loses all its cells while another row inside of it, in front of it or behind it, keeps
one.
-/
def SizeSetKeeps (m : Matrix α) (rows cols : Nat) : Prop :=
  rows = 0 ∨ cols = 0 ∨ (rows = m.sizeRows ∧ cols = m.sizeCols) ∨
    ∀ r ∈ m.rows.items, m.rows.lastUsed = some r.row → r.row < rows → Emptied cols r →
      ∀ s ∈ m.rows.items, s.row < rows → Emptied cols s

instance : Decidable (SizeSetKeeps m rows cols) :=
  inferInstanceAs (Decidable (_ ∨ _ ∨ _ ∨ ∀ r ∈ m.rows.items, _ → _ → _ →
    ∀ s ∈ m.rows.items, s.row < rows → Emptied cols s))

/-- A call that changes the size leaves the shrunk rows, and makes the repair on them. -/
theorem sizeSet_shrinks (hm : Valid m) (hpos : ¬(rows = 0 ∨ cols = 0))
    (hsize : ¬(rows = m.sizeRows ∧ cols = m.sizeCols)) :
    ∃ t, m.sizeSet rows cols = (do
        let t ← repairLastUsed t
        return (⟨t, rows, cols⟩, true)) ∧
      t.items = (m.rows.items.filter fun r => decide (r.row < rows)).filterMap (shrinkRow cols) ∧
      t.last = t.items.getLast?.map Row.row ∧
      (∀ k, m.rows.lastUsed = some k → k < rows → t.lastUsed = some k) ∧
      ((∀ k, m.rows.lastUsed = some k → rows ≤ k) →
        ∀ k, t.lastUsed = some k → k ∈ t.items.map Row.row) := by
  obtain ⟨hitems, hlast, hused⟩ := truncate_spec hm.rows rows
  have hord : (m.rows.truncate Row.row rows).items.Pairwise fun a b => a.row < b.row := by
    rw [hitems]
    exact hm.rows.ordered.filter _
  unfold sizeSet
  rw [if_neg hpos, if_neg hsize]
  dsimp only
  generalize hupdate : (m.rows.lastUsed.any fun used => decide (rows ≤ used)) = update
  generalize huse : (if update = true then (m.rows.truncate Row.row rows).last
    else (m.rows.truncate Row.row rows).lastUsed) = use
  obtain ⟨hleft, hend, hkept, hmoved⟩ := shrinkRows_spec cols update
    (m.rows.truncate Row.row rows).items [] (m.rows.truncate Row.row rows).last use hord
    (by rw [nil_append, hlast, hitems])
  generalize shrinkRows cols update [] (m.rows.truncate Row.row rows).last use
    (m.rows.truncate Row.row rows).items = t at hleft hend hkept hmoved ⊢
  refine ⟨t, rfl, by rw [hleft, nil_append, hitems], hend, ?_, ?_⟩
  · intro k hk hlt
    have hfalse : update = false := by
      rw [← hupdate, hk]
      simpa using hlt
    rw [hkept hfalse, ← huse, if_neg (by simp [hfalse]), hused, hk]
  · intro hgone k hk
    cases update with
    | true =>
      -- the row used last goes, and the last row takes its place
      have hk' := hmoved rfl (fun k hk => by rw [← huse] at hk; exact hk) k hk
      rw [hend] at hk'
      obtain ⟨s, hs, rfl⟩ := map_eq_some_iff.mp hk'
      exact mem_map_of_mem (mem_of_getLast? hs)
    | false =>
      -- no row has been used last
      rw [hkept rfl, ← huse, if_neg (by simp), hused] at hk
      rw [hk] at hupdate
      have := hgone k hk
      simp only [any_some, decide_eq_false_iff_not] at hupdate
      omega

/-- **A new size reads no freed row exactly under this condition.** -/
theorem sizeSet_returns_iff (hm : Valid m) :
    (∃ m' b, m.sizeSet rows cols = .returns (m', b)) ↔ SizeSetKeeps m rows cols := by
  unfold SizeSetKeeps
  by_cases hpos : rows = 0 ∨ cols = 0
  · exact ⟨fun _ => by tauto, fun _ => ⟨m, false, if_pos hpos⟩⟩
  by_cases hsize : rows = m.sizeRows ∧ cols = m.sizeCols
  · exact ⟨fun _ => .inr (.inr (.inl hsize)), fun _ => ⟨m, true, by
      rw [sizeSet, if_neg hpos, if_pos hsize]⟩⟩
  obtain ⟨t, hcall, hitems, hend, hkept, hgone⟩ := sizeSet_shrinks hm hpos hsize
  have hin (r : Row α) : r ∈ m.rows.items.filter (fun r => decide (r.row < rows)) ↔
      r ∈ m.rows.items ∧ r.row < rows := by
    simp
  have hcells (r : Row α) (hr : r ∈ m.rows.items.filter fun r => decide (r.row < rows)) :
      Track.Valid Cell.col r.cells := hm.cells r ((hin r).mp hr).1
  have hlinked (k : Nat) : k ∈ t.items.map Row.row ↔
      ∃ r, (r ∈ m.rows.items ∧ r.row < rows) ∧ r.row = k ∧ ¬Emptied cols r := by
    rw [hitems, mem_row_shrunk hcells]
    simp only [hin]
  have hreturns : (∃ m' b, m.sizeSet rows cols = .returns (m', b)) ↔
      ∃ t', repairLastUsed t = .returns t' := by
    rw [hcall]
    constructor
    · rintro ⟨m', b, h⟩
      obtain ⟨t', ht', -⟩ := Outcome.bind_eq_returns.mp h
      exact ⟨t', ht'⟩
    · rintro ⟨t', ht'⟩
      rw [ht']
      exact ⟨_, _, rfl⟩
  rw [hreturns, repairLastUsed_returns_iff hend]
  constructor
  · intro h
    right
    right
    right
    intro r hr hr' hlt hempty s hs hslt
    by_contra hskeeps
    have hmem : s.row ∈ t.items.map Row.row := (hlinked _).mpr ⟨s, ⟨hs, hslt⟩, rfl, hskeeps⟩
    rcases h r.row (hkept _ hr' hlt) with hrow | hnil
    · obtain ⟨r', ⟨hr'', -⟩, hrow, hnot⟩ := (hlinked _).mp hrow
      rw [eq_of_row hm hr'' hr hrow] at hnot
      exact hnot hempty
    · rw [hnil] at hmem
      exact not_mem_nil hmem
  · intro h k hk
    have h' := ((h.resolve_left fun hz => hpos (.inl hz)).resolve_left
      fun hz => hpos (.inr hz)).resolve_left hsize
    by_cases hall : ∀ k, m.rows.lastUsed = some k → rows ≤ k
    · exact .inl (hgone hall k hk)
    push Not at hall
    obtain ⟨used, hused, hlt⟩ := hall
    obtain rfl := Option.some.inj ((hkept used hused hlt).symm.trans hk)
    obtain ⟨r, hr, rfl⟩ := mem_map.mp (hm.rows.lastUsed used hused)
    by_cases hempty : Emptied cols r
    · right
      rw [eq_nil_iff_forall_not_mem]
      intro s hs
      obtain ⟨s', ⟨hs', hslt⟩, -, hnot⟩ := (hlinked _).mp (mem_map_of_mem hs)
      exact hnot (h' r hr hused hlt hempty s' hs' hslt)
    · exact .inl ((hlinked _).mpr ⟨r, ⟨hr, hlt⟩, rfl, hempty⟩)

/-- A call that returns leaves a valid matrix. -/
theorem sizeSet_valid (hm : Valid m) {m' : Matrix α} {b : Bool}
    (h : m.sizeSet rows cols = .returns (m', b)) : Valid m' := by
  by_cases hpos : rows = 0 ∨ cols = 0
  · rw [sizeSet, if_pos hpos] at h
    obtain ⟨rfl, -⟩ := Prod.mk.inj (Outcome.returns.inj h)
    exact hm
  by_cases hsize : rows = m.sizeRows ∧ cols = m.sizeCols
  · rw [sizeSet, if_neg hpos, if_pos hsize] at h
    obtain ⟨rfl, -⟩ := Prod.mk.inj (Outcome.returns.inj h)
    exact hm
  obtain ⟨t, hcall, hitems, hend, -, -⟩ := sizeSet_shrinks hm hpos hsize
  rw [hcall] at h
  obtain ⟨t', ht', h⟩ := Outcome.bind_eq_returns.mp h
  obtain ⟨rfl, -⟩ := Prod.mk.inj (Outcome.returns.inj h)
  have hord : t.items.Pairwise fun a b => a.row < b.row := by
    rw [hitems]
    exact ordered_shrunk (hm.rows.ordered.filter _)
  obtain ⟨hsame, hvalid⟩ := repairLastUsed_valid hord hend ht'
  refine ⟨hvalid, ?_, ?_, ?_⟩
  all_goals
    intro s hs
    rw [hsame, hitems] at hs
    obtain ⟨r, hr, hrow, hsome⟩ := mem_shrunk hs
    obtain ⟨hr, hlt⟩ := mem_filter.mp hr
    have hrcells := hm.cells r hr
  · exact (shrinkCells_some hrcells hsome).1
  · change s.row < rows
    rw [hrow]
    exact of_decide_eq_true hlt
  · intro c hc
    exact (((shrinkCells_some hrcells hsome).2 c).mp hc).2

/-! ### Runs -/

/-- The operations of a run. -/
inductive Op (α : Type) where
  | dataIdxSet (row col : Nat) (data : Option α)
  | dataIdxReplace (row col : Nat) (data : Option α)
  | cellIdxClear (row col : Nat)
  | rowIdxClear (row : Nat)
  | columnIdxClear (col : Nat)
  | sizeSet (rows cols : Nat)
  | cellIdxGet (row col : Nat)
  | dataIdxGet (row col : Nat)

/-- What the operations return. -/
inductive Answer (α : Type) where
  | done (ok : Bool)
  | replaced (ok : Bool) (old : Option α)
  | cell (ok found : Bool)
  | data (data : Option α)

def step (m : Matrix α) : Op α → Outcome (Matrix α × Answer α)
  | .dataIdxSet row col data => do
    let (m, ok) ← m.dataIdxSet row col data
    return (m, .done ok)
  | .dataIdxReplace row col data => do
    let (m, ok, old) ← m.dataIdxReplace row col data
    return (m, .replaced ok old)
  | .cellIdxClear row col => do
    let (m, ok) ← m.cellIdxClear row col
    return (m, .done ok)
  | .rowIdxClear row => do
    let (m, ok) ← m.rowIdxClear row
    return (m, .done ok)
  | .columnIdxClear col => do
    let (m, ok) ← m.columnIdxClear col
    return (m, .done ok)
  | .sizeSet rows cols => do
    let (m, ok) ← m.sizeSet rows cols
    return (m, .done ok)
  | .cellIdxGet row col => do
    let (m, ok, found) ← m.cellIdxGet row col
    return (m, .cell ok found)
  | .dataIdxGet row col => do
    let (m, data) ← m.dataIdxGet row col
    return (m, .data data)

def Step (m : Matrix α) (op : Op α) (m' : Matrix α) (answer : Answer α) : Prop :=
  m.step op = .returns (m', answer)

/-- Only a new size has a condition. -/
def Op.Keeps (m : Matrix α) : Op α → Prop
  | .sizeSet rows cols => SizeSetKeeps m rows cols
  | _ => True

theorem step_valid (hm : Valid m) (op : Op α) (hop : op.Keeps m) :
    ∃ m' answer, Step m op m' answer ∧ Valid m' := by
  unfold Step
  cases op with
  | dataIdxSet row col data =>
    obtain ⟨m', b, hset, ⟨-, rfl, -⟩ | ⟨-, hstores, -⟩⟩ := dataIdxSet_stores hm row col data
    · exact ⟨m', .done b, by rw [step, hset]; rfl, hm⟩
    · exact ⟨m', .done b, by rw [step, hset]; rfl, hstores.valid⟩
  | dataIdxReplace row col data =>
    obtain ⟨m', b, old, hset, hvalid⟩ := dataIdxReplace_valid hm row col data
    exact ⟨m', .replaced b old, by rw [step, hset]; rfl, hvalid⟩
  | cellIdxClear row col =>
    obtain ⟨m', b, hclear, hclears⟩ := cellIdxClear_clears hm row col
    exact ⟨m', .done b, by rw [step, hclear]; rfl, hclears.valid⟩
  | rowIdxClear row =>
    obtain ⟨m', b, hclear, hclears, -⟩ := rowIdxClear_clears hm row
    exact ⟨m', .done b, by rw [step, hclear]; rfl, hclears.valid⟩
  | columnIdxClear col =>
    obtain ⟨m', b, hclear, hclears, -⟩ := columnIdxClear_clears hm col
    exact ⟨m', .done b, by rw [step, hclear]; rfl, hclears.valid⟩
  | sizeSet rows cols =>
    obtain ⟨m', b, hset⟩ := (sizeSet_returns_iff hm).mpr hop
    exact ⟨m', .done b, by rw [step, hset]; rfl, sizeSet_valid hm hset⟩
  | cellIdxGet row col =>
    obtain ⟨m', b, found, hget, hvalid⟩ := cellIdxGet_valid hm row col
    exact ⟨m', .cell b found, by rw [step, hget]; rfl, hvalid⟩
  | dataIdxGet row col =>
    obtain ⟨m', d, hget, hvalid⟩ := dataIdxGet_valid hm row col
    exact ⟨m', .data d, by rw [step, hget]; rfl, hvalid⟩

theorem Step.unique (m : Matrix α) (op : Op α) (m' : Matrix α) (x : Answer α) (m'' : Matrix α)
    (y : Answer α) (h : Step m op m' x) (h' : Step m op m'' y) : m' = m'' ∧ x = y :=
  Prod.mk.inj (Outcome.returns.inj (h.symm.trans h'))

theorem step_returns_iff (hm : Valid m) (op : Op α) :
    (∃ m' answer, Step m op m' answer) ↔ op.Keeps m := by
  constructor
  · rintro ⟨m', answer, hstep⟩
    cases op with
    | sizeSet rows cols =>
      obtain ⟨⟨m1, b⟩, hset, -⟩ := Outcome.bind_eq_returns.mp hstep
      exact (sizeSet_returns_iff hm).mp ⟨m1, b, hset⟩
    | _ => trivial
  · intro hop
    obtain ⟨m', answer, hstep, -⟩ := step_valid hm op hop
    exact ⟨m', answer, hstep⟩

theorem Step.valid (hm : Valid m) {op : Op α} {m' : Matrix α} {answer : Answer α}
    (h : Step m op m' answer) : Valid m' := by
  obtain ⟨m'', answer', hstep, hvalid⟩ :=
    step_valid hm op ((step_returns_iff hm op).mp ⟨m', answer, h⟩)
  rw [(Step.unique m op m' answer m'' answer' h hstep).1]
  exact hvalid

/--
**When the pointers stay valid**: the operations of a run all return, with no freed row or cell
read and no assertion failed, and leave a valid matrix, exactly if every new size of the run meets
its condition in the state it is set in.
-/
theorem run_valid {rows cols : Nat} {m : Matrix α} (hnew : new rows cols = some m)
    (ops : List (Op α)) :
    (∃ m' answers, Traces Step m ops m' answers ∧ Valid m') ↔
      EachStep Step (fun m op => Op.Keeps m op) m ops :=
  exists_traces_iff Step.unique (fun _ op hm => step_returns_iff hm op)
    (fun _ _ _ _ hm h => Step.valid hm h) ops m (valid_new hnew).1

/-! ### Runs of small matrices -/

def twoBySix : Matrix Nat := ⟨Track.empty, 2, 6⟩

/-- The content of a row with one cell. -/
def oneCellRow (row col data : Nat) : Row Nat := ⟨row, ⟨[⟨col, some data⟩], some col, some col⟩⟩

/-- Three rows are stored, the number of rows and columns shrinks, a cell is stored in a row that
has been freed, and the number of columns shrinks again. -/
theorem run_valid_shrinks : ∃ m answers, Traces Step ⟨Track.empty, 3, 6⟩
    [.dataIdxSet 0 5 (some 1), .dataIdxSet 1 0 (some 2), .dataIdxSet 2 1 (some 3), .sizeSet 2 3,
      .dataIdxSet 0 1 (some 4), .sizeSet 2 2] m answers ∧ Valid m := by
  refine (run_valid (show new 3 6 = some (⟨Track.empty, 3, 6⟩ : Matrix Nat) from rfl) _).mpr ?_
  refine eachStep_cons_of Step.unique trivial
    (show Step _ _ ⟨⟨[oneCellRow 0 5 1], some 0, some 0⟩, 3, 6⟩ (.done true) from rfl) ?_
  refine eachStep_cons_of Step.unique trivial
    (show Step _ _ ⟨⟨[oneCellRow 0 5 1, oneCellRow 1 0 2], some 1, some 1⟩, 3, 6⟩ (.done true)
      from rfl) ?_
  refine eachStep_cons_of Step.unique trivial
    (show Step _ _ ⟨⟨[oneCellRow 0 5 1, oneCellRow 1 0 2, oneCellRow 2 1 3], some 2, some 2⟩, 3, 6⟩
      (.done true) from rfl) ?_
  -- the row used last is behind the new number of rows
  refine eachStep_cons_of Step.unique (by unfold Op.Keeps; decide)
    (show Step _ _ ⟨⟨[oneCellRow 1 0 2], some 1, some 1⟩, 2, 3⟩ (.done true) from rfl) ?_
  refine eachStep_cons_of Step.unique trivial
    (show Step _ _ ⟨⟨[oneCellRow 0 1 4, oneCellRow 1 0 2], some 1, some 0⟩, 2, 3⟩ (.done true)
      from rfl) ?_
  -- the row used last keeps its cell
  exact eachStep_cons (by unfold Op.Keeps; decide) fun _ _ _ => eachStep_nil

/-- Row 0 is used last and goes away while row 1 stays: behind the column loop `last_used` points to
a freed row, and the repair reads its number. -/
theorem sizeSet_reads_freed : ∃ m answers, new 2 6 = some twoBySix ∧ Traces Step twoBySix
    [.dataIdxSet 1 0 (some 2), .dataIdxSet 0 5 (some 1)] m answers ∧
      shrinkRows 3 false [] m.rows.last m.rows.lastUsed m.rows.items =
        ⟨[oneCellRow 1 0 2], some 1, some 0⟩ ∧
      m.sizeSet 2 3 = .undefined :=
  ⟨⟨⟨[oneCellRow 0 5 1, oneCellRow 1 0 2], some 1, some 0⟩, 2, 6⟩, [.done true, .done true], rfl,
    ⟨⟨⟨[oneCellRow 1 0 2], some 1, some 1⟩, 2, 6⟩, _, _, rfl, rfl, _, _, _, rfl, rfl, rfl, rfl⟩,
    rfl, rfl⟩

end Matrix

end Eina.Matrixsparse
