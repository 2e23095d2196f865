/-
`Eina_Tile_Grid_Slicer`: the pieces of an area in the tiles of a grid.

A slicer goes through the tiles row by row.  Its record `info` tells the tile it is at and the piece
in this tile; the pieces of the first and the last column and row are computed beforehand.  `int`s
wrap around, and a tile is told by numbers without bound.
-/
import Efl.Lib.Partition
import Efl.Eina.Rectangle.Basic

namespace Eina

open Cover Int

/-- `Eina_Tile_Grid_Info` -/
structure TileGridInfo where
  col : Nat
  row : Nat
  rect : Rectangle
  full : Bool
  deriving DecidableEq

/-- `Eina_Tile_Grid_Slicer` -/
structure TileGridSlicer where
  col1 : Nat
  col2 : Nat
  row1 : Nat
  row2 : Nat
  tileW : Int
  tileH : Int
  xRel : Int
  yRel : Int
  w1Rel : Int
  h1Rel : Int
  w2Rel : Int
  h2Rel : Int
  info : TileGridInfo
  first : Bool
  deriving DecidableEq

namespace TileGridSlicer

/-- What an `int` holds after `n` was assigned to it. -/
def int (n : Int) : Int := Int.bmod n 4294967296

/-- `full` tells whether the piece is a whole tile. -/
def withFull (slc : TileGridSlicer) : TileGridSlicer :=
  { slc with
    info.full := decide (slc.info.rect.w = slc.tileW ∧ slc.info.rect.h = slc.tileH) }

/-- `eina_tile_grid_slicer_next`; where it succeeds, `rect` points to `info`. -/
def next (slc : TileGridSlicer) : TileGridSlicer × Bool :=
  if slc.first then ({ slc with first := false }, true)
  else
    let slc := { slc with info.col := slc.info.col + 1 }
    if slc.col2 < slc.info.col then
      let slc := { slc with info.row := slc.info.row + 1 }
      if slc.row2 < slc.info.row then (slc, false)
      else
        let slc :=
          { slc with info.rect.h := if slc.info.row < slc.row2 then slc.tileH else slc.h2Rel }
        (withFull
          { slc with
            info.rect.y := 0
            info.col := slc.col1
            info.rect.x := slc.xRel
            info.rect.w := slc.w1Rel }, true)
    else
      (withFull
        { slc with
          info.rect.x := 0
          info.rect.w := if slc.info.col < slc.col2 then slc.tileW else slc.w2Rel }, true)

/-- `eina_tile_grid_slicer_setup`; `slc` is what was in the memory. -/
def setup (slc : TileGridSlicer) (x y w h tileW tileH : Int) : TileGridSlicer :=
  let tx2 := int (int (x + w) - 1)
  let ty2 := int (int (y + h) - 1)
  if x < 0 ∨ y < 0 ∨ w ≤ 0 ∨ h ≤ 0 ∨ tileW ≤ 0 ∨ tileH ≤ 0 then
    { slc with
      first := false
      col1 := 0
      row1 := 0
      col2 := 0
      row2 := 0
      info.col := 0
      info.row := 0 }
  else
    let col1 := (x.tdiv tileW).toNat
    let row1 := (y.tdiv tileH).toNat
    let col2 := (tx2.tdiv tileW).toNat
    let row2 := (ty2.tdiv tileH).toNat
    let xRel := x.tmod tileW
    let yRel := y.tmod tileH
    let w2Rel := tx2.tmod tileW + 1
    let h2Rel := ty2.tmod tileH + 1
    let w1Rel := if col1 = col2 then w2Rel - xRel else tileW - xRel
    let h1Rel := if row1 = row2 then h2Rel - yRel else tileH - yRel
    withFull ⟨col1, col2, row1, row2, tileW, tileH, xRel, yRel, w1Rel, h1Rel, w2Rel, h2Rel,
      ⟨col1, row1, ⟨xRel, yRel, w1Rel, h1Rel⟩, slc.info.full⟩, true⟩

/-- What the calls of `eina_tile_grid_slicer_next` give until one fails, where that is one of the
next `calls`. -/
def pieces : Nat → TileGridSlicer → Option (List TileGridInfo)
  | 0, _ => none
  | calls + 1, slc =>
    match slc.next with
    | (slc, true) => (pieces calls slc).map (slc.info :: ·)
    | (_, false) => some []

end TileGridSlicer

/-- The piece in the coordinates of the area. -/
def TileGridInfo.place (tileW tileH : Int) (info : TileGridInfo) : Rectangle :=
  { info.rect with
    x := info.col * tileW + info.rect.x
    y := info.row * tileH + info.rect.y }

namespace TileGridSlicer

/-! ### One axis -/

/-- The part of `[start, start + length)` in the tile with number `i`, relative to the tile. -/
def part (start length tile : Int) (i : Nat) : Int × Int :=
  (max start (i * tile) - i * tile,
    min (start + length) (i * tile + tile) - max start (i * tile))

/-- What a slicer keeps for one axis. -/
structure Axis (start length tile : Int) (first last : Nat) (rel len1 len2 : Int) : Prop where
  pos : 0 ≤ start ∧ 0 < length ∧ 0 < tile
  begins : start = first * tile + rel
  ends : start + length - 1 = last * tile + (len2 - 1)
  offset : 0 ≤ rel ∧ rel < tile
  lastLength : 0 < len2 ∧ len2 ≤ tile
  firstLength : len1 = if first = last then len2 - rel else tile - rel

section Axis

variable {start length tile : Int} {first last : Nat} {rel len1 len2 : Int} {i : Nat} {p : Int}

theorem mul_le_of_le {i j : Nat} (htile : 0 < tile) (hij : i ≤ j) :
    (i : Int) * tile ≤ j * tile :=
  Int.mul_le_mul_of_nonneg_right (ofNat_le.mpr hij) (le_of_lt htile)

theorem mul_le_of_lt {i j : Nat} (htile : 0 < tile) (hij : i < j) :
    (i : Int) * tile + tile ≤ j * tile := by
  have hle := mul_le_of_le htile (Nat.succ_le_of_lt hij)
  have hsucc : ((i.succ : Nat) : Int) * tile = i * tile + tile := by
    rw [natCast_succ, Int.add_mul, Int.one_mul]
  omega

theorem Axis.first_le_last (h : Axis start length tile first last rel len1 len2) :
    first ≤ last := by
  obtain ⟨hpos, hfirst, hlast, hrel, hlen2, -⟩ := h
  by_contra hlt
  have hmul := mul_le_of_lt hpos.2.2 (Nat.lt_of_not_le hlt)
  omega

/-- **The parts of one axis**: the first, the last and those in between. -/
theorem Axis.part_eq (h : Axis start length tile first last rel len1 len2) (hfirst : first ≤ i)
    (hlast : i ≤ last) : part start length tile i =
      (if i = first then rel else 0,
        if i = first then len1 else if i < last then tile else len2) := by
  obtain ⟨hpos, hstart, hend, hrel, hlen2, hlen1⟩ := h
  have hlow := mul_le_of_le hpos.2.2 hfirst
  have hhigh := mul_le_of_le hpos.2.2 hlast
  unfold part
  by_cases hi : i = first
  · rw [if_pos hi, if_pos hi, hlen1]
    by_cases hone : first = last
    · rw [if_pos hone, hi]
      rw [← hone] at hend
      simp only [Prod.mk.injEq]
      omega
    · have hmore := mul_le_of_lt hpos.2.2 (show i < last by omega)
      rw [if_neg hone, hi]
      rw [hi] at hmore
      simp only [Prod.mk.injEq]
      omega
  · have hless := mul_le_of_lt hpos.2.2 (show first < i by omega)
    rw [if_neg hi]
    by_cases hmore : i < last
    · have hmul := mul_le_of_lt hpos.2.2 hmore
      rw [if_pos hmore]
      simp only [Prod.mk.injEq]
      omega
    · obtain rfl : i = last := by omega
      rw [if_neg hmore]
      simp only [Prod.mk.injEq]
      omega

theorem Axis.part_pos (h : Axis start length tile first last rel len1 len2) (hfirst : first ≤ i)
    (hlast : i ≤ last) : 0 ≤ (part start length tile i).1 ∧ 0 < (part start length tile i).2 ∧
      (part start length tile i).1 + (part start length tile i).2 ≤ tile := by
  obtain ⟨hpos, hstart, hend, hrel, hlen2, -⟩ := h
  have hlow := mul_le_of_le hpos.2.2 hfirst
  have hhigh := mul_le_of_le hpos.2.2 hlast
  unfold part
  dsimp only
  omega

theorem mem_part (start length : Int) (htile : 0 < tile) :
    (i * tile + (part start length tile i).1 ≤ p ∧
      p < i * tile + (part start length tile i).1 + (part start length tile i).2) ↔
      start ≤ p ∧ p < start + length ∧ (i : Int) = p / tile := by
  have hdiv : (i : Int) = p / tile ↔ i * tile ≤ p ∧ p < i * tile + tile := by
    rw [eq_comm, ediv_eq_iff_of_pos htile]
  rw [hdiv]
  unfold part
  dsimp only
  omega

theorem Axis.tile_mem (h : Axis start length tile first last rel len1 len2)
    (hp : start ≤ p ∧ p < start + length) :
    ∃ i : Nat, first ≤ i ∧ i ≤ last ∧ (i : Int) = p / tile := by
  obtain ⟨hpos, hstart, hend, hrel, hlen2, -⟩ := h
  have hnonneg : 0 ≤ p / tile := ediv_nonneg (by omega) (by omega)
  obtain ⟨i, hi⟩ := eq_ofNat_of_zero_le hnonneg
  have hdiv : i * tile ≤ p ∧ p < i * tile + tile := by
    rw [← ediv_eq_iff_of_pos hpos.2.2]
    exact hi
  refine ⟨i, ?_, ?_, hi.symm⟩
  · by_contra hlt
    have hmul := mul_le_of_lt hpos.2.2 (Nat.lt_of_not_le hlt)
    omega
  · by_contra hlt
    have hmul := mul_le_of_lt hpos.2.2 (Nat.lt_of_not_le hlt)
    omega

end Axis

/-! ### The walk through the tiles -/

/-- The piece of an area in a tile. -/
def pieceAt (x y w h tileW tileH : Int) (c r : Nat) : TileGridInfo where
  col := c
  row := r
  rect := ⟨(part x w tileW c).1, (part y h tileH r).1, (part x w tileW c).2, (part y h tileH r).2⟩
  full := decide ((part x w tileW c).2 = tileW ∧ (part y h tileH r).2 = tileH)

/-- The slicer was set up for an area. -/
structure Slices (slc : TileGridSlicer) (x y w h : Int) : Prop where
  cols : Axis x w slc.tileW slc.col1 slc.col2 slc.xRel slc.w1Rel slc.w2Rel
  rows : Axis y h slc.tileH slc.row1 slc.row2 slc.yRel slc.h1Rel slc.h2Rel

/-- The slicer at a tile. -/
def atTile (slc : TileGridSlicer) (x y w h : Int) (c r : Nat) : TileGridSlicer :=
  { slc with info := pieceAt x y w h slc.tileW slc.tileH c r, first := false }

section Walk

variable {slc : TileGridSlicer} {x y w h : Int} (hs : slc.Slices x y w h) {c r : Nat}
  {info : TileGridInfo}

include hs

theorem next_col (hfirst : slc.col1 ≤ c) (hlast : c < slc.col2) :
    (slc.atTile x y w h c r).next = (slc.atTile x y w h (c + 1) r, true) := by
  have hpart := hs.cols.part_eq (by omega) hlast
  rw [if_neg (by omega), if_neg (by omega)] at hpart
  unfold next atTile pieceAt withFull
  dsimp only
  rw [if_neg Bool.false_ne_true, if_neg (not_lt.mpr hlast), hpart]

theorem next_row (hfirst : slc.row1 ≤ r) (hlast : r < slc.row2) :
    (slc.atTile x y w h slc.col2 r).next = (slc.atTile x y w h slc.col1 (r + 1), true) := by
  have hcols := hs.cols.part_eq (le_refl slc.col1) hs.cols.first_le_last
  have hrows := hs.rows.part_eq (by omega) hlast
  rw [if_pos rfl, if_pos rfl] at hcols
  rw [if_neg (by omega), if_neg (by omega)] at hrows
  unfold next atTile pieceAt withFull
  dsimp only
  rw [if_neg Bool.false_ne_true, if_pos (Nat.lt_succ_self _), if_neg (not_lt.mpr hlast)]
  simp only [hcols, hrows]

omit hs in
theorem next_end (slc : TileGridSlicer) (x y w h : Int) :
    ∃ slc', (slc.atTile x y w h slc.col2 slc.row2).next = (slc', false) := by
  unfold next atTile pieceAt
  dsimp only
  rw [if_pos (Nat.lt_succ_self _), if_pos (Nat.lt_succ_self _)]
  exact ⟨_, rfl⟩

/-- The pieces of a row from a column on. -/
def rowPieces (slc : TileGridSlicer) (x y w h : Int) (c r : Nat) : List TileGridInfo :=
  (List.range' c (slc.col2 + 1 - c)).map fun c => pieceAt x y w h slc.tileW slc.tileH c r

/-- The pieces of the rows from one row on. -/
def allPieces (slc : TileGridSlicer) (x y w h : Int) (r : Nat) : List TileGridInfo :=
  (List.range' r (slc.row2 + 1 - r)).flatMap fun r => rowPieces slc x y w h slc.col1 r

omit hs in
theorem rowPieces_cons (hc : c ≤ slc.col2) : rowPieces slc x y w h c r =
    pieceAt x y w h slc.tileW slc.tileH c r :: rowPieces slc x y w h (c + 1) r := by
  rw [rowPieces, show slc.col2 + 1 - c = (slc.col2 + 1 - (c + 1)) + 1 by omega]
  rfl

omit hs in
theorem allPieces_cons (hr : r ≤ slc.row2) : allPieces slc x y w h r =
    rowPieces slc x y w h slc.col1 r ++ allPieces slc x y w h (r + 1) := by
  rw [allPieces, show slc.row2 + 1 - r = (slc.row2 + 1 - (r + 1)) + 1 by omega]
  rfl

theorem pieces_row (calls : Nat) : ∀ (d c : Nat), slc.col1 ≤ c → c + d = slc.col2 →
    pieces (d + calls) (slc.atTile x y w h c r) =
      (pieces calls (slc.atTile x y w h slc.col2 r)).map
        (rowPieces slc x y w h (c + 1) r ++ ·) := by
  intro d
  induction d with
  | zero =>
    intro c _ hd
    have hnil : rowPieces slc x y w h (c + 1) r = [] := by
      rw [rowPieces, show slc.col2 + 1 - (c + 1) = 0 by omega]
      rfl
    obtain rfl : c = slc.col2 := by omega
    rw [hnil]
    simp
  | succ d ih =>
    intro c hc hd
    rw [Nat.succ_add, pieces, next_col hs hc (by omega)]
    dsimp only
    rw [ih (c + 1) (by omega) (by omega), rowPieces_cons (c := c + 1) (by omega), Option.map_map]
    rfl

/-- All rows are cut, one after the other. -/
theorem pieces_rows : ∀ (e r : Nat), slc.row1 ≤ r → r + e = slc.row2 →
    ∃ calls, pieces calls (slc.atTile x y w h slc.col2 r) =
      some (allPieces slc x y w h (r + 1)) := by
  intro e
  induction e with
  | zero =>
    intro r _ he
    have hnil : allPieces slc x y w h (r + 1) = [] := by
      rw [allPieces, show slc.row2 + 1 - (r + 1) = 0 by omega]
      rfl
    obtain rfl : r = slc.row2 := by omega
    obtain ⟨slc', hend⟩ := next_end slc x y w h
    refine ⟨1, ?_⟩
    rw [pieces, hend, hnil]
  | succ e ih =>
    intro r hr he
    obtain ⟨calls, hcalls⟩ := ih (r + 1) (by omega) (by omega)
    have hcols := hs.cols.first_le_last
    refine ⟨(slc.col2 - slc.col1 + calls) + 1, ?_⟩
    rw [pieces, next_row hs hr (by omega)]
    dsimp only
    rw [pieces_row hs calls (slc.col2 - slc.col1) slc.col1 (le_rfl) (by omega), hcalls,
      allPieces_cons (r := r + 1) (by omega), rowPieces_cons hcols]
    rfl

theorem pieces_all (hinfo : slc.info = pieceAt x y w h slc.tileW slc.tileH slc.col1 slc.row1)
    (hfirst : slc.first = true) :
    ∃ calls, pieces calls slc = some (allPieces slc x y w h slc.row1) := by
  have hcols := hs.cols.first_le_last
  have hrows := hs.rows.first_le_last
  obtain ⟨calls, hcalls⟩ := pieces_rows hs (slc.row2 - slc.row1) slc.row1 (le_rfl) (by omega)
  have hnext : slc.next = (slc.atTile x y w h slc.col1 slc.row1, true) := by
    unfold next atTile
    rw [if_pos hfirst, ← hinfo]
  refine ⟨(slc.col2 - slc.col1 + calls) + 1, ?_⟩
  rw [pieces, hnext]
  dsimp only
  rw [pieces_row hs calls (slc.col2 - slc.col1) slc.col1 (le_rfl) (by omega), hcalls,
    allPieces_cons hrows, rowPieces_cons hcols]
  rfl

/-! ### The pieces tile the area -/

omit hs in
theorem mem_allPieces : info ∈ allPieces slc x y w h slc.row1 ↔
    ∃ c r, (slc.col1 ≤ c ∧ c < slc.col1 + (slc.col2 + 1 - slc.col1)) ∧
      (slc.row1 ≤ r ∧ r < slc.row1 + (slc.row2 + 1 - slc.row1)) ∧
      info = pieceAt x y w h slc.tileW slc.tileH c r := by
  unfold allPieces rowPieces
  simp only [List.mem_flatMap, List.mem_map, List.mem_range'_1]
  constructor
  · rintro ⟨r, hr, c, hc, rfl⟩
    exact ⟨c, r, hc, hr, rfl⟩
  · rintro ⟨c, r, hc, hr, rfl⟩
    exact ⟨r, hr, c, hc, rfl⟩

theorem mem_place {p : Int × Int} :
    p ∈ ((pieceAt x y w h slc.tileW slc.tileH c r).place slc.tileW slc.tileH).pixels ↔
      p ∈ (⟨x, y, w, h⟩ : Rectangle).pixels ∧ (c : Int) = p.1 / slc.tileW ∧
        (r : Int) = p.2 / slc.tileH := by
  have hcols := mem_part x w (i := c) (p := p.1) hs.cols.pos.2.2
  have hrows := mem_part y h (i := r) (p := p.2) hs.rows.pos.2.2
  simp only [TileGridInfo.place]
  constructor
  · rintro ⟨h1, h2, h3, h4⟩
    obtain ⟨h5, h6, h7⟩ := hcols.mp ⟨h1, h2⟩
    obtain ⟨h8, h9, h10⟩ := hrows.mp ⟨h3, h4⟩
    exact ⟨⟨h5, h6, h8, h9⟩, h7, h10⟩
  · rintro ⟨⟨h5, h6, h8, h9⟩, h7, h10⟩
    obtain ⟨h1, h2⟩ := hcols.mpr ⟨h5, h6, h7⟩
    obtain ⟨h3, h4⟩ := hrows.mpr ⟨h8, h9, h10⟩
    exact ⟨h1, h2, h3, h4⟩

theorem disjoint_place {c' r' : Nat} (hne : c ≠ c' ∨ r ≠ r') :
    Disjoint ((pieceAt x y w h slc.tileW slc.tileH c r).place slc.tileW slc.tileH).pixels
      ((pieceAt x y w h slc.tileW slc.tileH c' r').place slc.tileW slc.tileH).pixels := by
  rw [Set.disjoint_left]
  intro p hp hp'
  obtain ⟨-, hc, hr⟩ := (mem_place hs).mp hp
  obtain ⟨-, hc', hr'⟩ := (mem_place hs).mp hp'
  omega

theorem allPieces_disjoint : (allPieces slc x y w h slc.row1).Pairwise fun info info' =>
    Disjoint (info.place slc.tileW slc.tileH).pixels (info'.place slc.tileW slc.tileH).pixels := by
  unfold allPieces
  rw [List.pairwise_flatMap]
  constructor
  · intro r _
    unfold rowPieces
    rw [List.pairwise_map]
    refine List.Pairwise.imp ?_ (List.pairwise_lt_range' 1)
    intro c c' hlt
    exact disjoint_place hs (.inl (ne_of_lt hlt))
  · refine List.Pairwise.imp ?_ (List.pairwise_lt_range' 1)
    intro r r' hlt info hinfo info' hinfo'
    obtain ⟨c, -, rfl⟩ := List.mem_map.mp hinfo
    obtain ⟨c', -, rfl⟩ := List.mem_map.mp hinfo'
    exact disjoint_place hs (.inr (ne_of_lt hlt))

theorem allPieces_cover :
    cover (fun info : TileGridInfo => (info.place slc.tileW slc.tileH).pixels)
      (allPieces slc x y w h slc.row1) = (⟨x, y, w, h⟩ : Rectangle).pixels := by
  ext p
  rw [mem_cover]
  constructor
  · rintro ⟨info, hinfo, hp⟩
    obtain ⟨c, r, -, -, rfl⟩ := mem_allPieces.mp hinfo
    exact ((mem_place hs).mp hp).1
  · intro hp
    have hin := Rectangle.mem_pixels.mp hp
    obtain ⟨c, hc1, hc2, hc⟩ := hs.cols.tile_mem ⟨hin.1, hin.2.1⟩
    obtain ⟨r, hr1, hr2, hr⟩ := hs.rows.tile_mem ⟨hin.2.2.1, hin.2.2.2⟩
    refine ⟨_, mem_allPieces.mpr ⟨c, r, ⟨hc1, by omega⟩, ⟨hr1, by omega⟩, rfl⟩, ?_⟩
    exact (mem_place hs).mpr ⟨hp, hc, hr⟩

theorem allPieces_inside (hinfo : info ∈ allPieces slc x y w h slc.row1) :
    (0 < info.rect.w ∧ 0 < info.rect.h) ∧
      (0 ≤ info.rect.x ∧ info.rect.x + info.rect.w ≤ slc.tileW) ∧
      (0 ≤ info.rect.y ∧ info.rect.y + info.rect.h ≤ slc.tileH) ∧
      (info.full = true ↔ info.rect = ⟨0, 0, slc.tileW, slc.tileH⟩) := by
  obtain ⟨c, r, hc, hr, rfl⟩ := mem_allPieces.mp hinfo
  obtain ⟨hx1, hx2, hx3⟩ := hs.cols.part_pos hc.1 (by omega)
  obtain ⟨hy1, hy2, hy3⟩ := hs.rows.part_pos hr.1 (by omega)
  refine ⟨⟨hx2, hy2⟩, ⟨hx1, hx3⟩, ⟨hy1, hy3⟩, ?_⟩
  simp only [pieceAt, decide_eq_true_eq, Rectangle.mk.injEq]
  omega

end Walk

/-! ### Setting up -/

theorem int_eq {n : Int} (hlow : -2147483648 ≤ n) (hhigh : n < 2147483648) : int n = n := by
  exact bmod_eq_of_le_mul_two (by omega) (by omega)

/-- First and last tile along one side. -/
theorem axis_setup {start length tile : Int} (hstart : 0 ≤ start) (hlength : 0 < length)
    (htile : 0 < tile) : Axis start length tile (start.tdiv tile).toNat
      ((start + length - 1).tdiv tile).toNat (start.tmod tile) (if (start.tdiv tile).toNat =
        ((start + length - 1).tdiv tile).toNat then (start + length - 1).tmod tile + 1 -
          start.tmod tile else tile - start.tmod tile) ((start + length - 1).tmod tile + 1) := by
  have hlast : 0 ≤ start + length - 1 := by omega
  rw [tdiv_eq_ediv_of_nonneg hstart, tdiv_eq_ediv_of_nonneg hlast,
    tmod_eq_emod_of_nonneg hstart, tmod_eq_emod_of_nonneg hlast]
  have hfirst := ediv_mul_add_emod start tile
  have hend := ediv_mul_add_emod (start + length - 1) tile
  have hnonneg := ediv_nonneg hstart (le_of_lt htile)
  have hnonneg' := ediv_nonneg hlast (le_of_lt htile)
  have hmod := emod_nonneg start (ne_of_gt htile)
  have hmod' := emod_nonneg (start + length - 1) (ne_of_gt htile)
  have hlt := emod_lt_of_pos start htile
  have hlt' := emod_lt_of_pos (start + length - 1) htile
  refine ⟨⟨hstart, hlength, htile⟩, ?_, ?_, ⟨hmod, hlt⟩, by omega, rfl⟩
  · rw [toNat_of_nonneg hnonneg]
    exact hfirst.symm
  · rw [toNat_of_nonneg hnonneg']
    omega

/-- What is set up at first. -/
theorem setup_slices (slc : TileGridSlicer) {x y w h tileW tileH : Int} (hx : 0 ≤ x) (hy : 0 ≤ y)
    (hw : 0 < w) (hh : 0 < h) (htileW : 0 < tileW) (htileH : 0 < tileH)
    (hxw : x + w ≤ 2147483647) (hyh : y + h ≤ 2147483647) :
    ∃ s, slc.setup x y w h tileW tileH = s ∧ s.Slices x y w h ∧ s.tileW = tileW ∧
      s.tileH = tileH ∧ s.info = pieceAt x y w h tileW tileH s.col1 s.row1 ∧ s.first = true := by
  have hcols := axis_setup hx hw htileW
  have hrows := axis_setup hy hh htileH
  have hcol := hcols.part_eq (le_rfl) hcols.first_le_last
  have hrow := hrows.part_eq (le_rfl) hrows.first_le_last
  rw [if_pos rfl, if_pos rfl] at hcol hrow
  have hx2 : int (int (x + w) - 1) = x + w - 1 := by
    rw [int_eq (n := x + w) (by omega) (by omega), int_eq (by omega) (by omega)]
  have hy2 : int (int (y + h) - 1) = y + h - 1 := by
    rw [int_eq (n := y + h) (by omega) (by omega), int_eq (by omega) (by omega)]
  refine ⟨_, rfl, ?_⟩
  unfold setup
  dsimp only
  rw [if_neg (by omega), hx2, hy2]
  refine ⟨⟨hcols, hrows⟩, rfl, rfl, ?_, rfl⟩
  unfold withFull pieceAt
  dsimp only
  rw [hcol, hrow]

end TileGridSlicer

end Eina

open Eina Eina.TileGridSlicer

/-- **The slicer**: the pieces tile the area, each of them in its own tile. -/
theorem Eina.TileGridSlicer.pieces_tile (slc : TileGridSlicer) (x y w h tileW tileH : Int)
    (hx : 0 ≤ x) (hy : 0 ≤ y) (hw : 0 < w) (hh : 0 < h) (htileW : 0 < tileW) (htileH : 0 < tileH)
    (hxw : x + w ≤ 2147483647) (hyh : y + h ≤ 2147483647) :
    ∃ calls infos, pieces calls (slc.setup x y w h tileW tileH) = some infos ∧
      infos.Pairwise (fun info info' =>
        Disjoint (info.place tileW tileH).pixels (info'.place tileW tileH).pixels) ∧
      Cover.cover (fun info : TileGridInfo => (info.place tileW tileH).pixels) infos =
        (⟨x, y, w, h⟩ : Rectangle).pixels ∧
      ∀ info ∈ infos, (0 < info.rect.w ∧ 0 < info.rect.h) ∧
        (0 ≤ info.rect.x ∧ info.rect.x + info.rect.w ≤ tileW) ∧
        (0 ≤ info.rect.y ∧ info.rect.y + info.rect.h ≤ tileH) ∧
        (info.full = true ↔ info.rect = ⟨0, 0, tileW, tileH⟩) := by
  obtain ⟨s, hs, hslices, rfl, rfl, hinfo, hfirst⟩ :=
    setup_slices slc hx hy hw hh htileW htileH hxw hyh
  obtain ⟨calls, hcalls⟩ := pieces_all hslices hinfo hfirst
  rw [hs]
  exact ⟨calls, _, hcalls, allPieces_disjoint hslices, allPieces_cover hslices,
    fun info hin => allPieces_inside hslices hin⟩

/-- A slicer before it is set up. -/
def Eina.TileGridSlicer.blank : TileGridSlicer :=
  ⟨0, 0, 0, 0, 0, 0, 0, 0, 0, 0, 0, 0, ⟨0, 0, ⟨0, 0, 0, 0⟩, false⟩, false⟩

/-- An area in two columns and three rows of tiles. -/
theorem Eina.TileGridSlicer.pieces_tile_six :
    ∃ calls infos, pieces calls (blank.setup 3 2 4 9 4 4) = some infos ∧
      infos.Pairwise (fun info info' =>
        Disjoint (info.place 4 4).pixels (info'.place 4 4).pixels) ∧
      Cover.cover (fun info : TileGridInfo => (info.place 4 4).pixels) infos =
        (⟨3, 2, 4, 9⟩ : Rectangle).pixels ∧
      ∀ info ∈ infos, (0 < info.rect.w ∧ 0 < info.rect.h) ∧
        (0 ≤ info.rect.x ∧ info.rect.x + info.rect.w ≤ 4) ∧
        (0 ≤ info.rect.y ∧ info.rect.y + info.rect.h ≤ 4) ∧
        (info.full = true ↔ info.rect = ⟨0, 0, 4, 4⟩) :=
  pieces_tile blank 3 2 4 9 4 4 (by decide) (by decide) (by decide) (by decide) (by decide)
    (by decide) (by decide) (by decide)
