/-
`eina_file_map_lines`: the lines of a file in memory.

A pointer is its offset in the map, and the address of the map only moves the edges of the
chunks that `_eina_find_eol` searches.  Whether a line is the first is told by its `index`, an
`unsigned int`: it is zero again after 2 ^ 32 lines, and the iterator then stays at the
terminator it is at and finds one more empty line there.
-/
import Mathlib.Algebra.Group.Nat.Defs
import Mathlib.Data.List.Basic

namespace Eina.File

open List

/-- The search of `_eina_find_eol` in one chunk: `memchr` for `'\r'` and for `'\n'`. -/
def eolIn (part : List UInt8) : Option Nat :=
  match part.idxOf? 13, part.idxOf? 10 with
  | some cr, some lf => if lf < cr then some lf else some cr
  | some cr, none => some cr
  | none, lf => lf

/-- `_eina_find_eol` to the end of the content; each round of the loop goes one byte on at
least. -/
def findEol (content : List UInt8) : Nat → Nat → Nat → Nat
  | 0, start, _ => start
  | fuel + 1, start, boundary =>
    if start < content.length then
      let chunk := if start + boundary < content.length then boundary else content.length - start
      match eolIn ((content.drop start).take chunk) with
      | some i => start + i
      | none => findEol content fuel (start + chunk) 4096
    else content.length

/-- `Eina_Lines_Iterator`: its line and its boundary. -/
structure LinesIterator where
  start : Nat := 0
  stop : Nat := 0
  index : Nat := 0
  boundary : Nat := 4096
  deriving DecidableEq

/-- A byte that ends a line. -/
def isEol (c : UInt8) : Bool := c == 13 || c == 10

/-- The loop over the rest of a terminator that starts with `first`. -/
def skipEol (first : UInt8) : List UInt8 → Nat → Nat
  | [], stop => stop
  | c :: rest, stop =>
    if isEol c then if first = c then stop else skipEol first rest (stop + 1) else stop

/-- `_eina_file_map_lines_iterator_next` with the content mapped at `map`. -/
def linesNext (content : List UInt8) (map : Nat) (it : LinesIterator) : Option LinesIterator :=
  match content[it.stop]? with
  | none => none
  | some first =>
    let stop := if it.index > 0 then it.stop + 1 else it.stop
    let stop := skipEol first (content.drop stop) stop
    if stop = content.length then none
    else
      let eol := findEol content (content.length + 1) stop it.boundary
      let boundary := (map + eol) &&& 0x3FF
      some
        { start := stop
          stop := eol
          index := (it.index + 1) % 2 ^ 32
          boundary := if boundary = 0 then 4096 else boundary }

/-- The bytes of the line an iterator is at. -/
def LinesIterator.line (content : List UInt8) (it : LinesIterator) : List UInt8 :=
  (content.drop it.start).take (it.stop - it.start)

/-- The lines an iterator gives, up to its end. -/
inductive Yields (content : List UInt8) (map : Nat) : LinesIterator → List (List UInt8) → Prop where
  | done {it} : linesNext content map it = none → Yields content map it []
  | more {it it' lines} : linesNext content map it = some it' → Yields content map it' lines →
      Yields content map it (it'.line content :: lines)

/-- `eina_file_map_lines` of a file that is not empty gives these lines. -/
def MapLines (content : List UInt8) (map : Nat) (lines : List (List UInt8)) : Prop :=
  Yields content map {} lines

variable {content after tail line : List UInt8} {map start boundary : Nat}

theorem yields_unique {it : LinesIterator} {xs ys : List (List UInt8)}
    (hx : Yields content map it xs) (hy : Yields content map it ys) : xs = ys := by
  induction hx generalizing ys with
  | done h =>
    cases hy with
    | done => rfl
    | more h' => simp [h] at h'
  | more h _ ih =>
    cases hy with
    | done h' => simp [h] at h'
    | more h' hrest =>
      obtain rfl := Option.some.inj (h.symm.trans h')
      rw [ih hrest]

/-! ### The end of a line -/

theorem eolIn_eq (part : List UInt8) : eolIn part = part.findIdx? isEol := by
  unfold eolIn
  induction part with
  | nil => rfl
  | cons c part ih =>
    rw [findIdx?_cons, ← ih, idxOf?_cons, idxOf?_cons]
    by_cases h13 : c = 13
    · subst h13
      cases part.idxOf? 10 <;> simp [isEol]
    by_cases h10 : c = 10
    · subst h10
      cases part.idxOf? 13 <;> simp [isEol]
    have hc : isEol c = false := by simp [isEol, h13, h10]
    rw [hc]
    simp only [beq_iff_eq, h13, h10]
    cases part.idxOf? 13 <;> cases part.idxOf? 10 <;> simp [apply_ite]
    split <;> omega

/-- What is behind a line: nothing or an end of line. -/
def Ends (after : List UInt8) : Prop := ∀ c ∈ after.head?, isEol c

/-- **The end of a line is found, wherever the chunks are.** -/
theorem findEol_eq (line : List UInt8) (fuel : Nat) (hline : ∀ c ∈ line, isEol c = false)
    (hafter : Ends after) (hdrop : content.drop start = line ++ after)
    (hstart : start ≤ content.length) (hboundary : 0 < boundary)
      (hfuel : content.length < start + fuel) :
    findEol content fuel start boundary = start + line.length := by
  induction fuel generalizing start boundary line with
  | zero => omega
  | succ fuel ih =>
    have hlength : content.length - start = line.length + after.length := by
      rw [← length_drop, hdrop, length_append]
    unfold findEol
    split
    · set chunk := if start + boundary < content.length then boundary else content.length - start
        with hchunk
      have hpos : 0 < chunk := by
        rw [hchunk]
        split <;> omega
      have hle : chunk ≤ line.length + after.length := by
        rw [hchunk]
        split <;> omega
      dsimp only
      rw [eolIn_eq, hdrop]
      by_cases hlong : chunk ≤ line.length
      · have hnone : ((line ++ after).take chunk).findIdx? isEol = none := by
          rw [take_append_of_le_length hlong, findIdx?_eq_none_iff]
          exact fun c hc => hline c (mem_of_mem_take hc)
        rw [hnone]
        dsimp only
        rw [ih (line.drop chunk) (fun c hc => hline c (mem_of_mem_drop hc)) ?_ (by omega)
          (by decide) (by omega), length_drop]
        · omega
        · rw [← drop_drop, hdrop, drop_append_of_le_length hlong]
      · cases after with
        | nil =>
          simp at hle
          omega
        | cons c after =>
          have hsome : ((line ++ c :: after).take chunk).findIdx? isEol = some line.length := by
            rw [take_append, take_of_length_le (by omega), findIdx?_append,
              findIdx?_eq_none_iff.mpr hline]
            obtain ⟨k, hk⟩ : ∃ k, chunk - line.length = k + 1 := ⟨chunk - line.length - 1, by omega⟩
            rw [hk, take_succ_cons, findIdx?_cons, hafter c rfl]
            simp
          rw [hsome]
    · omega

/-! ### The terminators -/

/-- The three kinds of terminators. -/
inductive Terminator where
  | lf
  | cr
  | crlf
  deriving DecidableEq

def Terminator.bytes : Terminator → List UInt8
  | .lf => [10]
  | .cr => [13]
  | .crlf => [13, 10]

/-- Lines that are terminated, and a last one that is not. -/
def joined (t : Terminator) (lines : List (List UInt8)) (last : List UInt8) : List UInt8 :=
  lines.flatMap (· ++ t.bytes) ++ last

/-- The lines have no terminator in them. -/
def Clean (lines : List (List UInt8)) (last : List UInt8) : Prop :=
  (∀ line ∈ lines, ∀ c ∈ line, isEol c = false) ∧ ∀ c ∈ last, isEol c = false

variable {t : Terminator} {lines : List (List UInt8)} {last front : List UInt8}
  {it : LinesIterator} {first : UInt8}

theorem ends_bytes (t : Terminator) (tail : List UInt8) : Ends (t.bytes ++ tail) := by
  cases t <;> (rintro c ⟨⟩; rfl)

theorem ends_nil : Ends [] := nofun

theorem skipEol_self (first : UInt8) (tail : List UInt8) (stop : Nat) :
    skipEol first (first :: tail) stop = stop := by
  rw [skipEol, if_pos rfl, ite_self]

theorem skipEol_bytes (t : Terminator) (hclean : Clean lines last) (stop : Nat) :
    ∃ first rest, t.bytes = first :: rest ∧
      skipEol first (rest ++ joined t lines last) (stop + 1) = stop + t.bytes.length := by
  have hstays : ∀ first, t.bytes.head? = some first → ∀ stop,
      skipEol first (joined t lines last) stop = stop := by
    intro first hfirst stop
    have hnone : ∀ line, (∀ c ∈ line, isEol c = false) → ∀ after,
        skipEol first (line ++ (t.bytes ++ after)) stop = stop := by
      intro line hline after
      cases line with
      | nil => cases t <;> cases hfirst <;> exact skipEol_self _ _ _
      | cons c line => simp [skipEol, hline c mem_cons_self]
    cases lines with
    | nil =>
      cases hlast : last with
      | nil => rfl
      | cons c last =>
        have hc := hclean.2 c (by simp [hlast])
        simp [joined, skipEol, hc]
    | cons line lines =>
      rw [joined, flatMap_cons, append_assoc, append_assoc]
      exact hnone line (hclean.1 line mem_cons_self) _
  cases t with
  | lf => exact ⟨10, [], rfl, hstays 10 rfl _⟩
  | cr => exact ⟨13, [], rfl, hstays 13 rfl _⟩
  | crlf => exact ⟨13, [10], rfl, hstays 13 rfl _⟩

/-- **A call finds the line behind the terminator it skips.** -/
theorem linesNext_eq (it : LinesIterator) (map stop : Nat) (hfirst : content[it.stop]? = some first)
    (hskip : skipEol first (content.drop (if it.index > 0 then it.stop + 1 else it.stop))
      (if it.index > 0 then it.stop + 1 else it.stop) = stop)
    (hstop : stop < content.length) (hboundary : 0 < it.boundary)
    (hline : ∀ c ∈ line, isEol c = false) (hafter : Ends after)
    (hdrop : content.drop stop = line ++ after) :
    ∃ it', linesNext content map it = some it' ∧ it'.line content = line ∧
      it'.stop = stop + line.length ∧ it'.index = (it.index + 1) % 2 ^ 32 ∧ 0 < it'.boundary := by
  have heol := findEol_eq line (content.length + 1) hline hafter hdrop (Nat.le_of_lt hstop)
    hboundary (by omega)
  unfold linesNext
  rw [hfirst]
  dsimp only
  rw [hskip, if_neg (Nat.ne_of_lt hstop), heol]
  refine ⟨_, rfl, ?_, rfl, rfl, ?_⟩
  · simp [LinesIterator.line, hdrop]
  · dsimp only
    split <;> omega

/-! ### All lines -/

/-- What is yielded at the terminator of a line: at index 0 that place once more. -/
def yielded : Nat → List (List UInt8) → List UInt8 → List (List UInt8)
  | index, [], last =>
    (if index = 0 then [[]] else []) ++ if last = [] then [] else [last]
  | index, line :: lines, last =>
    (if index = 0 then [[]] else []) ++ line :: yielded ((max index 1 + 1) % 2 ^ 32) lines last

theorem yields_end (h : it.stop = content.length) : Yields content map it [] := by
  refine .done ?_
  rw [linesNext, h, getElem?_eq_none (Nat.le_refl _)]

theorem yields_again {f : Nat → List (List UInt8)} (hf : f 1 = f 0) (hboundary : 0 < it.boundary)
    (hcontent : content = front ++ (t.bytes ++ tail)) (hstop : it.stop = front.length)
    (h : ∀ it : LinesIterator, it.stop = front.length → 0 < it.boundary → 0 < it.index →
      Yields content map it (f it.index)) :
    Yields content map it ((if it.index = 0 then [[]] else []) ++ f it.index) := by
  by_cases hindex : it.index = 0
  · have hdrop : content.drop front.length = [] ++ (t.bytes ++ tail) := by simp [hcontent]
    obtain ⟨first, rest, hbytes⟩ : ∃ first rest, t.bytes = first :: rest := by
      cases t <;> exact ⟨_, _, rfl⟩
    have hfirst : content[it.stop]? = some first := by simp [hcontent, hstop, hbytes]
    obtain ⟨it', hnext, hline, hstop', hindex', hboundary'⟩ := linesNext_eq it map front.length
      hfirst (by simp [hindex, hstop, hdrop, hbytes, skipEol_self])
      (by simp [hcontent, hbytes]) hboundary (by simp) (ends_bytes t tail) hdrop
    rw [hindex] at hindex'
    rw [hindex, ← hf]
    have hrest := h it' hstop' hboundary' (by omega)
    rw [hindex'] at hrest
    exact hline ▸ .more hnext hrest
  · rw [if_neg hindex]
    exact h it hstop hboundary (by omega)

theorem skips (hclean : Clean lines last)
    (hcontent : content = front ++ (t.bytes ++ joined t lines last))
    (hstop : it.stop = front.length) (hindex : 0 < it.index) :
    ∃ first, content[it.stop]? = some first ∧
      skipEol first (content.drop (if it.index > 0 then it.stop + 1 else it.stop))
        (if it.index > 0 then it.stop + 1 else it.stop) = front.length + t.bytes.length := by
  obtain ⟨first, rest, hbytes, hskip⟩ := skipEol_bytes t hclean front.length
  rw [if_pos hindex, hstop, ← hskip, hcontent, hbytes]
  simp

/-- **From a terminator on, the lines behind it are yielded.** -/
theorem yields_yielded (map : Nat) (hclean : Clean lines last) (front : List UInt8)
    (hcontent : content = front ++ (t.bytes ++ joined t lines last))
    (hstop : it.stop = front.length) (hboundary : 0 < it.boundary) :
    Yields content map it (yielded it.index lines last) := by
  induction lines generalizing it front with
  | nil =>
    refine yields_again (f := fun _ => if last = [] then [] else [last]) rfl hboundary hcontent
      hstop fun it hstop hboundary hindex => ?_
    obtain ⟨first, hfirst, hskip⟩ := skips hclean hcontent hstop hindex
    split
    · rename_i hlast
      refine .done ?_
      rw [linesNext, hfirst]
      dsimp only
      rw [hskip]
      simp [hcontent, joined, hlast]
    · rename_i hlast
      have hlength : 0 < last.length := length_pos_iff.mpr hlast
      obtain ⟨it', hnext, hline, hstop', -, -⟩ := linesNext_eq it map _ hfirst hskip
        (by simp [hcontent, joined]; omega) hboundary hclean.2 ends_nil
        (by simp [hcontent, joined])
      exact hline ▸ .more hnext (yields_end (by simp [hcontent, joined]; omega))
  | cons line lines ih =>
    refine yields_again (f := fun index => line :: yielded ((max index 1 + 1) % 2 ^ 32) lines last)
      rfl hboundary hcontent hstop fun it hstop hboundary hindex => ?_
    obtain ⟨first, hfirst, hskip⟩ := skips hclean hcontent hstop hindex
    have hjoined : joined t (line :: lines) last = line ++ (t.bytes ++ joined t lines last) := by
      simp [joined]
    rw [hjoined] at hcontent
    have hbytes : 0 < t.bytes.length := by cases t <;> decide
    obtain ⟨it', hnext, hline, hstop', hindex', hboundary'⟩ := linesNext_eq it map _ hfirst hskip
      (by simp [hcontent]; omega) hboundary (hclean.1 line mem_cons_self)
      (ends_bytes t (joined t lines last)) (by simp [hcontent])
    have hrest := ih ⟨fun l hl => hclean.1 l (mem_cons_of_mem _ hl), hclean.2⟩
      (front ++ t.bytes ++ line) (by simp [hcontent]) (by simp; omega) hboundary'
    rw [hindex'] at hrest
    rw [Nat.max_eq_left hindex]
    exact hline ▸ .more hnext hrest

/-- What is yielded from the start on. -/
def yieldedAll : List (List UInt8) → List UInt8 → List (List UInt8)
  | [], last => [last]
  | line :: lines, last => line :: yielded 1 lines last

/-- **From the start all lines are yielded.** -/
theorem mapLines_yielded (map : Nat) (hclean : Clean lines last) (hne : joined t lines last ≠ []) :
    MapLines (joined t lines last) map (yieldedAll lines last) := by
  obtain ⟨first, rest, hcons⟩ := exists_cons_of_ne_nil hne
  have hskip : skipEol first ((joined t lines last).drop 0) 0 = 0 := by
    rw [drop_zero, hcons, skipEol, if_pos rfl, ite_self]
  have hnext := fun line after => @linesNext_eq _ after line first {} map 0 (by simp [hcons]) hskip
    (by simp [hcons]) (by decide)
  cases lines with
  | nil =>
    obtain ⟨it', hnext, hline, hstop, -, -⟩ := hnext last [] hclean.2 ends_nil (by simp [joined])
    have hyields := Yields.more hnext (yields_end (by simp [hstop, joined]))
    rwa [hline] at hyields
  | cons line lines =>
    have hjoined : joined t (line :: lines) last = line ++ (t.bytes ++ joined t lines last) := by
      simp [joined]
    obtain ⟨it', hnext, hline, hstop, hindex, hboundary⟩ := hnext line _
      (hclean.1 line mem_cons_self) (ends_bytes t (joined t lines last)) (by rw [hjoined]; rfl)
    have hrest := yields_yielded map ⟨fun l hl => hclean.1 l (mem_cons_of_mem _ hl),
      hclean.2⟩ line hjoined (by simpa using hstop) hboundary
    rw [hindex] at hrest
    have hyields := Yields.more hnext hrest
    rwa [hline] at hyields

/-- The lines of a content, without the empty rest behind a last terminator. -/
def split (lines : List (List UInt8)) (last : List UInt8) : List (List UInt8) :=
  lines ++ if last = [] then [] else [last]

theorem yielded_eq (lines : List (List UInt8)) (last : List UInt8) (index : Nat) (hpos : 0 < index)
    (hlt : index + lines.length < 2 ^ 32) : yielded index lines last = split lines last := by
  induction lines generalizing index with
  | nil =>
    rw [yielded, if_neg (Nat.ne_of_gt hpos)]
    rfl
  | cons line lines ih =>
    rw [length_cons] at hlt
    rw [yielded, if_neg (Nat.ne_of_gt hpos), Nat.max_eq_left hpos, Nat.mod_eq_of_lt (by omega),
      ih (index + 1) (by omega) (by omega)]
    rfl

theorem yielded_zero (lines : List (List UInt8)) (last : List UInt8) :
    yielded 0 lines last = [] :: yielded 1 lines last := by
  cases lines <;> rfl

theorem split_le_yielded (index : Nat) (lines : List (List UInt8)) (last : List UInt8) :
    (split lines last).length ≤ (yielded index lines last).length := by
  induction lines generalizing index with
  | nil => simp [split, yielded]
  | cons line lines ih =>
    have hrest := ih ((max index 1 + 1) % 2 ^ 32)
    simp only [split, yielded, length_append, length_cons] at hrest ⊢
    omega

theorem split_lt_yielded (lines : List (List UInt8)) (last : List UInt8) (index : Nat)
    (hpos : 0 < index) (hlt : index < 2 ^ 32) (hwrap : 2 ^ 32 ≤ index + lines.length) :
    (split lines last).length < (yielded index lines last).length := by
  induction lines generalizing index with
  | nil =>
    rw [length_nil] at hwrap
    omega
  | cons line lines ih =>
    have hmore : (split lines last).length <
        (yielded ((max index 1 + 1) % 2 ^ 32) lines last).length := by
      rw [Nat.max_eq_left hpos]
      by_cases hnext : index + 1 = 2 ^ 32
      · rw [hnext, Nat.mod_self, yielded_zero]
        exact Nat.lt_succ_of_le (split_le_yielded 1 lines last)
      rw [Nat.mod_eq_of_lt (by omega)]
      rw [length_cons] at hwrap
      exact ih (index + 1) (by omega) (by omega) (by omega)
    rw [yielded, if_neg (Nat.ne_of_gt hpos)]
    exact Nat.succ_lt_succ hmore

theorem mapLines_split (map : Nat) (hclean : Clean lines last) (hne : joined t lines last ≠ []) :
    MapLines (joined t lines last) map (split lines last) ↔ lines.length < 2 ^ 32 := by
  have hyields := mapLines_yielded map hclean hne
  cases lines with
  | nil =>
    have hlast : last ≠ [] := by simpa [joined] using hne
    refine iff_of_true ?_ (by simp)
    rw [split, if_neg hlast]
    exact hyields
  | cons line lines =>
    rw [length_cons]
    constructor
    · intro hsplit
      by_contra hlong
      have hlength := split_lt_yielded lines last 1 (by decide) (by decide) (by omega)
      have heq := congrArg length (yields_unique hyields hsplit)
      simp only [split, yieldedAll, cons_append, length_cons] at heq hlength
      omega
    · intro hlt
      have hrest := yielded_eq lines last 1 (by decide) (by omega)
      rw [yieldedAll, hrest] at hyields
      exact hyields

/-- **A content with one kind of terminators yields its lines, wherever it is mapped, exactly if
it has fewer than 2 ^ 32 of them.** -/
theorem mapLines_iff (t : Terminator) (lines : List (List UInt8)) (last : List UInt8)
    (hclean : Clean lines last) (hne : joined t lines last ≠ []) (map : Nat) :
    MapLines (joined t lines last) map (split lines last) ↔ lines.length < 2 ^ 32 :=
  mapLines_split map hclean hne

/-- An empty line, one in between and a rest. -/
theorem mapLines_iff_three : MapLines (joined .crlf [[], [97]] [98]) 5
    (split [[], [97]] [98]) ↔ 2 < 2 ^ 32 :=
  mapLines_iff .crlf [[], [97]] [98] (by simp [Clean, isEol]) (by decide) 5

/-- Of 2 ^ 32 empty lines, one more is found. -/
theorem line_too_many : ¬∀ (t : Terminator) (lines : List (List UInt8)) (last : List UInt8),
    Clean lines last → joined t lines last ≠ [] → ∀ map,
      MapLines (joined t lines last) map (split lines last) := by
  intro hall
  -- The number stays a variable, so that nothing computes the list.
  obtain ⟨n, hn⟩ : ∃ n, n = 2 ^ 32 := ⟨_, rfl⟩
  have hclean : Clean (replicate n []) [] := ⟨by simp, by simp⟩
  have hne : joined .lf (replicate n []) [] ≠ [] := by
    simp [joined, Terminator.bytes]
    omega
  have hlt := (mapLines_split 0 hclean hne).mp (hall .lf _ [] hclean hne 0)
  rw [length_replicate, hn] at hlt
  exact absurd hlt (Nat.lt_irrefl _)

end Eina.File
