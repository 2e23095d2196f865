/-
`_eina_file_escape`: a path is edited in place.

`m` is the block that holds the path and its closing zero; `len` is what the code takes for the
length of the path, `p` the place from which the next slash is looked for, and `q` the slash
before it.  Pointers are offsets from the start of the block.  Reading or writing outside of
the block is undefined.

In terms of the components, the code is a walk over them with a stack (`escapeComponents`):
what it keeps is pushed, and `..` takes the last one back.  A component behind `.` is pushed
without being looked at (`escape_render`).
-/
import Efl.Lib.Scan
import Efl.Lib.Separated

namespace Eina.FilePath

open Scan Separated List Outcome

/-- `strchr(p, '/')` -/
def strchrSlash (m : List UInt8) (p : Nat) : Outcome (Option Nat) := do
  let j ← find m (fun c => c == 47 || c == 0) (m.length - p) p
  let c ← readAt m j
  .returns (if c = 47 then some j else none)

/-- The last slash of a string. -/
def lastSlash : List UInt8 → Option Nat
  | [] => none
  | c :: s =>
    match lastSlash s with
    | some i => some (i + 1)
    | none => if c = 47 then some 0 else none

/-- `strrchr(result, '/')` -/
def strrchrSlash (m : List UInt8) : Outcome (Option Nat) :=
  if 0 ∈ m then .returns (lastSlash (m.takeWhile (· ≠ 0))) else .undefined

/-- The variables of the loop. -/
structure Escape where
  m : List UInt8
  len : Nat
  p : Nat
  q : Nat
  deriving DecidableEq

/-- How a turn of the loop ends: with `break`, or at the head of the loop again. -/
inductive Turn where
  | breaks (m : List UInt8)
  | goesOn (s : Escape)
  deriving DecidableEq

/-- `/../`: back to the slash before, and what stands behind is pulled there. -/
def removeParent (s : Escape) : Outcome Turn := do
  let len := s.len - (s.p + 3 - s.q)
  let m ← move s.m s.q (s.p + 3) (len - s.q)
  let m ← write m len [0]
  let p := s.q
  let tmp ← readAt m p
  let m ← write m p [0]
  let q ← strrchrSlash m
  let m ← write m p [tmp]
  .returns (.goesOn { m := m, len := len, p := p, q := q.getD 0 })

/-- The body of the loop, at the slash `s.p`. -/
def escapeTurn (s : Escape) : Outcome Turn := do
  let c1 ← readAt s.m (s.p + 1)
  if c1 = 47 then do
    let len := s.len - 1
    let m ← move s.m s.p (s.p + 1) (len - s.p)
    let m ← write m len [0]
    .returns (.goesOn { s with m := m, len := len })
  else if c1 = 46 then do
    let c2 ← readAt s.m (s.p + 2)
    if c2 = 46 then do
      let c3 ← readAt s.m (s.p + 3)
      if c3 = 47 then removeParent s
      else if c3 = 0 then do
        let len := s.len - (s.p + 2 - s.q)
        let m ← write s.m len [0]
        .returns (.breaks m)
      else .returns (.goesOn { s with q := s.p, p := s.p + 1 })
    else if c2 = 47 then do
      let len := s.len - 2
      let m ← move s.m s.p (s.p + 2) (len - s.p)
      let m ← write m len [0]
      .returns (.goesOn { m := m, len := len, p := s.p + 1, q := s.p })
    else .returns (.goesOn { s with q := s.p, p := s.p + 1 })
  else .returns (.goesOn { s with q := s.p, p := s.p + 1 })

def escapeLoop : Nat → Escape → Outcome (List UInt8)
  | 0, _ => .running
  | fuel + 1, s => do
    match ← strchrSlash s.m s.p with
    | none => .returns s.m
    | some p => do
      match ← escapeTurn { s with p := p } with
      | .breaks m => .returns m
      | .goesOn s => escapeLoop fuel s

/-- `_eina_file_escape` -/
def escape (path : List UInt8) (len : Nat) (fuel : Nat) : Outcome (List UInt8) :=
  escapeLoop fuel { m := path, len := len, p := 0, q := 0 }

/-- `eina_file_path_relative` -/
def relative (path : List UInt8) : Bool := path.head? != some 47

/-- `eina_file_current_directory_get`, with what `getcwd` answers: the string, and the length
    that it is stored with. -/
def currentDirectoryGet (cwd : Option (List UInt8)) (path : List UInt8) :
    Option (List UInt8 × Nat) :=
  cwd.map fun cwd => (cwd ++ 47 :: path, path.length + (cwd.length + 2))

/-- The string at the start of a block. -/
def string (m : List UInt8) : List UInt8 := m.takeWhile (· ≠ 0)

/-- `eina_file_path_sanitize`, on a string. -/
def pathSanitize (cwd : Option (List UInt8)) (path : List UInt8) (fuel : Nat) :
    Outcome (List UInt8) :=
  let (result, len) :=
    if relative path then
      match currentDirectoryGet cwd path with
      | some r => r
      | none => ([], 0)
    else (path, path.length)
  do
    let m ← escape (result ++ [0]) len fuel
    .returns (string m)

/-! ### Components -/

/-- `.` -/
def dot : List UInt8 := [46]

/-- `..` -/
def dotdot : List UInt8 := [46, 46]

/-- The walk of the code over the components that are left, with those that it has kept. -/
def escapeComponents : List (List UInt8) → List (List UInt8) → List (List UInt8)
  | kept, [] => kept
  | kept, [c] => if c = dotdot then kept.dropLast ++ [[]] else kept ++ [c]
  | kept, c :: d :: rest =>
    if c = [] then escapeComponents kept (d :: rest)
    else if c = dotdot then escapeComponents kept.dropLast (d :: rest)
    -- the next component is kept as it is
    else if c = dot then escapeComponents (kept ++ [d]) rest
    else escapeComponents (kept ++ [c]) (d :: rest)

/-- No byte of a word is a slash or a zero. -/
def Names (cs : List (List UInt8)) : Prop := ∀ c ∈ cs, 47 ∉ c ∧ 0 ∉ c

/-- The variables at the head of the loop: the text is what was kept and what is left, no slash is
    between `p` and what is left, and `q` is the slash of the last component that was kept. -/
structure Head (kept cs : List (List UInt8)) (s : Escape) : Prop where
  names : Names (kept ++ cs)
  text : ∃ junk, s.m = render 47 kept ++ (render 47 cs ++ 0 :: junk)
  len : s.len = (render 47 kept).length + (render 47 cs).length
  p : ∃ front word, render 47 kept = front ++ word ∧ s.p = front.length ∧ 47 ∉ word
  q : s.q = (render 47 kept.dropLast).length

variable {kept cs rest : List (List UInt8)} {c d front word : List UInt8} {s : Escape}

/-! ### The block -/

theorem zero_not_mem_render (h : Names cs) : 0 ∉ render 47 cs := by
  simp only [render, mem_flatMap, not_exists, not_and]
  intro c hc h0
  rcases mem_cons.mp h0 with h0 | h0
  · exact absurd h0 (by decide)
  · exact (h c hc).2 h0

theorem readAt_append (front l : List UInt8) (k : Nat) :
    readAt (front ++ l) (front.length + k) = readAt l k := by
  rw [readAt, getElem?_append_right (by omega), Nat.add_sub_cancel_left]
  rfl

theorem string_append (h : 0 ∉ front) (junk : List UInt8) :
    string (front ++ 0 :: junk) = front := by
  induction front with
  | nil => rfl
  | cons a front ih =>
    have ha : a ≠ 0 := fun h0 => h (by simp [h0])
    rw [string, cons_append, takeWhile_cons_of_pos (by simpa using ha)]
    exact congrArg _ (ih fun h0 => h (by simp [h0]))

theorem pull (front old xs junk : List UInt8) : ∃ m' junk',
    move (front ++ (old ++ (xs ++ 0 :: junk))) front.length (front.length + old.length)
      xs.length = .returns m' ∧
    write m' (front.length + xs.length) [0] = .returns (front ++ (xs ++ 0 :: junk')) := by
  obtain ⟨left, hleft, hmove⟩ := move_append front old xs (0 :: junk)
  obtain ⟨z, left, rfl⟩ : ∃ z l, left = z :: l := by
    cases left with
    | nil => simp at hleft
    | cons z l => exact ⟨z, l, rfl⟩
  have hwrite := write_append (front ++ xs) left (show [z].length = [(0 : UInt8)].length from rfl)
  simp only [append_assoc, length_append] at hwrite
  exact ⟨_, left, hmove, hwrite⟩

theorem lastSlash_append (hword : 47 ∉ word) :
    ∀ front, lastSlash (front ++ 47 :: word) = some front.length := by
  have hnone : ∀ w : List UInt8, 47 ∉ w → lastSlash w = none := by
    intro w
    induction w with
    | nil => exact fun _ => rfl
    | cons a w ih =>
      intro hw
      have ha : a ≠ 47 := fun h => hw (by simp [h])
      simp only [lastSlash, ih fun h => hw (by simp [h]), if_neg ha]
  intro front
  induction front with
  | nil => simp only [nil_append, lastSlash, hnone word hword, if_true, length_nil]
  | cons a front ih => simp only [cons_append, lastSlash, ih, length_cons]

theorem lastSlash_render (h : Names kept) :
    (lastSlash (render 47 kept)).getD 0 = (render 47 kept.dropLast).length := by
  rcases eq_nil_or_concat kept with rfl | ⟨ks, c, rfl⟩
  · rfl
  have hc := (h c (by simp)).1
  rw [concat_eq_append, render_append, render_cons, render_nil, append_nil,
    lastSlash_append hc, dropLast_concat, Option.getD_some]

theorem render_dropLast (kept : List (List UInt8)) :
    ∃ old, render 47 kept = render 47 kept.dropLast ++ old ∧ (old = [] ∨ ∃ w, old = 47 :: w) := by
  rcases eq_nil_or_concat kept with rfl | ⟨ks, c, rfl⟩
  · exact ⟨[], rfl, .inl rfl⟩
  refine ⟨47 :: c, ?_, .inr ⟨c, rfl⟩⟩
  rw [concat_eq_append, render_append, dropLast_concat, render_cons, render_nil,
    append_nil]

/-! ### The next slash -/

theorem strchrSlash_append (hfront : s.p = front.length) (hword : ∀ a ∈ word, a ≠ 47 ∧ a ≠ 0)
    {x : UInt8} (hx : x = 47 ∨ x = 0) {l : List UInt8} (hm : s.m = front ++ (word ++ x :: l)) :
    strchrSlash s.m s.p =
      .returns (if x = 47 then some (front.length + word.length) else none) := by
  have hx' : s.m[front.length + word.length]? = some x := by
    rw [hm, getElem?_append_right (by omega), Nat.add_sub_cancel_left,
      getElem?_append_right (le_rfl), Nat.sub_self]
    rfl
  have hlen : front.length + word.length < s.m.length := (List.getElem?_eq_some_iff.mp hx').1
  have hfirst : First s.m (fun c => c == 47 || c == 0) front.length s.m.length
      (front.length + word.length) := by
    refine ⟨by omega, by omega, ?_, fun _ => ⟨x, hx', by rcases hx with rfl | rfl <;> rfl⟩⟩
    intro k y hk hkj hy
    have hky : word[k - front.length]? = some y := by
      rw [hm, getElem?_append_right hk, getElem?_append_left (by omega)] at hy
      exact hy
    obtain ⟨h47, h0⟩ := hword y (mem_of_getElem? hky)
    simp [h47, h0]
  have hfind := hfirst.find_eq hlen (s.m.length - front.length) (by omega)
  rw [strchrSlash, hfront, hfind, returns_bind, readAt_of_getElem? hx',
    returns_bind]

/-- **The next slash** is the one before what is left. -/
theorem Head.strchrSlash_eq (h : Head kept cs s) :
    strchrSlash s.m s.p =
      .returns (if cs = [] then none else some (render 47 kept).length) := by
  obtain ⟨front, word, hk, hp, hword⟩ := h.p
  obtain ⟨junk, hm⟩ := h.text
  have hzero := zero_not_mem_render fun c hc => h.names c (mem_append_left cs hc)
  rw [hk] at hzero hm
  have hall : ∀ a ∈ word, a ≠ 47 ∧ a ≠ 0 := by
    intro a ha
    exact ⟨fun h47 => hword (h47 ▸ ha), fun h0 => hzero (by simp [← h0, ha])⟩
  cases cs with
  | nil =>
    rw [append_assoc] at hm
    exact strchrSlash_append hp hall (.inr rfl) hm
  | cons c cs =>
    rw [append_assoc] at hm
    rw [hk, length_append]
    exact strchrSlash_append hp hall (.inl rfl) hm

/-! ### Turns -/

theorem Head.push (h : Head kept (c :: rest) s) :
    Head (kept ++ [c]) rest
      { s with p := (render 47 kept).length + 1, q := (render 47 kept).length } where
  names := by simpa using h.names
  text := by
    obtain ⟨junk, hm⟩ := h.text
    exact ⟨junk, by simp [hm]⟩
  len := by
    have hlen := h.len
    simp at hlen ⊢
    omega
  p := ⟨render 47 kept ++ [47], c, by simp, by simp, (h.names c (by simp)).1⟩
  q := by rw [dropLast_concat]

theorem Head.drop (h : Head kept (c :: rest) s) {m : List UInt8} {len : Nat}
    (hm : ∃ junk, m = render 47 kept ++ (render 47 rest ++ 0 :: junk))
    (hlen : len = (render 47 kept).length + (render 47 rest).length) :
    Head kept rest { m := m, len := len, p := (render 47 kept).length, q := s.q } where
  names := fun d hd => h.names d (by
    rcases mem_append.mp hd with hd | hd
    · exact mem_append_left _ hd
    · exact mem_append_right _ (mem_cons_of_mem c hd))
  text := hm
  len := hlen
  p := ⟨render 47 kept, [], by simp, rfl, by simp⟩
  q := h.q

theorem Head.turn_name (h : Head kept (c :: rest) s) (hc : c ≠ [] ∨ rest = [])
    (hdot : c ≠ dot ∨ rest = []) (hdotdot : c ≠ dotdot) :
    ∃ s', escapeTurn { s with p := (render 47 kept).length } = .returns (.goesOn s') ∧
      Head (kept ++ [c]) rest s' := by
  obtain ⟨junk, hm⟩ := h.text
  have hname : ∀ a ∈ c, a ≠ 47 ∧ a ≠ 0 := by
    obtain ⟨h47, h0⟩ := h.names c (by simp)
    exact fun a ha => ⟨fun h => h47 (h ▸ ha), fun h => h0 (h ▸ ha)⟩
  have hread : ∀ k x, (render 47 (c :: rest) ++ 0 :: junk)[k]? = some x →
      readAt s.m ((render 47 kept).length + k) = .returns x := by
    intro k x hx
    rw [hm, readAt_append, readAt_of_getElem? hx]
  refine ⟨_, ?_, h.push⟩
  rcases c with _ | ⟨a, c⟩
  · obtain rfl := hc.resolve_left (by simp)
    simp [escapeTurn, hread 1 0 rfl]
  have ha := hname a (by simp)
  by_cases ha' : a = 46
  swap
  · simp [escapeTurn, hread 1 a rfl, ha.1, ha']
  subst ha'
  rcases c with _ | ⟨b, c⟩
  · obtain rfl := hdot.resolve_left (by simp [dot])
    simp [escapeTurn, hread 1 46 rfl, hread 2 0 rfl]
  have hb := hname b (by simp)
  by_cases hb' : b = 46
  swap
  · simp [escapeTurn, hread 1 46 rfl, hread 2 b rfl, hb.1, hb']
  subst hb'
  rcases c with _ | ⟨e, c⟩
  · exact absurd rfl hdotdot
  have he := hname e (by simp)
  simp [escapeTurn, hread 1 46 rfl, hread 2 46 rfl, hread 3 e rfl, he.1, he.2]

/-- **`//`** -/
theorem Head.turn_empty (h : Head kept ([] :: d :: rest) s) :
    ∃ s', escapeTurn { s with p := (render 47 kept).length } = .returns (.goesOn s') ∧
      Head kept (d :: rest) s' := by
  obtain ⟨junk, hm⟩ := h.text
  obtain ⟨m', junk', hmove, hwrite⟩ := pull (render 47 kept) [47] (render 47 (d :: rest)) junk
  have hread : readAt s.m ((render 47 kept).length + 1) = .returns 47 := by
    rw [hm, readAt_append]
    rfl
  have hlen : s.len - 1 = (render 47 kept).length + (render 47 (d :: rest)).length := by
    rw [h.len]
    simp
  refine ⟨_, ?_, h.drop ⟨junk', rfl⟩ hlen⟩
  have hm' : s.m = render 47 kept ++ ([47] ++ (render 47 (d :: rest) ++ 0 :: junk)) := hm
  rw [← hm', length_singleton] at hmove
  simp only [escapeTurn, hread, returns_bind, if_true, hlen, Nat.add_sub_cancel_left,
    hmove, hwrite]

/-- **`/./`**: the next component is kept without a look at it. -/
theorem Head.turn_dot (h : Head kept (dot :: d :: rest) s) :
    ∃ s', escapeTurn { s with p := (render 47 kept).length } = .returns (.goesOn s') ∧
      Head (kept ++ [d]) rest s' := by
  obtain ⟨junk, hm⟩ := h.text
  obtain ⟨m', junk', hmove, hwrite⟩ := pull (render 47 kept) [47, 46] (render 47 (d :: rest)) junk
  have hread1 : readAt s.m ((render 47 kept).length + 1) = .returns 46 := by
    rw [hm, readAt_append]
    rfl
  have hread2 : readAt s.m ((render 47 kept).length + 2) = .returns 47 := by
    rw [hm, readAt_append]
    rfl
  have hlen : s.len - 2 = (render 47 kept).length + (render 47 (d :: rest)).length := by
    rw [h.len]
    simp [dot]
    omega
  refine ⟨_, ?_, (h.drop ⟨junk', rfl⟩ hlen).push⟩
  have hm' : s.m = render 47 kept ++ ([47, 46] ++ (render 47 (d :: rest) ++ 0 :: junk)) := hm
  rw [← hm', show [(47 : UInt8), 46].length = 2 from rfl] at hmove
  simp only [escapeTurn, hread1, hread2, returns_bind, if_true, hlen,
    Nat.add_sub_cancel_left, hmove, hwrite, if_neg (show ¬(46 : UInt8) = 47 by decide),
    if_neg (show ¬(47 : UInt8) = 46 by decide)]

/-- **`/../`**: the last component that was kept is taken back. -/
theorem Head.turn_parent (h : Head kept (dotdot :: d :: rest) s) :
    ∃ s', escapeTurn { s with p := (render 47 kept).length } = .returns (.goesOn s') ∧
      Head kept.dropLast (d :: rest) s' := by
  obtain ⟨junk, hm⟩ := h.text
  obtain ⟨old, hold, -⟩ := render_dropLast kept
  have hnames : Names (kept.dropLast ++ d :: rest) := fun e he => h.names e (by
    rcases mem_append.mp he with he | he
    · exact mem_append_left _ ((dropLast_sublist kept).subset he)
    · exact mem_append_right _ (mem_cons_of_mem _ he))
  have hkept : Names kept.dropLast := fun e he => hnames e (mem_append_left _ he)
  obtain ⟨m', junk', hmove, hwrite⟩ :=
    pull (render 47 kept.dropLast) (old ++ [47, 46, 46]) (render 47 (d :: rest)) junk
  have hread : ∀ k x, (render 47 (dotdot :: d :: rest) ++ 0 :: junk)[k]? = some x →
      readAt s.m ((render 47 kept).length + k) = .returns x := by
    intro k x hx
    rw [hm, readAt_append, readAt_of_getElem? hx]
  have hm' : s.m = render 47 kept.dropLast ++
      ((old ++ [47, 46, 46]) ++ (render 47 (d :: rest) ++ 0 :: junk)) := by
    rw [hm, hold]
    simp [dotdot]
  have hplace : (render 47 kept.dropLast).length + (old ++ [47, 46, 46]).length =
      (render 47 kept).length + 3 := by
    rw [hold]
    simp
    omega
  have hlen : s.len - ((render 47 kept).length + 3 - s.q) =
      (render 47 kept.dropLast).length + (render 47 (d :: rest)).length := by
    rw [h.len, h.q]
    simp [dotdot]
    omega
  rw [← hm', hplace] at hmove
  have hlast := lastSlash_render hkept
  have hzero := zero_not_mem_render hkept
  refine ⟨⟨_, _, _, _⟩, ?_, hnames, ⟨junk', rfl⟩, hlen,
    ⟨render 47 kept.dropLast, [], by simp, h.q, by simp⟩, hlast⟩
  generalize hk : render 47 kept.dropLast = front at *
  generalize hr : d ++ (render 47 rest ++ 0 :: junk') = behind
  have hshape : render 47 (d :: rest) ++ 0 :: junk' = 47 :: behind := by
    rw [← hr]
    simp
  rw [hshape] at hwrite ⊢
  -- the slash at `q` is a zero for as long as the one before it is looked for
  have htmp : readAt (front ++ 47 :: behind) front.length = .returns 47 := readAt_append _ _ 0
  have hcut : write (front ++ 47 :: behind) front.length [0] = .returns (front ++ 0 :: behind) :=
    write_append front behind (show [(47 : UInt8)].length = [(0 : UInt8)].length from rfl)
  have hback : write (front ++ 0 :: behind) front.length [47] = .returns (front ++ 47 :: behind) :=
    write_append front behind (show [(0 : UInt8)].length = [(47 : UInt8)].length from rfl)
  have hfound : strrchrSlash (front ++ 0 :: behind) = .returns (lastSlash front) := by
    have hstring := string_append hzero behind
    rw [strrchrSlash, if_pos (by simp)]
    exact congrArg (fun l => Outcome.returns (lastSlash l)) hstring
  have hq : s.q = front.length := h.q.trans (congrArg _ hk)
  rw [hq] at hlen
  simp only [escapeTurn, hread 1 46 rfl, hread 2 46 rfl, hread 3 47 rfl, returns_bind,
    removeParent, hq, hlen, Nat.add_sub_cancel_left, hmove, hwrite, htmp, hcut, hfound, hback]
  rfl

/-- **`/..` at the end** -/
theorem Head.turn_last (h : Head kept [dotdot] s) :
    ∃ m, escapeTurn { s with p := (render 47 kept).length } = .returns (.breaks m) ∧
      string m = render 47 (kept.dropLast ++ [[]]) := by
  obtain ⟨junk, hm⟩ := h.text
  obtain ⟨old, hold, hstart⟩ := render_dropLast kept
  have hread : ∀ k x, (render 47 [dotdot] ++ 0 :: junk)[k]? = some x →
      readAt s.m ((render 47 kept).length + k) = .returns x := by
    intro k x hx
    rw [hm, readAt_append, readAt_of_getElem? hx]
  have hkept : Names (kept.dropLast ++ [[]]) := by
    intro e he
    rcases mem_append.mp he with he | he
    · exact h.names e (mem_append_left _ ((dropLast_sublist kept).subset he))
    · simp [mem_singleton.mp he]
  have hfront : (render 47 (kept.dropLast ++ [[]])) = render 47 kept.dropLast ++ [47] := by simp
  -- the path is cut behind the slash at `q`
  obtain ⟨z, behind, hcut⟩ : ∃ z behind, s.m = render 47 (kept.dropLast ++ [[]]) ++
      ([z] ++ behind) := by
    rw [hm, hold]
    rcases hstart with rfl | ⟨w, rfl⟩
    · exact ⟨46, 46 :: 0 :: junk, by simp [dotdot]⟩
    cases w with
    | nil => exact ⟨47, 46 :: 46 :: 0 :: junk, by simp [dotdot]⟩
    | cons z w => exact ⟨z, w ++ 47 :: 46 :: 46 :: 0 :: junk, by simp [dotdot]⟩
  have hlen : s.len - ((render 47 kept).length + 2 - s.q) =
      (render 47 (kept.dropLast ++ [[]])).length := by
    rw [h.len, h.q, hold]
    simp [dotdot]
    omega
  have hwrite := write_append (render 47 (kept.dropLast ++ [[]])) behind
    (show [z].length = [(0 : UInt8)].length from rfl)
  rw [← hcut] at hwrite
  refine ⟨_, ?_, string_append (zero_not_mem_render hkept) behind⟩
  simp only [escapeTurn, hread 1 46 rfl, hread 2 46 rfl, hread 3 0 rfl, returns_bind,
    hlen, hwrite, if_neg (show ¬(46 : UInt8) = 47 by decide),
    if_neg (show ¬(0 : UInt8) = 47 by decide), if_true, singleton_append]

/-! ### Runs -/

/-- **The loop ends with what the walk over the components keeps.** -/
theorem Head.escapeLoop_ends : ∀ n kept cs s, cs.length ≤ n → Head kept cs s →
    ∃ m, Outcome.Ends (fun fuel => escapeLoop fuel s) m ∧
      string m = render 47 (escapeComponents kept cs) := by
  have hturn : ∀ {kept c rest s}, Head kept (c :: rest) s → ∀ fuel,
      escapeLoop (fuel + 1) s = escapeTurn { s with p := (render 47 kept).length } >>= fun t =>
        match t with
        | .breaks m => .returns m
        | .goesOn s => escapeLoop fuel s := by
    intro kept c rest s h fuel
    simp only [escapeLoop, h.strchrSlash_eq, reduceCtorEq, if_false, returns_bind]
  have hend : ∀ {kept s}, Head kept [] s → ∃ m, Outcome.Ends (fun fuel => escapeLoop fuel s) m ∧
      string m = render 47 kept := by
    intro kept s h
    obtain ⟨junk, hm⟩ := h.text
    refine ⟨s.m, (ends_const s.m).succ fun fuel => ?_, ?_⟩
    · rw [escapeLoop, h.strchrSlash_eq, if_pos rfl, returns_bind]
    · rw [hm]
      exact string_append (zero_not_mem_render fun c hc => h.names c (by simp [hc])) junk
  intro n
  induction n with
  | zero =>
    intro kept cs s hn h
    obtain rfl : cs = [] := length_eq_zero_iff.mp (by omega)
    simpa only [escapeComponents] using hend h
  | succ n ih =>
    intro kept cs s hn h
    have hgo : ∀ {kept' cs'}, cs'.length ≤ n →
        (∃ s', escapeTurn { s with p := (render 47 kept).length } = .returns (.goesOn s') ∧
          Head kept' cs' s') → cs ≠ [] →
        ∃ m, Outcome.Ends (fun fuel => escapeLoop fuel s) m ∧
          string m = render 47 (escapeComponents kept' cs') := by
      intro kept' cs' hlength ⟨s', hs', hhead⟩ hne
      obtain ⟨c, rest, rfl⟩ := exists_cons_of_ne_nil hne
      obtain ⟨m, hends, hm⟩ := ih kept' cs' s' hlength hhead
      refine ⟨m, hends.succ fun fuel => ?_, hm⟩
      rw [hturn h, hs', returns_bind]
    rcases cs with _ | ⟨c, _ | ⟨d, rest⟩⟩
    · simpa only [escapeComponents] using hend h
    · by_cases hc : c = dotdot
      · subst hc
        obtain ⟨m, hbreak, hm⟩ := h.turn_last
        refine ⟨m, (ends_const m).succ fun fuel => ?_, by rw [hm]; rfl⟩
        rw [hturn h, hbreak, returns_bind]
      · have hrun := hgo (show ([] : List (List UInt8)).length ≤ n from Nat.zero_le n)
          (h.turn_name (.inr rfl) (.inr rfl) hc) (by simp)
        rw [escapeComponents, if_neg hc]
        simpa only [escapeComponents] using hrun
    · simp only [length_cons] at hn
      rw [escapeComponents]
      by_cases h0 : c = []
      · subst h0
        exact hgo (by simp; omega) h.turn_empty (by simp)
      rw [if_neg h0]
      by_cases h2 : c = dotdot
      · subst h2
        exact hgo (by simp; omega) h.turn_parent (by simp)
      rw [if_neg h2]
      by_cases h1 : c = dot
      · subst h1
        exact hgo (by omega) h.turn_dot (by simp)
      rw [if_neg h1]
      exact hgo (by simp; omega) (h.turn_name (.inl h0) (.inl h1) h2) (by simp)

end Eina.FilePath
