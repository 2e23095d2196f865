/-
The blocks of a free queue as one sequence of items.

`Holds fq bs` says that the blocks `bs` are those of the queue, in the order of their
links.  The items that were not processed are read off them (`queued`): an addition
puts one at the end, and the end of a process takes the first one away.
-/
import Efl.Lib.Forward
import Efl.Eina.FreeQ.Basic

namespace Eina.FreeQ

open Forward List Option Function

variable {fq fq' : FreeQ} {bs : List (Addr × Block)} {it : Item} (xs ys : List (Addr × Block))

def nextOf (fq : FreeQ) (a : Addr) : Option (Option Addr) := (fq.block a).map Block.next

def addrs (bs : List (Addr × Block)) : List Addr := bs.map Prod.fst

/-- The items of a block that were not processed. -/
def Block.rest (b : Block) : List Item := b.items.drop b.start

def queued (bs : List (Addr × Block)) : List Item := bs.flatMap fun e => e.2.rest

def total (items : List Item) : Nat := (items.map fun it => it.size.toNat).sum

/-- The list of blocks. -/
structure Links (fq : FreeQ) (bs : List (Addr × Block)) : Prop where
  seg : Seg fq.nextOf fq.blocks (addrs bs) none
  content : ∀ e ∈ bs, fq.block e.1 = some e.2
  nodup : (addrs bs).Nodup
  last : fq.blockLast = (addrs bs).getLast?

/-- The queue between two processes. -/
structure Holds (fq : FreeQ) (bs : List (Addr × Block)) : Prop extends Links fq bs where
  /-- Every block has an item that was not processed. -/
  some : ∀ e ∈ bs, e.2.start < e.2.items.length
  count : fq.count = (queued bs).length
  total : fq.memTotal.toNat = total (queued bs)

/-- What no addition and no process changes. -/
structure SameLimits (fq fq' : FreeQ) : Prop where
  countMax : fq'.countMax = fq.countMax
  memMax : fq'.memMax = fq.memMax
  postponed : fq'.postponed = fq.postponed
  bypass : fq'.bypass = fq.bypass

theorem addrs_append : addrs (xs ++ ys) = addrs xs ++ addrs ys :=
  map_append

theorem queued_append : queued (xs ++ ys) = queued xs ++ queued ys :=
  flatMap_append

theorem queued_cons (e : Addr × Block) (bs : List (Addr × Block)) :
    queued (e :: bs) = e.2.rest ++ queued bs := rfl

theorem total_append (xs ys : List Item) : total (xs ++ ys) = total xs + total ys := by
  rw [total, total, total, map_append, sum_append]

theorem total_cons (it : Item) (xs : List Item) : total (it :: xs) = it.size.toNat + total xs := by
  rw [total, total, map_cons, sum_cons]

variable {b : Block}

theorem Block.rest_eq (h : b.start < b.items.length) :
    ∃ it, b.items[b.start]? = some it ∧
      b.rest = it :: { b with start := b.start + 1 }.rest := by
  refine ⟨b.items[b.start], getElem?_eq_getElem h, ?_⟩
  rw [rest, drop_eq_getElem_cons]
  rfl

theorem Block.rest_push (h : b.start ≤ b.items.length) (it : Item) :
    { b with items := b.items ++ [it] }.rest = b.rest ++ [it] :=
  drop_append_of_le_length h

variable {a : Addr} {front : List (Addr × Block)}

theorem Links.touch {l r : List (Addr × Block)} {b' : Block} (h : Links fq (l ++ (a, b) :: r))
    (hnext : b'.next = b.next) (hblock : fq'.block = update fq.block a (some b'))
    (hblocks : fq'.blocks = fq.blocks) (hlast : fq'.blockLast = fq.blockLast) :
    Links fq' (l ++ (a, b') :: r) := by
  have haddrs : addrs (l ++ (a, b') :: r) = addrs (l ++ (a, b) :: r) := by
    simp [addrs]
  have hb : fq.block a = some b := h.content (a, b) (by simp)
  have hnexts : fq'.nextOf = fq.nextOf := by
    funext x
    by_cases hx : x = a
    · rw [nextOf, nextOf, hblock, hx, update_self, hb, map_some, map_some,
        hnext]
    · rw [nextOf, nextOf, hblock, update_of_ne hx]
  have hnd := h.nodup
  rw [addrs, map_append, map_cons, nodup_middle, nodup_cons,
    ← map_append] at hnd
  refine ⟨?_, ?_, ?_, ?_⟩
  · rw [haddrs, hnexts, hblocks]
    exact h.seg
  · intro e he
    have hcases : e = (a, b') ∨ e ∈ l ++ r := by
      simp only [mem_append, mem_cons] at he ⊢
      tauto
    rcases hcases with rfl | he
    · rw [hblock, update_self]
    have hmem : e.1 ∈ (l ++ r).map Prod.fst := mem_map_of_mem he
    have hne : e.1 ≠ a := fun heq => hnd.1 (heq ▸ hmem)
    rw [hblock, update_of_ne hne]
    refine h.content e ?_
    simp only [mem_append] at he ⊢
    tauto
  · rw [haddrs]
    exact h.nodup
  · rw [haddrs, hlast]
    exact h.last

theorem Links.split_last (h : Links fq bs) (hbs : bs ≠ []) :
    ∃ front a b, bs = front ++ [(a, b)] ∧ fq.blockLast = Option.some a ∧
      fq.block a = Option.some b := by
  rcases eq_nil_or_concat bs with rfl | ⟨front, ⟨a, b⟩, rfl⟩
  · exact absurd rfl hbs
  rw [concat_eq_append] at h ⊢
  refine ⟨front, a, b, rfl, ?_, h.content (a, b) (by simp)⟩
  rw [h.last, addrs, map_append]
  exact getLast?_concat

theorem Links.blockLast_eq_none (h : Links fq bs) : fq.blockLast = none ↔ bs = [] := by
  rw [h.last, getLast?_eq_none_iff, addrs, map_eq_nil_iff]

theorem Links.link {x : Addr} (h : Links fq (front ++ [(x, b)]))
    (hstray : ∀ e ∈ front ++ [(x, b)], e.1 ≠ a)
    (hblock : fq'.block = update (update fq.block a (Option.some ⟨0, [], none⟩)) x
      (Option.some { b with next := Option.some a }))
    (hblocks : fq'.blocks = fq.blocks) (hlast : fq'.blockLast = Option.some a) :
    Links fq' (front ++ [(x, { b with next := Option.some a })] ++ [(a, ⟨0, [], none⟩)]) := by
  have hxa : x ≠ a := hstray (x, b) (by simp)
  have hnd := h.nodup
  rw [addrs, map_append, nodup_append] at hnd
  have hother : ∀ e ∈ front, fq'.block e.1 = fq.block e.1 := by
    intro e he
    have hex : e.1 ≠ x := hnd.2.2 e.1 (mem_map_of_mem he) x (by simp)
    have hea : e.1 ≠ a := hstray e (mem_append_left _ he)
    rw [hblock, update_of_ne hex, update_of_ne hea]
  have hbx : fq'.block x = some { b with next := some a } := by
    rw [hblock, update_self]
  have hba : fq'.block a = some ⟨0, [], none⟩ := by
    rw [hblock, update_of_ne hxa.symm, update_self]
  refine ⟨?_, ?_, ?_, ?_⟩
  · have hseg := h.seg
    rw [addrs_append, seg_append] at hseg
    obtain ⟨m, hl, rfl, n, hn, rfl⟩ := hseg
    rw [addrs_append, addrs_append, seg_append, hblocks]
    refine ⟨some a, seg_append.mpr ⟨some x, hl.congr ?_, rfl, some a, ?_, rfl⟩,
      rfl, none, ?_, rfl⟩
    · intro y hy
      obtain ⟨e, he, rfl⟩ := mem_map.mp hy
      rw [nextOf, nextOf, hother e he]
    · rw [nextOf, hbx]
      rfl
    · rw [nextOf, hba]
      rfl
  · intro e he
    simp only [mem_append, mem_singleton] at he
    rcases he with (he | rfl) | rfl
    · rw [hother e he]
      exact h.content e (mem_append_left _ he)
    · exact hbx
    · exact hba
  · have haddrs : addrs (front ++ [(x, { b with next := some a })] ++
        [(a, ⟨0, [], none⟩)]) = addrs (front ++ [(x, b)]) ++ [a] := by
      simp [addrs]
    rw [haddrs, nodup_append]
    refine ⟨h.nodup, by simp, ?_⟩
    intro y hy z hz
    obtain ⟨e, he, rfl⟩ := mem_map.mp hy
    rw [mem_singleton.mp hz]
    exact hstray e he
  · rw [hlast]
    simp [addrs]

/-- **A block is put behind the last one.** -/
theorem Links.blockAppend (h : Links fq bs) (ha : fq.block a = none) :
    ∃ fq' bs', fq.blockAppend (Option.some a) = Option.some (fq', true) ∧
      Links fq' (bs' ++ [(a, ⟨0, [], none⟩)]) ∧ queued bs' = queued bs ∧
      ((∀ e ∈ bs, e.2.start < e.2.items.length) → ∀ e ∈ bs', e.2.start < e.2.items.length) ∧
      SameLimits fq fq' ∧ fq'.count = fq.count ∧ fq'.memTotal = fq.memTotal ∧
      (bs ≠ [] → fq'.blocks = fq.blocks) := by
  have hstray : ∀ e ∈ bs, e.1 ≠ a := by
    intro e he heq
    have hsome := h.content e he
    rw [heq, ha] at hsome
    simp at hsome
  rw [FreeQ.blockAppend]
  by_cases hbs : bs = []
  · subst hbs
    have hblocks : fq.blocks = none := h.seg
    simp only [hblocks]
    refine ⟨_, [], rfl, ⟨⟨rfl, none, ?_, rfl⟩, ?_, by simp [addrs], rfl⟩, rfl, fun h => h,
      ⟨rfl, rfl, rfl, rfl⟩, rfl, rfl, fun hne => absurd rfl hne⟩
    · simp [nextOf]
    · intro e he
      obtain rfl := mem_singleton.mp he
      simp
  · obtain ⟨front, x, b, rfl, hlast, hb⟩ := h.split_last hbs
    have hxa : x ≠ a := hstray (x, b) (by simp)
    obtain ⟨first, hblocks⟩ : ∃ first, fq.blocks = some first := by
      cases front with
      | nil => exact ⟨_, h.seg.1⟩
      | cons e front => exact ⟨_, h.seg.1⟩
    simp only [hblocks, hlast, bind_some, setNext, update_of_ne hxa, hb]
    refine ⟨_, front ++ [(x, { b with next := some a })], rfl,
      h.link hstray rfl hblocks.symm rfl, ?_, ?_, ⟨rfl, rfl, rfl, rfl⟩, rfl, rfl,
      fun _ => rfl⟩
    · rw [queued_append, queued_append]
      rfl
    · intro hsome e he
      rcases mem_append.mp he with he | he
      · exact hsome e (mem_append_left _ he)
      · obtain rfl := mem_singleton.mp he
        exact hsome (x, b) (by simp)

/-- **An item is put at the end.** -/
theorem Links.itemAppend (h : Links fq (front ++ [(a, b)]))
    (it : Item) :
    ∃ fq', fq.itemAppend it = Option.some fq' ∧
      Links fq' (front ++ [(a, { b with items := b.items ++ [it] })]) ∧
      SameLimits fq fq' ∧ fq'.count = fq.count + 1 ∧ fq'.memTotal = fq.memTotal + it.size ∧
      fq'.blocks = fq.blocks := by
  have hlast : fq.blockLast = some a := by
    rw [h.last, addrs, map_append]
    exact getLast?_concat
  have hb : fq.block a = some b := h.content (a, b) (by simp)
  have hcall : fq.itemAppend it = some { fq with
      block := update fq.block a (some { b with items := b.items ++ [it] })
      count := fq.count + 1
      memTotal := fq.memTotal + it.size } := by
    rw [FreeQ.itemAppend, hlast, bind_some, hb, map_some]
  exact ⟨_, hcall, h.touch rfl rfl rfl rfl, ⟨rfl, rfl, rfl, rfl⟩, rfl, rfl, rfl⟩

theorem SameLimits.trans {fq'' : FreeQ} (h : SameLimits fq fq') (h' : SameLimits fq' fq'') :
    SameLimits fq fq'' :=
  ⟨h'.countMax.trans h.countMax, h'.memMax.trans h.memMax, h'.postponed.trans h.postponed,
    h'.bypass.trans h.bypass⟩

/-- The same blocks and counters. -/
structure SameItems (fq fq' : FreeQ) : Prop where
  block : fq'.block = fq.block
  blocks : fq'.blocks = fq.blocks
  blockLast : fq'.blockLast = fq.blockLast
  count : fq'.count = fq.count
  memTotal : fq'.memTotal = fq.memTotal

theorem Holds.same (h : Holds fq bs) (hsame : SameItems fq fq') : Holds fq' bs := by
  have hnext : fq'.nextOf = fq.nextOf := by
    funext a
    rw [nextOf, nextOf, hsame.block]
  refine ⟨⟨?_, ?_, h.nodup, hsame.blockLast.trans h.last⟩, h.some, hsame.count.trans h.count, ?_⟩
  · rw [hnext, hsame.blocks]
    exact h.seg
  · rw [hsame.block]
    exact h.content
  · rw [hsame.memTotal]
    exact h.total

theorem queued_push (front : List (Addr × Block)) (a : Addr) (hb : b.start ≤ b.items.length)
    (it : Item) :
    queued (front ++ [(a, { b with items := b.items ++ [it] })]) =
      queued (front ++ [(a, b)]) ++ [it] := by
  have hone : ∀ c : Block, queued [(a, c)] = c.rest := fun c => append_nil c.rest
  rw [queued_append, queued_append, hone, hone, Block.rest_push hb, append_assoc]

theorem Holds.needsBlock (h : Holds fq bs) : ∃ needs, fq.needsBlock = Option.some needs ∧
    (needs = false → bs ≠ []) := by
  rw [FreeQ.needsBlock]
  by_cases hbs : bs = []
  · rw [h.blockLast_eq_none.mpr hbs]
    exact ⟨true, rfl, fun hf => absurd hf (by simp)⟩
  obtain ⟨front, a, b, -, hlast, hb⟩ := h.split_last hbs
  simp only [hlast, hb]
  exact ⟨_, rfl, fun _ => hbs⟩

/-- **An addition puts its item at the end**, in a new block if it needs one. -/
theorem Holds.push (h : Holds fq bs) {needs : Bool} {mem : Option Addr}
    (hneeds : needs = false → bs ≠ [])
    (hmem : needs = true → ∃ a, mem = Option.some a ∧ fq.block a = none)
    (hfit : fq.memTotal.toNat + it.size.toNat < 2 ^ 64) :
    ∃ fq1 fq' bs', (if needs then fq.blockAppend mem else Option.some (fq, true)) =
        Option.some (fq1, true) ∧ fq1.count = fq.count ∧ fq1.itemAppend it = Option.some fq' ∧
      Holds fq' bs' ∧ queued bs' = queued bs ++ [it] ∧ SameLimits fq fq' ∧
      (bs ≠ [] → fq'.blocks = fq.blocks) := by
  have hnew : ∀ {fq'' : FreeQ} {bs' : List (Addr × Block)}, queued bs' = queued bs ++ [it] →
      fq''.count = fq.count + 1 → fq''.memTotal = fq.memTotal + it.size →
      fq''.count = (queued bs').length ∧ fq''.memTotal.toNat = FreeQ.total (queued bs') := by
    intro fq'' bs' hq hc ht
    rw [hq, hc, ht, BitVec.toNat_add, Nat.mod_eq_of_lt hfit, h.total, h.count]
    rw [FreeQ.total, FreeQ.total]
    simp
  cases needs with
  | false =>
    obtain ⟨front, a, b, rfl, hlast, hb⟩ := h.split_last (hneeds rfl)
    have hsome : b.start < b.items.length := h.some (a, b) (by simp)
    obtain ⟨fq', hcall, hlinks, hsame, hc, ht, hblocks⟩ := h.toLinks.itemAppend it
    have hq := queued_push front a (Nat.le_of_lt hsome) it
    obtain ⟨hc, ht⟩ := hnew hq hc ht
    refine ⟨fq, fq', _, rfl, rfl, hcall, ⟨hlinks, ?_, hc, ht⟩, hq, hsame, fun _ => hblocks⟩
    intro e he
    rcases mem_append.mp he with he | he
    · exact h.some e (mem_append_left _ he)
    obtain rfl := mem_singleton.mp he
    simp only [length_append]
    omega
  | true =>
    obtain ⟨a, rfl, ha⟩ := hmem rfl
    obtain ⟨fq1, bs1, happend, hlinks1, hq1, hsome1, hsame1, hc1, ht1, hblocks1⟩ :=
      h.toLinks.blockAppend ha
    obtain ⟨fq', hcall, hlinks, hsame, hc, ht, hblocks⟩ := hlinks1.itemAppend it
    have hq : queued (bs1 ++ [(a, ⟨0, [it], none⟩)]) = queued bs ++ [it] := by
      rw [queued_append, hq1]
      rfl
    obtain ⟨hc, ht⟩ := hnew hq (by rw [hc, hc1]) (by rw [ht, ht1])
    refine ⟨fq1, fq', _, happend, hc1, hcall, ⟨hlinks, ?_, hc, ht⟩, hq, hsame1.trans hsame, ?_⟩
    · intro e he
      rcases mem_append.mp he with he | he
      · exact hsome1 h.some e he
      · obtain rfl := mem_singleton.mp he
        exact Nat.zero_lt_one
    · intro hbs
      rw [hblocks, hblocks1 hbs]

theorem Holds.first (h : Holds fq bs) (hbs : bs ≠ []) :
    ∃ a it, fq.blocks = Option.some a ∧ processBegin fq = Option.some (Option.some (a, it)) ∧
      (queued bs).head? = Option.some it := by
  obtain ⟨⟨a, b⟩, r, rfl⟩ := exists_cons_of_ne_nil hbs
  have hblocks : fq.blocks = Option.some a := h.seg.1
  have hb : fq.block a = Option.some b := h.content (a, b) (by simp)
  obtain ⟨it, hit, hrest⟩ := Block.rest_eq (h.some (a, b) (by simp))
  refine ⟨a, it, hblocks, ?_, ?_⟩
  · simp only [processBegin, hblocks, hb, bind_some, hit, map_some]
  · rw [queued_cons, hrest]
    rfl

/-- **The first item is taken away**, and its block if it was the last one in it. -/
theorem Holds.processEnd (h : Holds fq bs) (ha : fq.blocks = Option.some a) :
    ∃ fq' bs', FreeQ.processEnd fq a = Option.some fq' ∧ Holds fq' bs' ∧
      queued bs' = (queued bs).tail ∧ SameLimits fq fq' := by
  have hbs : bs ≠ [] := by
    rintro rfl
    exact absurd (h.seg.symm.trans ha) (by simp)
  obtain ⟨⟨a', b⟩, r, rfl⟩ := exists_cons_of_ne_nil hbs
  have hblocks : fq.blocks = Option.some a' := h.seg.1
  obtain rfl : a' = a := some.inj (hblocks.symm.trans ha)
  have hb : fq.block a' = Option.some b := h.content (a', b) (by simp)
  have hsome : b.start < b.items.length := h.some (a', b) (by simp)
  obtain ⟨it, hit, hrest⟩ := Block.rest_eq hsome
  have hcount := h.count
  have htotal := h.total
  rw [queued_cons, hrest, cons_append, length_cons] at hcount
  rw [queued_cons, hrest, cons_append, total_cons] at htotal
  have hsub : (fq.memTotal - it.size).toNat =
      FreeQ.total ({ b with start := b.start + 1 }.rest ++ queued r) := by
    have hle : it.size ≤ fq.memTotal := by
      rw [BitVec.le_def]
      omega
    rw [BitVec.toNat_sub_of_le hle]
    omega
  have htail : (queued ((a', b) :: r)).tail = { b with start := b.start + 1 }.rest ++ queued r := by
    rw [queued_cons, hrest]
    rfl
  rw [FreeQ.processEnd, hb, bind_some, hit, map_some, htail]
  by_cases hlast : b.start + 1 = b.items.length
  · rw [if_pos hlast]
    have hnil : { b with start := b.start + 1 }.rest = [] :=
      drop_eq_nil_of_le (Nat.le_of_eq hlast.symm)
    rw [hnil, nil_append] at hcount hsub ⊢
    have hnd := h.nodup
    rw [addrs, map_cons, nodup_cons] at hnd
    have hne : ∀ e ∈ r, e.1 ≠ a' := by
      intro e he heq
      have hmem : e.1 ∈ r.map Prod.fst := mem_map_of_mem he
      exact hnd.1 (heq ▸ hmem)
    obtain ⟨-, n, hn, hseg⟩ := h.seg
    have hnext : n = b.next := by
      have hn : (fq.block a').map Block.next = Option.some n := hn
      rw [hb] at hn
      exact (some.inj hn).symm
    subst hnext
    refine ⟨_, r, rfl, ⟨⟨?_, ?_, hnd.2, ?_⟩, ?_, ?_, hsub⟩, rfl,
      ⟨rfl, rfl, rfl, rfl⟩⟩
    · refine hseg.congr ?_
      intro y hy
      obtain ⟨e, he, rfl⟩ := mem_map.mp hy
      simp only [nextOf, update_of_ne (hne e he)]
    · intro e he
      simp only [update_of_ne (hne e he)]
      exact h.content e (mem_cons_of_mem _ he)
    · cases r with
      | nil =>
        have hnone : b.next = none := hseg
        rw [if_pos hnone]
        rfl
      | cons e r =>
        have hsome : b.next = Option.some e.1 := hseg.1
        rw [if_neg (by simp [hsome]), h.last]
        rfl
    · exact fun e he => h.some e (mem_cons_of_mem _ he)
    · show fq.count - 1 = _
      omega
  · rw [if_neg hlast]
    have htouch : Links
        { fq with
          memTotal := fq.memTotal - it.size, count := fq.count - 1,
          block := update fq.block a' (Option.some { b with start := b.start + 1 }) }
        ([] ++ (a', { b with start := b.start + 1 }) :: r) :=
      Links.touch h.toLinks rfl rfl rfl rfl
    refine ⟨_, (a', { b with start := b.start + 1 }) :: r, rfl, ⟨htouch, ?_, ?_, hsub⟩, rfl,
      ⟨rfl, rfl, rfl, rfl⟩⟩
    · intro e he
      rcases mem_cons.mp he with rfl | he
      · show b.start + 1 < b.items.length
        omega
      · exact h.some e (mem_cons_of_mem _ he)
    · show fq.count - 1 = ({ b with start := b.start + 1 }.rest ++ queued r).length
      omega

end Eina.FreeQ
