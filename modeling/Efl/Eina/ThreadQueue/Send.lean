/-
Sending a message.

A send takes a block from the pool or from `malloc` if the last block of the chain has no room,
links it behind, and puts the message at the end of what is in the last block.
-/
import Efl.Eina.ThreadQueue.Inv

namespace Eina.ThreadQueue

open List Option Int
open Function (update update_self update_of_ne update_eq_self)

variable {R : Type} {q q' : ThreadQueue R} {blk fresh : Addr} {k : Nat} {front : List Nat}
  {parts init : List (Addr × List Nat)} {ids : List Nat} {size : Int} {b : Addr}

/-! ### Sizes -/

theorem int_eq {n : Int} (hlow : -2147483648 ≤ n) (hhigh : n < 2147483648) : int n = n := by
  exact bmod_eq_of_le_mul_two (by omega) (by omega)

theorem roundUp_spec (hlow : 4 ≤ size) (hhigh : size ≤ 2147483640) :
    0 < roundUp size ∧ size ≤ roundUp size ∧ roundUp size < 2147483648 := by
  unfold roundUp
  rw [int_eq (by omega) (by omega)]
  omega

/-! ### A new block -/

/-- Block `b`, which was not in use, is an empty one with room for `size`. -/
def Provides (q : ThreadQueue R) (size : Int) (b : Addr) (q' : ThreadQueue R) : Prop :=
  ∃ sizes full pool count,
    q' = { q with
      blkFirst := update q.blkFirst b 0
      blkLast := update q.blkLast b 0
      ref := update q.ref b 0
      blkNext := update q.blkNext b none
      made := update q.made b (q.made b + 1)
      blkSize := sizes
      full := full
      blockPool := pool
      blockPoolCount := count } ∧ ¬q.Used b ∧ full b = false ∧ size ≤ sizes b ∧
    sizes b < 2147483648 ∧ (∀ c ≠ b, sizes c = q.blkSize c) ∧ pool.Nodup ∧
    ∀ c, c ∈ pool ↔ c ∈ q.blockPool ∧ c ≠ b

/-- A block from the pool, or a new one, is large enough. -/
theorem blockNew_spec (h : Inv q k front parts) (hsize : size < 2147483648)
    (hnew : q.blockNew size fresh = some (q', b)) : Provides q size b q' := by
  obtain ⟨hnodup, hpool⟩ := h.pool
  have hmalloc (hspare : q.Spare fresh) : q.blockMalloc size fresh = { q with
      blkFirst := update q.blkFirst fresh 0
      blkLast := update q.blkLast fresh 0
      ref := update q.ref fresh 0
      blkNext := update q.blkNext fresh none
      made := update q.made fresh (q.made fresh + 1)
      blkSize := update q.blkSize fresh size
      full := update q.full fresh false
      blockPoolCount := q.blockPoolCount } := by
    have hunused : ¬q.Used fresh := not_lt.mpr hspare.1
    have hlocked : update q.locked fresh false = q.locked := by
      rw [← h.gone fresh hunused hspare.2, update_eq_self]
    unfold blockMalloc
    rw [hlocked]
  have hfresh (hspare : q.Spare fresh) : Provides q size fresh (q.blockMalloc size fresh) := by
    refine ⟨_, _, _, _, hmalloc hspare, not_lt.mpr hspare.1, update_self .., ?_, ?_, ?_, hnodup,
      ?_⟩
    · rw [update_self]
    · rwa [update_self]
    · intro c hc
      rw [update_of_ne hc]
    · intro c
      refine ⟨fun hc => ⟨hc, ?_⟩, And.left⟩
      rintro rfl
      exact hspare.2 hc
  unfold blockNew at hnew
  split at hnew
  · rename_i c pool hcons
    rw [hcons, nodup_cons] at hnodup
    obtain ⟨hunused, hmin⟩ := hpool c (by rw [hcons]; exact mem_cons_self)
    split at hnew
    · -- the first block of the pool
      rename_i hfits
      obtain ⟨rfl, rfl⟩ := Prod.mk.inj (some.inj hnew)
      refine ⟨q.blkSize, update q.full c false, pool, q.blockPoolCount - 1, ?_, hunused,
        update_self .., hfits, ?_, fun _ _ => rfl, hnodup.2, ?_⟩
      · unfold blockReuse
        rw [hcons]
        rfl
      · rw [hmin]
        decide
      · intro d
        rw [hcons, mem_cons]
        constructor
        · intro hd
          refine ⟨.inr hd, ?_⟩
          rintro rfl
          exact hnodup.1 hd
        · rintro ⟨hd, hne⟩
          exact hd.resolve_left hne
    split at hnew
    · rename_i hspare
      obtain ⟨rfl, rfl⟩ := Prod.mk.inj (some.inj hnew)
      exact hfresh hspare
    · simp at hnew
  · split at hnew
    · rename_i hspare
      obtain ⟨rfl, rfl⟩ := Prod.mk.inj (some.inj hnew)
      exact hfresh hspare
    · simp at hnew

/-- A new block keeps the invariant. -/
theorem inv_new (h : Inv q k front parts) (hlock : q.lockWrite = false)
    {sizes : Addr → Int} {full : Addr → Bool} {pool : List Addr} {count : Nat}
    {next : Addr → Option Addr} {data : Option Addr} (hunused : ¬q.Used b)
    (hsize : 0 ≤ sizes b ∧ sizes b < 2147483648) (hsizes : ∀ c ≠ b, sizes c = q.blkSize c)
    (hnodup : pool.Nodup) (hpool : ∀ c, c ∈ pool ↔ c ∈ q.blockPool ∧ c ≠ b)
    (hlinked : Linked next data (parts.map Prod.fst ++ [b])) :
    Inv { q with
      blkFirst := update q.blkFirst b 0
      blkLast := update q.blkLast b 0
      ref := update q.ref b 0
      made := update q.made b (q.made b + 1)
      blkSize := sizes
      full := full
      blockPool := pool
      blockPoolCount := count
      blkNext := next
      data := data
      last := some b } k front (parts ++ [(b, [])]) := by
  have hbalance := h.balance b
  have hmade : q.made b = q.freed b := le_antisymm (not_lt.mp hunused) hbalance.1
  have hused (c : Addr) : q.freed c < update q.made b (q.made b + 1) c ↔ q.Used c ∨ c = b := by
    by_cases hc : c = b
    · rw [hc, update_self]
      exact iff_of_true (by omega) (.inr rfl)
    · rw [update_of_ne hc]
      exact ⟨.inl, fun hor => hor.resolve_right hc⟩
  have hne {c : Addr} (hc : q.Used c) : c ≠ b := by
    rintro rfl
    exact hunused hc
  have hmap : (parts ++ [(b, ([] : List Nat))]).map Prod.fst = parts.map Prod.fst ++ [b] := by
    rw [map_append]
    rfl
  have hnew : b ∉ parts.map Prod.fst := fun hb => hunused (h.part_used hb).1
  have hin {c : Addr} (hc : c ∉ parts.map Prod.fst) (hcb : c ≠ b) :
      c ∉ (parts ++ [(b, ([] : List Nat))]).map Prod.fst := by
    rw [hmap, mem_append, mem_singleton, not_or]
    exact ⟨hc, hcb⟩
  have hnone : q.users b = ∅ := by
    refine Finset.eq_empty_of_forall_notMem fun i hi => ?_
    obtain ⟨-, hhome, hcounts⟩ := mem_users.mp hi
    have hi' := h.used_of_counts hcounts
    rw [hhome] at hi'
    exact hunused hi'
  have hfinish (r : R) (c : Addr) : (q.reader r = .freeing c ∨ q.reader r = .dropped c 0 ∧
      update q.blkLast b 0 c ≤ update q.blkFirst b 0 c) ↔ q.Finishing r c := by
    by_cases hc : c = b
    · -- no reader finishes a block that is not in use
      have hnot : ¬q.Finishing r c := by
        rw [hc]
        exact fun hf => hunused (h.finishing r b hf).1
      refine iff_of_false ?_ hnot
      rintro (hr | ⟨hr, -⟩)
      · exact hnot (.inl hr)
      · rw [hc] at hr
        exact h.not_dropped (fun hread => hunused (h.read b hread).1) (.inr hunused) hr
    · rw [update_of_ne hc, update_of_ne hc]
      rfl
  refine { h with
    order := ?_, linked := ?_, last := ?_, nodup := ?_, part := ?_, read := ?_, bounds := ?_
    ended := ?_, balance := ?_, pool := ?_, refs := ?_, held := ?_, early := ?_, gone := ?_
    waiting := ?_, finishing := ?_, stale := ?_, kept := ?_, inside := ?_ }
  · simpa using h.order
  · rw [hmap]
    exact hlinked
  · rw [hmap, getLast?_concat]
  · rw [hmap, nodup_append]
    refine ⟨h.nodup, nodup_singleton b, ?_⟩
    rintro c hc d hd rfl
    rw [mem_singleton.mp hd] at hc
    exact hnew hc
  · intro p hp
    rcases mem_append.mp hp with hp | hp
    · obtain ⟨h1, h2, h3⟩ := h.part p hp
      refine ⟨(hused _).mpr (.inl h1), ?_, ?_⟩
      · dsimp only
        rw [update_of_ne (hne h1), h2]
      · dsimp only
        rw [update_of_ne (hne h1)]
        exact h3
    · rw [mem_singleton.mp hp]
      refine ⟨(hused _).mpr (.inr rfl), update_self .., ?_⟩
      dsimp only
      rw [update_self]
      rfl
  · intro c hc
    obtain ⟨h1, h2, h3, h4⟩ := h.read c hc
    refine ⟨(hused _).mpr (.inl h1), hin h2 (hne h1), ?_, h4⟩
    dsimp only
    rw [update_of_ne (hne h1), update_of_ne (hne h1)]
    exact h3
  · intro c hc
    dsimp only
    by_cases hcb : c = b
    · rw [hcb, update_self, update_self]
      exact ⟨le_refl _, le_refl _, hsize⟩
    · rw [update_of_ne hcb, update_of_ne hcb, hsizes c hcb]
      exact h.bounds c (((hused c).mp hc).resolve_right hcb)
  · intro c hc hnot hread
    rw [hmap, mem_append, mem_singleton, not_or] at hnot
    dsimp only
    rw [update_of_ne hnot.2, update_of_ne hnot.2]
    exact h.ended c (((hused c).mp hc).resolve_right hnot.2) hnot.1 hread
  · intro c
    dsimp only
    by_cases hcb : c = b
    · rw [hcb, update_self]
      omega
    · rw [update_of_ne hcb]
      exact h.balance c
  · refine ⟨hnodup, fun c hc => ?_⟩
    obtain ⟨hc, hcb⟩ := (hpool c).mp hc
    obtain ⟨h1, h2⟩ := h.pool.2 c hc
    refine ⟨fun hu => h1 (((hused c).mp hu).resolve_right hcb), ?_⟩
    dsimp only
    rw [hsizes c hcb]
    exact h2
  · intro c hc
    dsimp only
    by_cases hcb : c = b
    · rw [hcb, update_self]
      show (0 : Int) = ((q.users b).card : Int)
      rw [hnone]
      rfl
    · rw [update_of_ne hcb]
      exact h.refs c (((hused c).mp hc).resolve_right hcb)
  · intro i r hi
    refine hin (h.held i r hi) (hne ?_)
    refine h.used_of_counts ?_
    rw [counts, hi]
    simp [Fate.isHeld]
  · intro i hi
    obtain ⟨h1, h2⟩ := h.early i hi
    refine ⟨h1, ?_⟩
    rw [hmap]
    exact mem_append_left _ h2
  · intro c hc hpool'
    have hcb : c ≠ b := fun hcb => hc ((hused c).mpr (.inr hcb))
    refine h.gone c (fun hu => hc ((hused c).mpr (.inl hu))) fun hmem => hpool' ?_
    exact (hpool c).mpr ⟨hmem, hcb⟩
  · intro r poll c hr
    exact absurd hr (h.nowait hlock r poll c)
  · intro r c hf
    obtain ⟨h1, h2, h3, h4, h5⟩ := h.finishing r c ((hfinish r c).mp hf)
    refine ⟨(hused c).mpr (.inl h1), hin h2 (hne h1), h3, h4, ?_⟩
    intro r' hf'
    exact h5 r' ((hfinish r' c).mp hf')
  · intro r c hr hlt
    dsimp only at hlt
    by_cases hcb : c = b
    · rw [hcb, update_self, update_self] at hlt
      omega
    rw [update_of_ne hcb, update_of_ne hcb] at hlt
    obtain ⟨h1, h2⟩ := h.stale r c hr hlt
    exact ⟨(hused c).mpr (.inl h1), h2⟩
  · intro c hc
    rw [hmap, mem_append, mem_singleton]
    rcases (hused c).mp hc with hc | hc
    · exact (h.kept_of hc fun r => (hfinish r c).mpr).imp_left .inl
    · exact .inl (.inr hc)
  · intro i hi
    obtain ⟨h1, h2, h3, h4⟩ := h.inside i hi
    refine ⟨(hused _).mpr (.inl h1), h2, ?_, h4⟩
    dsimp only
    rw [update_of_ne (hne h1)]
    exact h3

/-! ### The message in its block -/

theorem Inv.open_of_users (h : Inv q k front parts) (hlock : q.lockWrite = false) {i : Nat}
    (hi : i ∈ q.users blk) (hblk : blk ∈ parts.map Prod.fst) : q.phase i = .writing := by
  obtain ⟨-, hhome, hcounts⟩ := mem_users.mp hi
  cases hphase : q.phase i with
  | writing => rfl
  | locking =>
    rw [(h.locking i hphase).1] at hlock
    simp at hlock
  | releasing | waking | sent =>
    rw [counts, hphase] at hcounts
    cases hfate : q.fate i with
    | held r => exact absurd (hhome ▸ hblk) (h.held i r hfate)
    | unread | passed =>
      rw [hfate] at hcounts
      simp [Phase.isOpen, Fate.isHeld] at hcounts

/-- **Sending**: a message is put behind the others of the last block. -/
theorem inv_place (h : Inv q k front (init ++ [(blk, ids)])) (hfilled : ∀ p ∈ init, p.2 ≠ [])
    (hlock : q.lockWrite = false) (hlow : 4 ≤ size) (hhigh : size ≤ 2147483640)
    (hroom : q.blkLast blk + roundUp size ≤ q.blkSize blk) :
    Between ((q.reserve blk (roundUp size)).place blk (q.blkLast blk) size) k front
      (init ++ [(blk, ids ++ [q.sends])]) := by
  obtain ⟨hpos, hle, -⟩ := roundUp_spec hlow hhigh
  have hblk : blk ∈ (init ++ [(blk, ids)]).map Prod.fst := by simp
  have hmap : (init ++ [(blk, ids ++ [q.sends])]).map Prod.fst =
      (init ++ [(blk, ids)]).map Prod.fst := by simp
  obtain ⟨hused, hfirst, hfills⟩ := h.part (blk, ids) (by simp)
  obtain ⟨hb1, hb2, hb3, hb4⟩ := h.bounds blk hused
  obtain ⟨hsent, hpassed⟩ := h.later q.sends (le_rfl)
  have hlast : int (q.blkLast blk + roundUp size) = q.blkLast blk + roundUp size :=
    int_eq (by omega) (by omega)
  have hread : q.read ≠ some blk := fun hread => (h.read blk hread).2.1 hblk
  have hnolocking (i : Nat) : q.phase i ≠ .locking := by
    intro hi
    rw [(h.locking i hi).1] at hlock
    simp at hlock
  have hk := h.le
  have hne {i : Nat} (hi : i < q.sends) : i ≠ q.sends := ne_of_lt hi
  have hqueued {p : Addr × List Nat} (hp : p ∈ init ++ [(blk, ids)]) {i : Nat} (hi : i ∈ p.2) :
      i < q.sends := by
    have hmem : i ∈ range' k (q.sends - k) := by
      rw [← h.order, mem_append, mem_flatMap]
      exact .inr ⟨p, hp, hi⟩
    have hbounds := mem_range'_1.mp hmem
    omega
  have hfront {i : Nat} (hi : i ∈ front) : i < q.sends := by
    have hmem : i ∈ range' k (q.sends - k) := by
      rw [← h.order, mem_append]
      exact .inl hi
    have hbounds := mem_range'_1.mp hmem
    omega
  have hinit {p : Addr × List Nat} (hp : p ∈ init) : p.1 ≠ blk := by
    intro hpb
    have hnodup := h.nodup
    rw [map_append, nodup_append] at hnodup
    exact hnodup.2.2 p.1 (mem_map.mpr ⟨p, hp, rfl⟩) blk (by simp) hpb
  have hrefs := h.refs blk hused
  -- what the message starts with: the lock where it is the only one that is open
  obtain ⟨x, hx, hxopen, hxcases⟩ : ∃ x : Phase, (if q.ref blk + 1 = 1 then Phase.locking
      else .writing) = x ∧ x.isOpen = true ∧
      (x = .locking ∧ q.users blk = ∅ ∧ q.ref blk + 1 = 1 ∨
        x = .writing ∧ (q.users blk).Nonempty) := by
    rw [← Finset.card_eq_zero, ← Finset.card_pos]
    split
    · exact ⟨_, rfl, rfl, .inl ⟨rfl, by omega, by omega⟩⟩
    · exact ⟨_, rfl, rfl, .inr ⟨rfl, by omega⟩⟩
  have husers (c : Addr) : ((q.reserve blk (roundUp size)).place blk (q.blkLast blk) size).users c =
      if c = blk then insert q.sends (q.users blk) else q.users c := by
    ext j
    rw [mem_users]
    unfold counts
    dsimp only [place, reserve]
    rw [hx]
    by_cases hj : j = q.sends
    · rw [hj, update_self, update_self, hxopen]
      split
      · rename_i hc
        simp [hc]
      rename_i hc
      refine iff_of_false ?_ fun hmem => absurd (mem_users.mp hmem).1 (lt_irrefl _)
      rintro ⟨-, hbc, -⟩
      exact hc hbc.symm
    · rw [update_of_ne hj, update_of_ne hj, update_of_ne hj]
      have hlt : j < q.sends + 1 ↔ j < q.sends := by omega
      split
      · rename_i hc
        rw [hlt, Finset.mem_insert, mem_users, hc]
        simp only [hj, false_or]
        rfl
      · rw [hlt, mem_users]
        rfl
  have hfinish (r : R) (c : Addr) : ((q.reserve blk (roundUp size)).place blk (q.blkLast blk)
      size).Finishing r c ↔ q.Finishing r c := by
    unfold Finishing
    dsimp only [place, reserve]
    by_cases hc : c = blk
    · have hnot : ¬q.Finishing r c := by
        rw [hc]
        exact fun hf => (h.finishing r blk hf).2.1 hblk
      refine iff_of_false ?_ hnot
      rintro (hr | ⟨hr, -⟩)
      · exact hnot (.inl hr)
      · rw [hc] at hr
        exact h.not_dropped hread (.inl hblk) hr
    · rw [update_of_ne hc]
  have hkeep {p : Addr × List Nat} (hp : ∀ i ∈ p.2, i < q.sends) {i : Nat} (hi : i ∈ p.2) :
      update q.home q.sends blk i = q.home i ∧
      update q.offset q.sends (q.blkLast blk) i = q.offset i ∧
      update q.asked q.sends size i = q.asked i := by
    have hi' := hne (hp i hi)
    rw [update_of_ne hi', update_of_ne hi', update_of_ne hi']
    exact ⟨rfl, rfl, rfl⟩
  refine ⟨{ h with
    le := ?_, order := ?_, unread := ?_, later := ?_, linked := ?_, last := ?_, nodup := ?_
    part := ?_, read := ?_, bounds := ?_, ended := ?_, refs := ?_, held := ?_, early := ?_
    locked := ?_, alone := ?_, first := ?_, locking := ?_, waiting := ?_, finishing := ?_
    stale := ?_, kept := ?_, inside := ?_, apart := ?_ }, ?_⟩
  · exact Nat.le_succ_of_le h.le
  · have horder := h.order
    have hnext : q.sends + 1 - k = q.sends - k + 1 := by omega
    have hend : k + 1 * (q.sends - k) = q.sends := by omega
    dsimp only [place, reserve]
    rw [hnext, range'_concat, hend, ← horder]
    simp
  · intro i
    dsimp only [place, reserve]
    by_cases hi : i = q.sends
    · rw [hi, update_self]
      exact iff_of_true rfl ⟨h.le, Nat.lt_succ_self _⟩
    · rw [update_of_ne hi, h.unread]
      omega
  · intro i hi
    have hin : i ≠ q.sends := ne_of_gt hi
    dsimp only [place, reserve]
    rw [update_of_ne hin, update_of_ne hin]
    exact h.later i (Nat.le_of_succ_le hi)
  · rw [hmap]
    exact h.linked
  · rw [hmap]
    exact h.last
  · rw [hmap]
    exact h.nodup
  · intro p hp
    rcases mem_append.mp hp with hp | hp
    · have hpin : p ∈ init ++ [(blk, ids)] := mem_append_left _ hp
      obtain ⟨h1, h2, h3⟩ := h.part p hpin
      refine ⟨h1, h2, ?_⟩
      dsimp only [place, reserve]
      rw [update_of_ne (hinit hp)]
      refine h3.congr (fun i hi => hkeep (fun j hj => hqueued hpin hj) hi) fun y _ => ?_
      dsimp only
      rw [update_of_ne (hinit hp)]
    · rw [mem_singleton.mp hp]
      refine ⟨hused, hfirst, ?_⟩
      dsimp only [place, reserve]
      rw [update_self, hlast]
      have hold : ((q.reserve blk (roundUp size)).place blk (q.blkLast blk) size).Fills blk 0
          (q.blkLast blk) ids := by
        refine hfills.congr (fun i hi => hkeep
          (fun j hj => hqueued (by simp) hj) hi) fun y hy => ?_
        dsimp only [place, reserve]
        rw [update_self, update_of_ne (ne_of_lt hy)]
      have hend : update q.asked q.sends size q.sends = size := update_self ..
      have happend := hold.append q.sends (update_self ..) (update_self ..) (by
        dsimp only [place, reserve]
        rw [update_self, update_self, hend]) (by
        dsimp only [place, reserve]
        rw [hend]
        exact hpos)
      dsimp only [place, reserve] at happend
      rw [hend] at happend
      exact happend
  · intro c hc
    obtain ⟨h1, h2, h3, h4⟩ := h.read c hc
    have hcb : c ≠ blk := by
      rintro rfl
      exact hread hc
    refine ⟨h1, by rwa [hmap], ?_, h4⟩
    dsimp only [place, reserve]
    rw [update_of_ne hcb]
    refine h3.congr (fun i hi => hkeep (p := (blk, front)) (fun j hj => hfront hj) hi) fun y _ => ?_
    dsimp only
    rw [update_of_ne hcb]
  · intro c hc
    dsimp only [place, reserve]
    by_cases hcb : c = blk
    · rw [hcb, update_self, hlast]
      exact ⟨hb1, by omega, hroom, hb4⟩
    · rw [update_of_ne hcb]
      exact h.bounds c hc
  · intro c hc hnot hr
    rw [hmap] at hnot
    have hcb : c ≠ blk := by
      rintro rfl
      exact hnot hblk
    dsimp only [place, reserve]
    rw [update_of_ne hcb]
    exact h.ended c hc hnot hr
  · intro c hc
    rw [husers]
    dsimp only [place, reserve]
    by_cases hcb : c = blk
    · rw [hcb, update_self, if_pos rfl, Finset.card_insert_of_notMem fun hmem =>
        absurd (mem_users.mp hmem).1 (lt_irrefl _), hrefs]
      rfl
    · rw [update_of_ne hcb, if_neg hcb]
      exact h.refs c hc
  · intro i r hi
    dsimp only [place, reserve] at hi ⊢
    rw [hmap]
    by_cases hin : i = q.sends
    · rw [hin] at hi
      simp at hi
    · rw [update_of_ne hin] at hi ⊢
      exact h.held i r hi
  · intro i hi
    dsimp only [place, reserve] at hi ⊢
    rw [hmap]
    by_cases hin : i = q.sends
    · rw [hin, update_self, update_self]
      exact ⟨rfl, hblk⟩
    rw [update_of_ne hin] at hi
    rw [update_of_ne hin, update_of_ne hin]
    exact h.early i hi
  · intro c
    dsimp only [place, reserve]
    rw [hx, h.locked]
    constructor
    · rintro ⟨j, hhome, hj⟩
      have hjn : j ≠ q.sends := by
        rintro rfl
        rw [hsent] at hj
        simp at hj
      refine ⟨j, ?_⟩
      rw [update_of_ne hjn, update_of_ne hjn]
      exact ⟨hhome, hj⟩
    · rintro ⟨j, hhome, hj⟩
      by_cases hjn : j = q.sends
      · rw [hjn, update_self] at hhome hj
        rcases hxcases with ⟨hxl, -⟩ | ⟨-, l, hl⟩
        · rw [hxl] at hj
          simp at hj
        · -- another message of the block is being written
          exact ⟨l, (mem_users.mp hl).2.1.trans hhome, .inl (h.open_of_users hlock hl hblk)⟩
      · rw [update_of_ne hjn] at hhome hj
        exact ⟨j, hhome, hj⟩
  · intro i j hhome hi hj
    dsimp only [place, reserve] at hhome hi hj
    rw [hx] at hi hj
    have hin : i ≠ q.sends := by
      rintro rfl
      rw [update_self] at hi
      rw [hi] at hxopen
      simp [Phase.isOpen] at hxopen
    rw [update_of_ne hin] at hi hhome
    by_cases hjn : j = q.sends
    · rw [hjn, update_self] at hhome hj
      rcases hxcases with ⟨hxl, -⟩ | ⟨-, l, hl⟩
      · rw [hxl] at hj
        simp at hj
      have hwriting := h.open_of_users hlock hl hblk
      have hli := h.alone i l (hhome.trans (mem_users.mp hl).2.1.symm) hi (.inl hwriting)
      rw [hli, hi] at hwriting
      simp at hwriting
    · rw [update_of_ne hjn] at hhome hj
      exact h.alone i j hhome hi hj
  · intro i j hhome hi
    dsimp only [place, reserve] at hhome hi ⊢
    rw [hx] at hi ⊢
    by_cases hin : i = q.sends
    · rw [hin, update_self] at hhome hi
      by_cases hjn : j = q.sends
      · rw [hjn, hi]
        simp
      rw [update_of_ne hjn] at hhome ⊢
      intro hj
      rcases hxcases with ⟨-, hnone, -⟩ | ⟨hxw, -⟩
      · have hcounts : q.counts j = true := by
          rw [counts, hj]
          rfl
        have hmem : j ∈ q.users blk := mem_users.mpr ⟨h.lt_of_counts hcounts, hhome.symm, hcounts⟩
        rw [hnone] at hmem
        exact absurd hmem (Finset.notMem_empty j)
      · rw [hxw] at hi
        simp at hi
    · rw [update_of_ne hin] at hi
      exact absurd hi (hnolocking i)
  · intro i hi
    dsimp only [place, reserve] at hi ⊢
    rw [hx] at hi ⊢
    have hin : i = q.sends := by
      by_contra hin
      rw [update_of_ne hin] at hi
      exact hnolocking i hi
    rw [hin] at hi
    refine ⟨?_, fun j hj => ?_, h.nowait hlock⟩
    · rcases hxcases with ⟨-, -, hone⟩ | ⟨hxw, -⟩
      · exact decide_eq_true hone
      · rw [hxw] at hi
        simp at hi
    · by_contra hjn
      rw [hin] at hjn
      rw [update_of_ne hjn] at hj
      exact hnolocking j hj
  · intro r poll c hr
    exact absurd hr (h.nowait hlock r poll c)
  · intro r c hf
    rw [hfinish] at hf
    obtain ⟨h1, h2, h3, h4, h5⟩ := h.finishing r c hf
    have hcb : c ≠ blk := by
      rintro rfl
      exact h2 hblk
    refine ⟨h1, by rwa [hmap], h3, ?_, fun r' hf' => h5 r' ((hfinish r' c).mp hf')⟩
    rw [husers, if_neg hcb]
    exact h4
  · intro r c hr hlt
    have hcb : c ≠ blk := by
      rintro rfl
      exact h.not_dropped hread (.inl hblk) hr
    dsimp only [place, reserve] at hlt
    rw [update_of_ne hcb] at hlt
    exact h.stale r c hr hlt
  · intro c hc
    rw [hmap, husers]
    refine (h.kept_of hc fun r => (hfinish r c).mpr).imp_right
      (Or.imp_right (Or.imp_left fun h1 => ?_))
    split
    · exact Finset.insert_nonempty _ _
    · exact h1
  · intro i hi
    dsimp only [place, reserve] at hi ⊢
    rw [hlast]
    by_cases hin : i = q.sends
    · rw [hin, update_self, update_self, update_self, update_self]
      exact ⟨hused, by omega, le_refl _, hle⟩
    rw [update_of_ne hin] at hi
    rw [update_of_ne hin, update_of_ne hin, update_of_ne hin]
    obtain ⟨h1, h2, h3, h4⟩ := h.inside i hi
    refine ⟨h1, h2, ?_, h4⟩
    by_cases hhome : q.home i = blk
    · rw [hhome] at h3
      rw [hhome, update_self]
      omega
    · rw [update_of_ne hhome]
      exact h3
  · intro i j hij hi hj hhome
    dsimp only [place, reserve] at hi hj hhome ⊢
    have hin : i ≠ q.sends := by
      rintro rfl
      rw [update_of_ne (ne_of_gt hij), (h.later j (le_of_lt hij)).2] at hj
      exact hj rfl
    rw [update_of_ne hin] at hi hhome
    rw [update_of_ne hin, update_of_ne hin]
    by_cases hjn : j = q.sends
    · rw [hjn, update_self] at hhome
      rw [hjn, update_self]
      obtain ⟨-, -, h3, -⟩ := h.inside i hi
      rw [hhome] at h3
      exact h3
    · rw [update_of_ne hjn] at hj hhome
      rw [update_of_ne hjn]
      exact h.apart i j hij hi hj hhome
  · intro p hp
    rcases mem_append.mp hp with hp | hp
    · exact hfilled p hp
    · rw [mem_singleton.mp hp]
      simp

/-! ### The whole send -/

theorem inv_blockAppend (h : Inv q k front (init ++ [(blk, ids)])) (hlock : q.lockWrite = false)
    (hpos : 0 ≤ size) (hsize : size < 2147483648)
    (happend : q.blockAppend blk size fresh = some (q', b)) :
    Inv q' k front (init ++ [(blk, ids)] ++ [(b, [])]) ∧ q'.lockWrite = false ∧
      q'.blkLast b = 0 ∧ size ≤ q'.blkSize b := by
  obtain ⟨⟨q1, b1⟩, hnew, heq⟩ := map_eq_some_iff.mp happend
  obtain ⟨rfl, rfl⟩ := Prod.mk.inj heq
  obtain ⟨sizes, full, pool, count, rfl, hunused, hfull, hfits, hmax, hsizes, hnodup, hpool⟩ :=
    blockNew_spec h hsize hnew
  have hmap : (init ++ [(blk, ids)]).map Prod.fst = init.map Prod.fst ++ [blk] := by simp
  have hblk : b1 ∉ init.map Prod.fst ++ [blk] := by
    rw [← hmap]
    exact fun hin => hunused (h.part_used hin).1
  refine ⟨?_, hlock, update_self .., hfits⟩
  refine inv_new h hlock hunused ⟨le_trans hpos hfits, hmax⟩ hsizes hnodup hpool ?_
  have hlinked := h.linked
  have hparts := h.nodup
  rw [hmap] at hlinked hparts ⊢
  rw [append_assoc]
  exact hlinked.append hparts hblk

theorem inv_blockFirst (h : Between q k front parts) (hlock : q.lockWrite = false)
    (hpos : 0 ≤ size) (hsize : size < 2147483648)
    (hfirst : q.blockFirst size fresh = some q') : ∃ init blk ids,
      Inv q' k front (init ++ [(blk, ids)]) ∧ (∀ p ∈ init, p.2 ≠ []) ∧ q'.lockWrite = false ∧
        q'.last = some blk ∧
        (ids ≠ [] ∨ q'.full blk = false ∧ q'.blkLast blk = 0 ∧ size ≤ q'.blkSize blk) := by
  unfold blockFirst at hfirst
  have hlinked := h.linked
  split at hfirst
  · rename_i d hdata
    obtain rfl := some.inj hfirst
    -- the chain has a last block
    rcases eq_nil_or_concat parts with hnil | ⟨init, ⟨blk, ids⟩, hparts⟩
    · rw [hnil, hdata] at hlinked
      simp [Linked] at hlinked
    rw [concat_eq_append] at hparts
    obtain rfl := hparts
    refine ⟨init, blk, ids, h.toInv, ?_, hlock, ?_, .inl (h.filled (blk, ids) (by simp))⟩
    · intro p hp
      exact h.filled p (mem_append_left _ hp)
    · rw [h.last]
      simp
  · rename_i hdata
    obtain ⟨⟨q1, b⟩, hnew, rfl⟩ := map_eq_some_iff.mp hfirst
    obtain ⟨sizes, full, pool, count, rfl, hunused, hfull, hfits, hmax, hsizes, hnodup, hpool⟩ :=
      blockNew_spec h.toInv hsize hnew
    have hnil : parts = [] := by
      cases parts with
      | nil => rfl
      | cons p parts =>
        rw [hdata] at hlinked
        exact absurd hlinked.1 (by simp)
    obtain rfl := hnil
    refine ⟨[], b, [], ?_, by simp, hlock, rfl, Or.inr ⟨hfull, update_self .., hfits⟩⟩
    refine inv_new h.toInv hlock hunused ⟨le_trans hpos hfits, hmax⟩ hsizes hnodup hpool ?_
    exact ⟨rfl, update_self ..⟩

/-- A message gets a place that no other has. -/
theorem msgAlloc_spec (h : Between q k front parts) (hlock : q.lockWrite = false) (hpos : 0 < size)
    (hsize : size < 2147483648) {pos : Int}
    (halloc : q.msgAlloc size fresh = some (q', blk, pos)) : ∃ q1 init ids,
      Inv q1 k front (init ++ [(blk, ids)]) ∧ (∀ p ∈ init, p.2 ≠ []) ∧ q1.lockWrite = false ∧
        q1.blkLast blk + size ≤ q1.blkSize blk ∧ q' = q1.reserve blk size ∧
        pos = q1.blkLast blk := by
  unfold msgAlloc at halloc
  generalize hblock : (if size < minSize then minSize else size) = blockSize at halloc
  have hfit : size ≤ blockSize ∧ blockSize < 2147483648 := by
    rw [← hblock]
    split
    · rename_i hmin
      exact ⟨le_of_lt hmin, by decide⟩
    · exact ⟨le_refl _, hsize⟩
  obtain ⟨q1, hfirst, halloc⟩ := bind_eq_some_iff.mp halloc
  obtain ⟨init, b, ids, h1, hfilled, hlock1, hlast, hnew⟩ :=
    inv_blockFirst h hlock (by omega) hfit.2 hfirst
  rw [hlast, bind_some] at halloc
  obtain ⟨⟨q2, b2⟩, hfull, halloc⟩ := bind_eq_some_iff.mp halloc
  -- behind a full block there is a new one
  have hsecond : ∃ init ids, Inv q2 k front (init ++ [(b2, ids)]) ∧ (∀ p ∈ init, p.2 ≠ []) ∧
      q2.lockWrite = false ∧ (ids ≠ [] ∨ q2.blkLast b2 = 0 ∧ blockSize ≤ q2.blkSize b2) := by
    split at hfull
    · rename_i hfullb
      obtain ⟨h2, hlock2, hzero, hfits⟩ := inv_blockAppend h1 hlock1 (by omega) hfit.2 hfull
      refine ⟨init ++ [(b, ids)], [], h2, ?_, hlock2, .inr ⟨hzero, hfits⟩⟩
      intro p hp
      rcases mem_append.mp hp with hp | hp
      · exact hfilled p hp
      rw [mem_singleton.mp hp]
      rcases hnew with hids | ⟨hnot, -⟩
      · exact hids
      · rw [hnot] at hfullb
        simp at hfullb
    · obtain ⟨rfl, rfl⟩ := Prod.mk.inj (some.inj hfull)
      exact ⟨init, ids, h1, hfilled, hlock1, hnew.imp_right And.right⟩
  obtain ⟨init2, ids2, h2, hfilled2, hlock2, hnew2⟩ := hsecond
  dsimp only at halloc
  obtain ⟨hused, -⟩ := h2.part (b2, ids2) (by simp)
  obtain ⟨hb1, hb2, hb3, hb4⟩ := h2.bounds b2 hused
  rw [int_eq (by omega) (by omega)] at halloc
  split at halloc
  · have hlast : int (int (q2.blkLast b2 + size) - size) = q2.blkLast b2 := by
      rw [int_eq (n := q2.blkLast b2 + size) (by omega) (by omega), int_eq (by omega) (by omega)]
      omega
    obtain ⟨⟩ := halloc
    exact ⟨q2, init2, ids2, h2, hfilled2, hlock2, by omega, rfl, hlast⟩
  · have hids : ids2 ≠ [] := by
      rcases hnew2 with hids | ⟨hzero, hfits⟩
      · exact hids
      · omega
    obtain ⟨⟨q3, b3⟩, happend, heq⟩ := map_eq_some_iff.mp halloc
    simp only at heq
    obtain ⟨rfl, rfl, rfl⟩ := heq
    obtain ⟨h3, hlock3, hzero, hfits⟩ := inv_blockAppend h2 hlock2 (by omega) hfit.2 happend
    refine ⟨q3, init2 ++ [(b2, ids2)], [], h3, ?_, hlock3, by omega, rfl, hzero.symm⟩
    intro p hp
    rcases mem_append.mp hp with hp | hp
    · exact hfilled2 p hp
    · rw [mem_singleton.mp hp]
      exact hids

theorem between_send (h : Between q k front parts) (hlow : 4 ≤ size) (hhigh : size ≤ 2147483640)
    (hstep : q.send size fresh = some q') : ∃ parts', Between q' k front parts' := by
  unfold send at hstep
  split at hstep
  · simp at hstep
  rename_i hlock
  rw [Bool.not_eq_true] at hlock
  obtain ⟨hpos, -, hmax⟩ := roundUp_spec hlow hhigh
  obtain ⟨⟨q1, blk, pos⟩, halloc, rfl⟩ := map_eq_some_iff.mp hstep
  obtain ⟨q2, init, ids, h2, hfilled, hlock2, hroom, rfl, rfl⟩ :=
    msgAlloc_spec h hlock hpos hmax halloc
  exact ⟨_, inv_place h2 hfilled hlock2 hlow hhigh hroom⟩

end Eina.ThreadQueue
