/-
What `eina_strbuf_replace_all` does to the bytes of a buffer.

Both loops keep the bytes in three parts: those that are done, the rest of the string that is
still to be searched, and what is behind its end.  A round moves everything up to the end of
the next occurrence to the first part.  Where the block changes, the old one keeps what the
search still reads.
-/
import Efl.Eina.Strbuf.Replace

namespace Eina.Strbuf

open CMemory List Option Function Heap

/-- The bytes of a buffer with all occurrences in its string replaced. -/
def replacedString (str by' xs : List UInt8) : List UInt8 :=
  replacedAll str by' 0 (Kind.strbuf.string xs) ++ xs.drop (Kind.strbuf.string xs).length

variable {str by' : List UInt8} {r : List Cell}

theorem first_occurrence (by' : List UInt8) (hne : str ≠ []) {t : List UInt8} {i : Nat}
    (hfound : strstr str t = some i) (hzero : (0 : UInt8) ∉ t) :
    ∃ a b, t = a ++ (str ++ b) ∧ a.length = i ∧
      replacedAll str by' 0 t = a ++ by' ++ replacedAll str by' 0 b ∧
      countAll str 0 t = countAll str 0 b + 1 ∧ (0 : UInt8) ∉ b := by
  obtain ⟨a, b, rfl, rfl⟩ := strstr_split hfound
  obtain ⟨h1, h2⟩ := replacedAll_of_some by' hne hfound
  have hdrop : (a ++ (str ++ b)).drop (a.length + str.length) = b := by
    rw [← append_assoc, ← length_append, drop_left]
  rw [take_left, hdrop] at h1
  rw [hdrop] at h2
  exact ⟨a, b, rfl, rfl, h1, h2,
    fun hmem => hzero (mem_append_right _ (mem_append_right _ hmem))⟩

/-! ### Strings of one length -/

/-- **The loop in one block.** -/
theorem replaceSame_spec (hne : str ≠ []) (hlen : str.length = by'.length) {p : Nat} :
    ∀ (fuel : Nat) (w : World) (done t : List UInt8) (n : Nat), t.length < fuel → (0 : UInt8) ∉ t →
      w.heap.locked p = false → w.heap.blocks p = some
        (done.map some ++ (t.map some ++ (some 0 :: r))) →
      replaceSame str by' (some p) fuel w ((strstr str t).map (· + done.length)) n =
        some (
          { w with
            heap := w.heap.put p
              (done.map some ++ ((replacedAll str by' 0 t).map some ++ (some 0 :: r))) },
          n + countAll str 0 t) := by
  intro fuel
  induction fuel with
  | zero =>
    omega
  | succ fuel ih =>
    intro w done t n hfuel hzero hfree hblock
    cases hfound : strstr str t with
    | none =>
      obtain ⟨h1, h2⟩ := replacedAll_of_none by' hfound
      rw [map_none, replaceSame, h1, h2, put_eq_self _ hblock, add_zero]
    | some i =>
      obtain ⟨a, b, hab, hi, h1, h2, hb⟩ := first_occurrence by' hne hfound hzero
      have hpos := length_pos_of_ne_nil hne
      have hcells : done.map some ++ (t.map some ++ (some 0 :: r)) =
          (done ++ a).map some ++ (str.map some ++ (b.map some ++ (some 0 :: r))) := by
        rw [hab]
        simp only [map_append, append_assoc]
      rw [hcells] at hblock
      have hwrite : w.heap.write (some p) (i + done.length) (by'.map some) =
          some (w.heap.put p
            ((done ++ a).map some ++ (by'.map some ++ (b.map some ++ (some 0 :: r))))) :=
        write_part hblock hfree
          (by
            rw [length_map, length_append]
            omega)
          (by rw [length_map, length_map, hlen])
      set w1 : World :=
        { w with
          heap := w.heap.put p
            ((done ++ a).map some ++ (by'.map some ++ (b.map some ++ (some 0 :: r)))) } with hw1
      have hblock1 : w1.heap.blocks p =
          some ((done ++ a ++ by').map some ++ (b.map some ++ (some 0 :: r))) := by
        rw [map_append, append_assoc]
        exact put_self _ _ _
      have hdone : (done ++ a ++ by').length = i + done.length + by'.length := by
        simp only [length_append]
        omega
      have hstring : cString w1.heap (some p) (i + done.length + by'.length) = some b :=
        cString_at hblock1 (by rw [length_map, hdone]) hb
      have hshort : b.length < fuel := by
        have hlen := congrArg length hab
        simp only [length_append] at hlen
        omega
      have hrest := ih w1 (done ++ a ++ by') b (n + 1) hshort hb hfree hblock1
      rw [hdone] at hrest
      rw [map_some, replaceSame, hwrite, bind_some]
      rw [hstring]
      refine hrest.trans ?_
      rw [h1]
      simp only [hw1, put_put, map_append, append_assoc]
      congr 2
      omega

/-! ### Strings of two lengths -/

section

variable {w : World} {a : List Cell} {n id : Nat} {rest : List Cell}

theorem Space.put (h : Space .strbuf w a n id rest) (pos : Nat) (cs : List Cell)
    (hpos : pos = a.length)
    (hlen : cs.length ≤ rest.length) :
    ∃ w' rest', w.put 1 pos cs = some w' ∧ Space .strbuf w' (a ++ cs) n id rest' ∧ Frame w w' ∧
      w'.strbuf = w.strbuf ∧ w'.heap.asked = w.heap.asked ∧
      rest'.length = rest.length - cs.length := by
  obtain ⟨r1, r2, r3, hr, hr1, hr2⟩ := exists_split (l := rest) (a := 0) (b := cs.length) (by omega)
  obtain rfl := length_eq_zero_iff.mp hr1
  rw [nil_append] at hr
  have hblock := h.block
  rw [hr] at hblock
  have hput : w.put 1 pos cs = some (w.set id (a ++ (cs ++ r3)) w.strbuf.len) :=
    put_at h.buf h.own.1 hblock (by rw [hpos, mul_one]) hr2.symm
  have htotal : (a ++ (cs ++ r3)).length = (a ++ rest).length := by
    rw [hr]
    simp only [length_append, hr2]
  refine ⟨_, r3, hput, ⟨h.buf, h.fresh, h.own, ?_, h.room, ?_, h.step, ?_⟩,
    Frame.of_put h.buf _ _ h.buf,
    rfl, rfl, ?_⟩
  · rw [set_blocks, append_assoc]
  · rw [append_assoc, htotal]
    exact h.size
  · rw [append_assoc, htotal]
    exact h.max
  · rw [hr, length_append]
    omega

theorem Space.length_rest (h : Space .strbuf w a n id rest) :
    w.strbuf.size ≤ a.length + rest.length := by
  have hsize := h.size
  rw [length_append, show Kind.strbuf.csize = 1 from rfl, mul_one] at hsize
  exact hsize

end

theorem grow_round {w : World} {a rest : List Cell} {m id len : Nat}
    (h : Space .strbuf w a m id rest)
    (hro : w.strbuf.ro = false) (hroom : len + 1 ≤ w.strbuf.size) (hstr : str.length ≤ len)
    (ha : a.length ≤ len + by'.length - str.length) (hdiff : str.length ≠ by'.length)
    (hword : str.length < by'.length → len + by'.length - str.length + 1 + maxStep < word) :
    (∃ w1 id1 rest1, w.grow 1 (len + by'.length - str.length) = some (w1, true) ∧ Frame w w1 ∧
      Space .strbuf w1 a (len + by'.length - str.length) id1 rest1 ∧ w1.strbuf.ro = false ∧
      w1.heap.asked ≤ w.heap.asked + 1) ∨
    ∃ w1, w.grow 1 (len + by'.length - str.length) = some (w1, false) ∧ Asked w w1 ∧
      str.length < by'.length ∧ Refused .strbuf w (len + by'.length - str.length) := by
  by_cases hlonger : str.length < by'.length
  · have hwrap : w.strbuf.NoWrap Kind.strbuf.csize (len + by'.length - str.length) :=
      EflStrbuf.noWrap_of_lt h.step.1 h.step.2 (by
        rw [show Kind.strbuf.csize = 1 from rfl, mul_one]
        exact hword hlonger)
    rcases grow_space h hro (by
        rw [show Kind.strbuf.csize = 1 from rfl]
        omega) hwrap with
      ⟨w1, id1, rest1, hgrow, hframe, hspace, -, hro1, hasked⟩ | ⟨w1, hgrow, hasked, hrefused⟩
    · exact .inl ⟨w1, id1, rest1, hgrow, hframe, hspace, hro1, hasked⟩
    · exact .inr ⟨w1, hgrow, hasked, hlonger, hrefused⟩
  · have hmax := h.max
    have hsize := h.size
    have hword : maxSize < word := by decide
    rw [show Kind.strbuf.csize = 1 from rfl] at hsize
    have hgrow : w.grow 1 (len + by'.length - str.length) = some (w, true) := by
      rw [World.grow, Nat.mod_eq_of_lt (by omega), if_pos (by omega)]
    exact .inl ⟨w, id, rest, hgrow, Frame.refl w, { h with room := by omega }, hro, Nat.le_succ _⟩

/-- Between two rounds: `done` is in the buffer, the rest `t` of the string is still in the block
`tmp` behind `pre`, and there is room for both and for `e` bytes more. -/
structure Between (w : World) (tmp : Nat) (pre done t : List UInt8) (e : Nat) (r : List Cell) :
    Prop where
  space : ∃ id rest, Space .strbuf w (done.map some) (done.length + t.length + e) id rest
  ro : w.strbuf.ro = false
  other : w.strbuf.buf ≠ some tmp
  fresh : tmp < w.heap.asked
  source : w.heap.blocks tmp = some (pre.map some ++ (t.map some ++ (some 0 :: r)))
  ends : (0 : UInt8) ∉ t

theorem Between.asked {w w' : World} {tmp e : Nat} {pre done t : List UInt8}
    (h : Between w tmp pre done t e r) (ha : Asked w w') : Between w' tmp pre done t e r := by
  obtain ⟨⟨id, rest, h1, h2, ⟨h3, h4⟩, h5, h6, h7, h8, h9⟩, hro, hne, hfresh, hsource, hends⟩ := h
  rw [← ha.strbuf] at h1 h6 h7 h8 hro hne
  rw [← ha.blocks] at h5 hsource
  rw [← ha.locked] at h3
  exact ⟨⟨id, rest, h1, h2.trans_le ha.le, ⟨h3, h4.mono ha.locked ha.le⟩, h5, h6, h7, h8, h9⟩, hro,
    hne, hfresh.trans_le ha.le, hsource, hends⟩

/-- **A round**: it goes on behind an occurrence, or stops where there is no room. -/
theorem Between.round {w : World} {tmp e : Nat} {pre done a b : List UInt8}
    (h : Between w tmp pre done (a ++ (str ++ b)) e r) (hdiff : str.length ≠ by'.length)
    (hword : str.length < by'.length →
      (done ++ a ++ by').length + b.length + e + 1 + maxStep < word) :
    (∃ w', Between w' tmp (pre ++ a ++ str) (done ++ a ++ by') b e r ∧ Frame w w' ∧
      w'.heap.asked ≤ w.heap.asked + 1 ∧ ∀ fuel n,
        replaceOther str by' (some tmp) (fuel + 1) w (some (a.length + pre.length)) pre.length
            done.length (done.length + (a ++ (str ++ b)).length + e) n =
          replaceOther str by' (some tmp) fuel w'
            ((strstr str b).map (· + (pre ++ a ++ str).length)) (pre ++ a ++ str).length
            (done ++ a ++ by').length ((done ++ a ++ by').length + b.length + e) (n + 1)) ∨
    ∃ w', Asked w w' ∧ str.length < by'.length ∧
      Refused .strbuf w ((done ++ a ++ by').length + b.length + e) ∧ ∀ fuel n,
        replaceOther str by' (some tmp) (fuel + 1) w (some (a.length + pre.length)) pre.length
            done.length (done.length + (a ++ (str ++ b)).length + e) n =
          some (w', pre.length, done.length, done.length + (a ++ (str ++ b)).length + e,
            n + 1) := by
  obtain ⟨⟨id, rest, hspace⟩, hro, hbuf, htmp, hblock, hends⟩ := h
  have hlen' : done.length + (a ++ (str ++ b)).length + e + by'.length - str.length =
      (done ++ a ++ by').length + b.length + e := by
    simp only [length_append]
    omega
  have hroom := hspace.room
  set len := done.length + (a ++ (str ++ b)).length + e with hlendef
  simp only [length_append] at hlendef hlen' hword ⊢
  rcases grow_round hspace hro hroom (by omega) (by
      rw [length_map]
      omega) hdiff (by
      rw [hlen']
      exact hword) with
    ⟨w1, id1, rest1, hgrow, hframe1, hspace1, hro1, hasked1⟩ |
      ⟨w1, hgrow, hasked1, hlonger, hrefused⟩
  · left
    obtain ⟨hbuf1, htmp1⟩ := hframe1.blocks tmp htmp hbuf
    have hsize1 := hspace1.room
    have hrest1 := hspace1.length_rest
    rw [length_map] at hrest1
    -- the text in front of the occurrence, and the new string
    simp only [map_append, append_assoc] at hblock
    have hread : w1.heap.read (some tmp) pre.length (a.length + pre.length - pre.length) =
        some (a.map some) :=
      read_part (htmp1.trans hblock) (by rw [length_map]) (by
        rw [length_map]
        omega)
    obtain ⟨w2, rest2, hput2, hspace2, hframe2, hstrbuf2, hasked2, hrest2⟩ :=
      hspace1.put done.length (a.map some) (by rw [length_map]) (by
        rw [length_map]
        omega)
    rw [length_map] at hrest2
    obtain ⟨w3, rest3, hput3, hspace3, hframe3, hstrbuf3, hasked3, -⟩ :=
      hspace2.put (done.length + (a.length + pre.length) - pre.length) (by'.map some) (by
        simp only [length_append, length_map]
        omega) (by
        rw [length_map]
        omega)
    have hframe : Frame w w3 := (hframe1.trans hframe2).trans hframe3
    obtain ⟨hbuf3, htmp3⟩ := hframe.blocks tmp htmp hbuf
    have hblock3 : w3.heap.blocks tmp =
        some ((pre ++ a ++ str).map some ++ (b.map some ++ (some 0 :: r))) := by
      rw [htmp3, hblock]
      simp only [map_append, append_assoc]
    have hb : (0 : UInt8) ∉ b := fun hmem =>
      hends (mem_append_right _ (mem_append_right _ hmem))
    have hpre : a.length + pre.length + str.length = pre.length + a.length + str.length := by
      omega
    have hstring : cString w3.heap (some tmp) (pre.length + a.length + str.length) = some b :=
      cString_at hblock3 (by simp only [length_map, length_append]) hb
    refine ⟨w3, ⟨⟨id1, rest3, ?_⟩, by rw [hstrbuf3, hstrbuf2, hro1], hbuf3,
      htmp.trans_le hframe.asked, hblock3, hb⟩, hframe, by omega, ?_⟩
    · rw [hlen'] at hspace3
      simp only [map_append, length_append]
      exact hspace3
    · intro fuel n
      rw [replaceOther, hgrow, bind_some, hread, bind_some, hput2, bind_some, hput3, bind_some,
        hpre, hstring, hlen']
      have hdone : done.length + (a.length + pre.length) - pre.length + by'.length =
          done.length + a.length + by'.length := by omega
      rw [hdone]
      rfl
  · rw [hlen'] at hrefused
    refine .inr ⟨w1, hasked1, hlonger, hrefused, fun fuel n => ?_⟩
    rw [replaceOther, hgrow]
    rfl

/-- **The loop from one block to another.** -/
theorem replaceOther_spec (hne : str ≠ []) (hdiff : str.length ≠ by'.length) {tmp e : Nat} :
    ∀ (fuel : Nat) (w : World) (pre done t : List UInt8) (n : Nat),
      t.length < fuel → Between w tmp pre done t e r →
      (str.length < by'.length →
        Small 1 (done.length + (replacedAll str by' 0 t).length + e)) →
      (∀ i < countAll str 0 t, w.heap.granted (w.heap.asked + i) = true) →
      ∃ w' pre' done' t',
        replaceOther str by' (some tmp) fuel w ((strstr str t).map (· + pre.length)) pre.length
            done.length (done.length + t.length + e) n =
          some (w', pre'.length, done'.length, done'.length + t'.length + e,
            n + countAll str 0 t) ∧
        done' ++ t' = done ++ replacedAll str by' 0 t ∧
        Between w' tmp pre' done' t' e r ∧ Frame w w' := by
  intro fuel
  induction fuel with
  | zero =>
    omega
  | succ fuel ih =>
    intro w pre done t n hfuel hbetween hsmall hgranted
    cases hfound : strstr str t with
    | none =>
      obtain ⟨h1, h2⟩ := replacedAll_of_none by' hfound
      rw [map_none, h1, h2, add_zero]
      exact ⟨w, pre, done, t, rfl, rfl, hbetween, Frame.refl w⟩
    | some i =>
      obtain ⟨a, b, rfl, rfl, h1, h2, -⟩ := first_occurrence by' hne hfound hbetween.ends
      have hpos := length_pos_of_ne_nil hne
      -- the new strings make the string longer, so what is reached on the way is shorter
      have hfinal : str.length < by'.length →
          Small 1 ((done ++ a ++ by').length + b.length + e) := by
        intro hlonger
        have hfit := hsmall hlonger
        have hgrowth := length_replacedAll hne by' b
        have hmul : countAll str 0 b * str.length ≤ countAll str 0 b * by'.length :=
          Nat.mul_le_mul_left _ hlonger.le
        rw [h1] at hfit
        simp only [length_append] at hfit ⊢
        unfold Small at hfit ⊢
        omega
      have hword : maxSize < word := by decide
      rcases hbetween.round hdiff fun hlonger => by
          have hfit := hfinal hlonger
          unfold Small at hfit
          omega with
        ⟨w3, hbetween3, hframe, hasked, hround⟩ | ⟨w1, -, hlonger, hno | hlarge, -⟩
      · obtain ⟨w', pre', done', t', hloop, hdone', hbetween', hframe'⟩ :=
          ih w3 (pre ++ a ++ str) (done ++ a ++ by') b (n + 1) (by
            simp only [length_append] at hfuel
            omega) hbetween3 (by
            intro hlonger
            have hfit := hsmall hlonger
            rw [h1] at hfit
            simp only [length_append] at hfit ⊢
            unfold Small at hfit ⊢
            omega) (by
            intro j hj
            rw [hframe.granted]
            have hle := hframe.asked
            have hcase : w3.heap.asked = w.heap.asked ∨ w3.heap.asked = w.heap.asked + 1 := by
              omega
            rcases hcase with heq | heq
            · rw [heq]
              exact hgranted j (by omega)
            · rw [heq, add_assoc, add_comm 1]
              exact hgranted (j + 1) (by omega))
        refine ⟨w', pre', done', t', ?_, ?_, hbetween', hframe.trans hframe'⟩
        · rw [map_some, hround, hloop, h2, add_assoc n, add_comm 1]
        · rw [hdone', h1]
          simp only [append_assoc]
      · have hyes := hgranted 0 (by omega)
        rw [add_zero, hno] at hyes
        cases hyes
      · exact absurd (hfinal hlonger) hlarge

theorem Space.finish {w : World} {ys : List UInt8} {n id : Nat} {rest : List Cell}
    (h : Space .strbuf w (ys.map some) n id rest) (hroom : ys.length + 1 ≤ w.strbuf.size)
    (hro : w.strbuf.ro = false) :
    ∃ w', w.finish 1 ys.length = some w' ∧ Owned .strbuf w' ys ∧ Frame w w' ∧
      w'.strbuf.ro = false := by
  have hrest := h.length_rest
  rw [length_map] at hrest
  obtain ⟨r1, r2, r3, hr, hr1, hr2⟩ := exists_split (l := rest) (a := 0) (b := 1) (by omega)
  obtain rfl := length_eq_zero_iff.mp hr1
  rw [nil_append] at hr
  have hblock := h.block
  rw [hr] at hblock
  have hfinish := finish_at h.buf h.own.1 hblock
    (show ys.length * 1 = _ by rw [length_map, mul_one]) hr2
  have hcells : ys.map some ++ (replicate 1 (some 0) ++ r3) =
      Kind.strbuf.cells ys ++ (Kind.strbuf.cells [Kind.strbuf.zero] ++ r3) := by
    rw [cells_strbuf]
    rfl
  have htotal : (Kind.strbuf.cells ys ++ (Kind.strbuf.cells [Kind.strbuf.zero] ++ r3)).length =
      (ys.map some ++ rest).length := by
    rw [← hcells, hr]
    simp only [length_append, length_replicate, hr2]
  refine ⟨_, hfinish, ⟨id, r3, h.buf, h.fresh, h.own, ?_, rfl, hroom, ?_, h.step, ?_, fun _ => rfl⟩,
    Frame.of_put h.buf _ _ h.buf, hro⟩
  · rw [set_blocks, hcells]
  · rw [htotal]
    exact h.size
  · rw [htotal]
    exact h.max

theorem Owned.freed {k : Kind} {w : World} {xs : List k.Unit} {c : Nat} (h : Owned k w xs)
    (hne : w.strbuf.buf ≠ some c) :
    Owned k { w with heap := { w.heap with blocks := update w.heap.blocks c none } } xs := by
  obtain ⟨id, rest, h1, h2, hown, h3, h4, h5, h6, h7, h8, h9⟩ := h
  refine ⟨id, rest, h1, h2, hown, ?_, h4, h5, h6, h7, h8, h9⟩
  have hid : id ≠ c := by
    intro heq
    rw [heq] at h1
    exact hne h1
  exact (update_of_ne hid _ _).trans h3

theorem tail_string (xs : List UInt8) :
    xs = Kind.strbuf.string xs ++ xs.drop (Kind.strbuf.string xs).length ∧
      ∀ rest : List Cell, ∃ r : List Cell,
        (xs.drop (Kind.strbuf.string xs).length ++ [0]).map some ++ rest = some 0 :: r := by
  obtain ⟨t, ht⟩ := Kind.string_prefix (k := .strbuf) xs
  have hxs : xs = Kind.strbuf.string xs ++ t := ht
  have hdrop : xs.drop (Kind.strbuf.string xs).length = t := by
    nth_rewrite 2 [hxs]
    exact drop_left
  obtain ⟨tl, htl, -⟩ := exists_string xs
  rw [hdrop]
  refine ⟨hxs, ?_⟩
  intro rest
  nth_rewrite 1 [hxs] at htl
  rw [append_assoc] at htl
  refine ⟨tl.map some ++ rest, ?_⟩
  rw [append_cancel_left htl]
  rfl

theorem Between.close {w : World} {done u z : List UInt8} {tmp e : Nat} {pre : List UInt8}
    {rest : List Cell} (h : Between w tmp pre done u e r) (hz : z.length = e)
    (hr : (z ++ [0]).map some ++ rest = some 0 :: r) (hfree : w.heap.locked tmp = false) (n : Nat) :
    ∃ w', (w.heap.read (some tmp) pre.length (done.length + u.length + e - done.length)).bind
        (fun cs => (w.put 1 done.length cs).bind fun w =>
          (w.finish 1 (done.length + u.length + e)).bind fun w =>
            (w.heap.free (some tmp)).map fun h => (({ w with heap := h } : World), n)) =
        some ({ w' with heap := { w'.heap with blocks := update w'.heap.blocks tmp none } }, n) ∧
      Owned .strbuf w' (done ++ u ++ z) ∧ Frame w w' ∧ w'.strbuf.ro = false := by
  obtain ⟨⟨id, rest2, hspace⟩, hro, hother, hfresh, hsource, -⟩ := h
  have hroom := hspace.room
  have hlength : done.length + u.length + e = (done ++ u ++ z).length := by
    simp only [length_append]
    omega
  have hsource' : w.heap.blocks tmp = some (pre.map some ++ ((u ++ z).map some ++
      (Kind.strbuf.cells [Kind.strbuf.zero] ++ rest))) := by
    rw [hsource, ← hr]
    simp only [map_append, append_assoc]
    rfl
  have hread : w.heap.read (some tmp) pre.length (done.length + u.length + e - done.length) =
      some ((u ++ z).map some) :=
    read_part hsource' (by rw [length_map]) (by
      rw [length_map, length_append]
      omega)
  have hrest2 := hspace.length_rest
  rw [length_map] at hrest2
  obtain ⟨w3, rest3, hput, hspace3, hframe3, hstrbuf3, -, -⟩ :=
    hspace.put done.length ((u ++ z).map some) (by rw [length_map]) (by
      rw [length_map, length_append]
      omega)
  rw [← map_append, ← append_assoc] at hspace3
  obtain ⟨w4, hfinish, howned, hframe4, hro4⟩ := hspace3.finish (by
    rw [hstrbuf3, ← hlength]
    exact hroom) (by rw [hstrbuf3, hro])
  have hframe : Frame w w4 := hframe3.trans hframe4
  obtain ⟨-, hsame⟩ := hframe.blocks tmp hfresh hother
  have hfree4 : w4.heap.locked tmp = false := by
    rw [hframe.locked]
    exact hfree
  refine ⟨w4, ?_, howned, hframe, hro4⟩
  rw [hread, bind_some, hput, bind_some, hlength, hfinish, bind_some, Heap.free,
    writable_eq _ hfree4, hsame, hsource]
  rfl

theorem Room.string_block {w : World} {xs : List UInt8} {n id : Nat} {rest : List Cell}
    (h : Room .strbuf w xs n id (Kind.strbuf.cells [Kind.strbuf.zero] ++ rest)) :
    ∃ z r, xs = Kind.strbuf.string xs ++ z ∧ (z ++ [0]).map some ++ rest = some 0 :: r ∧
      w.heap.blocks id = some ((Kind.strbuf.string xs).map some ++ (some 0 :: r)) := by
  obtain ⟨htail, htailZero⟩ := tail_string xs
  obtain ⟨r, hr⟩ := htailZero rest
  refine ⟨_, r, htail, hr, ?_⟩
  rw [h.block, ← hr]
  nth_rewrite 1 [htail]
  simp only [cells_strbuf, map_append, append_assoc]
  rfl

theorem Room.between {w : World} {s z : List UInt8} {n id : Nat} {rest : List Cell}
    (h : Room .strbuf w (s ++ z) n id rest) (hro : w.strbuf.ro = false)
    (hn : (s ++ z).length ≤ n) (hzero : (0 : UInt8) ∉ s)
    (hblock : w.heap.blocks id = some (s.map some ++ (some 0 :: r))) :
    Between
      { heap := { w.heap.put w.heap.asked (replicate w.strbuf.size none) with
          asked := w.heap.asked + 1 }
        strbuf := { w.strbuf with buf := some w.heap.asked } } id [] [] s z.length r := by
  have hnew : id ≠ w.heap.asked := ne_of_lt h.fresh
  have hsizeMax : w.strbuf.size < maxSize := by
    have hsize := h.size
    rw [show Kind.strbuf.csize = 1 from rfl, mul_one] at hsize
    exact lt_of_le_of_lt hsize h.max
  have hroom : s.length + z.length + 1 ≤ w.strbuf.size := by
    have hroom := h.room
    rw [length_append] at hn
    omega
  refine ⟨⟨w.heap.asked, replicate w.strbuf.size none, rfl, Nat.lt_succ_self _,
    ⟨h.own.2 _ le_rfl, h.own.2.mono rfl (Nat.le_succ _)⟩, put_self _ _ _, ?_, ?_, h.step, ?_⟩,
    hro, fun heq => hnew (some.inj heq).symm, h.fresh.trans (Nat.lt_succ_self _),
    (put_of_ne _ hnew _).trans hblock, hzero⟩
  · rw [length_nil, zero_add]
    exact hroom
  · rw [map_nil, nil_append, length_replicate]
    exact (mul_one _).le
  · rw [map_nil, nil_append, length_replicate]
    exact hsizeMax

/-! ### The whole call -/

/-- What replacing all occurrences asks of the state: the search of an empty string ends only in an
empty one, and where the lengths differ every request on the way is granted, or the first is not. -/
def ReplaceAllOk (w : World) (str by' s : List UInt8) : Prop :=
  (str = [] → s = []) ∧
    (str.length ≠ by'.length → (strstr str s).isSome = true →
      w.heap.granted w.heap.asked = false ∨
        ((∀ i < countAll str 0 s + 1, w.heap.granted (w.heap.asked + i) = true) ∧
          (str.length < by'.length →
            Small 1 (w.strbuf.len - s.length + (replacedAll str by' 0 s).length))))

instance (w : World) (str by' s : List UInt8) : Decidable (ReplaceAllOk w str by' s) := by
  unfold ReplaceAllOk
  exact inferInstance

/-- **Replacing all occurrences in a buffer of its own.** -/
theorem replaceAll_owned {w : World} {xs : List UInt8} (h : Owned .strbuf w xs)
    (hro : w.strbuf.ro = false)
    (hok : ReplaceAllOk w (Kind.strbuf.string str) (Kind.strbuf.string by')
      (Kind.strbuf.string xs)) :
    (∃ w', replaceAll w str by' =
        some (w', countAll (Kind.strbuf.string str) 0 (Kind.strbuf.string xs)) ∧
        Owned .strbuf w' (replacedString (Kind.strbuf.string str) (Kind.strbuf.string by') xs) ∧
        Frame w w' ∧ w'.strbuf.ro = false) ∨
      ∃ w', replaceAll w str by' = some (w', 0) ∧ Asked w w' ∧
        w.heap.granted w.heap.asked = false := by
  have howned := h
  obtain ⟨id, rest, hroom⟩ := h
  obtain ⟨hempty, hrequests⟩ := hok
  have hcstring := hroom.cString
  obtain ⟨-, -, hzero⟩ := exists_string xs
  obtain ⟨z, r, htail, hr, hblock⟩ := hroom.string_block
  rw [replaceAll, hcstring, bind_some, replaceWithin, hcstring, bind_some]
  unfold replacedString
  set u := Kind.strbuf.string str with hu
  set v := Kind.strbuf.string by' with hv
  set s := Kind.strbuf.string xs with hs
  have hdrop : xs.drop s.length = z := by
    rw [htail]
    exact drop_left
  rw [hdrop]
  cases hfound : strstr u s with
  | none =>
    obtain ⟨h1, h2⟩ := replacedAll_of_none v hfound
    rw [h1, h2, ← htail]
    exact .inl ⟨w, rfl, howned, Frame.refl w, hro⟩
  | some spos =>
    dsimp only
    by_cases hend : s.length ≤ spos
    · rw [if_pos hend]
      have hle := strstr_le hfound
      have hu0 : u = [] := length_eq_zero_iff.mp (by omega)
      have hs0 := hempty hu0
      have hall : replacedAll u v 0 s = s ∧ countAll u 0 s = 0 := by
        rw [hs0]
        exact ⟨rfl, rfl⟩
      rw [hall.1, hall.2, ← htail]
      exact .inl ⟨w, rfl, howned, Frame.refl w, hro⟩
    rw [if_neg hend]
    have hne : u ≠ [] := by
      intro hu0
      rw [hempty hu0] at hend
      exact hend (Nat.zero_le _)
    rw [ownCopy_eq hro, bind_some, if_neg (by simp)]
    by_cases hsame : u.length = v.length
    · -- the bytes are written over
      rw [if_pos hsame, hroom.buf]
      have hloop := replaceSame_spec hne hsame (s.length + 1) w [] s 0 (Nat.lt_succ_self _) hzero
        hroom.own.1 hblock
      rw [hfound, zero_add] at hloop
      have hlen := length_replacedAll hne v s
      have hlast : (replacedAll u v 0 s ++ z).length = w.strbuf.len := by
        have hxs := congrArg length htail
        rw [hsame] at hlen
        rw [length_append] at hxs ⊢
        rw [hroom.len]
        omega
      have hcells : (replacedAll u v 0 s).map some ++ (some 0 :: r) =
          Kind.strbuf.cells (replacedAll u v 0 s ++ z) ++
            (Kind.strbuf.cells [Kind.strbuf.zero] ++ rest) := by
        rw [← hr]
        simp only [cells_strbuf, map_append, append_assoc]
        rfl
      rw [hcells] at hloop
      have htotal : (Kind.strbuf.cells (replacedAll u v 0 s ++ z) ++
          (Kind.strbuf.cells [Kind.strbuf.zero] ++ rest)).length =
            (Kind.strbuf.cells xs ++ (Kind.strbuf.cells [Kind.strbuf.zero] ++ rest)).length := by
        simp only [length_append, length_cells_strbuf] at hlast ⊢
        rw [hlast, hroom.len]
      obtain ⟨howned', hframe⟩ := hroom.set rfl htotal (by
        have hsize := hroom.room
        rw [hlast, hroom.len]
        omega)
      rw [hlast] at howned' hframe
      exact .inl ⟨_, hloop, howned', hframe, hro⟩
    rw [if_neg hsame, if_neg (by simp)]
    have hasked : Asked w { w with heap := { w.heap with asked := w.heap.asked + 1 } } :=
      ⟨rfl, rfl, rfl, rfl, rfl⟩
    rcases w.heap.newBlock_cases (replicate w.strbuf.size none) with
      ⟨hgranted, -, hmalloc⟩ | ⟨hcause, hmalloc⟩
    · rw [show w.heap.malloc w.strbuf.size = _ from hmalloc]
      dsimp only
      have hgr : (∀ i < countAll u 0 s + 1, w.heap.granted (w.heap.asked + i) = true) ∧
          (u.length < v.length →
            Small 1 (w.strbuf.len - s.length + (replacedAll u v 0 s).length)) := by
        rcases hrequests hsame (by rw [hfound]; rfl) with hno | hall
        · rw [hno] at hgranted
          cases hgranted
        · exact hall
      obtain ⟨hgr, hsmall⟩ := hgr
      have hlenxs := congrArg length htail
      rw [length_append, ← hroom.len] at hlenxs
      -- the string is copied from the old block to a new one
      rw [htail] at hroom
      have hbetween := hroom.between hro le_rfl hzero hblock
      set w1 : World :=
        { heap := { w.heap.put w.heap.asked (replicate w.strbuf.size none) with
            asked := w.heap.asked + 1 }
          strbuf := { w.strbuf with buf := some w.heap.asked } } with hw1
      obtain ⟨w2, pre, done, t, hloop, hdone, hbetween2, hframe2⟩ :=
        replaceOther_spec hne hsame (s.length + 1) w1 [] [] s 0 (by omega) hbetween
          (by
            intro hlonger
            have hfit := hsmall hlonger
            rw [hlenxs, Nat.add_sub_cancel_left, add_comm] at hfit
            rw [length_nil, zero_add]
            exact hfit)
          (by
            intro i hi
            have hgranted' := hgr (i + 1) (by omega)
            rw [add_comm i, ← add_assoc] at hgranted'
            exact hgranted')
      simp only [hfound, map_some, length_nil, zero_add, add_zero] at hloop
      rw [← hlenxs] at hloop
      rw [nil_append] at hdone
      obtain ⟨w4, hclose, howned4, hframe4, hro4⟩ := hbetween2.close rfl hr (by
        rw [hframe2.locked]
        exact hroom.own.1) (countAll u 0 s)
      rw [hdone] at howned4
      have hframe : Frame w1 w4 := hframe2.trans hframe4
      obtain ⟨hbuf4, -⟩ := hframe.blocks id hbetween.fresh hbetween.other
      left
      refine ⟨{ w4 with heap := { w4.heap with blocks := update w4.heap.blocks id none } },
        ?_, howned4.freed hbuf4, ⟨hframe.granted, hframe.locked, ?_, ?_⟩, hro4⟩
      · rw [hroom.buf, hloop, bind_some]
        exact hclose
      · exact le_trans (Nat.le_succ _) hframe.asked
      · intro c hc hne'
        have hcid : c ≠ id := by
          intro heq
          rw [hroom.buf, heq] at hne'
          exact hne' rfl
        have hcasked : c ≠ w.heap.asked := ne_of_lt hc
        obtain ⟨hbufc, hsamec⟩ := hframe.blocks c (hc.trans (Nat.lt_succ_self _))
          (fun heq => hcasked (some.inj heq).symm)
        refine ⟨hbufc, ?_⟩
        show update w4.heap.blocks id none c = _
        rw [update_of_ne hcid, hsamec]
        exact put_of_ne _ hcasked _
    · refine .inr ⟨_, ?_, hasked, ?_⟩
      · rw [show w.heap.malloc w.strbuf.size = _ from hmalloc]
      · rw [length_replicate] at hcause
        rcases hcause with hno | hlarge
        · exact hno
        · have hsize := hroom.size
          have hmax := hroom.max
          rw [show Kind.strbuf.csize = 1 from rfl, mul_one] at hsize
          omega

/-! ### Whether the loop ends -/

theorem Between.ends_of (hdiff : str.length ≠ by'.length) (hsmall : Small 1 by'.length)
    {tmp e : Nat} :
    ∀ (k : Nat) {w : World} {pre done t : List UInt8} (n : Nat), Between w tmp pre done t e r →
      (str ≠ [] → t.length < k) → (str = [] → maxSize ≤ done.length + k) →
      ∃ rounds w' pre' done' t' n',
        replaceOther str by' (some tmp) rounds w ((strstr str t).map (· + pre.length)) pre.length
            done.length (done.length + t.length + e) n =
          some (w', pre'.length, done'.length, done'.length + t'.length + e, n') ∧
        Between w' tmp pre' done' t' e r ∧ w'.heap.locked = w.heap.locked := by
  intro k
  induction k with
  | zero =>
    intro w pre done t n h hlook hnothing
    obtain ⟨id, rest, hspace⟩ := h.space
    by_cases hnil : str = []
    · have hmax := hspace.max
      have hlarge := hnothing hnil
      rw [length_append, length_map] at hmax
      omega
    · exact absurd (hlook hnil) (Nat.not_lt_zero _)
  | succ k ih =>
    intro w pre done t n h hlook hnothing
    cases hfound : strstr str t with
    | none =>
      exact ⟨0, w, pre, done, t, n, rfl, h, rfl⟩
    | some i =>
      obtain ⟨a, b, rfl, rfl⟩ := strstr_split hfound
      have hword : (done ++ a ++ by').length + b.length + e + 1 + maxStep < word := by
        obtain ⟨id, rest, hspace⟩ := h.space
        have hmax := hspace.max
        have hsize := hspace.size
        have hroom := hspace.room
        have heq : word = maxSize + maxSize := by decide
        rw [show Kind.strbuf.csize = 1 from rfl] at hsize
        simp only [length_append] at hroom ⊢
        unfold Small at hsmall
        omega
      rcases h.round hdiff fun _ => hword with
        ⟨w', h', hframe, -, hround⟩ | ⟨w', hasked, -, -, hround⟩
      · obtain ⟨rounds, w'', pre', done', t', n', hloop, h'', hlocked⟩ := ih (n + 1) h'
          (by
            intro hne
            have hshort := hlook hne
            have hpos := length_pos_of_ne_nil hne
            simp only [length_append] at hshort
            omega)
          (by
            intro hnil
            have hlarge := hnothing hnil
            rw [hnil, length_nil] at hdiff
            simp only [length_append]
            omega)
        exact ⟨rounds + 1, w'', pre', done', t', n', (hround _ _).trans hloop, h'',
          hlocked.trans hframe.locked⟩
      · exact ⟨1, w', pre, done, _, n + 1, hround 0 n, h.asked hasked, hasked.locked⟩

theorem strstr_nil (s : List UInt8) : strstr [] s = some 0 := by
  cases s <;> rfl

theorem replaceSame_nothing {w : World} {id : Nat} {s : List UInt8}
    (hfree : w.heap.locked id = false)
    (hblock : w.heap.blocks id = some (s.map some ++ (some 0 :: r))) (hzero : (0 : UInt8) ∉ s) :
    ∀ rounds n, replaceSame [] [] (some id) rounds w (some 0) n = none := by
  intro rounds
  induction rounds with
  | zero =>
    intro n
    rfl
  | succ rounds ih =>
    intro n
    have hwrite : w.heap.write (some id) 0 (([] : List UInt8).map some) = some w.heap :=
      (write_part (a := []) (b := []) hblock hfree rfl rfl).trans
        (congrArg some (put_eq_self _ hblock))
    have hstring : cString w.heap (some id) (0 + ([] : List UInt8).length) = some s :=
      cString_at (a := []) hblock rfl hzero
    rw [replaceSame, hwrite, bind_some, hstring, bind_some, strstr_nil]
    exact ih (n + 1)

/-- **The loop does not end** where nothing is to be put in the place of nothing. -/
theorem replaceWithin_nothing {w : World} {xs : List UInt8} (h : Owned .strbuf w xs)
    (hro : w.strbuf.ro = false) (hstr : Kind.strbuf.string str = [])
    (hby : Kind.strbuf.string by' = []) (hne : Kind.strbuf.string xs ≠ []) (rounds : Nat) :
    replaceWithin w rounds str by' = none := by
  obtain ⟨id, rest, hroom⟩ := h
  obtain ⟨-, -, hzero⟩ := exists_string xs
  obtain ⟨z, r, -, -, hblock⟩ := hroom.string_block
  unfold replaceWithin
  rw [hroom.cString, bind_some, hstr, hby]
  have hend : ¬(Kind.strbuf.string xs).length ≤ 0 := fun hle =>
    hne (length_eq_zero_iff.mp (Nat.le_zero.mp hle))
  simp only [strstr_nil, if_neg hend, ownCopy_eq hro, bind_some, Bool.true_eq_false, if_false,
    if_true, hroom.buf]
  exact replaceSame_nothing hroom.own.1 hblock hzero rounds 0

/-- **It ends where something is looked for or put in**, whatever requests are granted. -/
theorem replaceWithin_ends {w : World} {xs : List UInt8} (h : Owned .strbuf w xs)
    (hro : w.strbuf.ro = false) (hsmall : Small 1 (Kind.strbuf.string by').length)
    (hsome : Kind.strbuf.string str = [] → Kind.strbuf.string by' = [] →
      Kind.strbuf.string xs = []) :
    ∃ rounds, (replaceWithin w rounds str by').isSome = true := by
  obtain ⟨id, rest, hroom⟩ := h
  have hcstring := hroom.cString
  obtain ⟨-, -, hzero⟩ := exists_string xs
  obtain ⟨z, r, htail, hr, hblock⟩ := hroom.string_block
  unfold replaceWithin
  rw [hcstring]
  simp only [bind_some]
  set u := Kind.strbuf.string str with hu
  set v := Kind.strbuf.string by' with hv
  set s := Kind.strbuf.string xs with hs
  cases hfound : strstr u s with
  | none =>
    exact ⟨0, rfl⟩
  | some spos =>
    dsimp only
    by_cases hend : s.length ≤ spos
    · simp only [if_pos hend]
      exact ⟨0, rfl⟩
    simp only [if_neg hend, ownCopy_eq hro, bind_some, Bool.true_eq_false, if_false]
    by_cases hsame : u.length = v.length
    · have hne : u ≠ [] := by
        intro hnil
        rw [hnil] at hsame
        rw [hsome hnil (length_eq_zero_iff.mp hsame.symm)] at hend
        exact hend (Nat.zero_le _)
      have hloop := replaceSame_spec hne hsame (s.length + 1) w [] s 0 (Nat.lt_succ_self _) hzero
        hroom.own.1 hblock
      rw [hfound] at hloop
      refine ⟨s.length + 1, ?_⟩
      rw [if_pos hsame, hroom.buf]
      exact (congrArg isSome hloop).trans rfl
    · simp only [if_neg hsame, ne_eq, not_true_eq_false, if_false]
      rcases w.heap.newBlock_cases (replicate w.strbuf.size none) with
        ⟨-, -, hmalloc⟩ | ⟨-, hmalloc⟩
      · rw [show w.heap.malloc w.strbuf.size = _ from hmalloc]
        have hlenxs := congrArg length htail
        rw [length_append, ← hroom.len] at hlenxs
        rw [htail] at hroom
        have hbetween := hroom.between hro le_rfl hzero hblock
        obtain ⟨rounds, w', pre, done, t, n, hloop, hbetween', hlocked⟩ :=
          hbetween.ends_of hsame hsmall (s.length + 1 + maxSize) 0 (fun _ => by omega)
            (fun _ => by omega)
        obtain ⟨w4, hclose, -⟩ := hbetween'.close rfl hr (by
          rw [hlocked]
          exact hroom.own.1) n
        simp only [hfound, map_some, length_nil, zero_add, add_zero] at hloop
        rw [← hlenxs] at hloop
        refine ⟨rounds, ?_⟩
        dsimp only
        rw [hroom.buf, hloop, bind_some, hclose]
        rfl
      · rw [show w.heap.malloc w.strbuf.size = _ from hmalloc]
        exact ⟨0, rfl⟩

end Eina.Strbuf
