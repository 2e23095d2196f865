/-
`eina_inlist_prepend_relative`, `eina_inlist_promote` and `eina_inlist_demote`.

Each does what two other operations do, with the writes in another order: a node before
`x` is one behind the node before `x`, and a node that is moved is taken out of the links
and put at an end.  So the proofs bring the writes into the known order.
-/
import Efl.Eina.Inlist.Ops

namespace Eina.Inlist

open Chain List Option Function

variable {A : Type} [DecidableEq A] {H H' : Heap A} {list : Option A} {xs l r : List A} {x new : A}
  {c d : Cell A (Option A)} {a b : A} {head : A}

/-! ### The code -/

/-- `eina_inlist_prepend_relative` -/
def prependRelative (H : Heap A) (list : Option A) (new : A) (relative : Option A) :
    Option (Heap A × Option A) :=
  match relative, list with
  | some relative, some head => do
    let c ← H relative
    let H ← setPrev H new c.prev
    let H ← setNext H new (some relative)
    let H ← setPrev H relative (some new)
    match c.prev with
    | some p =>
      let H ← setNext H p (some new)
      return (H, some head)
    | none =>
      let c ← H head
      let H ← setLast H new c.val
      let H ← setLast H head none
      return (H, some new)
  | _, _ => prepend H list new

/-- The node is made the first one; the last lines of `eina_inlist_promote`. -/
def putFirst (H : Heap A) (head item : A) : Option (Heap A × Option A) := do
  let H ← setNext H item (some head)
  let H ← setPrev H item none
  let c ← H head
  let H ← setLast H item c.val
  let H ← setPrev H head (some item)
  let H ← setLast H head none
  return (H, some item)

/-- `eina_inlist_promote` -/
def promote (H : Heap A) (list : Option A) (item : A) : Option (Heap A × Option A) :=
  match list with
  | none => some (H, none)
  | some head =>
    if item = head then some (H, some head)
    else
      (H item).bind fun c => (setPrevOf H c.next c.prev).bind fun H => (H item).bind fun c =>
        c.prev.bind fun p => (setNext H p c.next).bind fun H =>
          (dropLast H head item).bind fun H => putFirst H head item

/-- The node is made the last one; the last lines of `eina_inlist_demote`. -/
def putLast (H : Heap A) (head first item : A) : Option (Heap A) :=
  (H head).bind fun c => c.val.bind fun l => (setNext H l (some item)).bind fun H =>
    (setPrev H item (some l)).bind fun H => (setNext H item none).bind fun H =>
      setLast H first (some item)

/-- `eina_inlist_demote` -/
def demote (n : Nat) (H : Heap A) (list : Option A) (item : A) : Option (Heap A × Option A) :=
  match list with
  | none => some (H, none)
  | some head => (H head).bind fun c =>
    if c.val = some item then some (H, some head)
    else
      (match c.val with
      | some _ => some H
      | none => (lastOf H n head).bind fun l => setLast H head (some l)).bind fun H =>
        (H item).bind fun c => (setNextOf H c.prev c.next).bind fun H => c.next.bind fun next =>
          (setPrev H next c.prev).bind fun H =>
            let first := if c.prev = none then next else head
            (putLast H head first item).map fun H => (H, some first)

/-! ### Writes in another order -/

theorem modify_comm (H : Heap A) (hab : a ≠ b) (f g : Cell A (Option A) → Cell A (Option A)) :
    ((Chain.modify H a f).bind fun H => Chain.modify H b g) =
      (Chain.modify H b g).bind fun H => Chain.modify H a f := by
  unfold Chain.modify
  cases ha : H a with
  | none =>
    cases hb : H b with
    | none => rfl
    | some d => simp [update_of_ne hab, ha]
  | some c =>
    cases hb : H b with
    | none => simp [update_of_ne (symm hab), hb]
    | some d =>
      simp [update_of_ne (symm hab), update_of_ne hab, ha, hb,
        update_comm hab]

theorem setPrev_setNext (H : Heap A) (a b : A) (u v : Option A) :
    ((setPrev H a u).bind fun H => setNext H b v) =
      (setNext H b v).bind fun H => setPrev H a u := by
  by_cases hab : a = b
  · subst hab
    unfold setPrev setNext Chain.modify
    cases ha : H a with
    | none => rfl
    | some c => simp
  · exact modify_comm H hab _ _

theorem setPrev_setPrev (H : Heap A) (hab : a ≠ b) (u v : Option A) :
    ((setPrev H a u).bind fun H => setPrev H b v) =
      (setPrev H b v).bind fun H => setPrev H a u :=
  modify_comm H hab _ _

theorem setPrev_setLast (H : Heap A) (hab : a ≠ b) (u : Option A) :
    ((setPrev H a u).bind fun H => (H a).bind fun c => setLast H b c.val) =
      (H a).bind fun c => (setLast H b c.val).bind fun H => setPrev H a u := by
  unfold setPrev setLast Chain.modify
  cases ha : H a with
  | none => rfl
  | some c =>
    cases hb : H b with
    | none => simp [update_of_ne (symm hab), hb]
    | some d =>
      simp [update_of_ne (symm hab), update_of_ne hab, ha, hb,
        update_comm hab]

theorem next_of_setPrev {v w : Option A} (h : setPrev H b w = some H')
    (ha : ∃ c, H a = some c ∧ c.next = v) : ∃ c, H' a = some c ∧ c.next = v := by
  obtain ⟨c, hc, hv⟩ := ha
  by_cases hab : a = b
  · subst hab
    have hset : setPrev H a w = some _ := modify_eq hc _
    obtain rfl := some.inj (hset.symm.trans h)
    exact ⟨_, update_self _ _ _, hv⟩
  · exact ⟨c, ((rewires_of_modify h).others a (by simpa using hab)).trans hc, hv⟩

/-! ### A node before another one -/

theorem prependRelative_head {c : Cell A (Option A)} (hc : H head = some c)
    (hprev : c.prev = none) : prependRelative H (some head) new (some head) =
      prepend H (some head) new := by
  unfold prependRelative prepend
  dsimp only
  rw [hc]
  simp only [bind_eq_bind, bind_some, hprev]

theorem prependRelative_later {head p : A} (hc : H x = some c)
    (hprev : c.prev = some p) (hd : H p = some d) (hnext : d.next = some x) (hx : new ≠ x)
    (hp : new ≠ p) (n : Nat) : prependRelative H (some head) new (some x) =
      appendRelative n H (some head) new (some p) := by
  have hwrites : ((setPrev H new (some p)).bind fun H => (setNext H new (some x)).bind fun H =>
        (setPrev H x (some new)).bind fun H => setNext H p (some new)) =
      (setNext H new (some x)).bind fun H => (setPrev H x (some new)).bind fun H =>
        (setNext H p (some new)).bind fun H => setPrev H new (some p) := by
    rw [← bind_assoc, setPrev_setNext, bind_assoc]
    congr 1
    funext H1
    rw [← bind_assoc, setPrev_setPrev H1 hx, bind_assoc]
    congr 1
    funext H2
    exact setPrev_setNext H2 new p _ _
  have hleft : prependRelative H (some head) new (some x) =
      ((setPrev H new (some p)).bind fun H => (setNext H new (some x)).bind fun H =>
        (setPrev H x (some new)).bind fun H => setNext H p (some new)).bind
          fun H => some (H, some head) := by
    unfold prependRelative
    dsimp only
    rw [hc]
    simp only [bind_eq_bind, bind_some, hprev, bind_assoc]
    rfl
  have hright : appendRelative n H (some head) new (some p) =
      ((setNext H new (some x)).bind fun H => (setPrev H x (some new)).bind fun H =>
        (setNext H p (some new)).bind fun H => setPrev H new (some p)).bind fun H =>
          (H new).bind fun c =>
            if c.next = none then (setLast H head (some new)).bind fun H => some (H, some head)
            else some (H, some head) := by
    unfold appendRelative
    dsimp only
    rw [hd]
    simp only [bind_eq_bind, bind_some, hnext, bind_assoc]
    rfl
  rw [hleft, hright, hwrites]
  -- the new node has a node behind it, so `last` is not written
  refine bind_congr fun H' hH' => ?_
  obtain ⟨H1, h1, hrest⟩ := bind_eq_some_iff.mp hH'
  obtain ⟨H2, h2, hrest⟩ := bind_eq_some_iff.mp hrest
  obtain ⟨H3, h3, h4⟩ := bind_eq_some_iff.mp hrest
  obtain ⟨e, he, hen⟩ := next_of_setPrev h2 (next_of_setNext h1)
  have he3 : H3 new = some e := by
    rw [(rewires_of_modify h3).others new (by simpa using hp), he]
  obtain ⟨e', he', hen'⟩ := next_of_setPrev h4 ⟨e, he3, hen⟩
  rw [he', bind_some, if_neg (by rw [hen']; simp)]

theorem prependRelative_spec (h : Linked H list (l ++ x :: r)) (hnew : new ∉ l ++ x :: r)
    (halive : H new ≠ none) :
    ∃ H', prependRelative H list new (some x) = some (H', (l ++ new :: x :: r).head?) ∧
      Linked H' (l ++ new :: x :: r).head? (l ++ new :: x :: r) ∧
      Rewires H H' (new :: (l ++ x :: r)) := by
  rcases eq_nil_or_concat l with rfl | ⟨front, p, rfl⟩
  · obtain ⟨v, hv⟩ := h.get
    obtain rfl : list = some x := h.first
    rw [prependRelative_head hv rfl]
    exact prepend_spec h hnew halive
  rw [concat_eq_append] at h hnew ⊢
  obtain ⟨v, hv⟩ := h.get
  rw [getLast?_concat] at hv
  rw [append_assoc, singleton_append] at h hnew ⊢
  obtain ⟨u, hu⟩ := h.get
  obtain ⟨head, rfl⟩ : ∃ head, list = some head := by
    rw [h.first]
    cases front <;> exact ⟨_, rfl⟩
  simp only [mem_append, mem_cons, not_or] at hnew
  obtain ⟨H', hadd, hlist, hw⟩ := appendRelative_spec h (by simp [hnew]) halive 0
  have hhead : some head = (front ++ p :: new :: x :: r).head? := by
    rw [h.first]
    cases front <;> rfl
  rw [append_assoc, ← hhead,
    prependRelative_later hv rfl hu rfl hnew.2.2.1 hnew.2.1]
  exact ⟨H', hadd, hlist, hw⟩

/-! ### Moving a node to the front -/

theorem putFirst_eq (H : Heap A) (hx : head ≠ x) :
    putFirst H head x = prepend H (some head) x := by
  have hleft : putFirst H head x =
      ((setNext H x (some head)).bind fun H => setPrev H x none).bind fun H =>
        ((H head).bind fun c => (setLast H x c.val).bind fun H => setPrev H head (some x)).bind
          fun H => (setLast H head none).bind fun H => some (H, some x) := by
    simp only [bind_assoc]
    rfl
  have hright : prepend H (some head) x =
      ((setPrev H x none).bind fun H => setNext H x (some head)).bind fun H =>
        ((setPrev H head (some x)).bind fun H => (H head).bind fun c => setLast H x c.val).bind
          fun H => (setLast H head none).bind fun H => some (H, some x) := by
    simp only [bind_assoc]
    rfl
  rw [hleft, hright, setPrev_setNext]
  refine bind_congr fun H' _ => ?_
  rw [setPrev_setLast H' hx]

/-- **A node is made the first one.** -/
theorem promote_spec (h : Linked H list (l ++ x :: r)) :
    ∃ H', promote H list x = some (H', some x) ∧ Linked H' (some x) (x :: (l ++ r)) ∧
      Rewires H H' (l ++ x :: r) := by
  rcases eq_nil_or_concat l with rfl | ⟨front, p, hl⟩
  · obtain rfl : list = some x := h.first
    refine ⟨H, ?_, h, Rewires.refl _ _⟩
    rw [promote, if_pos rfl]
  rw [concat_eq_append] at hl
  obtain ⟨head, v, H1, H2, H3, rfl, hcell, h1, hsame, h2, h3, hlist, ⟨c, hc⟩, hw⟩ := unlink_spec h
  have hlast : l.getLast? = some p := by rw [hl, getLast?_concat]
  obtain ⟨b, rest, rfl⟩ : ∃ b rest, l = b :: rest := by
    rw [hl]
    cases front <;> exact ⟨_, _, rfl⟩
  obtain rfl : head = b := some.inj h.first
  have hnodup := h.nodup
  rw [nodup_middle, nodup_cons] at hnodup
  have hx : head ≠ x := by
    rintro rfl
    exact hnodup.1 (by simp)
  rw [hlast] at hcell h1
  have hcell1 := hsame.trans hcell
  have hnext : setNext H1 p r.head? = some H2 := by
    unfold bypass at h2
    rw [hcell1] at h2
    obtain ⟨H', hH', hpair⟩ := map_eq_some_iff.mp h2
    obtain rfl : H' = H2 := congrArg Prod.fst hpair
    exact hH'
  obtain ⟨H', hput, hlist', hw'⟩ := prepend_spec hlist hnodup.1 (by rw [hc]; simp)
  refine ⟨H', ?_, hlist', hw.trans (hw'.mono fun y hy => ?_)⟩
  · unfold promote
    dsimp only
    rw [if_neg (symm hx), hcell, bind_some, h1, bind_some, hcell1,
      bind_some, bind_some, hnext, bind_some, h3, bind_some,
      putFirst_eq H3 hx]
    exact hput
  · rcases mem_cons.mp hy with rfl | hy
    · simp
    rcases mem_append.mp hy with hy | hy
    · exact mem_append_left _ hy
    · exact mem_append_right _ (mem_cons_of_mem _ hy)

/-! ### Moving a node to the end -/

theorem putLast_spec {head first z : A} {u : Option A}
    {ps : List (A × Option A)} (hhead : H head = some c) (hc : c.val = some z)
    (hseg : Seg H none ((first, u) :: ps) none) (hz : last (some first) ps = some z)
    (hx : H x = some d) (hnodup : (x :: first :: keys ps).Nodup) :
    ∃ H', putLast H head first x = some H' ∧
      Linked H' (some first) (first :: keys ps ++ [x]) ∧ Rewires H H' (x :: first :: keys ps) := by
  obtain ⟨hapart, hkeys⟩ := nodup_cons.mp hnodup
  obtain ⟨H1, h1, hseg1, hsame1⟩ := hseg.setNextOf hkeys (some x)
  rw [last_cons, hz] at h1
  have hw1 := rewires_setNextOf h1
  have h2 : setPrev H1 x (some z) = some _ := modify_eq ((hsame1 x hapart).trans hx) _
  have hw2 := rewires_of_modify h2
  have hx2 := update_self x (some { d with prev := some z }) H1
  generalize update H1 x _ = H2 at h2 hw2 hx2
  have h3 : setNext H2 x none = some _ := modify_eq hx2 _
  have hw3 := rewires_of_modify h3
  have hx3 := update_self x (some (⟨none, some z, d.val⟩ : Cell A (Option A))) H2
  generalize update H2 x _ = H3 at h3 hw3 hx3
  have hseg3 := seg_apart (seg_apart hseg1 hw2 hapart) hw3 hapart
  have hjoined : Seg H3 none ((first, u) :: (ps ++ [(x, d.val)])) none := by
    rw [← cons_append, seg_append]
    refine ⟨hseg3, ?_, trivial⟩
    rw [hx3, last_cons, hz]
    rfl
  have hkeys' : keys (ps ++ [(x, d.val)]) = keys ps ++ [x] := by simp
  have hnodup' : (first :: keys (ps ++ [(x, d.val)])).Nodup := by
    rw [hkeys']
    exact (perm_append_singleton x _).nodup_iff.mpr hnodup
  obtain ⟨H4, h4, hlist, hw4⟩ := linked_setLast hjoined hnodup'
  rw [last_append, last_cons, last_nil] at h4
  rw [hkeys'] at hlist
  refine ⟨H4, ?_, hlist, (((hw1.mono ?_).trans (hw2.mono ?_)).trans (hw3.mono ?_)).trans
    (hw4.mono ?_)⟩
  · unfold putLast
    rw [hhead, bind_some, hc, bind_some, show setNext H z (some x) = some H1 from h1,
      bind_some, h2, bind_some, h3, bind_some, h4]
  · intro y hy
    obtain rfl : y = z := by simpa using hy
    rcases last_mem hz with hyf | hmem
    · rw [some.inj hyf]
      simp
    · simp [hmem]
  · simp
  · simp
  · simp

/-- **A node is made the last one.** -/
theorem demote_spec (h : Linked H list (l ++ x :: r)) (n : Nat) :
    ∃ H', demote n H list x = some (H', (l ++ r ++ [x]).head?) ∧
      Linked H' (l ++ r ++ [x]).head? (l ++ r ++ [x]) ∧ Rewires H H' (l ++ x :: r) := by
  obtain ⟨head, hhead⟩ : ∃ head, (l ++ x :: r).head? = some head := by
    cases l <;> exact ⟨_, rfl⟩
  obtain rfl : list = some head := h.first.trans hhead
  obtain ⟨c, hc, hcv⟩ : ∃ c, H head = some c ∧ c.val = (l ++ x :: r).getLast? := by
    obtain ⟨ys, hys⟩ := head?_eq_some_iff.mp hhead
    rw [hys] at h ⊢
    exact ⟨_, h.head, rfl⟩
  cases r with
  | nil =>
    have hkept : l ++ [] ++ [x] = l ++ [x] := by rw [append_nil]
    rw [hkept, ← h.first]
    refine ⟨H, ?_, h, Rewires.refl _ _⟩
    have hv : c.val = some x := by rw [hcv, getLast?_append_cons, getLast?_singleton]
    rw [demote, hc, bind_some, if_pos hv]
  | cons y r =>
    obtain ⟨pl, v, pr, rfl, hpr, hsegl, hsegr, -⟩ := h.split
    obtain ⟨⟨y', w⟩, ps, rfl, hy, hps⟩ := map_eq_cons_iff.mp hpr
    obtain rfl : y' = y := hy
    obtain rfl : keys ps = r := hps
    obtain ⟨hsegl, hcell, -⟩ := seg_append.mp hsegl
    have hnodup := h.nodup
    rw [nodup_middle, nodup_cons] at hnodup
    obtain ⟨hapart, hnodup⟩ := hnodup
    have hkeys : keys (pl ++ (y', w) :: ps) = keys pl ++ y' :: keys ps := keys_append _ _
    rw [← hkeys] at hnodup
    have hx : x ∉ keys (pl ++ (y', w) :: ps) := by rwa [hkeys]
    obtain ⟨H1, H2, h1, h2, hsegl2, hsegr2, hsame2⟩ :=
      hsegl.setEnds' hsegr hnodup (last none pl) (some y')
    have hjoined : Seg H2 none (pl ++ (y', w) :: ps) none := seg_append.mpr ⟨hsegl2, hsegr2⟩
    have hw2 : Rewires H H2 (keys pl ++ x :: y' :: keys ps) := by
      refine ((rewires_setNextOf h1).mono ?_).trans ((rewires_setPrevOf h2).mono ?_)
      · intro a ha
        rcases last_mem (mem_toList.mp ha) with hbad | ha
        · simp at hbad
        · simp [ha]
      · simp
    obtain ⟨z, hz⟩ : ∃ z, (y' :: keys ps).getLast? = some z :=
      ⟨_, getLast?_eq_some_getLast (cons_ne_nil _ _)⟩
    have hzval : c.val = some z := by
      rw [hcv, getLast?_append_cons]
      exact hz
    have hzx : ¬c.val = some x := by
      rw [hzval, some.injEq]
      intro hzx
      exact hx (by rw [hkeys, ← hzx]; exact mem_append_right _ (mem_of_mem_getLast? hz))
    have hcell2 : H2 x = some ⟨some y', last none pl, v⟩ := (hsame2 x hx).trans hcell
    have hbegin : demote n H (some head) x =
        (putLast H2 head (if last none pl = none then y' else head) x).map
          fun H => (H, some (if last none pl = none then y' else head)) := by
      unfold demote
      dsimp only
      rw [hc, bind_some, if_neg hzx, hzval, bind_some, hcell]
      dsimp only [first_nil, first_cons]
      rw [bind_some, h1, bind_some, bind_some,
        show setPrev H1 y' (last none pl) = some H2 from h2, bind_some]
    have hput : ∃ f u qs, pl ++ (y', w) :: ps = (f, u) :: qs ∧
        (if last none pl = none then y' else head) = f ∧ ∃ d, H2 head = some d ∧
          d.val = some z := by
      cases pl with
      | nil =>
        obtain rfl : x = head := some.inj hhead
        rw [hcell] at hc
        exact ⟨y', w, ps, rfl, rfl, _, hcell2, (congrArg Cell.val (some.inj hc)).trans hzval⟩
      | cons q front =>
        obtain rfl : q.1 = head := some.inj hhead
        refine ⟨q.1, q.2, front ++ (y', w) :: ps, rfl, if_neg ?_, _, hjoined.1, ?_⟩
        · intro hnone
          exact absurd (last_eq_none.mp hnone).2 (by simp)
        · rw [← hzval, ← some.inj (hsegl.1.symm.trans hc)]
    obtain ⟨f, u, qs, hcons, hf, d, hd, hdz⟩ := hput
    rw [hcons] at hjoined hnodup hx hkeys
    have hend : last (some f) qs = some z := by
      rw [← last_cons none (f, u) qs, ← hcons, last_append, last_cons, last_keys, ← hz,
        getLast?_cons]
      cases (keys ps).getLast? <;> rfl
    obtain ⟨H', hH', hlist, hw⟩ :=
      putLast_spec hd hdz hjoined hend hcell2 (nodup_cons.mpr ⟨hx, hnodup⟩)
    refine ⟨H', ?_, ?_, hw2.trans (hw.mono fun a ha => ?_)⟩
    · rw [hbegin, hf, hH', ← hkeys]
      rfl
    · rw [← hkeys]
      exact hlist
    · rcases mem_cons.mp ha with rfl | ha
      · simp
      have ha' : a ∈ keys ((f, u) :: qs) := ha
      rw [hkeys, mem_append] at ha'
      rcases ha' with ha' | ha'
      · exact mem_append_left _ ha'
      · exact mem_append_right _ (mem_cons_of_mem _ ha')

end Eina.Inlist
