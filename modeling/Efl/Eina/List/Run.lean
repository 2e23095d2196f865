/-
Runs of list operations over any number of lists.

One lemma for each call, from the lemmas about the functions; `step_models` collects
them.  By the run rule every run is defined and ends in memory that represents what the
abstract run ends in.
-/
import Mathlib.Algebra.Group.Nat.Defs
import Efl.Lib.Runs
import Efl.Eina.List.State

namespace Eina.Lists

open Chain List Option Function

variable {Data : Type}

/-! ### The steps -/

section Steps

variable {s : State Data} {L : Layout Data} {S : Seqs Data} {i j : Nat}

variable {α : Type}

theorem insertIdx_cut (l r : List α) (x : α) :
    (l ++ r).insertIdx l.length x = l ++ x :: r := by
  induction l with
  | nil => simp
  | cons y l ih => simp [ih]

theorem eraseIdx_cut (l r : List α) (x : α) :
    (l ++ x :: r).eraseIdx l.length = l ++ r := by
  rw [eraseIdx_append_of_length_le (le_rfl), Nat.sub_self, eraseIdx_cons_zero]

theorem getElem?_cut (l r : List α) (x : α) : (l ++ x :: r)[l.length]? = some x := by
  simp

theorem Holds.member_cases (h : Holds s L) (i k : Nat) :
    (∃ l z d r, (L i).2 = l ++ (z, d) :: r ∧ l.length = k ∧ s.member i k = some (some z)) ∨
      ((datas (L i).2).length ≤ k ∧ s.member i k = some none) := by
  have hmember := nthList_eq (h.lists i) k
  by_cases hk : k < (L i).2.length
  · obtain ⟨l, z, d, r, hcut, hlength, hget⟩ := cut_at hk
    rw [hget] at hmember
    exact .inl ⟨l, z, d, r, hcut, hlength, hmember⟩
  · rw [getElem?_eq_none (Nat.le_of_not_lt hk)] at hmember
    exact .inr ⟨by rw [length_datas]; exact Nat.le_of_not_lt hk, hmember⟩

variable {l r : List (Addr × Option Data)} {z : Addr} {d : Option Data}

theorem Holds.filled (h : Holds s L) (hcut : (L i).2 = l ++ (z, d) :: r) :
    Filled s.mem (L i).1 (l ++ (z, d) :: r) ∧ s.vars i = first (l ++ (z, d) :: r) none := by
  have hlist := h.lists i
  rw [hcut] at hlist
  exact ⟨hlist.2 (by simp), hlist.1⟩

theorem Holds.member_step (h : Holds s L) (hS : ∀ k, datas (L k).2 = S k) {k : Nat}
    (call : Option Addr → Option (Mem Data × Option Addr))
    (f : List (Option Data) → List (Option Data))
    (hsome : ∀ l z d r, Filled s.mem (L i).1 (l ++ (z, d) :: r) →
      s.vars i = first (l ++ (z, d) :: r) none → l.length = k →
      Yields s.mem (nodes (l ++ (z, d) :: r)) (records (L i).1 (l ++ (z, d) :: r)) (call (some z))
        (f (datas l ++ d :: datas r)))
    (hnone : (S i).length ≤ k →
      Yields s.mem (nodes (L i).2) (records (L i).1 (L i).2) (call none) (f (S i))) :
    ∃ s', (do
        let x ← s.member i k
        (s.assign i (call x)).map (·, (none : Option Bool))) = some (s', none) ∧
      Models s' (update S i (f (S i))) := by
  rcases h.member_cases i k with ⟨l, z, d, r, hcut, hlength, hmember⟩ | ⟨hlong, hmember⟩
  · obtain ⟨hfill, hvar⟩ := h.filled hcut
    have hyields := hsome l z d r hfill hvar hlength
    have hseq : datas l ++ d :: datas r = S i := by
      rw [← hS, hcut, datas_append, datas_cons]
    rw [hseq, ← hcut] at hyields
    obtain ⟨s', hrun, hmodels⟩ := h.assign_models hS hyields (within_self L i)
    refine ⟨s', ?_, hmodels⟩
    rw [hmember, bind_eq_bind, bind_some, hrun, map_some]
  · rw [hS] at hlong
    obtain ⟨s', hrun, hmodels⟩ := h.assign_models hS (hnone hlong) (within_self L i)
    refine ⟨s', ?_, hmodels⟩
    rw [hmember, bind_eq_bind, bind_some, hrun, map_some]

theorem Holds.find_step [DecidableEq Data] (h : Holds s L) (hS : ∀ k, datas (L k).2 = S k)
    (data : Option Data) (call : Option Addr → Option (Mem Data × Option Addr))
    (f : List (Option Data) → List (Option Data))
    (hsome : ∀ l z r, Filled s.mem (L i).1 (l ++ (z, data) :: r) →
      s.vars i = first (l ++ (z, data) :: r) none → data ∉ datas l →
      Yields s.mem (nodes (l ++ (z, data) :: r)) (records (L i).1 (l ++ (z, data) :: r))
        (call (some z)) (f (datas l ++ data :: datas r)))
    (hnone : data ∉ S i →
      Yields s.mem (nodes (L i).2) (records (L i).1 (L i).2) (call none) (f (S i))) :
    ∃ s', s.assign i (do
        let x ← s.mem.dataFindList (s.vars i) data
        call x) = some s' ∧ Models s' (update S i (f (S i))) := by
  have hfind := dataFindList_eq (h.lists i) data
  cases hx : (L i).2.find? fun x => x.2 = data with
  | none =>
    rw [hx] at hfind
    have hmem := notMem_of_find hx
    rw [hS] at hmem
    rw [hfind]
    exact h.assign_models hS (hnone hmem) (within_self L i)
  | some x =>
    obtain ⟨rfl, l, r, hcut, hmem⟩ := find_cut hx
    obtain ⟨hfill, hvar⟩ := h.filled hcut
    have hyields := hsome l x.1 r hfill hvar hmem
    have hseq : datas l ++ x.2 :: datas r = S i := by
      rw [← hS, hcut, datas_append, datas_cons]
    rw [hseq, ← hcut] at hyields
    rw [hx] at hfind
    rw [hfind]
    exact h.assign_models hS hyields (within_self L i)

variable (m : Mem Data) (list : Option Addr)

theorem appendRelativeList_none (data : Option Data) :
    m.appendRelativeList list data none = m.append list data := by
  cases list <;> rfl

theorem prependRelativeList_none (data : Option Data) :
    m.prependRelativeList list data none = m.prepend list data := by
  cases list <;> rfl

theorem removeList_none :
    m.removeList list none = some (m, list) := by
  cases list <;> rfl

theorem promoteList_none :
    m.promoteList list none = some (m, list) := by
  cases list <;> rfl

theorem demoteList_none :
    m.demoteList list none = some (m, list) := by
  cases list <;> rfl

variable [DecidableEq Data] (data relative : Option Data)

theorem appendRelativeList_step (h : Holds s L) (hS : ∀ k, datas (L k).2 = S k)
    (data : Option Data) (k : Nat) :
    ∃ s', step s (.appendRelativeList i data k) = some (s', none) ∧
      Models s' (next S (.appendRelativeList i data k)).1 := by
  refine h.member_step hS (fun x => s.mem.appendRelativeList (s.vars i) data x)
    (fun ds => if k < ds.length then ds.insertIdx (k + 1) data else ds ++ [data]) ?_ ?_
  · intro l z d r hfill hvar hlength
    have hinsert := insertIdx_cut (datas l ++ [d]) (datas r) data
    rw [length_append, length_datas, hlength, length_singleton, append_assoc,
      append_assoc] at hinsert
    rw [if_pos (by simp; omega), show datas l ++ d :: datas r = datas l ++ ([d] ++ datas r) from
      rfl, hinsert, hvar]
    exact appendRelativeList_yields hfill data
  · intro hlong
    rw [if_neg (Nat.not_lt_of_le hlong), appendRelativeList_none, ← hS]
    exact append_yields (h.lists i) data

theorem prependRelativeList_step (h : Holds s L) (hS : ∀ k, datas (L k).2 = S k)
    (data : Option Data) (k : Nat) :
    ∃ s', step s (.prependRelativeList i data k) = some (s', none) ∧
      Models s' (next S (.prependRelativeList i data k)).1 := by
  refine h.member_step hS (fun x => s.mem.prependRelativeList (s.vars i) data x)
    (fun ds => if k < ds.length then ds.insertIdx k data else data :: ds) ?_ ?_
  · intro l z d r hfill hvar hlength
    have hinsert := insertIdx_cut (datas l) (d :: datas r) data
    rw [length_datas, hlength] at hinsert
    rw [if_pos (by simp; omega), hinsert, hvar]
    exact prependRelativeList_yields hfill data
  · intro hlong
    rw [if_neg (Nat.not_lt_of_le hlong), prependRelativeList_none, ← hS]
    exact prepend_yields (h.lists i) data

theorem removeList_step (h : Holds s L) (hS : ∀ k, datas (L k).2 = S k) (k : Nat) :
    ∃ s', step s (.removeList i k) = some (s', none) ∧
      Models s' (next S (.removeList i k)).1 := by
  refine h.member_step hS (fun x => s.mem.removeList (s.vars i) x) (fun ds => ds.eraseIdx k) ?_ ?_
  · intro l z d r hfill hvar hlength
    have herase := eraseIdx_cut (datas l) (datas r) d
    rw [length_datas, hlength] at herase
    rw [herase, hvar]
    exact removeList_yields hfill
  · intro hlong
    rw [removeList_none, eraseIdx_of_length_le hlong, ← hS]
    exact yields_self (h.lists i)

theorem promoteList_step (h : Holds s L) (hS : ∀ k, datas (L k).2 = S k) (k : Nat) :
    ∃ s', step s (.promoteList i k) = some (s', none) ∧
      Models s' (next S (.promoteList i k)).1 := by
  refine h.member_step hS (fun x => s.mem.promoteList (s.vars i) x)
    (fun ds => ds[k]?.toList ++ ds.eraseIdx k) ?_ ?_
  · intro l z d r hfill hvar hlength
    have herase := eraseIdx_cut (datas l) (datas r) d
    have hget := getElem?_cut (datas l) (datas r) d
    rw [length_datas, hlength] at herase hget
    rw [herase, hget, hvar]
    exact promoteList_yields hfill
  · intro hlong
    rw [promoteList_none, eraseIdx_of_length_le hlong, getElem?_eq_none hlong, ← hS]
    exact yields_self (h.lists i)

theorem demoteList_step (h : Holds s L) (hS : ∀ k, datas (L k).2 = S k) (k : Nat) :
    ∃ s', step s (.demoteList i k) = some (s', none) ∧
      Models s' (next S (.demoteList i k)).1 := by
  refine h.member_step hS (fun x => s.mem.demoteList (s.vars i) x)
    (fun ds => ds.eraseIdx k ++ ds[k]?.toList) ?_ ?_
  · intro l z d r hfill hvar hlength
    have herase := eraseIdx_cut (datas l) (datas r) d
    have hget := getElem?_cut (datas l) (datas r) d
    rw [length_datas, hlength] at herase hget
    rw [herase, hget, hvar]
    exact demoteList_yields hfill
  · intro hlong
    rw [demoteList_none, eraseIdx_of_length_le hlong, getElem?_eq_none hlong,
      toList_none, append_nil, ← hS]
    exact yields_self (h.lists i)

omit [DecidableEq Data] in
theorem map_none_of_models {call : Option (State Data)} {S : Seqs Data}
    (h : ∃ s', call = some s' ∧ Models s' S) :
    ∃ s', call.map (·, (none : Option Bool)) = some (s', none) ∧ Models s' S := by
  obtain ⟨s', rfl, hmodels⟩ := h
  exact ⟨s', rfl, hmodels⟩

theorem appendRelative_eq :
    m.appendRelative list data relative = (do
      let x ← m.dataFindList list relative
      m.appendRelativeList list data x) := by
  unfold Mem.appendRelative
  congr 1
  funext x
  cases x with
  | none => exact (appendRelativeList_none m list data).symm
  | some x => rfl

theorem prependRelative_eq :
    m.prependRelative list data relative = (do
      let x ← m.dataFindList list relative
      m.prependRelativeList list data x) := by
  unfold Mem.prependRelative
  congr 1
  funext x
  cases x with
  | none => exact (prependRelativeList_none m list data).symm
  | some x => rfl

theorem idxOf_cut {l r : List (Option Data)} (h : d ∉ l) :
    (l ++ d :: r).idxOf d = l.length := by
  rw [idxOf_append_of_notMem h, idxOf_cons_self, Nat.add_zero]

theorem appendRelative_step (h : Holds s L) (hS : ∀ k, datas (L k).2 = S k)
    (data relative : Option Data) :
    ∃ s', step s (.appendRelative i data relative) = some (s', none) ∧
      Models s' (next S (.appendRelative i data relative)).1 := by
  refine map_none_of_models ?_
  rw [appendRelative_eq]
  refine h.find_step hS relative (fun x => s.mem.appendRelativeList (s.vars i) data x)
    (fun ds => if relative ∈ ds then ds.insertIdx (ds.idxOf relative + 1) data else ds ++ [data])
    ?_ ?_
  · intro l z r hfill hvar hmem
    have hinsert := insertIdx_cut (datas l ++ [relative]) (datas r) data
    rw [length_append, length_singleton, append_assoc, append_assoc] at hinsert
    rw [if_pos (by simp), idxOf_cut hmem,
      show datas l ++ relative :: datas r = datas l ++ ([relative] ++ datas r) from rfl, hinsert,
      hvar]
    exact appendRelativeList_yields hfill data
  · intro hmem
    rw [if_neg hmem, appendRelativeList_none, ← hS]
    exact append_yields (h.lists i) data

theorem prependRelative_step (h : Holds s L) (hS : ∀ k, datas (L k).2 = S k)
    (data relative : Option Data) :
    ∃ s', step s (.prependRelative i data relative) = some (s', none) ∧
      Models s' (next S (.prependRelative i data relative)).1 := by
  refine map_none_of_models ?_
  rw [prependRelative_eq]
  refine h.find_step hS relative (fun x => s.mem.prependRelativeList (s.vars i) data x)
    (fun ds => if relative ∈ ds then ds.insertIdx (ds.idxOf relative) data else data :: ds) ?_ ?_
  · intro l z r hfill hvar hmem
    rw [if_pos (by simp), idxOf_cut hmem, insertIdx_cut, hvar]
    exact prependRelativeList_yields hfill data
  · intro hmem
    rw [if_neg hmem, prependRelativeList_none, ← hS]
    exact prepend_yields (h.lists i) data

theorem remove_step (h : Holds s L) (hS : ∀ k, datas (L k).2 = S k) (data : Option Data) :
    ∃ s', step s (.remove i data) = some (s', none) ∧ Models s' (next S (.remove i data)).1 := by
  refine map_none_of_models ?_
  refine h.find_step hS data (fun x => s.mem.removeList (s.vars i) x) (fun ds => ds.erase data)
    ?_ ?_
  · intro l z r hfill hvar hmem
    rw [erase_append_right _ hmem, erase_cons_head, hvar]
    exact removeList_yields hfill
  · intro hmem
    rw [removeList_none, erase_of_not_mem hmem, ← hS]
    exact yields_self (h.lists i)

/-! ### Two lists at once -/

omit [DecidableEq Data] in
theorem within_both (L : Layout Data) (i j : Nat) :
    Within L i j (nodes (L i).2 ∪ nodes (L j).2)
      (records (L i).1 (L i).2 ∪ records (L j).1 (L j).2) :=
  ⟨fun _ hx => hx, fun _ hb => hb⟩

theorem merge_step (h : Holds s L) (hS : ∀ k, datas (L k).2 = S k) (hij : i ≠ j) :
    ∃ s', step s (.merge i j) = some (s', none) ∧ Models s' (next S (.merge i j)).1 := by
  refine map_none_of_models ?_
  have hyields := merge_yields (h.lists i) (h.lists j) (h.apart i j hij).nodes
    (h.apart i j hij).records
  rw [hS, hS] at hyields
  exact h.assignFrom_models hS hyields (within_both L i j)

theorem sortedMerge_step (h : Holds s L) (hS : ∀ k, datas (L k).2 = S k) (hij : i ≠ j)
    (func : Option Data → Option Data → Int) :
    ∃ s', step s (.sortedMerge i j func) = some (s', none) ∧
      Models s' (next S (.sortedMerge i j func)).1 := by
  refine map_none_of_models ?_
  have hyields := sortedMerge_yields func (h.lists i) (h.lists j) (h.apart i j hij).nodes
    (h.apart i j hij).records
  rw [hS, hS] at hyields
  exact h.assignFrom_models hS hyields (within_both L i j)

omit [DecidableEq Data] in
theorem splitList_none :
    m.splitList list none = some (m, none, list) := by
  unfold Mem.splitList
  cases list <;> rfl

omit [DecidableEq Data] in
/-- `eina_list_split_list` at a node, in the variables. -/
theorem Holds.split (h : Holds s L) (hcut : (L i).2 = l ++ (z, d) :: r) (j : Nat) :
    ∃ s' b, s.splitList i (some z) j = some s' ∧
      Holds s' (update (update L j (b, r)) i ((L i).1, l ++ [(z, d)])) := by
  obtain ⟨hfill, hvar⟩ := h.filled hcut
  obtain ⟨m, left, right, b, hrun, hleft, hright, hframe, hb⟩ := splitList_spec hfill
  rw [← hvar] at hrun
  rw [← hcut] at hframe
  have hsplit : (L i).2 = (l ++ [(z, d)]) ++ r := by
    rw [hcut]
    simp
  have hkeys : ∀ x, x ∈ nodes (L i).2 ↔ x ∈ keys (l ++ [(z, d)]) ∨ x ∈ keys r := by
    intro x
    rw [← mem_append, ← keys_append, ← hsplit]
    rfl
  have hne : (L i).2 ≠ [] := by
    rw [hcut]
    simp
  have hchangel : Change s.mem m (nodes (L i).2) (records (L i).1 (L i).2) (L i).1
      (l ++ [(z, d)]) :=
    ⟨hframe, fun x hx => .inl ((hkeys x).mpr (.inl hx)), fun c hc => .inl ⟨hc.1, hne⟩⟩
  have hchanger : Change s.mem m (nodes (L i).2) (records (L i).1 (L i).2) b r :=
    ⟨hframe, fun x hx => .inl ((hkeys x).mpr (.inr hx)), fun c hc => .inr (hc.1 ▸ hb)⟩
  refine ⟨_, b, by rw [State.splitList, hrun, map_some], ?_⟩
  refine h.assign₂ hleft (fun _ => hright) (fun _ => ⟨?_, ?_⟩) ?_
  · intro x hx hx'
    have hnodup := hfill.nodup
    rw [← hcut, hsplit, keys_append, nodup_append] at hnodup
    exact hnodup.2.2 x hx x hx' rfl
  · rintro c ⟨rfl, -⟩ ⟨hc, -⟩
    exact Nat.not_le_of_lt hfill.recordBound (hc ▸ hb)
  · intro k hi hj
    exact ⟨h.untouched hframe (within_self L i) hi hi,
      h.apart_change hchangel (within_self L i) hi hi,
      h.apart_change hchanger (within_self L i) hi hi⟩

theorem splitList_step (h : Holds s L) (hS : ∀ k, datas (L k).2 = S k) (k j : Nat) :
    ∃ s', step s (.splitList i k j) = some (s', none) ∧
      Models s' (next S (.splitList i k j)).1 := by
  rcases h.member_cases i k with ⟨l, z, d, r, hcut, hlength, hmember⟩ | ⟨hlong, hmember⟩
  · obtain ⟨s', b, hrun, hholds⟩ := h.split hcut j
    refine ⟨s', ?_, _, hholds, ?_⟩
    · rw [step, hmember, bind_eq_bind, bind_some, hrun, map_some]
    · have hseq : S i = (datas l ++ [d]) ++ datas r := by
        rw [← hS, hcut]
        simp
      have hlength' : k + 1 = (datas l ++ [d]).length := by simp [hlength]
      rw [next, if_pos (by rw [hseq]; simp; omega), hseq, hlength', take_left, drop_left]
      exact datas_update (datas_update hS rfl) (by simp)
  · rw [hS] at hlong
    refine ⟨⟨s.mem, update (update s.vars j (s.vars i)) i none⟩, ?_,
      update (update L j (L i)) i (0, []), ?_, ?_⟩
    · rw [step, hmember, bind_eq_bind, bind_some, State.splitList, splitList_none,
        map_some, map_some]
    · refine h.assign₂ (isList_nil _ 0) (fun _ => h.lists i) (fun _ => apart_nil 0 _) ?_
      intro k' hi hj
      exact ⟨h.lists k', apart_nil 0 _, h.apart i k' (symm hi)⟩
    · rw [next, if_neg (Nat.not_lt_of_le hlong)]
      exact datas_update (datas_update hS (hS i)) rfl

omit [DecidableEq Data] in
/-- A datum is appended to one list and removed from another. -/
theorem append_remove (h : Holds s L) (hS : ∀ k, datas (L k).2 = S k)
    (hcut : (L j).2 = l ++ (z, d) :: r) (i : Nat) (data : Option Data) :
    ∃ s1 s2 ds, s.assign i (s.mem.append (s.vars i) data) = some s1 ∧
      s1.assign j (s1.mem.removeList (s1.vars j) (some z)) = some s2 ∧
      update S i (S i ++ [data]) j = datas l ++ d :: ds ∧
      Models s2 (update (update S i (S i ++ [data])) j (datas l ++ ds)) := by
  obtain ⟨m1, head1, a1, hrun1, hlist1, hchange1⟩ := append_spec (h.lists i) data
  have h1 := h.assign hlist1 hchange1 (within_self L i)
  have hS1 : ∀ k, datas (update L i (a1, (L i).2 ++ [(s.mem.next, data)]) k).2 =
      update S i (S i ++ [data]) k := by
    refine datas_update hS ?_
    rw [← hS]
    exact datas_append
  have hcut1 : ∃ r1, (update L i (a1, (L i).2 ++ [(s.mem.next, data)]) j).2 =
      l ++ (z, d) :: r1 := by
    by_cases hij : j = i
    · subst hij
      rw [hcut]
      exact ⟨r ++ [(s.mem.next, data)], by simp⟩
    · rw [update_of_ne hij, hcut]
      exact ⟨r, rfl⟩
  obtain ⟨r1, hcut1⟩ := hcut1
  obtain ⟨hfill, hvar⟩ := h1.filled hcut1
  have hyields := removeList_yields hfill
  rw [← hvar, ← hcut1] at hyields
  obtain ⟨s2, hrun2, hmodels⟩ := h1.assign_models hS1 hyields (within_self _ j)
  refine ⟨_, s2, datas r1, by rw [State.assign, hrun1, map_some], hrun2, ?_, hmodels⟩
  rw [← hS1, hcut1, datas_append, datas_cons]

/-- One step for `eina_list_move`. -/
theorem move_step (h : Holds s L) (hS : ∀ k, datas (L k).2 = S k) (data : Option Data) :
    ∃ s', step s (.move i j data) = some (s', (next S (.move i j data)).2) ∧
      Models s' (next S (.move i j data)).1 := by
  cases data with
  | none => exact ⟨s, rfl, L, h, hS⟩
  | some d =>
    have hfind := dataFindList_eq (h.lists j) (some d)
    cases hx : (L j).2.find? fun x => x.2 = some d with
    | none =>
      rw [hx] at hfind
      have hmem := notMem_of_find hx
      rw [hS] at hmem
      rw [next, if_neg (fun hboth => hmem hboth.2)]
      refine ⟨s, ?_, L, h, hS⟩
      rw [step, State.move, hfind]
      rfl
    | some x =>
      obtain ⟨hxd, l, r, hcut, hmem⟩ := find_cut hx
      obtain ⟨s1, s2, ds, hrun1, hrun2, hseq, hmodels⟩ :=
        append_remove h hS hcut i (some d)
      have hmemS : some d ∈ S j := by
        rw [← hS, hcut, datas_append, datas_cons, hxd]
        simp
      rw [next, if_pos ⟨by simp, hmemS⟩]
      simp only
      rw [hseq, hxd, erase_append_right _ hmem, erase_cons_head]
      refine ⟨s2, ?_, hmodels⟩
      rw [hx, map_some] at hfind
      rw [step, State.move]
      simp only [hfind, bind_eq_bind, bind_some, hrun1, hrun2]
      rfl

theorem moveList_step (h : Holds s L) (hS : ∀ k, datas (L k).2 = S k) (k : Nat) :
    ∃ s', step s (.moveList i j k) = some (s', (next S (.moveList i j k)).2) ∧
      Models s' (next S (.moveList i j k)).1 := by
  rcases h.member_cases j k with ⟨l, z, d, r, hcut, hlength, hmember⟩ | ⟨hlong, hmember⟩
  · obtain ⟨s1, s2, ds, hrun1, hrun2, hseq, hmodels⟩ := append_remove h hS hcut i d
    obtain ⟨hfill, -⟩ := h.filled hcut
    have hget : (S j)[k]? = some d := by
      rw [← hS, hcut, datas_append, ← hlength, ← length_datas]
      exact getElem?_cut _ _ _
    have herase := eraseIdx_cut (datas l) ds d
    rw [length_datas, hlength] at herase
    rw [next, hget]
    simp only
    rw [hseq, herase]
    refine ⟨s2, ?_, hmodels⟩
    rw [step, hmember]
    simp only [bind_eq_bind, bind_some, State.moveList, hfill.get, hrun1, hrun2]
    rfl
  · rw [hS] at hlong
    rw [next, getElem?_eq_none hlong]
    refine ⟨s, ?_, L, h, hS⟩
    rw [step, hmember]
    rfl

theorem clone_step (h : Holds s L) (hS : ∀ k, datas (L k).2 = S k) :
    ∃ s', step s (.clone i j) = some (s', none) ∧ Models s' (next S (.clone i j)).1 := by
  refine map_none_of_models ?_
  have hyields := clone_yields (h.lists i)
  rw [hS] at hyields
  exact h.assign_models hS hyields
    ⟨fun _ hx => absurd hx (by simp), fun _ hb => absurd hb (by simp)⟩

/-- **One call does to the lists in memory what it does to the sequences.** -/
theorem step_models (hM : Models s S) (op : Op Data) (hop : op.Legal) :
    ∃ s', step s op = some (s', (next S op).2) ∧ Models s' (next S op).1 := by
  obtain ⟨L, h, hS⟩ := hM
  cases op with
  | append i data =>
    have hyields := append_yields (h.lists i) data
    rw [hS] at hyields
    exact map_none_of_models (h.assign_models hS hyields (within_self L i))
  | prepend i data =>
    have hyields := prepend_yields (h.lists i) data
    rw [hS] at hyields
    exact map_none_of_models (h.assign_models hS hyields (within_self L i))
  | appendRelative i data relative => exact appendRelative_step h hS data relative
  | appendRelativeList i data k => exact appendRelativeList_step h hS data k
  | prependRelative i data relative => exact prependRelative_step h hS data relative
  | prependRelativeList i data k => exact prependRelativeList_step h hS data k
  | remove i data => exact remove_step h hS data
  | removeList i k => exact removeList_step h hS k
  | promoteList i k => exact promoteList_step h hS k
  | demoteList i k => exact demoteList_step h hS k
  | reverse i =>
    have hyields := reverse_yields (h.lists i)
    rw [hS] at hyields
    exact map_none_of_models (h.assign_models hS hyields (within_self L i))
  | merge i j => exact merge_step h hS hop
  | splitList i k j =>
    obtain ⟨s', hrun, hmodels⟩ := splitList_step h hS k j
    refine ⟨s', ?_, hmodels⟩
    rw [hrun, next]
    split <;> rfl
  | sortedMerge i j func => exact sortedMerge_step h hS hop func
  | move i j data => exact move_step h hS data
  | moveList i j k => exact moveList_step h hS k
  | clone i j => exact clone_step h hS

/-- A program that holds no list yet. -/
def start : State Data := ⟨⟨fun _ => none, fun _ => none, 0⟩, fun _ => none⟩

omit [DecidableEq Data] in
theorem start_models : Models (start : State Data) fun _ => [] :=
  ⟨fun _ => (0, []), ⟨fun _ => isList_nil _ 0, fun _ _ _ => apart_nil 0 _⟩, fun _ => rfl⟩

/-- What the record of a list keeps of its length, in an `unsigned int`. -/
def State.storedCount (s : State Data) (i : Nat) : Option (BitVec 32) := do
  let list ← s.vars i
  let a ← s.mem.accountingOf list
  let r ← s.mem.accounting a
  some (BitVec.ofNat 32 r.count)

omit [DecidableEq Data] in
/-- The number does not wrap for a list of fewer than 2 ^ 32 nodes. -/
theorem Models.storedCount (h : Models s S) (hne : S i ≠ []) (hsmall : (S i).length < 2 ^ 32) :
    (s.storedCount i).map BitVec.toNat = some (S i).length := by
  obtain ⟨L, hL, hS⟩ := h
  obtain ⟨hvar, hfilled⟩ := hL.lists i
  rw [← hS] at hne hsmall ⊢
  rw [length_datas] at hsmall ⊢
  cases hxs : (L i).2 with
  | nil => exact absurd (by rw [hxs]; rfl) hne
  | cons x xs =>
    rw [hxs] at hvar hfilled hsmall
    have hfill := hfilled (by simp)
    rw [State.storedCount, hvar, bind_eq_bind, first_cons, bind_some,
      hfill.accountingOf mem_cons_self, bind_eq_bind, bind_some, hfill.record,
      bind_some, map_some, BitVec.toNat_ofNat, Nat.mod_eq_of_lt hsmall]

/--
**Every run of calls is defined and does to the lists in memory what it does to the
sequences**: each variable ends up with a list that is linked both ways, has one record
that knows its last node and its length, and holds the data of the sequence.  What the record
stores is the length as long as that is below 2 ^ 32.
-/
theorem run_models (ops : List (Op Data)) (hops : ∀ op ∈ ops, op.Legal) :
    ∃ s rs S, Runs.run step start ops = some (s, rs) ∧
      Runs.Traces (fun S op S' r => next S op = (S', r)) (fun _ => []) ops S rs ∧
      Models s S ∧ ∀ i, S i ≠ [] → (S i).length < 2 ^ 32 →
        (s.storedCount i).map BitVec.toNat = some (S i).length := by
  have hstep : ∀ (s : State Data) (S : Seqs Data) (op : Op Data), Models s S → op.Legal →
      ∃ s' r S', step s op = some (s', r) ∧ next S op = (S', r) ∧ Models s' S' := by
    intro s S op hM hop
    obtain ⟨s', hrun, hmodels⟩ := step_models hM op hop
    exact ⟨s', _, _, hrun, rfl, hmodels⟩
  obtain ⟨s, rs, S, hrun, htrace, hmodels⟩ := Runs.run_simulates hstep ops start (fun _ => [])
    start_models (Runs.meets_of_forall hops _)
  exact ⟨s, rs, S, hrun, htrace, hmodels, fun _ => hmodels.storedCount⟩

end Steps

/-- Two lists are built, joined, cut and reversed. -/
def twoLists : List (Op Nat) :=
  [.append 0 (some 3), .prepend 0 (some 1), .append 1 (some 2), .append 1 none,
    .sortedMerge 0 1 (fun d e => (d.getD 9 : Int) - (e.getD 9 : Int)), .splitList 0 1 1,
    .promoteList 1 1, .merge 1 0, .reverse 1, .move 0 1 (some 2)]

theorem run_models_two : ∃ s rs S, Runs.run step start twoLists = some (s, rs) ∧
    Runs.Traces (fun S op S' r => next S op = (S', r)) (fun _ => []) twoLists S rs ∧
    Models s S ∧ ∀ i, S i ≠ [] → (S i).length < 2 ^ 32 →
      (s.storedCount i).map BitVec.toNat = some (S i).length :=
  run_models twoLists (by simp [twoLists, Op.Legal])

end Eina.Lists
