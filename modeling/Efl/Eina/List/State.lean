/-
The lists of a program, and the calls that change them.

The lists a program holds are variables; a call reads some of them and assigns what it
returns.  A node that a call takes besides the list is a member of it, told by its
position; a position behind the end stands for a null pointer.  The abstract state is
the sequence of data in each variable, and `next` says what a call does to it.
`Models` relates the two: the variables hold lists that share nothing.
-/
import Efl.Eina.List.SortedMerge

namespace Eina.Lists

open Chain Function

variable {Data : Type}

/-! ### The calls -/

inductive Op (Data : Type) where
  | append (i : Nat) (data : Option Data)
  | prepend (i : Nat) (data : Option Data)
  | appendRelative (i : Nat) (data relative : Option Data)
  | appendRelativeList (i : Nat) (data : Option Data) (k : Nat)
  | prependRelative (i : Nat) (data relative : Option Data)
  | prependRelativeList (i : Nat) (data : Option Data) (k : Nat)
  | remove (i : Nat) (data : Option Data)
  | removeList (i k : Nat)
  | promoteList (i k : Nat)
  | demoteList (i k : Nat)
  | reverse (i : Nat)
  | merge (i j : Nat)
  | splitList (i k j : Nat)
  | sortedMerge (i j : Nat) (func : Option Data → Option Data → Int)
  | move (i j : Nat) (data : Option Data)
  | moveList (i j k : Nat)
  | clone (i j : Nat)

/-- The memory and the list variables of a program. -/
structure State (Data : Type) where
  mem : Mem Data
  vars : Nat → Option Addr

namespace State

variable (s : State Data)

/-- `list_i = call` -/
def assign (i : Nat) (call : Option (Mem Data × Option Addr)) : Option (State Data) :=
  call.map fun p => ⟨p.1, update s.vars i p.2⟩

/-- `list_i = call` where the call uses up `list_j`. -/
def assignFrom (i j : Nat) (call : Option (Mem Data × Option Addr)) : Option (State Data) :=
  call.map fun p => ⟨p.1, update (update s.vars j none) i p.2⟩

/-- `eina_list_move(&list_i, &list_j, data)`: the state and the truth value it returns. -/
def move [DecidableEq Data] (i j : Nat) (data : Option Data) : Option (State Data × Bool) :=
  match data with
  | none => some (s, false)
  | some d => do
    match ← s.mem.dataFindList (s.vars j) (some d) with
    | none => some (s, false)
    | some l => do
      let s ← s.assign i (s.mem.append (s.vars i) (some d))
      let s ← s.assign j (s.mem.removeList (s.vars j) (some l))
      return (s, true)

/-- `eina_list_move_list(&list_i, &list_j, data)` -/
def moveList (i j : Nat) (data : Option Addr) : Option (State Data × Bool) :=
  match data with
  | none => some (s, false)
  | some x => do
    let c ← s.mem.node x
    let s ← s.assign i (s.mem.append (s.vars i) c.val.data)
    let s ← s.assign j (s.mem.removeList (s.vars j) (some x))
    return (s, true)

/-- `list_i = eina_list_split_list(list_i, x, &list_j)` -/
def splitList (i : Nat) (x : Option Addr) (j : Nat) : Option (State Data) :=
  (s.mem.splitList (s.vars i) x).map fun p =>
    ⟨p.1, update (update s.vars j p.2.2) i p.2.1⟩

/-- The member of `list_i` at the position `k`. -/
def member (i k : Nat) : Option (Option Addr) := s.mem.nthList (s.vars i) k

end State

/-- A call; those that return a truth value return it. -/
def step [DecidableEq Data] (s : State Data) : Op Data → Option (State Data × Option Bool)
  | .append i data => (s.assign i (s.mem.append (s.vars i) data)).map (·, none)
  | .prepend i data => (s.assign i (s.mem.prepend (s.vars i) data)).map (·, none)
  | .appendRelative i data relative =>
    (s.assign i (s.mem.appendRelative (s.vars i) data relative)).map (·, none)
  | .appendRelativeList i data k => do
    let x ← s.member i k
    (s.assign i (s.mem.appendRelativeList (s.vars i) data x)).map (·, none)
  | .prependRelative i data relative =>
    (s.assign i (s.mem.prependRelative (s.vars i) data relative)).map (·, none)
  | .prependRelativeList i data k => do
    let x ← s.member i k
    (s.assign i (s.mem.prependRelativeList (s.vars i) data x)).map (·, none)
  | .remove i data => (s.assign i (s.mem.remove (s.vars i) data)).map (·, none)
  | .removeList i k => do
    let x ← s.member i k
    (s.assign i (s.mem.removeList (s.vars i) x)).map (·, none)
  | .promoteList i k => do
    let x ← s.member i k
    (s.assign i (s.mem.promoteList (s.vars i) x)).map (·, none)
  | .demoteList i k => do
    let x ← s.member i k
    (s.assign i (s.mem.demoteList (s.vars i) x)).map (·, none)
  | .reverse i => (s.assign i (s.mem.reverse (s.vars i))).map (·, none)
  | .merge i j => (s.assignFrom i j (s.mem.merge (s.vars i) (s.vars j))).map (·, none)
  | .splitList i k j => do
    let x ← s.member i k
    (s.splitList i x j).map (·, none)
  | .sortedMerge i j func =>
    (s.assignFrom i j (s.mem.sortedMerge func (s.vars i) (s.vars j))).map (·, none)
  | .move i j data => (s.move i j data).map fun p => (p.1, some p.2)
  | .moveList i j k => do
    let x ← s.member j k
    (s.moveList i j x).map fun p => (p.1, some p.2)
  | .clone i j => (s.assign j (s.mem.clone (s.vars i))).map (·, none)

/-- The two lists that are made into one are not the same list. -/
def Op.Legal : Op Data → Prop
  | .merge i j | .sortedMerge i j _ => i ≠ j
  | _ => True

/-! ### The calls on sequences of data -/

/-- The sequences of data in the variables. -/
abbrev Seqs (Data : Type) := Nat → List (Option Data)

def next [DecidableEq Data] (S : Seqs Data) : Op Data → Seqs Data × Option Bool
  | .append i data => (update S i (S i ++ [data]), none)
  | .prepend i data => (update S i (data :: S i), none)
  | .appendRelative i data relative =>
    (update S i (if relative ∈ S i then (S i).insertIdx ((S i).idxOf relative + 1) data
      else S i ++ [data]), none)
  | .appendRelativeList i data k =>
    (update S i (if k < (S i).length then (S i).insertIdx (k + 1) data
      else S i ++ [data]), none)
  | .prependRelative i data relative =>
    (update S i (if relative ∈ S i then (S i).insertIdx ((S i).idxOf relative) data
      else data :: S i), none)
  | .prependRelativeList i data k =>
    (update S i (if k < (S i).length then (S i).insertIdx k data
      else data :: S i), none)
  | .remove i data => (update S i ((S i).erase data), none)
  | .removeList i k => (update S i ((S i).eraseIdx k), none)
  | .promoteList i k => (update S i ((S i)[k]?.toList ++ (S i).eraseIdx k), none)
  | .demoteList i k => (update S i ((S i).eraseIdx k ++ (S i)[k]?.toList), none)
  | .reverse i => (update S i (S i).reverse, none)
  | .merge i j => (update (update S j []) i (S i ++ S j), none)
  | .splitList i k j =>
    if k < (S i).length then
      (update (update S j ((S i).drop (k + 1))) i ((S i).take (k + 1)), none)
    else (update (update S j (S i)) i [], none)
  | .sortedMerge i j func =>
    (update (update S j []) i
      (List.merge (S i) (S j) fun d e => decide (func d e < 0)), none)
  | .move i j data =>
    if data ≠ none ∧ data ∈ S j then
      let T := update S i (S i ++ [data])
      (update T j ((T j).erase data), some true)
    else (S, some false)
  | .moveList i j k =>
    match (S j)[k]? with
    | some data =>
      let T := update S i (S i ++ [data])
      (update T j ((T j).eraseIdx k), some true)
    | none => (S, some false)
  | .clone i j => (update S j (S i), none)

/-! ### What a state stands for -/

/-- For each variable the record and the nodes of its list. -/
abbrev Layout (Data : Type) := Nat → Addr × List (Addr × Option Data)

/-- Two lists share neither nodes nor records. -/
structure Apart (l r : Addr × List (Addr × Option Data)) : Prop where
  nodes : ∀ x ∈ nodes l.2, x ∉ nodes r.2
  records : ∀ b ∈ records l.1 l.2, b ∉ records r.1 r.2

theorem Apart.symm {l r : Addr × List (Addr × Option Data)} (h : Apart l r) : Apart r l :=
  ⟨fun x hr hl => h.nodes x hl hr, fun b hr hl => h.records b hl hr⟩

theorem apart_nil (a : Addr) (r : Addr × List (Addr × Option Data)) : Apart (a, []) r :=
  ⟨fun x hx _ => absurd (show x ∈ keys ([] : List (Addr × Option Data)) from hx) (by simp),
    fun _ hb _ => hb.2 rfl⟩

/-- Every variable holds a list, and different ones hold different lists. -/
structure Holds (s : State Data) (L : Layout Data) : Prop where
  lists : ∀ i, IsList s.mem (s.vars i) (L i).1 (L i).2
  apart : ∀ i j, i ≠ j → Apart (L i) (L j)

/-- The variables hold lists with these data. -/
def Models (s : State Data) (S : Seqs Data) : Prop :=
  ∃ L, Holds s L ∧ ∀ i, datas (L i).2 = S i

section Assignments

variable {s : State Data} {L : Layout Data} {S : Seqs Data} {m : Mem Data} {a b : Addr}
  {xs ys : List (Addr × Option Data)} {N B : Set Addr} {head : Option Addr}

theorem IsList.bound (h : IsList m head a xs) {x : Addr} (hx : x ∈ nodes xs) : x < m.next := by
  refine (h.2 ?_).bound x hx
  rintro rfl
  exact absurd (show x ∈ keys ([] : List (Addr × Option Data)) from hx) (by simp)

theorem IsList.recordBound (h : IsList m head a xs) {b : Addr} (hb : b ∈ records a xs) :
    b < m.next := by
  obtain ⟨rfl, hne⟩ := hb
  exact (h.2 hne).recordBound

/-- The nodes and records of the lists `i` and `j`. -/
structure Within (L : Layout Data) (i j : Nat) (N B : Set Addr) : Prop where
  nodes : ∀ x ∈ N, x ∈ nodes (L i).2 ∨ x ∈ nodes (L j).2
  records : ∀ b ∈ B, b ∈ records (L i).1 (L i).2 ∨ b ∈ records (L j).1 (L j).2

variable {i j : Nat} {k : Nat}

theorem Holds.apart_change (h : Holds s L) (hchange : Change s.mem m N B a ys)
    (hwithin : Within L i j N B) (hi : k ≠ i) (hj : k ≠ j) : Apart (a, ys) (L k) := by
  constructor
  · intro x hx hk
    rcases hchange.nodes x hx with hx | hx
    · rcases hwithin.nodes x hx with hx | hx
      · exact (h.apart k i hi).nodes x hk hx
      · exact (h.apart k j hj).nodes x hk hx
    · exact Nat.not_le_of_lt ((h.lists k).bound hk) hx
  · intro c hc hk
    rcases hchange.records c hc with hc | hc
    · rcases hwithin.records c hc with hc | hc
      · exact (h.apart k i hi).records c hk hc
      · exact (h.apart k j hj).records c hk hc
    · exact Nat.not_le_of_lt ((h.lists k).recordBound hk) hc

theorem Holds.untouched (h : Holds s L) (hframe : Frame s.mem m N B) (hwithin : Within L i j N B)
    (hi : k ≠ i) (hj : k ≠ j) :
    IsList m (s.vars k) (L k).1 (L k).2 := by
  refine (h.lists k).frame hframe ?_ ?_
  · intro x hx hxN
    rcases hwithin.nodes x hxN with hx' | hx'
    · exact (h.apart k i hi).nodes x hx hx'
    · exact (h.apart k j hj).nodes x hx hx'
  · intro c hc hcB
    rcases hwithin.records c hcB with hc' | hc'
    · exact (h.apart k i hi).records c hc hc'
    · exact (h.apart k j hj).records c hc hc'

theorem Holds.assign₂ (h : Holds s L) {v w : Option Addr} {l r : Addr × List (Addr × Option Data)}
    (hl : IsList m v l.1 l.2) (hr : i ≠ j → IsList m w r.1 r.2) (hlr : i ≠ j → Apart l r)
    (hothers : ∀ k ≠ i, k ≠ j → IsList m (s.vars k) (L k).1 (L k).2 ∧ Apart l (L k) ∧
      Apart r (L k)) :
    Holds ⟨m, update (update s.vars j w) i v⟩
      (update (update L j r) i l) := by
  refine ⟨?_, ?_⟩
  · intro k
    by_cases hi : k = i
    · subst hi
      simp only [update_self]
      exact hl
    · simp only [update_of_ne hi]
      by_cases hj : k = j
      · subst hj
        simp only [update_self]
        exact hr (symm hi)
      · simp only [update_of_ne hj]
        exact (hothers k hi hj).1
  · -- by symmetry the first of two variables is `i`, or neither is and the first is `j`
    have hleft : ∀ k ≠ i, Apart l (update (update L j r) i l k) := by
      intro k hi
      rw [update_of_ne hi]
      by_cases hj : k = j
      · subst hj
        rw [update_self]
        exact hlr (symm hi)
      · rw [update_of_ne hj]
        exact (hothers k hi hj).2.1
    intro k k' hkk'
    by_cases hi : k = i
    · subst hi
      rw [update_self]
      exact hleft k' (symm hkk')
    by_cases hi' : k' = i
    · subst hi'
      rw [update_self]
      exact (hleft k hi).symm
    rw [update_of_ne hi, update_of_ne hi']
    by_cases hj : k = j
    · subst hj
      rw [update_self, update_of_ne (symm hkk')]
      exact (hothers k' hi' (symm hkk')).2.2
    · by_cases hj' : k' = j
      · subst hj'
        rw [update_self, update_of_ne hj]
        exact (hothers k hi hj).2.2.symm
      · rw [update_of_ne hj, update_of_ne hj']
        exact h.apart k k' hkk'

theorem Holds.assignFrom (h : Holds s L) (hlist : IsList m head a ys)
    (hchange : Change s.mem m N B a ys) (hwithin : Within L i j N B) :
    Holds ⟨m, update (update s.vars j none) i head⟩
      (update (update L j (0, [])) i (a, ys)) := by
  refine h.assign₂ hlist (fun _ => isList_nil m 0) (fun _ => (apart_nil 0 _).symm) ?_
  intro k hi hj
  exact ⟨h.untouched hchange.frame hwithin hi hj, h.apart_change hchange hwithin hi hj,
    apart_nil 0 _⟩

theorem Holds.assign (h : Holds s L) (hlist : IsList m head a ys)
    (hchange : Change s.mem m N B a ys) (hwithin : Within L i i N B) :
    Holds ⟨m, update s.vars i head⟩ (update L i (a, ys)) := by
  have hassign := h.assignFrom hlist hchange hwithin
  rw [update_idem, update_idem] at hassign
  exact hassign

variable {ds : List (Option Data)} {call : Option (Mem Data × Option Addr)}

theorem datas_update {l : Addr × List (Addr × Option Data)} (hS : ∀ k, datas (L k).2 = S k)
    (hds : datas l.2 = ds) (k : Nat) :
    datas (update L i l k).2 = update S i ds k := by
  by_cases hk : k = i
  · subst hk
    rw [update_self, update_self]
    exact hds
  · rw [update_of_ne hk, update_of_ne hk]
    exact hS k

theorem Holds.assign_models (h : Holds s L) (hS : ∀ k, datas (L k).2 = S k)
    (hcall : Yields s.mem N B call ds)
    (hwithin : Within L i i N B) :
    ∃ s', s.assign i call = some s' ∧ Models s' (update S i ds) := by
  obtain ⟨m, head, a, ys, rfl, hlist, hchange, hds⟩ := hcall
  exact ⟨_, rfl, _, h.assign hlist hchange hwithin, datas_update hS hds⟩

theorem Holds.assignFrom_models (h : Holds s L) (hS : ∀ k, datas (L k).2 = S k)
    (hcall : Yields s.mem N B call ds)
    (hwithin : Within L i j N B) :
    ∃ s', s.assignFrom i j call = some s' ∧
      Models s' (update (update S j []) i ds) := by
  obtain ⟨m, head, a, ys, rfl, hlist, hchange, hds⟩ := hcall
  exact ⟨_, rfl, _, h.assignFrom hlist hchange hwithin, datas_update (datas_update hS rfl) hds⟩

theorem within_self (L : Layout Data) (i : Nat) :
    Within L i i (nodes (L i).2) (records (L i).1 (L i).2) :=
  ⟨fun _ hx => .inl hx, fun _ hb => .inl hb⟩

end Assignments

end Eina.Lists
