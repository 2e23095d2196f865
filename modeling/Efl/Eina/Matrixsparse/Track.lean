/-
The two kinds of lists of `eina_matrixsparse.c`, rows and cells, as one.

Both are linked lists ordered by a number, with a pointer to the last item and one to the
item used last.  A list is the list of its items in link order.  At most one linked item has
a given number, so a pointer to an item is its number: it dangles when no linked item has
it.  A search reads the number of the item used last; that this one is linked is part of what
every operation keeps.
-/
import Efl.Lib.Outcome
import Mathlib.Data.List.TakeWhile

namespace Eina.Matrixsparse

open List

/-- The items, the pointer to the last one and the pointer to the one used last. -/
structure Track (β : Type) where
  items : List β
  last : Option Nat
  lastUsed : Option Nat
  deriving DecidableEq

namespace Track

variable {β : Type}

def empty : Track β := ⟨[], none, none⟩

/-- The item a pointer points to, with the items before and behind it. -/
def splitAt (key : β → Nat) (k : Nat) : List β → Option (List β × β × List β)
  | [] => none
  | b :: bs =>
    if key b = k then some ([], b, bs)
    else (splitAt key k bs).map fun p => (b :: p.1, p.2)

/-- Where a search starts, and whether it goes forward. -/
structure Start where
  at' : Nat
  forward : Bool

/-- The `find_parms_get` functions, for a list from `first` to `last`, with the subtraction
`sub`. -/
def findParmsBy (sub : Nat → Nat → Nat) (first last : Nat) (lastUsed : Option Nat) (k : Nat) :
    Start :=
  let dist := sub k first
  let (dist, start) :=
    if sub last k < dist then (sub last k, (⟨last, false⟩ : Start))
    else (dist, ⟨first, true⟩)
  match lastUsed with
  | none => start
  | some used =>
    if used < k then if sub k used < dist then ⟨used, true⟩ else start
    else if sub used k < dist then ⟨used, false⟩
    else start

/-- The `find_parms_get` functions on numbers. -/
def findParmsGet : Nat → Nat → Option Nat → Nat → Start := findParmsBy fun a b => a - b

theorem findParmsBy_nat : findParmsBy (fun a b => a - b) = findParmsGet := rfl

def searchForward (key : β → Nat) (k : Nat) : List β → Bool
  | [] => false
  | b :: bs => if key b = k then true else if k < key b then false else searchForward key k bs

def searchBack (key : β → Nat) (k : Nat) : List β → Bool
  | [] => false
  | b :: bs => if key b = k then true else if key b < k then false else searchBack key k bs

/-- The `idx_get` functions: whether the item is there. -/
def idxGetBy (sub : Nat → Nat → Nat) (key : β → Nat) (t : Track β) (k : Nat) :
    Outcome (Bool × Track β) :=
  match t.items with
  | [] => .returns (false, t)
  | first :: _ =>
    if key first = k then .returns (true, t)
    else if k < key first then .returns (false, t)
    else
      match t.last with
      | none => .undefined
      | some last =>
        if last = k then .returns (true, t)
        else if last < k then .returns (false, t)
        else if t.lastUsed = some k then .returns (true, t)
        else
          let start := findParmsBy sub (key first) last t.lastUsed k
          match splitAt key start.at' t.items with
          | none => .undefined
          | some (before, b, after) =>
            let found :=
              if start.forward then searchForward key k (b :: after)
              else searchBack key k (b :: before.reverse)
            .returns (found, if found then { t with lastUsed := some k } else t)

/-- The `idx_get` functions on numbers. -/
def idxGet (key : β → Nat) (t : Track β) (k : Nat) : Outcome (Bool × Track β) :=
  idxGetBy (fun a b => a - b) key t k

/-- The `siblings_find` functions: the items before and behind the place of a new one. -/
def siblingsFindBy (sub : Nat → Nat → Nat) (key : β → Nat) (t : Track β) (first last k : Nat) :
    Outcome (List β × List β) :=
  let start := findParmsBy sub first last t.lastUsed k
  match splitAt key start.at' t.items with
  | none => .undefined
  | some (before, b, after) =>
    let (front, back) :=
      if start.forward then
        (before ++ (b :: after).takeWhile (fun c => decide (key c ≤ k)),
          (b :: after).dropWhile (fun c => decide (key c ≤ k)))
      else
        (((b :: before.reverse).dropWhile (fun c => decide (k ≤ key c))).reverse,
          ((b :: before.reverse).takeWhile (fun c => decide (k ≤ key c))).reverse ++ after)
    -- the assertions that neither neighbour is missing
    if front = [] ∨ back = [] then .aborts else .returns (front, back)

/-- The `siblings_find` functions on numbers. -/
def siblingsFind (key : β → Nat) (t : Track β) (first last k : Nat) : Outcome (List β × List β) :=
  siblingsFindBy (fun a b => a - b) key t first last k

/-- The `idx_add` functions: `b` is the new item. -/
def idxAddBy (sub : Nat → Nat → Nat) (key : β → Nat) (t : Track β) (b : β) : Outcome (Track β) :=
  match t.items with
  | [] => .returns ⟨[b], some (key b), some (key b)⟩
  | first :: _ =>
    if key b < key first then .returns { t with items := b :: t.items, lastUsed := some (key b) }
    else
      match t.last with
      | none => .undefined
      | some last =>
        if last < key b then .returns ⟨t.items ++ [b], some (key b), some (key b)⟩
        else do
          let (front, back) ← siblingsFindBy sub key t (key first) last (key b)
          return { t with items := front ++ b :: back, lastUsed := some (key b) }

/-- The `idx_add` functions on numbers. -/
def idxAdd (key : β → Nat) (t : Track β) (b : β) : Outcome (Track β) :=
  idxAddBy (fun a b => a - b) key t b

/-- The `unlink` functions. -/
def unlink (key : β → Nat) (t : Track β) (k : Nat) : Outcome (Track β) :=
  match splitAt key k t.items with
  | none => .undefined
  | some (before, _, after) =>
    let prev := before.getLast?.map key
    let next := after.head?.map key
    .returns
      { items := before ++ after
        last := if t.last = some k then prev else t.last
        lastUsed :=
          if t.lastUsed = some k then if next.isSome then next else prev else t.lastUsed }

/-- The items are freed from the last one on as long as their number is too large. -/
def truncate (key : β → Nat) (t : Track β) (n : Nat) : Track β :=
  match t.last with
  | none => { t with items := [] }
  | some last =>
    match splitAt key last t.items with
    | none => { t with items := [], last := none }
    | some (before, b, _) =>
      match (b :: before.reverse).dropWhile (fun c => decide (n ≤ key c)) with
      | [] => { t with items := [], last := none }
      | c :: rest =>
        if key c = last then t
        else { t with items := (c :: rest).reverse, last := some (key c) }

/-! ### The invariant -/

variable {key : β → Nat} {t : Track β} {k n : Nat} {b : β} {bs before after : List β} {last : Nat}
  {rest : List β} {first : β}

/-- Ordered, `last` is the end, and `lastUsed` is one of the items. -/
structure Valid (key : β → Nat) (t : Track β) : Prop where
  ordered : t.items.Pairwise fun a b => key a < key b
  last : t.last = t.items.getLast?.map key
  lastUsed : ∀ k, t.lastUsed = some k → k ∈ t.items.map key

theorem valid_empty : Valid key (empty : Track β) :=
  ⟨List.Pairwise.nil, rfl, by simp [empty]⟩

theorem splitAt_some (h : splitAt key k bs = some (before, b, after)) :
    bs = before ++ b :: after ∧ key b = k := by
  induction bs generalizing before with
  | nil => simp [splitAt] at h
  | cons c cs ih =>
    rw [splitAt] at h
    split at h
    · rename_i hk
      obtain ⟨⟩ := h
      exact ⟨rfl, hk⟩
    · obtain ⟨⟨before', b', after'⟩, hrest, hpair⟩ := Option.map_eq_some_iff.mp h
      obtain ⟨⟩ := hpair
      obtain ⟨rfl, hk⟩ := ih hrest
      exact ⟨rfl, hk⟩

theorem splitAt_of_mem (h : k ∈ bs.map key) : ∃ before b after,
    splitAt key k bs = some (before, b, after) := by
  induction bs with
  | nil => simp at h
  | cons c cs ih =>
    rw [splitAt]
    split
    · exact ⟨[], c, cs, rfl⟩
    rename_i hk
    rcases mem_cons.mp h with h | h
    · exact absurd h.symm hk
    · obtain ⟨before, b, after, hsplit⟩ := ih h
      exact ⟨c :: before, b, after, by rw [hsplit]; rfl⟩

theorem eq_of_key (h : bs.Pairwise fun a b => key a < key b) {a c : β} (ha : a ∈ bs) (hc : c ∈ bs)
    (hk : key a = key c) : a = c := by
  induction bs with
  | nil => simp at ha
  | cons b bs ih =>
    rw [pairwise_cons] at h
    rcases mem_cons.mp ha with hab | ha
    · rcases mem_cons.mp hc with hcb | hc
      · rw [hab, hcb]
      have := h.1 c hc
      rw [← hab] at this
      omega
    · rcases mem_cons.mp hc with hcb | hc
      · have := h.1 a ha
        rw [← hcb] at this
        omega
      · exact ih h.2 ha hc

/-! ### Searching -/

theorem search_eq {search : List β → Bool} {past : β → Prop} [DecidablePred past]
    (hnil : search [] = false) (hcons : ∀ b bs, search (b :: bs) =
      if key b = k then true else if past b then false else search bs)
    (h : bs.Pairwise fun a b => past a → key b ≠ k) :
    search bs = decide (k ∈ bs.map key) := by
  induction bs with
  | nil => exact hnil
  | cons b bs ih =>
    rw [pairwise_cons] at h
    rw [hcons]
    split
    · rename_i hk
      simp [hk]
    split
    · rename_i hk hpast
      refine (decide_eq_false ?_).symm
      rw [mem_map]
      rintro ⟨c, hc, rfl⟩
      rcases mem_cons.mp hc with rfl | hc
      · exact hk rfl
      · exact h.1 c hc hpast rfl
    · rename_i hk hpast
      rw [ih h.2]
      simp [Ne.symm hk]

theorem searchForward_eq (h : bs.Pairwise fun a b => key a < key b) :
    searchForward key k bs = decide (k ∈ bs.map key) := by
  refine search_eq rfl (fun _ _ => rfl) (h.imp fun hlt hpast => ?_)
  omega

theorem searchBack_eq (h : bs.Pairwise fun a b => key b < key a) :
    searchBack key k bs = decide (k ∈ bs.map key) := by
  refine search_eq rfl (fun _ _ => rfl) (h.imp fun hlt hpast => ?_)
  omega

/-- The search starts at an end or at the last one used, in the direction of what it looks for. -/
theorem findParmsGet_spec {first last : Nat} (used : Option Nat) (h1 : first ≤ k) (h2 : k ≤ last) :
    ((findParmsGet first last used k).at' = first ∨ (findParmsGet first last used k).at' = last ∨
      used = some (findParmsGet first last used k).at') ∧
      ((findParmsGet first last used k).forward = true → (findParmsGet first last used k).at' ≤ k) ∧
      ((findParmsGet first last used k).forward = false →
        k ≤ (findParmsGet first last used k).at') := by
  unfold findParmsGet findParmsBy
  by_cases hd : last - k < k - first
  · simp only [if_pos hd]
    split
    · exact ⟨.inr (.inl rfl), by simp, fun _ => h2⟩
    split
    · split
      · exact ⟨.inr (.inr rfl), fun _ => by dsimp only; omega, by simp⟩
      · exact ⟨.inr (.inl rfl), by simp, fun _ => h2⟩
    · split
      · exact ⟨.inr (.inr rfl), by simp, fun _ => by dsimp only; omega⟩
      · exact ⟨.inr (.inl rfl), by simp, fun _ => h2⟩
  · simp only [if_neg hd]
    split
    · exact ⟨.inl rfl, fun _ => h1, by simp⟩
    split
    · split
      · exact ⟨.inr (.inr rfl), fun _ => by dsimp only; omega, by simp⟩
      · exact ⟨.inl rfl, fun _ => h1, by simp⟩
    · split
      · exact ⟨.inr (.inr rfl), by simp, fun _ => by dsimp only; omega⟩
      · exact ⟨.inl rfl, fun _ => h1, by simp⟩

theorem ordered_parts (h : (before ++ b :: after).Pairwise fun a b => key a < key b) :
    (b :: after).Pairwise (fun a b => key a < key b) ∧
      (b :: before.reverse).Pairwise (fun a b => key b < key a) ∧
      (∀ c ∈ before, key c < key b) ∧ ∀ c ∈ after, key b < key c := by
  obtain ⟨hbefore, hafter, hcross⟩ := pairwise_append.mp h
  refine ⟨hafter, ?_, fun c hc => hcross c hc b mem_cons_self, (pairwise_cons.mp hafter).1⟩
  rw [pairwise_cons]
  refine ⟨?_, pairwise_reverse.mpr hbefore⟩
  intro c hc
  exact hcross c (mem_reverse.mp hc) b mem_cons_self

theorem Valid.last_mem (ht : Valid key t) (h : t.last = some last) :
    last ∈ t.items.map key := by
  rw [ht.last] at h
  obtain ⟨b, hb, rfl⟩ := Option.map_eq_some_iff.mp h
  exact mem_map_of_mem (mem_of_getLast? hb)

theorem Valid.last_isSome (ht : Valid key t) (h : t.items ≠ []) : ∃ last, t.last = some last := by
  rw [ht.last, getLast?_eq_some_getLast h]
  exact ⟨_, rfl⟩

theorem Valid.le_last (ht : Valid key t) (h : t.last = some last) :
    ∀ b ∈ t.items, key b ≤ last := by
  intro b hb
  rw [ht.last] at h
  obtain ⟨c, hc, rfl⟩ := Option.map_eq_some_iff.mp h
  obtain ⟨front, hfront⟩ := getLast?_eq_some_iff.mp hc
  have hord := ht.ordered
  rw [hfront] at hord hb
  rcases mem_append.mp hb with hb | hb
  · exact le_of_lt ((pairwise_append.mp hord).2.2 b hb c mem_cons_self)
  · rw [mem_singleton.mp hb]

theorem Valid.start (ht : Valid key t)
    (hitems : t.items = first :: rest) (hlast : t.last = some last) (h1 : key first ≤ k)
    (h2 : k ≤ last) : ∃ before b after,
      splitAt key (findParmsGet (key first) last t.lastUsed k).at' t.items = some
        (before, b, after) ∧
        t.items = before ++ b :: after ∧
        ((findParmsGet (key first) last t.lastUsed k).forward = true → key b ≤ k) ∧
        ((findParmsGet (key first) last t.lastUsed k).forward = false → k ≤ key b) := by
  obtain ⟨hat, hforward, hback⟩ := findParmsGet_spec t.lastUsed h1 h2
  have hmem : (findParmsGet (key first) last t.lastUsed k).at' ∈ t.items.map key := by
    rcases hat with h | h | h
    · rw [h, hitems]
      exact mem_cons_self
    · rw [h]
      exact ht.last_mem hlast
    · exact ht.lastUsed _ h
  obtain ⟨before, b, after, hsplit⟩ := splitAt_of_mem hmem
  obtain ⟨hparts, hkey⟩ := splitAt_some hsplit
  exact ⟨before, b, after, hsplit, hparts, by rw [hkey]; exact hforward, by rw [hkey]; exact hback⟩

/-- **Looking up**: the answer is right, and at most `lastUsed` moves. -/
theorem idxGet_spec (ht : Valid key t) (k : Nat) : ∃ t',
    idxGet key t k = .returns (decide (k ∈ t.items.map key), t') ∧ Valid key t' ∧
      t'.items = t.items := by
  unfold idxGet idxGetBy
  rw [findParmsBy_nat]
  split
  · rename_i hnil
    exact ⟨t, by simp [hnil], ht, rfl⟩
  rename_i first rest hitems
  have hfirst (b : β) (hb : b ∈ t.items) : key first ≤ key b := by
    have hord := ht.ordered
    rw [hitems] at hord hb
    rcases mem_cons.mp hb with rfl | hb
    · exact le_rfl
    · exact le_of_lt ((pairwise_cons.mp hord).1 b hb)
  split
  · rename_i hk
    refine ⟨t, ?_, ht, rfl⟩
    rw [hitems]
    simp [hk]
  split
  · refine ⟨t, ?_, ht, rfl⟩
    rw [decide_eq_false]
    intro hmem
    obtain ⟨b, hb, rfl⟩ := mem_map.mp hmem
    have := hfirst b hb
    omega
  obtain ⟨last, hlast⟩ := ht.last_isSome (by rw [hitems]; simp)
  rw [hlast]
  dsimp only
  split
  · rename_i heq
    refine ⟨t, ?_, ht, rfl⟩
    rw [decide_eq_true]
    rw [← heq]
    exact ht.last_mem hlast
  split
  · refine ⟨t, ?_, ht, rfl⟩
    rw [decide_eq_false]
    intro hmem
    obtain ⟨b, hb, rfl⟩ := mem_map.mp hmem
    have := ht.le_last hlast b hb
    omega
  split
  · rename_i hused
    exact ⟨t, by rw [decide_eq_true (ht.lastUsed k hused)], ht, rfl⟩
  obtain ⟨before, b, after, hsplit, hparts, hforward, hback⟩ :=
    ht.start (k := k) hitems hlast (by omega) (by omega)
  rw [hsplit]
  dsimp only
  have hord := ht.ordered
  rw [hparts] at hord
  obtain ⟨hafter, hbefore, hless, hmore⟩ := ordered_parts hord
  -- the items on the other side of the start cannot be the one looked for
  have hfound : (if (findParmsGet (key first) last t.lastUsed k).forward then
      searchForward key k (b :: after) else searchBack key k (b :: before.reverse)) =
        decide (k ∈ t.items.map key) := by
    split
    · rename_i hdir
      have hb := hforward hdir
      rw [searchForward_eq hafter, hparts, map_append, decide_eq_decide, mem_append]
      constructor
      · exact .inr
      · intro hmem
        rcases hmem with hmem | hmem
        · obtain ⟨c, hc, rfl⟩ := mem_map.mp hmem
          have := hless c hc
          omega
        · exact hmem
    · rename_i hdir
      have hb := hback (by simpa using hdir)
      rw [searchBack_eq hbefore, hparts, decide_eq_decide]
      simp only [map_cons, map_reverse, mem_cons, mem_reverse, map_append,
        mem_append]
      constructor
      · intro hmem
        rcases hmem with hmem | hmem
        · exact .inr (.inl hmem)
        · exact .inl hmem
      · intro hmem
        rcases hmem with hmem | hmem | hmem
        · exact .inr hmem
        · exact .inl hmem
        · obtain ⟨c, hc, rfl⟩ := mem_map.mp hmem
          have := hmore c hc
          omega
  rw [hfound]
  by_cases hmem : k ∈ t.items.map key
  · refine ⟨{ t with lastUsed := some k }, ?_, ⟨ht.ordered, ht.last, ?_⟩, rfl⟩
    · simp only [hmem, decide_true, if_true, hlast]
    · intro k' hk'
      rw [← Option.some.inj hk']
      exact hmem
  · refine ⟨t, ?_, ht, rfl⟩
    simp only [hmem, decide_false, Bool.false_eq_true, if_false]

/-! ### Adding -/

theorem ordered_insert {front back : List β}
    (h : (front ++ back).Pairwise fun a b => key a < key b) (hfront : ∀ c ∈ front, key c < key b)
    (hback : ∀ c ∈ back, key b < key c) :
    (front ++ b :: back).Pairwise fun a b => key a < key b := by
  obtain ⟨h1, h2, h3⟩ := pairwise_append.mp h
  rw [pairwise_append]
  refine ⟨h1, pairwise_cons.mpr ⟨hback, h2⟩, ?_⟩
  intro c hc d hd
  rcases mem_cons.mp hd with rfl | hd
  · exact hfront c hc
  · exact h3 c hc d hd

theorem mem_takeWhile_le {c : β} (hc : c ∈ bs.takeWhile fun c => decide (key c ≤ k)) :
    key c ≤ k := by
  simpa using mem_takeWhile_imp hc

theorem not_of_mem_dropWhile {f : β → Bool} (h : bs.Pairwise fun a b => f a = false → f b = false) :
    ∀ c ∈ bs.dropWhile f, f c = false := by
  induction bs with
  | nil => simp
  | cons b bs ih =>
    rw [pairwise_cons] at h
    rw [dropWhile_cons]
    split
    · exact ih h.2
    rename_i hb
    have hb : f b = false := Bool.not_eq_true _ ▸ hb
    intro c hc
    rcases mem_cons.mp hc with rfl | hc
    · exact hb
    · exact h.1 c hc hb

theorem dropWhile_le_ordered (h : bs.Pairwise fun a b => key a < key b) :
    ∀ c ∈ bs.dropWhile (fun c => decide (key c ≤ k)), k < key c := by
  intro c hc
  simpa using not_of_mem_dropWhile (h.imp fun hlt => by simp; omega) c hc

theorem dropWhile_ge_ordered (h : bs.Pairwise fun a b => key b < key a) :
    ∀ c ∈ bs.dropWhile (fun c => decide (k ≤ key c)), key c < k := by
  intro c hc
  simpa using not_of_mem_dropWhile (h.imp fun hlt => by simp; omega) c hc

/-- The search for the neighbours, from the nearer end. -/
theorem siblingsFind_spec (ht : Valid key t)
    (hitems : t.items = first :: rest) (hlast : t.last = some last) (h1 : key first ≤ k)
    (h2 : k ≤ last) (hnew : k ∉ t.items.map key) : ∃ front back,
      siblingsFind key t (key first) last k = .returns (front, back) ∧ t.items = front ++ back ∧
        back ≠ [] ∧ (∀ c ∈ front, key c < k) ∧ ∀ c ∈ back, k < key c := by
  obtain ⟨before, b, after, hsplit, hparts, hforward, hback⟩ := ht.start hitems hlast h1 h2
  have hne (c : β) (hc : c ∈ t.items) : key c ≠ k := by
    intro heq
    exact hnew (mem_map.mpr ⟨c, hc, heq⟩)
  have hord := ht.ordered
  rw [hparts] at hord
  obtain ⟨hafter, hbefore, hless, hmore⟩ := ordered_parts hord
  have hfirst : first ∈ t.items := by
    rw [hitems]
    exact mem_cons_self
  obtain ⟨c, hc, hckey⟩ := mem_map.mp (ht.last_mem hlast)
  -- whatever the parts are: if they make up the list and are apart, both have an item
  have hboth (front back : List β) (happ : t.items = front ++ back) (hf : ∀ c ∈ front, key c < k)
      (hb : ∀ c ∈ back, k < key c) : front ≠ [] ∧ back ≠ [] := by
    constructor
    · rintro rfl
      rw [nil_append] at happ
      have := hb first (happ ▸ hfirst)
      omega
    · rintro rfl
      rw [append_nil] at happ
      have := hf c (happ ▸ hc)
      omega
  unfold siblingsFind siblingsFindBy
  rw [findParmsBy_nat]
  dsimp only
  rw [hsplit]
  cases hdir : (findParmsGet (key first) last t.lastUsed k).forward with
  | true =>
    have hb := hforward hdir
    have happ : t.items = (before ++ (b :: after).takeWhile fun c => decide (key c ≤ k)) ++
        (b :: after).dropWhile fun c => decide (key c ≤ k) := by
      rw [append_assoc, takeWhile_append_dropWhile, hparts]
    have hfront : ∀ c ∈ before ++ (b :: after).takeWhile (fun c => decide (key c ≤ k)),
        key c < k := by
      intro c hc
      have hcne := hne c (by rw [happ]; exact mem_append_left _ hc)
      rcases mem_append.mp hc with hc | hc
      · have := hless c hc
        omega
      · have := mem_takeWhile_le hc
        omega
    have hback' := dropWhile_le_ordered (k := k) hafter
    obtain ⟨hf, hb⟩ := hboth _ _ happ hfront hback'
    simp only [if_true]
    rw [if_neg (by simp only [hf, hb, or_self, not_false_eq_true])]
    exact ⟨_, _, rfl, happ, hb, hfront, hback'⟩
  | false =>
    have hb := hback hdir
    have happ : t.items = ((b :: before.reverse).dropWhile fun c => decide (k ≤ key c)).reverse ++
        (((b :: before.reverse).takeWhile fun c => decide (k ≤ key c)).reverse ++ after) := by
      rw [← append_assoc, ← reverse_append, hparts]
      simp
    have hfront : ∀ c ∈ ((b :: before.reverse).dropWhile fun c => decide (k ≤ key c)).reverse,
        key c < k := by
      intro c hc
      exact dropWhile_ge_ordered hbefore c (mem_reverse.mp hc)
    have hback' : ∀ c ∈ ((b :: before.reverse).takeWhile fun c => decide (k ≤ key c)).reverse ++
        after, k < key c := by
      intro c hc
      have hcne := hne c (by rw [happ]; exact mem_append_right _ hc)
      rcases mem_append.mp hc with hc | hc
      · have hle : k ≤ key c := by
          simpa using mem_takeWhile_imp (mem_reverse.mp hc)
        omega
      · have := hmore c hc
        omega
    obtain ⟨hf, hb⟩ := hboth _ _ happ hfront hback'
    simp only [Bool.false_eq_true, if_false]
    rw [if_neg (by simp only [hf, hb, or_self, not_false_eq_true])]
    exact ⟨_, _, rfl, happ, hb, hfront, hback'⟩

/-- **Adding**: the new item goes to its place. -/
theorem idxAdd_spec (ht : Valid key t) (hnew : key b ∉ t.items.map key) : ∃ t' front back,
    idxAdd key t b = .returns t' ∧ Valid key t' ∧ t.items = front ++ back ∧
      t'.items = front ++ b :: back ∧ (∀ c ∈ front, key c < key b) ∧ ∀ c ∈ back, key b < key c := by
  unfold idxAdd idxAddBy
  split
  · rename_i hnil
    refine ⟨⟨[b], some (key b), some (key b)⟩, [], [], rfl, ⟨?_, rfl, ?_⟩, hnil, rfl, by simp,
      by simp⟩
    · exact pairwise_singleton _ _
    · simp
  rename_i first rest hitems
  have hused (items : List β) (last : Option Nat) (hmem : b ∈ items) :
      ∀ k, (⟨items, last, some (key b)⟩ : Track β).lastUsed = some k → k ∈ items.map key := by
    intro k hk
    rw [← Option.some.inj hk]
    exact mem_map_of_mem hmem
  split
  · rename_i hlt
    have hback : ∀ c ∈ t.items, key b < key c := by
      intro c hc
      have hord := ht.ordered
      rw [hitems] at hord hc
      rcases mem_cons.mp hc with rfl | hc
      · exact hlt
      · have := (pairwise_cons.mp hord).1 c hc
        omega
    refine ⟨_, [], t.items, rfl, ⟨pairwise_cons.mpr ⟨hback, ht.ordered⟩, ?_,
      hused _ _ mem_cons_self⟩, rfl, rfl, by simp, hback⟩
    simp only [ht.last, hitems, getLast?_cons_cons]
  obtain ⟨last, hlast⟩ := ht.last_isSome (by rw [hitems]; simp)
  rw [hlast]
  dsimp only
  split
  · have hfront : ∀ c ∈ t.items, key c < key b := by
      intro c hc
      have := ht.le_last hlast c hc
      omega
    refine ⟨_, t.items, [], rfl, ⟨?_, by simp, hused _ _ (by simp)⟩, by simp, rfl, hfront, by simp⟩
    rw [← append_nil t.items] at *
    exact ordered_insert (by simpa using ht.ordered) (by simpa using hfront) (by simp)
  · obtain ⟨front, back, hfind, happ, hne', hfront, hback⟩ :=
      siblingsFind_spec ht hitems hlast (by omega) (by omega) hnew
    unfold siblingsFind at hfind
    rw [hfind]
    refine ⟨_, front, back, rfl, ⟨?_, ?_, hused _ _ (by simp)⟩, happ, rfl, hfront, hback⟩
    · exact ordered_insert (by rw [← happ]; exact ht.ordered) hfront hback
    · rw [← hlast, ht.last, happ, getLast?_append_of_ne_nil _ hne',
        getLast?_append_of_ne_nil _ (by simp)]
      rw [getLast?_cons_of_ne_nil hne']

/-! ### Removing -/

theorem filter_ne_parts (h : (before ++ b :: after).Pairwise fun a b => key a < key b) :
    (before ++ b :: after).filter (fun c => decide (key c ≠ key b)) = before ++ after := by
  obtain ⟨-, -, hless, hmore⟩ := ordered_parts h
  rw [filter_append, filter_cons_of_neg (by simp)]
  congr 1
  · rw [filter_eq_self]
    intro c hc
    have := hless c hc
    simp only [decide_eq_true_eq]
    omega
  · rw [filter_eq_self]
    intro c hc
    have := hmore c hc
    simp only [decide_eq_true_eq]
    omega

/-- **Unlinking**: the item is gone, and no pointer stays on it. -/
theorem unlink_spec (ht : Valid key t) (hk : k ∈ t.items.map key) : ∃ t',
    unlink key t k = .returns t' ∧ Valid key t' ∧
      t'.items = t.items.filter fun c => decide (key c ≠ k) := by
  obtain ⟨before, b, after, hsplit⟩ := splitAt_of_mem hk
  obtain ⟨hparts, rfl⟩ := splitAt_some hsplit
  have hord := ht.ordered
  rw [hparts] at hord
  obtain ⟨-, -, hless, hmore⟩ := ordered_parts hord
  have hord' : (before ++ after).Pairwise fun a b => key a < key b := by
    refine hord.sublist ?_
    exact List.Sublist.append_left (sublist_cons_self b after) before
  unfold unlink
  rw [hsplit]
  refine ⟨_, rfl, ⟨hord', ?_, ?_⟩, ?_⟩
  · rw [ht.last, hparts, getLast?_append_of_ne_nil _ (by simp)]
    rcases eq_nil_or_concat after with rfl | ⟨front, c, rfl⟩
    · simp
    rw [concat_eq_append, getLast?_cons_of_ne_nil (by simp)]
    rw [getLast?_append_of_ne_nil before (by simp)]
    have := hmore c (by simp)
    rw [if_neg]
    simp only [getLast?_append, getLast?_singleton, Option.some_or, Option.map_some,
      Option.some.injEq]
    omega
  · dsimp only
    intro k hk'
    split at hk'
    · split at hk'
      · obtain ⟨c, hc, rfl⟩ := Option.map_eq_some_iff.mp hk'
        exact mem_map_of_mem (mem_append_right _ (mem_of_head? hc))
      · obtain ⟨c, hc, rfl⟩ := Option.map_eq_some_iff.mp hk'
        exact mem_map_of_mem (mem_append_left _ (mem_of_getLast? hc))
    · rename_i hne
      have hmem := ht.lastUsed k hk'
      rw [hk', Option.some.injEq] at hne
      rw [hparts] at hmem
      simp only [map_append, map_cons, mem_append, mem_cons] at hmem ⊢
      rcases hmem with h | h | h
      · exact .inl h
      · exact absurd h hne
      · exact .inr h
  · rw [hparts, filter_ne_parts hord]

theorem dropWhile_eq_filter (h : bs.Pairwise fun a b => key b < key a) :
    bs.dropWhile (fun c => decide (n ≤ key c)) = bs.filter fun c => decide (key c < n) := by
  induction bs with
  | nil => rfl
  | cons b bs ih =>
    rw [pairwise_cons] at h
    rw [dropWhile_cons]
    split
    · rename_i hb
      have hb' : n ≤ key b := by simpa using hb
      rw [ih h.2, filter_cons_of_neg (by simpa using hb')]
    rename_i hb
    have hb' : key b < n := by simpa using hb
    symm
    rw [filter_eq_self]
    intro c hc
    rcases mem_cons.mp hc with rfl | hc
    · simpa using hb'
    have := h.1 c hc
    simp only [decide_eq_true_eq]
    omega

/-- **Truncating** keeps the items with a small number. -/
theorem truncate_spec (ht : Valid key t) (n : Nat) :
    (truncate key t n).items = t.items.filter (fun c => decide (key c < n)) ∧
      (truncate key t n).last = (t.items.filter fun c => decide (key c < n)).getLast?.map key ∧
      (truncate key t n).lastUsed = t.lastUsed := by
  unfold truncate
  split
  · rename_i hlast
    have hnil : t.items = [] := by
      by_contra hne
      obtain ⟨last, hsome⟩ := ht.last_isSome hne
      rw [hlast] at hsome
      simp at hsome
    simp [hnil, hlast]
  rename_i last hlast
  obtain ⟨before, b, after, hsplit⟩ := splitAt_of_mem (ht.last_mem hlast)
  obtain ⟨hparts, hkey⟩ := splitAt_some hsplit
  have hord := ht.ordered
  rw [hparts] at hord
  obtain ⟨-, hbefore, -, hmore⟩ := ordered_parts hord
  -- nothing stands behind the last item
  have hafter : after = [] := by
    rw [eq_nil_iff_forall_not_mem]
    intro c hc
    have h1 := ht.le_last hlast c (by rw [hparts]; simp [hc])
    have h2 := hmore c hc
    omega
  subst hafter
  have hfilter : t.items.filter (fun c => decide (key c < n)) =
      ((b :: before.reverse).filter fun c => decide (key c < n)).reverse := by
    rw [hparts, ← filter_reverse]
    simp
  rw [hsplit]
  dsimp only
  rw [dropWhile_eq_filter hbefore]
  split
  · rename_i hnil
    rw [hfilter, hnil]
    simp
  rename_i c rest hcons
  rw [hfilter, hcons]
  split
  · rename_i hsame
    -- the last item stays, and so do all the others
    have hall : t.items.filter (fun c => decide (key c < n)) = t.items := by
      rw [filter_eq_self]
      intro d hd
      have h1 := ht.le_last hlast d hd
      have h2 : key c < n := by
        have hmem : c ∈ (b :: before.reverse).filter fun c => decide (key c < n) := by
          rw [hcons]
          exact mem_cons_self
        simpa using (mem_filter.mp hmem).2
      simp only [decide_eq_true_eq]
      omega
    rw [← hcons, ← hfilter, hall]
    exact ⟨rfl, ht.last, rfl⟩
  · simp

end Track

end Eina.Matrixsparse
