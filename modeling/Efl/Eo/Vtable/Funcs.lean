/-
The functions that a class sets itself.

Each goes to the node of the class that its op belongs to; a function that has no op yet becomes
the next one of the class.  So afterwards the table says, for the op of a function that was set,
what it was set to, and for the other ops what it said before.
-/
import Efl.Eo.Vtable.Merge

namespace Eo.Vtable

open List Option

variable {S : Addr → Prop} {h : Heap} {size : ClassId → Nat} {w : Work} {id : ClassId}
    {storage : Storage}
  {descs : List OpDesc}

/-! ### The table of the parent -/

theorem length_initSize (n : Nat) : (initSize n).length = n := length_replicate

/-- What a table has in a place, or would have if it were large enough. -/
def nodeAt (chain : List Node) (i : Nat) : Node := (chain[i]?).getD ⟨.null, 0⟩

variable {src : List Node} {node : Node} {op : Op}

theorem nodeAt_null {i : Nat} (hsrc : TableOk h size src)
    (hnode : src[i]? = some node) (hnull : node.funcs = .null) : nodeAt src i = ⟨.null, 0⟩ := by
  have hok := hsrc i node hnode
  unfold nodeAt
  rw [hnode]
  obtain ⟨funcs, count⟩ := node
  cases hnull
  cases hok
  rfl

theorem takeOver_eq {n : Nat} (hsrc : TableOk h size src) (hn : src.length ≤ n) :
    ∃ chain, takeOver (initSize n) src = some chain ∧ chain.length = n ∧
      ∀ i < n, chain[i]? = some (nodeAt src i) := by
  obtain ⟨chain, heach, hlength, hnodes⟩ := Loop.each_ends_never
    (f := takeOverNode)
    (I := fun k dest => dest.length = n ∧ ∀ i < n,
      dest[i]? = some (if i < k then nodeAt src i else ⟨.null, 0⟩))
    (by
      rintro k node dest hnode ⟨hlength, hnodes⟩
      have hk : k < src.length := (List.getElem?_eq_some_iff.mp hnode).1
      unfold takeOverNode
      by_cases hnull : node.funcs = .null
      · rw [if_pos hnull]
        refine ⟨dest, rfl, hlength, ?_⟩
        intro i hi
        rw [hnodes i hi]
        by_cases hik : i = k
        · subst hik
          rw [if_neg (Nat.lt_irrefl i), if_pos (Nat.lt_succ_self i), nodeAt_null hsrc hnode hnull]
        · have hiff : i < k ↔ i < k + 1 := by omega
          simp only [hiff]
      · rw [if_neg hnull, if_pos (by omega)]
        refine ⟨dest.set k node, rfl, by rw [length_set, hlength], ?_⟩
        intro i hi
        by_cases hik : i = k
        · subst hik
          rw [getElem?_set_self (by omega), if_pos (Nat.lt_succ_self i), nodeAt, hnode]
          rfl
        · have hiff : i < k ↔ i < k + 1 := by omega
          rw [getElem?_set_ne fun hki => hik hki.symm, hnodes i hi]
          simp only [hiff])
    ⟨length_initSize n, fun i hi => by simp [initSize, hi]⟩
  refine ⟨chain, by rw [takeOver, heach]; rfl, hlength, ?_⟩
  intro i hi
  rw [hnodes i hi]
  split
  · rfl
  · rw [nodeAt, getElem?_eq_none (by omega)]
    rfl

theorem nodeAt_ok (hsrc : TableOk h size src) (i : Nat) :
    (nodeAt src i).Ok h (size i) := by
  unfold nodeAt
  cases hnode : src[i]? with
  | none => exact (rfl : (0 : Nat) = 0)
  | some node => exact hsrc i node hnode

theorem look_eq_slot (h : Heap) (chain : List Node) (op : Op) :
    look h chain op = Work.slot h (nodeAt chain op.classId) op.funcId := by
  unfold look nodeAt
  cases chain[op.classId]? with
  | none => rfl
  | some node => rfl

theorem Work.Ok.start {chain : List Node} (hchain : TableOk h size chain)
    (hshared : Within S chain) :
    Work.Ok S h size ⟨h, chain, List.replicate chain.length false⟩ := by
  have hold : ∀ (i : Nat) (node : Node) (a : Addr), chain[i]? = some node → node.funcs = .array a →
      ∃ cells, h.array a = some cells := fun i node a hnode ha => (hchain i node hnode).live ha
  refine ⟨⟨length_replicate, Nat.le_refl _, fun _ _ => rfl, ?_, ?_, ?_, hold, ?_⟩, hchain, ?_⟩
  · intro i node a _ hhit
    rw [getElem?_replicate] at hhit
    split at hhit <;> exact absurd hhit (by simp)
  · intro i i' node node' a hnode _ ha _ hfresh
    obtain ⟨cells, hcells⟩ := hold i node a hnode ha
    exact absurd (Heap.array_lt hcells) (Nat.not_lt.mpr hfresh)
  · intro i node a hnode ha
    exact .inl (hshared i node a hnode ha)
  · intro i node hnode hcount
    exact (hchain i node hnode).counted hcount
  · intro i node _ hhit
    rw [getElem?_replicate] at hhit
    split at hhit <;> exact absurd hhit (by simp)

/-! ### The ops of the functions -/

theorem apiOpIdGet_append (storage : Storage) (a b : Api) (op : Op) :
    apiOpIdGet (storage ++ [(a, op)]) (some b) =
      (apiOpIdGet storage (some b)).or (if a = b then some op else none) := by
  unfold apiOpIdGet
  rw [find?_append]
  cases hfind : storage.find? fun entry => decide (some entry.1 = some b) with
  | some entry => rfl
  | none =>
    by_cases hab : a = b
    · simp
    · simp

/-- How many functions have no op yet. -/
def newCount (storage : Storage) (descs : List OpDesc) : Nat :=
  descs.countP fun desc => decide (apiOpIdGet storage desc.api = none)

theorem sanityCheck_eq : ∀ {descs : List OpDesc} {apiFuncs : List Api} {count : Nat},
    sanityCheck storage true apiFuncs descs = some count →
      (∀ desc ∈ descs, ∃ api, desc.api = some api ∧ api ∉ apiFuncs) ∧
        (descs.map (·.api)).Nodup ∧ count = newCount storage descs := by
  intro descs
  induction descs with
  | nil =>
    intro apiFuncs count hcheck
    exact ⟨by simp, by simp, (some.inj hcheck).symm⟩
  | cons desc descs ih =>
    intro apiFuncs count hcheck
    unfold sanityCheck at hcheck
    cases hapi : desc.api with
    | none =>
      rw [hapi] at hcheck
      simp at hcheck
    | some api =>
      rw [hapi] at hcheck
      dsimp only at hcheck
      split at hcheck
      · simp at hcheck
      rename_i hnew
      have hnew : api ∉ apiFuncs := fun hmem => hnew ⟨rfl, hmem⟩
      obtain ⟨rest, hrest, rfl⟩ := map_eq_some_iff.mp hcheck
      obtain ⟨hapis, hnodup, rfl⟩ := ih hrest
      refine ⟨?_, ?_, ?_⟩
      · intro d hd
        rcases mem_cons.mp hd with rfl | hd
        · exact ⟨api, hapi, hnew⟩
        · obtain ⟨b, hb, hout⟩ := hapis d hd
          exact ⟨b, hb, fun hmem => hout (mem_append_left _ hmem)⟩
      · rw [map_cons, nodup_cons]
        refine ⟨?_, hnodup⟩
        intro hmem
        obtain ⟨d, hd, heq⟩ := mem_map.mp hmem
        obtain ⟨b, hb, hout⟩ := hapis d hd
        rw [hapi, hb] at heq
        obtain rfl := some.inj heq
        exact hout (mem_append_right _ mem_cons_self)
      · unfold newCount
        rw [countP_cons, hapi]
        by_cases hop : apiOpIdGet storage (some api) = none
        · simp [hop]
        · simp [hop]

/-! ### One function -/

theorem Work.Ok.funcSet (hw : w.Ok S h size) (klass : ClassId)
    (func : Option Func) (hnode : w.chain[op.classId]? = some node)
    (hhit : w.hitmap[op.classId]? = some true) (hop : op.funcId < size op.classId) :
    ∃ heap, funcSet w klass none op func = some (⟨heap, w.chain, w.hitmap⟩, true) ∧
      Work.Ok S h size ⟨heap, w.chain, w.hitmap⟩ ∧
      ∀ op', look heap w.chain op' =
        if op' = op then func.map fun f => (f, klass) else look w.heap w.chain op' := by
  have hi : op.classId < w.chain.length := (List.getElem?_eq_some_iff.mp hnode).1
  have hset : node.funcs ≠ .null := hw.set op.classId node hnode hhit
  have hcount : ¬node.count < op.funcId := by
    have hok := hw.nodes op.classId node hnode
    unfold Node.Ok at hok
    cases hfuncs : node.funcs with
    | null => exact absurd hfuncs hset
    | marker =>
      rw [hfuncs] at hok
      omega
    | array a =>
      rw [hfuncs] at hok
      omega
  obtain ⟨heap, hstore, hw', hlook⟩ := hw.store hnode hhit hop (x := ⟨func, some klass⟩)
    fun _ => by simp
  refine ⟨heap, ?_, hw', ?_⟩
  · unfold Vtable.funcSet
    have hfuncs : funcsOf w.heap klass none op func = some ⟨func, some klass⟩ := rfl
    rw [if_neg (Nat.not_lt.mpr (Nat.le_of_lt hi)), hnode, bind_eq_bind, bind_some,
      if_neg hset, if_neg hcount, hfuncs, bind_eq_bind, bind_some, hstore,
      bind_eq_bind, bind_some]
  · intro op'
    rw [hlook]
    split
    · cases func <;> rfl
    · rfl

/-- What is kept while the functions of a class are set. -/
structure Setting.Ok (S : Addr → Prop) (h : Heap) (size : ClassId → Nat) (id : ClassId)
    (s : Setting) : Prop where
  work : s.work.Ok S h size
  own : s.work.hitmap[id]? = some true
  bounds : ∀ api op, apiOpIdGet s.storage (some api) = some op →
    op.classId ≤ id ∧ op.funcId < size op.classId ∧ (op.classId = id → op.funcId < s.j)
  /-- No two functions have the same op. -/
  inj : ∀ a b op, apiOpIdGet s.storage (some a) = some op →
    apiOpIdGet s.storage (some b) = some op →
    a = b

/-- A node is there and set. -/
def IsSet (chain : List Node) (i : Nat) : Prop := ∃ node, chain[i]? = some node ∧ node.funcs ≠ .null

/-- The op that a function has, or gets. -/
def Setting.opOf (s : Setting) (id : ClassId) (api : Api) : Op :=
  (apiOpIdGet s.storage (some api)).getD ⟨id, s.j⟩

theorem Setting.named_work (s : Setting) (id : ClassId) (api : Option Api) :
    (s.named id api).work = s.work := by
  unfold named
  split <;> rfl

variable {s : Setting} {api : Api}

theorem Setting.named_known (id : ClassId)
    (hknown : apiOpIdGet s.storage (some api) = some op) : s.named id (some api) = s := by
  unfold named
  rw [hknown]

theorem Setting.named_new (id : ClassId) (hnew : apiOpIdGet s.storage (some api) = none) :
    s.named id (some api) =
      { s with storage := s.storage ++ [(api, ⟨id, s.j⟩)], j := s.j + 1 } := by
  unfold named
  rw [hnew]

theorem Setting.named_storage (s : Setting) (id : ClassId) (api b : Api) :
    apiOpIdGet (s.named id (some api)).storage (some b) =
      if b = api then some (s.opOf id api) else apiOpIdGet s.storage (some b) := by
  unfold opOf
  cases hknown : apiOpIdGet s.storage (some api) with
  | none =>
    rw [named_new id hknown, apiOpIdGet_append]
    by_cases hb : b = api
    · rw [hb, hknown, if_pos rfl, if_pos rfl]
      rfl
    · rw [if_neg hb, if_neg fun h => hb h.symm, or_none]
  | some op =>
    rw [named_known id hknown]
    by_cases hb : b = api
    · rw [hb, hknown, if_pos rfl]
      rfl
    · rw [if_neg hb]

theorem Setting.Ok.named (hs : s.Ok S h size id) (api : Api)
    (hroom : apiOpIdGet s.storage (some api) = none → s.j < size id) :
    (s.named id (some api)).Ok S h size id := by
  cases hknown : apiOpIdGet s.storage (some api) with
  | some op =>
    rw [Setting.named_known id hknown]
    exact hs
  | none =>
    have hop : s.opOf id api = ⟨id, s.j⟩ := by
      unfold Setting.opOf
      rw [hknown]
      rfl
    have hj : (s.named id (some api)).j = s.j + 1 := by
      rw [Setting.named_new id hknown]
    have hfresh : ∀ b, apiOpIdGet s.storage (some b) ≠ some ⟨id, s.j⟩ := by
      intro b hb
      exact absurd ((hs.bounds b _ hb).2.2 rfl) (Nat.lt_irrefl _)
    refine ⟨by rw [s.named_work]; exact hs.work, by rw [s.named_work]; exact hs.own, ?_, ?_⟩
    · intro b op hb
      rw [s.named_storage, hop] at hb
      rw [hj]
      split at hb
      · obtain rfl := some.inj hb
        exact ⟨Nat.le_refl _, hroom hknown, fun _ => Nat.lt_succ_self _⟩
      · obtain ⟨hle, hlt, hown⟩ := hs.bounds b op hb
        exact ⟨hle, hlt, fun heq => Nat.lt_succ_of_lt (hown heq)⟩
    · intro a b op ha hb
      rw [s.named_storage, hop] at ha hb
      split at ha
      · rename_i hapi
        split at hb
        · rename_i hapi'
          rw [hapi, hapi']
        · obtain rfl := some.inj ha
          exact absurd hb (hfresh b)
      · split at hb
        · obtain rfl := some.inj hb
          exact absurd ha (hfresh a)
        · exact hs.inj a b op ha hb

/-- **One function is set.** -/
theorem Setting.Ok.setOne (hs : s.Ok S h size id) {desc : OpDesc} (hapi : desc.api = some api)
    (hroom : apiOpIdGet s.storage (some api) = none → s.j < size id)
    (hset : IsSet s.work.chain (s.opOf id api).classId) :
    ∃ w', setOne id none id desc s =
        some (⟨w', (s.named id (some api)).storage, (s.named id (some api)).j⟩, none) ∧
      Setting.Ok S h size id ⟨w', (s.named id (some api)).storage, (s.named id (some api)).j⟩ ∧
      w'.chain.length = s.work.chain.length ∧
      (∀ i, IsSet s.work.chain i → IsSet w'.chain i) ∧
      ∀ op, look w'.heap w'.chain op =
        if op = s.opOf id api then desc.func.map fun f => (f, id)
        else look s.work.heap s.work.chain op := by
  have hnamed := hs.named api hroom
  have hbounds := hnamed.bounds api (s.opOf id api) (by rw [s.named_storage, if_pos rfl])
  generalize hop2 : s.opOf id api = op2 at hset hbounds ⊢
  obtain ⟨node, hnode, hnodeSet⟩ := hset
  -- the node is the table's own before it is written to
  obtain ⟨w1, node1, hown, hw1, hlength1, hnode1, hhit1, hid1, hkept1, hlook1⟩ :
      ∃ w1 node1, ownNode s.work op2.classId = some w1 ∧ w1.Ok S h size ∧
        w1.chain.length = s.work.chain.length ∧ w1.chain[op2.classId]? = some node1 ∧
        w1.hitmap[op2.classId]? = some true ∧ w1.hitmap[id]? = some true ∧
        (∀ i, IsSet s.work.chain i → IsSet w1.chain i) ∧
        ∀ op, look w1.heap w1.chain op = look s.work.heap s.work.chain op := by
    have hi : op2.classId < s.work.chain.length := (List.getElem?_eq_some_iff.mp hnode).1
    have hih : op2.classId < s.work.hitmap.length := by
      rw [hs.work.sizes]
      exact hi
    unfold ownNode
    cases hhit : s.work.hitmap[op2.classId]? with
    | none => exact absurd hih (Nat.not_lt.mpr (getElem?_eq_none_iff.mp hhit))
    | some hit =>
      cases hit with
      | true =>
        exact ⟨s.work, node, rfl, hs.work, rfl, hnode, hhit, hs.own, fun _ hi => hi,
          fun _ => rfl⟩
      | false =>
        obtain ⟨a, ha⟩ : ∃ a, node.funcs = .array a := by
          have hok := hs.work.nodes op2.classId node hnode
          unfold Node.Ok at hok
          cases hfuncs : node.funcs with
          | null => exact absurd hfuncs hnodeSet
          | marker =>
            rw [hfuncs] at hok
            omega
          | array a => exact ⟨a, rfl⟩
        obtain ⟨cells, hcopy, -, hw1, hlook1⟩ := hs.work.copy hnode ha
        rw [hnode]
        refine ⟨_, _, hcopy, hw1, length_set, getElem?_set_self hi,
          getElem?_set_self hih, ?_, ?_, hlook1⟩
        · show (s.work.hitmap.set op2.classId true)[id]? = some true
          by_cases hid : op2.classId = id
          · rw [← hid]
            exact getElem?_set_self hih
          · rw [getElem?_set_ne hid]
            exact hs.own
        · rintro i ⟨x, hx, hxset⟩
          by_cases hid : op2.classId = i
          · exact ⟨_, by rw [← hid]; exact getElem?_set_self hi, by simp⟩
          refine ⟨x, ?_, hxset⟩
          show (s.work.chain.set op2.classId _)[i]? = some x
          rw [getElem?_set_ne hid]
          exact hx
  obtain ⟨heap, hfuncSet, hw2, hlook2⟩ := hw1.funcSet id desc.func hnode1 hhit1 hbounds.2.1
  refine ⟨⟨heap, w1.chain, w1.hitmap⟩, ?_, ⟨hw2, hid1, hnamed.bounds, hnamed.inj⟩, hlength1,
    hkept1, ?_⟩
  · have hgetD : (apiOpIdGet s.storage (some api)).getD ⟨id, s.j⟩ = op2 := hop2
    unfold Vtable.setOne
    rw [hapi, if_neg (by simp)]
    dsimp only
    rw [hgetD, s.named_work, hown, bind_eq_bind, bind_some, hfuncSet,
      bind_eq_bind, bind_some, if_pos rfl]
  · intro op
    rw [hlook2, hlook1]

/-! ### All of them -/

/-- What a list of functions sets for an API function; the inner `none` is the null pointer. -/
def defined (descs : List OpDesc) (api : Api) : Option (Option Func) :=
  (descs.find? fun desc => decide (desc.api = some api)).map (·.func)

/-- What a class says for an API function once its functions are set. -/
def overlaid (id : ClassId) (descs : List OpDesc) (api : Api) (before : Option (Func × ClassId)) :
    Option (Func × ClassId) :=
  match defined descs api with
  | some func => func.map fun f => (f, id)
  | none => before

theorem defined_cons (desc : OpDesc) (descs : List OpDesc) (api : Api) :
    defined (desc :: descs) api =
      if desc.api = some api then some desc.func else defined descs api := by
  unfold defined
  by_cases h : desc.api = some api
  · simp [h]
  · simp [h]

theorem defined_eq_none {descs : List OpDesc} (h : some api ∉ descs.map (·.api)) :
    defined descs api = none := by
  unfold defined
  rw [map_eq_none_iff, find?_eq_none]
  intro desc hdesc
  simp only [decide_eq_true_eq]
  intro heq
  exact h (mem_map.mpr ⟨desc, hdesc, heq⟩)

/-- **The loop over the functions.** -/
theorem each_setOne : ∀ (descs : List OpDesc) (i : Nat) (s : Setting), s.Ok S h size id →
    (∀ desc ∈ descs, ∃ api, desc.api = some api) → (descs.map (·.api)).Nodup →
    s.j + newCount s.storage descs ≤ size id → IsSet s.work.chain id →
    (∀ desc ∈ descs, ∀ op, apiOpIdGet s.storage desc.api = some op →
      IsSet s.work.chain op.classId) →
    ∃ s', Loop.each (fun _ desc s => setOne id none id desc s) i descs s = some (s', none) ∧
      s'.Ok S h size id ∧ s'.work.chain.length = s.work.chain.length ∧
      (∀ api op, apiOpIdGet s.storage (some api) = some op →
        apiOpIdGet s'.storage (some api) = some op) ∧
      (∀ api op, apiOpIdGet s'.storage (some api) = some op →
        apiOpIdGet s.storage (some api) = some op ∨ op.classId = id) ∧
      (∀ desc ∈ descs, apiOpIdGet s'.storage desc.api ≠ none) ∧
      ∀ api op, apiOpIdGet s'.storage (some api) = some op →
        look s'.work.heap s'.work.chain op =
          overlaid id descs api (look s.work.heap s.work.chain op) := by
  intro descs
  induction descs with
  | nil =>
    intro i s hs _ _ _ _ _
    exact ⟨s, rfl, hs, rfl, fun _ _ h => h, fun _ _ h => .inl h,
      fun d hd => absurd hd (by simp), fun _ _ _ => rfl⟩
  | cons desc descs ih =>
    intro i s hs hapis hnodup hroom hown hset
    obtain ⟨api, hapi⟩ := hapis desc mem_cons_self
    rw [map_cons, nodup_cons, hapi] at hnodup
    obtain ⟨hnotin, hnodup⟩ := hnodup
    have hcount : newCount s.storage (desc :: descs) = newCount s.storage descs +
        if apiOpIdGet s.storage (some api) = none then 1 else 0 := by
      unfold newCount
      rw [countP_cons, hapi]
      simp
    have hroom1 : apiOpIdGet s.storage (some api) = none → s.j < size id := by
      intro hnew
      rw [hcount, if_pos hnew] at hroom
      omega
    have hset1 : IsSet s.work.chain (s.opOf id api).classId := by
      unfold Setting.opOf
      cases hknown : apiOpIdGet s.storage (some api) with
      | none => exact hown
      | some op => exact hset desc mem_cons_self op (by rw [hapi]; exact hknown)
    obtain ⟨w1, hstep, hs1, hlength1, hkept1, hlook1⟩ := hs.setOne hapi hroom1 hset1
    have hstorage1 : ∀ b, apiOpIdGet (s.named id (some api)).storage (some b) =
        if b = api then some (s.opOf id api) else apiOpIdGet s.storage (some b) :=
      s.named_storage id api
    have hrestApi : ∀ d ∈ descs, ∃ b, d.api = some b ∧ b ≠ api := by
      intro d hd
      obtain ⟨b, hb⟩ := hapis d (mem_cons_of_mem _ hd)
      refine ⟨b, hb, ?_⟩
      rintro rfl
      exact hnotin (mem_map.mpr ⟨d, hd, hb⟩)
    have hcount1 : newCount (s.named id (some api)).storage descs = newCount s.storage descs := by
      refine countP_congr ?_
      intro d hd
      obtain ⟨b, hb, hne⟩ := hrestApi d hd
      rw [hb, hstorage1, if_neg hne]
    have hj1 : (s.named id (some api)).j =
        s.j + if apiOpIdGet s.storage (some api) = none then 1 else 0 := by
      cases hknown : apiOpIdGet s.storage (some api) with
      | none => rw [Setting.named_new id hknown, if_pos rfl]
      | some op => rw [Setting.named_known id hknown]; rfl
    obtain ⟨s', heach, hs', hlength', hkeep', hnew', hreg', hlook'⟩ := ih (i + 1) _ hs1
      (fun d hd => hapis d (mem_cons_of_mem _ hd)) hnodup
      (by
        show (s.named id (some api)).j + newCount (s.named id (some api)).storage descs ≤ size id
        omega)
      (hkept1 id hown)
      (by
        intro d hd op hop
        obtain ⟨b, hb, hne⟩ := hrestApi d hd
        have hold : apiOpIdGet s.storage d.api = some op := by
          rw [hb] at hop ⊢
          rw [← hop]
          rw [hstorage1, if_neg hne]
        exact hkept1 _ (hset d (mem_cons_of_mem _ hd) op hold))
    have hself : apiOpIdGet s'.storage (some api) = some (s.opOf id api) := by
      refine hkeep' api _ ?_
      rw [hstorage1, if_pos rfl]
    refine ⟨s', ?_, hs', hlength'.trans hlength1, ?_, ?_, ?_, ?_⟩
    · rw [Loop.each, hstep]
      exact heach
    · intro b op hop
      by_cases hb : b = api
      · have hopOf : s.opOf id api = op := by
          unfold Setting.opOf
          rw [← hb, hop]
          rfl
        rw [hb, hself, hopOf]
      · refine hkeep' b op ?_
        rw [hstorage1, if_neg hb]
        exact hop
    · intro b op hop
      rcases hnew' b op hop with hold | hid
      · have hnamed : (if b = api then some (s.opOf id api) else apiOpIdGet s.storage (some b)) =
            some op := (hstorage1 b).symm.trans hold
        split at hnamed
        · rename_i hb
          have hop2 := some.inj hnamed
          unfold Setting.opOf at hop2
          cases hknown : apiOpIdGet s.storage (some api) with
          | none =>
            rw [hknown] at hop2
            exact .inr (by rw [← hop2]; rfl)
          | some op3 =>
            rw [hknown] at hop2
            exact .inl (by rw [hb, hknown, ← hop2]; rfl)
        · exact .inl hnamed
      · exact .inr hid
    · intro d hd
      rcases mem_cons.mp hd with rfl | hd
      · rw [hapi, hself]
        simp
      · exact hreg' d hd
    · intro b op hop
      rw [hlook' b op hop]
      unfold overlaid
      rw [defined_cons, hapi]
      by_cases hb : b = api
      · subst hb
        obtain rfl : s.opOf id b = op := some.inj (hself.symm.trans hop)
        rw [if_pos rfl, defined_eq_none hnotin]
        rw [hlook1, if_pos rfl]
      · have hne : op ≠ s.opOf id api := by
          rintro rfl
          exact hb (hs'.inj b api _ hop hself)
        rw [if_neg fun heq => hb (some.inj heq).symm]
        rw [hlook1, if_neg hne]

/-- The functions that a class is given; none, if they do not pass the sanity checks. -/
def given (storage : Storage) (descs : List OpDesc) : List OpDesc :=
  if (sanityCheck storage true [] descs).isSome then descs else []

/-- What is true of a table and the ops once the functions of a class are set. -/
structure FuncsSet (S : Addr → Prop) (h : Heap) (size : ClassId → Nat) (id : ClassId)
    (storage : Storage)
    (descs : List OpDesc) (w w' : Work) (storage' : Storage) : Prop where
  work : w'.Ok S h size
  length : w'.chain.length = w.chain.length
  bounds : ∀ api op, apiOpIdGet storage' (some api) = some op →
    op.classId ≤ id ∧ op.funcId < size op.classId
  inj : ∀ a b op, apiOpIdGet storage' (some a) = some op → apiOpIdGet storage' (some b) = some op →
    a = b
  own : ∃ node, w'.chain[id]? = some node ∧ node.count = size id
  keeps : ∀ api op, apiOpIdGet storage (some api) = some op →
    apiOpIdGet storage' (some api) = some op
  fresh : ∀ api op, apiOpIdGet storage' (some api) = some op →
    apiOpIdGet storage (some api) = some op ∨ op.classId = id
  registers : ∀ desc ∈ descs, apiOpIdGet storage' desc.api ≠ none
  tells : ∀ api op, apiOpIdGet storage' (some api) = some op →
    look w'.heap w'.chain op = overlaid id descs api (look w.heap w.chain op)

/-- **`_eo_class_funcs_set` for a class.** -/
theorem Work.Ok.eoClassFuncsSet (hw : w.Ok S h size) (hown : w.chain[id]? = some ⟨.null, 0⟩)
    (hsize : size id = ((sanityCheck storage true [] descs).getD 0))
    (hbounds : ∀ api op, apiOpIdGet storage (some api) = some op →
      op.classId < id ∧ op.funcId < size op.classId)
    (hinj : ∀ a b op, apiOpIdGet storage (some a) = some op →
      apiOpIdGet storage (some b) = some op → a = b)
    (hset : ∀ desc ∈ descs, ∀ op, apiOpIdGet storage desc.api = some op →
      IsSet w.chain op.classId) :
    ∃ w' storage', eoClassFuncsSet w storage descs none id id =
        some (w', storage', (sanityCheck storage true [] descs).isSome) ∧
      FuncsSet S h size id storage (given storage descs) w w' storage' := by
  have hi : id < w.chain.length := (List.getElem?_eq_some_iff.mp hown).1
  have hhit : w.hitmap[id]? = some false := hw.unmarked hown rfl
  have hih : id < w.hitmap.length := (List.getElem?_eq_some_iff.mp hhit).1
  have hlookOwn : ∀ op : Op, op.classId = id → look w.heap w.chain op = none :=
    fun op hop => look_null (hop ▸ hown) rfl
  have hinsert : insertEmptyFuncs w id = some ⟨w.heap, w.chain.set id ⟨.marker, 0⟩, w.hitmap⟩ := by
    unfold insertEmptyFuncs Work.setNode
    rw [if_pos hi]
  -- without functions, only the marker is written
  have hmarker : size id = 0 → FuncsSet S h size id storage [] w
      ⟨w.heap, w.chain.set id ⟨.marker, 0⟩, w.hitmap⟩ storage := by
    intro hzero
    obtain ⟨hw', hlook⟩ := hw.share (f := ⟨.marker, 0⟩) hi hhit ⟨rfl, hzero⟩
      fun a ha => absurd ha (by simp)
    refine ⟨hw', length_set, ?_, hinj, ⟨_, getElem?_set_self hi, hzero.symm⟩,
      fun _ _ h => h, fun _ _ h => .inl h, ?_, ?_⟩
    · intro api op hop
      exact ⟨Nat.le_of_lt (hbounds api op hop).1, (hbounds api op hop).2⟩
    · intro d hd
      simp at hd
    · intro api op _
      rw [hlook]
      split
      · rename_i hop
        rw [hlookOwn op hop]
        rfl
      · rfl
  unfold Vtable.eoClassFuncsSet
  rw [if_neg (by simp), hinsert, bind_some]
  by_cases hnil : descs = []
  · subst hnil
    exact ⟨_, _, rfl, hmarker hsize⟩
  rw [if_neg hnil]
  have hflag : (!(none : Option (List Node)).isSome) = true := rfl
  rw [hflag]
  cases hcheck : sanityCheck storage true [] descs with
  | none =>
    refine ⟨_, _, rfl, ?_⟩
    rw [hcheck] at hsize
    have hgiven : given storage descs = [] := by
      unfold given
      rw [hcheck]
      rfl
    rw [hgiven]
    exact hmarker hsize
  | some count =>
    rw [hcheck, getD_some] at hsize
    obtain ⟨hapis, hnodup, hcount⟩ := sanityCheck_eq hcheck
    have hgiven : given storage descs = descs := by
      unfold given
      rw [hcheck]
      rfl
    -- the node of the class, with room for its own functions
    obtain ⟨w1, hprepare, hw1, hlength1, hown1, hhit1, hset1, hlook1⟩ :
        ∃ w1, ownFuncsNode ⟨w.heap, w.chain.set id ⟨.marker, 0⟩, w.hitmap⟩ count id = some w1 ∧
          w1.Ok S h size ∧ w1.chain.length = w.chain.length ∧ IsSet w1.chain id ∧
            w1.hitmap[id]? = some true ∧
          (∀ i, IsSet w.chain i → IsSet w1.chain i) ∧
          ∀ op, look w1.heap w1.chain op = look w.heap w.chain op := by
      have hstays : ∀ node : Node, node.funcs ≠ .null → ∀ i, IsSet w.chain i →
          IsSet (w.chain.set id node) i := by
        rintro node hnode i ⟨x, hx, hxset⟩
        by_cases hid : id = i
        · subst hid
          exact ⟨node, getElem?_set_self hi, hnode⟩
        refine ⟨x, ?_, hxset⟩
        rw [getElem?_set_ne hid]
        exact hx
      unfold ownFuncsNode
      by_cases hzero : count = 0
      · rw [if_pos hzero, ← hinsert]
        obtain ⟨hmark, hw1, hlook1⟩ := hw.markEmpty hown (hsize.trans hzero) rfl
        exact ⟨_, hmark, hw1, length_set, ⟨_, getElem?_set_self hi, by simp⟩,
          getElem?_set_self hih, hstays _ (by simp), hlook1⟩
      · rw [if_neg hzero]
        obtain ⟨hprepare, hw1, hlook1⟩ := hw.prepare hown rfl
        refine ⟨_, ?_, hw1, length_set, ⟨_, getElem?_set_self hi, by simp⟩,
          getElem?_set_self hih, hstays _ (by simp), hlook1⟩
        rw [← hprepare, hsize]
        unfold prepareEmptyNode Work.alloc Work.setNode
        rw [length_set, if_pos hi, if_pos hi, set_set]
    have hs : Setting.Ok S h size id ⟨w1, storage, 0⟩ := by
      refine ⟨hw1, hhit1, ?_, hinj⟩
      intro api op hop
      obtain ⟨hlt, hfunc⟩ := hbounds api op hop
      exact ⟨Nat.le_of_lt hlt, hfunc, fun heq => absurd heq (Nat.ne_of_lt hlt)⟩
    obtain ⟨s', heach, hs', hlength', hkeep', hnew', hreg', hlook'⟩ := each_setOne descs 0 _ hs
      (fun d hd => by
        obtain ⟨api, hapi, -⟩ := hapis d hd
        exact ⟨api, hapi⟩)
      hnodup
      (by
        show 0 + newCount storage descs ≤ size id
        omega)
      hown1
      (fun d hd op hop => hset1 _ (hset d hd op hop))
    refine ⟨s'.work, s'.storage, ?_, ?_⟩
    · dsimp only
      rw [if_neg (by simp), hprepare, bind_some, heach]
      rfl
    · rw [hgiven]
      refine ⟨hs'.work, hlength'.trans hlength1, ?_, hs'.inj, ?_, hkeep', hnew', hreg', ?_⟩
      · intro api op hop
        exact ⟨(hs'.bounds api op hop).1, (hs'.bounds api op hop).2.1⟩
      · have hin : id < s'.work.chain.length := by
          rw [hlength', hlength1]
          exact hi
        have hnode := getElem?_eq_getElem hin
        exact ⟨_, hnode, (hs'.work.nodes id _ hnode).count_eq (hs'.work.set id _ hnode hs'.own)⟩
      · intro api op hop
        rw [hlook' api op hop, hlook1]

end Eo.Vtable
