/-
The table of a new class.

It says, for an op that the class does not set itself, what the first of the tables in front of
the parent says, and else what the table of the parent says.  The tables of the classes there
were before are not written to.
-/
import Efl.Eo.Vtable.Funcs
import Efl.Eo.Vtable.World
import Efl.Eo.Class.Mro

namespace Eo.Vtable

open List Option

variable {S : Addr → Prop} {h : Heap} {size : ClassId → Nat} {w : Work}
    {table : ClassId → List Node}
  {n : Nat} {storage : Storage} {descs : List OpDesc} {t : ClassId → List Node} {k : Klass}

/-- A table that can be merged into one of which `n` nodes are there. -/
structure Source (S : Addr → Prop) (h : Heap) (size : ClassId → Nat) (n : Nat) (src : List Node) :
    Prop where
  ok : TableOk h size src
  shared : Within S src
  length : src.length ≤ n

theorem merges_eq {merge : Work → List Node → Option Work}
    (found : List Node → Op → Option (Func × ClassId))
    (hmerge : ∀ {w : Work} {src}, w.Ok S h size → TableOk h size src → Within S src →
      src.length ≤ w.chain.length → ∃ w', merge w src = some w' ∧
        Work.Merged S h size src.length w w' ∧
        ∀ op, look w'.heap w'.chain op = (found src op).or (look w.heap w.chain op)) :
    ∀ (ids : List ClassId) (w : Work), w.Ok S h size → n ≤ w.chain.length →
    (∀ id ∈ ids, Source S h size n (t id)) →
    ∃ w', ids.foldlM (fun w id => merge w (t id)) w = some w' ∧ Work.Merged S h size n w w' ∧
      ∀ op, look w'.heap w'.chain op =
        (ids.reverse.findSome? fun id => found (t id) op).or (look w.heap w.chain op) := by
  intro ids
  induction ids with
  | nil =>
    intro w hw _ _
    exact ⟨w, rfl, hw.merged n, fun _ => rfl⟩
  | cons id ids ih =>
    intro w hw hn hsources
    have hsource := hsources id mem_cons_self
    obtain ⟨w1, hfirst, hmerged1, hlook1⟩ :=
      hmerge hw hsource.ok hsource.shared (Nat.le_trans hsource.length hn)
    obtain ⟨w', hfold, hmerged', hlook'⟩ := ih w1 hmerged1.ok (by rwa [hmerged1.length])
      fun id' hid' => hsources id' (mem_cons_of_mem _ hid')
    refine ⟨w', ?_, hmerged1.trans hmerged' hsource.length, fun op => ?_⟩
    · rw [foldlM_cons, hfirst]
      exact hfold
    · rw [hlook', hlook1, reverse_cons, findSome?_append, Option.or_assoc]
      rw [findSome?_cons]
      cases found (t id) op <;> rfl

/-- The ops that are known belong to classes whose node in their own table is there. -/
structure Known (table : ClassId → List Node) (size : ClassId → Nat) (n : Nat) (storage : Storage) :
    Prop where
  bounds : ∀ api op, apiOpIdGet storage (some api) = some op →
    op.classId < n ∧ op.funcId < size op.classId
  inj : ∀ a b op, apiOpIdGet storage (some a) = some op → apiOpIdGet storage (some b) = some op →
    a = b
  own : ∀ i < n, ∃ node, (table i)[i]? = some node ∧ node.count = size i

theorem apiOpIdGet_none (storage : Storage) : apiOpIdGet storage none = none := by
  simp [apiOpIdGet]

theorem prepareForeign_eq (hknown : Known table size n storage) :
    ∀ (descs : List OpDesc) (w : Work), w.Ok S h size → n ≤ w.chain.length →
    ∃ w', prepareForeign table storage descs w = some w' ∧ Work.Merged S h size n w w' ∧
      (∀ i, IsSet w.chain i → IsSet w'.chain i) ∧
      (∀ desc ∈ descs, ∀ op, apiOpIdGet storage desc.api = some op → IsSet w'.chain op.classId) ∧
      ∀ op, look w'.heap w'.chain op = look w.heap w.chain op := by
  intro descs
  unfold prepareForeign
  induction descs with
  | nil =>
    intro w hw _
    exact ⟨w, rfl, hw.merged n, fun _ hi => hi, fun d hd => absurd hd (by simp), fun _ => rfl⟩
  | cons desc descs ih =>
    intro w hw hn
    rw [foldlM_cons]
    cases hop : apiOpIdGet storage desc.api with
    | none =>
      have hfirst : prepareForeignOne table storage w desc = some w := by
        unfold prepareForeignOne
        rw [hop]
      obtain ⟨w', hfold, hmerged', hkept', hset', hlook'⟩ := ih w hw hn
      refine ⟨w', by rw [hfirst]; exact hfold, hmerged', hkept', ?_, hlook'⟩
      intro d hd op hdop
      rcases mem_cons.mp hd with rfl | hd
      · rw [hop] at hdop
        simp at hdop
      · exact hset' d hd op hdop
    | some op =>
      obtain ⟨api, hapi⟩ : ∃ api, desc.api = some api := by
        cases hapi : desc.api with
        | none =>
          rw [hapi, apiOpIdGet_none] at hop
          simp at hop
        | some api => exact ⟨api, rfl⟩
      rw [hapi] at hop
      obtain ⟨hlt, hfunc⟩ := hknown.bounds api op hop
      have hi : op.classId < w.chain.length := Nat.lt_of_lt_of_le hlt hn
      obtain ⟨node, hnode⟩ : ∃ node, w.chain[op.classId]? = some node :=
        ⟨_, getElem?_eq_getElem hi⟩
      obtain ⟨required, hrequired, hcount⟩ := hknown.own op.classId hlt
      obtain ⟨w1, hstep, hmerged1, hkept1, hset1, hlook1⟩ :
          ∃ w1, (if node.count ≠ 0 then some w
              else (prepareEmptyNode w required.count op.classId).bind
                fun w => w.mark op.classId) = some w1 ∧ Work.Merged S h size n w w1 ∧
            (∀ i, IsSet w.chain i → IsSet w1.chain i) ∧ IsSet w1.chain op.classId ∧
            ∀ op, look w1.heap w1.chain op = look w.heap w.chain op := by
        by_cases hzero : node.count = 0
        · rw [if_neg (by simpa using hzero), hcount]
          obtain ⟨hprepare, hw1, hlook1⟩ := hw.prepare hnode hzero
          have hself : IsSet (w.withArray op.classId
              (replicate (size op.classId) ⟨none, none⟩)).chain op.classId :=
            ⟨_, getElem?_set_self hi, by simp⟩
          refine ⟨_, hprepare, ⟨hw1, length_set, ?_⟩, ?_, hself, hlook1⟩
          · intro i hni
            exact getElem?_set_ne (Nat.ne_of_lt (Nat.lt_of_lt_of_le hlt hni))
          · intro i hiset
            by_cases hid : op.classId = i
            · rw [← hid]
              exact hself
            obtain ⟨x, hx, hxset⟩ := hiset
            refine ⟨x, ?_, hxset⟩
            show (w.chain.set op.classId _)[i]? = some x
            rw [getElem?_set_ne hid]
            exact hx
        · rw [if_pos hzero]
          obtain ⟨a, ha⟩ := hw.counted op.classId node hnode hzero
          exact ⟨w, rfl, hw.merged n, fun _ hi => hi, ⟨node, hnode, by rw [ha]; simp⟩, fun _ => rfl⟩
      have hfirst : prepareForeignOne table storage w desc = some w1 := by
        unfold prepareForeignOne
        rw [hapi, hop]
        simp only [hnode, hrequired]
        exact hstep
      obtain ⟨w', hfold, hmerged', hkept', hset', hlook'⟩ :=
        ih w1 hmerged1.ok (by rwa [hmerged1.length])
      refine ⟨w', ?_, hmerged1.trans hmerged' n.le_refl, fun i hi => hkept' i (hkept1 i hi), ?_,
        fun op => (hlook' op).trans (hlook1 op)⟩
      · rw [hfirst]
        exact hfold
      · intro d hd op' hdop
        rcases mem_cons.mp hd with rfl | hd
        · rw [hapi, hop] at hdop
          obtain rfl := some.inj hdop
          exact hkept' _ hset1
        · exact hset' d hd op' hdop

/-- What a class inherits by its table. -/
def inherited (h : Heap) (table : ClassId → List Node) (k : Klass) (op : Op) :
    Option (Func × ClassId) :=
  ((frontMixins k).findSome? fun id => look h (table id) op).or
    (k.parent.bind fun id => look h (table id) op)

/-- What is true of the table of a new class, and of the ops. -/
structure Made (S : Addr → Prop) (h : Heap) (size : ClassId → Nat) (n : Nat)
    (table : ClassId → List Node) (k : Klass) (storage : Storage) (descs : List OpDesc) (w : Work)
    (storage' : Storage) : Prop where
  work : w.Ok S h size
  length : w.chain.length = n + 1
  bounds : ∀ api op, apiOpIdGet storage' (some api) = some op →
    op.classId ≤ n ∧ op.funcId < size op.classId
  inj : ∀ a b op, apiOpIdGet storage' (some a) = some op → apiOpIdGet storage' (some b) = some op →
    a = b
  own : ∃ node, w.chain[n]? = some node ∧ node.count = size n
  keeps : ∀ api op, apiOpIdGet storage (some api) = some op →
    apiOpIdGet storage' (some api) = some op
  fresh : ∀ api op, apiOpIdGet storage' (some api) = some op →
    apiOpIdGet storage (some api) = some op ∨ op.classId = n
  registers : ∀ desc ∈ descs, apiOpIdGet storage' desc.api ≠ none
  tells : ∀ api op, apiOpIdGet storage' (some api) = some op →
    look w.heap w.chain op = overlaid n descs api (inherited h table k op)

theorem takeOverParent_eq (hsources : ∀ p, k.parent = some p → Source S h size n (table p)) :
    ∃ chain, takeOverParent table (n + 1) k = some chain ∧ chain.length = n + 1 ∧
      TableOk h size chain ∧ Within S chain ∧
      (∀ op, look h chain op = k.parent.bind fun id => look h (table id) op) ∧
      chain[n]? = some ⟨.null, 0⟩ := by
  unfold takeOverParent
  have hempty : ∀ (i : Nat) (node : Node), (initSize (n + 1))[i]? = some node →
      node = ⟨.null, 0⟩ :=
    fun i node hnode => eq_of_mem_replicate (mem_of_getElem? hnode)
  cases hp : k.parent with
  | none =>
    refine ⟨_, rfl, length_initSize _, ?_, ?_, ?_, by simp [initSize]⟩
    · intro i node hnode
      rw [hempty i node hnode]
      exact (rfl : (0 : Nat) = 0)
    · intro i node a hnode ha
      rw [hempty i node hnode] at ha
      simp at ha
    · intro op
      unfold look
      cases hnode : (initSize (n + 1))[op.classId]? with
      | none => rfl
      | some node =>
        rw [hempty _ node hnode]
        rfl
  | some p =>
    have hsource := hsources p hp
    obtain ⟨chain, htake, hlength, hnodes⟩ :=
      takeOver_eq hsource.ok (Nat.le_succ_of_le hsource.length)
    have hat : ∀ (i : Nat) (node : Node), chain[i]? = some node → node = nodeAt (table p) i := by
      intro i node hnode
      have hi : i < n + 1 := by
        have hlt := (List.getElem?_eq_some_iff.mp hnode).1
        omega
      exact some.inj (hnode.symm.trans (hnodes i hi))
    refine ⟨chain, htake, hlength, ?_, ?_, ?_, ?_⟩
    · intro i node hnode
      rw [hat i node hnode]
      exact nodeAt_ok hsource.ok i
    · intro i node a hnode ha
      rw [hat i node hnode] at ha
      unfold nodeAt at ha
      cases hsrc : (table p)[i]? with
      | none =>
        rw [hsrc] at ha
        simp at ha
      | some x =>
        rw [hsrc] at ha
        exact hsource.shared i x a hsrc ha
    · intro op
      rw [bind_some, look_eq_slot h (table p)]
      unfold look
      cases hnode : chain[op.classId]? with
      | none =>
        have hout : (table p)[op.classId]? = none := by
          rw [getElem?_eq_none_iff] at hnode ⊢
          exact Nat.le_trans hsource.length (by rw [hlength] at hnode; omega)
        rw [nodeAt, hout]
        rfl
      | some node =>
        rw [hat _ node hnode]
        rfl
    · rw [hnodes n (Nat.lt_succ_self n), nodeAt, getElem?_eq_none hsource.length]
      rfl

/-- **`efl_class_functions_set`** -/
theorem eflClassFunctionsSet_eq {l : List OpDesc} (hknown : Known table size n storage)
    (hsources : ∀ id < n, Source S h size n (table id))
    (hparent : ∀ p, k.parent = some p → p < n) (hfront : ∀ m ∈ frontMixins k, m < n)
    (hextensions : ∀ e ∈ k.extensions, e < n)
    (hsize : size n = (sanityCheck storage true [] l).getD 0) :
    ∃ w storage', eflClassFunctionsSet table h storage (n + 1) n k l =
        some (w, storage', (sanityCheck storage true [] l).isSome) ∧
      Made S h size n table k storage (given storage l) w storage' := by
  obtain ⟨chain, htake, hlength, hchain, hshared, hlook, hown⟩ :=
    takeOverParent_eq fun p hp => hsources p (hparent p hp)
  have hw0 : Work.Ok S h size ⟨h, chain, replicate (n + 1) false⟩ := by
    rw [← hlength]
    exact Work.Ok.start hchain hshared
  have hn : n ≤ chain.length := by omega
  obtain ⟨w1, hmixins, hmerged1, hlook1⟩ := merges_eq (look h) (fun hw => hw.mergeDefinedApi)
    (frontMixins k).reverse _ hw0 hn fun id hid => hsources id (hfront id (mem_reverse.mp hid))
  obtain ⟨w2, hslots, hmerged2, hlook2⟩ := merges_eq (fun _ _ => none) (fun hw => hw.mergeEmpty)
    k.extensions w1 hmerged1.ok (by rw [hmerged1.length]; exact hn)
    fun id hid => hsources id (hextensions id hid)
  have hmerged2 := hmerged1.trans hmerged2 n.le_refl
  obtain ⟨w3, hforeign, hmerged3, -, hset3, hlook3⟩ := prepareForeign_eq hknown l
    w2 hmerged2.ok (by rw [hmerged2.length]; exact hn)
  have hmerged3 := hmerged2.trans hmerged3 n.le_refl
  have hown3 : w3.chain[n]? = some ⟨.null, 0⟩ := (hmerged3.others n n.le_refl).trans hown
  obtain ⟨w', storage', hfuncs, hdone⟩ :=
    hmerged3.ok.eoClassFuncsSet hown3 hsize hknown.bounds hknown.inj hset3
  refine ⟨w', storage', ?_, ⟨hdone.work, ?_, hdone.bounds, hdone.inj, hdone.own, hdone.keeps,
    hdone.fresh, hdone.registers, ?_⟩⟩
  · unfold eflClassFunctionsSet mergeExtensions
    rw [htake]
    simp only [bind_eq_bind, bind_some]
    rw [hmixins, bind_some, hslots, bind_some, hforeign]
    exact hfuncs
  · exact hdone.length.trans (hmerged3.length.trans hlength)
  · intro api op hop
    have hnone : k.extensions.reverse.findSome? (fun _ => (none : Option (Func × ClassId))) =
        none :=
      findSome?_eq_none_iff.mpr fun _ _ => rfl
    rw [hdone.tells api op hop, hlook3, hlook2, hnone, none_or, hlook1, reverse_reverse, hlook]
    rfl

end Eo.Vtable
