/-
Runs of a free queue.

`Exact` is what a program may rely on: the pointers are freed in the order of their additions and
none of them twice, none waits when `eina_freeq_clear` returns, and between calls the counters are
those of the waiting items.

The condition on a call (`Within`) is about additions.  `_eina_freeq_process` moves the cursor of
its block only after the free function has returned, so an addition out of that function must not
make the queue process items.  And where no block can be had, the pointer is freed at once, in
front of those that wait, or by a postponed queue never.
-/
import Efl.Eina.FreeQ.Queue
import Efl.Lib.Runs

namespace Eina.FreeQ.World

open List Option Bool

variable {w w' : World} {fq : FreeQ} {bs : List (Addr × Block)} {it : Item}

/-- The blocks of which an item is being processed. -/
def processes : List Frame → List Addr
  | [] => []
  | .process a _ :: stack => a :: processes stack
  | .direct :: stack => processes stack

/-! ### The calls a program may make -/

/-- Only additions are made by free functions; `malloc` gives out memory that is not in use. -/
def Legal (w : World) : Op → Prop
  | .ptrAdd _ _ _ mem => ∀ a ∈ mem, w.fq.block a = none
  | .countMaxSet count => w.stack = [] ∧ 0 ≤ count
  | .memMaxSet _ => w.stack = []
  | .clear => w.stack = []
  | .reduce _ => w.stack = []
  | .ret => w.stack ≠ []

/-- The queue is not over its limits with `size` bytes more. -/
def Bounded (w : World) (size : BitVec 64) : Prop :=
  w.fq.postponed = true ∨
    (w.fq.count + 1 ≤ w.fq.countMax ∧ w.fq.memTotal.toNat + size.toNat ≤ w.fq.memMax.toNat)

/-- No block can be had for an item. -/
def Refused (w : World) (mem : Option Addr) : Prop :=
  mem = none ∧ w.fq.needsBlock = some true

instance decidableRefused (w : World) (mem : Option Addr) : Decidable (w.Refused mem) :=
  inferInstanceAs (Decidable (_ ∧ _))

/-- The additions that do not go wrong. -/
def Sound (w : World) : Op → Prop
  | .ptrAdd (some _) _ size mem =>
    if w.Refused mem then w.fq.postponed = false ∧ w.added.length = w.freed.length
    else w.fq.count + 1 < 2 ^ 31 ∧ w.fq.memTotal.toNat + size.toNat < 2 ^ 64 ∧
      (processes w.stack ≠ [] → w.Bounded size)
  | _ => True

/-- The condition on a call, in the state it is made in. -/
def Within (w : World) (op : Op) : Prop := w.Legal op ∧ w.Sound op

/-! ### What the program may rely on -/

structure Exact (w : World) : Prop where
  /-- Every pointer is freed at most once, and in the order of addition. -/
  order : w.freed <+: w.added
  /-- When `eina_freeq_clear` returns, every pointer was freed. -/
  cleared : w.cleared = true → w.freed = w.added
  /-- The counters are those of the items that wait, whenever no call is in progress. -/
  counted : w.stack = [] → w.fq.count = (w.added.drop w.freed.length).length ∧
    w.fq.memTotal.toNat = total (w.added.drop w.freed.length)

/-! ### The invariant -/

/-- The items that wait are those of the queue, but for the one being processed. -/
inductive Waits (w : World) (bs : List (Addr × Block)) : Prop
  | idle (hstack : processes w.stack = []) (hadded : w.added = w.freed ++ queued bs)
  | busy (a : Addr) (hstack : processes w.stack = [a]) (hfirst : w.fq.blocks = some a)
      (hadded : w.added = w.freed ++ (queued bs).tail)

/-- What every run keeps. -/
structure Inv (w : World) : Prop where
  queue : ∃ bs, Holds w.fq bs ∧ w.Waits bs
  bypass : w.fq.bypass = false
  limit : w.fq.postponed = false → 0 ≤ w.fq.countMax
  cleared : w.cleared = true → w.freed = w.added

theorem Inv.exact (h : Inv w) : Exact w := by
  obtain ⟨bs, hbs, hwaits⟩ := h.queue
  refine ⟨?_, h.cleared, ?_⟩
  · cases hwaits with
    | idle hstack hadded => exact ⟨_, hadded.symm⟩
    | busy a hstack hfirst hadded => exact ⟨_, hadded.symm⟩
  · intro hnone
    cases hwaits with
    | idle hstack hadded =>
      rw [hadded, drop_left]
      exact ⟨hbs.count, hbs.total⟩
    | busy a hstack hfirst hadded =>
      rw [hnone] at hstack
      simp [processes] at hstack

theorem inv_new (hbs : Holds fq []) (hbypass : fq.bypass = false)
    (hlimit : fq.postponed = false → 0 ≤ fq.countMax) : Inv (new fq) :=
  ⟨⟨[], hbs, .idle rfl rfl⟩, hbypass, hlimit, fun hf => absurd hf (by simp [new])⟩

theorem holds_newDefault (countMax : Int) (memMax : BitVec 64) (bypass : Bool) :
    Holds (newDefault countMax memMax bypass) [] :=
  ⟨⟨rfl, fun e he => absurd he (by simp), nodup_nil, rfl⟩, fun e he => absurd he (by simp), rfl,
    rfl⟩

theorem holds_newPostponed : Holds newPostponed [] :=
  ⟨⟨rfl, fun e he => absurd he (by simp), nodup_nil, rfl⟩, fun e he => absurd he (by simp), rfl,
    rfl⟩

/-! ### A loop -/

theorem queued_nil_of_blocks (h : Holds fq bs) (hnil : bs = []) : fq.count = 0 ∧
    fq.memTotal.toNat = 0 := by
  subst hnil
  exact ⟨h.count, h.total⟩

theorem ne_nil_of_test (h : Holds fq bs) (hlimit : fq.postponed = false → 0 ≤ fq.countMax)
    {loop : Loop} (htest : loop.test fq = true) : bs ≠ [] := by
  intro hnil
  obtain ⟨hcount, htotal⟩ := queued_nil_of_blocks h hnil
  cases loop with
  | flush =>
    simp only [Loop.test, and_eq_true, not_eq_true', or_eq_true,
      decide_eq_true_eq, BitVec.lt_def] at htest
    have hpos := hlimit htest.1
    omega
  | clear =>
    simp only [Loop.test, decide_eq_true_eq] at htest
    omega
  | reduce count =>
    simp only [Loop.test, and_eq_true, decide_eq_true_eq] at htest
    omega

/-- **A loop ends, or calls the free function of the first item.** -/
theorem enter_spec (hbs : Holds w.fq bs) (hstack : processes w.stack = [])
    (hadded : w.added = w.freed ++ queued bs) (hbypass : w.fq.bypass = false)
    (hlimit : w.fq.postponed = false → 0 ≤ w.fq.countMax) (hcleared : w.cleared = false)
    (loop : Loop) : ∃ w' r, w.enter loop = some (w', r) ∧ Inv w' := by
  rw [enter]
  by_cases htest : loop.test w.fq = true
  · rw [if_pos htest]
    have hne := ne_nil_of_test hbs hlimit htest
    obtain ⟨a, it, hblocks, hbegin, hhead⟩ := hbs.first hne
    have hqueued : queued bs = it :: (queued bs).tail := by
      cases hq : queued bs with
      | nil =>
        rw [hq] at hhead
        simp at hhead
      | cons it' rest =>
        rw [hq] at hhead
        rw [some.inj hhead]
        rfl
    rw [hbegin]
    refine ⟨_, _, rfl, ⟨bs, hbs, .busy a ?_ hblocks ?_⟩, hbypass, hlimit, ?_⟩
    · show a :: processes w.stack = [a]
      rw [hstack]
    · rw [hadded, append_assoc, singleton_append, ← hqueued]
    · intro hc
      rw [hcleared] at hc
      simp at hc
  · rw [if_neg htest]
    refine ⟨_, _, rfl, ⟨bs, hbs, .idle hstack hadded⟩, hbypass, hlimit, ?_⟩
    intro hc
    have hloop : loop = .clear := by simpa using hc
    subst hloop
    have hcount := hbs.count
    simp only [Loop.test, decide_eq_true_eq] at htest
    have hnil : queued bs = [] := eq_nil_of_length_eq_zero (by omega)
    rw [hadded, hnil, append_nil]

/-! ### One step -/

theorem waits_clear (h : w.Waits bs) : ({ w with cleared := false } : World).Waits bs := by
  cases h with
  | idle hstack hadded => exact .idle hstack hadded
  | busy a hstack hfirst hadded => exact .busy a hstack hfirst hadded

theorem call_direct_spec (h : Inv w) (hfree : w.freed = w.added) (hcleared : w.cleared = false)
    (it : Item) : Inv ({ w with added := w.added ++ [it] }.call .direct it).1 := by
  obtain ⟨bs, hbs, hwaits⟩ := h.queue
  refine ⟨⟨bs, hbs, ?_⟩, h.bypass, h.limit, ?_⟩
  · cases hwaits with
    | idle hstack hadded =>
      have hnil : queued bs = [] := by
        rw [hfree] at hadded
        exact self_eq_append_right.mp hadded
      refine .idle hstack ?_
      show w.added ++ [it] = w.freed ++ [it] ++ queued bs
      rw [hfree, hnil, append_nil]
    | busy a hstack hfirst hadded =>
      have hnil : (queued bs).tail = [] := by
        rw [hfree] at hadded
        exact self_eq_append_right.mp hadded
      refine .busy a hstack hfirst ?_
      show w.added ++ [it] = w.freed ++ [it] ++ (queued bs).tail
      rw [hfree, hnil, append_nil]
  · intro hc
    have hc : w.cleared = true := hc
    rw [hcleared] at hc
    simp at hc

theorem Inv.freed_of_length (h : Inv w) (hlen : w.added.length = w.freed.length) :
    w.freed = w.added := h.exact.order.eq_of_length hlen.symm

/-- **An addition keeps the invariant.** -/
theorem ptrAdd_spec (h : Inv w) (hcleared : w.cleared = false) {mem : Option Addr}
    (hfresh : ∀ a ∈ mem, w.fq.block a = none)
    (hsound : if w.Refused mem then w.fq.postponed = false ∧ w.added.length = w.freed.length
      else w.fq.count + 1 < 2 ^ 31 ∧ w.fq.memTotal.toNat + it.size.toNat < 2 ^ 64 ∧
        (processes w.stack ≠ [] → w.Bounded it.size)) :
    ∃ w' r, w.ptrAdd it mem = some (w', r) ∧ Inv w' := by
  obtain ⟨bs, hbs, hwaits⟩ := h.queue
  obtain ⟨needs, hneeds, hne⟩ := hbs.needsBlock
  rw [ptrAdd]
  simp only [h.bypass, false_eq_true, if_false, hneeds, bind_some]
  by_cases hrefused : w.Refused mem
  · rw [if_pos hrefused] at hsound
    obtain ⟨rfl, hneeds'⟩ := hrefused
    obtain rfl : needs = true := some.inj (hneeds.symm.trans hneeds')
    simp only [if_true, blockAppend, bind_some, hsound.1]
    exact ⟨_, _, rfl, call_direct_spec h (h.freed_of_length hsound.2) hcleared it⟩
  · rw [if_neg hrefused] at hsound
    obtain ⟨hint, hfit, hbound⟩ := hsound
    have hmem : needs = true → ∃ a, mem = some a ∧ w.fq.block a = none := by
      intro hn
      cases mem with
      | none => exact absurd ⟨rfl, hn ▸ hneeds⟩ hrefused
      | some a => exact ⟨a, rfl, hfresh a rfl⟩
    obtain ⟨fq1, fq', bs', hroom, hc1, hcall, hbs', hq, hsame, hblocks⟩ :=
      hbs.push hne hmem hfit
    rw [hroom]
    simp only [bind_some, if_true, hc1, if_pos hint, hcall]
    have hlimit : fq'.postponed = false → 0 ≤ fq'.countMax := by
      rw [hsame.postponed, hsame.countMax]
      exact h.limit
    have hbypass : fq'.bypass = false := hsame.bypass.trans h.bypass
    cases hwaits with
    | idle hstack hadded =>
      refine enter_spec (w := { w with fq := fq', added := w.added ++ [it] }) hbs' hstack ?_
        hbypass hlimit hcleared .flush
      rw [hq, hadded, append_assoc]
    | busy a hstack hfirst hadded =>
      have hnonempty : bs ≠ [] := by
        rintro rfl
        exact absurd (hbs.seg.symm.trans hfirst) (by simp)
      have hbound := hbound (by rw [hstack]; simp)
      have htest : Loop.flush.test fq' = false := by
        rw [Loop.test]
        rcases hbound with hpost | ⟨hcount, hmemory⟩
        · rw [hsame.postponed, hpost]
          rfl
        have hcount' := hbs'.count
        have htotal' := hbs'.total
        rw [hq, length_append, length_singleton] at hcount'
        rw [hq, total_append, total_cons, ← hbs.total] at htotal'
        have hle : ¬ fq'.countMax < fq'.count := by
          rw [hsame.countMax]
          have := hbs.count
          omega
        have hle' : ¬ fq'.memMax < fq'.memTotal := by
          rw [hsame.memMax, BitVec.lt_def]
          have : total ([] : List Item) = 0 := rfl
          omega
        simp [hle, hle']
      rw [enter, htest]
      refine ⟨_, _, rfl, ⟨bs', hbs', .busy a hstack ?_ ?_⟩, hbypass, hlimit, ?_⟩
      · rw [hblocks hnonempty, hfirst]
      · obtain ⟨_, it', -, -, hhead⟩ := hbs.first hnonempty
        have hqne : queued bs ≠ [] := by
          intro hnil
          rw [hnil] at hhead
          simp at hhead
        rw [hq, tail_append_of_ne_nil hqne, hadded, append_assoc]
      · intro hc
        simp at hc

theorem limit_spec (h : Inv w) (hstack : w.stack = []) (hcleared : w.cleared = false) (fq : FreeQ)
    (hsame : SameItems w.fq fq) (hbypass : fq.bypass = false)
    (hlimit : fq.postponed = false → 0 ≤ fq.countMax) (loop : Loop) :
    ∃ w' r, ({ w with fq := fq } : World).enter loop = some (w', r) ∧ Inv w' := by
  obtain ⟨bs, hbs, hwaits⟩ := h.queue
  have hbs' := hbs.same hsame
  cases hwaits with
  | idle hprocesses hadded =>
    exact enter_spec (w := { w with fq := fq }) hbs' hprocesses hadded hbypass hlimit hcleared loop
  | busy a hprocesses hfirst hadded =>
    rw [hstack] at hprocesses
    simp [processes] at hprocesses

/-- **Every call that may be made can be made and keeps the invariant**, and so does the return of a
free function. -/
theorem step_inv (w : World) (op : Op) (h : Inv w) (hop : w.Within op) :
    ∃ w' r, w.step op = some (w', r) ∧ Inv w' := by
  obtain ⟨hlegal, hsound⟩ := hop
  have h' : Inv { w with cleared := false } := by
    obtain ⟨bs, hbs, hwaits⟩ := h.queue
    exact ⟨⟨bs, hbs, waits_clear hwaits⟩, h.bypass, h.limit, fun hc => absurd hc (by simp)⟩
  cases op with
  | ptrAdd ptr freeFunc size mem =>
    cases ptr with
    | none => exact ⟨_, _, rfl, h'⟩
    | some ptr => exact ptrAdd_spec h' rfl hlegal hsound
  | countMaxSet count =>
    obtain ⟨hstack, hcount⟩ := hlegal
    rw [step]
    by_cases hpost : w.fq.postponed = true
    · simp only [hpost]
      exact ⟨_, _, rfl, h'⟩
    rw [if_neg hpost, if_neg (Int.not_lt.mpr hcount)]
    exact limit_spec h' hstack rfl { w.fq with bypass := false, countMax := count }
      ⟨rfl, rfl, rfl, rfl, rfl⟩ rfl (fun _ => hcount) .flush
  | memMaxSet mem =>
    rw [step]
    by_cases hpost : w.fq.postponed = true
    · simp only [hpost]
      exact ⟨_, _, rfl, h'⟩
    rw [if_neg hpost]
    exact limit_spec h' hlegal rfl { w.fq with bypass := false, memMax := mem }
      ⟨rfl, rfl, rfl, rfl, rfl⟩ rfl h.limit .flush
  | clear => exact limit_spec h' hlegal rfl w.fq ⟨rfl, rfl, rfl, rfl, rfl⟩ h.bypass h.limit .clear
  | reduce count =>
    exact limit_spec h' hlegal rfl w.fq ⟨rfl, rfl, rfl, rfl, rfl⟩ h.bypass h.limit (.reduce count)
  | ret =>
    obtain ⟨bs, hbs, hwaits⟩ := h.queue
    rw [step]
    cases hstack : w.stack with
    | nil => exact absurd hstack hlegal
    | cons frame stack =>
      cases frame with
      | direct =>
        refine ⟨_, _, rfl, ⟨bs, hbs, ?_⟩, h.bypass, h.limit, fun hc => absurd hc (by simp)⟩
        cases hwaits with
        | idle hprocesses hadded =>
          rw [hstack] at hprocesses
          exact .idle hprocesses hadded
        | busy a hprocesses hfirst hadded =>
          rw [hstack] at hprocesses
          exact .busy a hprocesses hfirst hadded
      | process a loop =>
        cases hwaits with
        | idle hprocesses hadded =>
          rw [hstack] at hprocesses
          simp [processes] at hprocesses
        | busy a' hprocesses hfirst hadded =>
          rw [hstack] at hprocesses
          obtain ⟨rfl, hrest⟩ := cons.inj hprocesses
          obtain ⟨fq', bs', hend, hbs', hq, hsame⟩ := hbs.processEnd hfirst
          simp only [hend]
          refine enter_spec
            hbs' hrest ?_
            (hsame.bypass.trans h.bypass) ?_ rfl loop.next
          · rw [hq, hadded]
          · rw [hsame.postponed, hsame.countMax]
            exact h.limit

/-! ### Runs -/

/-- A new queue that is not bypassed: a postponed one, or one with limits that are not negative. -/
inductive Started : FreeQ → Prop
  | default (countMax : Int) (memMax : BitVec 64) (hcount : 0 ≤ countMax) :
      Started (newDefault countMax memMax false)
  | postponed : Started newPostponed

theorem Started.inv (h : Started fq) : Inv (new fq) := by
  cases h with
  | default countMax memMax hcount =>
    exact inv_new (holds_newDefault countMax memMax false) rfl fun _ => hcount
  | postponed => exact inv_new holds_newPostponed rfl fun hf => absurd hf (by simp [newPostponed])

/-- What the operation adds. -/
def request : Op → Option Item
  | .ptrAdd (some ptr) freeFunc size _ => some ⟨ptr, freeFunc.getD free, size⟩
  | _ => none

/-- The operation is `eina_freeq_clear`, or the return of a free function that it has called. -/
def Clears (w : World) : Op → Prop
  | .clear => True
  | .ret => ∃ a stack, w.stack = .process a .clear :: stack
  | _ => False

/-- A step adds what its operation does, and frees what it answers; `cleared` says that
`eina_freeq_clear` returns. -/
structure Records (w : World) (op : Op) (w' : World) (r : Option Item) : Prop where
  added : w'.added = w.added ++ (request op).toList
  freed : w'.freed = w.freed ++ r.toList
  cleared : w'.cleared = true ↔ w.Clears op ∧ r = none

/-- What a loop that goes on records, with what was added before. -/
theorem enter_records {loop : Loop} {r : Option Item} (hcleared : w.cleared = false)
    (h : w.enter loop = some (w', r)) : w'.added = w.added ∧ w'.freed = w.freed ++ r.toList ∧
      (w'.cleared = true ↔ loop = .clear ∧ r = none) := by
  unfold enter at h
  split at h
  · obtain ⟨begun, -, h⟩ := bind_eq_some_iff.mp h
    split at h
    · obtain ⟨⟩ := h
      exact ⟨rfl, rfl, by simpa [call] using hcleared⟩
    · obtain ⟨⟩ := h
      exact ⟨rfl, (append_nil _).symm, by simp [hcleared]⟩
    · cases h
  · obtain ⟨⟩ := h
    exact ⟨rfl, (append_nil _).symm, by simp⟩

theorem ptrAdd_records {mem : Option Addr} {r : Option Item} (hcleared : w.cleared = false)
    (h : w.ptrAdd it mem = some (w', r)) :
    w'.added = w.added ++ [it] ∧ w'.freed = w.freed ++ r.toList ∧ w'.cleared = false := by
  unfold ptrAdd at h
  dsimp only at h
  split at h
  · obtain ⟨⟩ := h
    exact ⟨rfl, rfl, hcleared⟩
  obtain ⟨needs, -, h⟩ := bind_eq_some_iff.mp h
  obtain ⟨⟨fq, ok⟩, -, h⟩ := bind_eq_some_iff.mp h
  dsimp only at h
  split at h
  · split at h
    · obtain ⟨fq', -, h⟩ := bind_eq_some_iff.mp h
      obtain ⟨hadded, hfreed, hflag⟩ := enter_records (by exact hcleared) h
      exact ⟨hadded, hfreed, by simpa using hflag⟩
    · cases h
  · split at h
    · obtain ⟨⟩ := h
      exact ⟨rfl, (append_nil _).symm, hcleared⟩
    · obtain ⟨⟩ := h
      exact ⟨rfl, rfl, hcleared⟩

theorem step_records {op : Op} {r : Option Item} (h : w.step op = some (w', r)) :
    Records w op w' r := by
  -- an operation that adds nothing and enters a loop, or returns at once
  have hloop : ∀ {op : Op} {fq : FreeQ} {stack : List Frame} {loop : Loop}, request op = none →
      (w.Clears op ↔ loop = .clear) →
      ({ w with fq := fq, stack := stack, cleared := false } : World).enter loop = some (w', r) →
        Records w op w' r := by
    intro op fq stack loop hop hclears henter
    obtain ⟨hadded, hfreed, hflag⟩ := enter_records (by rfl) henter
    exact ⟨by rw [hadded, hop]; exact (append_nil _).symm, hfreed, by rw [hflag, hclears]⟩
  have hnothing : ∀ {op : Op} {w1 : World}, some (w1, (none : Option Item)) = some (w', r) →
      request op = none → ¬w.Clears op → w1.added = w.added → w1.freed = w.freed →
        w1.cleared = false → Records w op w' r := by
    intro op w1 heq hop hclears hadded hfreed hflag
    obtain ⟨⟩ := heq
    exact ⟨by rw [hadded, hop]; exact (append_nil _).symm, hfreed.trans (append_nil _).symm,
      by simp [hflag, hclears]⟩
  cases op with
  | ptrAdd ptr freeFunc size mem =>
    cases ptr with
    | none => exact hnothing h rfl id rfl rfl rfl
    | some ptr =>
      obtain ⟨hadded, hfreed, hflag⟩ := ptrAdd_records (by rfl) h
      exact ⟨hadded, hfreed, by simp [hflag, Clears]⟩
  | countMaxSet count =>
    rw [step] at h
    dsimp only at h
    split at h
    · exact hnothing h rfl id rfl rfl rfl
    · exact hloop rfl (by simp [Clears]) h
  | memMaxSet mem =>
    rw [step] at h
    dsimp only at h
    split at h
    · exact hnothing h rfl id rfl rfl rfl
    · exact hloop rfl (by simp [Clears]) h
  | clear => exact hloop rfl (by simp [Clears]) h
  | reduce count => exact hloop rfl (by simp [Clears]) h
  | ret =>
    rw [step] at h
    dsimp only at h
    split at h
    · cases h
    · rename_i stack hstack
      exact hnothing h rfl (by simp [Clears, hstack]) rfl rfl rfl
    · rename_i a loop stack hstack
      obtain ⟨fq', -, h⟩ := bind_eq_some_iff.mp h
      refine hloop rfl ?_ h
      cases loop <;> simp [Clears, hstack, Loop.next]

/-- **What a run has added and freed**: what its operations add and its answers name. -/
theorem run_records (ops : List Op) : ∀ {w w' : World} {answers : List (Option Item)},
    Runs.run step w ops = some (w', answers) →
      w'.added = w.added ++ ops.filterMap request ∧ w'.freed = w.freed ++ answers.filterMap id := by
  induction ops with
  | nil =>
    intro w w' answers h
    obtain ⟨rfl, rfl⟩ := Prod.mk.inj (some.inj h)
    exact ⟨(append_nil _).symm, (append_nil _).symm⟩
  | cons op ops ih =>
    intro w w' answers h
    rw [Runs.run] at h
    split at h
    · cases h
    rename_i w1 r hstep
    obtain ⟨⟨w2, rs⟩, hrest, heq⟩ := map_eq_some_iff.mp h
    obtain ⟨rfl, rfl⟩ := Prod.mk.inj heq
    obtain ⟨hadded, hfreed, -⟩ := step_records hstep
    obtain ⟨hadded', hfreed'⟩ := ih hrest
    dsimp only at hadded' hfreed' ⊢
    rw [hadded', hadded, hfreed', hfreed, append_assoc, append_assoc]
    constructor
    · cases hop : request op <;> simp [hop]
    · cases r <;> rfl

/-- **In every run that keeps to the condition, every call can be made, and the queue is exact** for
the pointers that the operations add and the answers free. -/
theorem jobs_exact (fq : FreeQ) (hnew : Started fq) (ops : List Op)
    (hok : Runs.Meets Within step (new fq) ops) :
    ∃ w answers, Runs.run step (new fq) ops = some (w, answers) ∧ Exact w ∧
      w.added = ops.filterMap request ∧ w.freed = answers.filterMap id := by
  obtain ⟨w, answers, hrun, hinv⟩ := Runs.run_invariant step_inv ops (new fq) hnew.inv hok
  exact ⟨w, answers, hrun, hinv.exact, run_records ops hrun⟩

instance decidableLegal (w : World) : ∀ op, Decidable (w.Legal op)
  | .ptrAdd _ _ _ mem => inferInstanceAs (Decidable (∀ a ∈ mem, w.fq.block a = none))
  | .countMaxSet count => inferInstanceAs (Decidable (w.stack = [] ∧ 0 ≤ count))
  | .memMaxSet _ => inferInstanceAs (Decidable (w.stack = []))
  | .clear => inferInstanceAs (Decidable (w.stack = []))
  | .reduce _ => inferInstanceAs (Decidable (w.stack = []))
  | .ret => inferInstanceAs (Decidable (w.stack ≠ []))

instance decidableBounded (w : World) (size : BitVec 64) : Decidable (w.Bounded size) :=
  inferInstanceAs (Decidable (_ ∨ _))

instance decidableSound (w : World) : ∀ op, Decidable (w.Sound op)
  | .ptrAdd (some _) _ size mem => inferInstanceAs (Decidable (if w.Refused mem then
      w.fq.postponed = false ∧ w.added.length = w.freed.length
      else w.fq.count + 1 < 2 ^ 31 ∧ w.fq.memTotal.toNat + size.toNat < 2 ^ 64 ∧
        (processes w.stack ≠ [] → w.Bounded size)))
  | .ptrAdd none _ _ _ => isTrue trivial
  | .countMaxSet _ => isTrue trivial
  | .memMaxSet _ => isTrue trivial
  | .clear => isTrue trivial
  | .reduce _ => isTrue trivial
  | .ret => isTrue trivial

instance decidableWithin (w : World) (op : Op) : Decidable (w.Within op) :=
  inferInstanceAs (Decidable (_ ∧ _))

/-- Two pointers are added, the second one is over the limit; the free function of the first one is
called by a flush, and that of the second one, called by a clear, adds a third. -/
def sampleOps : List Op :=
  [.countMaxSet 2, .ptrAdd (some 10) none 8 (some 0), .countMaxSet 1,
    .ptrAdd (some 11) (some 1) 8 none,
    .ret, .countMaxSet 2, .clear, .ptrAdd (some 12) none 16 none, .ret, .ret]

theorem jobs_exact_sample : ∃ w answers,
    Runs.run step (new (newDefault 4 1024 false)) sampleOps = some (w, answers) ∧ Exact w ∧
      w.added = sampleOps.filterMap request ∧ w.freed = answers.filterMap id :=
  jobs_exact _ (.default 4 1024 (by decide)) sampleOps (by decide)

/-! ### What goes wrong -/

/-- The queue has room for one pointer, and the free function of the first adds a third one. -/
def nestedOps : List Op :=
  [.ptrAdd (some 10) none 8 (some 0), .ptrAdd (some 11) none 8 none, .ptrAdd (some 12) none 8 none]

/-- **An addition out of a free function that makes the queue process items frees the pointer that
is being freed.** -/
theorem freed_twice : ∃ w answers,
    Runs.run step (new (newDefault 1 1024 false)) nestedOps = some (w, answers) ∧
      w.added = [⟨10, 0, 8⟩, ⟨11, 0, 8⟩, ⟨12, 0, 8⟩] ∧ w.freed = [⟨10, 0, 8⟩, ⟨10, 0, 8⟩] ∧
      ¬ Exact w := by
  have hrun : (Runs.run step (new (newDefault 1 1024 false)) nestedOps).map
      (fun p => (p.1.added, p.1.freed)) = some ([⟨10, 0, 8⟩, ⟨11, 0, 8⟩, ⟨12, 0, 8⟩],
        [⟨10, 0, 8⟩, ⟨10, 0, 8⟩]) := by decide
  obtain ⟨⟨w, answers⟩, hw, heq⟩ := map_eq_some_iff.mp hrun
  obtain ⟨hadded, hfreed⟩ := Prod.mk.inj heq
  refine ⟨w, answers, hw, hadded, hfreed, ?_⟩
  intro hexact
  have horder := hexact.order
  rw [hadded, hfreed] at horder
  exact absurd horder (by decide)

end Eina.FreeQ.World
