/-
Runs of `property_set`.

A property with the default FALSE reads what was set, as long as no index that is 2048 modulo
2049 is reached in its ranges: its bit is in a byte behind the buffer.  With the default TRUE
it does as long as there is no range, since a new one holds seven FALSE bits of eight.
-/
import Efl.Core.BooleanModel.Basic
import Efl.Lib.Runs

namespace Core.BooleanModel

open RedBlack Eina.Rbtree Function

variable {v : Value} {values : Values} {said : Nat → Option Bool} {i n : Nat} {flag : BitVec 8}

theorem defaultByte_ne_zero (v : Value) : (v.defaultByte != 0) = v.defaultValue := by
  unfold Value.defaultByte
  cases v.defaultValue <;> rfl

theorem storageRangeCmp_eq (v : Value) :
    storageRangeCmp v = byKey fun n => ((v.ranges n).offset : Int) := by
  funext left right
  simp [storageRangeCmp, byKey]

/-- The ranges lie 2049 indices apart, and what was said last of an index is in its range. -/
structure Holds (v : Value) (said : Nat → Option Bool) : Prop where
  offset : ∀ n < v.allocated, (v.ranges n).offset = 2049 * n
  length : ∀ n < v.allocated, (v.ranges n).length = 2048
  mem : ∀ n, n ∈ v.buffersRoot.toList ↔ n < v.allocated
  last : v.last = if v.allocated = 0 then none else some (v.allocated - 1)
  keyed : Keyed (fun n => ((v.ranges n).offset : Int)) v.buffersRoot
  small : 2049 * v.allocated ≤ 2 ^ 32
  stored : ∀ n < v.allocated, ∀ o < 2048,
    flagAt (v.ranges n).buffer o = (said (2049 * n + o)).getD v.defaultValue
  unset : ∀ i, v.allocated ≤ i / 2049 → (said i).getD v.defaultValue = v.defaultValue

theorem Holds.key (h : Holds v said) (hn : n < v.allocated) (i : Nat) :
    storageRangeKey (v.ranges n) i =
      if 2049 * n > i then 1 else if 2049 * n + 2048 < i then -1 else 0 := by
  have hsmall := h.small
  rw [storageRangeKey, h.offset n hn, h.length n hn, Nat.mod_eq_of_lt (by omega)]

/-- **A lookup finds the range of an index.** -/
theorem Holds.find (h : Holds v said) (i : Nat) :
    v.find i = if i / 2049 < v.allocated then some (i / 2049) else none := by
  split
  · rename_i hi
    refine h.keyed.lookup_eq_some ((h.mem _).mpr hi) ?_ ?_ ?_
    · rw [h.key hi]
      grind
    · intro n hn
      have hn := (h.mem n).mp hn
      rw [h.key hn, h.offset n hn, h.offset _ hi]
      grind
    · intro n hn
      rw [h.key ((h.mem n).mp hn)]
      grind
  · refine Option.eq_none_iff_forall_ne_some.mpr fun n hn => ?_
    obtain ⟨hmem, h0⟩ := inlineLookup_some hn
    have hn := (h.mem n).mp hmem
    rw [h.key hn] at h0
    grind

theorem Holds.place (h : Holds v said) (hi : i / 2049 < v.allocated) :
    v.place (i / 2049) i = i % 2049 := by
  rw [Value.place, h.offset _ hi]
  omega

/-! ### New ranges -/

theorem Holds.append_ranges (h : Holds v said) (hsmall : 2049 * (v.allocated + 1) ≤ 2 ^ 32) :
    (storageAppend v).ranges = update v.ranges v.allocated
      ⟨2049 * v.allocated, 2048, fun _ => v.defaultByte⟩ := by
  unfold storageAppend
  rw [h.last]
  by_cases h0 : v.allocated = 0
  · simp [h0]
  have hn : v.allocated - 1 < v.allocated := by omega
  have hoffset : (2049 * (v.allocated - 1) + 2048 + 1) % 2 ^ 32 = 2049 * v.allocated := by omega
  simp only [if_neg h0, h.offset _ hn, h.length _ hn, hoffset]

theorem Holds.append (h : Holds v said) (hsmall : 2049 * (v.allocated + 1) ≤ 2 ^ 32)
    (hdefault : v.defaultValue = false) : Holds (storageAppend v) said := by
  have hranges := h.append_ranges hsmall
  have hold : ∀ n < v.allocated, (storageAppend v).ranges n = v.ranges n := by
    intro n hn
    rw [hranges, update_of_ne (by omega)]
  have hnew : (storageAppend v).ranges v.allocated =
      ⟨2049 * v.allocated, 2048, fun _ => 0⟩ := by
    rw [hranges, update_self, Value.defaultByte, hdefault]
    rfl
  have hroot : (storageAppend v).buffersRoot = inlineInsert
      (byKey fun n => (((storageAppend v).ranges n).offset : Int)) v.buffersRoot v.allocated := by
    rw [← storageRangeCmp_eq]
    rfl
  have hcases : ∀ n < (storageAppend v).allocated, n < v.allocated ∨ n = v.allocated := by
    intro n hn
    exact Nat.lt_succ_iff_lt_or_eq.mp hn
  constructor
  · intro n hn
    rcases hcases n hn with hn | rfl
    · rw [hold n hn, h.offset n hn]
    · rw [hnew]
  · intro n hn
    rcases hcases n hn with hn | rfl
    · rw [hold n hn, h.length n hn]
    · rw [hnew]
  · intro n
    rw [hroot, mem_inlineInsert, h.mem]
    change _ ↔ n < v.allocated + 1
    omega
  · rfl
  · rw [hroot]
    refine Keyed.insert (h.keyed.congr ?_) ?_
    · intro n hn
      rw [hold n ((h.mem n).mp hn)]
    · intro n hn
      have hn := (h.mem n).mp hn
      rw [hold n hn, hnew, h.offset n hn]
      simp
      omega
  · exact hsmall
  · intro n hn o ho
    rcases hcases n hn with hn | rfl
    · rw [hold n hn]
      exact h.stored n hn o ho
    · rw [hnew, flagAt_const]
      exact ((h.unset _ (by omega)).trans hdefault).symm
  · intro i hi
    exact h.unset i (le_of_lt hi)

theorem Holds.grow (hi : 2049 * (i / 2049 + 1) ≤ 2 ^ 32) (hdefault : v.defaultValue = false)
    (fuel : Nat) (hfuel : i / 2049 < v.allocated + fuel) (hlow : v.allocated ≤ i / 2049)
    (h : Holds v said) : Holds (storageGrow i fuel v) said ∧
      (storageGrow i fuel v).allocated = i / 2049 + 1 ∧
        (storageGrow i fuel v).defaultValue = false := by
  induction fuel generalizing v with
  | zero => omega
  | succ fuel ih =>
    have hsmall : 2049 * (v.allocated + 1) ≤ 2 ^ 32 := by omega
    have happend := h.append hsmall hdefault
    have hallocated : (storageAppend v).allocated = v.allocated + 1 := rfl
    unfold storageGrow
    simp only [h.append_ranges hsmall, update_self]
    split
    · refine ih hdefault ?_ ?_ happend
      · omega
      · omega
    · exact ⟨happend, by omega, hdefault⟩

/-! ### One call -/

/-- The byte of the index is in its buffer, or there is no range for it. -/
def Inside (v : Value) (i : Nat) : Prop := i / 2049 < v.allocated → i % 2049 ≠ 2048

/-- A value that converts is set inside; and new ranges are for the default FALSE, inside, and
their offsets fit.  A range is new for every byte but that of the default. -/
def Careful (values : Values) (op : Op) : Prop :=
  ∀ v ∈ values op.property, (op.value.isSome → Inside v op.index) ∧
    (v.allocated ≤ op.index / 2049 → op.flag ≠ v.defaultByte →
      v.defaultValue = false ∧ op.index % 2049 ≠ 2048 ∧ op.index < 2 ^ 32 - 1024)

theorem Holds.lookup (h : Holds v said) (i : Nat) (flag : BitVec 8)
    (hnew : v.allocated ≤ i / 2049 → flag ≠ v.defaultByte →
      v.defaultValue = false ∧ i < 2 ^ 32 - 1024) :
    Holds (storageLookup v i true flag).2 said ∧
      (storageLookup v i true flag).2.defaultValue = v.defaultValue ∧
      ((storageLookup v i true flag).1 = none ∧ flag = v.defaultByte ∧
          (storageLookup v i true flag).2.allocated ≤ i / 2049 ∨
        (storageLookup v i true flag).1 = some (i / 2049) ∧
          i / 2049 < (storageLookup v i true flag).2.allocated ∧
          (v.allocated ≤ i / 2049 → flag ≠ v.defaultByte)) := by
  unfold storageLookup
  rw [h.find]
  by_cases hi : i / 2049 < v.allocated
  · rw [if_pos hi]
    exact ⟨h, rfl, .inr ⟨rfl, hi, fun hlow => absurd hi (not_lt.mpr hlow)⟩⟩
  rw [if_neg hi]
  by_cases hflag : flag = v.defaultByte
  · have heq : (v.defaultByte == flag) = true := by simp [hflag]
    simp only [heq]
    exact ⟨h, rfl, .inl ⟨rfl, hflag, Nat.le_of_not_lt hi⟩⟩
  obtain ⟨hdefault, hi32⟩ := hnew (by omega) hflag
  obtain ⟨hg, hallocated, hd⟩ := Holds.grow (i := i) (by omega) hdefault (2 ^ 32) (by omega)
    (by omega) h
  have hne : (v.defaultByte == flag) = false := by simpa using Ne.symm hflag
  simp only [hne, Bool.not_true, if_false, Bool.false_eq_true]
  refine ⟨hg, hd.trans hdefault.symm, .inr ⟨?_, by omega, fun _ => hflag⟩⟩
  rw [hg.last, hallocated]
  rfl

theorem Holds.put (h : Holds v said) (hi : i / 2049 < v.allocated) (hlow : i % 2049 ≠ 2048)
    (flag : Bool) : Holds (v.put (i / 2049) (i % 2049) flag) (update said i (some flag)) := by
  have hrange : ∀ n, ((v.put (i / 2049) (i % 2049) flag).ranges n).offset = (v.ranges n).offset ∧
      ((v.put (i / 2049) (i % 2049) flag).ranges n).length = (v.ranges n).length ∧
      ((v.put (i / 2049) (i % 2049) flag).ranges n).buffer = if n = i / 2049
        then putFlag (v.ranges n).buffer (i % 2049) flag else (v.ranges n).buffer := by
    intro n
    unfold Value.put
    by_cases hn : n = i / 2049
    · subst hn
      simp
    · simp [hn]
  refine ⟨fun n hn => (hrange n).1.trans (h.offset n hn), fun n hn =>
    (hrange n).2.1.trans (h.length n hn), h.mem, h.last,
    h.keyed.congr fun n _ => by rw [(hrange n).1], h.small, ?_, ?_⟩
  · intro n hn o ho
    change flagAt _ o = (update said i (some flag) (2049 * n + o)).getD v.defaultValue
    rw [(hrange n).2.2]
    by_cases heq : 2049 * n + o = i
    · subst heq
      have hn : (2049 * n + o) / 2049 = n := by omega
      have ho : (2049 * n + o) % 2049 = o := by omega
      rw [hn, ho, if_pos rfl, flagAt_putFlag, if_pos rfl, update_self]
      rfl
    · rw [update_of_ne heq, ← h.stored n hn o ho]
      split
      · rw [flagAt_putFlag, if_neg (by omega)]
      · rfl
  · intro j hj
    have hne : j ≠ i := by
      rintro rfl
      exact absurd hi (not_lt.mpr hj)
    rw [update_of_ne hne]
    exact h.unset j hj

theorem Holds.keep (h : Holds v said) (hi : v.allocated ≤ i / 2049) :
    Holds v (update said i (some v.defaultValue)) := by
  refine { h with stored := ?_, unset := ?_ }
  · intro n hn o ho
    rw [update_of_ne (by omega)]
    exact h.stored n hn o ho
  · intro j hj
    by_cases hji : j = i
    · rw [hji, update_self]
      rfl
    · rw [update_of_ne hji]
      exact h.unset j hj

/-! ### Runs -/

/-- The boolean that a call sets, if its value converts. -/
def Op.sets (op : Op) : Option Bool := op.value.map (· != 0)

/-- What the calls said last of an index. -/
def lastSet (ops : List Op) (property : String) (i : Nat) : Option Bool :=
  (ops.filterMap fun op =>
    if op.property = property ∧ op.index = i then op.sets else none).getLast?

variable (ops : List Op) {declared : String → Option Bool} {op : Op}

theorem lastSet_snoc (op : Op) (property : String) (i : Nat) :
    lastSet (ops ++ [op]) property i =
      (if op.property = property ∧ op.index = i then op.sets else none).or
        (lastSet ops property i) := by
  unfold lastSet
  cases h : (if op.property = property ∧ op.index = i then op.sets else none) <;> simp [h]

theorem lastSet_value (op : Op) : lastSet (ops ++ [op]) op.property =
    match op.value with
    | none => lastSet ops op.property
    | some b => update (lastSet ops op.property) op.index (some (b != 0)) := by
  funext i
  rw [lastSet_snoc, Op.sets]
  cases hvalue : op.value with
  | none => simp
  | some b =>
    by_cases hi : i = op.index
    · simp [hi]
    · simp [update_of_ne hi, Ne.symm hi]

theorem lastSet_of_ne {property : String} (hp : property ≠ op.property) :
    lastSet (ops ++ [op]) property = lastSet ops property := by
  funext i
  rw [lastSet_snoc, if_neg fun h => hp h.1.symm]
  rfl

/-- The properties hold what the calls said last. -/
def Agree (declared : String → Option Bool) (ops : List Op) (values : Values) : Prop :=
  ∀ property, (values property).map Value.defaultValue = declared property ∧
    ∀ v ∈ values property, Holds v (lastSet ops property)

theorem agree_new (declared : String → Option Bool) : Agree declared [] (new declared) := by
  intro property
  unfold new
  cases declared property with
  | none => simp
  | some d =>
    refine ⟨rfl, ?_⟩
    rintro v ⟨⟩
    exact ⟨by simp, by simp, by simp, rfl, Keyed.nil _, by simp, by simp, fun _ _ => rfl⟩

theorem Agree.snoc {ops : List Op}
    (h : Agree declared ops values) {v' : Value} (hv : values op.property = some v)
    (hdefault : v'.defaultValue = v.defaultValue)
    (hholds : Holds v' (lastSet (ops ++ [op]) op.property)) :
    Agree declared (ops ++ [op]) (update values op.property (some v')) := by
  intro property
  by_cases hp : property = op.property
  · subst hp
    rw [update_self, ← (h op.property).1, hv]
    refine ⟨congrArg some hdefault, ?_⟩
    rintro _ ⟨⟩
    exact hholds
  · rw [update_of_ne hp]
    refine ⟨(h property).1, fun w hw => ?_⟩
    rw [lastSet_of_ne ops hp]
    exact (h property).2 w hw

/-- **A careful call is inside of the buffer, and the properties hold what was said last.** -/
theorem agree_set {ops : List Op}
    (h : Agree declared ops values) (hop : Careful values op) :
    Agree declared (ops ++ [op]) (propertySet values op).1 ∧
      ∀ byte ∈ (propertySet values op).2.2, byte < 256 := by
  unfold propertySet
  cases hv : values op.property with
  | none =>
    refine ⟨fun property => ⟨(h property).1, fun w hw => ?_⟩, by simp⟩
    rw [lastSet_of_ne ops fun hp => by simp [hp, hv] at hw]
    exact (h property).2 w hw
  | some v =>
    have hholds := (h op.property).2 v hv
    obtain ⟨hinside, hnew⟩ := hop v hv
    have hlookup := hholds.lookup op.index op.flag fun hlow hflag =>
      ⟨(hnew hlow hflag).1, (hnew hlow hflag).2.2⟩
    have hsaid := lastSet_value ops op
    obtain ⟨hheld, hdefault, hfound⟩ := hlookup
    dsimp only
    cases hvalue : op.value with
    | none =>
      rw [hvalue] at hsaid
      exact ⟨h.snoc hv hdefault (hsaid ▸ hheld), by simp⟩
    | some b =>
      have hflag : op.flag = b := by rw [Op.flag, hvalue]; rfl
      rw [hvalue] at hsaid
      rcases hfound with ⟨hnone, hb, hlow⟩ | ⟨hsome, hi, hgrown⟩
      · rw [hnone]
        refine ⟨h.snoc hv hdefault ?_, by simp⟩
        have hstored : (storageLookup v op.index true op.flag).2.defaultValue = (b != 0) := by
          rw [hdefault, ← hflag, hb, defaultByte_ne_zero]
        have hkeep := hheld.keep hlow
        rw [hstored] at hkeep
        exact hsaid ▸ hkeep
      · have hlow : op.index % 2049 ≠ 2048 := by
          by_cases hold : op.index / 2049 < v.allocated
          · exact hinside (by simp [hvalue]) hold
          · have hlow := Nat.le_of_not_lt hold
            exact (hnew hlow (hgrown hlow)).2.1
        rw [hsome]
        dsimp only
        rw [hheld.place hi]
        refine ⟨h.snoc hv hdefault ?_, ?_⟩
        · rw [hsaid]
          exact hheld.put hi hlow (b != 0)
        · rintro byte ⟨⟩
          omega

/-- **After careful calls every index reads what was said last of it, or the default, from
inside of its buffer; and the next careful call writes inside.** -/
theorem run_reads (declared : String → Option Bool) (ops : List Op)
    (h : Runs.Admits Careful (fun values op => (propertySet values op).1) (new declared) ops) :
    (∀ op, Careful (run declared ops) op →
      ∀ byte ∈ (propertySet (run declared ops) op).2.2, byte < 256) ∧
    ∀ property d i, declared property = some d →
      (∀ v ∈ run declared ops property, Inside v i) →
      ∃ byte, propertyGet (run declared ops) property i =
        some ((lastSet ops property i).getD d, byte) ∧ ∀ b ∈ byte, b < 256 := by
  have hagree : Agree declared ops (run declared ops) := by
    induction ops using List.reverseRecOn with
    | nil => exact agree_new declared
    | append_singleton ops op ih =>
      obtain ⟨hops, hop, -⟩ := Runs.admits_append.mp h
      rw [run, List.foldl_append]
      exact (agree_set (ih hops) hop).1
  refine ⟨fun op hop => (agree_set hagree hop).2, ?_⟩
  intro property d i hd hinside
  obtain ⟨hdefault, hholds⟩ := hagree property
  unfold propertyGet
  cases hv : run declared ops property with
  | none => simp [hv, hd] at hdefault
  | some v =>
    have hholds := hholds v hv
    rw [hv, hd] at hdefault
    obtain rfl : v.defaultValue = d := by simpa using hdefault
    have hlookup : (storageLookup v i false 0).1 = v.find i := by
      unfold storageLookup
      cases v.find i <;> rfl
    simp only [Option.map_some, hlookup, hholds.find i]
    by_cases hi : i / 2049 < v.allocated
    · have hlow : i % 2049 < 2048 := by
        have := hinside v hv hi
        omega
      have hindex : 2049 * (i / 2049) + i % 2049 = i := Nat.div_add_mod i 2049
      rw [if_pos hi]
      simp only [hholds.place hi, hholds.stored _ hi _ hlow, hindex]
      refine ⟨_, rfl, ?_⟩
      rintro b ⟨⟩
      omega
    · rw [if_neg hi]
      refine ⟨none, ?_, by simp⟩
      rw [hholds.unset i (by omega)]

/-- Two properties of some children are set and cleared, one with a value that is not 0 or 1. -/
def selections : List Op :=
  [⟨"selected", 5, some 2⟩, ⟨"visible", 5, some 1⟩, ⟨"selected", 3000, some 1⟩,
    ⟨"selected", 5, some 0⟩, ⟨"selected", 6, some 255⟩, ⟨"selected", 3000, none⟩]

/-- `selected` has the default FALSE, `visible` the default TRUE. -/
def twoProperties (property : String) : Option Bool :=
  if property = "selected" then some false else if property = "visible" then some true else none

theorem selections_careful : Runs.Admits Careful (fun values op => (propertySet values op).1)
    (new twoProperties) selections := by
  refine ⟨?_, ?_, ?_, ?_, ?_, ?_, trivial⟩
  all_goals
    rintro v ⟨⟩
    exact ⟨fun _ _ => by decide, by decide⟩

theorem run_reads_selections :
    (∃ byte, propertyGet (run twoProperties selections) "selected" 5 = some (false, byte)) ∧
    (∃ byte, propertyGet (run twoProperties selections) "selected" 6 = some (true, byte)) ∧
    (∃ byte, propertyGet (run twoProperties selections) "selected" 3000 = some (true, byte)) ∧
    ∃ byte, propertyGet (run twoProperties selections) "visible" 9 = some (true, byte) := by
  have hreads := (run_reads twoProperties selections selections_careful).2
  obtain ⟨b5, h5, -⟩ := hreads "selected" false 5 rfl fun v _ _ => by decide
  obtain ⟨b6, h6, -⟩ := hreads "selected" false 6 rfl fun v _ _ => by decide
  obtain ⟨b3000, h3000, -⟩ := hreads "selected" false 3000 rfl fun v _ _ => by decide
  obtain ⟨b9, h9, -⟩ := hreads "visible" true 9 rfl fun v _ _ => by decide
  exact ⟨⟨b5, h5⟩, ⟨b6, h6⟩, ⟨b3000, h3000⟩, b9, h9⟩

/-- Cleared for one child, a property with the default TRUE is FALSE for the next one too. -/
theorem run_default_lost : ¬∀ (declared : String → Option Bool) (ops : List Op) (property : String)
    (d : Bool) (i : Nat), declared property = some d →
      ((propertyGet (run declared ops) property i).map Prod.fst) =
        some ((lastSet ops property i).getD d) := by
  intro hall
  have hget := hall (fun _ => some true) [⟨"visible", 0, some 0⟩] "visible" true 1 rfl
  revert hget
  decide

end Core.BooleanModel
