/-
The small strings of all buckets.

`list c` are the strings of the bucket `c`, in its order; `name a` is the string at
`a`, and `held a` how often the program holds it.  A string is allocated exactly as
long as it is held, and then it is in the bucket of its first byte.

The calls here are given the memory a string lies in, of which only its own bytes are
looked at.
-/
import Efl.Eina.Stringshare.Bucket

namespace Eina.Stringshare

open Superfast Share List Option Function BitVec

structure SmallOk (s : Small) (list : Byte → List Addr) (name : Addr → List Byte)
    (held : Addr → Nat) : Prop where
  bucket : ∀ c b, s.buckets c = some b → BucketOk b (list c) name held
  gone : ∀ c, s.buckets c = none → list c = []
  text : ∀ c, ∀ a ∈ list c, s.text a = some (name a ++ [0]) ∧ Fits c (name a)
  there : ∀ a, (s.text a).isSome ↔ ∃ c, a ∈ list c
  holds : ∀ a, 0 < held a ↔ (s.text a).isSome
  few : ∀ a, held a < 2 ^ 32

variable {s : Small} {list : Byte → List Addr} {name : Addr → List Byte} {held : Addr → Nat}
  {c : Byte} {x : List Byte} {mem : Memory}

@[simp] theorem buckets_setBucket_self (s : Small) (c : Byte) (b : Option Bucket) :
    (setBucket s c b).buckets c = b := by
  simp [setBucket]

theorem buckets_setBucket_of_ne (s : Small) {c c' : Byte} (hc : c' ≠ c) (b : Option Bucket) :
    (setBucket s c b).buckets c' = s.buckets c' := by
  simp [setBucket, update_of_ne hc]

theorem smallOk_new : SmallOk ⟨fun _ => none, fun _ => none⟩ (fun _ => []) (fun _ => [])
    fun _ => 0 := by
  refine ⟨?_, fun _ _ => rfl, ?_, ?_, ?_, fun _ => Nat.two_pow_pos 32⟩
  · intro c b hb
    simp at hb
  · intro c a ha
    simp at ha
  · simp
  · simp

theorem Fits.head {c c' : Byte} {x : List Byte} (h : Fits c x) (h' : Fits c' x) : c = c' := by
  obtain ⟨-, ⟨y, rfl⟩ | ⟨y, z, rfl⟩⟩ := h
  · obtain ⟨-, ⟨y', heq⟩ | ⟨y', z', heq⟩⟩ := h'
    · exact (cons.inj heq).1
    · exact (cons.inj heq).1
  · obtain ⟨-, ⟨y', heq⟩ | ⟨y', z', heq⟩⟩ := h'
    · exact (cons.inj heq).1
    · exact (cons.inj heq).1

theorem Fits.get_zero {c : Byte} {x : List Byte} (h : Fits c x) (more : List Byte) :
    (x ++ more)[0]? = some c := by
  obtain ⟨-, ⟨y, rfl⟩ | ⟨y, z, rfl⟩⟩ := h
  · rfl
  · rfl

theorem Fits.toNat_length {c : Byte} {x : List Byte} (h : Fits c x) :
    (BitVec.ofNat 8 x.length).toNat = x.length := by
  rcases h.length with hl | hl <;> rw [hl] <;> rfl

namespace SmallOk

variable (h : SmallOk s list name held)

include h

theorem same_bucket {c c' : Byte} {a : Addr} (ha : a ∈ list c) (ha' : a ∈ list c') : c = c' :=
  (h.text c a ha).2.head (h.text c' a ha').2

/-- **A string is at one address only.** -/
theorem name_injective {a a' : Addr} (ha : 0 < held a) (ha' : 0 < held a')
    (heq : name a = name a') : a = a' := by
  obtain ⟨c, hc⟩ := (h.there a).mp ((h.holds a).mp ha)
  obtain ⟨c', hc'⟩ := (h.there a').mp ((h.holds a').mp ha')
  have hfit := (h.text c a hc).2
  have hfit' := (h.text c' a' hc').2
  rw [heq] at hfit
  obtain rfl := hfit.head hfit'
  by_contra hne
  cases hb : s.buckets c with
  | none =>
    rw [h.gone c hb] at hc
    simp at hc
  | some b =>
    have hsorted := (h.bucket c b hb).sorted
    obtain ⟨i, hi, rfl⟩ := getElem_of_mem hc
    obtain ⟨j, hj, rfl⟩ := getElem_of_mem hc'
    rcases Nat.lt_trichotomy i j with hij | rfl | hji
    · have := pairwise_iff_getElem.mp hsorted i j hi hj hij
      rw [heq] at this
      exact absurd this (lt_irrefl _)
    · exact hne rfl
    · have := pairwise_iff_getElem.mp hsorted j i hj hi hji
      rw [heq] at this
      exact absurd this (lt_irrefl _)

theorem setBucket {b : Bucket} {held' : Addr → Nat} (hb : BucketOk b (list c) name held')
    (hother : ∀ c' ≠ c, ∀ a ∈ list c', held' a = held a)
    (hheld : ∀ a, 0 < held' a ↔ (s.text a).isSome) (hfew : ∀ a, held' a < 2 ^ 32) :
    SmallOk (setBucket s c (some b)) list name held' := by
  refine ⟨?_, ?_, h.text, h.there, hheld, hfew⟩
  · intro c' b' hb'
    by_cases hc : c' = c
    · subst hc
      rw [buckets_setBucket_self] at hb'
      rw [← some.inj hb']
      exact hb
    · rw [buckets_setBucket_of_ne s hc] at hb'
      exact (h.bucket c' b' hb').congr (fun _ _ => rfl) (hother c' hc)
  · intro c' hc'
    by_cases hc : c' = c
    · subst hc
      simp at hc'
    · rw [buckets_setBucket_of_ne s hc] at hc'
      exact h.gone c' hc'

theorem bucketFor_spec (c : Byte) (mem : Memory) :
    (bucketFor s c mem = none ∧ ¬ mem.Granted ∧ s.buckets c = none) ∨
      ∃ b, bucketFor s c mem = some b ∧ BucketOk b (list c) name held := by
  rw [bucketFor]
  cases hb : s.buckets c with
  | some b => exact .inr ⟨b, rfl, h.bucket c b hb⟩
  | none =>
    simp only
    by_cases hm : mem.bucket = true
    · rw [if_pos hm]
      refine .inr ⟨_, rfl, ?_⟩
      rw [h.gone c hb]
      exact ⟨rfl, ⟨[], rfl⟩, ⟨[], rfl⟩, ⟨[], rfl⟩, ⟨le_rfl, le_rfl, le_rfl⟩,
        le_rfl, List.Pairwise.nil⟩
    · rw [if_neg hm]
      exact .inl ⟨rfl, fun hg => hm hg.1, trivial⟩

/-- **A new string goes to its place.** -/
theorem insertAt_spec (hx : Fits c x) (more : List Byte) {l r : List Addr}
    (hlist : list c = l ++ r) (hl : ∀ a ∈ l, key (name a) < key x)
    (hr : ∀ a ∈ r, key x < key (name a)) (hfresh : ∀ a ∈ mem.block, s.text a = none) :
    ∃ s', (smallBucketInsertAt s c (x ++ more) (BitVec.ofNat 8 x.length) l.length mem =
        some (s', none) ∧ ¬ mem.Granted ∧ SmallOk s' list name held ∧ s'.text = s.text) ∨
      ∃ a list', smallBucketInsertAt s c (x ++ more) (BitVec.ofNat 8 x.length) l.length mem =
        some (s', some a) ∧ s.text a = none ∧
        SmallOk s' list' (update name a x) (acquire held a) := by
  rw [smallBucketInsertAt]
  rcases h.bucketFor_spec c mem with ⟨hnone, hm, -⟩ | ⟨b, hb, hok⟩
  · rw [hnone]
    exact ⟨s, .inl ⟨rfl, hm, h, rfl⟩⟩
  rw [hb]
  simp only
  obtain ⟨hok', hroom, hrefused⟩ := hok.makeRoom mem
  cases hroomy : (makeRoom b mem).2 with
  | false =>
    exact ⟨_, .inl ⟨rfl, hrefused hroomy,
      h.setBucket hok' (fun _ _ _ _ => rfl) h.holds h.few, rfl⟩⟩
  | true =>
    cases hblock : mem.block with
    | none =>
      refine ⟨_, .inl ⟨rfl, ?_, h.setBucket hok' (fun _ _ _ _ => rfl) h.holds h.few, rfl⟩⟩
      intro hg
      have := hg.2.2.2.2
      rw [hblock] at this
      simp at this
    | some a =>
      simp only
      have hnone : s.text a = none := hfresh a (by rw [hblock]; rfl)
      have hstray : ∀ c', a ∉ list c' := by
        intro c' hc'
        rw [(h.text c' a hc').1] at hnone
        simp at hnone
      have hne : ∀ c', ∀ a' ∈ list c', a' ≠ a := fun c' a' ha' heq => hstray c' (heq ▸ ha')
      have hzero : held a = 0 := by
        by_contra hpos
        have := (h.holds a).mp (Nat.pos_of_ne_zero hpos)
        rw [hnone] at this
        simp at this
      rw [hlist] at hok'
      have hroom' := hroom hroomy
      rw [hlist] at hroom'
      have hmem : ∀ a' ∈ l ++ r, a' ≠ a := fun a' ha' => hne c a' (hlist ▸ ha')
      have hnames : ∀ a' ∈ l ++ r, update name a x a' = name a' :=
        fun a' ha' => update_of_ne (hmem a' ha') _ _
      have hholds : ∀ a' ∈ l ++ r, acquire held a a' = held a' :=
        fun a' ha' => acquire_of_ne held (hmem a' ha')
      obtain ⟨b', hb', hokb'⟩ := hok'.insertEntry hroom' hnames hholds
        (update_self a x name) (by rw [acquire_self, hzero]) hl hr
      refine ⟨_, .inr ⟨a, update list c (l ++ a :: r), by rw [hb']; rfl, hnone,
        ?_, ?_, ?_, ?_, ?_, ?_⟩⟩
      · intro c' b'' hb''
        by_cases hc : c' = c
        · subst hc
          rw [Stringshare.setBucket] at hb''
          simp only [update_self] at hb'' ⊢
          rw [← some.inj hb'']
          exact hokb'
        · rw [Stringshare.setBucket] at hb''
          simp only [update_of_ne hc] at hb'' ⊢
          exact (h.bucket c' b'' hb'').congr
            (fun a' ha' => update_of_ne (hne c' a' ha') _ _)
            (fun a' ha' => acquire_of_ne held (hne c' a' ha'))
      · intro c' hc'
        have hc : c' ≠ c := by
          rintro rfl
          simp at hc'
        rw [Stringshare.setBucket] at hc'
        simp only [update_of_ne hc] at hc' ⊢
        exact h.gone c' hc'
      · have htake : (x ++ more).take (BitVec.ofNat 8 x.length).toNat = x := by
          rw [hx.toNat_length, take_left]
        have hold : ∀ c', ∀ a' ∈ list c', update s.text a
            (some ((x ++ more).take (BitVec.ofNat 8 x.length).toNat ++ [0])) a' =
            some (update name a x a' ++ [0]) ∧
            Fits c' (update name a x a') := by
          intro c' a' ha'
          rw [update_of_ne (hne c' a' ha'), update_of_ne (hne c' a' ha')]
          exact h.text c' a' ha'
        intro c' a' ha'
        by_cases hc : c' = c
        · subst hc
          rw [update_self, mem_append, mem_cons] at ha'
          rcases ha' with ha' | rfl | ha'
          · exact hold c' a' (hlist ▸ mem_append_left r ha')
          · simp only [update_self, htake]
            exact ⟨trivial, hx⟩
          · exact hold c' a' (hlist ▸ mem_append_right l ha')
        · rw [update_of_ne hc] at ha'
          exact hold c' a' ha'
      · intro a'
        by_cases ha' : a' = a
        · subst ha'
          simp only [update_self, isSome_some, true_iff]
          exact ⟨c, by rw [update_self]; simp⟩
        · simp only [update_of_ne ha', h.there]
          refine exists_congr fun c' => ?_
          by_cases hc : c' = c
          · subst hc
            rw [hlist]
            simp [ha']
          · rw [update_of_ne hc]
      · intro a'
        by_cases ha' : a' = a
        · subst ha'
          simp [acquire_pos]
        · rw [acquire_of_ne held ha', h.holds]
          simp only [update_of_ne ha']
      · intro a'
        by_cases ha' : a' = a
        · rw [ha', acquire_self]
          omega
        · rw [acquire_of_ne held ha']
          exact h.few a'

/-- **An addition finds the string or puts it in its place**, and is refused only with memory. -/
theorem smallAdd_spec (hx : Fits c x) (more : List Byte)
    (hfresh : ∀ a ∈ mem.block, s.text a = none) :
    ∃ s', (smallAdd s (x ++ more) (BitVec.ofNat 8 x.length) mem = some (s', none) ∧
        ¬ mem.Granted ∧ (∀ a, 0 < held a → name a ≠ x) ∧ SmallOk s' list name held ∧
        s'.text = s.text) ∨
      ∃ a, smallAdd s (x ++ more) (BitVec.ofNat 8 x.length) mem = some (s', some a) ∧
        (s.text a = none ∨ name a = x) ∧ ((∃ a', 0 < held a' ∧ name a' = x) → 0 < held a) ∧
        (held a + 1 < 2 ^ 32 → ∃ list',
          SmallOk s' list' (update name a x) (acquire held a)) := by
  rw [smallAdd, hx.get_zero, bind_some]
  have hnowhere : ∀ {l r : List Addr}, list c = l ++ r → (∀ a ∈ l, key (name a) < key x) →
      (∀ a ∈ r, key x < key (name a)) → ∀ a, 0 < held a → name a ≠ x := by
    rintro l r hlist hl hr a ha rfl
    obtain ⟨c', hc'⟩ := (h.there a).mp ((h.holds a).mp ha)
    obtain rfl := (h.text c' a hc').2.head hx
    rw [hlist, mem_append] at hc'
    rcases hc' with hc' | hc'
    · exact absurd (hl a hc') (lt_irrefl _)
    · exact absurd (hr a hc') (lt_irrefl _)
  have hinsert : ∀ {l r : List Addr}, list c = l ++ r → (∀ a ∈ l, key (name a) < key x) →
      (∀ a ∈ r, key x < key (name a)) →
      ∃ s', (smallBucketInsertAt s c (x ++ more) (BitVec.ofNat 8 x.length) l.length mem =
          some (s', none) ∧ ¬ mem.Granted ∧ (∀ a, 0 < held a → name a ≠ x) ∧
          SmallOk s' list name held ∧ s'.text = s.text) ∨
        ∃ a, smallBucketInsertAt s c (x ++ more) (BitVec.ofNat 8 x.length) l.length mem =
          some (s', some a) ∧ (s.text a = none ∨ name a = x) ∧
          ((∃ a', 0 < held a' ∧ name a' = x) → 0 < held a) ∧ (held a + 1 < 2 ^ 32 → ∃ list',
            SmallOk s' list' (update name a x) (acquire held a)) := by
    intro l r hlist hl hr
    have hno := hnowhere hlist hl hr
    obtain ⟨s', ⟨heq, hm, hok, htext⟩ | ⟨a, list', heq, hnone, hok⟩⟩ :=
      h.insertAt_spec hx more hlist hl hr hfresh
    · exact ⟨s', .inl ⟨heq, hm, hno, hok, htext⟩⟩
    refine ⟨s', .inr ⟨a, heq, .inl hnone, ?_, fun _ => ⟨list', hok⟩⟩⟩
    rintro ⟨a', ha', hname⟩
    exact absurd hname (hno a' ha')
  cases hb : s.buckets c with
  | none =>
    have hnil := h.gone c hb
    exact hinsert (l := []) hnil (by simp) (by simp)
  | some b =>
    simp only
    have hok := h.bucket c b hb
    obtain ⟨⟨i, found⟩, hfind, hplace⟩ := smallBucketFind_spec hok (h.text c) hx more
    rw [hfind, bind_some]
    cases found with
    | false =>
      obtain ⟨l, r, hlist, rfl, hl, hr⟩ := hplace
      exact hinsert hlist hl hr
    | true =>
      obtain ⟨l, a, r, hlist, rfl, hname⟩ := hplace
      rw [hlist] at hok
      obtain ⟨hstr, href⟩ := hok.get
      have hac : a ∈ list c := by rw [hlist]; simp
      have hpos : 0 < held a := (h.holds a).mpr ((h.there a).mpr ⟨c, hac⟩)
      have hnd := hok.nodup
      rw [nodup_middle, nodup_cons] at hnd
      simp only [href, hstr]
      refine ⟨_, .inr ⟨a, rfl, .inr hname, fun _ => hpos, fun hlt => ⟨list, ?_⟩⟩⟩
      have hupd : update name a x = name := by
        rw [← hname]
        exact update_eq_self a name
      rw [hupd]
      refine h.setBucket ?_ ?_ ?_ ?_
      · rw [hlist]
        refine hok.setReference ?_ ?_
        · intro a' ha'
          exact acquire_of_ne held (fun heq => hnd.1 (heq ▸ ha'))
        · rw [acquire_self, ofNat_add]
          rfl
      · intro c' hc a' ha'
        refine acquire_of_ne held ?_
        rintro rfl
        exact hc (h.same_bucket ha' hac)
      · intro a'
        rw [← h.holds]
        by_cases ha' : a' = a
        · rw [ha']
          exact iff_of_true (acquire_pos held a) hpos
        · rw [acquire_of_ne held ha']
      · intro a'
        by_cases ha' : a' = a
        · rw [ha', acquire_self]
          exact hlt
        · rw [acquire_of_ne held ha']
          exact h.few a'

/-- **A release takes one hold back**, and frees the string with the last one. -/
theorem smallDel_spec {a : Addr} (ha : 0 < held a) (more : List Byte) (hmem : mem.ShrinksWhole) :
    ∃ s' list', smallDel s (name a ++ more) (BitVec.ofNat 8 (name a).length) mem = some (s', true) ∧
      SmallOk s' list' name (giveBack held a) := by
  obtain ⟨c, hac⟩ := (h.there a).mp ((h.holds a).mp ha)
  have hx := (h.text c a hac).2
  have hself : giveBack held a a = held a - 1 := giveBack_self held a
  rw [smallDel, hx.get_zero, bind_some]
  cases hb : s.buckets c with
  | none =>
    rw [h.gone c hb] at hac
    simp at hac
  | some b =>
    simp only
    have hok := h.bucket c b hb
    obtain ⟨⟨i, found⟩, hfind, hplace⟩ := smallBucketFind_spec hok (h.text c) hx more
    rw [hfind, bind_some]
    cases found with
    | false =>
      obtain ⟨l, r, hlist, -, hl, hr⟩ := hplace
      rw [hlist, mem_append] at hac
      rcases hac with hac | hac
      · exact absurd (hl a hac) (lt_irrefl _)
      · exact absurd (hr a hac) (lt_irrefl _)
    | true =>
      obtain ⟨l, a', r, hlist, rfl, hname⟩ := hplace
      have hac' : a' ∈ list c := by rw [hlist]; simp
      obtain rfl : a' = a := by
        refine h.name_injective ?_ ha hname
        exact (h.holds a').mpr ((h.there a').mpr ⟨c, hac'⟩)
      rw [hlist] at hok
      obtain ⟨hstr, href⟩ := hok.get
      have hnd := hok.nodup
      rw [nodup_middle, nodup_cons] at hnd
      have hother : ∀ c' ≠ c, ∀ b' ∈ list c', giveBack held a' b' = held b' := by
        intro c' hc b' hb'
        refine giveBack_of_ne held ?_
        rintro rfl
        exact hc (h.same_bucket hb' hac')
      have hkeep : ∀ b' ∈ l ++ r, giveBack held a' b' = held b' :=
        fun b' hb' => giveBack_of_ne held (fun heq => hnd.1 (heq ▸ hb'))
      have hfew : ∀ b', giveBack held a' b' < 2 ^ 32 := by
        intro b'
        have hlt := h.few b'
        by_cases hb' : b' = a'
        · rw [hb']
          rw [hb'] at hlt
          omega
        · rwa [giveBack_of_ne held hb']
      have hsmall : held a' % 2 ^ 32 = held a' := Nat.mod_eq_of_lt (h.few a')
      rw [smallBucketRemoveAt, href, bind_some]
      by_cases hmore : 1 < BitVec.ofNat 32 (held a')
      · rw [if_pos hmore]
        have hgt : 1 < held a' := by
          have hlt : (1 : BitVec 32).toNat < (BitVec.ofNat 32 (held a')).toNat := hmore
          rw [toNat_ofNat, hsmall] at hlt
          exact hlt
        refine ⟨_, list, rfl, h.setBucket ?_ hother ?_ hfew⟩
        · rw [hlist]
          refine hok.setReference hkeep ?_
          rw [hself]
          exact ofNat_sub_ofNat_of_le (held a') 1 (by decide) (by omega)
        · intro b'
          rw [← h.holds]
          by_cases hb' : b' = a'
          · rw [hb', hself]
            omega
          · rw [giveBack_of_ne held hb']
      · rw [if_neg hmore, hstr, bind_some]
        have hone : held a' = 1 := by
          have hle : ¬ (1 : BitVec 32).toNat < (BitVec.ofNat 32 (held a')).toNat := hmore
          rw [toNat_ofNat] at hle
          have h1 : (1 : BitVec 32).toNat = 1 := rfl
          omega
        have hbucket : ∃ ob, ((if b.count = 1 then
            some (Stringshare.setBucket { s with text := update s.text a' none } c none)
          else (removeEntry b l.length mem).map fun b =>
            Stringshare.setBucket { s with text := update s.text a' none } c
              (some b)) =
            some (Stringshare.setBucket { s with text := update s.text a' none } c ob)) ∧
            (∀ b', ob = some b' → BucketOk b' (l ++ r) name (giveBack held a')) ∧
            (ob = none → l ++ r = []) := by
          by_cases hlast : b.count = 1
          · rw [if_pos hlast]
            refine ⟨none, rfl, by simp, fun _ => ?_⟩
            have hlen := hok.count
            rw [length_append, length_cons] at hlen
            refine eq_nil_of_length_eq_zero ?_
            rw [length_append]
            omega
          · rw [if_neg hlast]
            obtain ⟨b', hb', hok'⟩ := hok.removeEntry hmem
            refine ⟨some b', by rw [hb']; rfl, ?_, by simp⟩
            intro b'' hb''
            rw [← some.inj hb'']
            exact hok'.congr (fun _ _ => rfl) hkeep
        obtain ⟨ob, heq, hokb, hnil⟩ := hbucket
        refine ⟨_, update list c (l ++ r), by rw [heq]; rfl, ?_, ?_, ?_, ?_, ?_, hfew⟩
        · intro c' b' hb'
          by_cases hc : c' = c
          · subst hc
            rw [Stringshare.setBucket] at hb'
            simp only [update_self] at hb' ⊢
            exact hokb b' hb'
          · rw [Stringshare.setBucket] at hb'
            simp only [update_of_ne hc] at hb' ⊢
            exact (h.bucket c' b' hb').congr (fun _ _ => rfl) (hother c' hc)
        · intro c' hc'
          by_cases hc : c' = c
          · subst hc
            rw [Stringshare.setBucket] at hc'
            simp only [update_self] at hc' ⊢
            exact hnil hc'
          · rw [Stringshare.setBucket] at hc'
            simp only [update_of_ne hc] at hc' ⊢
            exact h.gone c' hc'
        · intro c' b' hb'
          have hold : b' ∈ list c' ∧ b' ≠ a' := by
            by_cases hc : c' = c
            · subst hc
              rw [update_self] at hb'
              refine ⟨?_, fun heq => hnd.1 (heq ▸ hb')⟩
              rw [hlist]
              simp only [mem_append] at hb' ⊢
              tauto
            · rw [update_of_ne hc] at hb'
              exact ⟨hb', fun heq => hc (h.same_bucket (heq ▸ hb') hac')⟩
          have htext : (update s.text a' none) b' = s.text b' :=
            update_of_ne hold.2 _ _
          show (update s.text a' none) b' = _ ∧ _
          rw [htext]
          exact h.text c' b' hold.1
        · intro b'
          show ((update s.text a' none) b').isSome ↔ _
          by_cases hb' : b' = a'
          · subst hb'
            refine iff_of_false (by simp) ?_
            rintro ⟨c', hc'⟩
            by_cases hc : c' = c
            · subst hc
              rw [update_self] at hc'
              exact hnd.1 hc'
            · rw [update_of_ne hc] at hc'
              exact hc (h.same_bucket hc' hac')
          · rw [update_of_ne hb', h.there]
            refine exists_congr fun c' => ?_
            by_cases hc : c' = c
            · subst hc
              rw [hlist]
              simp [hb']
            · rw [update_of_ne hc]
        · intro b'
          show _ ↔ ((update s.text a' none) b').isSome
          by_cases hb' : b' = a'
          · subst hb'
            rw [hself, hone]
            simp
          · rw [update_of_ne hb', giveBack_of_ne held hb', h.holds]

end SmallOk

end Eina.Stringshare
