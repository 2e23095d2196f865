/-
Runs of a machine whose steps may be undefined, against runs of a machine whose steps always are.

`Admits ok next a ops` is the contract of a whole run: before each operation the abstract state
allows it.  A relation that one step keeps, whenever the contract holds for that step, is kept by
every run the contract holds for, and no step of such a run is undefined.
-/
import Mathlib.Data.List.Basic

namespace Runs

open List Option

variable {σ τ ι : Type}

/-- The abstract run from `a` allows every operation of `ops` when its turn comes. -/
def Admits (ok : τ → ι → Prop) (next : τ → ι → τ) : τ → List ι → Prop
  | _, [] => True
  | a, op :: ops => ok a op ∧ Admits ok next (next a op) ops

instance decidableAdmits {ok : τ → ι → Prop} {next : τ → ι → τ} [∀ a op, Decidable (ok a op)] :
    ∀ (a : τ) (ops : List ι), Decidable (Admits ok next a ops)
  | _, [] => inferInstanceAs (Decidable True)
  | a, op :: ops =>
    have : Decidable (Admits ok next (next a op) ops) := decidableAdmits (next a op) ops
    inferInstanceAs (Decidable (ok a op ∧ Admits ok next (next a op) ops))

variable {next : τ → ι → τ} {a : τ} {xs ys : List ι}

theorem admits_append {ok : τ → ι → Prop} :
    Admits ok next a (xs ++ ys) ↔ Admits ok next a xs ∧ Admits ok next (xs.foldl next a) ys := by
  induction xs generalizing a with
  | nil => simp [Admits]
  | cons op xs ih =>
    simp only [cons_append, Admits, ih]
    tauto

variable {R : σ → τ → Prop}

/-- **The run rule**: a relation that allowed steps keep is kept by allowed runs. -/
theorem simulates {step : σ → ι → Option σ} {ok : τ → ι → Prop}
    (hstep : ∀ s a op, R s a → ok a op → ∃ s', step s op = some s' ∧ R s' (next a op)) :
    ∀ (ops : List ι) (s : σ) (a : τ), R s a → Admits ok next a ops →
      ∃ s', ops.foldlM step s = some s' ∧ R s' (ops.foldl next a) := by
  intro ops
  induction ops with
  | nil =>
    intro s a hR _
    exact ⟨s, rfl, hR⟩
  | cons op ops ih =>
    intro s a hR hops
    obtain ⟨hok, hrest⟩ := hops
    obtain ⟨s1, hs1, hR1⟩ := hstep s a op hR hok
    obtain ⟨s2, hs2, hR2⟩ := ih s1 (next a op) hR1 hrest
    refine ⟨s2, ?_, hR2⟩
    rw [foldlM_cons, hs1]
    exact hs2

/-! ### Steps that answer

An operation may also return a value, and its contract may speak about the concrete
state.  The abstract machine may leave open which of several next states it takes.
-/

variable {ρ : Type}

/-- A run and what its operations returned. -/
def run (step : σ → ι → Option (σ × ρ)) : σ → List ι → Option (σ × List ρ)
  | s, [] => some (s, [])
  | s, op :: ops =>
    match step s op with
    | none => none
    | some (s', r) => (run step s' ops).map fun p => (p.1, r :: p.2)

theorem run_append (step : σ → ι → Option (σ × ρ)) (xs ys : List ι) : ∀ s : σ,
    run step s (xs ++ ys) =
      (run step s xs).bind fun p => (run step p.1 ys).map fun q => (q.1, p.2 ++ q.2) := by
  induction xs with
  | nil =>
    simp [run]
  | cons op xs ih =>
    intro s
    rw [cons_append, run, run]
    cases step s op with
    | none => rfl
    | some p =>
      simp only [ih, bind_map]
      simp [Function.comp_def]

/-- Every operation of `ops` meets its condition in the state it is made in. -/
def Meets (ok : σ → ι → Prop) (step : σ → ι → Option (σ × ρ)) : σ → List ι → Prop
  | _, [] => True
  | s, op :: ops => ok s op ∧ ∀ p, step s op = some p → Meets ok step p.1 ops

instance decidableMeets {ok : σ → ι → Prop} {step : σ → ι → Option (σ × ρ)}
    [∀ s op, Decidable (ok s op)] : ∀ (s : σ) (ops : List ι), Decidable (Meets ok step s ops)
  | _, [] => inferInstanceAs (Decidable True)
  | s, op :: ops =>
    have : Decidable (∀ p, step s op = some p → Meets ok step p.1 ops) :=
      match step s op with
      | none => isTrue fun _ h => (nomatch h)
      | some p =>
        have : Decidable (Meets ok step p.1 ops) := decidableMeets p.1 ops
        decidable_of_iff (Meets ok step p.1 ops)
          ⟨fun h _ hp => some.inj hp ▸ h, fun h => h p rfl⟩
    inferInstanceAs (Decidable (ok s op ∧ _))

variable {ok : σ → ι → Prop} {step : σ → ι → Option (σ × ρ)} {Q : ρ → Prop} {ops : List ι}

theorem meets_of_forall {ok : ι → Prop} (h : ∀ op ∈ ops, ok op) :
    ∀ s, Meets (fun _ op => ok op) step s ops := by
  induction ops with
  | nil =>
    intro s
    trivial
  | cons op ops ih =>
    intro s
    refine ⟨h op mem_cons_self, ?_⟩
    intro p _
    exact ih (fun op' hop' => h op' (mem_cons_of_mem _ hop')) p.1

/-- A condition that holds as long as the states have not grown is met in a run that is short. -/
theorem meets_of_grows {ok' : σ → ι → Prop} (grown : σ → Nat → Prop) {limit : Nat}
    (hstep : ∀ s op k p, grown s k → step s op = some p → grown p.1 (k + 1))
    (hok : ∀ s op k, grown s k → k + 1 < limit → ok s op → ok' s op) {ops : List ι} :
    ∀ {s : σ} {k : Nat}, grown s k → k + ops.length < limit → Meets ok step s ops →
      Meets ok' step s ops := by
  induction ops with
  | nil =>
    intro s k _ _ _
    trivial
  | cons op ops ih =>
    intro s k hs hlen hops
    rw [length_cons] at hlen
    refine ⟨hok s op k hs (by omega) hops.1, ?_⟩
    intro p hp
    exact ih (hstep s op k p hs hp) (by omega) (hops.2 p hp)

/-- The abstract machine can take `ops` from `a` to `b` and return `rs`. -/
def Traces (Next : τ → ι → τ → ρ → Prop) : τ → List ι → τ → List ρ → Prop
  | a, [], b, rs => b = a ∧ rs = []
  | a, op :: ops, b, rs => ∃ c r rs', Next a op c r ∧ rs = r :: rs' ∧ Traces Next c ops b rs'

/-- **The run rule for machines that answer.** -/
theorem run_simulates {Next : τ → ι → τ → ρ → Prop}
    (hstep : ∀ s a op, R s a → ok s op → ∃ s' r a', step s op = some (s', r) ∧ Next a op a' r ∧
      R s' a') :
    ∀ (ops : List ι) (s : σ) (a : τ), R s a → Meets ok step s ops →
      ∃ s' rs a', run step s ops = some (s', rs) ∧ Traces Next a ops a' rs ∧ R s' a' := by
  intro ops
  induction ops with
  | nil =>
    intro s a hR _
    exact ⟨s, [], a, rfl, ⟨rfl, rfl⟩, hR⟩
  | cons op ops ih =>
    intro s a hR hops
    obtain ⟨hok, hrest⟩ := hops
    obtain ⟨s1, r, a1, hs1, hnext, hR1⟩ := hstep s a op hR hok
    obtain ⟨s2, rs, a2, hs2, htrace, hR2⟩ := ih s1 a1 hR1 (hrest _ hs1)
    refine ⟨s2, r :: rs, a2, ?_, ⟨a1, r, rs, hnext, rfl, htrace⟩, hR2⟩
    rw [run, hs1]
    simp only [hs2, map_some]

/-- **The run rule for an invariant**: where it makes every step that meets its condition possible,
every such run can be made. -/
theorem run_invariant {I : σ → Prop}
    (hstep : ∀ s op, I s → ok s op → ∃ s' r, step s op = some (s', r) ∧ I s') :
    ∀ (ops : List ι) (s : σ), I s → Meets ok step s ops →
      ∃ s' rs, run step s ops = some (s', rs) ∧ I s' := by
  intro ops
  induction ops with
  | nil =>
    intro s hs _
    exact ⟨s, [], rfl, hs⟩
  | cons op ops ih =>
    intro s hs hops
    obtain ⟨hop, hrest⟩ := hops
    obtain ⟨s1, r, hs1, hI1⟩ := hstep s op hs hop
    obtain ⟨s2, rs, hs2, hI2⟩ := ih s1 hI1 (hrest _ hs1)
    refine ⟨s2, r :: rs, ?_, hI2⟩
    rw [run, hs1]
    simp only [hs2, map_some]

theorem run_relates {ok : ι → Prop}
    (hstep : ∀ s a op s' r, R s a → ok op → step s op = some (s', r) → R s' (next a op) ∧ Q r) :
    ∀ (ops : List ι) (s : σ) (a : τ) (s' : σ) (rs : List ρ), R s a → (∀ op ∈ ops, ok op) →
      run step s ops = some (s', rs) → R s' (ops.foldl next a) ∧ ∀ r ∈ rs, Q r := by
  intro ops
  induction ops with
  | nil =>
    intro s a s' rs hR _ hrun
    obtain ⟨rfl, rfl⟩ := Prod.mk.inj (some.inj hrun)
    exact ⟨hR, fun r hr => absurd hr not_mem_nil⟩
  | cons op ops ih =>
    intro s a s' rs hR hok hrun
    rw [run] at hrun
    cases hs : step s op with
    | none =>
      rw [hs] at hrun
      simp at hrun
    | some p =>
      obtain ⟨s1, r⟩ := p
      rw [hs] at hrun
      obtain ⟨⟨s2, rs2⟩, hrest, heq⟩ := map_eq_some_iff.mp hrun
      obtain ⟨rfl, rfl⟩ := Prod.mk.inj heq
      obtain ⟨hR1, hr⟩ := hstep s a op s1 r hR (hok op mem_cons_self) hs
      obtain ⟨hR2, hrs⟩ := ih s1 (next a op) s2 rs2 hR1
        (fun op' h => hok op' (mem_cons_of_mem _ h)) hrest
      refine ⟨hR2, ?_⟩
      intro r' hr'
      rcases mem_cons.mp hr' with rfl | h
      · exact hr
      · exact hrs r' h

/-! ### Runs of a relation -/

variable {Next : τ → ι → τ → ρ → Prop}

theorem traces_append {c : τ} {rs : List ρ} :
    Traces Next a (xs ++ ys) c rs ↔
      ∃ b rs1 rs2, Traces Next a xs b rs1 ∧ Traces Next b ys c rs2 ∧ rs = rs1 ++ rs2 := by
  induction xs generalizing a rs with
  | nil =>
    constructor
    · intro h
      exact ⟨a, [], rs, ⟨rfl, rfl⟩, h, rfl⟩
    · rintro ⟨b, rs1, rs2, ⟨rfl, rfl⟩, h, rfl⟩
      exact h
  | cons op xs ih =>
    constructor
    · rintro ⟨d, r, rs', hnext, rfl, h⟩
      obtain ⟨b, rs1, rs2, h1, h2, rfl⟩ := ih.mp h
      exact ⟨b, r :: rs1, rs2, ⟨d, r, rs1, hnext, rfl, h1⟩, h2, rfl⟩
    · rintro ⟨b, rs1, rs2, ⟨d, r, rs', hnext, rfl, h1⟩, h2, rfl⟩
      exact ⟨d, r, rs' ++ rs2, hnext, rfl, ih.mpr ⟨b, rs', rs2, h1, h2, rfl⟩⟩

theorem exists_traces_cons {op : ι} {ops : List ι} {b : τ} {r : ρ} {rs : List ρ}
    (h : Next a op b r) (hrest : ∃ c, Traces Next b ops c rs) :
    ∃ c, Traces Next a (op :: ops) c (r :: rs) := by
  obtain ⟨c, hrest⟩ := hrest
  exact ⟨c, b, r, rs, h, rfl, hrest⟩

theorem run_of_traces {step : τ → ι → Option (τ × ρ)}
    (hstep : ∀ a op b r, Next a op b r → step a op = some (b, r)) :
    ∀ (ops : List ι) (s s' : τ) (rs : List ρ), Traces Next s ops s' rs →
      run step s ops = some (s', rs) := by
  intro ops
  induction ops with
  | nil =>
    intro s s' rs h
    obtain ⟨rfl, rfl⟩ := h
    rfl
  | cons op ops ih =>
    intro s s' rs h
    obtain ⟨s1, r, rs', hs1, rfl, hrest⟩ := h
    rw [run, hstep s op s1 r hs1]
    simp only [ih s1 s' rs' hrest, map_some]

theorem traces_forall (hstep : ∀ a op b r, Next a op b r → Q r) :
    ∀ (ops : List ι) (a b : τ) (rs : List ρ), Traces Next a ops b rs → ∀ r ∈ rs, Q r := by
  intro ops
  induction ops with
  | nil =>
    intro a b rs h r hr
    rw [h.2] at hr
    exact absurd hr not_mem_nil
  | cons op ops ih =>
    intro a b rs h r hr
    obtain ⟨c, r', rs', hnext, rfl, hrest⟩ := h
    rcases mem_cons.mp hr with rfl | hr
    · exact hstep a op c r hnext
    · exact ih c b rs' hrest r hr

variable {I : τ → Prop} {f : σ → ι → σ × ρ}

theorem traces_invariant (hstep : ∀ a op b r, I a → Next a op b r → I b) :
    ∀ (ops : List ι) (a b : τ) (rs : List ρ), I a → Traces Next a ops b rs → I b := by
  intro ops
  induction ops with
  | nil =>
    intro a b rs ha h
    rw [h.1]
    exact ha
  | cons op ops ih =>
    intro a b rs ha h
    obtain ⟨c, r, rs', hnext, -, hrest⟩ := h
    exact ih c b rs' (hstep a op c r ha hnext) hrest

theorem traces_exists (hstep : ∀ a op, I a → ∃ b r, Next a op b r ∧ I b) :
    ∀ (ops : List ι) (a : τ), I a → ∃ b rs, Traces Next a ops b rs := by
  intro ops
  induction ops with
  | nil =>
    intro a _
    exact ⟨a, [], rfl, rfl⟩
  | cons op ops ih =>
    intro a ha
    obtain ⟨c, r, hnext, hc⟩ := hstep a op ha
    obtain ⟨b, rs, hrest⟩ := ih c hc
    exact ⟨b, r :: rs, c, r, rs, hnext, rfl, hrest⟩

theorem traces_simulates {Next : σ → ι → σ → ρ → Prop}
    (hstep : ∀ s a op, R s a → ∃ s' r, Next s op s' r ∧ R s' (next a op)) :
    ∀ (ops : List ι) (s : σ) (a : τ), R s a →
      ∃ s' rs, Traces Next s ops s' rs ∧ R s' (ops.foldl next a) := by
  intro ops
  induction ops with
  | nil =>
    intro s a hR
    exact ⟨s, [], ⟨rfl, rfl⟩, hR⟩
  | cons op ops ih =>
    intro s a hR
    obtain ⟨s1, r, hnext, hR1⟩ := hstep s a op hR
    obtain ⟨s2, rs, htraces, hR2⟩ := ih s1 (next a op) hR1
    exact ⟨s2, r :: rs, ⟨s1, r, rs, hnext, rfl, htraces⟩, hR2⟩

theorem traces_forall₂ {Q : ι → ρ → Prop} (hstep : ∀ a op b r, Next a op b r → Q op r) :
    ∀ (ops : List ι) (a b : τ) (rs : List ρ), Traces Next a ops b rs → List.Forall₂ Q ops rs := by
  intro ops
  induction ops with
  | nil =>
    intro a b rs h
    rw [h.2]
    exact List.Forall₂.nil
  | cons op ops ih =>
    intro a b rs h
    obtain ⟨c, r, rs', hnext, rfl, hrest⟩ := h
    exact List.Forall₂.cons (hstep a op c r hnext) (ih c b rs' hrest)

/-- What the user of a machine knows after a run, who knew `k` before it, by what was called and
what was answered. -/
def told {κ : Type} (f : κ → ι → ρ → κ) (k : κ) (ops : List ι) (rs : List ρ) : κ :=
  (ops.zip rs).foldl (fun k p => f k p.1 p.2) k

theorem traces_told {κ : Type} {f : κ → ι → ρ → κ} {g : τ → κ}
    (hstep : ∀ a op b r, Next a op b r → g b = f (g a) op r) :
    ∀ (ops : List ι) (a b : τ) (rs : List ρ), Traces Next a ops b rs →
      g b = told f (g a) ops rs := by
  intro ops
  induction ops with
  | nil =>
    intro a b rs h
    rw [h.1]
    rfl
  | cons op ops ih =>
    intro a b rs h
    obtain ⟨c, r, rs', hnext, rfl, hrest⟩ := h
    rw [ih c b rs' hrest, hstep a op c r hnext]
    rfl

/-- Every operation of `ops` meets its condition in the state a run makes it in. -/
def EachStep (Next : τ → ι → τ → ρ → Prop) (ok : τ → ι → Prop) (a : τ) (ops : List ι) : Prop :=
  ∀ before op after b rs, ops = before ++ op :: after → Traces Next a before b rs → ok b op

theorem eachStep_nil {ok : τ → ι → Prop} : EachStep Next ok a [] := by
  intro before op after b rs hops
  simp at hops

theorem eachStep_cons {ok : τ → ι → Prop} {op : ι} (hop : ok a op)
    (hops : ∀ b r, Next a op b r → EachStep Next ok b ops) : EachStep Next ok a (op :: ops) := by
  intro before op' after b rs hparts htraces
  cases before with
  | nil =>
    obtain ⟨rfl, -⟩ := cons.inj hparts
    rw [htraces.1]
    exact hop
  | cons op'' before =>
    obtain ⟨rfl, hrest⟩ := cons.inj hparts
    obtain ⟨c, r, rs', hnext, -, htraces⟩ := htraces
    exact hops c r hnext before op' after b rs' hrest htraces

theorem eachStep_cons_of {ok : τ → ι → Prop} {op : ι} {b : τ} {r : ρ}
    (hfun : ∀ a op b r b' r', Next a op b r → Next a op b' r' → b = b' ∧ r = r') (hop : ok a op)
    (hstep : Next a op b r) (hops : EachStep Next ok b ops) : EachStep Next ok a (op :: ops) := by
  refine eachStep_cons hop ?_
  intro b' r' hstep'
  obtain ⟨rfl, rfl⟩ := hfun a op b r b' r' hstep hstep'
  exact hops

theorem traces_invariant_of {ok : τ → ι → Prop}
    (hstep : ∀ a op b r, I a → ok a op → Next a op b r → I b) :
    ∀ (ops : List ι) (a b : τ) (rs : List ρ), EachStep Next ok a ops → I a →
      Traces Next a ops b rs → I b := by
  intro ops
  induction ops with
  | nil =>
    intro a b rs _ ha h
    rw [h.1]
    exact ha
  | cons op ops ih =>
    intro a b rs hok ha h
    obtain ⟨c, r, rs', hnext, -, hrest⟩ := h
    refine ih c b rs' ?_ (hstep a op c r ha (hok [] op ops a [] rfl ⟨rfl, rfl⟩) hnext) hrest
    intro before op' after d ds hops htraces
    exact hok (op :: before) op' after d (r :: ds)
      (by rw [hops]; rfl) ⟨c, r, ds, hnext, rfl, htraces⟩

theorem traces_exists_of {ok : τ → ι → Prop}
    (hstep : ∀ a op, I a → ok a op → ∃ b r, Next a op b r ∧ I b) :
    ∀ (ops : List ι) (a : τ), EachStep Next ok a ops → I a →
      ∃ b rs, Traces Next a ops b rs ∧ I b := by
  intro ops
  induction ops with
  | nil =>
    intro a _ ha
    exact ⟨a, [], ⟨rfl, rfl⟩, ha⟩
  | cons op ops ih =>
    intro a hok ha
    obtain ⟨c, r, hnext, hc⟩ := hstep a op ha (hok [] op ops a [] rfl ⟨rfl, rfl⟩)
    have hrest : EachStep Next ok c ops := by
      intro before op' after d ds hops htraces
      exact hok (op :: before) op' after d (r :: ds) (by rw [hops]; rfl)
        ⟨c, r, ds, hnext, rfl, htraces⟩
    obtain ⟨b, rs, htraces, hb⟩ := ih c hrest hc
    exact ⟨b, r :: rs, ⟨c, r, rs, hnext, rfl, htraces⟩, hb⟩

theorem traces_unique (hfun : ∀ a op b r b' r', Next a op b r → Next a op b' r' → b = b' ∧ r = r') :
    ∀ (ops : List ι) (a b b' : τ) (rs rs' : List ρ), Traces Next a ops b rs →
      Traces Next a ops b' rs' → b = b' ∧ rs = rs' := by
  intro ops
  induction ops with
  | nil =>
    intro a b b' rs rs' h h'
    exact ⟨h.1.trans h'.1.symm, h.2.trans h'.2.symm⟩
  | cons op ops ih =>
    intro a b b' rs rs' h h'
    obtain ⟨c, r, qs, hnext, rfl, hrest⟩ := h
    obtain ⟨c', r', qs', hnext', rfl, hrest'⟩ := h'
    obtain ⟨rfl, rfl⟩ := hfun a op c r c' r' hnext hnext'
    obtain ⟨rfl, rfl⟩ := ih c b b' qs qs' hrest hrest'
    exact ⟨rfl, rfl⟩

/-- **The run rule for calls with one outcome**: every run can be made and keeps the invariant. -/
theorem traces_total (hfun : ∀ a op b r b' r', Next a op b r → Next a op b' r' → b = b' ∧ r = r')
    (hstep : ∀ a op, I a → ∃ b r, Next a op b r ∧ I b) (ops : List ι) {a : τ} (ha : I a) :
    (∃ b rs, Traces Next a ops b rs) ∧ ∀ b rs, Traces Next a ops b rs → I b := by
  refine ⟨traces_exists hstep ops a ha, fun b rs h => traces_invariant ?_ ops a b rs ha h⟩
  intro a op b r ha hnext
  obtain ⟨b', r', hnext', hb'⟩ := hstep a op ha
  rwa [(hfun a op b r b' r' hnext hnext').1]

/-- **Where a step is possible exactly if it meets its condition**, all operations can be run one
after the other exactly if each meets its condition. -/
theorem exists_traces_iff {ok : τ → ι → Prop}
    (hfun : ∀ a op b r b' r', Next a op b r → Next a op b' r' → b = b' ∧ r = r')
    (hstep : ∀ a op, I a → ((∃ b r, Next a op b r) ↔ ok a op))
    (hinv : ∀ a op b r, I a → Next a op b r → I b) (ops : List ι) (a : τ) (ha : I a) :
    (∃ b rs, Traces Next a ops b rs ∧ I b) ↔ EachStep Next ok a ops := by
  constructor
  · rintro ⟨b, rs, h, -⟩ before op after c qs rfl hbefore
    obtain ⟨c', qs', ds, hbefore', hrest, -⟩ := traces_append.mp h
    obtain ⟨rfl, -⟩ := traces_unique hfun before a c c' qs qs' hbefore hbefore'
    obtain ⟨d, r, -, hnext, -⟩ := hrest
    exact (hstep c op (traces_invariant hinv before a c qs ha hbefore)).mp ⟨d, r, hnext⟩
  · intro hok
    refine traces_exists_of (fun a op ha hop => ?_) ops a hok ha
    obtain ⟨b, r, hnext⟩ := (hstep a op ha).mpr hop
    exact ⟨b, r, hnext, hinv a op b r ha hnext⟩

/-! ### A machine whose steps are a function

Its steps are only made where they are allowed.
-/

theorem traces_foldl : ∀ (ops : List ι) (s : σ),
    Admits ok (fun s op => (f s op).1) s ops →
      ∃ rs, Traces (fun s op s' r => ok s op ∧ f s op = (s', r)) s ops
        (ops.foldl (fun s op => (f s op).1) s) rs := by
  intro ops
  induction ops with
  | nil =>
    intro s _
    exact ⟨[], rfl, rfl⟩
  | cons op ops ih =>
    intro s hops
    obtain ⟨rs, hrest⟩ := ih (f s op).1 hops.2
    exact ⟨(f s op).2 :: rs, (f s op).1, (f s op).2, rs, ⟨hops.1, rfl⟩, rfl, hrest⟩

theorem eachStep_of_admits {ok' : σ → ι → Prop} : ∀ (ops : List ι) (s : σ),
    Admits ok' (fun s op => (f s op).1) s ops →
      EachStep (fun s op s' r => ok s op ∧ f s op = (s', r)) ok' s ops := by
  intro ops
  induction ops with
  | nil =>
    intro s _
    exact eachStep_nil
  | cons op ops ih =>
    intro s hops
    refine eachStep_cons hops.1 ?_
    intro s' r hstep
    have hrest := hops.2
    dsimp only at hrest
    rw [hstep.2] at hrest
    exact ih s' hrest

/-! ### A machine whose steps are a partial function -/

/-- The steps of a machine that answers nothing. -/
def Steps (step : σ → ι → Option σ) (s : σ) (op : ι) (s' : σ) (_ : Unit) : Prop :=
  step s op = some s'

theorem traces_foldlM {step : σ → ι → Option σ} : ∀ (ops : List ι) (s s' : σ),
    ops.foldlM step s = some s' → Traces (Steps step) s ops s' (ops.map fun _ => ()) := by
  intro ops
  induction ops with
  | nil =>
    intro s s' h
    exact ⟨(some.inj h).symm, rfl⟩
  | cons op ops ih =>
    intro s s' h
    obtain ⟨s1, hs1, hrest⟩ := bind_eq_some_iff.mp h
    exact ⟨s1, (), _, hs1, rfl, ih s1 s' hrest⟩

/-- Every operation meets its condition, as far as the run goes. -/
def Obeys (ok : σ → ι → Prop) (step : σ → ι → Option σ) : σ → List ι → Prop
  | _, [] => True
  | s, op :: ops => ok s op ∧ ∀ s' ∈ step s op, Obeys ok step s' ops

instance decidableObeys {ok : σ → ι → Prop} {step : σ → ι → Option σ}
    [∀ s op, Decidable (ok s op)] : ∀ (s : σ) (ops : List ι), Decidable (Obeys ok step s ops)
  | _, [] => inferInstanceAs (Decidable True)
  | s, op :: ops =>
    have : DecidablePred fun s' => Obeys ok step s' ops := fun s' => decidableObeys s' ops
    inferInstanceAs (Decidable (ok s op ∧ ∀ s' ∈ step s op, Obeys ok step s' ops))

theorem obeys_append {step : σ → ι → Option σ} {s : σ} :
    Obeys ok step s (xs ++ ys) ↔
      Obeys ok step s xs ∧ ∀ s', xs.foldlM step s = some s' → Obeys ok step s' ys := by
  induction xs generalizing s with
  | nil =>
    refine ⟨fun h => ⟨trivial, fun s' hs' => ?_⟩, fun h => h.2 s rfl⟩
    obtain rfl : s = s' := some.inj hs'
    exact h
  | cons op xs ih =>
    constructor
    · rintro ⟨hop, hrest⟩
      refine ⟨⟨hop, fun s' hs' => (ih.mp (hrest s' hs')).1⟩, ?_⟩
      intro s' hs'
      obtain ⟨s1, hs1, hs'⟩ := bind_eq_some_iff.mp hs'
      exact (ih.mp (hrest s1 hs1)).2 s' hs'
    · rintro ⟨⟨hop, hxs⟩, hys⟩
      refine ⟨hop, ?_⟩
      intro s1 hs1
      refine ih.mpr ⟨hxs s1 hs1, ?_⟩
      intro s' hs'
      refine hys s' ?_
      rw [foldlM_cons, hs1]
      exact hs'

/-- **When an invariant is kept all along**: where a step keeps it exactly if the step meets its
condition, it holds in every state of a run exactly if all steps of the run meet theirs.  What holds
of every state besides is `I`. -/
theorem obeys_iff {I P : σ → Prop} {step : σ → ι → Option σ}
    (hstep : ∀ s op s', I s → P s → step s op = some s' → I s' ∧ (P s' ↔ ok s op))
    (hnone : ∀ s op, I s → step s op = none → ok s op) :
    ∀ (ops : List ι) (s : σ), I s → P s →
      ((∀ before s', before <+: ops → before.foldlM step s = some s' → P s') ↔
        Obeys ok step s ops) := by
  intro ops
  induction ops with
  | nil =>
    intro s _ hP
    refine ⟨fun _ => trivial, fun _ before s' hbefore hs' => ?_⟩
    rw [prefix_nil.mp hbefore] at hs'
    exact some.inj hs' ▸ hP
  | cons op ops ih =>
    intro s hI hP
    constructor
    · intro hall
      cases hs : step s op with
      | none =>
        refine ⟨hnone s op hI hs, fun s1 hs1 => ?_⟩
        rw [hs] at hs1
        exact absurd hs1 (by simp)
      | some s1 =>
        have hrun : ∀ (before : List ι) s', before.foldlM step s1 = some s' →
            (op :: before).foldlM step s = some s' := by
          intro before s' hs'
          rw [foldlM_cons, hs]
          exact hs'
        obtain ⟨hI1, hiff⟩ := hstep s op s1 hI hP hs
        have hP1 : P s1 := hall [op] s1 (prefix_append [op] ops) (hrun [] s1 rfl)
        refine ⟨hiff.mp hP1, fun s2 hs2 => ?_⟩
        obtain rfl := some.inj (hs.symm.trans hs2)
        refine (ih s1 hI1 hP1).mp fun before s' hbefore hs' => ?_
        exact hall (op :: before) s' (cons_prefix_cons.mpr ⟨rfl, hbefore⟩) (hrun before s' hs')
    · rintro ⟨hop, hrest⟩ before s' hbefore hs'
      rcases prefix_cons_iff.mp hbefore with rfl | ⟨before, rfl, hprefix⟩
      · exact some.inj hs' ▸ hP
      obtain ⟨s1, hs1, hs'⟩ := bind_eq_some_iff.mp hs'
      obtain ⟨hI1, hiff⟩ := hstep s op s1 hI hP hs1
      exact (ih s1 hI1 (hiff.mpr hop)).mpr (hrest s1 hs1) before s' hprefix hs'

theorem eachStep_of_obeys {step : σ → ι → Option σ} :
    ∀ (ops : List ι) (s : σ), Obeys ok step s ops → EachStep (Steps step) ok s ops := by
  intro ops
  induction ops with
  | nil =>
    intro s _
    exact eachStep_nil
  | cons op ops ih =>
    intro s hops
    exact eachStep_cons hops.1 fun s' _ hstep => ih s' (hops.2 s' hstep)

end Runs
