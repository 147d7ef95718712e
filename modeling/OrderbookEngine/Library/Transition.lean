import Mathlib.Tactic

/-!
# Runs of labelled transition systems

A run lists every label together with the state that label leads to. A property
of steps may hold along a whole run, and two rules reduce such statements to
single steps: an invariant rule for runs whose steps meet a condition, and a
rule for conditions that separate the good steps from the bad ones exactly.
-/

namespace OrderbookEngine.Transition

variable {σ ℓ : Type*}

/-- The list `tr` is a run of `step` from `s`. -/
def IsRun (step : σ → ℓ → σ → Prop) : σ → List (ℓ × σ) → Prop
  | _, [] => True
  | s, (l, t) :: rest => step s l t ∧ IsRun step t rest

/-- The state in which a run from `s` ends. -/
def lastState : σ → List (ℓ × σ) → σ
  | s, [] => s
  | _, (_, t) :: rest => lastState t rest

/-- Every step of the run satisfies `Q`. -/
def Always (Q : σ → ℓ → σ → Prop) : σ → List (ℓ × σ) → Prop
  | _, [] => True
  | s, (l, t) :: rest => Q s l t ∧ Always Q t rest

/-- Every state the run reaches satisfies `P`. -/
def Throughout (P : σ → Prop) (s : σ) (tr : List (ℓ × σ)) : Prop :=
  Always (fun _ _ t => P t) s tr

/-- Every step of the run is taken from a state that meets `cond`. -/
def Guarded (cond : σ → ℓ → Prop) (s : σ) (tr : List (ℓ × σ)) : Prop :=
  Always (fun s l _ => cond s l) s tr

@[simp] theorem isRun_cons {step : σ → ℓ → σ → Prop} {s t : σ} {l : ℓ} {tr : List (ℓ × σ)} :
    IsRun step s ((l, t) :: tr) ↔ step s l t ∧ IsRun step t tr := Iff.rfl

@[simp] theorem always_cons {Q : σ → ℓ → σ → Prop} {s t : σ} {l : ℓ} {tr : List (ℓ × σ)} :
    Always Q s ((l, t) :: tr) ↔ Q s l t ∧ Always Q t tr := Iff.rfl

@[simp] theorem guarded_nil (cond : σ → ℓ → Prop) (s : σ) :
    Guarded cond s ([] : List (ℓ × σ)) := trivial

@[simp] theorem guarded_cons {cond : σ → ℓ → Prop} {s t : σ} {l : ℓ} {tr : List (ℓ × σ)} :
    Guarded cond s ((l, t) :: tr) ↔ cond s l ∧ Guarded cond t tr := Iff.rfl

@[simp] theorem lastState_nil (s : σ) : lastState s ([] : List (ℓ × σ)) = s := rfl

@[simp] theorem lastState_cons (s t : σ) (l : ℓ) (tr : List (ℓ × σ)) :
    lastState s ((l, t) :: tr) = lastState t tr := rfl

theorem lastState_append (s : σ) (tr tr' : List (ℓ × σ)) :
    lastState s (tr ++ tr') = lastState (lastState s tr) tr' := by
  induction tr generalizing s with
  | nil => rfl
  | cons x tr ih => exact ih x.2

/-- A run goes on where its first part ends. -/
theorem isRun_append {step : σ → ℓ → σ → Prop} {s : σ} {tr tr' : List (ℓ × σ)} :
    IsRun step s (tr ++ tr') ↔ IsRun step s tr ∧ IsRun step (lastState s tr) tr' := by
  induction tr generalizing s with
  | nil => exact (and_iff_right trivial).symm
  | cons x tr ih => exact (and_congr_right fun _ => ih).trans and_assoc.symm

/-- The state in which a run ends is one of those it passes. -/
theorem lastState_mem (s : σ) (tr : List (ℓ × σ)) : lastState s tr ∈ s :: tr.map Prod.snd := by
  induction tr generalizing s with
  | nil => exact List.mem_cons_self
  | cons x tr ih => exact List.mem_cons_of_mem s (ih x.2)

/-- A property that holds throughout a run holds in its last state. -/
theorem Throughout.last {P : σ → Prop} {s : σ} {tr : List (ℓ × σ)}
    (h : Throughout P s tr) (hs : P s) : P (lastState s tr) := by
  induction tr generalizing s with
  | nil => exact hs
  | cons x tr ih => exact ih h.2 h.1

/-- A property that implies another at each step implies it along the run. -/
theorem Always.mono {P Q : σ → ℓ → σ → Prop} {s : σ} {tr : List (ℓ × σ)}
    (h : Always P s tr) (hpq : ∀ s l t, P s l t → Q s l t) : Always Q s tr := by
  induction tr generalizing s with
  | nil => trivial
  | cons x tr ih => exact ⟨hpq _ _ _ h.1, ih h.2⟩

/-- A property that implies another in each state implies it along the run. -/
theorem Throughout.mono {P Q : σ → Prop} {s : σ} {tr : List (ℓ × σ)}
    (h : Throughout P s tr) (hpq : ∀ t, P t → Q t) : Throughout Q s tr :=
  Always.mono h fun _ _ t => hpq t

/-- When guarded steps keep the invariant and meet the property, the property
holds along guarded runs. -/
theorem IsRun.always_of_guarded (Inv : σ → Prop) {step Q : σ → ℓ → σ → Prop} {cond : σ → ℓ → Prop}
    (hgood : ∀ s l t, Inv s → cond s l → step s l t → Inv t ∧ Q s l t)
    {s : σ} {tr : List (ℓ × σ)} (hrun : IsRun step s tr) (hg : Guarded cond s tr)
    (hs : Inv s) : Always Q s tr := by
  induction tr generalizing s with
  | nil => trivial
  | cons x tr ih =>
    obtain ⟨ht, hq⟩ := hgood s x.1 x.2 hs hg.1 hrun.1
    exact ⟨hq, ih hrun.2 hg.2 ht⟩

/-- What each guarded step preserves, each guarded run preserves. -/
theorem IsRun.invariant (Inv : σ → Prop) {step : σ → ℓ → σ → Prop} {cond : σ → ℓ → Prop}
    (hstep : ∀ s l t, Inv s → cond s l → step s l t → Inv t)
    {s : σ} {tr : List (ℓ × σ)} (hrun : IsRun step s tr) (hg : Guarded cond s tr)
    (hs : Inv s) : Throughout Inv s tr :=
  hrun.always_of_guarded Inv (fun s l t hi hc hst => and_self_iff.mpr (hstep s l t hi hc hst)) hg hs

/-- When each step keeps the invariant and meets the property, the property holds along
each run. -/
theorem IsRun.always (Inv : σ → Prop) {step Q : σ → ℓ → σ → Prop}
    (hstep : ∀ s l t, Inv s → step s l t → Inv t ∧ Q s l t)
    {s : σ} {tr : List (ℓ × σ)} (hrun : IsRun step s tr) (hs : Inv s) : Always Q s tr := by
  induction tr generalizing s with
  | nil => trivial
  | cons x tr ih =>
    obtain ⟨ht, hq⟩ := hstep s x.1 x.2 hs hrun.1
    exact ⟨hq, ih hrun.2 ht⟩

/-- What each step preserves, each run preserves. -/
theorem IsRun.throughout (Inv : σ → Prop) {step : σ → ℓ → σ → Prop}
    (hstep : ∀ s l t, Inv s → step s l t → Inv t)
    {s : σ} {tr : List (ℓ × σ)} (hrun : IsRun step s tr) (hs : Inv s) : Throughout Inv s tr :=
  hrun.always Inv (fun s l t hi hst => and_self_iff.mpr (hstep s l t hi hst)) hs

/-- The same for what is said of a state and of the states passed before it. -/
theorem IsRun.passed (Inv : List σ → σ → Prop) {step : σ → ℓ → σ → Prop}
    (hstep : ∀ past s l t, Inv past s → step s l t → Inv (past ++ [t]) t)
    {s : σ} {tr : List (ℓ × σ)} (hrun : IsRun step s tr) (past : List σ) (hs : Inv past s) :
    Inv (past ++ tr.map Prod.snd) (lastState s tr) := by
  induction tr generalizing s past with
  | nil => rwa [List.map_nil, List.append_nil]
  | cons x tr ih =>
    have hrest := ih hrun.2 (past ++ [x.2]) (hstep past s x.1 x.2 hs hrun.1)
    rwa [List.append_assoc] at hrest

/-- When guarded steps keep the invariant and meet the property, and every other
step breaks the property, the property holds along exactly the guarded runs. -/
theorem IsRun.always_iff_guarded (Inv : σ → Prop) {step Q : σ → ℓ → σ → Prop}
    {cond : σ → ℓ → Prop} (hgood : ∀ s l t, Inv s → cond s l → step s l t → Inv t ∧ Q s l t)
    (hbad : ∀ s l t, Inv s → ¬ cond s l → step s l t → ¬ Q s l t)
    {s : σ} {tr : List (ℓ × σ)} (hrun : IsRun step s tr) (hs : Inv s) :
    Always Q s tr ↔ Guarded cond s tr := by
  induction tr generalizing s with
  | nil => exact Iff.rfl
  | cons x tr ih =>
    obtain ⟨l, t⟩ := x
    simp only [always_cons, guarded_cons]
    by_cases hc : cond s l
    · obtain ⟨ht, hq⟩ := hgood s l t hs hc hrun.1
      simp only [hq, hc, true_and, ih hrun.2 ht]
    · simp only [hbad s l t hs hc hrun.1, hc, false_and]

/-- What the labels of a run cost is paid from a potential, and from what the labels bring. -/
theorem IsRun.sum_cost_le (Inv : σ → Prop) {step : σ → ℓ → σ → Prop} {potential : σ → ℕ}
    {cost gain : ℓ → ℕ} (hstep : ∀ s l t, Inv s → step s l t →
      Inv t ∧ cost l + potential t ≤ potential s + gain l)
    {s : σ} {tr : List (ℓ × σ)} (hrun : IsRun step s tr) (hs : Inv s) :
    (tr.map fun x => cost x.1).sum + potential (lastState s tr) ≤
      potential s + (tr.map fun x => gain x.1).sum := by
  induction tr generalizing s with
  | nil => exact (Nat.zero_add _).le
  | cons x tr ih =>
    obtain ⟨ht, hpaid⟩ := hstep s x.1 x.2 hs hrun.1
    have hrest := ih hrun.2 ht
    simp only [List.map_cons, List.sum_cons, lastState]
    omega

/-- The run of a function that computes the next state. -/
def runOf (next : σ → ℓ → σ) : σ → List ℓ → List (ℓ × σ)
  | _, [] => []
  | s, l :: ls => (l, next s l) :: runOf next (next s l) ls

/-- The computed run is a run when each of its steps is enabled. -/
theorem isRun_runOf_of_enabled {enabled : σ → ℓ → Prop} {next : σ → ℓ → σ} {s : σ} {ls : List ℓ}
    (h : Guarded enabled s (runOf next s ls)) :
    IsRun (fun s l t => enabled s l ∧ t = next s l) s (runOf next s ls) := by
  induction ls generalizing s with
  | nil => trivial
  | cons l ls ih => exact ⟨⟨h.1, rfl⟩, ih h.2⟩

/-- When every computed step keeps the invariant and meets the property exactly
under the condition, so do the computed runs. -/
theorem always_runOf_iff_guarded (Inv : σ → Prop) {Q : σ → ℓ → σ → Prop} {cond : σ → ℓ → Prop}
    {next : σ → ℓ → σ} (hstep : ∀ s l, Inv s → Inv (next s l))
    (hiff : ∀ s l, Inv s → (Q s l (next s l) ↔ cond s l)) {s : σ} (hs : Inv s) (ls : List ℓ) :
    Always Q s (runOf next s ls) ↔ Guarded cond s (runOf next s ls) := by
  induction ls generalizing s with
  | nil => exact Iff.rfl
  | cons l ls ih => exact and_congr (hiff s l hs) (ih (hstep s l hs))

/-- Guarding a computed run is decidable when the condition is. -/
instance decidableGuardedRunOf {cond : σ → ℓ → Prop} [∀ s l, Decidable (cond s l)]
    (next : σ → ℓ → σ) : ∀ s ls, Decidable (Guarded cond s (runOf next s ls))
  | _, [] => isTrue trivial
  | s, l :: ls =>
    have : Decidable (Guarded cond (next s l) (runOf next (next s l) ls)) :=
      decidableGuardedRunOf next (next s l) ls
    inferInstanceAs (Decidable (cond s l ∧ Guarded cond (next s l) (runOf next (next s l) ls)))

/-- A computed run is guarded when its parts are. -/
theorem Guarded.append {cond : σ → ℓ → Prop} {next : σ → ℓ → σ} {s : σ} {ls ls' : List ℓ}
    (h : Guarded cond s (runOf next s ls))
    (h' : Guarded cond (ls.foldl next s) (runOf next (ls.foldl next s) ls')) :
    Guarded cond s (runOf next s (ls ++ ls')) := by
  induction ls generalizing s with
  | nil => exact h'
  | cons l ls ih => exact ⟨h.1, ih h.2 h'⟩

/-- A guarded computed run meets the condition after each of its prefixes. -/
theorem Guarded.of_prefix {cond : σ → ℓ → Prop} {next : σ → ℓ → σ} {s : σ} {ls : List ℓ}
    (h : Guarded cond s (runOf next s ls)) {pre : List ℓ} {l : ℓ} (hp : pre ++ [l] <+: ls) :
    cond (pre.foldl next s) l := by
  induction ls generalizing s pre with
  | nil => simp at hp
  | cons x ls ih =>
    cases pre with
    | nil =>
      obtain ⟨rfl, -⟩ := List.cons_prefix_cons.mp hp
      exact h.1
    | cons y pre =>
      obtain ⟨rfl, hrest⟩ := List.cons_prefix_cons.mp hp
      exact ih h.2 hrest

/-- The computed run ends where folding the function ends. -/
theorem lastState_runOf (next : σ → ℓ → σ) (s : σ) (ls : List ℓ) :
    lastState s (runOf next s ls) = ls.foldl next s := by
  induction ls generalizing s with
  | nil => rfl
  | cons l ls ih => exact ih _

theorem runOf_append (next : σ → ℓ → σ) (s : σ) (ls ls' : List ℓ) :
    runOf next s (ls ++ ls') = runOf next s ls ++ runOf next (ls.foldl next s) ls' := by
  induction ls generalizing s with
  | nil => rfl
  | cons l ls ih => exact congrArg _ (ih _)

/-- The labels of a computed run. -/
theorem map_fst_runOf (next : σ → ℓ → σ) (s : σ) (ls : List ℓ) :
    (runOf next s ls).map Prod.fst = ls := by
  induction ls generalizing s with
  | nil => rfl
  | cons l ls ih => exact congrArg _ (ih _)

/-- For systems whose state is a function of the history of labels: what each step that
meets the condition keeps, holds after every prefix of a history whose steps meet it. -/
theorem prefixes_invariant (Inv : List ℓ → Prop) {cond : List ℓ → ℓ → Prop} {ls : List ℓ}
    (hnil : Inv [])
    (hgood : ∀ pre l, pre ++ [l] <+: ls → Inv pre → cond pre l → Inv (pre ++ [l]))
    (h : ∀ pre l, pre ++ [l] <+: ls → cond pre l) : ∀ pre, pre <+: ls → Inv pre := by
  intro pre
  induction pre using List.reverseRecOn with
  | nil => exact fun _ => hnil
  | append_singleton pre l ih =>
    intro hp
    exact hgood pre l hp (ih ((List.prefix_append pre [l]).trans hp)) (h pre l hp)

/-- When a step that meets the condition keeps the invariant and any other step
breaks the property, the property holds after every prefix of a history exactly
when every step of it meets the condition. -/
theorem prefixes_iff_guarded (Inv : List ℓ → Prop) {P : List ℓ → Prop}
    {cond : List ℓ → ℓ → Prop} {ls : List ℓ} (hnil : Inv []) (hP : ∀ pre, Inv pre → P pre)
    (hgood : ∀ pre l, pre ++ [l] <+: ls → Inv pre → cond pre l → Inv (pre ++ [l]))
    (hbad : ∀ pre l, pre ++ [l] <+: ls → Inv pre → ¬ cond pre l → ¬ P (pre ++ [l])) :
    (∀ pre, pre <+: ls → P pre) ↔ ∀ pre l, pre ++ [l] <+: ls → cond pre l := by
  constructor
  · intro h
    have hinv : ∀ pre, pre <+: ls → Inv pre := by
      intro pre
      induction pre using List.reverseRecOn with
      | nil => exact fun _ => hnil
      | append_singleton pre l ih =>
        intro hp
        have hpre := ih ((List.prefix_append pre [l]).trans hp)
        exact hgood pre l hp hpre (by_contra fun hc => hbad pre l hp hpre hc (h _ hp))
    intro pre l hp
    exact by_contra fun hc =>
      hbad pre l hp (hinv pre ((List.prefix_append pre [l]).trans hp)) hc (h _ hp)
  · exact fun h pre hp => hP pre (prefixes_invariant Inv hnil hgood h pre hp)

section Outputs

variable {α : Type*} {out : σ → ℓ → List α}

/-- What the steps of a run give out, in their order. -/
def outputs (out : σ → ℓ → List α) : σ → List (ℓ × σ) → List α
  | _, [] => []
  | s, (l, t) :: tr => out s l ++ outputs out t tr

@[simp] theorem outputs_nil (s : σ) : outputs out s ([] : List (ℓ × σ)) = [] := rfl

@[simp] theorem outputs_cons (s t : σ) (l : ℓ) (tr : List (ℓ × σ)) :
    outputs out s ((l, t) :: tr) = out s l ++ outputs out t tr := rfl

theorem outputs_append (s : σ) (tr tr' : List (ℓ × σ)) :
    outputs out s (tr ++ tr') = outputs out s tr ++ outputs out (lastState s tr) tr' := by
  induction tr generalizing s with
  | nil => rfl
  | cons x tr ih =>
    rw [List.cons_append, outputs, ih, outputs, List.append_assoc]
    rfl

/-- What each step keeps of a state and of the outputs before it, each run keeps. -/
theorem IsRun.outputs_invariant (Inv : List α → σ → Prop) {step : σ → ℓ → σ → Prop}
    (hstep : ∀ past s l t, Inv past s → step s l t → Inv (past ++ out s l) t)
    {s : σ} {tr : List (ℓ × σ)} (hrun : IsRun step s tr) {past : List α} (hs : Inv past s) :
    Inv (past ++ outputs out s tr) (lastState s tr) := by
  induction tr generalizing s past with
  | nil => rwa [outputs_nil, List.append_nil]
  | cons x tr ih =>
    have hrest := ih hrun.2 (hstep past s x.1 x.2 hs hrun.1)
    rwa [List.append_assoc] at hrest

end Outputs

section Part

variable {σ' ℓ' : Type*} {view : σ → σ'} {does : σ → ℓ → Option ℓ'}

/-- A part of a system does what a step of the system says, or nothing. -/
def PartStep (step' : σ' → ℓ' → σ' → Prop) (s : σ') : Option ℓ' → σ' → Prop
  | some l, t => step' s l t
  | none, t => t = s

/-- The run of a part in a run of the system. -/
def partRun (view : σ → σ') (does : σ → ℓ → Option ℓ') : σ → List (ℓ × σ) → List (ℓ' × σ')
  | _, [] => []
  | s, (l, t) :: tr => ((does s l).map fun l' => (l', view t)).toList ++ partRun view does t tr

theorem partRun_append (s : σ) (tr tr' : List (ℓ × σ)) :
    partRun view does s (tr ++ tr') =
      partRun view does s tr ++ partRun view does (lastState s tr) tr' := by
  induction tr generalizing s with
  | nil => rfl
  | cons x tr ih =>
    rw [List.cons_append, partRun, ih, partRun, List.append_assoc]
    rfl

/-- Where the run of the part ends. -/
theorem lastState_partRun {step : σ → ℓ → σ → Prop} {step' : σ' → ℓ' → σ' → Prop}
    (hstep : ∀ s l t, step s l t → PartStep step' (view s) (does s l) (view t))
    {s : σ} {tr : List (ℓ × σ)} (hrun : IsRun step s tr) :
    lastState (view s) (partRun view does s tr) = view (lastState s tr) := by
  induction tr generalizing s with
  | nil => rfl
  | cons x tr ih =>
    have hfirst := hstep s x.1 x.2 hrun.1
    have hrest := ih hrun.2
    rw [partRun, lastState_cons]
    cases hdoes : does s x.1 with
    | none =>
      rw [hdoes] at hfirst
      rw [← show view x.2 = view s from hfirst]
      exact hrest
    | some l => exact hrest

/-- Each run of the system is a run of its part. -/
theorem IsRun.part {step : σ → ℓ → σ → Prop} {step' : σ' → ℓ' → σ' → Prop}
    (hstep : ∀ s l t, step s l t → PartStep step' (view s) (does s l) (view t))
    {s : σ} {tr : List (ℓ × σ)} (hrun : IsRun step s tr) :
    IsRun step' (view s) (partRun view does s tr) := by
  induction tr generalizing s with
  | nil => trivial
  | cons x tr ih =>
    have hfirst := hstep s x.1 x.2 hrun.1
    have hrest := ih hrun.2
    rw [partRun]
    cases hdoes : does s x.1 with
    | none =>
      rw [hdoes] at hfirst
      rw [← show view x.2 = view s from hfirst]
      exact hrest
    | some l =>
      rw [hdoes] at hfirst
      exact ⟨hfirst, hrest⟩

/-- What the part gives out in a run of the system. -/
theorem IsRun.outputs_part {α β : Type*} (Inv : σ → Prop) {step : σ → ℓ → σ → Prop}
    {out : σ → ℓ → List α} {out' : σ' → ℓ' → List β} {f : α → β}
    (hstep : ∀ s l t, Inv s → step s l t → Inv t ∧
      (does s l).elim [] (out' (view s)) = (out s l).map f ∧ (does s l = none → view t = view s))
    {s : σ} {tr : List (ℓ × σ)} (hrun : IsRun step s tr) (hs : Inv s) :
    outputs out' (view s) (partRun view does s tr) = (outputs out s tr).map f := by
  induction tr generalizing s with
  | nil => rfl
  | cons x tr ih =>
    obtain ⟨ht, hout, hsame⟩ := hstep s x.1 x.2 hs hrun.1
    have hrest := ih hrun.2 ht
    rw [partRun, outputs_cons, List.map_append, ← hrest, ← hout]
    cases hdoes : does s x.1 with
    | none => rw [← hsame hdoes]; rfl
    | some l => rfl

end Part

end OrderbookEngine.Transition
