import Mathlib.Tactic

/-!
# Loops with fuel

A loop repeats a step until the step gives a result. With fuel it is a function;
more fuel changes no result, so a loop has at most one, and it has one exactly
when some fuel suffices.
-/

namespace OrderbookEngine.Loop

variable {σ ρ : Type*} {step : σ → σ ⊕ ρ} {s s' : σ} {r r' : ρ} {n m : Nat}

/-- Repeat the step until it gives a result, as long as there is fuel. -/
def loop (step : σ → σ ⊕ ρ) : Nat → σ → Option ρ
  | 0, _ => none
  | fuel + 1, s =>
    match step s with
    | .inl s' => loop step fuel s'
    | .inr r => some r

/-- The loop gives the result with some fuel. -/
def Returns (step : σ → σ ⊕ ρ) (s : σ) (r : ρ) : Prop := ∃ fuel, loop step fuel s = some r

theorem loop_of_result (h : step s = .inr r) (n : Nat) : loop step (n + 1) s = some r := by
  rw [loop, h]

theorem loop_of_next (h : step s = .inl s') (n : Nat) :
    loop step (n + 1) s = loop step n s' := by
  rw [loop, h]

/-- More fuel gives the same result. -/
theorem loop_mono (h : loop step n s = some r) (hle : n ≤ m) : loop step m s = some r := by
  induction n generalizing m s with
  | zero => cases h
  | succ n ih =>
    obtain ⟨m, rfl⟩ := Nat.exists_eq_add_of_le' (Nat.one_le_of_lt hle)
    cases hstep : step s with
    | inl s' =>
      rw [loop_of_next hstep] at h ⊢
      exact ih h (by omega)
    | inr r' =>
      rw [loop_of_result hstep] at h ⊢
      exact h

/-- A loop has one result. -/
theorem Returns.unique (h : Returns step s r) (h' : Returns step s r') : r = r' := by
  obtain ⟨n, hn⟩ := h
  obtain ⟨m, hm⟩ := h'
  have hr := loop_mono hn (le_max_left n m)
  rw [loop_mono hm (le_max_right n m), Option.some.injEq] at hr
  exact hr.symm

theorem returns_of_result (h : step s = .inr r) : Returns step s r :=
  ⟨1, loop_of_result h 0⟩

/-- The result of a loop is that of its second round. -/
theorem returns_next_iff (h : step s = .inl s') : Returns step s r ↔ Returns step s' r := by
  constructor
  · rintro ⟨n, hn⟩
    cases n with
    | zero => cases hn
    | succ n => exact ⟨n, by rwa [loop_of_next h] at hn⟩
  · rintro ⟨n, hn⟩
    exact ⟨n + 1, by rwa [loop_of_next h]⟩

/-- A loop whose step preserves a condition and then gives no result never returns. -/
theorem not_returns (P : σ → Prop) (hstep : ∀ s, P s → ∃ s', step s = .inl s' ∧ P s')
    (h : P s) : ¬ Returns step s r := by
  rintro ⟨n, hn⟩
  induction n generalizing s with
  | zero => cases hn
  | succ n ih =>
    obtain ⟨s', hs', hP⟩ := hstep s h
    rw [loop_of_next hs'] at hn
    exact ih hP hn

/-- A loop whose rounds decrease a measure under a condition returns. -/
theorem exists_returns (P : σ → Prop) (μ : σ → Nat)
    (hstep : ∀ s, P s → ∀ s', step s = .inl s' → P s' ∧ μ s' < μ s) (h : P s) :
    ∃ r, Returns step s r := by
  induction hμ : μ s using Nat.strongRecOn generalizing s with
  | ind k ih =>
    cases hs : step s with
    | inr r => exact ⟨r, returns_of_result hs⟩
    | inl s' =>
      obtain ⟨hP, hlt⟩ := hstep s h s' hs
      obtain ⟨r, hr⟩ := ih _ (hμ ▸ hlt) hP rfl
      exact ⟨r, (returns_next_iff hs).mpr hr⟩

/-- What every round preserves and every last round turns into a fact about the result. -/
theorem Returns.invariant {I : σ → Prop} {Q : ρ → Prop} (h : Returns step s r) (hI : I s)
    (hnext : ∀ s s', I s → step s = .inl s' → I s')
    (hlast : ∀ s r, I s → step s = .inr r → Q r) : Q r := by
  obtain ⟨n, hn⟩ := h
  induction n generalizing s with
  | zero => cases hn
  | succ n ih =>
    cases hs : step s with
    | inr r' =>
      rw [loop_of_result hs, Option.some.injEq] at hn
      exact hn ▸ hlast s r' hI hs
    | inl s' =>
      rw [loop_of_next hs] at hn
      exact ih (hnext s s' hI hs) hn

end OrderbookEngine.Loop
