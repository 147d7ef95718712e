import Mathlib.Tactic

/-!
# Settings in force over time

A timeline lists settings with the moments they came into force, the latest first; each
is in force until the next one is. A quantity of the settings has an integral over a
span of time and a largest value in it, and both grow with the span and with new
settings.
-/

namespace OrderbookEngine.Timeline

variable {V : Type*}

/-- The integral of a quantity of the settings in force from `start` to `finish`. -/
def integral (f : V → ℚ) : List (ℕ × V) → ℕ → ℕ → ℚ
  | [], _, _ => 0
  | (since, v) :: older, start, finish =>
    ((finish - max start since : ℕ) : ℚ) * f v + integral f older start (min finish since)

/-- The largest value of a quantity of the settings in force at some moment from `start` to
`finish`, at which a setting may follow another. -/
def largest (g : V → ℕ) : List (ℕ × V) → ℕ → ℕ → ℕ
  | [], _, _ => 0
  | (since, v) :: older, start, finish =>
    max (if since ≤ finish then g v else 0)
      (if start ≤ since then largest g older start finish else 0)

section Integral

variable {f : V → ℚ} {settings : List (ℕ × V)} {start finish since now : ℕ} {v : V}

theorem integral_nonneg (hf : ∀ x ∈ settings, 0 ≤ f x.2) (start finish : ℕ) :
    0 ≤ integral f settings start finish := by
  induction settings generalizing finish with
  | nil => exact le_refl 0
  | cons x older ih =>
    obtain ⟨hx, hf⟩ := List.forall_mem_cons.mp hf
    exact add_nonneg (mul_nonneg (Nat.cast_nonneg _) hx) (ih hf _)

/-- A longer span has a larger integral. -/
theorem integral_mono (hf : ∀ x ∈ settings, 0 ≤ f x.2) (start : ℕ) {finish finish' : ℕ}
    (h : finish ≤ finish') :
    integral f settings start finish ≤ integral f settings start finish' := by
  induction settings generalizing finish finish' with
  | nil => exact le_refl 0
  | cons x older ih =>
    obtain ⟨hx, hf⟩ := List.forall_mem_cons.mp hf
    have hlen : ((finish - max start x.1 : ℕ) : ℚ) ≤ ((finish' - max start x.1 : ℕ) : ℚ) := by
      exact_mod_cast Nat.sub_le_sub_right h _
    exact add_le_add (mul_le_mul_of_nonneg_right hlen hx) (ih hf (min_le_min_right _ h))

/-- Over no time the integral is zero. -/
theorem integral_of_le (h : finish ≤ start) : integral f settings start finish = 0 := by
  induction settings generalizing finish with
  | nil => rfl
  | cons x older ih =>
    have hzero : finish - max start x.1 = 0 := Nat.sub_eq_zero_of_le (h.trans (le_max_left _ _))
    simp only [integral, hzero, ih ((min_le_left _ _).trans h), Nat.cast_zero, zero_mul, add_zero]

/-- While the latest setting is in force the integral grows by it. -/
theorem integral_extend (hstart : start ≤ now) (hsince : since ≤ now) (h : now ≤ finish) :
    integral f ((since, v) :: settings) start finish =
      integral f ((since, v) :: settings) start now + ((finish : ℚ) - now) * f v := by
  have hcast : ((finish - max start since : ℕ) : ℚ) =
      ((now - max start since : ℕ) : ℚ) + ((finish : ℚ) - now) := by
    have hmax : max start since ≤ now := max_le hstart hsince
    rw [Nat.cast_sub (hmax.trans h), Nat.cast_sub hmax]
    ring
  simp only [integral, min_eq_right (hsince.trans h), min_eq_right hsince, hcast]
  ring

/-- A new setting changes no integral of the past. -/
theorem integral_push (h : finish ≤ now) :
    integral f ((now, v) :: settings) start finish = integral f settings start finish := by
  have hzero : finish - max start now = 0 := Nat.sub_eq_zero_of_le (h.trans (le_max_right _ _))
  simp only [integral, hzero, min_eq_left h, Nat.cast_zero, zero_mul, zero_add]

end Integral

section Largest

variable {g : V → ℕ} {settings : List (ℕ × V)} {start finish since now : ℕ} {v : V}

theorem largest_mono (start : ℕ) {finish finish' : ℕ} (h : finish ≤ finish') :
    largest g settings start finish ≤ largest g settings start finish' := by
  induction settings with
  | nil => exact le_refl 0
  | cons x older ih =>
    refine max_le_max ?_ ?_
    · split_ifs with h1 h2
      · exact le_refl _
      · exact absurd (h1.trans h) h2
      · exact Nat.zero_le _
      · exact le_refl 0
    · split_ifs
      · exact ih
      · exact le_refl 0

/-- The latest setting counts once it is in force. -/
theorem le_largest (hsince : since ≤ finish) :
    g v ≤ largest g ((since, v) :: settings) start finish := by
  simp only [largest, if_pos hsince]
  exact le_max_left _ _

/-- A new setting makes no largest value of the past smaller. -/
theorem largest_le_push (h : start ≤ now) :
    largest g settings start finish ≤ largest g ((now, v) :: settings) start finish := by
  simp only [largest, if_pos h]
  exact le_max_right _ _

end Largest

end OrderbookEngine.Timeline
