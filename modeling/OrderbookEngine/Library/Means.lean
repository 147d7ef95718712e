import Mathlib.Tactic

/-!
# Extremes and means over lists

The least and the greatest value, means with weights, which stay within the bounds of the values,
and the variance, which is at most the product of the distances of the mean from the bounds.
-/

namespace OrderbookEngine.Means

section Extremes

variable {α K : Type*} [LinearOrder K]

/-- The least value is not above the others. -/
theorem foldl_min_le (value : α → K) (l : List α) (a : K) :
    l.foldl (fun m x => min m (value x)) a ≤ a ∧
      ∀ x ∈ l, l.foldl (fun m x => min m (value x)) a ≤ value x := by
  induction l generalizing a with
  | nil => exact ⟨le_rfl, List.forall_mem_nil _⟩
  | cons x l ih =>
    obtain ⟨hstart, hall⟩ := ih (min a (value x))
    exact ⟨hstart.trans (min_le_left _ _),
      List.forall_mem_cons.mpr ⟨hstart.trans (min_le_right _ _), hall⟩⟩

/-- The greatest value is not below the others. -/
theorem le_foldl_max (value : α → K) (l : List α) (a : K) :
    a ≤ l.foldl (fun m x => max m (value x)) a ∧
      ∀ x ∈ l, value x ≤ l.foldl (fun m x => max m (value x)) a := by
  induction l generalizing a with
  | nil => exact ⟨le_rfl, List.forall_mem_nil _⟩
  | cons x l ih =>
    obtain ⟨hstart, hall⟩ := ih (max a (value x))
    exact ⟨(le_max_left _ _).trans hstart,
      List.forall_mem_cons.mpr ⟨(le_max_right _ _).trans hstart, hall⟩⟩

end Extremes

section Means

variable {α K : Type*} [Field K] [LinearOrder K] [IsStrictOrderedRing K] {value weight : α → K}
  {lo hi : K} {l : List α}

/-- The mean of the values of a list. -/
def mean (value : α → K) (l : List α) : K := (l.map value).sum / l.length

/-- The mean of the squared distances from the mean. -/
def variance (value : α → K) (l : List α) : K := mean (fun x => (value x - mean value l) ^ 2) l

/-- Some of the weights may be zero, but not all. -/
theorem weighted_mem_Icc (hpos : 0 < (l.map weight).sum) (hweight : ∀ x ∈ l, 0 ≤ weight x)
    (hvalue : ∀ x ∈ l, value x ∈ Set.Icc lo hi) :
    (l.map fun x => value x * weight x).sum / (l.map weight).sum ∈ Set.Icc lo hi := by
  constructor
  · rw [le_div_iff₀ hpos, ← List.sum_map_mul_left]
    refine List.sum_le_sum fun x hx => ?_
    exact mul_le_mul_of_nonneg_right (hvalue x hx).1 (hweight x hx)
  · rw [div_le_iff₀ hpos, ← List.sum_map_mul_left]
    refine List.sum_le_sum fun x hx => ?_
    exact mul_le_mul_of_nonneg_right (hvalue x hx).2 (hweight x hx)

theorem length_pos (hl : l ≠ []) : (0 : K) < l.length :=
  Nat.cast_pos.mpr (List.length_pos_iff.mpr hl)

theorem mean_mem_Icc (hl : l ≠ []) (hvalue : ∀ x ∈ l, value x ∈ Set.Icc lo hi) :
    mean value l ∈ Set.Icc lo hi := by
  have hones : (l.map fun _ => (1 : K)).sum = l.length := by simp
  have hpos : 0 < (l.map fun _ => (1 : K)).sum := hones ▸ length_pos hl
  have hmean := weighted_mem_Icc hpos (fun _ _ => zero_le_one) hvalue
  simpa [mean, hones] using hmean

theorem variance_nonneg (value : α → K) (l : List α) : 0 ≤ variance value l := by
  refine div_nonneg (List.sum_nonneg fun v hv => ?_) (Nat.cast_nonneg _)
  obtain ⟨x, -, rfl⟩ := List.mem_map.mp hv
  exact sq_nonneg _

/-- The sum of a linear function of the values. -/
theorem sum_linear (value : α → K) (l : List α) (a b m : K) :
    (l.map fun x => a + (value x - m) * b).sum =
      l.length * a + ((l.map value).sum - l.length * m) * b := by
  induction l with
  | nil => simp
  | cons x l ih =>
    simp only [List.map_cons, List.sum_cons, List.length_cons, ih]
    push_cast
    ring

/-- The variance is small when the mean is close to a bound. -/
theorem variance_le (hl : l ≠ []) (hvalue : ∀ x ∈ l, value x ∈ Set.Icc lo hi) :
    variance value l ≤ (hi - mean value l) * (mean value l - lo) := by
  have hpos := length_pos (K := K) hl
  have hsum : (l.map value).sum - l.length * mean value l = 0 := by
    rw [mean, mul_div_cancel₀ _ hpos.ne', sub_self]
  have hle : (l.map fun x => (value x - mean value l) ^ 2).sum ≤
      (l.map fun x => (hi - mean value l) * (mean value l - lo) +
        (value x - mean value l) * (hi + lo - 2 * mean value l)).sum := by
    refine List.sum_le_sum fun x hx => ?_
    -- what is dropped is the product of the distances of the value from the bounds
    have hdrop := mul_nonneg (sub_nonneg.mpr (hvalue x hx).2) (sub_nonneg.mpr (hvalue x hx).1)
    linarith
  rw [sum_linear, hsum, zero_mul, add_zero] at hle
  rw [variance, mean, div_le_iff₀ hpos]
  linarith

end Means

end OrderbookEngine.Means
