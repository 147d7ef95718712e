import OrderbookEngine.Metrics.Histogram

/-!
# The minimum, the maximum and the average

The minimum has a value that stands for none, and the average divides two words
that wrap. The three are exact when some value differs from that sentinel and the
quotient of the words is the mean, as it is when the sum fits its word.
-/

namespace OrderbookEngine.LockFreeHistogram

variable {numBuckets : Nat} {valueToBucket : UInt64 → Nat} {h : LockFreeHistogram numBuckets}
  {values : List UInt64}

/-- The summary is that of the values: their least, their greatest and their mean. -/
structure ExactSummary (h : LockFreeHistogram numBuckets) (values : List UInt64) : Prop where
  min_mem : h.getMin ∈ values
  min_le : ∀ v ∈ values, h.getMin ≤ v
  max_mem : h.getMax ∈ values
  le_max : ∀ v ∈ values, v ≤ h.getMax
  average : h.getAverage = (exactSum values : ℚ) / values.length
  ordered : (h.getMin.toNat : ℚ) ≤ h.getAverage ∧ h.getAverage ≤ h.getMax.toNat

/-- The quotient of the sum and the number of values survives their wrapping. -/
def MeanSurvives (values : List UInt64) : Prop :=
  if values.length % 2 ^ 64 = 0 then exactSum values = 0
  else exactSum values % 2 ^ 64 * values.length = exactSum values * (values.length % 2 ^ 64)

/-- Of fewer than 2^64 values the mean survives when their sum does. -/
theorem meanSurvives_iff (hne : values ≠ []) (hlen : values.length < 2 ^ 64) :
    MeanSurvives values ↔ exactSum values < 2 ^ 64 := by
  have hpos : 0 < values.length := List.length_pos_iff.mpr hne
  rw [MeanSurvives, Nat.mod_eq_of_lt hlen, if_neg hpos.ne']
  constructor
  · intro hmean
    have hsum : exactSum values % 2 ^ 64 = exactSum values := Nat.eq_of_mul_eq_mul_right hpos hmean
    exact hsum ▸ Nat.mod_lt _ (by norm_num)
  · intro hlt
    rw [Nat.mod_eq_of_lt hlt]

theorem le_exactSum {lo : Nat} (hlo : ∀ v ∈ values, lo ≤ v.toNat) :
    lo * values.length ≤ exactSum values := by
  have hsum := List.card_nsmul_le_sum (values.map UInt64.toNat) lo
    (List.forall_mem_map.mpr hlo)
  rwa [List.length_map, smul_eq_mul, Nat.mul_comm] at hsum

theorem exactSum_le {hi : Nat} (hhi : ∀ v ∈ values, v.toNat ≤ hi) :
    exactSum values ≤ hi * values.length := by
  have hsum := List.sum_le_card_nsmul (values.map UInt64.toNat) hi
    (List.forall_mem_map.mpr hhi)
  rwa [List.length_map, smul_eq_mul, Nat.mul_comm] at hsum

/-- The greatest value is kept. -/
theorem Summarises.getMax_mem (hs : Summarises valueToBucket h values) (hne : values ≠ []) :
    h.getMax ∈ values := by
  rcases hs.max_mem with hmem | hzero
  · exact hmem
  · obtain ⟨v, hv⟩ := List.exists_mem_of_ne_nil values hne
    have hle := hs.le_max v hv
    rw [hzero, UInt64.le_zero_iff] at hle
    rw [getMax, hzero, ← hle]
    exact hv

/-- The least value is kept unless all values are the sentinel. -/
theorem Summarises.getMin_mem_iff (hs : Summarises valueToBucket h values) :
    h.getMin ∈ values ↔ ∃ v ∈ values, v ≠ uint64Max := by
  constructor
  · intro hmem
    refine ⟨h.getMin, hmem, ?_⟩
    unfold getMin
    split
    · decide
    · assumption
  · rintro ⟨v, hv, hlt⟩
    have hmin : h.minValue ≠ uint64Max := by
      intro heq
      have hle := hs.min_le v hv
      rw [heq] at hle
      exact hlt (UInt64.le_antisymm (le_uint64Max v) hle)
    rw [getMin, if_neg hmin]
    exact hs.min_mem.resolve_right hmin

theorem Summarises.getMin_le (hs : Summarises valueToBucket h values) :
    ∀ v ∈ values, h.getMin ≤ v := by
  intro v hv
  unfold getMin
  split
  · exact UInt64.zero_le
  · exact hs.min_le v hv

/-- The average is the mean exactly when the quotient survives. -/
theorem Summarises.getAverage_eq_iff (hs : Summarises valueToBucket h values)
    (hne : values ≠ []) :
    h.getAverage = (exactSum values : ℚ) / values.length ↔ MeanSurvives values := by
  have hlen : (values.length : ℚ) ≠ 0 := by exact_mod_cast (List.length_pos_iff.mpr hne).ne'
  by_cases hcount : values.length % 2 ^ 64 = 0
  · have hzero : h.totalCount = 0 := UInt64.toNat_inj.mp (hs.count.trans hcount)
    rw [MeanSurvives, if_pos hcount, getAverage, if_pos hzero, eq_comm, div_eq_zero_iff]
    simp [hlen]
  · have hne0 : h.totalCount ≠ 0 := fun hzero => hcount (hs.count.symm.trans (by rw [hzero]; rfl))
    have hdiv : ((values.length % 2 ^ 64 : ℕ) : ℚ) ≠ 0 := by exact_mod_cast hcount
    rw [MeanSurvives, if_neg hcount, getAverage, if_neg hne0, hs.sum, hs.count,
      div_eq_div_iff hdiv hlen]
    exact_mod_cast Iff.rfl

/-- The mean lies between the extremes. -/
theorem Summarises.ordered (hs : Summarises valueToBucket h values) (hne : values ≠ [])
    (haverage : h.getAverage = (exactSum values : ℚ) / values.length) :
    (h.getMin.toNat : ℚ) ≤ h.getAverage ∧ h.getAverage ≤ h.getMax.toNat := by
  have hpos : (0 : ℚ) < values.length := by exact_mod_cast List.length_pos_iff.mpr hne
  have hlo := le_exactSum fun v hv => UInt64.le_iff_toNat_le.mp (hs.getMin_le v hv)
  have hhi := exactSum_le fun v hv => UInt64.le_iff_toNat_le.mp (hs.le_max v hv)
  rw [haverage, le_div_iff₀ hpos, div_le_iff₀ hpos]
  exact ⟨by exact_mod_cast hlo, by exact_mod_cast hhi⟩

/-- The summary of the values recorded since a reset is exact exactly when not all of
them are 2^64 - 1 and the quotient of their sum and their number survives the wrapping of
both. -/
theorem exactSummary_iff_meanSurvives (valueToBucket : UInt64 → Nat)
    (h : LockFreeHistogram numBuckets) (values : List UInt64) (hne : values ≠ []) :
    ExactSummary (values.foldl (record valueToBucket) h.reset) values ↔
      (∃ v ∈ values, v ≠ uint64Max) ∧ MeanSurvives values := by
  have hs := summarises_foldl_record valueToBucket h values
  rw [← hs.getMin_mem_iff, ← hs.getAverage_eq_iff hne]
  constructor
  · exact fun hexact => ⟨hexact.min_mem, hexact.average⟩
  · rintro ⟨hmin, haverage⟩
    exact ⟨hmin, hs.getMin_le, hs.getMax_mem hne, hs.le_max, haverage, hs.ordered hne haverage⟩

theorem exactSummary_iff_meanSurvives_two :
    ExactSummary ([150, 2000].foldl (record fun _ => 0) (construct 1000).reset) [150, 2000] ↔
      (∃ v ∈ [150, 2000], v ≠ uint64Max) ∧ MeanSurvives [150, 2000] :=
  exactSummary_iff_meanSurvives (fun _ => 0) (construct 1000) [150, 2000] (List.cons_ne_nil _ _)

/-- A latency that wrapped and one of ten nanoseconds. -/
def wrappedLatency : List UInt64 := [18446744073709551614, 10]

/-- Their average is below their minimum. -/
theorem wrappedLatency_not_exactSummary :
    ¬ ExactSummary (wrappedLatency.foldl (record fun _ => 0) (construct 1000).reset)
        wrappedLatency ∧
      (wrappedLatency.foldl (record fun _ => 0) (construct 1000).reset).getAverage = 4 ∧
      (wrappedLatency.foldl (record fun _ => 0) (construct 1000).reset).getMin = 10 := by
  have hcount : (wrappedLatency.foldl (record fun _ => 0)
      (construct 1000).reset).totalCount.toNat = 2 := rfl
  have hsum : (wrappedLatency.foldl (record fun _ => 0)
      (construct 1000).reset).totalSum.toNat = 8 := rfl
  have hmin : (wrappedLatency.foldl (record fun _ => 0) (construct 1000).reset).getMin = 10 := rfl
  have hne : (wrappedLatency.foldl (record fun _ => 0) (construct 1000).reset).totalCount ≠ 0 := by
    intro hzero
    rw [hzero] at hcount
    cases hcount
  have haverage : (wrappedLatency.foldl (record fun _ => 0) (construct 1000).reset).getAverage =
      4 := by
    rw [getAverage, if_neg hne, hcount, hsum]
    norm_num
  refine ⟨fun hexact => ?_, haverage, hmin⟩
  have hle : ((10 : UInt64).toNat : ℚ) ≤ 4 := haverage ▸ hmin ▸ hexact.ordered.1
  have hnat : (10 : UInt64).toNat ≤ 4 := by exact_mod_cast hle
  exact absurd hnat (by decide)

end OrderbookEngine.LockFreeHistogram
