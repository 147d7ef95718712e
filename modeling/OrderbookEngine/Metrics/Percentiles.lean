import OrderbookEngine.Library.OrderStatistic
import OrderbookEngine.Metrics.Histogram

/-!
# Percentiles as order statistics

The scan of `get_percentile` stops at the first bucket up to which a truncated number of
values lie, while the percentile has a rank that is rounded up. The two meet in one
bucket exactly when the values of the two ranks do; a rank truncated to zero stops at
the first bucket.
-/

namespace OrderbookEngine.LockFreeHistogram

open OrderStatistic

instance : Std.Total fun a b : UInt64 => a ≤ b := ⟨UInt64.le_total⟩

instance : IsTrans UInt64 fun a b : UInt64 => a ≤ b := ⟨fun _ _ _ => UInt64.le_trans⟩

/-- The value of a rank among the recorded ones. -/
def ranked (values : List UInt64) (rank : Nat) : Option UInt64 :=
  kthSmallest (fun a b : UInt64 => a ≤ b) values rank

/-- The number of values in the buckets up to one. -/
def upTo (valueToBucket : UInt64 → Nat) (values : List UInt64) (bucket : Nat) : Nat :=
  values.countP (valueToBucket · ≤ bucket)

section Statement

variable {numBuckets : Nat} (valueToBucket : UInt64 → Nat) (h : LockFreeHistogram numBuckets)
  (values : List UInt64) (percentile : ℚ)

/-- The percentile is the value of the bucket of the order statistic, and that bucket
is not below the bucket of the least value. -/
def ReturnsRanked : Prop :=
  ∃ v, ranked values ⌈(values.length : ℚ) * percentile / 100⌉₊ = some v ∧
    (∀ bucketToValue, h.getPercentile bucketToValue percentile =
      bucketToValue (valueToBucket v)) ∧
    ∀ u ∈ values, (∀ w ∈ values, u ≤ w) → valueToBucket u ≤ valueToBucket v

/-- The values of the truncated rank and of the rank rounded up share a bucket; that of
rank zero is the first bucket. -/
def SharedBucket : Prop :=
  ∃ v, ranked values ⌈(values.length : ℚ) * percentile / 100⌉₊ = some v ∧
    if ⌊(values.length : ℚ) * percentile / 100⌋₊ = 0 then valueToBucket v = 0
    else ∃ u, ranked values ⌊(values.length : ℚ) * percentile / 100⌋₊ = some u ∧
      valueToBucket u = valueToBucket v

/-- The bucket of the order statistic is the first one where the numbers of values, as
words, reach the target. -/
def WrappedCountsReach : Prop :=
  ∃ v, ranked values ⌈(values.length : ℚ) * percentile / 100⌉₊ = some v ∧
    values.length % 2 ^ 64 ≠ 0 ∧
    ⌊((values.length % 2 ^ 64 : ℕ) : ℚ) * percentile / 100⌋₊ ≤
      upTo valueToBucket values (valueToBucket v) % 2 ^ 64 ∧
    ∀ i < valueToBucket v, upTo valueToBucket values i % 2 ^ 64 <
      ⌊((values.length % 2 ^ 64 : ℕ) : ℚ) * percentile / 100⌋₊

/-- What makes a percentile an order statistic; the second case is that of counters that
have come round. -/
def RanksAgree : Prop :=
  if values.length < 2 ^ 64 then SharedBucket valueToBucket values percentile
  else WrappedCountsReach valueToBucket values percentile

end Statement

section Scan

variable {numBuckets : Nat} {valueToBucket : UInt64 → Nat} {h : LockFreeHistogram numBuckets}
  {values : List UInt64} {percentile : ℚ}

theorem upTo_le (bucket : Nat) : upTo valueToBucket values bucket ≤ values.length :=
  List.countP_le_length

/-- Up to a bucket are those below it and those in it. -/
theorem upTo_eq (bucket : Nat) : upTo valueToBucket values bucket =
    values.countP (valueToBucket · < bucket) + values.countP (valueToBucket · = bucket) := by
  induction values with
  | nil => rfl
  | cons v values ih =>
    simp only [upTo, List.countP_cons, decide_eq_true_eq] at ih ⊢
    split_ifs <;> omega

/-- Adding the count of a bucket to those below it. -/
theorem Summarises.toNat_cumulative (hs : Summarises valueToBucket h values) {i : Nat}
    (hi : i < numBuckets) {cumulative : UInt64}
    (hc : cumulative.toNat = values.countP (valueToBucket · < i) % 2 ^ 64) :
    (cumulative + h.buckets[i]).toNat = upTo valueToBucket values i % 2 ^ 64 := by
  rw [UInt64.toNat_add, hc, hs.buckets i hi, upTo_eq, ← Nat.add_mod]

/-- The scan stops at the first bucket up to which the words count the target. -/
theorem Summarises.scan_eq_some_iff (hs : Summarises valueToBucket h values)
    (targetCount : UInt64) (i : Nat) (cumulative : UInt64)
    (hc : cumulative.toNat = values.countP (valueToBucket · < i) % 2 ^ 64) (b : Nat) :
    h.scan targetCount i cumulative = some b ↔
      i ≤ b ∧ b < numBuckets ∧ targetCount.toNat ≤ upTo valueToBucket values b % 2 ^ 64 ∧
        ∀ j, i ≤ j → j < b → upTo valueToBucket values j % 2 ^ 64 < targetCount.toNat := by
  induction i, cumulative using scan.induct h targetCount with
  | case1 i cumulative hi cumulative' hreach =>
    have hcum : cumulative'.toNat = _ := hs.toNat_cumulative hi hc
    have hle : targetCount.toNat ≤ cumulative'.toNat := UInt64.le_iff_toNat_le.mp hreach
    rw [scan, dif_pos hi, if_pos hreach, Option.some.injEq]
    constructor
    · rintro rfl
      exact ⟨le_refl i, hi, hcum ▸ hle, fun j hj hlt => absurd hj (not_le.mpr hlt)⟩
    · rintro ⟨hib, -, -, hbefore⟩
      by_contra hne
      have hlt := hbefore i (le_refl i) (lt_of_le_of_ne hib hne)
      omega
  | case2 i cumulative hi cumulative' hreach ih =>
    have hcum : cumulative'.toNat = _ := hs.toNat_cumulative hi hc
    have hlt : cumulative'.toNat < targetCount.toNat := by
      rw [ge_iff_le, UInt64.le_iff_toNat_le, not_le] at hreach
      exact hreach
    have hnext : cumulative'.toNat = values.countP (valueToBucket · < i + 1) % 2 ^ 64 := by
      simp only [hcum, upTo, Nat.lt_succ_iff]
    rw [scan, dif_pos hi, if_neg hreach, ih hnext]
    constructor
    · rintro ⟨hib, hb, hreaches, hbefore⟩
      refine ⟨by omega, hb, hreaches, fun j hj hjb => ?_⟩
      rcases Nat.eq_or_lt_of_le hj with rfl | hj
      · omega
      · exact hbefore j hj hjb
    · rintro ⟨hib, hb, hreaches, hbefore⟩
      have hne : i ≠ b := by
        rintro rfl
        omega
      exact ⟨by omega, hb, hreaches, fun j hj hjb => hbefore j (by omega) hjb⟩
  | case3 i cumulative hi =>
    rw [scan, dif_neg hi]
    refine iff_of_false nofun ?_
    rintro ⟨hib, hb, -⟩
    omega

/-- A percentile is the value of a bucket, whatever the values of buckets are, exactly
when the scan stops there. -/
theorem getPercentile_eq_iff (b : Nat) :
    (∀ bucketToValue, h.getPercentile bucketToValue percentile = bucketToValue b) ↔
      h.totalCount ≠ 0 ∧ h.scan (h.targetCount percentile) 0 0 = some b := by
  constructor
  · intro hall
    have hne : h.totalCount ≠ 0 := by
      intro hzero
      have hone := hall fun _ => 1
      rw [getPercentile, if_pos hzero] at hone
      cases hone
    refine ⟨hne, ?_⟩
    cases hscan : h.scan (h.targetCount percentile) 0 0 with
    | none =>
      have hnext := hall fun _ => h.maxValue + 1
      simp only [getPercentile, if_neg hne, hscan] at hnext
      simp at hnext
    | some i =>
      have hpoint := hall fun j => if j = b then 1 else 0
      simp only [getPercentile, if_neg hne, hscan, if_true] at hpoint
      by_contra hib
      rw [if_neg fun heq => hib (congrArg some heq)] at hpoint
      cases hpoint
  · rintro ⟨hne, hscan⟩ bucketToValue
    simp only [getPercentile, if_neg hne, hscan]

/-- A rank is at most the number of values. -/
theorem mul_percentile_le (n : ℕ) (hle : percentile ≤ 100) : (n : ℚ) * percentile / 100 ≤ n :=
  (div_le_iff₀ (by norm_num)).mpr (mul_le_mul_of_nonneg_left hle (Nat.cast_nonneg n))

/-- The target is the truncated rank of the wrapped count. -/
theorem Summarises.toNat_targetCount (hs : Summarises valueToBucket h values)
    (hle : percentile ≤ 100) :
    (h.targetCount percentile).toNat =
      ⌊((values.length % 2 ^ 64 : ℕ) : ℚ) * percentile / 100⌋₊ := by
  have hlt : ⌊((values.length % 2 ^ 64 : ℕ) : ℚ) * percentile / 100⌋₊ < 2 ^ 64 :=
    lt_of_le_of_lt (Nat.floor_le_of_le (mul_percentile_le _ hle)) (Nat.mod_lt _ (by norm_num))
  rw [targetCount, hs.count]
  exact Nat.mod_eq_of_lt hlt

/-- The scan always stops when the target is at most the count. -/
theorem Summarises.exists_scan (hs : Summarises valueToBucket h values)
    (hbucket : ∀ v, valueToBucket v < numBuckets) (hpos : 0 < numBuckets)
    (hle : percentile ≤ 100) : ∃ b, h.scan (h.targetCount percentile) 0 0 = some b := by
  have hall : upTo valueToBucket values (numBuckets - 1) = values.length :=
    List.countP_eq_length.mpr fun v _ => by
      have := hbucket v
      simp only [decide_eq_true_eq]
      omega
  have hreach : ∃ b, (h.targetCount percentile).toNat ≤ upTo valueToBucket values b % 2 ^ 64 := by
    refine ⟨numBuckets - 1, ?_⟩
    rw [hall, hs.toNat_targetCount hle]
    exact Nat.floor_le_of_le (mul_percentile_le _ hle)
  classical
  have hlast : Nat.find hreach ≤ numBuckets - 1 := by
    refine Nat.find_min' hreach ?_
    rw [hall, hs.toNat_targetCount hle]
    exact Nat.floor_le_of_le (mul_percentile_le _ hle)
  refine ⟨Nat.find hreach, (hs.scan_eq_some_iff _ 0 0 (by simp) _).mpr
    ⟨Nat.zero_le _, by omega, Nat.find_spec hreach, fun j _ hj => ?_⟩⟩
  exact not_le.mp (Nat.find_min hreach hj)

/-- Higher percentiles are not smaller. -/
theorem Summarises.getPercentile_mono (hs : Summarises valueToBucket h values)
    (hbucket : ∀ v, valueToBucket v < numBuckets) (hpos : 0 < numBuckets) {percentile' : ℚ}
    (hpp : percentile ≤ percentile') (hle : percentile' ≤ 100) {bucketToValue : Nat → UInt64}
    (hvalue : ∀ i j, i ≤ j → bucketToValue i ≤ bucketToValue j) :
    h.getPercentile bucketToValue percentile ≤ h.getPercentile bucketToValue percentile' := by
  by_cases hzero : h.totalCount = 0
  · simp only [getPercentile, if_pos hzero]
    exact UInt64.le_refl 0
  · obtain ⟨b, hb⟩ := hs.exists_scan hbucket hpos (hpp.trans hle)
    obtain ⟨b', hb'⟩ := hs.exists_scan hbucket hpos hle
    simp only [getPercentile, if_neg hzero, hb, hb']
    obtain ⟨-, -, -, hbefore⟩ := (hs.scan_eq_some_iff _ 0 0 (by simp) b).mp hb
    obtain ⟨-, -, hreach, -⟩ := (hs.scan_eq_some_iff _ 0 0 (by simp) b').mp hb'
    have htarget : (h.targetCount percentile).toNat ≤ (h.targetCount percentile').toNat := by
      rw [hs.toNat_targetCount (hpp.trans hle), hs.toNat_targetCount hle]
      gcongr
    refine hvalue b b' (le_of_not_gt fun hlt => ?_)
    have hshort := hbefore b' (Nat.zero_le _) hlt
    omega

end Scan

section Ranks

variable {numBuckets : Nat} {valueToBucket : UInt64 → Nat} {h : LockFreeHistogram numBuckets}
  {values : List UInt64} {percentile : ℚ}

/-- The rank of a positive percentile is one of the ranks. -/
theorem rank_mem (hne : values ≠ []) (hp : 0 < percentile) (hle : percentile ≤ 100) :
    1 ≤ ⌈(values.length : ℚ) * percentile / 100⌉₊ ∧
      ⌈(values.length : ℚ) * percentile / 100⌉₊ ≤ values.length := by
  have hpos : (0 : ℚ) < values.length := by exact_mod_cast List.length_pos_iff.mpr hne
  exact ⟨Nat.ceil_pos.mpr (by positivity), Nat.ceil_le.mpr (mul_percentile_le _ hle)⟩

/-- A value lies in the buckets up to one exactly when enough values do. -/
theorem ranked_iff (hmono : ∀ v w, v ≤ w → valueToBucket v ≤ valueToBucket w) {rank : Nat}
    (hrank : 1 ≤ rank) {v : UInt64} (hv : ranked values rank = some v) (bucket : Nat) :
    valueToBucket v ≤ bucket ↔ rank ≤ upTo valueToBucket values bucket := by
  have hdown : ∀ a b : UInt64, a ≤ b → decide (valueToBucket b ≤ bucket) = true →
      decide (valueToBucket a ≤ bucket) = true := by
    intro a b hab hb
    exact decide_eq_true ((hmono a b hab).trans (of_decide_eq_true hb))
  have hiff := kthSmallest_iff_le_countP hdown hrank hv
  rwa [decide_eq_true_eq] at hiff

/-- The percentile is the order statistic exactly when the words reach the target in its
bucket first. -/
theorem Summarises.returnsRanked_iff (hs : Summarises valueToBucket h values)
    (hbucket : ∀ v, valueToBucket v < numBuckets)
    (hmono : ∀ v w, v ≤ w → valueToBucket v ≤ valueToBucket w) (hle : percentile ≤ 100) :
    ReturnsRanked valueToBucket h values percentile ↔
      WrappedCountsReach valueToBucket values percentile := by
  have hcount : h.totalCount ≠ 0 ↔ values.length % 2 ^ 64 ≠ 0 := by
    rw [← hs.count, Ne, Ne, ← UInt64.toNat_inj, UInt64.toNat_zero]
  refine exists_congr fun v => and_congr_right fun hv => ?_
  rw [getPercentile_eq_iff, hs.scan_eq_some_iff _ 0 0 (by simp), hcount,
    hs.toNat_targetCount hle]
  constructor
  · rintro ⟨⟨hne, -, -, hreach, hbefore⟩, -⟩
    exact ⟨hne, hreach, fun i hi => hbefore i (Nat.zero_le i) hi⟩
  · rintro ⟨hne, hreach, hbefore⟩
    refine ⟨⟨hne, Nat.zero_le _, hbucket v, hreach, fun i _ hi => hbefore i hi⟩, ?_⟩
    exact fun u _ hleast => hmono u v (hleast v (mem_of_kthSmallest hv))

/-- As long as the counters have not come round, that is when both ranks fall into one
bucket. -/
theorem wrappedCountsReach_iff_sharedBucket
    (hmono : ∀ v w, v ≤ w → valueToBucket v ≤ valueToBucket w) (hne : values ≠ [])
    (hp : 0 < percentile) (hle : percentile ≤ 100) (hlen : values.length < 2 ^ 64) :
    WrappedCountsReach valueToBucket values percentile ↔
      SharedBucket valueToBucket values percentile := by
  have hmod : values.length % 2 ^ 64 = values.length := Nat.mod_eq_of_lt hlen
  have hupTo : ∀ i, upTo valueToBucket values i % 2 ^ 64 = upTo valueToBucket values i :=
    fun i => Nat.mod_eq_of_lt (lt_of_le_of_lt (upTo_le i) hlen)
  obtain ⟨hone, hmax⟩ := rank_mem hne hp hle
  have hfloor := Nat.floor_le_ceil ((values.length : ℚ) * percentile / 100)
  refine exists_congr fun v => and_congr_right fun hv => ?_
  have hreach : ⌈(values.length : ℚ) * percentile / 100⌉₊ ≤
      upTo valueToBucket values (valueToBucket v) :=
    (ranked_iff hmono hone hv _).mp (le_refl _)
  simp only [hmod, hupTo]
  have hlength : values.length ≠ 0 := (List.length_pos_iff.mpr hne).ne'
  by_cases hzero : ⌊(values.length : ℚ) * percentile / 100⌋₊ = 0
  · rw [if_pos hzero, hzero]
    constructor
    · rintro ⟨-, -, hbefore⟩
      by_contra hbucket
      exact Nat.not_lt_zero _ (hbefore 0 (Nat.pos_of_ne_zero hbucket))
    · intro hbucket
      exact ⟨hlength, Nat.zero_le _, fun i hi => absurd hi (by omega)⟩
  · have hrank : 1 ≤ ⌊(values.length : ℚ) * percentile / 100⌋₊ := Nat.pos_of_ne_zero hzero
    obtain ⟨u, hu⟩ := exists_kthSmallest (r := fun a b : UInt64 => a ≤ b) hrank
      (hfloor.trans hmax)
    have hbelow : valueToBucket u ≤ valueToBucket v :=
      hmono u v (kthSmallest_mono hrank hfloor hu hv)
    rw [if_neg hzero]
    constructor
    · rintro ⟨-, -, hbefore⟩
      refine ⟨u, hu, le_antisymm hbelow (le_of_not_gt fun hlt => ?_)⟩
      exact absurd (hbefore _ hlt) (not_lt.mpr ((ranked_iff hmono hrank hu _).mp (le_refl _)))
    · rintro ⟨u', hu', hshared⟩
      obtain rfl : u' = u := Option.some.inj (hu'.symm.trans hu)
      refine ⟨hlength, hfloor.trans hreach, fun i hi => ?_⟩
      rw [← not_le, ← ranked_iff hmono hrank hu, not_le, hshared]
      exact hi

end Ranks

/-- A percentile of the values recorded since a reset is the order statistic exactly when
the truncated rank and the rank rounded up fall into one bucket; and it never falls as
the percentile grows. -/
theorem returnsRanked_iff_ranksAgree {numBuckets : Nat} (valueToBucket : UInt64 → Nat)
    (hbucket : ∀ v, valueToBucket v < numBuckets)
    (hmono : ∀ v w, v ≤ w → valueToBucket v ≤ valueToBucket w)
    (h : LockFreeHistogram numBuckets) (values : List UInt64) (hne : values ≠ [])
    (percentile : ℚ) (hp : 0 < percentile) (hle : percentile ≤ 100) :
    (ReturnsRanked valueToBucket (values.foldl (record valueToBucket) h.reset) values percentile ↔
      RanksAgree valueToBucket values percentile) ∧
    ∀ percentile', percentile ≤ percentile' → percentile' ≤ 100 →
      ∀ bucketToValue : Nat → UInt64, (∀ i j, i ≤ j → bucketToValue i ≤ bucketToValue j) →
        (values.foldl (record valueToBucket) h.reset).getPercentile bucketToValue percentile ≤
          (values.foldl (record valueToBucket) h.reset).getPercentile bucketToValue
            percentile' := by
  have hs := summarises_foldl_record valueToBucket h values
  constructor
  · rw [hs.returnsRanked_iff hbucket hmono hle, RanksAgree]
    split
    · rename_i hlen
      exact wrappedCountsReach_iff_sharedBucket hmono hne hp hle hlen
    · rfl
  · intro percentile' hpp hle' bucketToValue hvalue
    exact hs.getPercentile_mono hbucket (Nat.zero_lt_of_lt (hbucket 0)) hpp hle' hvalue

/-- `value_to_bucket` with exact logarithms: ten buckets for each power of two. -/
def logBucket (numBuckets : Nat) (value : UInt64) : Nat :=
  if value = 0 then 0 else min (Nat.log 2 (value.toNat ^ 10)) (numBuckets - 1)

theorem logBucket_lt {numBuckets : Nat} (hpos : 0 < numBuckets) (v : UInt64) :
    logBucket numBuckets v < numBuckets := by
  unfold logBucket
  split <;> omega

theorem logBucket_mono (numBuckets : Nat) {v w : UInt64} (hle : v ≤ w) :
    logBucket numBuckets v ≤ logBucket numBuckets w := by
  unfold logBucket
  split
  · exact Nat.zero_le _
  · rename_i hv
    have hw : w ≠ 0 := by
      rintro rfl
      exact hv (UInt64.le_zero_iff.mp hle)
    rw [if_neg hw]
    refine min_le_min_right _ (Nat.log_mono_right ?_)
    exact Nat.pow_le_pow_left (UInt64.le_iff_toNat_le.mp hle) 10

theorem returnsRanked_iff_ranksAgree_median :
    (ReturnsRanked (logBucket 1000)
        ([150, 2000].foldl (record (logBucket 1000)) (construct 1000).reset) [150, 2000] 50 ↔
      RanksAgree (logBucket 1000) [150, 2000] 50) ∧
    ([150, 2000].foldl (record (logBucket 1000)) (construct 1000).reset).getPercentile
        (fun _ => 1) 50 ≤
      ([150, 2000].foldl (record (logBucket 1000)) (construct 1000).reset).getPercentile
        (fun _ => 1) 99 := by
  have hboth := returnsRanked_iff_ranksAgree (logBucket 1000) (logBucket_lt (by norm_num))
    (fun _ _ => logBucket_mono 1000) (construct 1000) [150, 2000] (List.cons_ne_nil _ _) 50
    (by norm_num) (by norm_num)
  exact ⟨hboth.1, hboth.2 99 (by norm_num) (by norm_num) _ fun _ _ _ => UInt64.le_refl _⟩

/-- The median of a single latency of 150 nanoseconds is the value of the first bucket, not
of its own. -/
theorem singleLatency_not_returnsRanked :
    ¬ ReturnsRanked (logBucket 1000) ([150].foldl (record (logBucket 1000))
        (construct 1000).reset) [150] 50 ∧
      (∀ bucketToValue, ([150].foldl (record (logBucket 1000))
        (construct 1000).reset).getPercentile bucketToValue 50 = bucketToValue 0) ∧
      logBucket 1000 150 = 72 := by
  have hs := summarises_foldl_record (logBucket 1000) (construct 1000) [150]
  have hbucket : logBucket 1000 150 = 72 := by decide +kernel
  have hcount : ([150].foldl (record (logBucket 1000)) (construct 1000).reset).totalCount ≠ 0 := by
    intro hzero
    have hone := hs.count
    rw [hzero] at hone
    cases hone
  have htarget : (([150].foldl (record (logBucket 1000))
      (construct 1000).reset).targetCount 50).toNat = 0 := by
    rw [hs.toNat_targetCount (by norm_num)]
    norm_num
  have hfirst : ∀ bucketToValue, ([150].foldl (record (logBucket 1000))
      (construct 1000).reset).getPercentile bucketToValue 50 = bucketToValue 0 := by
    refine (getPercentile_eq_iff 0).mpr ⟨hcount, (hs.scan_eq_some_iff _ 0 0 (by simp) 0).mpr ?_⟩
    exact ⟨le_refl 0, by norm_num, by omega, fun j _ hj => absurd hj (Nat.not_lt_zero j)⟩
  refine ⟨?_, hfirst, hbucket⟩
  rintro ⟨v, hv, hall, -⟩
  obtain rfl : v = 150 := List.mem_singleton.mp (mem_of_kthSmallest hv)
  have hpoint := hall fun i => if i = 0 then 1 else 0
  rw [hfirst, hbucket] at hpoint
  cases hpoint

end OrderbookEngine.LockFreeHistogram
