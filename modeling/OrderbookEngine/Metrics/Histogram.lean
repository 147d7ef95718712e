import Mathlib.Tactic

/-!
# The latency histogram

`LockFreeHistogram<NUM_BUCKETS>` counts values in buckets and keeps their number,
their sum and their extremes in words that wrap. Values are recorded one after
another, and the bucket of a value and the value of a bucket are any functions.
-/

namespace OrderbookEngine

/-- The members of `LockFreeHistogram<NUM_BUCKETS>`. -/
structure LockFreeHistogram (numBuckets : Nat) where
  buckets : Vector UInt64 numBuckets
  minValue : UInt64
  maxValue : UInt64
  totalCount : UInt64
  totalSum : UInt64
  deriving DecidableEq

namespace LockFreeHistogram

/-- `UINT64_MAX`. -/
def uint64Max : UInt64 := 0xFFFFFFFFFFFFFFFF

variable {numBuckets : Nat}

/-- The histogram of the constructor. -/
def construct (numBuckets : Nat) : LockFreeHistogram numBuckets where
  buckets := .replicate numBuckets 0
  minValue := uint64Max
  maxValue := 0
  totalCount := 0
  totalSum := 0

/-- `reset`. -/
def reset (_ : LockFreeHistogram numBuckets) : LockFreeHistogram numBuckets where
  buckets := .replicate numBuckets 0
  minValue := uint64Max
  maxValue := 0
  totalCount := 0
  totalSum := 0

/-- The part of `record` that counts the value in its bucket. -/
def count (valueToBucket : UInt64 → Nat) (h : LockFreeHistogram numBuckets) (value : UInt64) :
    Vector UInt64 numBuckets :=
  let bucket := valueToBucket value
  if hb : bucket < numBuckets then h.buckets.set bucket (h.buckets[bucket] + 1) hb else h.buckets

/-- `record`; without another thread the first exchange of each loop succeeds. -/
def record (valueToBucket : UInt64 → Nat) (h : LockFreeHistogram numBuckets) (value : UInt64) :
    LockFreeHistogram numBuckets where
  buckets := h.count valueToBucket value
  minValue := if value < h.minValue then value else h.minValue
  maxValue := if value > h.maxValue then value else h.maxValue
  totalCount := h.totalCount + 1
  totalSum := h.totalSum + value

/-- The loop of `get_percentile` from bucket `i` on: the bucket it returns at. -/
def scan (h : LockFreeHistogram numBuckets) (targetCount : UInt64) (i : Nat)
    (cumulative : UInt64) : Option Nat :=
  if hi : i < numBuckets then
    let cumulative := cumulative + h.buckets[i]
    if cumulative ≥ targetCount then some i else h.scan targetCount (i + 1) cumulative
  else none
termination_by numBuckets - i

/-- The target of `get_percentile`, a product that is truncated to a word. -/
def targetCount (h : LockFreeHistogram numBuckets) (percentile : ℚ) : UInt64 :=
  (⌊(h.totalCount.toNat : ℚ) * percentile / 100⌋₊).toUInt64

/-- `get_percentile`. -/
def getPercentile (bucketToValue : Nat → UInt64) (h : LockFreeHistogram numBuckets)
    (percentile : ℚ) : UInt64 :=
  if h.totalCount = 0 then 0
  else
    match h.scan (h.targetCount percentile) 0 0 with
    | some i => bucketToValue i
    | none => h.maxValue

/-- `get_average`. -/
def getAverage (h : LockFreeHistogram numBuckets) : ℚ :=
  if h.totalCount = 0 then 0 else (h.totalSum.toNat : ℚ) / h.totalCount.toNat

/-- `get_min`. -/
def getMin (h : LockFreeHistogram numBuckets) : UInt64 :=
  if h.minValue = uint64Max then 0 else h.minValue

/-- `get_max`. -/
def getMax (h : LockFreeHistogram numBuckets) : UInt64 := h.maxValue

/-- The sum of values as integers. -/
def exactSum (values : List UInt64) : Nat := (values.map UInt64.toNat).sum

/-- The words of a histogram are those of the values recorded since its reset. -/
structure Summarises (valueToBucket : UInt64 → Nat) (h : LockFreeHistogram numBuckets)
    (values : List UInt64) : Prop where
  buckets : ∀ i (hi : i < numBuckets),
    h.buckets[i].toNat = values.countP (valueToBucket · = i) % 2 ^ 64
  count : h.totalCount.toNat = values.length % 2 ^ 64
  sum : h.totalSum.toNat = exactSum values % 2 ^ 64
  min_le : ∀ v ∈ values, h.minValue ≤ v
  min_mem : h.minValue ∈ values ∨ h.minValue = uint64Max
  le_max : ∀ v ∈ values, v ≤ h.maxValue
  max_mem : h.maxValue ∈ values ∨ h.maxValue = 0

variable {valueToBucket : UInt64 → Nat} {h : LockFreeHistogram numBuckets} {values : List UInt64}

theorem le_uint64Max (v : UInt64) : v ≤ uint64Max := by
  have hv := v.toNat_lt
  have hmax : uint64Max.toNat = 2 ^ 64 - 1 := rfl
  rw [UInt64.le_iff_toNat_le]
  omega

theorem summarises_reset (h : LockFreeHistogram numBuckets) :
    Summarises valueToBucket h.reset [] where
  buckets i hi := by simp [reset]
  count := rfl
  sum := rfl
  min_le := nofun
  min_mem := Or.inr rfl
  le_max := nofun
  max_mem := Or.inr rfl

/-- Counting a value raises the count of its bucket alone. -/
theorem getElem_count (value : UInt64) {i : Nat} (hi : i < numBuckets) :
    (h.count valueToBucket value)[i] =
      if valueToBucket value = i then h.buckets[i] + 1 else h.buckets[i] := by
  simp only [count]
  split
  · rw [Vector.getElem_set]
    split
    · rename_i heq
      subst heq
      rfl
    · rfl
  · rename_i hout
    rw [if_neg (by omega)]

/-- Recording a value adds it to the summary. -/
theorem Summarises.record (hs : Summarises valueToBucket h values) (value : UInt64) :
    Summarises valueToBucket (h.record valueToBucket value) (values ++ [value]) where
  buckets i hi := by
    have hold := hs.buckets i hi
    simp only [LockFreeHistogram.record, getElem_count, List.countP_append,
      List.countP_singleton, decide_eq_true_eq]
    split
    · rw [UInt64.toNat_add, hold, UInt64.toNat_one, Nat.mod_add_mod]
    · exact hold
  count := by
    simp only [LockFreeHistogram.record, UInt64.toNat_add, hs.count, UInt64.toNat_one,
      Nat.mod_add_mod, List.length_append, List.length_singleton]
  sum := by
    simp only [LockFreeHistogram.record, exactSum, UInt64.toNat_add, hs.sum, Nat.mod_add_mod,
      List.map_append, List.sum_append, List.map_cons, List.map_nil, List.sum_singleton]
  min_le v hv := by
    simp only [LockFreeHistogram.record]
    rcases List.mem_append.mp hv with hv | hv
    · split
      · rename_i hlt
        exact UInt64.le_trans (UInt64.le_of_lt hlt) (hs.min_le v hv)
      · exact hs.min_le v hv
    · rw [List.mem_singleton.mp hv]
      split
      · exact UInt64.le_refl _
      · rename_i hnot
        exact UInt64.not_lt.mp hnot
  min_mem := by
    simp only [LockFreeHistogram.record]
    split
    · exact Or.inl (List.mem_append_right _ List.mem_cons_self)
    · exact hs.min_mem.imp (List.mem_append_left _) id
  le_max v hv := by
    simp only [LockFreeHistogram.record]
    rcases List.mem_append.mp hv with hv | hv
    · split
      · rename_i hlt
        exact UInt64.le_trans (hs.le_max v hv) (UInt64.le_of_lt hlt)
      · exact hs.le_max v hv
    · rw [List.mem_singleton.mp hv]
      split
      · exact UInt64.le_refl _
      · rename_i hnot
        exact UInt64.not_lt.mp hnot
  max_mem := by
    simp only [LockFreeHistogram.record]
    split
    · exact Or.inl (List.mem_append_right _ List.mem_cons_self)
    · exact hs.max_mem.imp (List.mem_append_left _) id

/-- So does recording several. -/
theorem Summarises.records (hs : Summarises valueToBucket h values) (more : List UInt64) :
    Summarises valueToBucket (more.foldl (LockFreeHistogram.record valueToBucket) h)
      (values ++ more) := by
  induction more generalizing h values with
  | nil => rwa [List.append_nil]
  | cons v more ih =>
    have hmore := ih (hs.record v)
    rwa [List.append_assoc] at hmore

/-- The values recorded since a reset are summarised. -/
theorem summarises_foldl_record (valueToBucket : UInt64 → Nat)
    (h : LockFreeHistogram numBuckets) (values : List UInt64) :
    Summarises valueToBucket (values.foldl (record valueToBucket) h.reset) values :=
  (summarises_reset h).records values

end LockFreeHistogram

end OrderbookEngine
