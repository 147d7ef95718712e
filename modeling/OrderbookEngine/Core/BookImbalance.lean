import OrderbookEngine.Core.OrderBookRefinement

/-!
# The imbalance of a book

`get_book_imbalance` adds quantities in 64 bits, subtracts the two volumes as signed
words and divides by their sum. What wraps away from the difference and from the sum
has to be in the ratio of the two for the quotient to be right.
-/

namespace OrderbookEngine.OrderBook

open Prog LastWrite

/-- The exact quantity that the given slots hold. -/
def volumeOf (m : Memory Cell) (side : Side) (slots : List Nat) : Nat :=
  ((levelsOf m side slots).map fun level => level.2.1.toNat).sum

/-- The exact quantity that a side holds. -/
def volume (maxLevels : Nat) (m : Memory Cell) (side : Side) : Nat :=
  ((liveLevels maxLevels m side).map fun level => level.2.1.toNat).sum

/-- The imbalance of two exact volumes. -/
def exactImbalance (bidVol askVol : Nat) : ℚ :=
  if bidVol + askVol = 0 then 0 else ((bidVol : ℚ) - askVol) / (bidVol + askVol)

/-- How often the sum of the volumes leaves the range of `uint64_t`. -/
def sumWraps (bidVol askVol : Nat) : Nat := (bidVol + askVol) / 2 ^ 64

/-- How often their difference leaves the range of `int64_t`, and to which side. -/
def diffWraps (bidVol askVol : Nat) : Int := ((bidVol : Int) - askVol + 2 ^ 63) / 2 ^ 64

/-- The volumes are equal, or their sum does not wrap to zero and what wraps away from
their difference and their sum is in the ratio of the two; so it is when neither wraps. -/
def KeepsRatio (bidVol askVol : Nat) : Prop :=
  bidVol = askVol ∨ ¬ 2 ^ 64 ∣ bidVol + askVol ∧
    diffWraps bidVol askVol * (bidVol + askVol) = sumWraps bidVol askVol * (bidVol - askVol)

/-- `get_book_imbalance` returns the exact imbalance, which lies between -1 and 1 and has
the sign of the difference. -/
def ImbalanceExact (maxLevels : Nat) (m : Memory Cell) : Prop :=
  let bidVol := volume maxLevels m .bid
  let askVol := volume maxLevels m .ask
  let result := ((getBookImbalance maxLevels).run m).1
  result = exactImbalance bidVol askVol ∧ -1 ≤ result ∧ result ≤ 1 ∧
    (0 < result ↔ askVol < bidVol) ∧ (result < 0 ↔ bidVol < askVol)

variable {maxLevels : Nat} {m : Memory Cell} {side : Side} {bidVol askVol : Nat}

section Volumes

theorem volumeOf_cons (m : Memory Cell) (side : Side) (i : Nat) (slots : List Nat) :
    volumeOf m side (i :: slots) =
      (if m (.level side i .price) = 0 then 0 else (m (.level side i .quantity)).toNat) +
        volumeOf m side slots := by
  rw [volumeOf, levelsOf_cons]
  split
  · rw [Nat.zero_add]
    rfl
  · rw [List.map_cons, List.sum_cons]
    rfl

theorem run_addVolume (side : Side) (i : Nat) (total : UInt64) (m : Memory Cell) :
    (addVolume side i total).run m = (total + UInt64.ofNat
      (if m (.level side i .price) = 0 then 0 else (m (.level side i .quantity)).toNat), m) := by
  simp only [addVolume, run_bind, run_load]
  by_cases hfree : m (.level side i .price) = 0
  · simp [hfree]
  · have hpos : m (.level side i .price) > 0 := UInt64.pos_iff_ne_zero.mpr hfree
    simp [hfree, hpos]

/-- The loop adds the exact volumes modulo `2 ^ 64`. -/
theorem run_volumeLoop (n start : Nat) (totalBidVol totalAskVol : UInt64) (m : Memory Cell) :
    (volumeLoop n start totalBidVol totalAskVol).run m =
      ((totalBidVol + UInt64.ofNat (volumeOf m .bid (List.range' start n)),
        totalAskVol + UInt64.ofNat (volumeOf m .ask (List.range' start n))), m) := by
  induction n generalizing start totalBidVol totalAskVol with
  | zero => simp [volumeLoop, volumeOf, levelsOf]
  | succ n ih =>
    simp only [volumeLoop, run_bind, run_addVolume, ih, List.range'_succ, volumeOf_cons,
      UInt64.ofNat_add, UInt64.add_assoc]

theorem run_getBookImbalance (maxLevels : Nat) (m : Memory Cell) :
    (getBookImbalance maxLevels).run m =
      (imbalance (UInt64.ofNat (volume maxLevels m .bid)) (UInt64.ofNat (volume maxLevels m .ask)),
        m) := by
  simp only [getBookImbalance, run_bind, run_volumeLoop, UInt64.zero_add, ← List.range_eq_range']
  rfl

end Volumes

section Wrapping

theorem ofNat_eq_zero_iff (n : Nat) : UInt64.ofNat n = 0 ↔ 2 ^ 64 ∣ n := by
  rw [← UInt64.toNat_inj, UInt64.toNat_ofNat', Nat.dvd_iff_mod_eq_zero]
  rfl

/-- The signed difference of two words, and what wrapped away from the exact one. -/
theorem toInt_diff (bidVol askVol : Nat) :
    ((UInt64.ofNat bidVol).toInt64 - (UInt64.ofNat askVol).toInt64).toInt =
      (bidVol : Int) - askVol - 2 ^ 64 * diffWraps bidVol askVol := by
  rw [UInt64.toInt64_ofNat', UInt64.toInt64_ofNat', Int64.toInt_sub, Int64.toInt_ofNat',
    Int64.toInt_ofNat', ← Int.sub_bmod, diffWraps, Int.bmod_def]
  have hsize : (Int64.size : Int) = 18446744073709551616 := rfl
  rw [hsize]
  norm_num only
  split <;> omega

theorem exactImbalance_bounds (bidVol askVol : Nat) :
    -1 ≤ exactImbalance bidVol askVol ∧ exactImbalance bidVol askVol ≤ 1 ∧
      (0 < exactImbalance bidVol askVol ↔ askVol < bidVol) ∧
      (exactImbalance bidVol askVol < 0 ↔ bidVol < askVol) := by
  by_cases hempty : bidVol + askVol = 0
  · have hbid : bidVol = 0 := by omega
    have hask : askVol = 0 := by omega
    simp [exactImbalance, hbid, hask]
  · have hpos : (0 : ℚ) < bidVol + askVol := by exact_mod_cast Nat.pos_of_ne_zero hempty
    rw [exactImbalance, if_neg hempty]
    refine ⟨?_, ?_, ?_, ?_⟩
    · rw [le_div_iff₀ hpos]
      linarith [(Nat.cast_nonneg bidVol : (0 : ℚ) ≤ bidVol)]
    · rw [div_le_one hpos]
      linarith [(Nat.cast_nonneg askVol : (0 : ℚ) ≤ askVol)]
    · rw [div_pos_iff_of_pos_right hpos, sub_pos, Nat.cast_lt]
    · rw [div_lt_iff₀ hpos, zero_mul, sub_neg, Nat.cast_lt]

theorem exactImbalance_eq_zero_iff (bidVol askVol : Nat) :
    exactImbalance bidVol askVol = 0 ↔ bidVol = askVol := by
  obtain ⟨-, -, hpos, hneg⟩ := exactImbalance_bounds bidVol askVol
  constructor
  · intro h
    rw [h] at hpos hneg
    have hle := not_lt.mp fun hlt => lt_irrefl _ (hpos.mpr hlt)
    have hge := not_lt.mp fun hlt => lt_irrefl _ (hneg.mpr hlt)
    exact le_antisymm hle hge
  · rintro rfl
    exact le_antisymm (not_lt.mp fun h => lt_irrefl _ (hpos.mp h))
      (not_lt.mp fun h => lt_irrefl _ (hneg.mp h))

/-- The imbalance of the wrapped volumes is exact when the wrapping keeps the ratio. -/
theorem imbalance_eq_iff (bidVol askVol : Nat) :
    imbalance (UInt64.ofNat bidVol) (UInt64.ofNat askVol) = exactImbalance bidVol askVol ↔
      KeepsRatio bidVol askVol := by
  have hsum : UInt64.ofNat bidVol + UInt64.ofNat askVol = UInt64.ofNat (bidVol + askVol) :=
    (UInt64.ofNat_add ..).symm
  by_cases hwrap : 2 ^ 64 ∣ bidVol + askVol
  · rw [imbalance, hsum, if_pos ((ofNat_eq_zero_iff _).mpr hwrap), eq_comm,
      exactImbalance_eq_zero_iff, KeepsRatio, or_iff_left fun h => h.1 hwrap]
  · have hpos : bidVol + askVol ≠ 0 := fun h => hwrap (h ▸ dvd_zero _)
    have hmod : (bidVol + askVol) % 2 ^ 64 ≠ 0 := fun h => hwrap (Nat.dvd_of_mod_eq_zero h)
    have hkeeps : KeepsRatio bidVol askVol ↔ diffWraps bidVol askVol * (bidVol + askVol) =
        sumWraps bidVol askVol * (bidVol - askVol) := by
      rw [KeepsRatio, and_iff_right hwrap, or_iff_right_iff_imp]
      rintro rfl
      rw [diffWraps, sub_self]
      norm_num
    have hwrapped : (((bidVol + askVol) % 2 ^ 64 : Nat) : ℚ) =
        bidVol + askVol - 2 ^ 64 * sumWraps bidVol askVol := by
      have hdiv := Nat.mod_add_div (bidVol + askVol) (2 ^ 64)
      rw [sumWraps, eq_sub_iff_add_eq]
      exact_mod_cast hdiv
    have hsumQ : ((bidVol : ℚ) + askVol) ≠ 0 := by exact_mod_cast hpos
    rw [imbalance, hsum, if_neg fun h => hwrap ((ofNat_eq_zero_iff _).mp h), exactImbalance,
      if_neg hpos, hkeeps]
    simp only [toInt_diff, UInt64.toNat_ofNat']
    rw [div_eq_div_iff (by exact_mod_cast hmod) hsumQ, hwrapped]
    -- both sides lose the product of difference and sum
    have hcast : ((diffWraps bidVol askVol * (bidVol + askVol) : Int) : ℚ) =
        (sumWraps bidVol askVol * (bidVol - askVol) : Int) ↔
        diffWraps bidVol askVol * (bidVol + askVol) =
          sumWraps bidVol askVol * ((bidVol : Int) - askVol) := Int.cast_inj
    rw [← hcast]
    push_cast
    constructor
    · intro h
      linarith
    · intro h
      linarith

/-- Volumes that together stay below `2 ^ 63` do not wrap. -/
theorem keepsRatio_of_lt (h : bidVol + askVol < 2 ^ 63) : KeepsRatio bidVol askVol := by
  by_cases heq : bidVol = askVol
  · exact Or.inl heq
  · have hdiff : diffWraps bidVol askVol = 0 := Int.ediv_eq_zero_of_lt (by omega) (by omega)
    have hsum : sumWraps bidVol askVol = 0 := Nat.div_eq_of_lt (by omega)
    refine Or.inr ⟨fun hdvd => ?_, ?_⟩
    · have hle := Nat.le_of_dvd (by omega) hdvd
      omega
    · rw [hdiff, hsum, zero_mul, Nat.cast_zero, zero_mul]

end Wrapping

/-- The imbalance of a book after any calls is exact exactly when wrapping keeps the ratio
of difference and sum. -/
theorem imbalanceExact_iff_keepsRatio (maxLevels : Nat) (calls : List Call) :
    ImbalanceExact maxLevels (bookAfter maxLevels calls) ↔
      KeepsRatio (volume maxLevels (bookAfter maxLevels calls) .bid)
        (volume maxLevels (bookAfter maxLevels calls) .ask) := by
  simp only [ImbalanceExact, run_getBookImbalance]
  rw [← imbalance_eq_iff]
  refine ⟨And.left, fun h => ⟨h, ?_⟩⟩
  rw [h]
  exact exactImbalance_bounds _ _

/-- A single bid of `2 ^ 63`. -/
def largeBid : List Call := [.update ⟨.bid, 1, 0x8000000000000000, 1, 0⟩]

/-- A book with bids only reports the imbalance of a book with asks only. -/
theorem imbalanceExact_fails :
    ¬ ∀ (maxLevels : Nat) (calls : List Call),
      ImbalanceExact maxLevels (bookAfter maxLevels calls) := by
  intro h
  have hbid : volume 1 (bookAfter 1 largeBid) .bid = 2 ^ 63 := by decide +kernel
  have hask : volume 1 (bookAfter 1 largeBid) .ask = 0 := by decide +kernel
  obtain ⟨hexact, -⟩ := h 1 largeBid
  rw [run_getBookImbalance, hbid, hask, imbalance_eq_iff] at hexact
  revert hexact
  norm_num [KeepsRatio, diffWraps, sumWraps]

end OrderbookEngine.OrderBook
