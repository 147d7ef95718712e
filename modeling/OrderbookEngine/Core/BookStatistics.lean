import OrderbookEngine.Core.BookImbalance
import OrderbookEngine.Core.OrderBookBest

/-!
# The statistics of a book

`get_statistics` goes over the slots once more than `get_spread`, `get_mid_price` and
`get_book_imbalance` do, and counts and adds what a snapshot of all levels shows.
-/

namespace OrderbookEngine

/-- `OrderBookStatistics`; the doubles are exact. -/
structure OrderBookStatistics where
  spread : ℚ
  midPrice : ℚ
  bookImbalance : ℚ
  totalBidVolume : UInt64
  totalAskVolume : UInt64
  bidDepth : UInt32
  askDepth : UInt32
  timestamp : UInt64
  deriving DecidableEq

namespace OrderBook

open Prog

/-- What a slot adds to the volume and the depth of its side. -/
def addLevel (side : Side) (i : Nat) (total : UInt64 × UInt32) : Prog Cell (UInt64 × UInt32) := do
  let price ← load (.level side i .price)
  if price > 0 then
    let quantity ← load (.level side i .quantity)
    return (total.1 + quantity, total.2 + 1)
  else return total

/-- The loop of `get_statistics` over the remaining slots. -/
def statisticsLoop : Nat → Nat → UInt64 × UInt32 → UInt64 × UInt32 →
    Prog Cell ((UInt64 × UInt32) × (UInt64 × UInt32))
  | 0, _, bids, asks => return (bids, asks)
  | remaining + 1, i, bids, asks => do
    let bids ← addLevel .bid i bids
    let asks ← addLevel .ask i asks
    statisticsLoop remaining (i + 1) bids asks

/-- `get_statistics`. -/
def getStatistics (maxLevels : Nat) (timestamp : UInt64) : Prog Cell OrderBookStatistics := do
  let spread ← getSpread
  let midPrice ← getMidPrice
  let bookImbalance ← getBookImbalance maxLevels
  let (bids, asks) ← statisticsLoop maxLevels 0 (0, 0) (0, 0)
  return { spread := spread, midPrice := midPrice, bookImbalance := bookImbalance,
           totalBidVolume := bids.1, totalAskVolume := asks.1, bidDepth := bids.2,
           askDepth := asks.2, timestamp := timestamp }

/-- The volume and the number of the levels that a snapshot shows on a side. -/
def shown (levels : List (PriceLevelSnapshot UInt64)) : UInt64 × UInt32 :=
  (UInt64.ofNat (levels.map fun level => level.quantity.toNat).sum, UInt32.ofNat levels.length)

/-- The statistics count and add what the snapshot shows. -/
structure Summarises (m : Memory Cell) (stats : OrderBookStatistics)
    (snapshot : OrderBookSnapshot) : Prop where
  bids : (stats.totalBidVolume, stats.bidDepth) = shown snapshot.bids
  asks : (stats.totalAskVolume, stats.askDepth) = shown snapshot.asks
  best : stats.spread = (getSpread.run m).1 ∧ stats.midPrice = (getMidPrice.run m).1 ∧
    AgreesWith m snapshot
  imbalance : stats.bookImbalance = imbalance stats.totalBidVolume stats.totalAskVolume

variable {maxLevels : Nat} {m : Memory Cell} {side : Side}

/-- The volume and the depth with those of the given slots added. -/
def withSlots (m : Memory Cell) (side : Side) (slots : List Nat) (total : UInt64 × UInt32) :
    UInt64 × UInt32 :=
  (total.1 + UInt64.ofNat (volumeOf m side slots),
    total.2 + UInt32.ofNat (levelsOf m side slots).length)

theorem withSlots_cons (m : Memory Cell) (side : Side) (i : Nat) (slots : List Nat)
    (total : UInt64 × UInt32) : withSlots m side (i :: slots) total =
      withSlots m side slots (withSlots m side [i] total) := by
  by_cases hfree : m (.level side i .price) = 0
  · simp [withSlots, hfree, volumeOf, levelsOf]
  · simp only [withSlots, volumeOf_cons, levelsOf_cons, if_neg hfree, List.length_cons,
      UInt64.ofNat_add, UInt32.ofNat_add, Prod.mk.injEq]
    simp only [volumeOf, levelsOf, List.filter_nil, List.map_nil, List.sum_nil, List.length_nil]
    constructor
    · ac_rfl
    · ac_rfl

theorem run_addLevel (side : Side) (i : Nat) (total : UInt64 × UInt32) (m : Memory Cell) :
    (addLevel side i total).run m = (withSlots m side [i] total, m) := by
  simp only [addLevel, run_bind, run_load]
  by_cases hfree : m (.level side i .price) = 0
  · simp [hfree, withSlots, volumeOf, levelsOf]
  · have hpos : m (.level side i .price) > 0 := UInt64.pos_iff_ne_zero.mpr hfree
    simp [hfree, hpos, withSlots, volumeOf, levelsOf, levelAt]

/-- The loop adds what is in the slots. -/
theorem run_statisticsLoop (n start : Nat) (bids asks : UInt64 × UInt32) (m : Memory Cell) :
    (statisticsLoop n start bids asks).run m =
      ((withSlots m .bid (List.range' start n) bids,
        withSlots m .ask (List.range' start n) asks), m) := by
  induction n generalizing start bids asks with
  | zero => simp [statisticsLoop, withSlots, volumeOf, levelsOf]
  | succ n ih =>
    simp only [statisticsLoop, run_bind, run_addLevel, ih, List.range'_succ]
    rw [withSlots_cons m .bid start (List.range' (start + 1) n),
      withSlots_cons m .ask start (List.range' (start + 1) n)]

/-- The levels of a snapshot that is deep enough are all levels of the side. -/
theorem shown_sortedLevels (std : StdChoices) (m : Memory Cell) (side : Side) {depth : Nat}
    (hdepth : maxLevels ≤ depth) :
    shown ((sortedLevels std maxLevels m side).take depth) =
      withSlots m side (List.range maxLevels) (0, 0) := by
  have hperm := levelEntry_sortedLevels_perm std maxLevels m side
  have hlength := hperm.length_eq
  rw [List.length_map] at hlength
  have hle : (liveLevels maxLevels m side).length ≤ maxLevels := length_liveLevels_le m side
  have hsum := (hperm.map fun level => level.2.1.toNat).sum_eq
  rw [List.map_map] at hsum
  rw [List.take_of_length_le (by omega), shown, hlength]
  simp only [withSlots, UInt64.zero_add, UInt32.zero_add, Prod.mk.injEq]
  exact ⟨congrArg UInt64.ofNat hsum, rfl⟩

theorem run_ofBestPrices_snd (value : ℚ → ℚ → ℚ) (m : Memory Cell) :
    ((ofBestPrices value).run m).2 = m := by
  simp only [ofBestPrices, run_bind, run_load]
  split
  · rfl
  · simp

/-- `get_statistics` changes nothing, and agrees with a snapshot of all levels taken when it is:
after any calls, whatever they have done to the book. -/
theorem statistics_summarise (std : StdChoices) {maxLevels : Nat} (hN : maxLevels < 2 ^ 64)
    (calls : List Call) {depth : Nat} (hdepth : max 1 maxLevels ≤ depth)
    (timestamp timestamp' : UInt64) :
    ((getStatistics maxLevels timestamp').run (bookAfter maxLevels calls)).2 =
        bookAfter maxLevels calls ∧
      ∃ snapshot, ((snapshotRound std maxLevels depth timestamp).run
          (bookAfter maxLevels calls)).1 = some snapshot ∧
        Summarises (bookAfter maxLevels calls)
          ((getStatistics maxLevels timestamp').run (bookAfter maxLevels calls)).1 snapshot := by
  obtain ⟨hone, hdepth⟩ := max_le_iff.mp hdepth
  obtain ⟨snapshot, hsnapshot, hagrees⟩ := bestPrices_agree std hN calls hone timestamp
  have hround := run_snapshotRound std maxLevels depth timestamp (even_bookAfter maxLevels calls)
  generalize bookAfter maxLevels calls = m at *
  have hspread : (getSpread.run m).2 = m := run_ofBestPrices_snd ..
  have hmid : (getMidPrice.run m).2 = m := run_ofBestPrices_snd ..
  have hrun : (getStatistics maxLevels timestamp').run m = ({
      spread := (getSpread.run m).1
      midPrice := (getMidPrice.run m).1
      bookImbalance := imbalance (UInt64.ofNat (volume maxLevels m .bid))
        (UInt64.ofNat (volume maxLevels m .ask))
      totalBidVolume := (withSlots m .bid (List.range maxLevels) (0, 0)).1
      totalAskVolume := (withSlots m .ask (List.range maxLevels) (0, 0)).1
      bidDepth := (withSlots m .bid (List.range maxLevels) (0, 0)).2
      askDepth := (withSlots m .ask (List.range maxLevels) (0, 0)).2
      timestamp := timestamp' }, m) := by
    simp only [getStatistics, run_bind, hspread, hmid, run_getBookImbalance, run_statisticsLoop,
      ← List.range_eq_range', run_pure]
  rw [hrun]
  refine ⟨rfl, snapshot, hsnapshot, ?_, ?_, ⟨rfl, rfl, hagrees⟩, ?_⟩
  · rw [hround] at hsnapshot
    cases hsnapshot
    exact (shown_sortedLevels std m .bid hdepth).symm
  · rw [hround] at hsnapshot
    cases hsnapshot
    exact (shown_sortedLevels std m .ask hdepth).symm
  · simp only [withSlots, UInt64.zero_add]
    rfl

/-- After a bid, an ask and a bid that is removed again. -/
theorem statistics_summarise_bidRemoved :
    ((getStatistics 2 1).run (bookAfter 2 [.update ⟨.bid, 5, 1, 1, 0⟩,
        .update ⟨.ask, 7, 1, 1, 0⟩, .update ⟨.bid, 5, 0, 1, 0⟩])).2 =
        bookAfter 2 [.update ⟨.bid, 5, 1, 1, 0⟩, .update ⟨.ask, 7, 1, 1, 0⟩,
          .update ⟨.bid, 5, 0, 1, 0⟩] ∧
      ∃ snapshot, ((snapshotRound .stable 2 2 0).run (bookAfter 2 [.update ⟨.bid, 5, 1, 1, 0⟩,
          .update ⟨.ask, 7, 1, 1, 0⟩, .update ⟨.bid, 5, 0, 1, 0⟩])).1 = some snapshot ∧
        Summarises (bookAfter 2 [.update ⟨.bid, 5, 1, 1, 0⟩, .update ⟨.ask, 7, 1, 1, 0⟩,
            .update ⟨.bid, 5, 0, 1, 0⟩])
          ((getStatistics 2 1).run (bookAfter 2 [.update ⟨.bid, 5, 1, 1, 0⟩,
            .update ⟨.ask, 7, 1, 1, 0⟩, .update ⟨.bid, 5, 0, 1, 0⟩])).1 snapshot :=
  statistics_summarise .stable (by decide) _ (by decide) 0 1

end OrderBook

end OrderbookEngine
