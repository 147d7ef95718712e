import OrderbookEngine.Core.PriceIndexMap
import OrderbookEngine.Library.StdChoices

/-!
# The order book

`OrderBook<MAX_LEVELS>` keeps each side in an array of slots with a price index.
Its operations are programs over the atomic words, one access for each atomic
access of the source, so that the same programs can run alone and interleaved.
Prices and quantities are the fixed-point words that `double_to_fixed` returns.
-/

namespace OrderbookEngine

/-- `OrderBookSnapshot`, its levels in fixed point. -/
structure OrderBookSnapshot where
  symbol : StdString
  exchange : Exchange
  timestamp : UInt64
  sequenceNumber : UInt64
  bids : List (PriceLevelSnapshot UInt64)
  asks : List (PriceLevelSnapshot UInt64)
  deriving DecidableEq, Repr

namespace OrderBook

open Prog

/-- The words of a book after its constructor. -/
def construct : Memory Cell
  | .bestIdx _ => sizeMax
  | .entry _ _ .index => sizeMax
  | _ => 0

/-- The arguments of `update_level` and the clock reading it takes. -/
structure LevelUpdate where
  side : Side
  priceFixed : UInt64
  quantityFixed : UInt64
  orderCount : UInt32
  timestamp : UInt64
  deriving DecidableEq, Repr

/-- `SeqLock::write_lock`. -/
def writeLock : Prog Cell Unit := fetchAdd .sequence 1

/-- `SeqLock::write_unlock`. -/
def writeUnlock : Prog Cell Unit := fetchAdd .sequence 1

/-- The loop of `find_free_slot` over the remaining slots. -/
def findFreeSlotLoop (side : Side) : Nat → Nat → Prog Cell UInt64
  | 0, _ => return sizeMax
  | remaining + 1, i => do
    let price ← load (.level side i .price)
    if price = 0 then return i.toUInt64 else findFreeSlotLoop side remaining (i + 1)

/-- `find_free_slot`. -/
def findFreeSlot (maxLevels : Nat) (side : Side) : Prog Cell UInt64 :=
  findFreeSlotLoop side maxLevels 0

/-- The slot of an update: the one its price has, or a free one that it takes. -/
def findSlot (maxLevels : Nat) (u : LevelUpdate) : Prog Cell (Option UInt64) := do
  match ← PriceIndexMap.find u.side u.priceFixed with
  | some idx => return some idx
  | none =>
    let idx ← findFreeSlot maxLevels u.side
    if idx = sizeMax then return none
    else
      let _ ← PriceIndexMap.insert u.side u.priceFixed idx
      return some idx

/-- The stores of an update to its slot, and the removal of an empty level. -/
def storeLevel (u : LevelUpdate) (idx : UInt64) : Prog Cell Unit := do
  store (.level u.side idx.toNat .price) u.priceFixed
  store (.level u.side idx.toNat .quantity) u.quantityFixed
  store (.level u.side idx.toNat .orderCount) u.orderCount.toUInt64
  store (.level u.side idx.toNat .timestamp) u.timestamp
  if u.quantityFixed = 0 then
    let _ ← PriceIndexMap.remove u.side u.priceFixed
    store (.level u.side idx.toNat .price) 0

/-- The body of `update_level` from the lookup of the price to the last store to
its level. -/
def placeLevel (maxLevels : Nat) (u : LevelUpdate) : Prog Cell Bool := do
  match ← findSlot maxLevels u with
  | none => return false
  | some idx =>
    storeLevel u idx
    return true

/-- Whether a price is better than the best so far. -/
def isBetter (side : Side) (price bestPrice : UInt64) : Bool :=
  match side with
  | .bid => bestPrice = 0 || price > bestPrice
  | .ask => bestPrice = 0 || price < bestPrice

/-- The loop of `update_best_level` over the remaining slots. -/
def bestLevelLoop (side : Side) : Nat → Nat → UInt64 → UInt64 → Prog Cell UInt64
  | 0, _, _, bestIndex => return bestIndex
  | remaining + 1, i, bestPrice, bestIndex => do
    let price ← load (.level side i .price)
    if price > 0 ∧ isBetter side price bestPrice then
      bestLevelLoop side remaining (i + 1) price i.toUInt64
    else bestLevelLoop side remaining (i + 1) bestPrice bestIndex

/-- `update_best_level`. -/
def updateBestLevel (maxLevels : Nat) (side : Side) : Prog Cell Unit := do
  let bestIndex ← bestLevelLoop side maxLevels 0 0 sizeMax
  store (.bestIdx side) bestIndex

/-- What `update_level` does once its level is placed, and the release of the
write guard on both of its returns. -/
def finishUpdate (maxLevels : Nat) (side : Side) (placed : Bool) : Prog Cell Bool := do
  if placed then
    updateBestLevel maxLevels side
    fetchAdd .sequenceNumber 1
    writeUnlock
    return true
  else
    writeUnlock
    return false

/-- `update_level`. -/
def updateLevel (maxLevels : Nat) (u : LevelUpdate) : Prog Cell Bool := do
  writeLock
  let placed ← placeLevel maxLevels u
  finishUpdate maxLevels u.side placed

/-- The stores of `clear` to one slot of a side. -/
def clearLevel (side : Side) (i : Nat) : Prog Cell Unit := do
  store (.level side i .price) 0
  store (.level side i .quantity) 0
  store (.level side i .orderCount) 0
  store (.level side i .timestamp) 0

/-- The loop of `clear` over the remaining slots. -/
def clearLevels : Nat → Nat → Prog Cell Unit
  | 0, _ => return ()
  | remaining + 1, i => do
    clearLevel .bid i
    clearLevel .ask i
    clearLevels remaining (i + 1)

/-- `clear`. -/
def clear (maxLevels : Nat) : Prog Cell Unit := do
  writeLock
  clearLevels maxLevels 0
  PriceIndexMap.clear .bid
  PriceIndexMap.clear .ask
  store (.bestIdx .bid) sizeMax
  store (.bestIdx .ask) sizeMax
  writeUnlock

/-- The loop of `get_snapshot` that collects the prices of a side with their slots. -/
def collectPrices (side : Side) : Nat → Nat → Prog Cell (List (UInt64 × Nat))
  | 0, _ => return []
  | remaining + 1, i => do
    let price ← load (.level side i .price)
    let rest ← collectPrices side remaining (i + 1)
    if price > 0 then return (price, i) :: rest else return rest

/-- The comparator of a side: bids descend, asks ascend. -/
def priceLess : Side → UInt64 × Nat → UInt64 × Nat → Bool
  | .bid => fun a b => decide (a.1 > b.1)
  | .ask => fun a b => decide (a.1 < b.1)

/-- The loop of `get_snapshot` that reads the levels of the chosen slots. -/
def readLevels (side : Side) : List (UInt64 × Nat) → Prog Cell (List (PriceLevelSnapshot UInt64))
  | [] => return []
  | (_, idx) :: rest => do
    let price ← load (.level side idx .price)
    let quantity ← load (.level side idx .quantity)
    let orderCount ← load (.level side idx .orderCount)
    let levels ← readLevels side rest
    return ⟨price, quantity, orderCount.toUInt32⟩ :: levels

/-- The levels that `get_snapshot` reads of one side. -/
def readSide (std : StdChoices) (maxLevels depth : Nat) (side : Side) :
    Prog Cell (List (PriceLevelSnapshot UInt64)) := do
  let prices ← collectPrices side maxLevels 0
  readLevels side ((std.sort (priceLess side) prices).take depth)

/-- What `get_snapshot` reads between `begin` and `retry`. -/
def readBook (std : StdChoices) (maxLevels depth : Nat) (timestamp : UInt64) :
    Prog Cell OrderBookSnapshot := do
  let bids ← readSide std maxLevels depth .bid
  let asks ← readSide std maxLevels depth .ask
  let sequenceNumber ← load .sequenceNumber
  return { symbol := [], exchange := .unknown, timestamp := timestamp,
           sequenceNumber := sequenceNumber, bids := bids, asks := asks }

/-- One round of `get_snapshot`, from a load of `read_begin` to the load of
`read_retry`. It returns no snapshot when the sequence was odd, so that
`read_begin` loads again, or has changed, so that the round is repeated: both
loops go on with the load that starts a round. -/
def snapshotRound (std : StdChoices) (maxLevels depth : Nat) (timestamp : UInt64) :
    Prog Cell (Option OrderBookSnapshot) := do
  let seq ← load .sequence
  if seq &&& 1 ≠ 0 then return none
  else
    let snapshot ← readBook std maxLevels depth timestamp
    let now ← load .sequence
    if now ≠ seq then return none else return some snapshot

/-- What `get_spread` and `get_mid_price` share: the prices of the two cached levels,
and zero when a side has none. -/
def ofBestPrices (value : ℚ → ℚ → ℚ) : Prog Cell ℚ := do
  let bidIdx ← load (.bestIdx .bid)
  let askIdx ← load (.bestIdx .ask)
  if bidIdx = sizeMax ∨ askIdx = sizeMax then return 0
  else
    let bestBid ← load (.level .bid bidIdx.toNat .price)
    let bestAsk ← load (.level .ask askIdx.toNat .price)
    return value (fixedToDouble bestBid) (fixedToDouble bestAsk)

/-- `get_spread`. -/
def getSpread : Prog Cell ℚ := ofBestPrices fun bestBid bestAsk => bestAsk - bestBid

/-- `get_mid_price`. -/
def getMidPrice : Prog Cell ℚ := ofBestPrices fun bestBid bestAsk => (bestBid + bestAsk) / 2

/-- What a level adds to the volume of its side. -/
def addVolume (side : Side) (i : Nat) (total : UInt64) : Prog Cell UInt64 := do
  let price ← load (.level side i .price)
  if price > 0 then
    let quantity ← load (.level side i .quantity)
    return total + quantity
  else return total

/-- The loop of `get_book_imbalance` over the remaining slots. -/
def volumeLoop : Nat → Nat → UInt64 → UInt64 → Prog Cell (UInt64 × UInt64)
  | 0, _, totalBidVol, totalAskVol => return (totalBidVol, totalAskVol)
  | remaining + 1, i, totalBidVol, totalAskVol => do
    let totalBidVol ← addVolume .bid i totalBidVol
    let totalAskVol ← addVolume .ask i totalAskVol
    volumeLoop remaining (i + 1) totalBidVol totalAskVol

/-- The value that `get_book_imbalance` computes from the two volumes; the quotient of
the doubles is taken exactly. -/
def imbalance (totalBidVol totalAskVol : UInt64) : ℚ :=
  if totalBidVol + totalAskVol = 0 then 0
  else
    let diff : Int64 := totalBidVol.toInt64 - totalAskVol.toInt64
    let sum := totalBidVol + totalAskVol
    diff.toInt / sum.toNat

/-- `get_book_imbalance`. -/
def getBookImbalance (maxLevels : Nat) : Prog Cell ℚ := do
  let (totalBidVol, totalAskVol) ← volumeLoop maxLevels 0 0 0
  return imbalance totalBidVol totalAskVol

end OrderBook

end OrderbookEngine
