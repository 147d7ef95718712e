import OrderbookEngine.Core.Types

/-!
# The aggregated book

Each exchange has its own book, two maps from prices to levels. An update
writes the levels it names and leaves the others. Prices form any linear order,
which the doubles other than NaN do; arbitrage detection computes in an ordered
field, with infinity for the percentage of a profit at price zero.
-/

namespace OrderbookEngine

/-- `AggregatedPriceLevel`. -/
structure AggregatedPriceLevel (D : Type) where
  exchange : Exchange
  price : D
  quantity : D
  orderCount : UInt32
  timestampNs : UInt64
  deriving DecidableEq, Repr

/-- `ExchangeBook`: the levels one exchange holds. -/
structure ExchangeBook (D : Type) [LinearOrder D] where
  bids : Std.TreeMap D (AggregatedPriceLevel D)
  asks : Std.TreeMap D (AggregatedPriceLevel D)
  lastUpdateNs : UInt64

/-- The map of one side. -/
def ExchangeBook.levels {D : Type} [LinearOrder D] (book : ExchangeBook D) :
    Side → Std.TreeMap D (AggregatedPriceLevel D)
  | .bid => book.bids
  | .ask => book.asks

/-- The members of `AggregatedOrderBook` other than its mutex. -/
structure AggregatedOrderBook (D : Type) [LinearOrder D] where
  symbol : StdString
  exchangeBooks : Std.TreeMap Exchange (ExchangeBook D)
  /-- Whether an arbitrage callback is registered. -/
  arbitrageCallback : Bool

namespace AggregatedOrderBook

variable {D : Type} [LinearOrder D]

/-- A book without levels and without a callback. -/
def construct (symbol : StdString) : AggregatedOrderBook D := ⟨symbol, ∅, false⟩

/-- `set_arbitrage_callback`. -/
def setArbitrageCallback (book : AggregatedOrderBook D) (callback : Bool) :
    AggregatedOrderBook D := { book with arbitrageCallback := callback }

/-- `clear`. -/
def clear (book : AggregatedOrderBook D) : AggregatedOrderBook D :=
  { book with exchangeBooks := ∅ }

section Update

variable [Zero D]

/-- The level that an update stores for one of its entries. -/
def levelOf (update : NormalizedOrderBookUpdate D) (l : PriceLevelSnapshot D) :
    AggregatedPriceLevel D where
  exchange := update.exchange
  price := l.price
  quantity := l.quantity
  orderCount := l.orderCount
  timestampNs := update.timestamp

/-- One pass of the loop over the levels of a side. -/
def applyLevel (update : NormalizedOrderBookUpdate D)
    (levels : Std.TreeMap D (AggregatedPriceLevel D)) (l : PriceLevelSnapshot D) :
    Std.TreeMap D (AggregatedPriceLevel D) :=
  if l.quantity > 0 then levels.insert l.price (levelOf update l) else levels.erase l.price

/-- `update` up to the arbitrage check, for an update of the book's symbol. -/
def applyUpdate (update : NormalizedOrderBookUpdate D) (book : AggregatedOrderBook D) :
    AggregatedOrderBook D :=
  let exchangeBook := book.exchangeBooks.getD update.exchange ⟨∅, ∅, 0⟩
  { book with
    exchangeBooks := book.exchangeBooks.insert update.exchange
      { bids := update.bids.foldl (applyLevel update) exchangeBook.bids
        asks := update.asks.foldl (applyLevel update) exchangeBook.asks
        lastUpdateNs := update.timestamp } }

/-- The effect of `update` on the members: none when the symbol does not match. -/
def update (u : NormalizedOrderBookUpdate D) (book : AggregatedOrderBook D) :
    AggregatedOrderBook D :=
  if u.symbol ≠ book.symbol then book else applyUpdate u book

end Update

/-- The levels that an exchange holds on a side, none when it has no book yet. -/
def heldLevels (book : AggregatedOrderBook D) (exchange : Exchange) (side : Side) :
    Std.TreeMap D (AggregatedPriceLevel D) :=
  (book.exchangeBooks.getD exchange ⟨∅, ∅, 0⟩).levels side

/-- `ArbitrageOpportunity`. -/
structure ArbitrageOpportunity (D : Type) where
  symbol : StdString
  buyExchange : Exchange
  sellExchange : Exchange
  buyPrice : D
  sellPrice : D
  maxQuantity : D
  profitPerUnit : D
  profitPercentage : WithTop D
  timestampNs : UInt64
  deriving DecidableEq, Repr

/-- The better of the best bid so far and the top bid of one more exchange. -/
def betterBid (best : Option (AggregatedPriceLevel D)) (exchangeBook : ExchangeBook D) :
    Option (AggregatedPriceLevel D) :=
  match exchangeBook.bids.maxEntry? with
  | none => best
  | some (_, topBid) =>
    match best with
    | none => some topBid
    | some b => if topBid.price > b.price then some topBid else some b

/-- The better of the best ask so far and the top ask of one more exchange. -/
def betterAsk (best : Option (AggregatedPriceLevel D)) (exchangeBook : ExchangeBook D) :
    Option (AggregatedPriceLevel D) :=
  match exchangeBook.asks.minEntry? with
  | none => best
  | some (_, topAsk) =>
    match best with
    | none => some topAsk
    | some a => if topAsk.price < a.price then some topAsk else some a

/-- A part of a price in percent. -/
def percent [Field D] (part price : D) : D := part / price * 100

/-- The quotient of doubles behind a profit percentage: a profit at price zero is
infinite. -/
def percentageOf [Field D] (profitPerUnit price : D) : WithTop D :=
  if price = 0 then ⊤ else ↑(percent profitPerUnit price)

/-- `detect_arbitrage` between taking and releasing the lock, at the clock
reading `timestampNs`. -/
def detectArbitrage [Field D] (minProfitPercentage : D) (timestampNs : UInt64)
    (book : AggregatedOrderBook D) : Option (ArbitrageOpportunity D) :=
  let books := book.exchangeBooks.toList.map Prod.snd
  match books.foldl betterBid none, books.foldl betterAsk none with
  | some bestBid, some bestAsk =>
    if bestBid.price ≤ bestAsk.price then none
    else
      let profitPerUnit := bestBid.price - bestAsk.price
      let profitPercentage := percentageOf profitPerUnit bestAsk.price
      if profitPercentage < minProfitPercentage then none
      else some
        { symbol := book.symbol
          buyExchange := bestAsk.exchange
          sellExchange := bestBid.exchange
          buyPrice := bestAsk.price
          sellPrice := bestBid.price
          maxQuantity := min bestBid.quantity bestAsk.quantity
          profitPerUnit := profitPerUnit
          profitPercentage := profitPercentage
          timestampNs := timestampNs }
  | _, _ => none

section Lookup

variable [Zero D] (u : NormalizedOrderBookUpdate D)

/-- An update of the book's symbol is applied. -/
theorem update_of_symbol_eq {book : AggregatedOrderBook D} (h : u.symbol = book.symbol) :
    book.update u = applyUpdate u book := if_neg (not_not.mpr h)

/-- An update of another symbol is ignored. -/
theorem update_of_symbol_ne {book : AggregatedOrderBook D} (h : u.symbol ≠ book.symbol) :
    book.update u = book := if_pos h

/-- What a level leaves at each price. -/
theorem getElem?_applyLevel (levels : Std.TreeMap D (AggregatedPriceLevel D))
    (l : PriceLevelSnapshot D) (p : D) :
    (applyLevel u levels l)[p]? =
      if l.price = p then (if 0 < l.quantity then some (levelOf u l) else none)
      else levels[p]? := by
  unfold applyLevel
  by_cases hq : 0 < l.quantity
  · simp [hq, Std.TreeMap.getElem?_insert]
  · simp [hq, Std.TreeMap.getElem?_erase]

/-- A price that no level names keeps its level. -/
theorem getElem?_foldl_of_not_mem {ls : List (PriceLevelSnapshot D)} {p : D}
    (h : ∀ l ∈ ls, l.price ≠ p) (levels : Std.TreeMap D (AggregatedPriceLevel D)) :
    (ls.foldl (applyLevel u) levels)[p]? = levels[p]? := by
  induction ls generalizing levels with
  | nil => rfl
  | cons l ls ih =>
    rw [List.foldl_cons, ih fun l' hl' => h l' (List.mem_cons_of_mem _ hl'),
      getElem?_applyLevel, if_neg (h l List.mem_cons_self)]

/-- A price that one level names takes what that level says. -/
theorem getElem?_foldl_of_mem {ls : List (PriceLevelSnapshot D)} {l : PriceLevelSnapshot D}
    (hnd : (ls.map (·.price)).Nodup) (hl : l ∈ ls)
    (levels : Std.TreeMap D (AggregatedPriceLevel D)) :
    (ls.foldl (applyLevel u) levels)[l.price]? =
      if 0 < l.quantity then some (levelOf u l) else none := by
  induction ls generalizing levels with
  | nil => cases hl
  | cons l' ls ih =>
    rw [List.map_cons, List.nodup_cons] at hnd
    rw [List.foldl_cons]
    rcases List.mem_cons.mp hl with rfl | hl
    · have hother : ∀ l' ∈ ls, l'.price ≠ l.price :=
        fun l' hl' he => hnd.1 (he ▸ List.mem_map_of_mem hl')
      rw [getElem?_foldl_of_not_mem u hother, getElem?_applyLevel, if_pos rfl]
    · exact ih hnd.2 hl _

/-- An update runs its levels into those that its exchange holds. -/
theorem heldLevels_applyUpdate_self (book : AggregatedOrderBook D) (side : Side) :
    (applyUpdate u book).heldLevels u.exchange side =
      (u.levels side).foldl (applyLevel u) (book.heldLevels u.exchange side) := by
  simp only [heldLevels, applyUpdate, Std.TreeMap.getD_insert_self]
  cases side with
  | bid => rfl
  | ask => rfl

/-- An update leaves the levels of every other exchange. -/
theorem heldLevels_applyUpdate_of_ne (book : AggregatedOrderBook D) {exchange : Exchange}
    (h : exchange ≠ u.exchange) (side : Side) :
    (applyUpdate u book).heldLevels exchange side = book.heldLevels exchange side := by
  have hne : compare u.exchange exchange ≠ .eq :=
    fun he => h (Std.LawfulEqOrd.eq_of_compare he).symm
  simp only [heldLevels, applyUpdate, Std.TreeMap.getD_insert, hne, if_false]

end Lookup

end AggregatedOrderBook

end OrderbookEngine
