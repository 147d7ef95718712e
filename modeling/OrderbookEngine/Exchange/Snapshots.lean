import OrderbookEngine.Core.AggregatedOrderBook
import OrderbookEngine.Library.Json

/-!
# Snapshot messages

The Coinbase and Kraken connectors turn a snapshot message into an update like
any other. Applied to the aggregated book it writes the levels of the message,
so it replaces the book of its exchange exactly when the message names every
price that the exchange already holds.
-/

namespace OrderbookEngine

section Parsers

variable {D : Type} (stod : StdString → Option D)

/-- The body of the level loops: an array that starts with a price and a
quantity, both strings. The connectors set the order count to 1. -/
def parseLevel (element : Json) : Option (PriceLevelSnapshot D) := do
  match ← element.getArray with
  | priceElement :: qtyElement :: _ =>
    let priceStr ← priceElement.getString
    let qtyStr ← qtyElement.getString
    let price ← stod priceStr
    let quantity ← stod qtyStr
    return { price := price, quantity := quantity, orderCount := 1 }
  | _ => none

/-- The loop over an array of levels. -/
def parseLevels (json : Json) : Option (List (PriceLevelSnapshot D)) := do
  (← json.getArray).mapM (parseLevel stod)

/-- `CoinbaseConnector::parse_snapshot` at the clock reading `now`; every thrown
error is caught and yields no update. -/
def CoinbaseConnector.parseSnapshot (json : Json) (now : UInt64) :
    Option (NormalizedOrderBookUpdate D) := do
  let productId ← (← json.atKey (lit "product_id")).getString
  let bids ← parseLevels stod (← json.atKey (lit "bids"))
  let asks ← parseLevels stod (← json.atKey (lit "asks"))
  return { exchange := .coinbase, symbol := productId, timestamp := now, updateId := 0,
           bids := bids, asks := asks }

/-- `KrakenConnector::normalize_symbol`. -/
def KrakenConnector.normalizeSymbol (krakenSymbol : StdString) : StdString := krakenSymbol

/-- The levels under a key that a Kraken message may lack. -/
def KrakenConnector.parseOptional (json : Json) (key : StdString) :
    Option (List (PriceLevelSnapshot D)) :=
  match json.atKey key with
  | none => some []
  | some element => parseLevels stod element

/-- `KrakenConnector::parse_snapshot` at the clock reading `now`. -/
def KrakenConnector.parseSnapshot (json : Json) (pair : StdString) (now : UInt64) :
    Option (NormalizedOrderBookUpdate D) := do
  let bids ← KrakenConnector.parseOptional stod json (lit "bs")
  let asks ← KrakenConnector.parseOptional stod json (lit "as")
  return { exchange := .kraken, symbol := KrakenConnector.normalizeSymbol pair, timestamp := now,
           updateId := 0, bids := bids, asks := asks }

end Parsers

/-- What a snapshot message says: a symbol, and prices with their quantities. -/
structure SnapshotContent (D : Type) where
  symbol : StdString
  bids : List (D × D)
  asks : List (D × D)

def SnapshotContent.levels {D : Type} (content : SnapshotContent D) : Side → List (D × D)
  | .bid => content.bids
  | .ask => content.asks

/-- A snapshot as its connector receives it; Kraken names the pair outside the
data object. -/
inductive SnapshotMessage where
  | coinbase (json : Json)
  | kraken (json : Json) (pair : StdString)

namespace SnapshotMessage

variable {D : Type}

/-- The exchange that sent the message. -/
def exchange : SnapshotMessage → Exchange
  | coinbase _ => .coinbase
  | kraken _ _ => .kraken

/-- The parser of the message's connector. -/
def parseSnapshot (stod : StdString → Option D) (now : UInt64) :
    SnapshotMessage → Option (NormalizedOrderBookUpdate D)
  | coinbase json => CoinbaseConnector.parseSnapshot stod json now
  | kraken json pair => KrakenConnector.parseSnapshot stod json pair now

/-- The element lists these prices and quantities, as strings at the front of
each entry. -/
def ListsLevels (stod : StdString → Option D) (element : Json) (levels : List (D × D)) : Prop :=
  ∃ entries, element = .array entries ∧ List.Forall₂ (fun entry level =>
    ∃ price quantity more, entry = .array (.string price :: .string quantity :: more) ∧
      stod price = some level.1 ∧ stod quantity = some level.2) entries levels

/-- The message is well formed and says this. -/
def Says (stod : StdString → Option D) : SnapshotMessage → SnapshotContent D → Prop
  | coinbase json, content =>
    json.atKey (lit "product_id") = some (.string content.symbol) ∧
      (∃ bids, json.atKey (lit "bids") = some bids ∧ ListsLevels stod bids content.bids) ∧
      ∃ asks, json.atKey (lit "asks") = some asks ∧ ListsLevels stod asks content.asks
  | kraken json pair, content =>
    content.symbol = pair ∧
      (json.atKey (lit "bs") = none ∧ content.bids = [] ∨
        ∃ bids, json.atKey (lit "bs") = some bids ∧ ListsLevels stod bids content.bids) ∧
      (json.atKey (lit "as") = none ∧ content.asks = [] ∨
        ∃ asks, json.atKey (lit "as") = some asks ∧ ListsLevels stod asks content.asks)

/-- The update that says the same as a message. -/
def updateOf (exchange : Exchange) (content : SnapshotContent D) (now : UInt64) :
    NormalizedOrderBookUpdate D where
  exchange := exchange
  symbol := content.symbol
  timestamp := now
  updateId := 0
  bids := content.bids.map fun level => ⟨level.1, level.2, 1⟩
  asks := content.asks.map fun level => ⟨level.1, level.2, 1⟩

theorem parseLevels_of_listsLevels {stod : StdString → Option D} {element : Json}
    {levels : List (D × D)} (h : ListsLevels stod element levels) :
    parseLevels stod element = some (levels.map fun level => ⟨level.1, level.2, 1⟩) := by
  obtain ⟨entries, rfl, hentries⟩ := h
  simp only [parseLevels, Json.getArray, bind, Option.bind]
  induction hentries with
  | nil => rfl
  | cons hhead _ ih =>
    obtain ⟨price, quantity, more, rfl, hp, hq⟩ := hhead
    simp [parseLevel, Json.getArray, Json.getString, hp, hq, ih]

/-- A well-formed message is parsed into the update that says the same. -/
theorem parseSnapshot_of_content {stod : StdString → Option D} {message : SnapshotMessage}
    {content : SnapshotContent D} (h : message.Says stod content) (now : UInt64) :
    message.parseSnapshot stod now = some (updateOf message.exchange content now) := by
  cases message with
  | coinbase json =>
    obtain ⟨hsym, ⟨bids, hb, hbids⟩, asks, ha, hasks⟩ := h
    simp [parseSnapshot, CoinbaseConnector.parseSnapshot, hsym, hb, ha, Json.getString,
      parseLevels_of_listsLevels hbids, parseLevels_of_listsLevels hasks, updateOf, exchange]
  | kraken json pair =>
    obtain ⟨rfl, hbids, hasks⟩ := h
    have hb : KrakenConnector.parseOptional stod json (lit "bs") =
        some (content.bids.map fun level => ⟨level.1, level.2, 1⟩) := by
      rcases hbids with ⟨hkey, hnil⟩ | ⟨bids, hkey, hlists⟩
      · simp [KrakenConnector.parseOptional, hkey, hnil]
      · simp [KrakenConnector.parseOptional, hkey, parseLevels_of_listsLevels hlists]
    have ha : KrakenConnector.parseOptional stod json (lit "as") =
        some (content.asks.map fun level => ⟨level.1, level.2, 1⟩) := by
      rcases hasks with ⟨hkey, hnil⟩ | ⟨asks, hkey, hlists⟩
      · simp [KrakenConnector.parseOptional, hkey, hnil]
      · simp [KrakenConnector.parseOptional, hkey, parseLevels_of_listsLevels hlists]
    simp [parseSnapshot, KrakenConnector.parseSnapshot, hb, ha, updateOf, exchange,
      KrakenConnector.normalizeSymbol]

section Replacement

variable [LinearOrder D] [Zero D] (stod : StdString → Option D)

/-- After the message its exchange holds the positive levels that it says and
nothing else, and every other exchange holds what it held. -/
def Replaces (message : SnapshotMessage) (content : SnapshotContent D) (now : UInt64)
    (book : AggregatedOrderBook D) : Prop :=
  ∃ u, message.parseSnapshot stod now = some u ∧
    (∀ side price level,
      ((book.update u).heldLevels message.exchange side)[price]? = some level ↔
        ∃ quantity, (price, quantity) ∈ content.levels side ∧ 0 < quantity ∧
          level = ⟨message.exchange, price, quantity, 1, now⟩) ∧
    ∀ exchange ≠ message.exchange, ∀ side,
      (book.update u).heldLevels exchange side = book.heldLevels exchange side

/-- The message names every price that its exchange holds. -/
def Covers (message : SnapshotMessage) (content : SnapshotContent D)
    (book : AggregatedOrderBook D) : Prop :=
  ∀ side, ∀ price ∈ book.heldLevels message.exchange side,
    price ∈ (content.levels side).map Prod.fst

variable {stod} {message : SnapshotMessage} {content : SnapshotContent D}
  {book : AggregatedOrderBook D}

omit [LinearOrder D] [Zero D] in
private theorem levels_updateOf (exchange : Exchange) (now : UInt64) (side : Side) :
    (updateOf exchange content now).levels side =
      (content.levels side).map fun level => ⟨level.1, level.2, 1⟩ := by
  cases side with
  | bid => rfl
  | ask => rfl

/-- The book runs the message's levels into those that its exchange holds. -/
theorem heldLevels_update (hsym : content.symbol = book.symbol) (now : UInt64) (side : Side) :
    (book.update (updateOf message.exchange content now)).heldLevels message.exchange side =
      ((updateOf message.exchange content now).levels side).foldl
        (AggregatedOrderBook.applyLevel (updateOf message.exchange content now))
        (book.heldLevels message.exchange side) := by
  rw [AggregatedOrderBook.update_of_symbol_eq _ hsym]
  exact AggregatedOrderBook.heldLevels_applyUpdate_self
    (updateOf message.exchange content now) book side

/-- What the book holds for the exchange at a price that the message names. -/
theorem getElem?_update_of_mem (hsym : content.symbol = book.symbol)
    (hdistinct : ∀ side, ((content.levels side).map Prod.fst).Nodup) {side : Side}
    {price quantity : D} (hmem : (price, quantity) ∈ content.levels side) (now : UInt64) :
    ((book.update (updateOf message.exchange content now)).heldLevels
        message.exchange side)[price]? =
      if 0 < quantity then some ⟨message.exchange, price, quantity, 1, now⟩ else none := by
  have hnd : (((updateOf message.exchange content now).levels side).map (·.price)).Nodup := by
    rw [levels_updateOf, List.map_map]
    exact hdistinct side
  have hl : (⟨price, quantity, 1⟩ : PriceLevelSnapshot D) ∈
      (updateOf message.exchange content now).levels side := by
    rw [levels_updateOf]
    exact List.mem_map.mpr ⟨(price, quantity), hmem, rfl⟩
  rw [heldLevels_update hsym]
  exact AggregatedOrderBook.getElem?_foldl_of_mem _ hnd hl _

/-- A price that the message does not name keeps its level. -/
theorem getElem?_update_of_not_mem (hsym : content.symbol = book.symbol) {side : Side} {price : D}
    (hmem : price ∉ (content.levels side).map Prod.fst) (now : UInt64) :
    ((book.update (updateOf message.exchange content now)).heldLevels
        message.exchange side)[price]? =
      (book.heldLevels message.exchange side)[price]? := by
  rw [heldLevels_update hsym]
  refine AggregatedOrderBook.getElem?_foldl_of_not_mem _ (fun l hl he => hmem ?_) _
  rw [levels_updateOf] at hl
  obtain ⟨level, hlevel, rfl⟩ := List.mem_map.mp hl
  exact he ▸ List.mem_map_of_mem hlevel

/-- A message replaces the book of its exchange only if it names every held price. -/
theorem Replaces.covers {now : UInt64} (hread : message.Says stod content)
    (hsym : content.symbol = book.symbol) (h : Replaces stod message content now book) :
    Covers message content book := by
  obtain ⟨u, hparse, hheld, -⟩ := h
  rw [parseSnapshot_of_content hread, Option.some.injEq] at hparse
  subst hparse
  intro side price hprice
  by_contra hmem
  obtain ⟨level, hlevel⟩ := Option.isSome_iff_exists.mp
    (Std.TreeMap.mem_iff_isSome_getElem?.mp hprice)
  rw [← getElem?_update_of_not_mem hsym hmem now] at hlevel
  obtain ⟨quantity, hq, -⟩ := (hheld side price level).mp hlevel
  exact hmem (List.mem_map_of_mem hq)

/-- A message that names every held price replaces the book of its exchange. -/
theorem Covers.replaces (hread : message.Says stod content) (hsym : content.symbol = book.symbol)
    (hdistinct : ∀ side, ((content.levels side).map Prod.fst).Nodup)
    (h : Covers message content book) (now : UInt64) :
    Replaces stod message content now book := by
  refine ⟨_, parseSnapshot_of_content hread now, fun side price level => ?_,
    fun exchange hne side => ?_⟩
  · by_cases hmem : price ∈ (content.levels side).map Prod.fst
    · obtain ⟨⟨price, quantity⟩, hq, rfl⟩ := List.mem_map.mp hmem
      rw [getElem?_update_of_mem hsym hdistinct hq now]
      constructor
      · intro hlevel
        by_cases hpos : 0 < quantity
        · rw [if_pos hpos, Option.some.injEq] at hlevel
          exact ⟨quantity, hq, hpos, hlevel.symm⟩
        · rw [if_neg hpos] at hlevel
          cases hlevel
      · rintro ⟨quantity', hq', hpos, rfl⟩
        have heq : quantity' = quantity := by
          have := List.inj_on_of_nodup_map (hdistinct side) hq' hq rfl
          exact congrArg Prod.snd this
        rw [← heq, if_pos hpos]
    · have hnone : (book.heldLevels message.exchange side)[price]? = none := by
        by_contra hsome
        exact hmem (h side price (Std.TreeMap.mem_iff_isSome_getElem?.mpr
          (Option.isSome_iff_ne_none.mpr hsome)))
      rw [getElem?_update_of_not_mem hsym hmem now, hnone]
      simp only [reduceCtorEq, false_iff, not_exists, not_and]
      exact fun quantity hq => absurd (List.mem_map_of_mem hq) hmem
  · rw [AggregatedOrderBook.update_of_symbol_eq _ hsym]
    exact AggregatedOrderBook.heldLevels_applyUpdate_of_ne _ book hne side

/-- A well-formed snapshot for the book's symbol replaces the book of its exchange
exactly when it names every price that the exchange holds. -/
theorem replaces_iff_covers (hread : message.Says stod content)
    (hsym : content.symbol = book.symbol)
    (hdistinct : ∀ side, ((content.levels side).map Prod.fst).Nodup) (now : UInt64) :
    Replaces stod message content now book ↔ Covers message content book :=
  ⟨fun h => h.covers hread hsym, fun h => h.replaces hread hsym hdistinct now⟩

end Replacement

section Example

/-- `std::stod` on a string of decimal digits. -/
def stodDigits (text : StdString) : Option ℚ :=
  if text ≠ [] ∧ text.all fun c => 48 ≤ c && c ≤ 57 then
    some (text.foldl (fun value c => 10 * value + (c.toNat - 48)) 0 : Nat)
  else none

/-- A Coinbase update with one bid. -/
def bidUpdate (price : ℚ) : NormalizedOrderBookUpdate ℚ where
  exchange := .coinbase
  symbol := lit "BTC-USD"
  timestamp := 1
  updateId := 0
  bids := [⟨price, 1, 1⟩]
  asks := []

/-- The book after that update. -/
def bidAt (price : ℚ) : AggregatedOrderBook ℚ :=
  (AggregatedOrderBook.construct (lit "BTC-USD")).update (bidUpdate price)

/-- A Coinbase snapshot with one bid at 90. -/
def bidSnapshot : SnapshotMessage :=
  .coinbase (.object [(lit "product_id", .string (lit "BTC-USD")),
    (lit "bids", .array [.array [.string (lit "90"), .string (lit "2")]]),
    (lit "asks", .array [])])

def bidContent : SnapshotContent ℚ := ⟨lit "BTC-USD", [(90, 2)], []⟩

private theorem bidSnapshot_content : bidSnapshot.Says stodDigits bidContent := by
  have h90 : stodDigits (lit "90") = some 90 := by
    simp [stodDigits, show lit "90" = [57, 48] by decide]
  have h2 : stodDigits (lit "2") = some 2 := by
    simp [stodDigits, show lit "2" = [50] by decide]
  refine ⟨rfl, ⟨_, rfl, _, rfl, ?_⟩, ⟨_, rfl, _, rfl, .nil⟩⟩
  exact .cons ⟨lit "90", lit "2", [], rfl, h90, h2⟩ .nil

private theorem bidContent_distinct :
    ∀ side, ((bidContent.levels side).map Prod.fst).Nodup := by
  intro side
  cases side with
  | bid => exact List.nodup_singleton _
  | ask => exact List.nodup_nil

private theorem mem_bidAt (price : ℚ) : price ∈ (bidAt price).heldLevels .coinbase .bid := by
  have hself := AggregatedOrderBook.heldLevels_applyUpdate_self (bidUpdate price)
    (.construct (lit "BTC-USD")) .bid
  rw [show (bidUpdate price).exchange = .coinbase from rfl] at hself
  rw [bidAt, AggregatedOrderBook.update_of_symbol_eq _ rfl, hself]
  simp [NormalizedOrderBookUpdate.levels, AggregatedOrderBook.applyLevel, bidUpdate]

theorem replaces_iff_covers_bidSnapshot :
    Replaces stodDigits bidSnapshot bidContent 2 (bidAt 90) ↔
      Covers bidSnapshot bidContent (bidAt 90) :=
  replaces_iff_covers bidSnapshot_content rfl bidContent_distinct 2

/-- A well-formed snapshot without the held bid at 100 leaves it in the book. -/
theorem replaces_fails :
    bidSnapshot.Says stodDigits bidContent ∧ bidContent.symbol = (bidAt 100).symbol ∧
      (∀ side, ((bidContent.levels side).map Prod.fst).Nodup) ∧
      ¬ Replaces stodDigits bidSnapshot bidContent 2 (bidAt 100) := by
  refine ⟨bidSnapshot_content, rfl, bidContent_distinct, fun h => ?_⟩
  have hcovers := h.covers bidSnapshot_content rfl .bid 100 (mem_bidAt 100)
  norm_num [SnapshotContent.levels, bidContent] at hcovers

end Example

end SnapshotMessage

end OrderbookEngine
