import OrderbookEngine.Network.BroadcastDelivery
import OrderbookEngine.Network.FrontendRequests
import OrderbookEngine.Network.MessageFormatter

/-!
# The frontend server

The main thread makes order book updates and trades, broadcasts them as messages, and keeps the
last order book message of each symbol for the REST server. The threads of the two servers run
beside it. The doubles are exact rationals, and the random numbers are inputs.
-/

namespace OrderbookEngine

open Json Transition

/-- What a pass of the loops over the levels draws. -/
structure LevelDraws where
  price : ℚ
  quantity : ℚ
  orderCount : ℚ
  deriving DecidableEq, Repr

/-- What a call of `generate_order_book_update` draws and reads from the clock. -/
structure BookDraws where
  timestamp : UInt64
  bids : Vector LevelDraws 10
  asks : Vector LevelDraws 10
  movement : ℚ
  deriving DecidableEq, Repr

/-- What a call of `generate_trade` draws and reads from the clock. -/
structure TradeDraws where
  price : ℚ
  quantity : ℚ
  timestamp : UInt64
  maker : ℚ
  idTimestamp : UInt64
  deriving DecidableEq, Repr

structure MarketDataSimulator where
  symbol : StdString
  exchange : Exchange
  basePrice : ℚ
  sequence : UInt64
  deriving DecidableEq, Repr

namespace MarketDataSimulator

def construct (symbol : StdString) (exchange : Exchange) : MarketDataSimulator where
  symbol := symbol
  exchange := exchange
  basePrice := 50000
  sequence := 0

/-- A level around `price`. -/
def level (price : ℚ) (draws : LevelDraws) : PriceLevelSnapshot ℚ where
  price := price + draws.price / 10
  quantity := draws.quantity
  orderCount := UInt32.ofNat ⌊|draws.orderCount| + 1⌋.toNat

/-- `generate_order_book_update`. -/
def generateOrderBookUpdate (s : MarketDataSimulator) (draws : BookDraws) :
    NormalizedOrderBookUpdate ℚ × MarketDataSimulator :=
  ({ exchange := s.exchange
     symbol := s.symbol
     timestamp := draws.timestamp
     updateId := s.sequence
     bids := draws.bids.toList.zipIdx.map fun (draws, i) => level (s.basePrice - i / 2) draws
     asks := draws.asks.toList.zipIdx.map fun (draws, i) => level (s.basePrice + i / 2) draws },
    { s with
      basePrice := s.basePrice + draws.movement / 100
      sequence := s.sequence + 1 })

/-- `generate_trade`. -/
def generateTrade (s : MarketDataSimulator) (draws : TradeDraws) : Trade ℚ where
  exchange := s.exchange
  symbol := s.symbol
  timestamp := draws.timestamp
  tradeId := decimal draws.idTimestamp.toNat
  price := s.basePrice + draws.price / 2
  quantity := draws.quantity / 10
  isBuyerMaker := 0 < draws.maker

end MarketDataSimulator

/-- The simulators of `main`. -/
inductive Feed where
  | btcBinance
  | btcCoinbase
  | ethBinance
  deriving DecidableEq, Repr

namespace Feed

def symbol : Feed → StdString
  | .btcBinance | .btcCoinbase => lit "BTC-USD"
  | .ethBinance => lit "ETH-USD"

def exchange : Feed → Exchange
  | .btcBinance | .ethBinance => .binance
  | .btcCoinbase => .coinbase

/-- The key of `latest_orderbook_messages` that the feed writes. -/
def stored : Feed → Option StdString
  | .btcBinance => some (lit "BTC-USD")
  | .btcCoinbase => none
  | .ethBinance => some (lit "ETH-USD")

end Feed

/-- What is left to do in a pass of the loop. -/
inductive Task where
  | book (feed : Feed)
  | store (symbol message : StdString)
  | trade
  | metrics
  deriving DecidableEq, Repr

namespace Task

def isBook : Task → Bool
  | .book _ => true
  | .store _ _ | .trade | .metrics => false

def isStore : Task → Bool
  | .store _ _ => true
  | .book _ | .trade | .metrics => false

end Task

/-- The server process from the first pass of the loop on. -/
structure ServerMain where
  server : FrontendWebSocketServer
  simulators : Feed → MarketDataSimulator
  latestOrderbookMessages : StdString → Option StdString
  lastOrderBookTime : Int
  lastTradeTime : Int
  lastMetricsTime : Int
  messageCount : UInt64
  bytesSent : UInt64
  todo : List Task
  shutdownRequested : Bool

/-- A message that is broadcast. -/
inductive Item where
  | book (feed : Feed) (update : NormalizedOrderBookUpdate ℚ) (sequence : UInt64)
  | trade (trade : Trade ℚ)
  | metrics (messagesPerSec bytesPerSec : UInt64)
  deriving DecidableEq, Repr

namespace Item

variable (fixed8 : ℚ → {text : StdString // IsNumber text})

/-- What is broadcast. -/
def text : Item → StdString
  | .book _ update sequence => MessageFormatter.formatOrderBookUpdate fixed8 update sequence
  | .trade t => MessageFormatter.formatTrade fixed8 t
  | .metrics messagesPerSec bytesPerSec =>
    MessageFormatter.formatMetrics 150 300 500 1200 messagesPerSec bytesPerSec (lit "connected") 0

end Item

namespace ServerMain

open MessageFormatter (formatOrderBookUpdate formatTrade formatMetrics)

variable (fixed8 : ℚ → {text : StdString // IsNumber text})

/-- Before the loop, when the steady clock reads `now`. -/
def started (now : Int) : ServerMain where
  server := .started
  simulators feed := .construct feed.symbol feed.exchange
  latestOrderbookMessages _ := none
  lastOrderBookTime := now
  lastTradeTime := now
  lastMetricsTime := now
  messageCount := 0
  bytesSent := 0
  todo := []
  shutdownRequested := false

/-- The interval has passed; `duration_cast` drops the part of a millisecond. -/
def due (now last : Int) (milliseconds : Int) : Bool := milliseconds ≤ (now - last).tdiv 1000000

/-- The conditions of a pass that finds the steady clock at `now`. -/
def beginPass (s : ServerMain) (now : Int) : ServerMain :=
  let books := due now s.lastOrderBookTime 100
  let trades := due now s.lastTradeTime 200
  let metrics := due now s.lastMetricsTime 1000
  { s with
    todo := (if books then [.book .btcBinance, .book .btcCoinbase, .book .ethBinance] else []) ++
      (if trades then [.trade] else []) ++ (if metrics then [.metrics] else [])
    lastOrderBookTime := if books then now else s.lastOrderBookTime
    lastTradeTime := if trades then now else s.lastTradeTime
    lastMetricsTime := if metrics then now else s.lastMetricsTime }

/-- `ws_server.broadcast` and the counters. -/
def send (s : ServerMain) (message : StdString) : ServerMain :=
  { s with
    server := s.server.broadcast message
    messageCount := s.messageCount + 1
    bytesSent := s.bytesSent + UInt64.ofNat message.length }

/-- An order book update of a feed. -/
def book (s : ServerMain) (feed : Feed) (draws : BookDraws) (rest : List Task) : ServerMain :=
  let (update, simulator) := (s.simulators feed).generateOrderBookUpdate draws
  let message := formatOrderBookUpdate fixed8 update simulator.sequence
  { s.send message with
    simulators := Function.update s.simulators feed simulator
    todo := (feed.stored.map fun symbol => Task.store symbol message).toList ++ rest }

/-- The block that locks the store. -/
def store (s : ServerMain) (symbol message : StdString) (rest : List Task) : ServerMain :=
  { s with
    latestOrderbookMessages := Function.update s.latestOrderbookMessages symbol (some message)
    todo := rest }

def trade (s : ServerMain) (draws : TradeDraws) (rest : List Task) : ServerMain :=
  let trade := (s.simulators .btcBinance).generateTrade draws
  { s.send (formatTrade fixed8 trade) with todo := rest }

def metrics (s : ServerMain) (rest : List Task) : ServerMain :=
  let message :=
    formatMetrics 150 300 500 1200 s.messageCount s.bytesSent (lit "connected") 0
  { s with
    server := s.server.broadcast message
    messageCount := 0
    bytesSent := 0
    todo := rest }

/-- The handler of the order book requests. -/
def orderbookHandler (s : ServerMain) (symbol : StdString) : StdString :=
  match s.latestOrderbookMessages symbol with
  | some message => message
  | none => lit "\x7b\"error\":\"Symbol not found\"\x7d"

/-- The handlers that `main` sets. -/
def handlers (s : ServerMain) : FrontendRestServer.Handlers where
  symbols := some fun _ => lit "\x7b\"symbols\":[\"BTC-USD\",\"ETH-USD\"]\x7d"
  orderbook := some s.orderbookHandler

/-- The steps of the main thread, the signal, and the steps of the WebSocket server. -/
inductive Event where
  | beginPass (now : Int)
  | book (draws : BookDraws)
  | store
  | trade (draws : TradeDraws)
  | metrics
  | signal
  | leave
  | server (e : FrontendWebSocketServer.Event)
  deriving DecidableEq, Repr

/-- The main thread alone broadcasts and calls `stop`, and `main` starts the server once. -/
def ofMain : FrontendWebSocketServer.Event → Bool
  | .broadcast _ | .stop => true
  | .destroyContext withServer => !withServer
  | .onAccept _ | .complete _ _ | .closeSessions | .stopContext => false

/-- `main` returns with the destruction of the server. -/
def Enabled (s : ServerMain) (e : Event) : Prop :=
  s.server.terminated = false ∧ s.server.stopping ≠ .destroyed ∧
    match e with
    | .beginPass _ => s.todo = [] ∧ s.shutdownRequested = false
    | .book _ => ∃ task ∈ s.todo.head?, task.isBook = true
    | .store => ∃ task ∈ s.todo.head?, task.isStore = true
    | .trade _ => s.todo.head? = some .trade
    | .metrics => s.todo.head? = some .metrics
    | .signal => True
    | .leave => s.todo = [] ∧ s.shutdownRequested = true
    | .server e => ofMain e = false ∧ s.server.Enabled e

instance decidableEnabled (s : ServerMain) : ∀ e, Decidable (s.Enabled e)
  | .beginPass _ | .leave => inferInstanceAs (Decidable (_ ∧ _ ≠ _ ∧ _ ∧ _))
  | .book _ => inferInstanceAs (Decidable (_ ∧ _ ≠ _ ∧
      ∃ task ∈ s.todo.head?, task.isBook = true))
  | .store => inferInstanceAs (Decidable (_ ∧ _ ≠ _ ∧
      ∃ task ∈ s.todo.head?, task.isStore = true))
  | .trade _ | .metrics => inferInstanceAs (Decidable (_ ∧ _ ≠ _ ∧ s.todo.head? = some _))
  | .signal => inferInstanceAs (Decidable (_ ∧ _ ≠ _ ∧ True))
  | .server e => inferInstanceAs (Decidable (_ ∧ _ ≠ _ ∧ ofMain e = false ∧ s.server.Enabled e))

/-- The state that an event leaves. -/
def next (closes : WebSocketSession → Bool) (s : ServerMain) : Event → ServerMain
  | .beginPass now => s.beginPass now
  | .book draws =>
    match s.todo with
    | .book feed :: rest => s.book fixed8 feed draws rest
    | _ => s
  | .store =>
    match s.todo with
    | .store symbol message :: rest => s.store symbol message rest
    | _ => s
  | .trade draws => s.trade fixed8 draws s.todo.tail
  | .metrics => s.metrics s.todo.tail
  | .signal => { s with shutdownRequested := true }
  | .leave => { s with server := s.server.stop }
  | .server e => { s with server := s.server.next closes e }

def Step (closes : WebSocketSession → Bool) (s : ServerMain) (e : Event) (t : ServerMain) : Prop :=
  s.Enabled e ∧ t = s.next fixed8 closes e

/-- What an event broadcasts. -/
def items (s : ServerMain) : Event → List Item
  | .book draws =>
    match s.todo with
    | .book feed :: _ =>
      let (update, simulator) := (s.simulators feed).generateOrderBookUpdate draws
      [.book feed update simulator.sequence]
    | _ => []
  | .trade draws => [.trade ((s.simulators .btcBinance).generateTrade draws)]
  | .metrics => [.metrics s.messageCount s.bytesSent]
  | .beginPass _ | .store | .signal | .leave | .server _ => []

end ServerMain

end OrderbookEngine
