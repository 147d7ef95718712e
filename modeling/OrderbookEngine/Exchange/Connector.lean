import OrderbookEngine.Core.Types
import OrderbookEngine.Library.Transition

/-!
# Exchange connectors and their reconnect logic

The Binance, Coinbase and Kraken connectors carry the same `connect`,
`disconnect`, `on_open`, `on_close` and `on_fail`, up to the prefix of their log
lines, so each function is defined once over the state that the three share. A
venue contributes its own constructor and subscription message. The transport is
the set of attempts that `client_.connect` put in flight and the set of
connections that have opened.
-/

namespace OrderbookEngine

open Transition

/-- The three connector classes, with the constructor argument each one keeps. -/
inductive Venue where
  | binance (useTestnet : Bool)
  | coinbase (useSandbox : Bool)
  | kraken (depth : UInt32)
  deriving DecidableEq, Repr

/-- `enum class ConnectionState`. -/
inductive ConnectionState where
  | disconnected
  | connecting
  | connected
  | reconnecting
  | failed
  deriving DecidableEq, Repr

/-- A websocketpp connection handle. -/
abbrev ConnectionHdl := Nat

/-- What a connector tells its user. -/
inductive Notification where
  | connection (connected : Bool) (reason : StdString)
  | error (message : StdString)
  deriving DecidableEq, Repr

/-- The members that the reconnect logic reads or writes, and the transport. -/
structure Connector where
  venue : Venue
  exchange : Exchange
  uri : StdString
  state : ConnectionState
  autoReconnect : Bool
  reconnectDelayMs : UInt32
  maxReconnectAttempts : UInt32
  reconnectCount : UInt32
  running : Bool
  connection : ConnectionHdl
  subscriptions : List StdString
  hasConnectionCallback : Bool
  hasErrorCallback : Bool
  /-- Callback invocations so far, oldest first. -/
  notified : List Notification
  /-- Frames handed to `client_.send`, with the handle they were sent on. -/
  frames : List (ConnectionHdl × StdString)
  /-- The counter behind the `id` field of Binance requests. -/
  idCounter : UInt64
  /-- Handles that `get_connection` has returned are below this one. -/
  nextHandle : ConnectionHdl
  /-- Attempts begun by `client_.connect` and not yet opened or failed. -/
  inFlight : List ConnectionHdl
  /-- Connections that opened and have not closed. -/
  opened : List ConnectionHdl
  deriving DecidableEq, Repr

/-- How `get_connection` and `client_.connect` end inside `connect`. -/
inductive ConnectOutcome where
  | ok
  | creationError (message : StdString)
  | creationThrows (what : StdString)
  | connectThrows (what : StdString)
  deriving DecidableEq, Repr

namespace Connector

/-- Members that the base class constructor and the member initialisers set. -/
def construct (venue : Venue) (exchange : Exchange) (uri : StdString) : Connector where
  venue := venue
  exchange := exchange
  uri := uri
  state := .disconnected
  autoReconnect := true
  reconnectDelayMs := 1000
  maxReconnectAttempts := 10
  reconnectCount := 0
  running := false
  connection := 0
  subscriptions := []
  hasConnectionCallback := false
  hasErrorCallback := false
  notified := []
  frames := []
  idCounter := 1
  nextHandle := 1
  inFlight := []
  opened := []

/-- Invoke `connection_callback_` if one is set. -/
def notifyConnection (c : Connector) (connected : Bool) (reason : StdString) : Connector :=
  if c.hasConnectionCallback then
    { c with notified := c.notified ++ [.connection connected reason] }
  else c

/-- Invoke `error_callback_` if one is set. -/
def notifyError (c : Connector) (message : StdString) : Connector :=
  if c.hasErrorCallback then { c with notified := c.notified ++ [.error message] } else c

/-- The request text that each venue's `send_subscription` builds. -/
def subscriptionMessage (c : Connector) (symbol : StdString) (subscribe : Bool) : StdString :=
  match c.venue with
  | .binance _ =>
    lit "\x7b\"method\":\"" ++ lit (if subscribe then "SUBSCRIBE" else "UNSUBSCRIBE") ++
      lit "\",\"params\":[\"" ++ symbol ++ lit "@depth@100ms" ++ lit "\"],\"id\":" ++
      decimal c.idCounter.toNat ++ lit "\x7d"
  | .coinbase _ =>
    lit "\x7b\"type\":\"" ++ lit (if subscribe then "subscribe" else "unsubscribe") ++
      lit "\",\"product_ids\":[\"" ++ symbol ++
      lit "\"],\"channels\":[\"level2_batch\"]\x7d"
  | .kraken depth =>
    lit "\x7b\"event\":\"" ++ lit (if subscribe then "subscribe" else "unsubscribe") ++
      lit "\",\"pair\":[\"" ++ symbol ++
      lit "\"],\"subscription\":\x7b\"name\":\"book\",\"depth\":" ++
      decimal depth.toNat ++ lit "\x7d\x7d"

/-- `send_subscription` when the send succeeds. Only Binance draws a request id. -/
def sendSubscription (c : Connector) (symbol : StdString) (subscribe : Bool) : Connector :=
  { c with
    frames := c.frames ++ [(c.connection, c.subscriptionMessage symbol subscribe)]
    idCounter := match c.venue with
      | .binance _ => c.idCounter + 1
      | _ => c.idCounter }

/-- The guarded section of `subscribe` and `unsubscribe` on the stored symbols, and
whether a request follows it. -/
def updateSubscriptions (symbols : List StdString) (symbol : StdString) (subscribe : Bool) :
    List StdString × Bool :=
  if subscribe then
    if symbol ∈ symbols then (symbols, false) else (symbol :: symbols, true)
  else
    if symbol ∈ symbols then (symbols.filter (· ≠ symbol), true) else (symbols, false)

/-- `connect`: refuses every state but `DISCONNECTED`. -/
def connect (c : Connector) (r : ConnectOutcome) : Connector × Bool :=
  if c.state ≠ .disconnected then (c, false)
  else
    let c := { c with state := .connecting }
    match r with
    | .creationError message =>
      (({ c with state := .failed }).notifyError
        (lit "Connection creation failed: " ++ message), false)
    | .creationThrows what =>
      (({ c with state := .failed }).notifyError (lit "Exception: " ++ what), false)
    | .connectThrows what =>
      (({ c with
          connection := c.nextHandle
          nextHandle := c.nextHandle + 1
          state := .failed }).notifyError (lit "Exception: " ++ what), false)
    | .ok =>
      ({ c with
          connection := c.nextHandle
          nextHandle := c.nextHandle + 1
          inFlight := c.nextHandle :: c.inFlight }, true)

/-- `disconnect`: the close handshake it starts ends in a later `on_close`. -/
def disconnect (c : Connector) : Connector :=
  if c.state = .disconnected then c else { c with state := .disconnected, running := false }

/-- `on_open`, which also sends a subscription for every stored symbol. -/
def onOpen (c : Connector) (hdl : ConnectionHdl) : Connector :=
  let c := { c with
    inFlight := c.inFlight.erase hdl
    opened := hdl :: c.opened
    state := .connected
    reconnectCount := 0 }
  c.subscriptions.foldl (fun c symbol => c.sendSubscription symbol true)
    (c.notifyConnection true (lit "Connected"))

/-- The check that `on_close` makes on the counter before it was incremented. -/
def attemptsRemaining (c : Connector) : Bool :=
  c.maxReconnectAttempts = 0 || c.reconnectCount < c.maxReconnectAttempts

/-- `on_close`; `r` is what its call of `connect` would meet. -/
def onClose (c : Connector) (hdl : ConnectionHdl) (r : ConnectOutcome) : Connector :=
  let prevState := c.state
  let c := ({ c with opened := c.opened.erase hdl, state := .disconnected }).notifyConnection
    false (lit "Connection closed")
  if c.autoReconnect && prevState = .connected then
    let remaining := c.attemptsRemaining
    let c := { c with reconnectCount := c.reconnectCount + 1 }
    if remaining then (({ c with state := .reconnecting }).connect r).1
    else { c with state := .failed }
  else c

/-- `on_fail`; `ec` is the error code text, absent when reading it throws. -/
def onFail (c : Connector) (hdl : ConnectionHdl) (ec : Option StdString) : Connector :=
  let c := ({ c with inFlight := c.inFlight.erase hdl, state := .failed }).notifyConnection
    false (lit "Connection failed")
  match ec with
  | some message => c.notifyError (lit "Connection failed: " ++ message)
  | none => c.notifyError (lit "Connection failed")

end Connector

/-- `BinanceConnector::BinanceConnector`. -/
def BinanceConnector.construct (useTestnet : Bool) : Connector :=
  Connector.construct (.binance useTestnet) Exchange.binance
    (if useTestnet then lit "wss://testnet.binance.vision/ws"
      else lit "wss://stream.binance.com:9443/ws")

/-- `CoinbaseConnector::CoinbaseConnector`. -/
def CoinbaseConnector.construct (useSandbox : Bool) : Connector :=
  Connector.construct (.coinbase useSandbox) Exchange.coinbase
    (if useSandbox then lit "wss://ws-feed-public.sandbox.exchange.coinbase.com"
      else lit "wss://ws-feed.exchange.coinbase.com")

/-- The depths that Kraken offers; any other one falls back to 10. -/
def KrakenConnector.validDepth (depth : UInt32) : UInt32 :=
  if depth ≠ 10 ∧ depth ≠ 25 ∧ depth ≠ 100 ∧ depth ≠ 500 ∧ depth ≠ 1000 then 10 else depth

/-- `KrakenConnector::KrakenConnector`. -/
def KrakenConnector.construct (depth : UInt32) : Connector :=
  Connector.construct (.kraken (KrakenConnector.validDepth depth)) Exchange.kraken
    (lit "wss://ws.kraken.com")

/-- The constructor that belongs to a venue. -/
def Venue.construct : Venue → Connector
  | .binance useTestnet => BinanceConnector.construct useTestnet
  | .coinbase useSandbox => CoinbaseConnector.construct useSandbox
  | .kraken depth => KrakenConnector.construct depth

namespace Connector

/-- User calls and handler deliveries, each one atomic. -/
inductive Event where
  | setConnectionCallback
  | setErrorCallback
  | setAutoReconnect (enable : Bool)
  | setReconnectDelay (delayMs : UInt32)
  | setMaxReconnectAttempts (maxAttempts : UInt32)
  | connect (r : ConnectOutcome)
  | disconnect
  | onOpen (hdl : ConnectionHdl)
  | onClose (hdl : ConnectionHdl) (r : ConnectOutcome)
  | onFail (hdl : ConnectionHdl) (ec : Option StdString)
  deriving DecidableEq, Repr

/-- The transport delivers `on_open` and `on_fail` for an attempt in flight and
`on_close` for a connection that has opened. -/
def Enabled (c : Connector) : Event → Prop
  | .onOpen hdl => hdl ∈ c.inFlight
  | .onFail hdl _ => hdl ∈ c.inFlight
  | .onClose hdl _ => hdl ∈ c.opened
  | _ => True

instance (c : Connector) : (e : Event) → Decidable (c.Enabled e)
  | .onOpen hdl => inferInstanceAs (Decidable (hdl ∈ c.inFlight))
  | .onFail hdl _ => inferInstanceAs (Decidable (hdl ∈ c.inFlight))
  | .onClose hdl _ => inferInstanceAs (Decidable (hdl ∈ c.opened))
  | .setConnectionCallback | .setErrorCallback | .setAutoReconnect _ | .setReconnectDelay _
  | .setMaxReconnectAttempts _ | .connect _ | .disconnect => isTrue trivial

/-- The state that an event leaves. -/
def next (c : Connector) : Event → Connector
  | .setConnectionCallback => { c with hasConnectionCallback := true }
  | .setErrorCallback => { c with hasErrorCallback := true }
  | .setAutoReconnect enable => { c with autoReconnect := enable }
  | .setReconnectDelay delayMs => { c with reconnectDelayMs := delayMs }
  | .setMaxReconnectAttempts maxAttempts => { c with maxReconnectAttempts := maxAttempts }
  | .connect r => (c.connect r).1
  | .disconnect => c.disconnect
  | .onOpen hdl => c.onOpen hdl
  | .onClose hdl r => c.onClose hdl r
  | .onFail hdl ec => c.onFail hdl ec

/-- One user call or one delivered handler. -/
def Step (c : Connector) (e : Event) (d : Connector) : Prop := c.Enabled e ∧ d = c.next e

end Connector

end OrderbookEngine
