import OrderbookEngine.Core.Types
import OrderbookEngine.Library.OrderedMap

/-!
# The WebSocket server

Each open connection has a record of the symbols it subscribed to and of the channels
it asked for. Both broadcasts for a symbol go through one helper, which reads the
symbols only.
-/

namespace OrderbookEngine

open OrderedMap

/-- `ClientSubscription`. -/
structure ClientSubscription where
  symbols : Finset StdString
  subscribeOrderbook : Bool
  subscribeTrades : Bool
  subscribeAnalytics : Bool

namespace ClientSubscription

/-- The record of a new connection. -/
def construct : ClientSubscription where
  symbols := ∅
  subscribeOrderbook := true
  subscribeTrades := false
  subscribeAnalytics := false

/-- One pass of the loop over the channels of a request. -/
def activate (sub : ClientSubscription) (channel : StdString) : ClientSubscription :=
  if channel = lit "orderbook" then { sub with subscribeOrderbook := true }
  else if channel = lit "trades" then { sub with subscribeTrades := true }
  else if channel = lit "analytics" then { sub with subscribeAnalytics := true }
  else sub

def subscribe (sub : ClientSubscription) (symbol : StdString) (channels : List StdString) :
    ClientSubscription :=
  channels.foldl activate { sub with symbols := insert symbol sub.symbols }

def unsubscribe (sub : ClientSubscription) (symbol : StdString) : ClientSubscription :=
  { sub with symbols := sub.symbols.erase symbol }

end ClientSubscription

/-- `connections_`, by the handles of type `H`, and the messages handed to
`server_.send` so far, oldest first. -/
structure WebSocketServer (H : Type) [LinearOrder H] where
  connections : Std.TreeMap H ClientSubscription
  sent : List (H × StdString)

namespace WebSocketServer

variable {H : Type} [LinearOrder H]

/-- A server without connections. -/
def construct : WebSocketServer H where
  connections := ∅
  sent := []

/-- `send_message`. -/
def sendMessage (s : WebSocketServer H) (hdl : H) (message : StdString) : WebSocketServer H :=
  { s with sent := s.sent ++ [(hdl, message)] }

/-- `on_open`. -/
def onOpen (s : WebSocketServer H) (hdl : H) : WebSocketServer H :=
  { s with connections := s.connections.insert hdl ClientSubscription.construct }

/-- `on_close`. -/
def onClose (s : WebSocketServer H) (hdl : H) : WebSocketServer H :=
  { s with connections := s.connections.erase hdl }

/-- `handle_subscribe`. -/
def handleSubscribe (s : WebSocketServer H) (hdl : H) (symbol : StdString)
    (channels : List StdString) : WebSocketServer H :=
  match s.connections[hdl]? with
  | none => s
  | some sub =>
    { s with connections := s.connections.insert hdl (sub.subscribe symbol channels) }.sendMessage
      hdl (lit "\x7b\"type\":\"subscribed\",\"symbol\":\"" ++ symbol ++ lit "\"\x7d")

/-- `handle_unsubscribe`. -/
def handleUnsubscribe (s : WebSocketServer H) (hdl : H) (symbol : StdString) :
    WebSocketServer H :=
  match s.connections[hdl]? with
  | none => s
  | some sub =>
    { s with connections := s.connections.insert hdl (sub.unsubscribe symbol) }.sendMessage
      hdl (lit "\x7b\"type\":\"unsubscribed\",\"symbol\":\"" ++ symbol ++ lit "\"\x7d")

/-- `broadcast_to_subscribers`. -/
def broadcastToSubscribers (s : WebSocketServer H) (symbol message : StdString) :
    WebSocketServer H :=
  s.connections.toList.foldl
    (fun s e => if symbol ∈ e.2.symbols then s.sendMessage e.1 message else s) s

/-- `broadcast_orderbook`, with the text made of the snapshot. -/
def broadcastOrderbook (s : WebSocketServer H) (symbol message : StdString) :
    WebSocketServer H := s.broadcastToSubscribers symbol message

/-- `broadcast_analytics`, with the text made of the analytics. -/
def broadcastAnalytics (s : WebSocketServer H) (symbol message : StdString) :
    WebSocketServer H := s.broadcastToSubscribers symbol message

/-- A request of a client. -/
inductive Request where
  | subscribe (symbol : StdString) (channels : List StdString)
  | unsubscribe (symbol : StdString)
  deriving DecidableEq, Repr

/-- What happens to the connections. -/
inductive Event (H : Type) where
  | onOpen (hdl : H)
  | onClose (hdl : H)
  | request (hdl : H) (r : Request)
  deriving DecidableEq, Repr

/-- The state that an event leaves. -/
def next (s : WebSocketServer H) : Event H → WebSocketServer H
  | .onOpen hdl => s.onOpen hdl
  | .onClose hdl => s.onClose hdl
  | .request hdl (.subscribe symbol channels) => s.handleSubscribe hdl symbol channels
  | .request hdl (.unsubscribe symbol) => s.handleUnsubscribe hdl symbol

/-- The server after a history of events. -/
def run (history : List (Event H)) : WebSocketServer H := history.foldl next construct

end WebSocketServer

end OrderbookEngine
