import OrderbookEngine.Exchange.Connector

/-!
# The stored subscriptions and those of the server

`subscribe` and `unsubscribe` update the stored symbols under a mutex and send their
request after they released it. `on_open` sends all stored symbols under the mutex.
Every send succeeds, and the server applies the requests on a connection in the order
in which they are sent.
-/

namespace OrderbookEngine.Connector

open Transition

/-- How far a call of `subscribe` or `unsubscribe` has come. -/
inductive Progress where
  | connected
  | updated
  deriving DecidableEq, Repr

/-- A call of `subscribe` or `unsubscribe` in progress. -/
structure Call where
  symbol : StdString
  subscribe : Bool
  progress : Progress
  deriving DecidableEq, Repr

/-- A connector, the subscriptions that the server keeps for each connection, and the
calls in progress. -/
structure Wire (κ : Type) where
  connector : Connector
  server : ConnectionHdl → Finset StdString
  calls : κ → Option Call

/-- The server applies a request that arrives on a connection. -/
def serve (server : ConnectionHdl → Finset StdString) (hdl : ConnectionHdl)
    (symbol : StdString) (subscribe : Bool) : ConnectionHdl → Finset StdString :=
  Function.update server hdl
    (if subscribe then insert symbol (server hdl) else (server hdl).erase symbol)

/-- An event of the connection, or a step of a call: the test of `is_connected`, the
guarded update, the send. -/
inductive WireEvent (κ : Type) where
  | connection (e : Event)
  | begin (k : κ) (symbol : StdString) (subscribe : Bool)
  | update (k : κ)
  | send (k : κ)
  deriving DecidableEq

namespace Wire

variable {κ : Type} [DecidableEq κ]

/-- A connector that nobody has called yet. -/
def construct (venue : Venue) : Wire κ where
  connector := venue.construct
  server := fun _ => ∅
  calls := fun _ => none

def Enabled (c : Wire κ) : WireEvent κ → Prop
  | .connection e => c.connector.Enabled e
  | .begin k _ _ => c.calls k = none
  | .update k => (c.calls k).map Call.progress = some .connected
  | .send k => (c.calls k).map Call.progress = some .updated

instance decidableEnabled (c : Wire κ) : ∀ e, Decidable (c.Enabled e)
  | .connection e => inferInstanceAs (Decidable (c.connector.Enabled e))
  | .begin k _ _ => inferInstanceAs (Decidable (c.calls k = none))
  | .update k => inferInstanceAs (Decidable ((c.calls k).map Call.progress = some .connected))
  | .send k => inferInstanceAs (Decidable ((c.calls k).map Call.progress = some .updated))

/-- An event of the connection; the requests of `on_open` arrive on the current one. -/
def connectionEvent (c : Wire κ) (e : Event) : Wire κ :=
  { c with
    connector := c.connector.next e
    server := match e with
      | .onOpen _ => c.connector.subscriptions.foldl
          (fun server symbol => serve server c.connector.connection symbol true) c.server
      | _ => c.server }

/-- A call that finds no connection returns at once. -/
def begin (c : Wire κ) (k : κ) (symbol : StdString) (subscribe : Bool) : Wire κ :=
  if c.connector.state = .connected then
    { c with calls := Function.update c.calls k (some ⟨symbol, subscribe, .connected⟩) }
  else c

/-- The guarded section of a call, which returns when it has nothing to change. -/
def update (c : Wire κ) (k : κ) : Wire κ :=
  match c.calls k with
  | none => c
  | some call =>
    let (symbols, sends) :=
      updateSubscriptions c.connector.subscriptions call.symbol call.subscribe
    { c with
      connector := { c.connector with subscriptions := symbols }
      calls := Function.update c.calls k
        (if sends then some { call with progress := .updated } else none) }

/-- The send that ends a call. -/
def send (c : Wire κ) (k : κ) : Wire κ :=
  match c.calls k with
  | none => c
  | some call =>
    { c with
      connector := c.connector.sendSubscription call.symbol call.subscribe
      server := serve c.server c.connector.connection call.symbol call.subscribe
      calls := Function.update c.calls k none }

/-- The state that an event leaves. -/
def next (c : Wire κ) : WireEvent κ → Wire κ
  | .connection e => c.connectionEvent e
  | .begin k symbol subscribe => c.begin k symbol subscribe
  | .update k => c.update k
  | .send k => c.send k

/-- One atomic step. -/
def Step (c : Wire κ) (e : WireEvent κ) (d : Wire κ) : Prop := c.Enabled e ∧ d = c.next e

end Wire

end OrderbookEngine.Connector
