import OrderbookEngine.Network.WebSocketSession

/-!
# The sessions of the frontend WebSocket server

The server keeps a `shared_ptr` of each session in `sessions_`, and each handler that
waits for a stream keeps another one. A session takes itself out of `sessions_` in its
destructor only, which runs when the last of them is gone. The handlers that still wait
when `stop` returns go with the `io_context`.
-/

namespace OrderbookEngine

open Transition

namespace WebSocketSession

/-- The handlers that wait for the stream. Each owns the session. -/
def handlers (s : WebSocketSession) : Nat :=
  (if s.handshake = .accepting then 1 else 0) + (if s.reading then 1 else 0) +
    s.outstanding.length

/-- The handlers that wait are destroyed, and none of them is called. -/
def dropHandlers (s : WebSocketSession) : WebSocketSession :=
  { s with
    handshake := if s.handshake = .accepting then .failed else s.handshake
    reading := false
    outstanding := [] }

/-- A handler of the session with the result that it is called with. -/
inductive Completion where
  | onAccept (ok : Bool) (timestamp : Int)
  | onRead (r : ReadResult)
  | onComplete (w : Write) (ok : Bool)
  deriving DecidableEq, Repr

namespace Completion

def event : Completion → Event
  | .onAccept ok timestamp => .onAccept ok timestamp
  | .onRead r => .onRead r
  | .onComplete w ok => .onComplete w ok

/-- The result says that the connection is over: the handshake or a write failed, or a
read found it closed or failed. -/
def ends : Completion → Bool
  | .onAccept ok _ | .onComplete _ ok => !ok
  | .onRead .closed | .onRead .error => true
  | .onRead (.message _) => false

/-- The handler starts another read or write of the session. -/
def goesOn (s : WebSocketSession) : Completion → Bool
  | .onAccept ok _ | .onComplete (.welcome _) ok => ok
  | .onRead .closed | .onRead .error => false
  | .onRead (.message _) | .onComplete .pong _ => true
  | .onComplete (.queued _) ok => ok && 1 < s.writeQueue.length

end Completion

end WebSocketSession

open WebSocketSession (Completion)

/-- A session of the server and its connection. -/
structure Client where
  session : WebSocketSession
  /-- The connection was accepted, has not failed and was not closed. -/
  isOpen : Bool
  deriving DecidableEq, Repr

namespace Client

/-- The `shared_ptr`s of the session, between two handlers. -/
def owners (c : Client) : Nat := c.session.handlers + if c.session.registered then 1 else 0

def complete (c : Client) (h : Completion) : Client where
  session := c.session.next h.event
  isOpen := c.isOpen && !h.ends

/-- The session is erased from `sessions_`. -/
def erase (c : Client) : Client := { c with session := { c.session with registered := false } }

/-- The handlers of the session are destroyed. The socket stays open. -/
def abandon (c : Client) : Client := { c with session := c.session.dropHandlers }

/-- `session->send`, for a session of `sessions_`. -/
def send (c : Client) (message : StdString) : Client :=
  if c.session.registered then { c with session := c.session.send message } else c

/-- `session->close`, for a session of `sessions_`. Whether `ws_.close` ends the
connection depends on the stream, and its error code is dropped. -/
def close (closes : WebSocketSession → Bool) (c : Client) : Client :=
  if c.session.registered && closes c.session then { c with isOpen := false } else c

end Client

/-- How far a call of `stop` has come. -/
inductive Stopping where
  | idle
  | closing
  | stoppingContext
  | stopped
  /-- The `io_context` is gone, and no handler waits. -/
  | destroyed
  deriving DecidableEq, Repr

/-- The server from the first `do_accept` of its thread on. -/
structure FrontendWebSocketServer where
  running : Bool
  /-- An `async_accept` is outstanding. -/
  accepting : Bool
  stopping : Stopping
  /-- Every session that was made, oldest first. The registered ones are in `sessions_`. -/
  clients : List Client
  /-- The thread that takes the step holds `sessions_mutex_`. -/
  locked : Bool
  /-- `sessions_mutex_` was acquired by the thread that held it. -/
  relocked : Bool
  /-- `shared_from_this` found no owner in a destructor, and the exception ended the
  process. -/
  terminated : Bool
  deriving DecidableEq, Repr

namespace FrontendWebSocketServer

/-- `start` has returned and its thread accepts connections. -/
def started : FrontendWebSocketServer where
  running := true
  accepting := true
  stopping := .idle
  clients := []
  locked := false
  relocked := false
  terminated := false

def lock (s : FrontendWebSocketServer) : FrontendWebSocketServer :=
  { s with locked := true, relocked := s.relocked || s.locked }

def unlock (s : FrontendWebSocketServer) : FrontendWebSocketServer := { s with locked := false }

def update (s : FrontendWebSocketServer) (i : Nat) (f : Client → Client) :
    FrontendWebSocketServer :=
  { s with clients := s.clients.modify i f }

/-- `get_connection_count`. -/
def getConnectionCount (s : FrontendWebSocketServer) : Nat :=
  s.clients.countP fun c => c.session.registered

def addSession (s : FrontendWebSocketServer) (session : WebSocketSession) :
    FrontendWebSocketServer :=
  let s := s.lock
  unlock { s with clients := s.clients ++ [⟨session.next .addSession, true⟩] }

def removeSession (s : FrontendWebSocketServer) (i : Nat) : FrontendWebSocketServer :=
  (s.lock.update i Client.erase).unlock

/-- `shared_from_this`, which needs an owner. -/
def sharedFromThis (s : FrontendWebSocketServer) (i : Nat) : Option Nat :=
  match s.clients[i]? with
  | some c => if 0 < c.owners then some i else none
  | none => none

/-- `~WebSocketSession`. -/
def destroy (s : FrontendWebSocketServer) (i : Nat) : FrontendWebSocketServer :=
  match s.sharedFromThis i with
  | some session => s.removeSession session
  | none => { s with terminated := true }

/-- A `shared_ptr` of the session is gone. -/
def release (s : FrontendWebSocketServer) (i : Nat) : FrontendWebSocketServer :=
  if s.clients[i]?.map Client.owners = some 0 then s.destroy i else s

def doAccept (s : FrontendWebSocketServer) : FrontendWebSocketServer :=
  if s.running then { s with accepting := true } else s

/-- The handler of `async_accept`. -/
def onAccept (s : FrontendWebSocketServer) (ok : Bool) : FrontendWebSocketServer :=
  let s := { s with accepting := false }
  let s :=
    if ok then
      (s.addSession .construct).update s.clients.length
        fun c => { c with session := c.session.next .run }
    else s
  s.doAccept

/-- A handler of a session returns, and its `shared_ptr` is gone. -/
def complete (s : FrontendWebSocketServer) (i : Nat) (h : Completion) :
    FrontendWebSocketServer :=
  (s.update i fun c => c.complete h).release i

def broadcast (s : FrontendWebSocketServer) (message : StdString) : FrontendWebSocketServer :=
  if !s.running then s
  else
    let s := s.lock
    unlock { s with clients := s.clients.map fun c => c.send message }

/-- `f` takes from a session the owners that `holds` tells of. -/
def drop (holds : Client → Bool) (f : Client → Client) (s : FrontendWebSocketServer) (i : Nat) :
    FrontendWebSocketServer :=
  if !s.terminated && s.clients[i]?.any holds then (s.update i f).release i else s

/-- The sessions lose their owners one after the other. -/
def dropAll (holds : Client → Bool) (f : Client → Client) (s : FrontendWebSocketServer) :
    FrontendWebSocketServer :=
  (List.range s.clients.length).foldl (drop holds f) s

/-- `sessions_.clear()`. -/
def clear (s : FrontendWebSocketServer) : FrontendWebSocketServer :=
  s.dropAll (fun c => c.session.registered) Client.erase

/-- `~io_context`, which destroys the handlers that wait. -/
def abandon (s : FrontendWebSocketServer) : FrontendWebSocketServer :=
  { s.dropAll (fun c => 0 < c.session.handlers) Client.abandon with accepting := false }

/-- `stop`, up to the block that locks `sessions_mutex_`. -/
def stop (s : FrontendWebSocketServer) : FrontendWebSocketServer :=
  if s.running then { s with running := false, stopping := .closing } else s

/-- The block of `stop` that closes and clears the sessions. -/
def closeSessions (closes : WebSocketSession → Bool) (s : FrontendWebSocketServer) :
    FrontendWebSocketServer :=
  let s := s.lock
  let s := { s with clients := s.clients.map (Client.close closes) }
  { s.clear.unlock with stopping := .stoppingContext }

/-- `ioc_->stop()` and the join with the server thread, after which no handler runs. -/
def stopContext (s : FrontendWebSocketServer) : FrontendWebSocketServer :=
  { s with stopping := .stopped }

/-- The `io_context` is destroyed. `~FrontendWebSocketServer` destroys `sessions_` before it,
as members go in the reverse of their order; the thread of the next `start` replaces the
`io_context` alone. -/
def destroyContext (withServer : Bool) (s : FrontendWebSocketServer) : FrontendWebSocketServer :=
  let s := if withServer then s.clear else s
  { s.abandon with stopping := .destroyed }

inductive Event where
  | onAccept (ok : Bool)
  | complete (i : Nat) (h : Completion)
  | broadcast (message : StdString)
  | stop
  | closeSessions
  | stopContext
  | destroyContext (withServer : Bool)
  deriving DecidableEq, Repr

/-- The run ends with the `io_context`. -/
def Enabled (s : FrontendWebSocketServer) (e : Event) : Prop :=
  s.terminated = false ∧ s.stopping ≠ .destroyed ∧
    match e with
    | .onAccept _ => s.accepting = true ∧ s.stopping ≠ .stopped
    | .complete i h => s.stopping ≠ .stopped ∧
        ∃ c ∈ s.clients[i]?, c.session.Enabled h.event
    | .broadcast _ | .stop => True
    | .closeSessions => s.stopping = .closing
    | .stopContext => s.stopping = .stoppingContext
    | .destroyContext _ => s.stopping = .stopped

instance decidableEnabled (s : FrontendWebSocketServer) : ∀ e, Decidable (s.Enabled e)
  | .onAccept _ => inferInstanceAs (Decidable (_ ∧ _ ≠ _ ∧ _ ∧ _))
  | .complete i h => inferInstanceAs (Decidable (_ ∧ _ ≠ _ ∧ _ ∧
      ∃ c ∈ s.clients[i]?, c.session.Enabled h.event))
  | .broadcast _ | .stop => inferInstanceAs (Decidable (_ ∧ _ ≠ _ ∧ True))
  | .closeSessions | .stopContext | .destroyContext _ =>
    inferInstanceAs (Decidable (_ ∧ _ ≠ _ ∧ _))

/-- The state that an event leaves. -/
def next (closes : WebSocketSession → Bool) (s : FrontendWebSocketServer) :
    Event → FrontendWebSocketServer
  | .onAccept ok => s.onAccept ok
  | .complete i h => s.complete i h
  | .broadcast message => s.broadcast message
  | .stop => s.stop
  | .closeSessions => s.closeSessions closes
  | .stopContext => s.stopContext
  | .destroyContext withServer => s.destroyContext withServer

/-- One handler, or one part of a call, from its begin to its end. -/
def Step (closes : WebSocketSession → Bool) (s : FrontendWebSocketServer) (e : Event)
    (t : FrontendWebSocketServer) : Prop :=
  s.Enabled e ∧ t = s.next closes e

end FrontendWebSocketServer

end OrderbookEngine
