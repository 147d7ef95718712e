import OrderbookEngine.Core.Types
import OrderbookEngine.Library.Transition

/-!
# A session of the frontend WebSocket server

The welcome message, the answer to a ping and the write queue each start an
`async_write` of their own. The queue starts one for its front message when that is
the only one, or when the write before it is done.
-/

namespace OrderbookEngine

open Transition

/-- How far the handshake of a session has come. -/
inductive Handshake where
  | notStarted
  | accepting
  | accepted
  | failed
  deriving DecidableEq, Repr

/-- An `async_write`: the welcome with its timestamp, a pong, or the front of the queue. -/
inductive Write where
  | welcome (timestamp : Int)
  | pong
  | queued (message : StdString)
  deriving DecidableEq, Repr

namespace Write

/-- The bytes that are written. -/
def text : Write → StdString
  | .welcome timestamp =>
    lit "\x7b\"type\":\"connected\",\"message\":\"Connected to Crypto Order Book Engine\"," ++
      lit "\"timestamp\":" ++ lit (toString timestamp) ++ lit "\x7d"
  | .pong => lit "\x7b\"type\":\"pong\"\x7d"
  | .queued message => message

/-- The message of a write that comes from the queue. -/
def message? : Write → Option StdString
  | .queued message => some message
  | .welcome _ | .pong => none

end Write

/-- A session, with the writes issued on its stream. -/
structure WebSocketSession where
  /-- `broadcast` reaches the session. -/
  registered : Bool
  handshake : Handshake
  /-- An `async_read` is outstanding. -/
  reading : Bool
  writeQueue : List StdString
  /-- Writes that were issued and are not completed, oldest first. -/
  outstanding : List Write
  /-- All writes issued, and whether the handshake had succeeded by then. -/
  issued : List (Write × Bool)
  /-- The messages passed to `send`, oldest first. -/
  queued : List StdString
  deriving DecidableEq, Repr

/-- How an `async_read` ends. -/
inductive ReadResult where
  | closed
  | error
  | message (text : StdString)
  deriving DecidableEq, Repr

namespace WebSocketSession

def construct : WebSocketSession where
  registered := false
  handshake := .notStarted
  reading := false
  writeQueue := []
  outstanding := []
  issued := []
  queued := []

/-- `ws_.async_write`. -/
def asyncWrite (s : WebSocketSession) (w : Write) : WebSocketSession :=
  { s with
    outstanding := s.outstanding ++ [w]
    issued := s.issued ++ [(w, decide (s.handshake = .accepted))] }

/-- `do_read`. -/
def doRead (s : WebSocketSession) : WebSocketSession := { s with reading := true }

/-- `on_accept` at the clock reading `timestamp`. -/
def onAccept (s : WebSocketSession) (ok : Bool) (timestamp : Int) : WebSocketSession :=
  if ok then { s with handshake := .accepted }.asyncWrite (.welcome timestamp)
  else { s with handshake := .failed }

/-- The test that `on_read` makes of a message. -/
def isPing (message : StdString) : Bool := lit "\"type\":\"ping\"" <:+: message

/-- `on_read`. -/
def onRead (s : WebSocketSession) (r : ReadResult) : WebSocketSession :=
  let s := { s with reading := false }
  match r with
  | .closed | .error => s
  | .message text => if isPing text then s.asyncWrite .pong else s.doRead

/-- `send`. -/
def send (s : WebSocketSession) (message : StdString) : WebSocketSession :=
  let s := { s with
    writeQueue := s.writeQueue ++ [message]
    queued := s.queued ++ [message] }
  if s.writeQueue.length = 1 then s.asyncWrite (.queued message) else s

/-- `on_write`. -/
def onWrite (s : WebSocketSession) (ok : Bool) : WebSocketSession :=
  if !ok then s
  else
    match s.writeQueue.tail with
    | [] => { s with writeQueue := [] }
    | front :: rest => { s with writeQueue := front :: rest }.asyncWrite (.queued front)

/-- The handler of a write that completes. -/
def onComplete (s : WebSocketSession) (w : Write) (ok : Bool) : WebSocketSession :=
  let s := { s with outstanding := s.outstanding.erase w }
  match w with
  | .welcome _ => if ok then s.doRead else s
  | .pong => s.doRead
  | .queued _ => s.onWrite ok

/-- What happens to a session; `do_accept` registers it before it runs it. -/
inductive Event where
  | addSession
  | run
  | onAccept (ok : Bool) (timestamp : Int)
  | onRead (r : ReadResult)
  | send (message : StdString)
  | onComplete (w : Write) (ok : Bool)
  deriving DecidableEq, Repr

def Enabled (s : WebSocketSession) : Event → Prop
  | .addSession => s.registered = false
  | .run => s.registered = true ∧ s.handshake = .notStarted
  | .onAccept _ _ => s.handshake = .accepting
  | .onRead _ => s.reading = true
  | .send _ => s.registered = true
  | .onComplete w _ => w ∈ s.outstanding

instance decidableEnabled (s : WebSocketSession) : ∀ e, Decidable (s.Enabled e)
  | .addSession => inferInstanceAs (Decidable (s.registered = false))
  | .run => inferInstanceAs (Decidable (s.registered = true ∧ s.handshake = .notStarted))
  | .onAccept _ _ => inferInstanceAs (Decidable (s.handshake = .accepting))
  | .onRead _ => inferInstanceAs (Decidable (s.reading = true))
  | .send _ => inferInstanceAs (Decidable (s.registered = true))
  | .onComplete w _ => inferInstanceAs (Decidable (w ∈ s.outstanding))

/-- The state that an event leaves. -/
def next (s : WebSocketSession) : Event → WebSocketSession
  | .addSession => { s with registered := true }
  | .run => { s with handshake := .accepting }
  | .onAccept ok timestamp => s.onAccept ok timestamp
  | .onRead r => s.onRead r
  | .send message => s.send message
  | .onComplete w ok => s.onComplete w ok

/-- One atomic step. -/
def Step (s : WebSocketSession) (e : Event) (t : WebSocketSession) : Prop :=
  s.Enabled e ∧ t = s.next e

end WebSocketSession

end OrderbookEngine
