import OrderbookEngine.Core.Types
import OrderbookEngine.Library.Transition

/-!
# The connection manager

The map of connectors with their I/O threads. The methods hold the mutex and are
single steps; the I/O threads take steps of their own. A `std::thread` that is
destroyed or replaced while it is joinable terminates the program.
-/

namespace OrderbookEngine.ConnectionManager

open Transition

/-- Where an I/O thread stands: in `connector->run()`, before it stores `running`,
or at its end. -/
inductive Phase where
  | running
  | returned
  | finished
  deriving DecidableEq, Repr

/-- An I/O thread, with the connector whose information it refers to. -/
structure IoThread where
  exchange : Exchange
  info : Nat
  phase : Phase
  deriving DecidableEq, Repr

/-- A `std::thread` object. -/
structure StdThread where
  number : Nat
  joinable : Bool
  deriving DecidableEq, Repr

/-- `ConnectorInfo`, numbered by its creation; its connector is left out. -/
structure ConnectorInfo where
  id : Nat
  ioThread : Option StdThread
  running : Bool
  deriving DecidableEq, Repr

/-- `connectors_` and the I/O threads launched so far. -/
structure State where
  connectors : Std.TreeMap Exchange ConnectorInfo
  created : Nat
  threads : Nat → Option IoThread
  launched : Nat
  destroyed : Bool
  terminated : Bool

/-- A new manager. -/
def construct : State where
  connectors := ∅
  created := 0
  threads := fun _ => none
  launched := 0
  destroyed := false
  terminated := false

/-- The exchanges that `create_connector` knows. -/
def createsConnector (exchange : Exchange) : Bool :=
  exchange = .binance || exchange = .coinbase || exchange = .kraken

namespace ConnectorInfo

/-- `io_thread && io_thread->joinable()`. -/
def joinable (info : ConnectorInfo) : Bool :=
  match info.ioThread with
  | none => false
  | some thread => thread.joinable

/-- The information after `running.store(false)` and the join. -/
def halted (info : ConnectorInfo) : ConnectorInfo :=
  { info with
    running := false
    ioThread := info.ioThread.map fun thread => { thread with joinable := false } }

end ConnectorInfo

namespace State

/-- The destruction of the thread object that an information holds. -/
def destroyThread (s : State) (info : ConnectorInfo) : State :=
  { s with terminated := s.terminated || info.joinable }

/-- `connector->stop()` and the join, which lasts until the thread is at its end. -/
def joinThread (s : State) (info : ConnectorInfo) : State :=
  match info.ioThread with
  | some ⟨number, true⟩ =>
    { s with
      threads := Function.update s.threads number
        ((s.threads number).map fun thread => { thread with phase := .finished }) }
  | _ => s

/-- `running.store(true)` and the new I/O thread in place of the old one. -/
def launch (s : State) (exchange : Exchange) (info : ConnectorInfo) : State :=
  { s.destroyThread info with
    connectors := s.connectors.insert exchange
      { info with running := true, ioThread := some ⟨s.launched, true⟩ }
    threads := Function.update s.threads s.launched (some ⟨exchange, info.id, .running⟩)
    launched := s.launched + 1 }

/-- `add_exchange`. -/
def addExchange (s : State) (exchange : Exchange) : State × Bool :=
  if s.connectors.contains exchange then (s, false)
  else if !createsConnector exchange then (s, false)
  else
    ({ s with
        connectors := s.connectors.insert exchange ⟨s.created, none, false⟩
        created := s.created + 1 }, true)

/-- The end of a running connector: it is stopped, joined and disconnected. -/
def stopOne (s : State) (e : Exchange × ConnectorInfo) : State :=
  if e.2.running then
    { s.joinThread e.2 with connectors := s.connectors.insert e.1 e.2.halted }
  else s

/-- `remove_exchange`. -/
def removeExchange (s : State) (exchange : Exchange) : State × Bool :=
  match s.connectors[exchange]? with
  | none => (s, false)
  | some info =>
    let stopped := s.stopOne (exchange, info)
    ({ stopped.destroyThread (if info.running then info.halted else info) with
        connectors := stopped.connectors.erase exchange }, true)

/-- One pass of the loop of `start_all`; `connects` is what `connect` returns. -/
def startOne (connects : Exchange → Bool) (r : State × Bool) (e : Exchange × ConnectorInfo) :
    State × Bool :=
  if e.2.running then r
  else if !connects e.1 then (r.1, false)
  else (r.1.launch e.1 e.2, r.2)

/-- `start_all`. -/
def startAll (s : State) (connects : Exchange → Bool) : State × Bool :=
  s.connectors.toList.foldl (startOne connects) (s, true)

/-- `start`. -/
def start (s : State) (exchange : Exchange) (connects : Bool) : State × Bool :=
  match s.connectors[exchange]? with
  | none => (s, false)
  | some info =>
    if info.running then (s, true)
    else if !connects then (s, false)
    else (s.launch exchange info, true)

/-- `stop_all`. -/
def stopAll (s : State) : State := s.connectors.toList.foldl stopOne s

/-- `stop`. -/
def stop (s : State) (exchange : Exchange) : State :=
  match s.connectors[exchange]? with
  | none => s
  | some info => s.stopOne (exchange, info)

/-- `~ConnectionManager`, with the destruction of its members. -/
def destroy (s : State) : State :=
  { s.stopAll.connectors.toList.foldl (fun s e => s.destroyThread e.2) s.stopAll with
    connectors := ∅
    destroyed := true }

/-- `connector->run()` returns in an I/O thread. -/
def runReturns (s : State) (number : Nat) : State :=
  { s with
    threads := Function.update s.threads number
      ((s.threads number).map fun thread => { thread with phase := .returned }) }

/-- The information that an I/O thread refers to, unless it was erased. -/
def infoOf (s : State) (thread : IoThread) : Option ConnectorInfo :=
  s.connectors[thread.exchange]?.filter fun info => info.id = thread.info

/-- An I/O thread stores `running = false` and ends. -/
def storeRunning (s : State) (number : Nat) : State :=
  match s.threads number with
  | none => s
  | some thread =>
    { s with
      threads := Function.update s.threads number (some { thread with phase := .finished })
      connectors :=
        match s.infoOf thread with
        | none => s.connectors
        | some info => s.connectors.insert thread.exchange { info with running := false } }

end State

/-- A call of the manager, with what `connect` returns in it, or a step of an I/O
thread. -/
inductive Event where
  | addExchange (exchange : Exchange)
  | removeExchange (exchange : Exchange)
  | startAll (connects : Exchange → Bool)
  | start (exchange : Exchange) (connects : Bool)
  | stopAll
  | stop (exchange : Exchange)
  | destroy
  | runReturns (number : Nat)
  | storeRunning (number : Nat)

namespace State

/-- A terminated program takes no steps, a destroyed manager no calls. -/
def Enabled (s : State) : Event → Prop
  | .runReturns number => s.terminated = false ∧
    (s.threads number).map IoThread.phase = some .running
  | .storeRunning number => s.terminated = false ∧
    (s.threads number).map IoThread.phase = some .returned
  | _ => s.terminated = false ∧ s.destroyed = false

instance decidableEnabled (s : State) : ∀ e, Decidable (s.Enabled e)
  | .runReturns number => inferInstanceAs (Decidable (s.terminated = false ∧
    (s.threads number).map IoThread.phase = some .running))
  | .storeRunning number => inferInstanceAs (Decidable (s.terminated = false ∧
    (s.threads number).map IoThread.phase = some .returned))
  | .addExchange _ | .removeExchange _ | .startAll _ | .start _ _ | .stopAll | .stop _
  | .destroy => inferInstanceAs (Decidable (s.terminated = false ∧ s.destroyed = false))

/-- The state that an event leaves. -/
def next (s : State) : Event → State
  | .addExchange exchange => (s.addExchange exchange).1
  | .removeExchange exchange => (s.removeExchange exchange).1
  | .startAll connects => (s.startAll connects).1
  | .start exchange connects => (s.start exchange connects).1
  | .stopAll => s.stopAll
  | .stop exchange => s.stop exchange
  | .destroy => s.destroy
  | .runReturns number => s.runReturns number
  | .storeRunning number => s.storeRunning number

/-- One atomic step. -/
def Step (s : State) (e : Event) (t : State) : Prop := s.Enabled e ∧ t = s.next e

end State

end OrderbookEngine.ConnectionManager
