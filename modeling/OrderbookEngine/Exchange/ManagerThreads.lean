import OrderbookEngine.Exchange.ConnectionManager
import OrderbookEngine.Exchange.Connector

/-!
# The threads that call the connection manager

The methods of the manager, taken apart where a thread can wait: at
`connectors_mutex_`, at the join of an I/O thread and at the `subscriptions_mutex_`
of a connector. Callbacks of the user run on the I/O threads and, when `connect` or
a send reports an error, inside the method that made the call. A callback may call
any public method.
-/

namespace OrderbookEngine.ConnectionManager

/-- A thread of the user, or an I/O thread. -/
inductive Thread (ι : Type) where
  | client (i : ι)
  | io (number : Nat)
  deriving DecidableEq, Repr

/-- The two kinds of mutexes; a connector is named by its `ConnectorInfo`. -/
inductive Mutex where
  | connectors
  | subscriptions (id : Nat)
  deriving DecidableEq, Repr

/-- The public methods that lock `connectors_mutex_`. -/
inductive Method where
  | addExchange (exchange : Exchange)
  | removeExchange (exchange : Exchange)
  | startAll
  | start (exchange : Exchange)
  | stopAll
  | stop (exchange : Exchange)
  | subscribeAll (symbol : StdString)
  | subscribe (exchange : Exchange) (symbol : StdString)
  | unsubscribeAll (symbol : StdString)
  | unsubscribe (exchange : Exchange) (symbol : StdString)
  | setAutoReconnect
  | isConnected (exchange : Exchange)
  | getState (exchange : Exchange)
  | getActiveConnections
  | getExchanges
  deriving DecidableEq, Repr

/-- What a method does with a connector that it visits. -/
inductive Visit where
  | adds
  | starts
  | stops (removes : Bool)
  | subscribes
  | reads
  deriving DecidableEq, Repr

namespace Method

def visit : Method → Visit
  | .addExchange _ => .adds
  | .removeExchange _ => .stops true
  | .startAll | .start _ => .starts
  | .stopAll | .stop _ => .stops false
  | .subscribeAll _ | .subscribe _ _ | .unsubscribeAll _ | .unsubscribe _ _ => .subscribes
  | .setAutoReconnect | .isConnected _ | .getState _ | .getActiveConnections
  | .getExchanges => .reads

/-- The exchanges that a method visits under the mutex. -/
def targets (m : Method) (s : State) : List Exchange :=
  match m with
  | .addExchange exchange | .removeExchange exchange | .start exchange | .stop exchange
  | .subscribe exchange _ | .unsubscribe exchange _ | .isConnected exchange
  | .getState exchange => [exchange]
  | .startAll | .stopAll | .subscribeAll _ | .unsubscribeAll _ | .setAutoReconnect
  | .getActiveConnections | .getExchanges => s.connectors.keys

/-- The update of `subscriptions_` that a connector makes under its mutex, and whether
it sends a request afterwards. -/
def updateSubscriptions (m : Method) (symbols : List StdString) : List StdString × Bool :=
  match m with
  | .subscribeAll symbol | .subscribe _ symbol =>
    Connector.updateSubscriptions symbols symbol true
  | .unsubscribeAll symbol | .unsubscribe _ symbol =>
    Connector.updateSubscriptions symbols symbol false
  | _ => (symbols, false)

end Method

/-- A function on the stack of a thread, at the place where it stands. -/
inductive Frame where
  /-- A callback of the user. -/
  | callback
  /-- A method at the lock of `connectors_mutex_`. -/
  | waiting (m : Method)
  /-- A method that has the mutex, with the exchanges still to visit. -/
  | visiting (m : Method) (todo : List Exchange)
  /-- A method at the join of an I/O thread. -/
  | joining (m : Method) (number : Nat) (exchange : Exchange) (todo : List Exchange)
  /-- A method at the lock of `subscriptions_mutex_`. -/
  | subscribing (m : Method) (id : Nat) (todo : List Exchange)
  /-- `on_open` at the lock of `subscriptions_mutex_`. -/
  | opening (id : Nat)
  /-- `on_open` under that lock, with the symbols still to send. -/
  | resubscribing (id : Nat) (symbols : List StdString)
  deriving DecidableEq, Repr

namespace Frame

/-- The mutex that a function holds. -/
def holds : Frame → Option Mutex
  | .visiting _ _ | .joining _ _ _ _ | .subscribing _ _ _ => some .connectors
  | .resubscribing id _ => some (.subscriptions id)
  | .callback | .waiting _ | .opening _ => none

/-- The mutex that a function stands at. -/
def wants : Frame → Option Mutex
  | .waiting _ => some .connectors
  | .subscribing _ id _ | .opening id => some (.subscriptions id)
  | .callback | .visiting _ _ | .joining _ _ _ _ | .resubscribing _ _ => none

/-- The I/O thread that a function joins. -/
def joins : Frame → Option Nat
  | .joining _ number _ _ => some number
  | _ => none

end Frame

/-- How a `connect` or a send ends: with success, without an attempt, or with an
error that is reported to the error callback. -/
inductive Outcome where
  | ok
  | refused
  | reported
  deriving DecidableEq, Repr

/-- The manager with its mutexes and the functions that each thread is in, the
innermost first. -/
structure ConcurrentManager (ι : Type) where
  manager : State
  owner : Mutex → Option (Thread ι)
  subscriptions : Nat → List StdString
  calls : Thread ι → List Frame

/-- The I/O thread that stopping a connector joins. -/
def ConnectorInfo.joins (info : ConnectorInfo) : Option Nat :=
  match info.ioThread with
  | some ⟨number, true⟩ => if info.running then some number else none
  | _ => none

/-- What follows the join: `remove_exchange` also erases. -/
def State.halt (s : State) (removes : Bool) (exchange : Exchange) (info : ConnectorInfo) :
    State :=
  if removes then { s.destroyThread info with connectors := s.connectors.erase exchange }
  else { s with connectors := s.connectors.insert exchange info }

namespace ConcurrentManager

variable {ι : Type} [DecidableEq ι]

/-- A new manager, called by no thread. -/
def construct : ConcurrentManager ι where
  manager := ConnectionManager.construct
  owner := fun _ => none
  subscriptions := fun _ => []
  calls := fun _ => []

def setCalls (c : ConcurrentManager ι) (t : Thread ι) (frames : List Frame) :
    ConcurrentManager ι :=
  { c with calls := Function.update c.calls t frames }

@[simp] theorem setCalls_self (c : ConcurrentManager ι) (t : Thread ι) (frames : List Frame) :
    (c.setCalls t frames).calls t = frames := Function.update_self ..

theorem setCalls_of_ne (c : ConcurrentManager ι) {t u : Thread ι} (hu : u ≠ t)
    (frames : List Frame) : (c.setCalls t frames).calls u = c.calls u :=
  Function.update_of_ne hu ..

def setOwner (c : ConcurrentManager ι) (mutex : Mutex) (t : Option (Thread ι)) :
    ConcurrentManager ι :=
  { c with owner := Function.update c.owner mutex t }

/-- One pass of the loop in a method, `rest` being what the method was called from. -/
def visit (c : ConcurrentManager ι) (t : Thread ι) (m : Method) (exchange : Exchange)
    (todo : List Exchange) (rest : List Frame) (r : Outcome) : ConcurrentManager ι :=
  match m.visit, c.manager.connectors[exchange]? with
  | .adds, _ =>
    { c with manager := (c.manager.addExchange exchange).1 }.setCalls t (.visiting m todo :: rest)
  | .starts, some info =>
    if info.running then c.setCalls t (.visiting m todo :: rest)
    else match r with
      | .ok =>
        { c with manager := c.manager.launch exchange info }.setCalls t (.visiting m todo :: rest)
      | .refused => c.setCalls t (.visiting m todo :: rest)
      | .reported => c.setCalls t (.callback :: .visiting m todo :: rest)
  | .stops removes, some info =>
    let stopped := { c with
      manager := c.manager.halt false exchange { info with running := false } }
    match info.joins with
    | some number =>
      -- The join of the thread by itself throws, and the exception leaves the method.
      if t = .io number then (stopped.setOwner .connectors none).setCalls t rest
      else stopped.setCalls t (.joining m number exchange todo :: rest)
    | none =>
      { c with manager := c.manager.halt removes exchange { info with running := false } }.setCalls
        t (.visiting m todo :: rest)
  | .subscribes, some info =>
    if r = .refused then c.setCalls t (.visiting m todo :: rest)
    else c.setCalls t (.subscribing m info.id todo :: rest)
  | _, _ => c.setCalls t (.visiting m todo :: rest)

/-- The end of a join: the handle is no longer joinable. -/
def joined (c : ConcurrentManager ι) (m : Method) (exchange : Exchange) : ConcurrentManager ι :=
  match c.manager.connectors[exchange]? with
  | none => c
  | some info =>
    { c with manager := c.manager.halt (m.visit = .stops true) exchange info.halted }

/-- A thread goes on from the place where it stands. -/
def advance (c : ConcurrentManager ι) (t : Thread ι) (r : Outcome) : ConcurrentManager ι :=
  match c.calls t with
  | [] => c
  | .callback :: rest => c.setCalls t rest
  | .waiting m :: rest =>
    (c.setOwner .connectors (some t)).setCalls t (.visiting m (m.targets c.manager) :: rest)
  | .visiting _ [] :: rest => (c.setOwner .connectors none).setCalls t rest
  | .visiting m (exchange :: todo) :: rest => c.visit t m exchange todo rest r
  | .joining m _ exchange todo :: rest =>
    (c.joined m exchange).setCalls t (.visiting m todo :: rest)
  | .subscribing m id todo :: rest =>
    let (symbols, sends) := m.updateSubscriptions (c.subscriptions id)
    { c with subscriptions := Function.update c.subscriptions id symbols }.setCalls t
      (if sends ∧ r = Outcome.reported then .callback :: .visiting m todo :: rest
        else .visiting m todo :: rest)
  | .opening id :: rest =>
    (c.setOwner (.subscriptions id) (some t)).setCalls t
      (.resubscribing id (c.subscriptions id) :: rest)
  | .resubscribing id [] :: rest => (c.setOwner (.subscriptions id) none).setCalls t rest
  | .resubscribing id (_ :: symbols) :: rest =>
    c.setCalls t (if r = .reported then .callback :: .resubscribing id symbols :: rest
      else .resubscribing id symbols :: rest)

/-- A call of a public method, a step of a thread inside its functions, a handler of
a connector that invokes a callback, `on_open`, or the end of an I/O thread. -/
inductive Event (ι : Type) where
  | call (t : Thread ι) (m : Method)
  | advance (t : Thread ι) (r : Outcome)
  | handler (number : Nat)
  | onOpen (number : Nat)
  | runReturns (number : Nat)
  | storeRunning (number : Nat)

/-- The thread is in code of the user: outside every function, or in a callback. -/
def inUserCode (c : ConcurrentManager ι) (t : Thread ι) : Bool :=
  match c.calls t, t with
  | .callback :: _, _ => true
  | [], .client _ => true
  | _, _ => false

/-- The thread can go on: the mutex that it stands at is free, and the thread that it
joins is at its end. -/
def ready (c : ConcurrentManager ι) (t : Thread ι) : Bool :=
  match c.calls t with
  | [] => false
  | frame :: _ =>
    (match frame.wants with
      | none => true
      | some mutex => (c.owner mutex).isNone) &&
    match frame.joins with
      | none => true
      | some number => (c.manager.threads number).map IoThread.phase = some .finished

/-- An I/O thread is in its run loop, between two handlers. -/
def inRunLoop (c : ConcurrentManager ι) (number : Nat) : Bool :=
  (c.calls (.io number)).isEmpty &&
    (c.manager.threads number).map IoThread.phase = some .running

/-- A terminated program takes no steps. -/
def Enabled (c : ConcurrentManager ι) (e : Event ι) : Prop :=
  c.manager.terminated = false ∧
    match e with
    | .call t _ => c.inUserCode t = true
    | .advance t _ => c.ready t = true
    | .handler number | .onOpen number | .runReturns number => c.inRunLoop number = true
    | .storeRunning number => (c.manager.threads number).map IoThread.phase = some .returned

instance decidableEnabled (c : ConcurrentManager ι) : ∀ e, Decidable (c.Enabled e)
  | .call t _ => inferInstanceAs (Decidable (_ ∧ c.inUserCode t = true))
  | .advance t _ => inferInstanceAs (Decidable (_ ∧ c.ready t = true))
  | .handler number | .onOpen number | .runReturns number =>
    inferInstanceAs (Decidable (_ ∧ c.inRunLoop number = true))
  | .storeRunning number => inferInstanceAs (Decidable (_ ∧
      (c.manager.threads number).map IoThread.phase = some .returned))

/-- The state that an event leaves. -/
def next (c : ConcurrentManager ι) : Event ι → ConcurrentManager ι
  | .call t m => c.setCalls t (.waiting m :: c.calls t)
  | .advance t r => c.advance t r
  | .handler number => c.setCalls (.io number) [.callback]
  | .onOpen number =>
    match c.manager.threads number with
    | none => c
    | some thread => c.setCalls (.io number) [.callback, .opening thread.info]
  | .runReturns number => { c with manager := c.manager.runReturns number }
  | .storeRunning number => { c with manager := c.manager.storeRunning number }

/-- One atomic step. -/
def Step (c : ConcurrentManager ι) (e : Event ι) (d : ConcurrentManager ι) : Prop :=
  c.Enabled e ∧ d = c.next e

end ConcurrentManager

end OrderbookEngine.ConnectionManager
