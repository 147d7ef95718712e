import OrderbookEngine.Exchange.Connector

/-!
# Which closes leave a connector without an attempt in flight

`on_close` stores `RECONNECTING` and then calls `connect`, which refuses every
state but `DISCONNECTED`. The automatic reconnect therefore never starts an
attempt of its own, and the connector keeps an attempt behind its state exactly
as long as no such close is delivered while nothing else is in flight.
-/

namespace OrderbookEngine.Connector

open Transition

section Fields

variable (c : Connector)

@[simp] theorem notifyConnection_state (b : Bool) (r : StdString) :
    (c.notifyConnection b r).state = c.state := by
  unfold notifyConnection; split <;> rfl

@[simp] theorem notifyConnection_inFlight (b : Bool) (r : StdString) :
    (c.notifyConnection b r).inFlight = c.inFlight := by
  unfold notifyConnection; split <;> rfl

@[simp] theorem notifyConnection_autoReconnect (b : Bool) (r : StdString) :
    (c.notifyConnection b r).autoReconnect = c.autoReconnect := by
  unfold notifyConnection; split <;> rfl

@[simp] theorem notifyConnection_attemptsRemaining (b : Bool) (r : StdString) :
    (c.notifyConnection b r).attemptsRemaining = c.attemptsRemaining := by
  unfold notifyConnection; split <;> rfl

@[simp] theorem notifyError_state (m : StdString) : (c.notifyError m).state = c.state := by
  unfold notifyError; split <;> rfl

@[simp] theorem notifyError_inFlight (m : StdString) :
    (c.notifyError m).inFlight = c.inFlight := by
  unfold notifyError; split <;> rfl

/-- Resending the subscriptions touches neither the state nor the attempts. -/
theorem resubscribe_fields (symbols : List StdString) :
    (symbols.foldl (fun c symbol => c.sendSubscription symbol true) c).state = c.state ∧
      (symbols.foldl (fun c symbol => c.sendSubscription symbol true) c).inFlight =
        c.inFlight := by
  induction symbols generalizing c with
  | nil => exact ⟨rfl, rfl⟩
  | cons s symbols ih => exact ih (c.sendSubscription s true)

end Fields

/-- Any state but `DISCONNECTED` makes `connect` return at once. -/
theorem connect_refused {c : Connector} (r : ConnectOutcome) (h : c.state ≠ .disconnected) :
    c.connect r = (c, false) := by
  simp only [connect, h, ne_eq, not_false_eq_true, if_true]

/-- A call of `connect` from `DISCONNECTED` either puts an attempt in flight or fails. -/
theorem connect_disconnected {c : Connector} (r : ConnectOutcome) (h : c.state = .disconnected) :
    ((c.connect r).1.state = .connecting ∧
        (c.connect r).1.inFlight = c.nextHandle :: c.inFlight) ∨
      ((c.connect r).1.state = .failed ∧ r ≠ .ok) := by
  cases r <;> simp [connect, h]

@[simp] theorem onOpen_state (c : Connector) (hdl : ConnectionHdl) :
    (c.onOpen hdl).state = .connected := by
  simp only [onOpen, resubscribe_fields, notifyConnection_state]

@[simp] theorem onFail_state (c : Connector) (hdl : ConnectionHdl) (ec : Option StdString) :
    (c.onFail hdl ec).state = .failed := by
  cases ec <;> simp [onFail]

/-- The attempt made by `on_close` is refused, so the attempts in flight stay as they were. -/
@[simp] theorem onClose_inFlight (c : Connector) (hdl : ConnectionHdl) (r : ConnectOutcome) :
    (c.onClose hdl r).inFlight = c.inFlight := by
  simp only [onClose]
  split
  · split
    · rw [connect_refused r (by simp)]
      simp
    · simp
  · simp

/-- The state after `on_close`, on each of its three paths. -/
theorem onClose_state (c : Connector) (hdl : ConnectionHdl) (r : ConnectOutcome) :
    (c.onClose hdl r).state =
      if c.autoReconnect = true ∧ c.state = .connected then
        if c.attemptsRemaining = true then .reconnecting else .failed
      else .disconnected := by
  have hrem : ∀ d : Connector, d = { c with opened := c.opened.erase hdl, state := .disconnected } →
      d.attemptsRemaining = c.attemptsRemaining := by
    rintro d rfl
    rfl
  simp only [onClose, notifyConnection_autoReconnect, notifyConnection_attemptsRemaining,
    hrem _ rfl, Bool.and_eq_true, decide_eq_true_eq]
  split
  · split
    · rw [connect_refused r (by simp)]
    · rfl
  · simp

/-- A state that waits for the transport has an attempt to wait for. -/
def AttemptPending (c : Connector) : Prop :=
  c.state = .connecting ∨ c.state = .reconnecting → c.inFlight ≠ []

/-- What a close owes a connector that may still reconnect: an attempt in
flight, or `FAILED` because creating the connection did not succeed. -/
def ReconnectStarted (s : Connector) (e : Event) (t : Connector) : Prop :=
  ∀ hdl r, e = .onClose hdl r → s.state = .connected → s.autoReconnect = true →
    s.attemptsRemaining = true → t.inFlight ≠ [] ∨ (t.state = .failed ∧ r ≠ .ok)

/-- Both halves of the reconnect contract, for one step. -/
def ReconnectSound (s : Connector) (e : Event) (t : Connector) : Prop :=
  AttemptPending t ∧ ReconnectStarted s e t

/-- A close that asks for an automatic reconnect while no attempt is in flight. -/
def ClosesWithoutAttempt (s : Connector) : Event → Prop
  | .onClose _ _ => s.state = .connected ∧ s.autoReconnect = true ∧
      s.attemptsRemaining = true ∧ s.inFlight = []
  | _ => False

/-- Every other step keeps an attempt behind the waiting states. -/
theorem reconnectSound_of_step {s t : Connector} {e : Event} (hs : AttemptPending s)
    (hc : ¬ ClosesWithoutAttempt s e) (h : Step s e t) : ReconnectSound s e t := by
  obtain ⟨-, rfl⟩ := h
  cases e with
  | setConnectionCallback | setErrorCallback | setAutoReconnect _ | setReconnectDelay _
  | setMaxReconnectAttempts _ => exact ⟨hs, by simp [ReconnectStarted]⟩
  | connect r =>
    refine ⟨?_, by simp [ReconnectStarted]⟩
    by_cases hd : s.state = .disconnected
    · rcases connect_disconnected r hd with ⟨_, hf⟩ | ⟨hf, _⟩
      · simp [AttemptPending, next, hf]
      · simp [AttemptPending, next, hf]
    · rwa [next, connect_refused r hd]
  | disconnect =>
    refine ⟨?_, by simp [ReconnectStarted]⟩
    simp only [next, disconnect]
    split
    · exact hs
    · simp [AttemptPending]
  | onOpen hdl => exact ⟨by simp [AttemptPending, next], by simp [ReconnectStarted]⟩
  | onClose hdl r =>
    simp only [ClosesWithoutAttempt] at hc
    constructor
    · intro hw hnil
      rw [next, onClose_inFlight] at hnil
      rw [next, onClose_state] at hw
      split at hw
      · rename_i hauto
        split at hw
        · rename_i hrem
          exact hc ⟨hauto.2, hauto.1, hrem, hnil⟩
        · simp at hw
      · simp at hw
    · intro _ _ _ hconn hauto hrem
      left
      rw [next, onClose_inFlight]
      exact fun hnil => hc ⟨hconn, hauto, hrem, hnil⟩
  | onFail hdl ec => exact ⟨by simp [AttemptPending, next], by simp [ReconnectStarted]⟩

/-- The refused reconnect leaves `RECONNECTING` behind with nothing in flight. -/
theorem not_reconnectSound_of_close {s t : Connector} {e : Event}
    (hc : ClosesWithoutAttempt s e) (h : Step s e t) : ¬ ReconnectSound s e t := by
  obtain ⟨-, rfl⟩ := h
  cases e with
  | onClose hdl r =>
    obtain ⟨hconn, hauto, hrem, hnil⟩ := hc
    rintro ⟨hpending, -⟩
    refine hpending (Or.inr ?_) (by rw [next, onClose_inFlight, hnil])
    rw [next, onClose_state]
    simp [hauto, hconn, hrem]
  | _ => exact hc.elim

/-- A constructed connector is disconnected. -/
theorem attemptPending_construct (v : Venue) : AttemptPending v.construct := by
  cases v <;> simp [AttemptPending, Venue.construct, BinanceConnector.construct,
    CoinbaseConnector.construct, KrakenConnector.construct, construct]

/-- For each of the three connectors, a run keeps the reconnect contract at
every step exactly when no close asks for a reconnect with nothing in flight. -/
theorem reconnectSound_iff (v : Venue) (tr : List (Event × Connector))
    (h : IsRun Step v.construct tr) :
    Always ReconnectSound v.construct tr ↔
      Guarded (fun s e => ¬ ClosesWithoutAttempt s e) v.construct tr :=
  IsRun.always_iff_guarded AttemptPending
    (fun _ _ _ hs hc hst =>
      ⟨(reconnectSound_of_step hs hc hst).1, reconnectSound_of_step hs hc hst⟩)
    (fun _ _ _ _ hc hst => not_reconnectSound_of_close (not_not.mp hc) hst)
    h (attemptPending_construct v)

/-- A Kraken connector whose user turned the automatic reconnect off. -/
theorem reconnectSound_iff_manual :
    Always ReconnectSound (Venue.kraken 10).construct
      (runOf next (Venue.kraken 10).construct
        [.setAutoReconnect false, .connect .ok, .onOpen 1, .onClose 1 .ok]) := by
  refine (reconnectSound_iff (.kraken 10) (runOf next (Venue.kraken 10).construct
    [.setAutoReconnect false, .connect .ok, .onOpen 1, .onClose 1 .ok])
    ⟨⟨trivial, rfl⟩, ⟨trivial, rfl⟩, ⟨by decide, rfl⟩, ⟨by decide, rfl⟩, trivial⟩).mpr
    ⟨id, id, id, ?_, trivial⟩
  rintro ⟨-, hauto, -⟩
  exact absurd hauto (by decide)

/-- A Binance connector that connects, opens and is closed by the peer ends in
`RECONNECTING` with no attempt in flight. -/
theorem reconnectSound_fails :
    ¬ ∀ (v : Venue) (tr : List (Event × Connector)), IsRun Step v.construct tr →
      Always ReconnectSound v.construct tr := by
  intro h
  let c := (Venue.binance false).construct
  obtain ⟨-, -, ⟨hpending, -⟩, -⟩ :=
    h (.binance false) (runOf next c [.connect .ok, .onOpen 1, .onClose 1 .ok])
      ⟨⟨trivial, rfl⟩, ⟨by decide, rfl⟩, ⟨by decide, rfl⟩, trivial⟩
  exact hpending (Or.inr (by decide)) (by decide)

end OrderbookEngine.Connector
