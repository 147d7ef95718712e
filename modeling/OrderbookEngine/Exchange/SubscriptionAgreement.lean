import OrderbookEngine.Exchange.Reconnect
import OrderbookEngine.Exchange.Subscriptions

/-!
# When the stored subscriptions agree with the server

What the server has too much or too little is owed to a call whose update is done
and whose send is still to come. Two calls for one symbol that send against the
order of their updates leave a difference that nobody makes up for.
-/

namespace OrderbookEngine.Connector

open Transition

section Handles

variable {c d : Connector}

/-- The stored symbols and the handles stay. -/
structure SameHandles (c d : Connector) : Prop where
  subscriptions : d.subscriptions = c.subscriptions
  connection : d.connection = c.connection
  nextHandle : d.nextHandle = c.nextHandle

/-- The connector has a new handle, on which nothing was sent. -/
structure FreshHandle (c d : Connector) : Prop where
  subscriptions : d.subscriptions = c.subscriptions
  connection : d.connection = c.nextHandle
  nextHandle : d.nextHandle = c.nextHandle + 1
  notConnected : d.state ≠ .connected

theorem SameHandles.trans {e : Connector} (h : SameHandles c d) (h' : SameHandles d e) :
    SameHandles c e :=
  ⟨h'.subscriptions.trans h.subscriptions, h'.connection.trans h.connection,
    h'.nextHandle.trans h.nextHandle⟩

theorem SameHandles.notifyConnection (h : SameHandles c d) (connected : Bool)
    (reason : StdString) : SameHandles c (d.notifyConnection connected reason) := by
  rw [Connector.notifyConnection]
  split
  · exact ⟨h.subscriptions, h.connection, h.nextHandle⟩
  · exact h

theorem SameHandles.notifyError (h : SameHandles c d) (message : StdString) :
    SameHandles c (d.notifyError message) := by
  rw [Connector.notifyError]
  split
  · exact ⟨h.subscriptions, h.connection, h.nextHandle⟩
  · exact h

/-- The requests of `on_open` leave the handles alone. -/
theorem sameHandles_resubscribe (symbols : List StdString) :
    SameHandles c (symbols.foldl (fun c symbol => c.sendSubscription symbol true) c) := by
  induction symbols generalizing c with
  | nil => exact ⟨rfl, rfl, rfl⟩
  | cons symbol symbols ih =>
    exact SameHandles.trans (d := c.sendSubscription symbol true) ⟨rfl, rfl, rfl⟩ ih

theorem sameHandles_onOpen (hdl : ConnectionHdl) : SameHandles c (c.onOpen hdl) := by
  rw [onOpen]
  refine SameHandles.trans ?_ (sameHandles_resubscribe _)
  apply SameHandles.notifyConnection
  exact ⟨rfl, rfl, rfl⟩

theorem sameHandles_onFail (hdl : ConnectionHdl) (ec : Option StdString) :
    SameHandles c (c.onFail hdl ec) := by
  have hfailed : SameHandles c (({ c with inFlight := c.inFlight.erase hdl, state := .failed }
      ).notifyConnection false (lit "Connection failed")) := by
    apply SameHandles.notifyConnection
    exact ⟨rfl, rfl, rfl⟩
  cases ec <;> exact hfailed.notifyError _

theorem sameHandles_onClose (hdl : ConnectionHdl) (r : ConnectOutcome) :
    SameHandles c (c.onClose hdl r) := by
  have hclosed : SameHandles c (({ c with opened := c.opened.erase hdl, state := .disconnected }
      ).notifyConnection false (lit "Connection closed")) := by
    apply SameHandles.notifyConnection
    exact ⟨rfl, rfl, rfl⟩
  simp only [onClose]
  split
  · split
    · rw [connect_refused r (by simp)]
      exact hclosed.trans ⟨rfl, rfl, rfl⟩
    · exact hclosed.trans ⟨rfl, rfl, rfl⟩
  · exact hclosed

/-- The connection under the current handle is open or may still open. -/
def Live (c : Connector) : Prop := c.state = .connected ∨ c.inFlight ≠ []

/-- The handles stay, and no connection comes to life. -/
structure NoNewConnection (c d : Connector) : Prop extends SameHandles c d where
  connected : d.state = .connected → c.state = .connected
  inFlight : d.inFlight ≠ [] → c.inFlight ≠ []

theorem NoNewConnection.live (h : NoNewConnection c d) (hlive : Live d) : Live c :=
  hlive.imp h.connected h.inFlight

theorem NoNewConnection.refl (c : Connector) : NoNewConnection c c := ⟨⟨rfl, rfl, rfl⟩, id, id⟩

/-- `connect` leaves the handles alone, or it begins under a new one. -/
theorem connect_handles (r : ConnectOutcome) :
    NoNewConnection c (c.connect r).1 ∨ FreshHandle c (c.connect r).1 := by
  by_cases hstate : c.state = .disconnected
  · have hnext : (c.connect r).1.state ≠ .connected := by
      obtain h | h := connect_disconnected r hstate <;> simp [h.1]
    cases r with
    | ok =>
      refine .inr ⟨?_, ?_, ?_, hnext⟩
      all_goals simp [connect, hstate]
    | connectThrows what =>
      let attempt : Connector := { c with
        connection := c.nextHandle, nextHandle := c.nextHandle + 1, state := .failed }
      have hattempt : SameHandles attempt (attempt.notifyError (lit "Exception: " ++ what)) :=
        SameHandles.notifyError ⟨rfl, rfl, rfl⟩ _
      simp only [connect, hstate, ne_eq, not_true_eq_false, if_false] at hnext ⊢
      exact .inr ⟨hattempt.subscriptions, hattempt.connection, hattempt.nextHandle, hnext⟩
    | creationError message | creationThrows message =>
      simp only [connect, hstate, ne_eq, not_true_eq_false, if_false] at hnext ⊢
      refine .inl ⟨?_, fun h => absurd h hnext, by simp⟩
      apply SameHandles.notifyError
      exact ⟨rfl, rfl, rfl⟩
  · rw [connect_refused r hstate]
    exact .inl (.refl c)

/-- Only `on_open` makes a connector `CONNECTED`, and only `connect` begins an attempt. -/
theorem next_handles {e : Event} (he : ∀ hdl, e ≠ .onOpen hdl) :
    NoNewConnection c (c.next e) ∨ FreshHandle c (c.next e) := by
  cases e with
  | onOpen hdl => exact absurd rfl (he hdl)
  | connect r => exact connect_handles r
  | disconnect =>
    refine .inl ?_
    simp only [next, disconnect]
    split
    · exact .refl c
    · exact ⟨⟨rfl, rfl, rfl⟩, fun h => ConnectionState.noConfusion h, id⟩
  | onClose hdl r =>
    refine .inl ⟨sameHandles_onClose hdl r, fun h => ?_, ?_⟩
    · rw [next, onClose_state] at h
      split at h
      · split at h <;> cases h
      · cases h
    · rw [next, onClose_inFlight]
      exact id
  | onFail hdl ec =>
    refine .inl ⟨sameHandles_onFail hdl ec, fun h => ?_, fun h hempty => h ?_⟩
    · rw [next, onFail_state] at h
      cases h
    · cases ec <;> simp [next, onFail, hempty]
  | setConnectionCallback | setErrorCallback | setAutoReconnect | setReconnectDelay
  | setMaxReconnectAttempts => exact .inl ⟨⟨rfl, rfl, rfl⟩, id, id⟩

end Handles

section Server

variable {server : ConnectionHdl → Finset StdString} {hdl : ConnectionHdl}
  {symbol other : StdString} {subscribe : Bool}

theorem mem_serve : other ∈ serve server hdl symbol subscribe hdl ↔
    if other = symbol then subscribe = true else other ∈ server hdl := by
  rw [serve, Function.update_self]
  cases subscribe <;> by_cases h : other = symbol <;> simp [h]

theorem serve_of_ne {hdl' : ConnectionHdl} (h : hdl' ≠ hdl) :
    serve server hdl symbol subscribe hdl' = server hdl' := Function.update_of_ne h ..

/-- The server after the requests of `on_open`. -/
theorem mem_resubscribe (symbols : List StdString) :
    other ∈ symbols.foldl (fun server symbol => serve server hdl symbol true) server hdl ↔
      other ∈ server hdl ∨ other ∈ symbols := by
  induction symbols generalizing server with
  | nil => simp
  | cons symbol symbols ih =>
    rw [List.foldl_cons, ih, mem_serve, List.mem_cons]
    by_cases h : other = symbol <;> simp [h]

theorem resubscribe_of_ne {hdl' : ConnectionHdl} (h : hdl' ≠ hdl) (symbols : List StdString) :
    symbols.foldl (fun server symbol => serve server hdl symbol true) server hdl' =
      server hdl' := by
  induction symbols generalizing server with
  | nil => rfl
  | cons symbol symbols ih => rw [List.foldl_cons, ih, serve_of_ne h]

end Server

namespace Wire

variable {κ : Type} {c d : Wire κ} {k : κ} {symbol : StdString} {subscribe : Bool}

/-- A call that has made its update and still has to send. -/
def Owes (c : Wire κ) (k : κ) (symbol : StdString) (subscribe : Bool) : Prop :=
  c.calls k = some ⟨symbol, subscribe, .updated⟩

/-- When no call is in progress and the connector is `CONNECTED`, the server has the
stored subscriptions. -/
def Agreed (c : Wire κ) : Prop :=
  (∀ k, c.calls k = none) → c.connector.state = .connected →
    ∀ symbol, symbol ∈ c.server c.connector.connection ↔ symbol ∈ c.connector.subscriptions

/-- A request is sent that says what is stored, or that another call will take back, or
on a connection that is not open: there `on_open` sends what is stored, and what is too
much does not matter when no attempt is in flight. -/
def SendsWhatIsStored (c : Wire κ) : WireEvent κ → Prop
  | .send k => ∀ call ∈ c.calls k,
    (call.subscribe = true ↔ call.symbol ∈ c.connector.subscriptions) ∨
      (∃ k' ≠ k, c.Owes k' call.symbol !call.subscribe) ∨
      (c.connector.state ≠ .connected ∧ (call.subscribe = false ∨ c.connector.inFlight = []))
  | _ => True

instance decidableSendsWhatIsStored [Fintype κ] [DecidableEq κ] (c : Wire κ) :
    ∀ e, Decidable (c.SendsWhatIsStored e)
  | .send k =>
    have : ∀ k symbol subscribe, Decidable (c.Owes k symbol subscribe) :=
      fun k symbol subscribe => inferInstanceAs (Decidable
        (c.calls k = some ⟨symbol, subscribe, .updated⟩))
    inferInstanceAs (Decidable (∀ call ∈ c.calls k,
      (call.subscribe = true ↔ call.symbol ∈ c.connector.subscriptions) ∨
        (∃ k' ≠ k, c.Owes k' call.symbol !call.subscribe) ∨
        (c.connector.state ≠ .connected ∧ (call.subscribe = false ∨ c.connector.inFlight = []))))
  | .connection _ | .begin _ _ _ | .update _ => isTrue trivial

/-- What every run keeps whose requests say what is stored. -/
structure Inv (c : Wire κ) : Prop where
  fresh : ∀ hdl, c.connector.nextHandle ≤ hdl → c.server hdl = ∅
  current : c.connector.connection < c.connector.nextHandle
  surplus : c.connector.Live → ∀ symbol ∈ c.server c.connector.connection,
    symbol ∈ c.connector.subscriptions ∨ ∃ k, c.Owes k symbol false
  missing : c.connector.state = .connected → ∀ symbol ∈ c.connector.subscriptions,
    symbol ∈ c.server c.connector.connection ∨ ∃ k, c.Owes k symbol true

theorem Inv.agreed (h : Inv c) : Agreed c := by
  intro hidle hconnected symbol
  have hnone : ∀ b, ¬ ∃ k, c.Owes k symbol b := by
    rintro b ⟨k, howes⟩
    rw [Owes, hidle k] at howes
    cases howes
  exact ⟨fun hserver => (h.surplus (.inl hconnected) symbol hserver).resolve_right (hnone false),
    fun hstored => (h.missing hconnected symbol hstored).resolve_right (hnone true)⟩

/-- A call that has not come to its update owes nothing. -/
theorem Owes.ne_of_progress {k' : κ} (h : c.Owes k' symbol subscribe)
    (hk : (c.calls k).map Call.progress ≠ some .updated) : k' ≠ k := by
  rintro rfl
  rw [h] at hk
  exact hk rfl

theorem inv_construct (venue : Venue) : Inv (construct venue : Wire κ) where
  fresh _ _ := rfl
  current := by cases venue <;> exact Nat.zero_lt_one
  surplus _ _ hserver := absurd hserver (Finset.notMem_empty _)
  missing hconnected := by cases venue <;> cases hconnected

theorem Inv.connectionEvent (h : Inv c) {e : Event} (henabled : c.connector.Enabled e) :
    Inv (c.connectionEvent e) := by
  by_cases he : ∃ hdl, e = .onOpen hdl
  · obtain ⟨hdl, rfl⟩ := he
    obtain ⟨hsubscriptions, hconnection, hnext⟩ := sameHandles_onOpen (c := c.connector) hdl
    constructor
    · intro other hother
      have hother : c.connector.nextHandle ≤ other := hnext ▸ hother
      exact (resubscribe_of_ne (h.current.trans_le hother).ne' _).trans (h.fresh other hother)
    · show (c.connector.onOpen hdl).connection < (c.connector.onOpen hdl).nextHandle
      rw [hconnection, hnext]
      exact h.current
    · intro _ symbol hserver
      have hserver : symbol ∈ c.connector.subscriptions.foldl _ c.server
        (c.connector.onOpen hdl).connection := hserver
      show symbol ∈ (c.connector.onOpen hdl).subscriptions ∨ _
      rw [hconnection, mem_resubscribe] at hserver
      rw [hsubscriptions]
      obtain hserver | hstored := hserver
      · exact h.surplus (.inr (List.ne_nil_of_mem henabled)) symbol hserver
      · exact .inl hstored
    · intro _ symbol hstored
      have hstored : symbol ∈ (c.connector.onOpen hdl).subscriptions := hstored
      show symbol ∈ c.connector.subscriptions.foldl _ c.server
        (c.connector.onOpen hdl).connection ∨ _
      rw [hsubscriptions] at hstored
      rw [hconnection, mem_resubscribe]
      exact .inl (.inr hstored)
  · push Not at he
    have hserver : (c.connectionEvent e).server = c.server := by
      cases e with
      | onOpen hdl => exact absurd rfl (he hdl)
      | _ => rfl
    have hconnector : (c.connectionEvent e).connector = c.connector.next e := rfl
    obtain hsame | hfresh := next_handles (c := c.connector) he
    · constructor
      · rw [hserver, hconnector, hsame.nextHandle]
        exact h.fresh
      · rw [hconnector, hsame.connection, hsame.nextHandle]
        exact h.current
      · rw [hserver, hconnector, hsame.connection, hsame.subscriptions]
        exact fun hlive => h.surplus (hsame.live hlive)
      · rw [hserver, hconnector, hsame.connection, hsame.subscriptions]
        exact fun hconnected => h.missing (hsame.connected hconnected)
    · constructor
      · rw [hserver, hconnector, hfresh.nextHandle]
        exact fun hdl hle => h.fresh hdl (Nat.le_of_succ_le hle)
      · rw [hconnector, hfresh.connection, hfresh.nextHandle]
        exact Nat.lt_succ_self _
      · rw [hserver, hconnector, hfresh.connection, h.fresh _ le_rfl]
        exact fun _ symbol hmem => absurd hmem (Finset.notMem_empty _)
      · rw [hconnector]
        exact fun hconnected => absurd hconnected hfresh.notConnected

section Step

variable [DecidableEq κ]

theorem Owes.of_ne {k' : κ} {call : Option Call} (h : c.Owes k' symbol subscribe) (hk : k' ≠ k)
    (hcalls : d.calls = Function.update c.calls k call) : d.Owes k' symbol subscribe := by
  rw [Owes, hcalls, Function.update_of_ne hk]
  exact h

theorem Inv.begin (h : Inv c) (hk : c.calls k = none) (symbol : StdString) (subscribe : Bool) :
    Inv (c.begin k symbol subscribe) := by
  rw [Wire.begin]
  split
  · have hkeep : ∀ other b, (∃ k, c.Owes k other b) → ∃ k', Owes { c with
        calls := Function.update c.calls k (some ⟨symbol, subscribe, .connected⟩) } k' other b := by
      rintro other b ⟨k', howes⟩
      exact ⟨k', howes.of_ne (howes.ne_of_progress (by simp [hk])) rfl⟩
    exact ⟨h.fresh, h.current,
      fun hlive other hmem => (h.surplus hlive other hmem).imp id (hkeep other false),
      fun hconnected other hmem => (h.missing hconnected other hmem).imp id (hkeep other true)⟩
  · exact h

/-- The guarded section either changes nothing, or it makes the membership of the symbol
what the call asks for. -/
theorem updateSubscriptions_cases (symbols : List StdString) (symbol : StdString)
    (subscribe : Bool) :
    updateSubscriptions symbols symbol subscribe = (symbols, false) ∨
      (updateSubscriptions symbols symbol subscribe).2 = true ∧
        ∀ other, other ∈ (updateSubscriptions symbols symbol subscribe).1 ↔
          if other = symbol then subscribe = true else other ∈ symbols := by
  unfold updateSubscriptions
  split <;> split
  · exact .inl rfl
  · rename_i hsubscribe _
    refine .inr ⟨rfl, fun other => ?_⟩
    by_cases ho : other = symbol <;> simp [ho, hsubscribe]
  · rename_i hsubscribe _
    refine .inr ⟨rfl, fun other => ?_⟩
    by_cases ho : other = symbol <;> simp [ho, hsubscribe]
  · exact .inl rfl

theorem Inv.update (h : Inv c) (hk : (c.calls k).map Call.progress = some .connected) :
    Inv (c.update k) := by
  obtain ⟨⟨symbol, subscribe, progress⟩, hcall, hprogress⟩ := Option.map_eq_some_iff.mp hk
  obtain rfl : progress = .connected := hprogress
  have hkeep : ∀ {d : Wire κ} {call : Option Call}, d.calls = Function.update c.calls k call →
      ∀ other b, (∃ k, c.Owes k other b) → ∃ k', d.Owes k' other b := by
    rintro d call hcalls other b ⟨k', howes⟩
    exact ⟨k', howes.of_ne (howes.ne_of_progress (by simp [hk])) hcalls⟩
  obtain hsame | ⟨hsends, hmem⟩ :=
    updateSubscriptions_cases c.connector.subscriptions symbol subscribe
  · have hd : c.update k = { c with calls := Function.update c.calls k none } := by
      simp only [Wire.update, hcall, hsame]
      rfl
    rw [hd]
    exact ⟨h.fresh, h.current,
      fun hlive other hserver => (h.surplus hlive other hserver).imp id (hkeep rfl other false),
      fun hconnected other hstored =>
        (h.missing hconnected other hstored).imp id (hkeep rfl other true)⟩
  · have hd : c.update k = { c with
        connector := { c.connector with
          subscriptions := (updateSubscriptions c.connector.subscriptions symbol subscribe).1 }
        calls := Function.update c.calls k (some ⟨symbol, subscribe, .updated⟩) } := by
      simp only [Wire.update, hcall, hsends, if_true]
    have howes : (c.update k).Owes k symbol subscribe := by
      rw [hd]
      exact Function.update_self ..
    rw [hd] at howes ⊢
    refine ⟨h.fresh, h.current, fun hlive other hserver => ?_, fun hconnected other hstored => ?_⟩
    · by_cases ho : other = symbol
      · subst ho
        cases subscribe with
        | true => exact .inl ((hmem other).mpr (by rw [if_pos rfl]))
        | false => exact .inr ⟨k, howes⟩
      · refine (h.surplus hlive other hserver).imp (fun hstored => ?_) (hkeep rfl other false)
        exact (hmem other).mpr (by rwa [if_neg ho])
    · have hstored := (hmem other).mp hstored
      by_cases ho : other = symbol
      · subst ho
        rw [if_pos rfl] at hstored
        subst hstored
        exact .inr ⟨k, howes⟩
      · rw [if_neg ho] at hstored
        exact (h.missing hconnected other hstored).imp id (hkeep rfl other true)

theorem send_eq (howes : c.Owes k symbol subscribe) : c.send k = { c with
    connector := c.connector.sendSubscription symbol subscribe
    server := serve c.server c.connector.connection symbol subscribe
    calls := Function.update c.calls k none } := by
  rw [Wire.send, howes]

theorem Inv.send (h : Inv c) (howes : c.Owes k symbol subscribe)
    (hstored : c.SendsWhatIsStored (.send k)) : Inv (c.send k) := by
  have hd := send_eq howes
  have hkeep : ∀ other b, (∃ k' ≠ k, c.Owes k' other b) → ∃ k', (c.send k).Owes k' other b := by
    rintro other b ⟨k', hk, howes'⟩
    exact ⟨k', howes'.of_ne hk (by rw [hd])⟩
  have hother : ∀ {other b}, other ≠ symbol → (∃ k, c.Owes k other b) →
      ∃ k' ≠ k, c.Owes k' other b := by
    rintro other b ho ⟨k', howes'⟩
    refine ⟨k', ?_, howes'⟩
    rintro rfl
    cases howes.symm.trans howes'
    exact ho rfl
  have hcond := hstored _ howes
  rw [hd] at hkeep ⊢
  refine ⟨fun hdl hle => ?_, h.current, fun hlive other hserver => ?_,
    fun hconnected other hstored => ?_⟩
  · exact (serve_of_ne (h.current.trans_le hle).ne').trans (h.fresh hdl hle)
  · have hserved := mem_serve.mp hserver
    by_cases ho : other = symbol
    · rw [if_pos ho] at hserved
      subst ho
      subst hserved
      obtain hiff | hpending | ⟨hnot, hdead⟩ := hcond
      · exact .inl (hiff.mp rfl)
      · exact .inr (hkeep other false hpending)
      · obtain hconnected | hflight := hlive
        · exact absurd hconnected hnot
        · exact absurd (hdead.resolve_left (by simp)) hflight
    · rw [if_neg ho] at hserved
      exact (h.surplus hlive other hserved).imp id fun hk => hkeep other false (hother ho hk)
  · by_cases ho : other = symbol
    · subst ho
      cases subscribe with
      | true => exact .inl (mem_serve.mpr (by rw [if_pos rfl]))
      | false =>
        obtain hiff | hpending | ⟨hnot, -⟩ := hcond
        · cases hiff.mpr hstored
        · exact .inr (hkeep other true hpending)
        · exact absurd hconnected hnot
    · refine (h.missing hconnected other hstored).imp (fun hserver => ?_)
        fun hk => hkeep other true (hother ho hk)
      exact mem_serve.mpr (by rwa [if_neg ho])

theorem Inv.step (h : Inv c) {e : WireEvent κ} (henabled : c.Enabled e)
    (hstored : c.SendsWhatIsStored e) : Inv (c.next e) := by
  cases e with
  | connection e => exact h.connectionEvent henabled
  | begin k symbol subscribe => exact h.begin henabled symbol subscribe
  | update k => exact h.update henabled
  | send k =>
    obtain ⟨⟨symbol, subscribe, progress⟩, hcall, hprogress⟩ := Option.map_eq_some_iff.mp henabled
    obtain rfl : progress = .updated := hprogress
    exact h.send hcall hstored

/-- The last call in progress leaves the server with the stored subscriptions exactly
when its request says what is stored. -/
theorem Inv.agreed_send_iff (h : Inv c) (howes : c.Owes k symbol subscribe)
    (hlast : ∀ k' ≠ k, c.calls k' = none) (hconnected : c.connector.state = .connected) :
    Agreed (c.send k) ↔ (subscribe = true ↔ symbol ∈ c.connector.subscriptions) := by
  constructor
  · intro hagreed
    rw [send_eq howes] at hagreed
    have hidle : ∀ k', Function.update c.calls k none k' = none := by
      intro k'
      by_cases hk : k' = k
      · rw [hk, Function.update_self]
      · rw [Function.update_of_ne hk, hlast k' hk]
    exact (mem_serve.trans (by rw [if_pos rfl])).symm.trans (hagreed hidle hconnected symbol)
  · intro hiff
    refine (h.send howes fun call hcall => .inl ?_).agreed
    cases howes.symm.trans hcall
    exact hiff

/-- In every run whose requests say what is stored, the server has the stored
subscriptions whenever no call is in progress and the connector is `CONNECTED`. -/
theorem agreed_of_sendsWhatIsStored {venue : Venue} {tr : List (WireEvent κ × Wire κ)}
    (hrun : IsRun Step (construct venue) tr)
    (hstored : Guarded SendsWhatIsStored (construct venue) tr) :
    Throughout Agreed (construct venue) tr := by
  refine (hrun.invariant Inv ?_ hstored (inv_construct venue)).mono fun c hc => hc.agreed
  rintro c e d hc hcond ⟨henabled, rfl⟩
  exact hc.step henabled hcond

end Step

/-- The connection opens, and two users call `subscribe` and `unsubscribe` for one
symbol; the set is updated in this order. -/
def overlappingCalls : List (WireEvent Bool) :=
  [.connection (.connect .ok), .connection (.onOpen 1), .begin true (lit "btcusdt") true,
    .begin false (lit "btcusdt") false, .update true, .update false]

theorem agreed_of_sendsWhatIsStored_inOrder :
    Throughout Agreed (construct (.binance false))
      (runOf next (construct (.binance false)) (overlappingCalls ++ [.send true, .send false])) :=
  agreed_of_sendsWhatIsStored (isRun_runOf_of_enabled (by decide +kernel)) (by decide +kernel)

/-- The call that updated the set first sends last, and the server keeps a subscription
that is not stored. -/
theorem overlappingCalls_disagree :
    IsRun Step (construct (.binance false))
        (runOf next (construct (.binance false))
          (overlappingCalls ++ [.send false, .send true])) ∧
      ¬ Throughout Agreed (construct (.binance false))
        (runOf next (construct (.binance false))
          (overlappingCalls ++ [.send false, .send true])) := by
  refine ⟨isRun_runOf_of_enabled (by decide +kernel), fun h => ?_⟩
  have hlast := h.last (inv_construct _).agreed
  rw [lastState_runOf] at hlast
  have hserver := (hlast (by decide +kernel) (by decide +kernel) (lit "btcusdt")).mp
    (by decide +kernel)
  revert hserver
  decide +kernel

end Wire

end OrderbookEngine.Connector
