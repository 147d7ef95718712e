import OrderbookEngine.Network.WebSocketServer

/-!
# Who receives a broadcast

The symbols of each record are the subscriptions of its connection, and its flags the
channels that the connection asked for. A broadcast goes to the subscribers of its
symbol. For the order book channel, which is active from the start, these are the
receivers; for the analytics channel they are so only when all of them asked for it.
-/

namespace OrderbookEngine.WebSocketServer

open OrderedMap

variable {H : Type} [LinearOrder H] {history : List (Event H)} {s : WebSocketServer H}
  {hdl : H} {symbol message : StdString} {requests : List Request}

/-- The channels of the protocol. -/
inductive Channel where
  | orderbook
  | trades
  | analytics
  deriving DecidableEq, Repr

def Channel.name : Channel → StdString
  | .orderbook => lit "orderbook"
  | .trades => lit "trades"
  | .analytics => lit "analytics"

/-- The order book channel is active without a request. -/
def Channel.byDefault : Channel → Bool
  | .orderbook => true
  | .trades | .analytics => false

/-- What an event means to one connection. -/
def sessionStep (hdl : H) (requests : Option (List Request)) : Event H → Option (List Request)
  | .onOpen hdl' => if hdl' = hdl then some [] else requests
  | .onClose hdl' => if hdl' = hdl then none else requests
  | .request hdl' r => if hdl' = hdl then requests.map (· ++ [r]) else requests

/-- The requests of a connection since it opened, if it is open. -/
def session (hdl : H) (history : List (Event H)) : Option (List Request) :=
  history.foldl (sessionStep hdl) none

/-- The symbol was subscribed and not unsubscribed since. -/
def Subscribed (symbol : StdString) (requests : List Request) : Prop :=
  ∃ before channels after, requests = before ++ .subscribe symbol channels :: after ∧
    .unsubscribe symbol ∉ after

/-- Some request named the channel. -/
def Requested (channel : Channel) (requests : List Request) : Prop :=
  ∃ symbol channels, .subscribe symbol channels ∈ requests ∧ channel.name ∈ channels

/-- The connection is open, subscribed to the symbol, and has the channel active. -/
def Receives (history : List (Event H)) (symbol : StdString) (channel : Channel) (hdl : H) :
    Prop :=
  ∃ requests, session hdl history = some requests ∧ Subscribed symbol requests ∧
    (channel.byDefault = true ∨ Requested channel requests)

/-- The message was sent to exactly these connections, to each once. -/
def Delivers (s t : WebSocketServer H) (message : StdString) (receives : H → Prop) : Prop :=
  ∃ recipients : List H, t.sent = s.sent ++ recipients.map (·, message) ∧ recipients.Nodup ∧
    ∀ hdl, hdl ∈ recipients ↔ receives hdl

/-- Both broadcasts for a symbol reach their receivers. -/
def DeliversBySubscription (history : List (Event H)) (symbol : StdString) : Prop :=
  ∀ message,
    Delivers (run history) ((run history).broadcastOrderbook symbol message) message
      (Receives history symbol .orderbook) ∧
    Delivers (run history) ((run history).broadcastAnalytics symbol message) message
      (Receives history symbol .analytics)

section Records

/-- The record of a connection after one request. -/
def handle (sub : ClientSubscription) : Request → ClientSubscription
  | .subscribe symbol channels => sub.subscribe symbol channels
  | .unsubscribe symbol => sub.unsubscribe symbol

/-- The record of a connection that made these requests. -/
def recordOf (requests : List Request) : ClientSubscription :=
  requests.foldl handle ClientSubscription.construct

theorem recordOf_append (requests : List Request) (r : Request) :
    recordOf (requests ++ [r]) = handle (recordOf requests) r := by
  rw [recordOf, List.foldl_append]
  rfl

theorem session_append (history : List (Event H)) (e : Event H) :
    session hdl (history ++ [e]) = sessionStep hdl (session hdl history) e := by
  rw [session, List.foldl_append]
  rfl

theorem run_append (history : List (Event H)) (e : Event H) :
    run (history ++ [e]) = (run history).next e := by
  rw [run, List.foldl_append]
  rfl

/-- A request changes the record of its own connection only. -/
theorem connections_request (s : WebSocketServer H) (hdl hdl' : H) (r : Request) :
    (s.next (.request hdl' r)).connections[hdl]? =
      if hdl' = hdl then s.connections[hdl]?.map fun sub => handle sub r
      else s.connections[hdl]? := by
  have hinsert : ∀ sub, s.connections[hdl']? = some sub →
      (s.connections.insert hdl' (handle sub r))[hdl]? =
        if hdl' = hdl then s.connections[hdl]?.map fun sub => handle sub r
        else s.connections[hdl]? := by
    intro sub hat
    split
    · rename_i heq
      rw [← heq, Std.TreeMap.getElem?_insert_self, hat]
      rfl
    · rename_i hne
      exact getElem?_insert_of_ne (Ne.symm hne)
  have hmissing : s.connections[hdl']? = none → s.connections[hdl]? =
      if hdl' = hdl then s.connections[hdl]?.map fun sub => handle sub r
      else s.connections[hdl]? := by
    intro hat
    split
    · rename_i heq
      rw [← heq, hat]
      rfl
    · rfl
  cases r with
  | subscribe symbol channels =>
    simp only [next, handleSubscribe]
    split
    · rename_i hat
      exact hmissing hat
    · rename_i sub hat
      exact hinsert sub hat
  | unsubscribe symbol =>
    simp only [next, handleUnsubscribe]
    split
    · rename_i hat
      exact hmissing hat
    · rename_i sub hat
      exact hinsert sub hat

/-- After every history, the open connections have the records of their requests. -/
theorem connections_run (history : List (Event H)) (hdl : H) :
    (run history).connections[hdl]? = (session hdl history).map recordOf := by
  induction history using List.reverseRecOn with
  | nil => exact Std.TreeMap.getElem?_emptyc
  | append_singleton history e ih =>
    rw [run_append, session_append]
    cases e with
    | onOpen hdl' =>
      show ((run history).connections.insert hdl' _)[hdl]? = _
      rw [sessionStep]
      split
      · rename_i heq
        rw [heq, Std.TreeMap.getElem?_insert_self]
        rfl
      · rename_i hne
        rw [getElem?_insert_of_ne (Ne.symm hne), ih]
    | onClose hdl' =>
      show ((run history).connections.erase hdl')[hdl]? = _
      rw [sessionStep]
      split
      · rename_i heq
        rw [heq, Std.TreeMap.getElem?_erase_self]
        rfl
      · rename_i hne
        rw [getElem?_erase_of_ne (Ne.symm hne), ih]
    | request hdl' r =>
      rw [connections_request, sessionStep, ih]
      split
      · cases session hdl history with
        | none => rfl
        | some requests => exact congrArg some (recordOf_append requests r).symm
      · rfl

theorem subscribed_append (r : Request) : Subscribed symbol (requests ++ [r]) ↔
    (∃ channels, r = .subscribe symbol channels) ∨
      (r ≠ .unsubscribe symbol ∧ Subscribed symbol requests) := by
  constructor
  · rintro ⟨before, channels, after, heq, hnot⟩
    cases after using List.reverseRecOn with
    | nil => exact .inl ⟨channels, (List.append_inj' heq rfl).2 |> List.singleton_inj.mp⟩
    | append_singleton after r' =>
      rw [← List.cons_append, ← List.append_assoc] at heq
      obtain ⟨hrequests, hr⟩ := List.append_inj' heq rfl
      obtain rfl := List.singleton_inj.mp hr
      refine .inr ⟨?_, before, channels, after, hrequests, fun h => hnot (List.mem_append_left _ h)⟩
      rintro rfl
      exact hnot (List.mem_append_right _ List.mem_cons_self)
  · rintro (⟨channels, rfl⟩ | ⟨hr, before, channels, after, rfl, hnot⟩)
    · exact ⟨requests, channels, [], rfl, List.not_mem_nil⟩
    · refine ⟨before, channels, after ++ [r], by simp, fun hmem => ?_⟩
      obtain hafter | hlast := List.mem_append.mp hmem
      · exact hnot hafter
      · exact hr (List.mem_singleton.mp hlast).symm

theorem requested_append (channel : Channel) (r : Request) :
    Requested channel (requests ++ [r]) ↔
      Requested channel requests ∨
        ∃ symbol channels, r = .subscribe symbol channels ∧ channel.name ∈ channels := by
  simp only [Requested, List.mem_append, List.mem_singleton]
  constructor
  · rintro ⟨symbol, channels, hmem | hr, hchannel⟩
    · exact .inl ⟨symbol, channels, hmem, hchannel⟩
    · exact .inr ⟨symbol, channels, hr.symm, hchannel⟩
  · rintro (⟨symbol, channels, hmem, hchannel⟩ | ⟨symbol, channels, rfl, hchannel⟩)
    · exact ⟨symbol, channels, .inl hmem, hchannel⟩
    · exact ⟨symbol, channels, .inr rfl, hchannel⟩

/-- The channels of a request touch the flags only, and set the ones they name. -/
theorem foldl_activate (channels : List StdString) (sub : ClientSubscription) :
    (channels.foldl ClientSubscription.activate sub).symbols = sub.symbols ∧
      ((channels.foldl ClientSubscription.activate sub).subscribeAnalytics = true ↔
        sub.subscribeAnalytics = true ∨ Channel.analytics.name ∈ channels) := by
  induction channels generalizing sub with
  | nil => simp
  | cons channel channels ih =>
    obtain ⟨hsymbols, hanalytics⟩ := ih (sub.activate channel)
    rw [List.foldl_cons, hsymbols, hanalytics, List.mem_cons, ClientSubscription.activate,
      Channel.name]
    split
    · rename_i hname
      exact ⟨rfl, by rw [hname]; simp [show lit "analytics" ≠ lit "orderbook" by decide]⟩
    · split
      · rename_i hname
        exact ⟨rfl, by rw [hname]; simp [show lit "analytics" ≠ lit "trades" by decide]⟩
      · split
        · rename_i hname
          exact ⟨rfl, by rw [hname]; simp⟩
        · rename_i hname
          exact ⟨rfl, by simp [Ne.symm hname]⟩

/-- The symbols of a record are the subscriptions of its connection. -/
theorem mem_symbols_recordOf (symbol : StdString) (requests : List Request) :
    symbol ∈ (recordOf requests).symbols ↔ Subscribed symbol requests := by
  induction requests using List.reverseRecOn with
  | nil =>
    refine iff_of_false (Finset.notMem_empty _) ?_
    rintro ⟨before, channels, after, heq, -⟩
    simp at heq
  | append_singleton requests r ih =>
    rw [recordOf_append, subscribed_append, ← ih]
    cases r with
    | subscribe other channels =>
      rw [handle, ClientSubscription.subscribe, (foldl_activate channels _).1, Finset.mem_insert]
      simp [eq_comm]
    | unsubscribe other =>
      rw [handle, ClientSubscription.unsubscribe, Finset.mem_erase]
      simp [eq_comm]

/-- The analytics flag of a record says whether its connection asked for the channel. -/
theorem subscribeAnalytics_recordOf (requests : List Request) :
    (recordOf requests).subscribeAnalytics = true ↔ Requested .analytics requests := by
  induction requests using List.reverseRecOn with
  | nil => exact iff_of_false Bool.false_ne_true (by simp [Requested])
  | append_singleton requests r ih =>
    rw [recordOf_append, requested_append, ← ih]
    cases r with
    | subscribe other channels =>
      rw [handle, ClientSubscription.subscribe, (foldl_activate channels _).2]
      simp
    | unsubscribe other => simp [handle, ClientSubscription.unsubscribe]

end Records

section Broadcast

/-- The connections whose records have the symbol. -/
def recipients (s : WebSocketServer H) (symbol : StdString) : List H :=
  (s.connections.toList.filter fun e => symbol ∈ e.2.symbols).map Prod.fst

theorem sent_broadcastToSubscribers (s : WebSocketServer H) (symbol message : StdString) :
    (s.broadcastToSubscribers symbol message).sent =
      s.sent ++ (s.recipients symbol).map (·, message) := by
  have hloop : ∀ (l : List (H × ClientSubscription)) (s : WebSocketServer H),
      (l.foldl (fun s e => if symbol ∈ e.2.symbols then s.sendMessage e.1 message else s) s).sent =
        s.sent ++ ((l.filter fun e => symbol ∈ e.2.symbols).map Prod.fst).map (·, message) := by
    intro l
    induction l with
    | nil => exact fun s => (List.append_nil _).symm
    | cons e l ih =>
      intro s
      rw [List.foldl_cons, ih]
      by_cases hmem : symbol ∈ e.2.symbols
      · simp [hmem, sendMessage]
      · simp [hmem]
  exact hloop _ s

theorem nodup_recipients (s : WebSocketServer H) (symbol : StdString) :
    (s.recipients symbol).Nodup :=
  List.pairwise_map.mpr ((distinct_entries s.connections).filter _)

theorem mem_recipients : hdl ∈ s.recipients symbol ↔
    ∃ sub, s.connections[hdl]? = some sub ∧ symbol ∈ sub.symbols := by
  simp only [recipients, List.mem_map, List.mem_filter, Prod.exists, mem_entries,
    decide_eq_true_eq]
  constructor
  · rintro ⟨hdl, sub, ⟨hat, hmem⟩, rfl⟩
    exact ⟨sub, hat, hmem⟩
  · rintro ⟨sub, hat, hmem⟩
    exact ⟨hdl, sub, ⟨hat, hmem⟩, rfl⟩

/-- After every history, the recipients for a symbol are its open subscribers. -/
theorem mem_recipients_run : hdl ∈ (run history).recipients symbol ↔
    ∃ requests, session hdl history = some requests ∧ Subscribed symbol requests := by
  simp only [mem_recipients, connections_run, Option.map_eq_some_iff]
  constructor
  · rintro ⟨sub, ⟨requests, hsession, rfl⟩, hmem⟩
    exact ⟨requests, hsession, (mem_symbols_recordOf symbol requests).mp hmem⟩
  · rintro ⟨requests, hsession, hsubscribed⟩
    exact ⟨recordOf requests, ⟨requests, hsession, rfl⟩,
      (mem_symbols_recordOf symbol requests).mpr hsubscribed⟩

/-- A broadcast for a symbol is delivered to its recipients and to no others. -/
theorem delivers_broadcast_iff {receives : H → Prop} :
    Delivers s (s.broadcastToSubscribers symbol message) message receives ↔
      ∀ hdl, hdl ∈ s.recipients symbol ↔ receives hdl := by
  constructor
  · rintro ⟨recipients, hsent, -, hmem⟩
    rw [sent_broadcastToSubscribers, List.append_cancel_left_eq] at hsent
    have hinj : Function.Injective fun hdl : H => (hdl, message) := fun _ _ h => congrArg Prod.fst h
    rwa [List.map_injective_iff.mpr hinj hsent]
  · exact fun hmem => ⟨s.recipients symbol, sent_broadcastToSubscribers s symbol message,
      nodup_recipients s symbol, hmem⟩

/-- The order book broadcasts reach exactly their receivers after every history. -/
theorem delivers_broadcastOrderbook (history : List (Event H)) (symbol message : StdString) :
    Delivers (run history) ((run history).broadcastOrderbook symbol message) message
      (Receives history symbol .orderbook) := by
  refine delivers_broadcast_iff.mpr fun hdl => ?_
  simp [mem_recipients_run, Receives, Channel.byDefault]

end Broadcast

/-- Both broadcasts reach exactly their receivers just when every open subscriber of the
symbol asked for the analytics channel. -/
theorem deliversBySubscription_iff (history : List (Event H)) (symbol : StdString) :
    DeliversBySubscription history symbol ↔
      ∀ hdl requests, session hdl history = some requests → Subscribed symbol requests →
        Requested .analytics requests := by
  constructor
  · intro h hdl requests hsession hsubscribed
    have hreceives := (delivers_broadcast_iff.mp (h []).2 hdl).mp
      (mem_recipients_run.mpr ⟨requests, hsession, hsubscribed⟩)
    obtain ⟨requests', hsession', -, hactive⟩ := hreceives
    obtain rfl := Option.some.inj (hsession.symm.trans hsession')
    exact hactive.resolve_left Bool.false_ne_true
  · intro h message
    refine ⟨delivers_broadcastOrderbook history symbol message,
      delivers_broadcast_iff.mpr fun hdl => ?_⟩
    rw [mem_recipients_run]
    constructor
    · rintro ⟨requests, hsession, hsubscribed⟩
      exact ⟨requests, hsession, hsubscribed, .inr (h hdl requests hsession hsubscribed)⟩
    · rintro ⟨requests, hsession, hsubscribed, -⟩
      exact ⟨requests, hsession, hsubscribed⟩

/-- A client that asks for order books only. -/
def asksForOrderbook : List (Event Nat) :=
  [.onOpen 1, .request 1 (.subscribe (lit "BTCUSD") [lit "orderbook"])]

/-- It is sent the analytics as well. -/
theorem asksForOrderbook_receives_analytics :
    ¬ DeliversBySubscription asksForOrderbook (lit "BTCUSD") := by
  intro h
  have hsession : session 1 asksForOrderbook =
      some [.subscribe (lit "BTCUSD") [lit "orderbook"]] := by decide
  have hrecipient : 1 ∈ (run asksForOrderbook).recipients (lit "BTCUSD") :=
    mem_recipients_run.mpr ⟨_, hsession, [], _, [], rfl, List.not_mem_nil⟩
  obtain ⟨requests, hsession', -, hactive⟩ :=
    (delivers_broadcast_iff.mp (h []).2 1).mp hrecipient
  obtain rfl := Option.some.inj (hsession.symm.trans hsession')
  obtain ⟨symbol, channels, hmem, hchannel⟩ := hactive.resolve_left Bool.false_ne_true
  obtain ⟨-, rfl⟩ := Request.subscribe.inj (List.mem_singleton.mp hmem)
  revert hchannel
  decide

end OrderbookEngine.WebSocketServer
