import OrderbookEngine.Network.ServerMain

/-!
# What the frontend is shown

The updates of a feed are numbered one after the other, so a client sees no gap; the REST server
answers with the last update of a symbol, or with the one before while the main thread has not
stored it; and the metrics account for every message.
-/

namespace OrderbookEngine

open Json Transition

namespace FrontendWebSocketServer

variable {closes : WebSocketSession → Bool} {s : FrontendWebSocketServer} {i : Nat}

theorem running_doAccept (s : FrontendWebSocketServer) : s.doAccept.running = s.running := by
  rw [doAccept]
  split <;> rfl

theorem running_release (s : FrontendWebSocketServer) (i : Nat) :
    (s.release i).running = s.running := by
  obtain hsame | hdestroyed := s.release_cases i
  · rw [hsame]
  · rw [hdestroyed]

theorem running_dropAll (holds : Client → Bool) (f : Client → Client)
    (s : FrontendWebSocketServer) : (s.dropAll holds f).running = s.running := by
  rw [dropAll]
  generalize List.range s.clients.length = order
  induction order generalizing s with
  | nil => rfl
  | cons i order ih =>
    rw [List.foldl_cons, ih, drop]
    split
    · exact running_release _ i
    · rfl

/-- Only `stop` ends the broadcasts. -/
theorem running_next {e : Event} (he : ServerMain.ofMain e = false) :
    (s.next closes e).running = s.running := by
  cases e with
  | onAccept ok =>
    refine (running_doAccept _).trans ?_
    cases ok <;> rfl
  | complete i h => exact running_release _ i
  | broadcast | stop => cases he
  | closeSessions => exact running_dropAll _ _ _
  | stopContext => rfl
  | destroyContext withServer =>
    obtain rfl : withServer = true := by simpa [ServerMain.ofMain] using he
    exact (running_dropAll _ _ _).trans (running_dropAll _ _ _)

end FrontendWebSocketServer

namespace Item

variable (fixed8 : ℚ → {text : StdString // IsNumber text})

/-- What a message stands for. -/
def fields : Item → List (StdString × Json)
  | .book _ update sequence => MessageFormatter.updateFields fixed8 update sequence
  | .trade t => MessageFormatter.tradeFields fixed8 t
  | .metrics messagesPerSec bytesPerSec =>
    MessageFormatter.metricsFields 150 300 500 1200 messagesPerSec bytesPerSec (lit "connected") 0

/-- The number of an update of a feed. -/
def sequence? (feed : Feed) : Item → Option UInt64
  | .book f _ sequence => if f = feed then some sequence else none
  | .trade _ | .metrics _ _ => none

/-- The message of an update that is stored for a symbol. -/
def storedText? (symbol : StdString) : Item → Option StdString
  | .book feed update sequence =>
    if feed.stored = some symbol then
      some (MessageFormatter.formatOrderBookUpdate fixed8 update sequence)
    else none
  | .trade _ | .metrics _ _ => none

/-- The messages and bytes that metrics report. -/
def reported : Item → UInt64 × UInt64
  | .metrics messagesPerSec bytesPerSec => (messagesPerSec, bytesPerSec)
  | .book _ _ _ | .trade _ => (0, 0)

/-- The messages and bytes that metrics have to report. -/
def counted : Item → Nat × Nat
  | .metrics _ _ => (0, 0)
  | item => (1, (item.text fixed8).length)

/-- A message says of which simulator it comes. -/
def Labelled : Item → Prop
  | .book feed update sequence =>
    update.symbol = feed.symbol ∧ update.exchange = feed.exchange ∧
      sequence = update.updateId + 1
  | .trade t => t.symbol = lit "BTC-USD" ∧ ∃ n, t.tradeId = decimal n
  | .metrics _ _ => True

theorem plain_symbol (feed : Feed) : MessageFormatter.Plain feed.symbol := by
  cases feed
  all_goals exact MessageFormatter.plain_of_ascii (by decide +kernel)

theorem plain_decimal (n : Nat) : MessageFormatter.Plain (decimal n) := by
  refine MessageFormatter.plain_of_ascii fun c hc => ?_
  rw [MessageFormatter.decimal_eq_digits] at hc
  obtain ⟨hlow, hhigh⟩ := Decimal.isDigit_of_mem_digits n c hc
  rw [IsUnclean]
  refine ⟨?_, UInt8.lt_of_le_of_lt hhigh (by decide)⟩
  rintro (rfl | rfl | hcontrol)
  · exact absurd hlow (by decide)
  · exact absurd hhigh (by decide)
  · exact absurd (UInt8.lt_of_le_of_lt hlow hcontrol) (by decide)

/-- Every message decodes to what it stands for. -/
theorem Labelled.decodes {item : Item} (h : item.Labelled) :
    DecodesTo (item.text fixed8) (item.fields fixed8) := by
  cases item with
  | book feed update sequence =>
    exact (MessageFormatter.decodesTo_update_iff fixed8 update sequence).mpr
      (h.1 ▸ plain_symbol feed)
  | trade t =>
    obtain ⟨hsymbol, n, hid⟩ := h
    exact (MessageFormatter.decodesTo_trade_iff fixed8 t).mpr
      ⟨hsymbol ▸ plain_symbol .btcBinance, hid ▸ plain_decimal n⟩
  | metrics messagesPerSec bytesPerSec =>
    exact (MessageFormatter.decodesTo_metrics_iff ..).mpr
      (MessageFormatter.plain_of_ascii (by decide +kernel))

end Item

namespace ServerMain

variable {fixed8 : ℚ → {text : StdString // IsNumber text}} {closes : WebSocketSession → Bool}
  {s t : ServerMain} {e : Event} {past : List Item}

/-- What a step does, with the task that is done. -/
inductive Moves (fixed8 : ℚ → {text : StdString // IsNumber text})
    (closes : WebSocketSession → Bool) (s : ServerMain) : Event → ServerMain → Prop where
  | beginPass (now : Int) (hidle : s.todo = []) (hgoes : s.shutdownRequested = false) :
      Moves fixed8 closes s (.beginPass now) (s.beginPass now)
  | book (draws : BookDraws) (feed : Feed) (rest : List Task)
      (htodo : s.todo = .book feed :: rest) :
      Moves fixed8 closes s (.book draws) (s.book fixed8 feed draws rest)
  | store (symbol message : StdString) (rest : List Task)
      (htodo : s.todo = .store symbol message :: rest) :
      Moves fixed8 closes s .store (s.store symbol message rest)
  | trade (draws : TradeDraws) (rest : List Task) (htodo : s.todo = .trade :: rest) :
      Moves fixed8 closes s (.trade draws) (s.trade fixed8 draws rest)
  | metrics (rest : List Task) (htodo : s.todo = .metrics :: rest) :
      Moves fixed8 closes s .metrics (s.metrics rest)
  | signal : Moves fixed8 closes s .signal { s with shutdownRequested := true }
  | leave (hidle : s.todo = []) (hdone : s.shutdownRequested = true) :
      Moves fixed8 closes s .leave { s with server := s.server.stop }
  | server (e : FrontendWebSocketServer.Event) (he : ofMain e = false)
      (henabled : s.server.Enabled e) :
      Moves fixed8 closes s (.server e) { s with server := s.server.next closes e }

theorem Step.moves (hstep : Step fixed8 closes s e t) : Moves fixed8 closes s e t := by
  obtain ⟨⟨-, -, henabled⟩, rfl⟩ := hstep
  cases e with
  | beginPass now => exact .beginPass now henabled.1 henabled.2
  | book draws =>
    obtain ⟨task, hhead, hbook⟩ := henabled
    obtain ⟨rest, htodo⟩ := List.head?_eq_some_iff.mp hhead
    cases task with
    | book feed =>
      simp only [next, htodo]
      exact .book draws feed rest htodo
    | store | trade | metrics => cases hbook
  | store =>
    obtain ⟨task, hhead, hstore⟩ := henabled
    obtain ⟨rest, htodo⟩ := List.head?_eq_some_iff.mp hhead
    cases task with
    | store symbol message =>
      simp only [next, htodo]
      exact .store symbol message rest htodo
    | book | trade | metrics => cases hstore
  | trade draws =>
    obtain ⟨rest, htodo⟩ := List.head?_eq_some_iff.mp henabled
    simp only [next, htodo, List.tail_cons]
    exact .trade draws rest htodo
  | metrics =>
    obtain ⟨rest, htodo⟩ := List.head?_eq_some_iff.mp henabled
    simp only [next, htodo, List.tail_cons]
    exact .metrics rest htodo
  | signal => exact .signal
  | leave => exact .leave henabled.1 henabled.2
  | server e => exact .server e henabled.1 henabled.2

/-- The WebSocket server runs while something is left to do, and a store comes first. -/
structure Inv (s : ServerMain) : Prop where
  running : s.server.running = true ∨ (s.todo = [] ∧ s.shutdownRequested = true)
  simulators : ∀ feed, (s.simulators feed).symbol = feed.symbol ∧
    (s.simulators feed).exchange = feed.exchange
  stores : ∀ symbol message, .store symbol message ∉ s.todo.tail

theorem inv_started (now : Int) : Inv (started now) where
  running := .inl rfl
  simulators _ := ⟨rfl, rfl⟩
  stores _ _ := List.not_mem_nil

/-- Something is left to do. -/
theorem Inv.running_of_todo (hs : Inv s) {task : Task} {rest : List Task}
    (htodo : s.todo = task :: rest) : s.server.running = true := by
  obtain hrunning | ⟨hnone, -⟩ := hs.running
  · exact hrunning
  · rw [hnone] at htodo
    cases htodo

/-- The other tasks are no stores. -/
theorem Inv.stores_rest (hs : Inv s) {task : Task} {rest : List Task}
    (htodo : s.todo = task :: rest) (symbol message : StdString) :
    .store symbol message ∉ rest := by
  have hstores := hs.stores symbol message
  rwa [htodo, List.tail_cons] at hstores

theorem running_broadcast (server : FrontendWebSocketServer) (message : StdString) :
    (server.broadcast message).running = server.running := by
  rw [FrontendWebSocketServer.broadcast]
  split <;> rfl

/-- A task that is done leaves the server running. -/
theorem Inv.done (hs : Inv s) {task : Task} {rest : List Task} (htodo : s.todo = task :: rest)
    (hrunning : t.server.running = s.server.running) (hrest : t.todo = rest)
    (hsimulators : t.simulators = s.simulators) : Inv t where
  running := .inl (hrunning.trans (hs.running_of_todo htodo))
  simulators := hsimulators.symm ▸ hs.simulators
  stores symbol message hmem :=
    hs.stores_rest htodo symbol message (List.mem_of_mem_tail (hrest ▸ hmem))

theorem Inv.next (hs : Inv s) (hstep : Step fixed8 closes s e t) : Inv t := by
  cases hstep.moves with
  | beginPass now hidle hgoes =>
    refine ⟨.inl ?_, hs.simulators, fun symbol message hmem => ?_⟩
    · obtain hrunning | ⟨-, hdone⟩ := hs.running
      · exact hrunning
      · rw [hgoes] at hdone
        cases hdone
    · have hmem := List.mem_of_mem_tail hmem
      simp only [ServerMain.beginPass, List.mem_append] at hmem
      obtain (hmem | hmem) | hmem := hmem
      all_goals split at hmem <;> simp at hmem
  | book draws feed rest htodo =>
    refine ⟨.inl ?_, fun other => ?_, fun symbol message hmem => ?_⟩
    · exact (running_broadcast _ _).trans (hs.running_of_todo htodo)
    · by_cases hother : other = feed
      · subst hother
        simp only [book, Function.update_self]
        exact hs.simulators other
      · simp only [book, Function.update_of_ne hother]
        exact hs.simulators other
    · refine hs.stores_rest htodo symbol message ?_
      simp only [book] at hmem
      cases hstored : feed.stored with
      | none =>
        rw [hstored] at hmem
        exact List.mem_of_mem_tail hmem
      | some stored =>
        rw [hstored] at hmem
        exact hmem
  | store symbol message rest htodo => exact hs.done htodo rfl rfl rfl
  | trade draws rest htodo => exact hs.done htodo (running_broadcast _ _) rfl rfl
  | metrics rest htodo => exact hs.done htodo (running_broadcast _ _) rfl rfl
  | signal =>
    refine ⟨?_, hs.simulators, hs.stores⟩
    exact hs.running.imp_right fun hdone => ⟨hdone.1, rfl⟩
  | leave hidle hdone => exact ⟨.inr ⟨hidle, hdone⟩, hs.simulators, hs.stores⟩
  | server e he henabled =>
    refine ⟨?_, hs.simulators, hs.stores⟩
    exact hs.running.imp_left (FrontendWebSocketServer.running_next he).trans

section Streamed

/-- What a step of the process is for the WebSocket server. -/
def serverEvent (fixed8 : ℚ → {text : StdString // IsNumber text}) (s : ServerMain) :
    Event → Option FrontendWebSocketServer.Event
  | .server e => some e
  | .leave => some .stop
  | .book draws => broadcasts (s.items (.book draws))
  | .trade draws => broadcasts (s.items (.trade draws))
  | .metrics => broadcasts (s.items .metrics)
  | .beginPass _ | .store | .signal => none
where
  broadcasts (items : List Item) : Option FrontendWebSocketServer.Event :=
    items.head?.map fun item => .broadcast (item.text fixed8)

theorem items_book {draws : BookDraws} {feed : Feed} {rest : List Task}
    (htodo : s.todo = .book feed :: rest) :
    s.items (.book draws) =
      [.book feed ((s.simulators feed).generateOrderBookUpdate draws).1
        ((s.simulators feed).sequence + 1)] := by
  simp only [items, htodo]
  rfl

/-- The steps of the process are steps of its WebSocket server. -/
theorem partStep_server (hstep : Step fixed8 closes s e t) :
    PartStep (FrontendWebSocketServer.Step closes) s.server (s.serverEvent fixed8 e) t.server := by
  obtain ⟨howned, hlive, -⟩ := hstep.1
  cases hstep.moves with
  | beginPass | store | signal => rfl
  | book draws feed rest htodo =>
    rw [serverEvent, items_book htodo]
    exact ⟨⟨howned, hlive, trivial⟩, rfl⟩
  | trade | metrics => exact ⟨⟨howned, hlive, trivial⟩, rfl⟩
  | leave => exact ⟨⟨howned, hlive, trivial⟩, rfl⟩
  | server e he henabled => exact ⟨henabled, rfl⟩

theorem messages_broadcasts {server : FrontendWebSocketServer} (hrunning : server.running = true)
    (item : Item) :
    (serverEvent.broadcasts fixed8 [item]).elim [] server.messages = [item.text fixed8] := by
  simp [serverEvent.broadcasts, FrontendWebSocketServer.messages, hrunning]

/-- What the WebSocket server sends to its sessions. -/
theorem messages_serverEvent (hs : Inv s) (hstep : Step fixed8 closes s e t) :
    (s.serverEvent fixed8 e).elim [] s.server.messages = (s.items e).map (Item.text fixed8) := by
  cases hstep.moves with
  | beginPass | store | signal | leave => rfl
  | book draws feed rest htodo =>
    rw [serverEvent, items_book htodo]
    exact messages_broadcasts (hs.running_of_todo htodo) _
  | trade draws rest htodo => exact messages_broadcasts (hs.running_of_todo htodo) _
  | metrics rest htodo => exact messages_broadcasts (hs.running_of_todo htodo) _
  | server e he henabled =>
    cases e with
    | broadcast | stop => cases he
    | onAccept | complete | closeSessions | stopContext | destroyContext => rfl

/-- The run of the WebSocket server. -/
def serverRun (fixed8 : ℚ → {text : StdString // IsNumber text}) (s : ServerMain)
    (tr : List (Event × ServerMain)) :
    List (FrontendWebSocketServer.Event × FrontendWebSocketServer) :=
  partRun server (serverEvent fixed8) s tr

variable {tr : List (Event × ServerMain)}

theorem isRun_serverRun (hrun : IsRun (Step fixed8 closes) s tr) :
    IsRun (FrontendWebSocketServer.Step closes) s.server (s.serverRun fixed8 tr) :=
  hrun.part fun _ _ _ hstep => partStep_server hstep

theorem lastState_serverRun (hrun : IsRun (Step fixed8 closes) s tr) :
    lastState s.server (s.serverRun fixed8 tr) = (lastState s tr).server :=
  lastState_partRun (fun _ _ _ hstep => partStep_server hstep) hrun

/-- In every run, what the server sends to its sessions are the messages of the main thread. -/
theorem outputs_serverRun (hs : Inv s) (hrun : IsRun (Step fixed8 closes) s tr) :
    outputs FrontendWebSocketServer.messages s.server (s.serverRun fixed8 tr) =
      (outputs items s tr).map (Item.text fixed8) := by
  refine hrun.outputs_part Inv (fun s e t hs hstep => ?_) hs
  refine ⟨hs.next hstep, messages_serverEvent hs hstep, fun hnone => ?_⟩
  have hpart := partStep_server hstep
  rwa [hnone] at hpart

end Streamed

section Contents

/-- The `n` numbers that follow `start`. -/
def following (start : UInt64) (n : Nat) : List UInt64 :=
  (List.range n).map fun i => start + UInt64.ofNat (i + 1)

theorem following_succ (start : UInt64) (n : Nat) :
    following start (n + 1) = following start n ++ [start + UInt64.ofNat (n + 1)] := by
  rw [following, List.range_succ, List.map_append]
  rfl

/-- The first of such numbers are some of them. -/
theorem exists_following_of_prefix {start : UInt64} {n : Nat} {l : List UInt64}
    (hl : l <+: following start n) : ∃ k, l = following start k := by
  refine ⟨min l.length n, ?_⟩
  rw [following, ← List.take_range, List.map_take]
  exact List.prefix_iff_eq_take.mp hl

/-- The updates of each feed are numbered from its `start` on. -/
def Numbered (start : Feed → UInt64) (past : List Item) (s : ServerMain) : Prop :=
  ∀ feed, ∃ n, past.filterMap (Item.sequence? feed) = following (start feed) n ∧
    (s.simulators feed).sequence = start feed + UInt64.ofNat n

theorem numbered_nil (s : ServerMain) :
    Numbered (fun feed => (s.simulators feed).sequence) [] s :=
  fun _ => ⟨0, rfl, (UInt64.add_zero _).symm⟩

variable {start : Feed → UInt64}

/-- A step that makes no update. -/
theorem Numbered.quiet (hs : Numbered start past s) {more : List Item}
    (hnone : ∀ feed, more.filterMap (Item.sequence? feed) = [])
    (hsimulators : t.simulators = s.simulators) : Numbered start (past ++ more) t := by
  intro feed
  obtain ⟨n, hpast, hsequence⟩ := hs feed
  refine ⟨n, ?_, hsimulators ▸ hsequence⟩
  rw [List.filterMap_append, hnone, List.append_nil, hpast]

theorem Numbered.next (hs : Numbered start past s) (hstep : Step fixed8 closes s e t) :
    Numbered start (past ++ s.items e) t := by
  cases hstep.moves with
  | book draws feed rest htodo =>
    intro other
    obtain ⟨n, hpast, hsequence⟩ := hs other
    rw [items_book htodo, List.filterMap_append, hpast]
    by_cases hother : other = feed
    · subst hother
      have hnext : (s.simulators other).sequence + 1 = start other + UInt64.ofNat (n + 1) := by
        rw [hsequence, UInt64.add_assoc, UInt64.ofNat_add]
        rfl
      refine ⟨n + 1, ?_, ?_⟩
      · rw [following_succ, ← hnext]
        simp [Item.sequence?]
      · simpa [book, MarketDataSimulator.generateOrderBookUpdate] using hnext
    · refine ⟨n, ?_, ?_⟩
      · simp [Item.sequence?, Ne.symm hother]
      · simpa [book, Function.update_of_ne hother] using hsequence
  | beginPass | store | signal | leave | server => exact hs.quiet (fun _ => rfl) rfl
  | trade | metrics => exact hs.quiet (fun _ => rfl) rfl

/-- The messages of a step say of which simulator they come. -/
theorem labelled_items (hs : Inv s) (hstep : Step fixed8 closes s e t) :
    ∀ item ∈ s.items e, item.Labelled := by
  cases hstep.moves with
  | book draws feed rest htodo =>
    rw [items_book htodo, List.forall_mem_singleton]
    exact ⟨(hs.simulators feed).1, (hs.simulators feed).2, rfl⟩
  | trade draws rest htodo =>
    rw [items, List.forall_mem_singleton]
    exact ⟨(hs.simulators .btcBinance).1, _, rfl⟩
  | metrics rest htodo =>
    rw [items, List.forall_mem_singleton]
    exact trivial
  | beginPass | store | signal | leave | server => exact List.forall_mem_nil _

/-- The message of an update that the main thread has broadcast and not yet stored. -/
def waiting (s : ServerMain) (symbol : StdString) : List StdString :=
  match s.todo with
  | .store symbol' message :: _ => if symbol' = symbol then [message] else []
  | _ => []

theorem waiting_eq_nil (hnone : ∀ symbol message, .store symbol message ∉ s.todo)
    (symbol : StdString) : s.waiting symbol = [] := by
  rw [waiting]
  split
  · next symbol' message rest htodo =>
    exact absurd (htodo ▸ List.mem_cons_self) (hnone symbol' message)
  · rfl

/-- The last update of a symbol is stored, unless it waits. -/
def Stores (fixed8 : ℚ → {text : StdString // IsNumber text}) (past : List Item)
    (s : ServerMain) : Prop :=
  ∀ symbol, ∃ stored,
    past.filterMap (Item.storedText? fixed8 symbol) = stored ++ s.waiting symbol ∧
      s.latestOrderbookMessages symbol = stored.getLast?

/-- A step that stores nothing and leaves no update waiting. -/
theorem Stores.quiet (hs : Stores fixed8 past s) {more : List Item}
    (hnone : ∀ symbol, more.filterMap (Item.storedText? fixed8 symbol) = [])
    (hwaiting : ∀ symbol, t.waiting symbol = s.waiting symbol)
    (hlatest : t.latestOrderbookMessages = s.latestOrderbookMessages) :
    Stores fixed8 (past ++ more) t := by
  intro symbol
  obtain ⟨stored, hpast, hstored⟩ := hs symbol
  refine ⟨stored, ?_, hlatest ▸ hstored⟩
  rw [List.filterMap_append, hnone, List.append_nil, hpast, hwaiting]

/-- A task other than a store is done. -/
theorem Inv.waiting_done (hs : Inv s) {task : Task} {rest : List Task}
    (htodo : s.todo = task :: rest) (htask : ∀ symbol message, task ≠ .store symbol message)
    (hrest : t.todo = rest) (symbol : StdString) : t.waiting symbol = s.waiting symbol := by
  rw [waiting_eq_nil (hrest ▸ hs.stores_rest htodo), waiting_eq_nil]
  rw [htodo]
  intro symbol message hmem
  obtain heq | hmem := List.mem_cons.mp hmem
  · exact htask symbol message heq.symm
  · exact hs.stores_rest htodo symbol message hmem

theorem Stores.next (hinv : Inv s) (hs : Stores fixed8 past s)
    (hstep : Step fixed8 closes s e t) : Stores fixed8 (past ++ s.items e) t := by
  cases hstep.moves with
  | beginPass now hidle hgoes =>
    have hnone : ∀ symbol message, .store symbol message ∉ (s.beginPass now).todo := by
      intro symbol message hmem
      simp only [ServerMain.beginPass, List.mem_append] at hmem
      obtain (hmem | hmem) | hmem := hmem
      all_goals split at hmem <;> simp at hmem
    refine hs.quiet (fun _ => rfl) (fun symbol => ?_) rfl
    rw [waiting_eq_nil hnone, waiting_eq_nil]
    rw [hidle]
    exact fun _ _ => List.not_mem_nil
  | book draws feed rest htodo =>
    intro symbol
    obtain ⟨stored, hpast, hstored⟩ := hs symbol
    have hnow : s.waiting symbol = [] := by simp only [waiting, htodo]
    refine ⟨stored, ?_, hstored⟩
    rw [items_book htodo, List.filterMap_append, hpast, hnow, List.append_nil]
    congr 1
    cases hkey : feed.stored with
    | none =>
      have hnone : ∀ symbol message, .store symbol message ∉
          (s.book fixed8 feed draws rest).todo := by
        simpa [book, hkey] using hinv.stores_rest htodo
      rw [waiting_eq_nil hnone]
      simp [Item.storedText?, hkey]
    | some key =>
      by_cases hsymbol : key = symbol
      · simp [Item.storedText?, hkey, waiting, book, hsymbol]
        rfl
      · simp [Item.storedText?, hkey, waiting, book, hsymbol]
  | store symbol message rest htodo =>
    have hrest : ∀ other, (s.store symbol message rest).waiting other = [] :=
      waiting_eq_nil (hinv.stores_rest htodo)
    intro other
    obtain ⟨stored, hpast, hstored⟩ := hs other
    rw [items, List.append_nil, hpast, hrest]
    by_cases hother : other = symbol
    · subst hother
      refine ⟨stored ++ [message], by simp [waiting, htodo], ?_⟩
      simp [store]
    · refine ⟨stored, by simp [waiting, htodo, Ne.symm hother], ?_⟩
      simpa [store, Function.update_of_ne hother] using hstored
  | trade draws rest htodo =>
    exact hs.quiet (fun _ => rfl) (hinv.waiting_done htodo (by simp) rfl) rfl
  | metrics rest htodo =>
    exact hs.quiet (fun _ => rfl) (hinv.waiting_done htodo (by simp) rfl) rfl
  | signal | leave | server => exact hs.quiet (fun _ => rfl) (fun _ => rfl) rfl

/-- What the metrics report, and the counters, add up to the messages broadcast. -/
structure Accounts (fixed8 : ℚ → {text : StdString // IsNumber text}) (past : List Item)
    (s : ServerMain) : Prop where
  messages : (past.map fun item => item.reported.1).foldl (· + ·) 0 + s.messageCount =
    UInt64.ofNat (past.map fun item => (item.counted fixed8).1).sum
  bytes : (past.map fun item => item.reported.2).foldl (· + ·) 0 + s.bytesSent =
    UInt64.ofNat (past.map fun item => (item.counted fixed8).2).sum

theorem accounts_started (now : Int) : Accounts fixed8 [] (started now) := ⟨rfl, rfl⟩

/-- A step that sends nothing. -/
theorem Accounts.quiet (hs : Accounts fixed8 past s) (hcount : t.messageCount = s.messageCount)
    (hbytes : t.bytesSent = s.bytesSent) : Accounts fixed8 (past ++ []) t := by
  rw [List.append_nil]
  exact ⟨hcount ▸ hs.messages, hbytes ▸ hs.bytes⟩

/-- A step that sends an update or a trade. -/
theorem Accounts.sent (hs : Accounts fixed8 past s) {item : Item}
    (hreported : item.reported = (0, 0))
    (hcounted : item.counted fixed8 = (1, (item.text fixed8).length))
    (hcount : t.messageCount = s.messageCount + 1)
    (hbytes : t.bytesSent = s.bytesSent + UInt64.ofNat (item.text fixed8).length) :
    Accounts fixed8 (past ++ [item]) t := by
  constructor
  · rw [List.map_append, List.map_append, List.map_singleton, List.map_singleton,
      List.foldl_concat, List.sum_append, List.sum_singleton, hreported, hcounted, hcount,
      UInt64.ofNat_add, ← hs.messages]
    simp [UInt64.add_assoc]
  · rw [List.map_append, List.map_append, List.map_singleton, List.map_singleton,
      List.foldl_concat, List.sum_append, List.sum_singleton, hreported, hcounted, hbytes,
      UInt64.ofNat_add, ← hs.bytes]
    simp [UInt64.add_assoc]

theorem Accounts.next (hs : Accounts fixed8 past s) (hstep : Step fixed8 closes s e t) :
    Accounts fixed8 (past ++ s.items e) t := by
  cases hstep.moves with
  | book draws feed rest htodo =>
    rw [items_book htodo]
    exact hs.sent rfl rfl rfl rfl
  | trade draws rest htodo => exact hs.sent rfl rfl rfl rfl
  | metrics rest htodo =>
    have hmessages := hs.messages
    have hbytes := hs.bytes
    constructor
    · simpa [items, Item.reported, Item.counted, ServerMain.metrics] using hmessages
    · simpa [items, Item.reported, Item.counted, ServerMain.metrics] using hbytes
  | beginPass | store | signal | leave | server => exact hs.quiet rfl rfl

end Contents

section Runs

theorem isNumber_one : IsNumber (lit "1.00000000") := by decide +kernel

variable {now : Int} {tr tr' : List (Event × ServerMain)}

theorem inv_throughout (hrun : IsRun (Step fixed8 closes) (started now) tr) :
    Throughout Inv (started now) tr :=
  hrun.throughout Inv (fun _ _ _ hs hstep => hs.next hstep) (inv_started now)

theorem labelled_outputs (hs : Inv s) (hrun : IsRun (Step fixed8 closes) s tr) :
    ∀ item ∈ outputs items s tr, item.Labelled := by
  have hlabelled : Inv (lastState s tr) ∧ ∀ item ∈ [] ++ outputs items s tr, item.Labelled := by
    refine hrun.outputs_invariant (fun past s => Inv s ∧ ∀ item ∈ past, Item.Labelled item) ?_
      ⟨hs, List.forall_mem_nil _⟩
    rintro past s e t ⟨hs, hpast⟩ hstep
    exact ⟨hs.next hstep, List.forall_mem_append.mpr ⟨hpast, labelled_items hs hstep⟩⟩
  exact hlabelled.2

theorem numbered_outputs (hrun : IsRun (Step fixed8 closes) s tr) :
    Numbered (fun feed => (s.simulators feed).sequence) (outputs items s tr) (lastState s tr) :=
  hrun.outputs_invariant (Numbered _) (fun _ _ _ _ hs hstep => hs.next hstep) (numbered_nil s)

/-- In every run, the session of a client hands to `async_write` messages that decode to what they
stand for, first those that were broadcast first after it connected, and the updates of each feed
are numbered without a gap. -/
theorem stream_gapless
    (hrun : IsRun (Step fixed8 closes) (started now) (tr ++ (.server (.onAccept true), t) :: tr')) :
    ∃ c ∈ (lastState t tr').server.clients[(lastState (started now) tr).server.clients.length]?,
      ∃ shown, shown <+: outputs items t tr' ∧
        WebSocketSession.written c.session.issued = shown.map (Item.text fixed8) ∧
        (∀ item ∈ shown, DecodesTo (item.text fixed8) (item.fields fixed8)) ∧
        ∀ feed, ∃ n, shown.filterMap (Item.sequence? feed) =
          following ((lastState (started now) tr).simulators feed).sequence n := by
  obtain ⟨hbefore, hstep, hafter⟩ := isRun_append.mp hrun
  have hinv := ((inv_throughout hbefore).last (inv_started now)).next hstep
  have hsimulators : t.simulators = (lastState (started now) tr).simulators := by
    rw [hstep.2]
    rfl
  have hserver := isRun_serverRun hrun
  rw [serverRun, partRun_append] at hserver
  obtain ⟨c, hc, hreceives, -⟩ := FrontendWebSocketServer.delivered_inOrder hserver
  have hends : lastState t.server (t.serverRun fixed8 tr') = (lastState t tr').server :=
    lastState_serverRun hafter
  have hbegins : lastState (started now).server ((started now).serverRun fixed8 tr) =
      (lastState (started now) tr).server := lastState_serverRun hbefore
  have hsent : outputs FrontendWebSocketServer.messages t.server (t.serverRun fixed8 tr') =
      (outputs items t tr').map (Item.text fixed8) := outputs_serverRun hinv hafter
  have hprefix : WebSocketSession.written c.session.issued <+:
      (outputs items t tr').map (Item.text fixed8) :=
    hsent ▸ List.IsPrefix.trans ⟨_, hreceives.pending⟩ hreceives.inOrder
  obtain ⟨shown, hshown, hwritten⟩ := List.prefix_map_iff.mp hprefix
  refine ⟨c, ?_, shown, hshown, hwritten, fun item hitem => ?_, fun feed => ?_⟩
  · rw [← hends, ← hbegins]
    exact hc
  · exact (labelled_outputs hinv hafter item (hshown.subset hitem)).decodes fixed8
  · obtain ⟨n, hsequences, -⟩ := numbered_outputs hafter feed
    refine exists_following_of_prefix (n := n) ?_
    rw [← hsimulators, ← hsequences]
    exact hshown.filterMap _

/-- Every price is printed as one. -/
def fixedOne (_ : ℚ) : {text : StdString // IsNumber text} :=
  ⟨lit "1.00000000", isNumber_one⟩

/-- Draws in the middle of their ranges. -/
def quietDraws : BookDraws where
  timestamp := 1700000000
  bids := .replicate 10 ⟨0, 1, 0⟩
  asks := .replicate 10 ⟨0, 1, 0⟩
  movement := 0

/-- The first update of a pass is stored before a client connects. -/
def firstUpdate : List Event := [.beginPass 100000000, .book quietDraws, .store]

/-- The other updates of the pass. -/
def otherUpdates : List Event :=
  [.server (.complete 0 (.onAccept true 0)), .server (.complete 0 (.onComplete (.welcome 0) true)),
    .book quietDraws, .book quietDraws, .store]

theorem stream_gapless_otherUpdates :
    ∃ c ∈ ((firstUpdate ++ .server (.onAccept true) :: otherUpdates).foldl
        (next fixedOne FrontendWebSocketServer.closesAccepted) (started 0)).server.clients[0]?,
      ∃ shown : List Item, WebSocketSession.written c.session.issued =
          shown.map (Item.text fixedOne) ∧
        ∃ n, shown.filterMap (Item.sequence? .btcBinance) = following 1 n := by
  have hrun : IsRun (Step fixedOne FrontendWebSocketServer.closesAccepted) (started 0)
      (runOf (next fixedOne FrontendWebSocketServer.closesAccepted) (started 0)
        (firstUpdate ++ .server (.onAccept true) :: otherUpdates)) :=
    isRun_runOf_of_enabled (by decide +kernel)
  rw [runOf_append] at hrun
  obtain ⟨c, hc, shown, -, hwritten, -, hsequences⟩ := stream_gapless hrun
  rw [lastState_runOf, lastState_runOf] at hc
  refine ⟨c, ?_, shown, hwritten, ?_⟩
  · rwa [List.foldl_append]
  · have hstart := hsequences .btcBinance
    rwa [lastState_runOf] at hstart

theorem stores_outputs (hrun : IsRun (Step fixed8 closes) (started now) tr) :
    Stores fixed8 (outputs items (started now) tr) (lastState (started now) tr) := by
  have hstores : Inv (lastState (started now) tr) ∧
      Stores fixed8 ([] ++ outputs items (started now) tr) (lastState (started now) tr) := by
    refine hrun.outputs_invariant (fun past s => Inv s ∧ Stores fixed8 past s) ?_
      ⟨inv_started now, fun _ => ⟨[], rfl, rfl⟩⟩
    rintro past s e t ⟨hs, hstores⟩ hstep
    exact ⟨hs.next hstep, hstores.next hs hstep⟩
  exact hstores.2

/-- The route of the order book requests. -/
theorem route_orderbook (s : ServerMain) (symbol : StdString) :
    FrontendRestServer.route s.handlers (lit "/api/v1/orderbook/" ++ symbol) =
      FrontendRestServer.jsonResponse 200 (s.orderbookHandler symbol) := by
  have hletter : (lit "/api/v1/orderbook/" ++ symbol)[8]? = some 111 := rfl
  have hhealth : lit "/api/v1/orderbook/" ++ symbol ≠ lit "/api/v1/health" := by
    intro heq
    rw [heq] at hletter
    cases hletter
  have hsymbols : lit "/api/v1/orderbook/" ++ symbol ≠ lit "/api/v1/symbols" := by
    intro heq
    rw [heq] at hletter
    cases hletter
  have hsymbol : (lit "/api/v1/orderbook/" ++ symbol).drop 18 = symbol := rfl
  rw [FrontendRestServer.route, if_neg hhealth, if_neg hsymbols,
    if_pos (TextSearch.find_prefix _ _)]
  simp only [handlers, hsymbol]

/-- In every state of every run, a request for an order book is answered with the last update of
the symbol that was broadcast; or, while the main thread has not stored that one, with the update
before it. -/
theorem orderbook_answer (hrun : IsRun (Step fixed8 closes) (started now) tr)
    {symbol rest : StdString} (hspace : 32 ∉ symbol) (hquery : 63 ∉ symbol)
    (hlength : (FrontendRestServer.request .get (lit "/api/v1/orderbook/" ++ symbol) rest).length ≤
      4095)
    (hnul : 0 ∉ FrontendRestServer.request .get (lit "/api/v1/orderbook/" ++ symbol) rest) :
    ∃ stored,
      (outputs items (started now) tr).filterMap (Item.storedText? fixed8 symbol) =
        stored ++ (lastState (started now) tr).waiting symbol ∧
      FrontendRestServer.handleRequest (lastState (started now) tr).handlers
          (FrontendRestServer.request .get (lit "/api/v1/orderbook/" ++ symbol) rest) =
        some (FrontendRestServer.jsonResponse 200
          (stored.getLast?.getD (lit "\x7b\"error\":\"Symbol not found\"\x7d"))) := by
  obtain ⟨stored, hstored, hlatest⟩ := stores_outputs hrun symbol
  have hpath : FrontendRestServer.pathOf (lit "/api/v1/orderbook/" ++ symbol) =
      lit "/api/v1/orderbook/" ++ symbol := by
    refine TextSearch.takeWhile_ne_eq_self ?_
    rw [List.mem_append]
    exact not_or.mpr ⟨by decide, hquery⟩
  have htarget : 32 ∉ lit "/api/v1/orderbook/" ++ symbol := by
    rw [List.mem_append]
    exact not_or.mpr ⟨by decide, hspace⟩
  refine ⟨stored, hstored, ?_⟩
  rw [FrontendRestServer.handleRequest_get _ htarget hlength hnul, hpath, route_orderbook,
    orderbookHandler, hlatest]
  cases stored.getLast? <;> rfl

/-- A request for the order book whose update was stored. -/
theorem orderbook_answer_firstUpdate :
    let s := firstUpdate.foldl (next fixedOne FrontendWebSocketServer.closesAccepted) (started 0)
    ∃ stored, (outputs items (started 0) (runOf (next fixedOne
          FrontendWebSocketServer.closesAccepted) (started 0) firstUpdate)).filterMap
            (Item.storedText? fixedOne (lit "BTC-USD")) = stored ++ s.waiting (lit "BTC-USD") ∧
        FrontendRestServer.handleRequest s.handlers (FrontendRestServer.request .get
            (lit "/api/v1/orderbook/" ++ lit "BTC-USD") (lit "1.1")) =
          some (FrontendRestServer.jsonResponse 200
            (stored.getLast?.getD (lit "\x7b\"error\":\"Symbol not found\"\x7d"))) := by
  have hrun : IsRun (Step fixedOne FrontendWebSocketServer.closesAccepted) (started 0)
      (runOf (next fixedOne FrontendWebSocketServer.closesAccepted) (started 0) firstUpdate) :=
    isRun_runOf_of_enabled (by decide +kernel)
  have hlength : (FrontendRestServer.request .get (lit "/api/v1/orderbook/" ++ lit "BTC-USD")
      (lit "1.1")).length ≤ 4095 := by decide +kernel
  obtain ⟨stored, hstored, hanswer⟩ := orderbook_answer hrun (by decide) (by decide) hlength
    (by decide +kernel)
  rw [lastState_runOf] at hstored hanswer
  exact ⟨stored, hstored, hanswer⟩

/-- In every run, the metrics broadcast and the counters together account for every update and
every trade, and for each byte of them. -/
theorem metrics_account (hrun : IsRun (Step fixed8 closes) (started now) tr) :
    Accounts fixed8 (outputs items (started now) tr) (lastState (started now) tr) :=
  hrun.outputs_invariant (Accounts fixed8) (fun _ _ _ _ hs hstep => hs.next hstep)
    (accounts_started now)

/-- A pass with metrics at its end. -/
def longPass : List Event :=
  [.beginPass 1000000000, .book quietDraws, .store, .book quietDraws, .book quietDraws, .store,
    .trade ⟨0, 1, 1700000000, 0, 1700000001⟩, .metrics]

theorem metrics_account_longPass :
    Accounts fixedOne
      (outputs items (started 0) (runOf (next fixedOne FrontendWebSocketServer.closesAccepted)
        (started 0) longPass))
      (longPass.foldl (next fixedOne FrontendWebSocketServer.closesAccepted) (started 0)) := by
  have hrun : IsRun (Step fixedOne FrontendWebSocketServer.closesAccepted) (started 0)
      (runOf (next fixedOne FrontendWebSocketServer.closesAccepted) (started 0) longPass) :=
    isRun_runOf_of_enabled (by decide +kernel)
  have haccount := metrics_account hrun
  rwa [lastState_runOf] at haccount

end Runs

end ServerMain

end OrderbookEngine
