import OrderbookEngine.Analytics.IndicatorBounds
import OrderbookEngine.Core.AggregatedSnapshot
import OrderbookEngine.Network.RestResponses
import OrderbookEngine.Trading.ArbitrageMonitor
import OrderbookEngine.Utils.Iso8601

/-!
# The REST API server

The server prints what is registered with it as JSON, its strings as they are. The books and the
profits are exact rationals, printed by a function of the number of their decimal places.
-/

namespace OrderbookEngine

open Decimal Json MessageFormatter TextSearch

/-- `exchange_name_str`. -/
def exchangeNameStr (exchange : Exchange) : StdString :=
  if exchange = .binance then lit "Binance"
  else if exchange = .coinbase then lit "Coinbase"
  else if exchange = .kraken then lit "Kraken"
  else lit "Unknown"

namespace AggregatedSnapshot

/-- `AggregatedSnapshot::get_mid_price`. -/
def getMidPrice (snapshot : AggregatedSnapshot ℚ) : Option ℚ :=
  match snapshot.bids, snapshot.asks with
  | bid :: _, ask :: _ => some ((bid.price + ask.price) / 2)
  | _, _ => none

/-- `AggregatedSnapshot::get_spread`. -/
def getSpread (snapshot : AggregatedSnapshot ℚ) : Option ℚ :=
  match snapshot.bids, snapshot.asks with
  | bid :: _, ask :: _ => some (ask.price - bid.price)
  | _, _ => none

end AggregatedSnapshot

/-- `get_active_opportunities`. -/
def ArbitrageMonitor.getActiveOpportunities {β : Type} (std : StdChoices)
    (m : ArbitrageMonitor β ℚ) : List (TrackedArbitrage ℚ) :=
  std.sort (fun a b =>
      decide (b.opportunity.profitPercentage < a.opportunity.profitPercentage))
    (m.activeOpportunities.toList.map Prod.snd)

/-- What is registered with the server, as it is when a request is handled. -/
structure RestAPIServer (β : Type) where
  startTimeNs : UInt64
  orderbooks : Std.TreeMap StdString (AggregatedOrderBook ℚ)
  analytics : Std.TreeMap StdString MarketAnalytics
  arbitrageMonitor : Option (ArbitrageMonitor β ℚ)

namespace RestAPIServer

variable {β : Type} (std : StdChoices) (fixed : Nat → ℚ → {text : StdString // IsNumber text})

def construct : RestAPIServer β := ⟨0, ∅, ∅, none⟩

/-- `register_orderbook`. -/
def registerOrderbook (s : RestAPIServer β) (symbol : StdString) (book : AggregatedOrderBook ℚ) :
    RestAPIServer β :=
  { s with orderbooks := s.orderbooks.insert symbol book }

/-- `register_analytics`. -/
def registerAnalytics (s : RestAPIServer β) (symbol : StdString) (analytics : MarketAnalytics) :
    RestAPIServer β :=
  { s with analytics := s.analytics.insert symbol analytics }

/-- `register_arbitrage_monitor`. -/
def registerArbitrageMonitor (s : RestAPIServer β) (monitor : ArbitrageMonitor β ℚ) :
    RestAPIServer β :=
  { s with arbitrageMonitor := some monitor }

/-- The loops that print with commas between. -/
def separated {α : Type} (print : α → StdString) (l : List α) : StdString :=
  l.zipIdx.flatMap fun (x, i) => (if i > 0 then lit "," else []) ++ print x

/-- A pass of the loops over the levels. -/
def formatLevel (level : AggregatedPriceLevel ℚ) : StdString :=
  lit "[" ++ fixed 8 level.price ++ lit "," ++ fixed 8 level.quantity ++ lit ",\"" ++
    exchangeNameStr level.exchange ++ lit "\"]"

/-- A member of an object that is left out without a value. -/
def formatOptional (name : StdString) (x : Option ℚ) : StdString :=
  match x with
  | some x => lit "\"" ++ name ++ lit "\":" ++ fixed 8 x ++ lit ","
  | none => []

def formatSnapshot (symbol : StdString) (snapshot : AggregatedSnapshot ℚ) : StdString :=
  lit "\x7b\"symbol\":\"" ++ symbol ++ lit "\"," ++
    lit "\"timestamp\":" ++ decimal snapshot.timestampNs.toNat ++ lit "," ++
    formatOptional fixed (lit "mid_price") snapshot.getMidPrice ++
    formatOptional fixed (lit "spread") snapshot.getSpread ++
    lit "\"bids\":[" ++ separated (formatLevel fixed) snapshot.bids ++ lit "]," ++
    lit "\"asks\":[" ++ separated (formatLevel fixed) snapshot.asks ++ lit "]\x7d"

/-- `handle_orderbook`, whose depth is 10 whatever the query says. -/
def handleOrderbook (s : RestAPIServer β) (symbol : StdString) (timestampNs : UInt64) :
    StdString :=
  match s.orderbooks[symbol]? with
  | none => lit "\x7b\"error\":\"Symbol not found\"\x7d"
  | some book => formatSnapshot fixed symbol (book.getSnapshot std 10 timestampNs)

def formatAnalytics (symbol : StdString) (m : MarketAnalytics) : StdString :=
  lit "\x7b\"symbol\":\"" ++ symbol ++ lit "\"," ++
    lit "\"vwap\":" ++ fixed 2 m.getVwap ++ lit "," ++
    lit "\"twap\":" ++ fixed 2 m.getTwap ++ lit "," ++
    lit "\"imbalance\":" ++ fixed 4 m.getImbalance ++ lit "," ++
    lit "\"spread\":\x7b" ++
    lit "\"current\":" ++ fixed 2 m.getSpreadStats.currentSpread ++ lit "," ++
    lit "\"average\":" ++ fixed 2 m.getSpreadStats.averageSpread ++ lit "," ++
    lit "\"min\":" ++ fixed 2 m.getSpreadStats.minSpread ++ lit "," ++
    lit "\"max\":" ++ fixed 2 m.getSpreadStats.maxSpread ++
    lit "\x7d\x7d"

/-- `handle_analytics`. -/
def handleAnalytics (s : RestAPIServer β) (symbol : StdString) : StdString :=
  match s.analytics[symbol]? with
  | none => lit "\x7b\"error\":\"Symbol not found\"\x7d"
  | some m => formatAnalytics fixed symbol m

/-- A profit as a stream prints it: a price of zero makes it infinite. -/
def formatProfit (profit : WithTop ℚ) : StdString :=
  match profit with
  | some profit => fixed 2 profit
  | none => lit "inf"

def formatOpportunity (arb : TrackedArbitrage ℚ) : StdString :=
  lit "\x7b" ++
    lit "\"symbol\":\"" ++ arb.opportunity.symbol ++ lit "\"," ++
    lit "\"buy_exchange\":\"" ++ exchangeNameStr arb.opportunity.buyExchange ++ lit "\"," ++
    lit "\"sell_exchange\":\"" ++ exchangeNameStr arb.opportunity.sellExchange ++ lit "\"," ++
    lit "\"profit_percent\":" ++ formatProfit fixed arb.opportunity.profitPercentage ++
    lit "\x7d"

/-- `handle_arbitrage`. -/
def handleArbitrage (s : RestAPIServer β) : StdString :=
  match s.arbitrageMonitor with
  | none => lit "\x7b\"error\":\"Arbitrage monitor not registered\"\x7d"
  | some monitor =>
    lit "\x7b\"opportunities\":[" ++
      separated (formatOpportunity fixed) (monitor.getActiveOpportunities std) ++ lit "]\x7d"

/-- The seconds since the start, in words. -/
def uptimeSec (s : RestAPIServer β) (timestampNs : UInt64) : UInt64 :=
  (timestampNs - s.startTimeNs) / 1000000000

/-- `handle_health`. -/
def handleHealth (s : RestAPIServer β) (timestampNs : UInt64) : StdString :=
  lit "\x7b\"status\":\"healthy\"," ++
    lit "\"uptime_seconds\":" ++ decimal (s.uptimeSec timestampNs).toNat ++
    lit "\x7d"

/-- `handle_status`. -/
def handleStatus (s : RestAPIServer β) : StdString :=
  lit "\x7b\"orderbooks\":" ++ decimal s.orderbooks.size ++ lit "," ++
    lit "\"analytics\":" ++ decimal s.analytics.size ++ lit "," ++
    lit "\"arbitrage_enabled\":" ++
    (if s.arbitrageMonitor.isSome then lit "true" else lit "false") ++
    lit "\x7d"

/-- `create_http_response`, with its default content type. -/
def createHttpResponse (statusCode : Nat) (body : StdString) : StdString :=
  lit "HTTP/1.1 " ++ decimal statusCode ++ lit " " ++
    (if statusCode = 200 then lit "OK" else lit "Error") ++ lit "\r\n" ++
    lit "Content-Type: application/json\r\n" ++
    lit "Content-Length: " ++ decimal body.length ++ lit "\r\n" ++
    lit "Access-Control-Allow-Origin: *\r\n" ++
    lit "Connection: close\r\n" ++
    lit "\r\n" ++
    body

/-- `create_error_response`. -/
def createErrorResponse (statusCode : Nat) (message : StdString) : StdString :=
  createHttpResponse statusCode
    (lit "\x7b\"error\":\"" ++ message ++ lit "\",\"code\":" ++ decimal statusCode ++ lit "\x7d")

/-- `iss >>` of a string: the word, and what is behind it. -/
def readWord (text : StdString) : StdString × StdString :=
  let text := text.dropWhile (TimeUtils.IsSpace ·)
  (text.takeWhile (¬ TimeUtils.IsSpace ·), text.dropWhile (¬ TimeUtils.IsSpace ·))

/-- The path of `parse_url`. -/
def parseUrl (url : StdString) : StdString :=
  match find (lit "?") url 0 with
  | some queryPos => url.take queryPos
  | none => url

/-- What a request asks for. -/
inductive Route where
  | health
  | status
  | arbitrage
  | orderbook (symbol : StdString)
  | analytics (symbol : StdString)
  | notFound
  | notAllowed
  deriving DecidableEq, Repr

/-- The routing of `handle_request`. -/
def routeOf (request : StdString) : Route :=
  let (method, rest) := readWord request
  let path := parseUrl (readWord rest).1
  if method ≠ lit "GET" then .notAllowed
  else if path = lit "/api/v1/health" then .health
  else if path = lit "/api/v1/status" then .status
  else if path = lit "/api/v1/arbitrage" then .arbitrage
  else if find (lit "/api/v1/orderbook/") path 0 = some 0 then .orderbook (path.drop 18)
  else if find (lit "/api/v1/analytics/") path 0 = some 0 then .analytics (path.drop 18)
  else .notFound

/-- `handle_request`. -/
def handleRequest (s : RestAPIServer β) (request : StdString) (timestampNs : UInt64) : StdString :=
  match routeOf request with
  | .health => createHttpResponse 200 (s.handleHealth timestampNs)
  | .status => createHttpResponse 200 s.handleStatus
  | .arbitrage => createHttpResponse 200 (s.handleArbitrage std fixed)
  | .orderbook symbol => createHttpResponse 200 (s.handleOrderbook std fixed symbol timestampNs)
  | .analytics symbol => createHttpResponse 200 (s.handleAnalytics fixed symbol)
  | .notFound => createErrorResponse 404 (lit "Not Found")
  | .notAllowed => createErrorResponse 405 (lit "Method Not Allowed")

/-- A pass of `server_loop`: what it sends for the bytes that one `recv` delivers. -/
def serve (s : RestAPIServer β) (received : StdString) (timestampNs : UInt64) : Option StdString :=
  let buffer := received.take 4095
  if buffer = [] then none
  else some (s.handleRequest std fixed (buffer.takeWhile (· ≠ 0)) timestampNs)

/-! ## What the answers stand for -/

def levelJson (level : AggregatedPriceLevel ℚ) : Json :=
  .array [.number (fixed 8 level.price), .number (fixed 8 level.quantity),
    .string (exchangeNameStr level.exchange)]

def optionalField (name : StdString) (x : Option ℚ) : List (StdString × Json) :=
  x.toList.map fun x => (name, .number (fixed 8 x))

def snapshotFields (symbol : StdString) (snapshot : AggregatedSnapshot ℚ) :
    List (StdString × Json) :=
  (lit "symbol", .string symbol) ::
    (lit "timestamp", .number (decimal snapshot.timestampNs.toNat)) ::
    (optionalField fixed (lit "mid_price") snapshot.getMidPrice ++
      (optionalField fixed (lit "spread") snapshot.getSpread ++
        [(lit "bids", .array (snapshot.bids.map (levelJson fixed))),
          (lit "asks", .array (snapshot.asks.map (levelJson fixed)))]))

def analyticsFields (symbol : StdString) (m : MarketAnalytics) : List (StdString × Json) :=
  [(lit "symbol", .string symbol),
    (lit "vwap", .number (fixed 2 m.getVwap)),
    (lit "twap", .number (fixed 2 m.getTwap)),
    (lit "imbalance", .number (fixed 4 m.getImbalance)),
    (lit "spread", .object
      [(lit "current", .number (fixed 2 m.getSpreadStats.currentSpread)),
        (lit "average", .number (fixed 2 m.getSpreadStats.averageSpread)),
        (lit "min", .number (fixed 2 m.getSpreadStats.minSpread)),
        (lit "max", .number (fixed 2 m.getSpreadStats.maxSpread))])]

def opportunityJson (arb : TrackedArbitrage ℚ) : Json :=
  .object
    [(lit "symbol", .string arb.opportunity.symbol),
      (lit "buy_exchange", .string (exchangeNameStr arb.opportunity.buyExchange)),
      (lit "sell_exchange", .string (exchangeNameStr arb.opportunity.sellExchange)),
      (lit "profit_percent", .number (formatProfit fixed arb.opportunity.profitPercentage))]

def errorFields (message : StdString) : List (StdString × Json) :=
  [(lit "error", .string message)]

def errorCodeFields (statusCode : Nat) (message : StdString) : List (StdString × Json) :=
  [(lit "error", .string message), (lit "code", .number (decimal statusCode))]

/-- The status and the members of the answer. -/
def answerOf (s : RestAPIServer β) (timestampNs : UInt64) : Route → Nat × List (StdString × Json)
  | .health => (200, [(lit "status", .string (lit "healthy")),
      (lit "uptime_seconds", .number (decimal (s.uptimeSec timestampNs).toNat))])
  | .status => (200, [(lit "orderbooks", .number (decimal s.orderbooks.size)),
      (lit "analytics", .number (decimal s.analytics.size)),
      (lit "arbitrage_enabled", .bool s.arbitrageMonitor.isSome)])
  | .arbitrage => (200,
      match s.arbitrageMonitor with
      | none => errorFields (lit "Arbitrage monitor not registered")
      | some monitor => [(lit "opportunities",
          .array ((monitor.getActiveOpportunities std).map (opportunityJson fixed)))])
  | .orderbook symbol => (200,
      match s.orderbooks[symbol]? with
      | none => errorFields (lit "Symbol not found")
      | some book => snapshotFields fixed symbol (book.getSnapshot std 10 timestampNs))
  | .analytics symbol => (200,
      match s.analytics[symbol]? with
      | none => errorFields (lit "Symbol not found")
      | some m => analyticsFields fixed symbol m)
  | .notFound => (404, errorCodeFields 404 (lit "Not Found"))
  | .notAllowed => (405, errorCodeFields 405 (lit "Method Not Allowed"))

/-- What is registered can be printed: symbols are plain, and profits finite. -/
structure Printable (s : RestAPIServer β) : Prop where
  orderbooks : ∀ symbol ∈ s.orderbooks.keys, Plain symbol
  analytics : ∀ symbol ∈ s.analytics.keys, Plain symbol
  opportunities : ∀ monitor ∈ s.arbitrageMonitor, ∀ e ∈ monitor.activeOpportunities.toList,
    Plain e.2.opportunity.symbol ∧ e.2.opportunity.profitPercentage ≠ ⊤

/-- The response with its header fields. -/
def httpResponse (statusCode : Nat) (body : StdString) : Http.Response where
  status := statusCode
  reason := if statusCode = 200 then lit "OK" else lit "Error"
  fields := [(lit "Content-Type", lit "application/json"),
    (lit "Content-Length", digits body.length), (lit "Access-Control-Allow-Origin", lit "*"),
    (lit "Connection", lit "close")]
  body := body

section Framing

theorem createHttpResponse_eq (statusCode : Nat) (body : StdString) :
    createHttpResponse statusCode body = Http.print (httpResponse statusCode body) := by
  obtain ⟨hversion, hblank, hend, hlength, hclose⟩ := FrontendRestServer.responseLiterals
  have htype : lit "Content-Type: application/json\r\n" =
      Http.printField (lit "Content-Type", lit "application/json") := by decide +kernel
  have horigin : lit "Access-Control-Allow-Origin: *\r\n" =
      Http.printField (lit "Access-Control-Allow-Origin", lit "*") := by decide +kernel
  rw [createHttpResponse, httpResponse, Http.print, hversion, hblank, hend, htype, hlength,
    horigin, hclose, decimal_eq_digits, decimal_eq_digits]
  simp [Http.printField]

theorem formed_httpResponse (statusCode : Nat) (body : StdString) :
    Http.Formed (httpResponse statusCode body) where
  reason := by
    have hok : 13 ∉ lit "OK" := by decide
    have herror : 13 ∉ lit "Error" := by decide
    rw [httpResponse]
    split
    · exact hok
    · exact herror
  fields := by
    have hlength : Http.FieldFormed (lit "Content-Length", digits body.length) :=
      Http.fieldFormed_digits (by decide +kernel) (by decide +kernel) body.length
    have hrest : ∀ field ∈ [(lit "Content-Type", lit "application/json"),
        (lit "Access-Control-Allow-Origin", lit "*"), (lit "Connection", lit "close")],
        Http.FieldFormed field := by decide +kernel
    obtain ⟨htype, hothers⟩ := List.forall_mem_cons.mp hrest
    exact List.forall_mem_cons.mpr ⟨htype, List.forall_mem_cons.mpr ⟨hlength, hothers⟩⟩
  length := Http.contentLength_append [(lit "Content-Type", lit "application/json")]
    (by decide +kernel) (by decide +kernel) body.length

end Framing

section Bodies

theorem plain_exchangeNameStr (exchange : Exchange) : Plain (exchangeNameStr exchange) := by
  unfold exchangeNameStr
  split_ifs
  all_goals exact plain_of_ascii (by decide +kernel)

/-- The keys and the fixed values of the answers. -/
theorem plain_answerNames : ∀ s ∈ [lit "symbol", lit "timestamp", lit "mid_price", lit "spread",
    lit "bids", lit "asks", lit "vwap", lit "twap", lit "imbalance", lit "current", lit "average",
    lit "min", lit "max", lit "buy_exchange", lit "sell_exchange", lit "profit_percent",
    lit "error", lit "code", lit "status", lit "healthy", lit "uptime_seconds", lit "orderbooks",
    lit "analytics", lit "arbitrage_enabled", lit "opportunities", lit "Symbol not found",
    lit "Arbitrage monitor not registered", lit "Not Found", lit "Method Not Allowed"],
    Plain s := by
  have hascii : ∀ s ∈ [lit "symbol", lit "timestamp", lit "mid_price", lit "spread",
    lit "bids", lit "asks", lit "vwap", lit "twap", lit "imbalance", lit "current", lit "average",
    lit "min", lit "max", lit "buy_exchange", lit "sell_exchange", lit "profit_percent",
    lit "error", lit "code", lit "status", lit "healthy", lit "uptime_seconds", lit "orderbooks",
    lit "analytics", lit "arbitrage_enabled", lit "opportunities", lit "Symbol not found",
    lit "Arbitrage monitor not registered", lit "Not Found", lit "Method Not Allowed"],
    ∀ c ∈ s, ¬ IsUnclean c ∧ c < 128 := by decide +kernel
  exact fun s hs => plain_of_ascii (hascii s hs)

/-- Behind the first there is a comma before each. -/
theorem separated_behind {α : Type} (print : α → StdString) (l : List α) (k : ℕ) :
    ((l.zipIdx (k + 1)).flatMap fun (x, i) => (if i > 0 then lit "," else []) ++ print x) =
      (l.map print).flatMap (44 :: ·) := by
  induction l generalizing k with
  | nil => rfl
  | cons x l ih =>
    rw [List.zipIdx_cons, List.flatMap_cons, ih, List.map_cons, List.flatMap_cons]
    dsimp only
    rw [if_pos (Nat.succ_pos k)]
    rfl

theorem separated_eq {α : Type} {print : α → StdString} {json : α → Json} {l : List α}
    (h : ∀ x ∈ l, print x = compact (json x)) :
    separated print l = commas ((l.map json).map compact) := by
  have hmap : (l.map json).map compact = l.map print := by
    rw [List.map_map]
    exact (List.map_congr_left h).symm
  rw [hmap]
  cases l with
  | nil => rfl
  | cons x l =>
    rw [separated, List.zipIdx_cons, List.flatMap_cons, separated_behind, List.map_cons, commas]
    rfl

theorem formatLevel_eq (level : AggregatedPriceLevel ℚ) :
    formatLevel fixed level = compact (levelJson fixed level) := by
  simp [formatLevel, levelJson, compact, commas, lit]

theorem formatSnapshot_eq (symbol : StdString) (snapshot : AggregatedSnapshot ℚ) :
    formatSnapshot fixed symbol snapshot =
      compact (.object (snapshotFields fixed symbol snapshot)) := by
  have hbids := separated_eq (l := snapshot.bids) fun level _ => formatLevel_eq fixed level
  have hasks := separated_eq (l := snapshot.asks) fun level _ => formatLevel_eq fixed level
  rw [formatSnapshot, snapshotFields, hbids, hasks]
  generalize snapshot.getMidPrice = mid
  generalize snapshot.getSpread = spread
  cases mid with
  | none =>
    cases spread with
    | none => simp [formatOptional, optionalField, compact, commas, lit]
    | some spread => simp [formatOptional, optionalField, compact, commas, lit]
  | some mid =>
    cases spread with
    | none => simp [formatOptional, optionalField, compact, commas, lit]
    | some spread => simp [formatOptional, optionalField, compact, commas, lit]

set_option maxRecDepth 4000 in
theorem formatAnalytics_eq (symbol : StdString) (m : MarketAnalytics) :
    formatAnalytics fixed symbol m = compact (.object (analyticsFields fixed symbol m)) := by
  delta formatAnalytics analyticsFields
  simp only [compact_object, commas, printField, compact, List.map_cons, List.map_nil,
    List.flatMap_cons, List.flatMap_nil, List.append_assoc, List.cons_append, List.append_nil]
  rfl

theorem formatOpportunity_eq (arb : TrackedArbitrage ℚ) :
    formatOpportunity fixed arb = compact (opportunityJson fixed arb) := by
  delta formatOpportunity opportunityJson
  simp only [compact_object, commas, printField, compact, List.map_cons, List.map_nil,
    List.flatMap_cons, List.flatMap_nil, List.append_assoc, List.cons_append, List.append_nil]
  rfl

/-- An object that can be printed. -/
structure WellPrinted (fields : List (StdString × Json)) : Prop where
  ne : fields ≠ []
  keys : (fields.map Prod.fst).Nodup
  numbers : ∀ t ∈ numbers (.object fields), IsNumber t
  strings : ∀ s ∈ strings (.object fields), Plain s

theorem WellPrinted.decodesTo {fields : List (StdString × Json)} {text : StdString}
    (h : WellPrinted fields) (htext : text = compact (.object fields)) : DecodesTo text fields := by
  rw [htext]
  exact (decodesTo_compact_iff h.ne h.keys h.numbers).mpr h.strings

variable {symbol : StdString}

theorem wellPrinted_error {message : StdString} (h : Plain message) :
    WellPrinted (errorFields message) where
  ne := List.cons_ne_nil _ _
  keys := List.nodup_singleton _
  numbers := by simp [errorFields, numbers]
  strings := by
    have hnames := plain_answerNames
    simp only [List.forall_mem_cons] at hnames
    simp [errorFields, strings, hnames, h]

theorem wellPrinted_errorCode {message : StdString} (h : Plain message) (statusCode : Nat) :
    WellPrinted (errorCodeFields statusCode message) where
  ne := List.cons_ne_nil _ _
  keys := by
    have hkeys : [lit "error", lit "code"].Nodup := by decide
    exact hkeys
  numbers := by simp [errorCodeFields, numbers, isNumber_decimal]
  strings := by
    have hnames := plain_answerNames
    simp only [List.forall_mem_cons] at hnames
    simp [errorCodeFields, strings, hnames, h]

theorem strings_levels (levels : List (AggregatedPriceLevel ℚ)) :
    ∀ text ∈ strings (.array (levels.map (levelJson fixed))), Plain text := by
  rw [strings, List.flatMap_map, List.forall_mem_flatMap]
  intro level _
  simp [levelJson, strings, plain_exchangeNameStr]

theorem numbers_levels (levels : List (AggregatedPriceLevel ℚ)) :
    ∀ text ∈ numbers (.array (levels.map (levelJson fixed))), IsNumber text := by
  rw [numbers, List.flatMap_map, List.forall_mem_flatMap]
  intro level _
  simp [levelJson, numbers, (fixed 8 level.price).2, (fixed 8 level.quantity).2]

theorem wellPrinted_snapshot (h : Plain symbol) (snapshot : AggregatedSnapshot ℚ) :
    WellPrinted (snapshotFields fixed symbol snapshot) where
  ne := List.cons_ne_nil _ _
  keys := by
    have hkeys : [lit "symbol", lit "timestamp", lit "mid_price", lit "spread", lit "bids",
      lit "asks"].Nodup := by decide
    have hsub : ((snapshotFields fixed symbol snapshot).map Prod.fst).Sublist
        [lit "symbol", lit "timestamp", lit "mid_price", lit "spread", lit "bids",
          lit "asks"] := by
      rw [snapshotFields]
      generalize snapshot.getMidPrice = mid
      generalize snapshot.getSpread = spread
      cases mid with
      | none =>
        cases spread with
        | none => simp [optionalField]
        | some spread => simp [optionalField]
      | some mid =>
        cases spread with
        | none => simp [optionalField]
        | some spread => simp [optionalField]
    exact hkeys.sublist hsub
  numbers := by
    have hbids := numbers_levels fixed snapshot.bids
    have hasks := numbers_levels fixed snapshot.asks
    have hoptional : ∀ name x, ∀ field ∈ optionalField fixed name x,
        ∀ text ∈ numbers field.2, IsNumber text := by
      intro name x field hfield
      obtain ⟨x, -, rfl⟩ := List.mem_map.mp hfield
      simp [(fixed 8 x).2]
    have hmid := hoptional (lit "mid_price") snapshot.getMidPrice
    have hspread := hoptional (lit "spread") snapshot.getSpread
    rw [forall_numbers_object, snapshotFields]
    simp only [List.forall_mem_cons, List.forall_mem_append]
    refine ⟨by simp, by simp [isNumber_decimal], hmid, hspread, hbids, hasks,
      List.forall_mem_nil _⟩
  strings := by
    have hnames := plain_answerNames
    have hbids := strings_levels fixed snapshot.bids
    have hasks := strings_levels fixed snapshot.asks
    have hoptional : ∀ name x, Plain name → ∀ field ∈ optionalField fixed name x,
        Plain field.1 ∧ ∀ text ∈ strings field.2, Plain text := by
      intro name x hname field hfield
      obtain ⟨x, -, rfl⟩ := List.mem_map.mp hfield
      exact ⟨hname, by simp⟩
    simp only [List.forall_mem_cons] at hnames
    rw [forall_strings_object, snapshotFields]
    simp only [List.forall_mem_cons, List.forall_mem_append]
    refine ⟨by simp [hnames, h], by simp [hnames], hoptional _ _ (by simp [hnames]),
      hoptional _ _ (by simp [hnames]), ⟨by simp [hnames], hbids⟩, ⟨by simp [hnames], hasks⟩,
      List.forall_mem_nil _⟩

theorem wellPrinted_analytics (h : Plain symbol) (m : MarketAnalytics) :
    WellPrinted (analyticsFields fixed symbol m) where
  ne := List.cons_ne_nil _ _
  keys := by
    have hkeys : [lit "symbol", lit "vwap", lit "twap", lit "imbalance",
      lit "spread"].Nodup := by decide
    exact hkeys
  numbers := by
    have hfixed : ∀ places x, IsNumber (fixed places x).1 := fun places x => (fixed places x).2
    simp [analyticsFields, numbers, hfixed]
  strings := by
    have hnames := plain_answerNames
    simp only [List.forall_mem_cons] at hnames
    simp [analyticsFields, strings, hnames, h]

/-- The opportunities that are printed are active. -/
theorem mem_getActiveOpportunities {monitor : ArbitrageMonitor β ℚ} {arb : TrackedArbitrage ℚ}
    (h : arb ∈ monitor.getActiveOpportunities std) :
    ∃ e ∈ monitor.activeOpportunities.toList, e.2 = arb :=
  List.mem_map.mp (std.mem_sort.mp h)

theorem wellPrinted_opportunities {monitor : ArbitrageMonitor β ℚ}
    (h : ∀ e ∈ monitor.activeOpportunities.toList,
      Plain e.2.opportunity.symbol ∧ e.2.opportunity.profitPercentage ≠ ⊤) :
    WellPrinted [(lit "opportunities",
      .array ((monitor.getActiveOpportunities std).map (opportunityJson fixed)))] where
  ne := List.cons_ne_nil _ _
  keys := List.nodup_singleton _
  numbers := by
    rw [forall_numbers_object, List.forall_mem_singleton, numbers, List.flatMap_map,
      List.forall_mem_flatMap]
    intro arb harb
    obtain ⟨e, he, rfl⟩ := mem_getActiveOpportunities std harb
    have hfinite := (h e he).2
    cases hprofit : e.2.opportunity.profitPercentage with
    | top => exact absurd hprofit hfinite
    | coe profit =>
      have hnumber : IsNumber (formatProfit fixed (profit : WithTop ℚ)) := (fixed 2 profit).2
      simpa [opportunityJson, numbers, hprofit] using hnumber
  strings := by
    have hnames := plain_answerNames
    simp only [List.forall_mem_cons] at hnames
    rw [forall_strings_object, List.forall_mem_singleton, strings, List.flatMap_map,
      List.forall_mem_flatMap]
    refine ⟨by simp [hnames], fun arb harb => ?_⟩
    obtain ⟨e, he, rfl⟩ := mem_getActiveOpportunities std harb
    have hsymbol := (h e he).1
    simp [opportunityJson, strings, hnames, hsymbol, plain_exchangeNameStr]

end Bodies

section Answers

variable {s : RestAPIServer β}

/-- The errors are printed with their message as it is. -/
theorem decodesTo_error {text message : StdString} (h : Plain message)
    (htext : text = lit "\x7b\"error\":\"" ++ message ++ lit "\"\x7d") :
    DecodesTo text (errorFields message) := by
  refine (wellPrinted_error h).decodesTo (htext.trans ?_)
  simp [errorFields, compact, commas, lit]

theorem decodesTo_errorCode {message : StdString} (h : Plain message) (statusCode : Nat) :
    DecodesTo (lit "\x7b\"error\":\"" ++ message ++ lit "\",\"code\":" ++ decimal statusCode ++
      lit "\x7d") (errorCodeFields statusCode message) := by
  refine (wellPrinted_errorCode h statusCode).decodesTo ?_
  simp [errorCodeFields, compact, commas, lit]

theorem decodesTo_health (s : RestAPIServer β) (timestampNs : UInt64) :
    DecodesTo (s.handleHealth timestampNs) (s.answerOf std fixed timestampNs .health).2 := by
  have hnames := plain_answerNames
  simp only [List.forall_mem_cons] at hnames
  have hkeys : [lit "status", lit "uptime_seconds"].Nodup := by decide
  have hprinted : WellPrinted (s.answerOf std fixed timestampNs .health).2 :=
    ⟨List.cons_ne_nil _ _, hkeys, by simp [answerOf, numbers, isNumber_decimal],
      by simp [answerOf, strings, hnames]⟩
  have htext : s.handleHealth timestampNs =
      compact (.object (s.answerOf std fixed timestampNs .health).2) := by
    simp [handleHealth, answerOf, compact, commas, lit]
  exact hprinted.decodesTo htext

theorem decodesTo_status (s : RestAPIServer β) (timestampNs : UInt64) :
    DecodesTo s.handleStatus (s.answerOf std fixed timestampNs .status).2 := by
  have hnames := plain_answerNames
  simp only [List.forall_mem_cons] at hnames
  have hkeys : [lit "orderbooks", lit "analytics", lit "arbitrage_enabled"].Nodup := by decide
  have hprinted : WellPrinted (s.answerOf std fixed timestampNs .status).2 :=
    ⟨List.cons_ne_nil _ _, hkeys, by simp [answerOf, numbers, isNumber_decimal],
      by simp [answerOf, strings, hnames]⟩
  have htext : s.handleStatus = compact (.object (s.answerOf std fixed timestampNs .status).2) := by
    rw [handleStatus, ← compact_bool]
    simp [answerOf, compact, commas, lit]
  exact hprinted.decodesTo htext

theorem Printable.decodesTo_arbitrage (h : s.Printable) (timestampNs : UInt64) :
    DecodesTo (s.handleArbitrage std fixed) (s.answerOf std fixed timestampNs .arbitrage).2 := by
  simp only [handleArbitrage, answerOf]
  cases hmonitor : s.arbitrageMonitor with
  | none => exact decodesTo_error (plain_answerNames _ (by simp)) rfl
  | some monitor =>
    have hprinted := wellPrinted_opportunities std fixed (h.opportunities monitor hmonitor)
    have htext := separated_eq (l := monitor.getActiveOpportunities std) fun arb _ =>
      formatOpportunity_eq fixed arb
    have hbody : lit "\x7b\"opportunities\":[" ++ separated (formatOpportunity fixed)
        (monitor.getActiveOpportunities std) ++ lit "]\x7d" = compact (.object
          [(lit "opportunities",
            .array ((monitor.getActiveOpportunities std).map (opportunityJson fixed)))]) := by
      simp [htext, compact, commas, lit]
    exact hprinted.decodesTo hbody

theorem Printable.decodesTo_orderbook (h : s.Printable) (symbol : StdString)
    (timestampNs : UInt64) :
    DecodesTo (s.handleOrderbook std fixed symbol timestampNs)
      (s.answerOf std fixed timestampNs (.orderbook symbol)).2 := by
  simp only [handleOrderbook, answerOf]
  cases hbook : s.orderbooks[symbol]? with
  | none => exact decodesTo_error (plain_answerNames _ (by simp)) rfl
  | some book =>
    have hmem : symbol ∈ s.orderbooks := by
      rw [Std.TreeMap.mem_iff_isSome_getElem?, hbook]
      rfl
    have hplain := h.orderbooks symbol (Std.TreeMap.mem_keys.mpr hmem)
    have hprinted := wellPrinted_snapshot fixed hplain (book.getSnapshot std 10 timestampNs)
    exact hprinted.decodesTo (formatSnapshot_eq fixed symbol _)

theorem Printable.decodesTo_analytics (h : s.Printable) (symbol : StdString)
    (timestampNs : UInt64) :
    DecodesTo (s.handleAnalytics fixed symbol)
      (s.answerOf std fixed timestampNs (.analytics symbol)).2 := by
  simp only [handleAnalytics, answerOf]
  cases hanalytics : s.analytics[symbol]? with
  | none => exact decodesTo_error (plain_answerNames _ (by simp)) rfl
  | some m =>
    have hmem : symbol ∈ s.analytics := by
      rw [Std.TreeMap.mem_iff_isSome_getElem?, hanalytics]
      rfl
    have hplain := h.analytics symbol (Std.TreeMap.mem_keys.mpr hmem)
    have hprinted := wellPrinted_analytics fixed hplain m
    exact hprinted.decodesTo (formatAnalytics_eq fixed symbol m)

/-- The body of an answer decodes to its members, whatever the request asks for. -/
theorem Printable.decodesTo (h : s.Printable) (request : StdString) (timestampNs : UInt64) :
    ∃ body, s.handleRequest std fixed request timestampNs =
        createHttpResponse (s.answerOf std fixed timestampNs (routeOf request)).1 body ∧
      DecodesTo body (s.answerOf std fixed timestampNs (routeOf request)).2 := by
  rw [handleRequest]
  cases routeOf request with
  | health => exact ⟨_, rfl, decodesTo_health std fixed s timestampNs⟩
  | status => exact ⟨_, rfl, decodesTo_status std fixed s timestampNs⟩
  | arbitrage => exact ⟨_, rfl, h.decodesTo_arbitrage std fixed timestampNs⟩
  | orderbook symbol => exact ⟨_, rfl, h.decodesTo_orderbook std fixed symbol timestampNs⟩
  | analytics symbol => exact ⟨_, rfl, h.decodesTo_analytics std fixed symbol timestampNs⟩
  | notFound => exact ⟨_, rfl, decodesTo_errorCode (plain_answerNames _ (by simp)) 404⟩
  | notAllowed => exact ⟨_, rfl, decodesTo_errorCode (plain_answerNames _ (by simp)) 405⟩

/-- Whatever a client sends, it reads the status of the answer and a body that decodes to what is
registered, and what follows the answer is left to it. -/
theorem serve_answers (h : s.Printable) {received : StdString} (hreceived : received ≠ [])
    (timestampNs : UInt64) (rest : StdString) :
    ∃ answer body, s.serve std fixed received timestampNs = some answer ∧
      Http.parse (answer ++ rest) = some (httpResponse (s.answerOf std fixed timestampNs
        (routeOf ((received.take 4095).takeWhile (· ≠ 0)))).1 body, rest) ∧
      DecodesTo body (s.answerOf std fixed timestampNs
        (routeOf ((received.take 4095).takeWhile (· ≠ 0)))).2 := by
  have hbuffer : received.take 4095 ≠ [] := by simpa using hreceived
  obtain ⟨body, hanswer, hbody⟩ :=
    h.decodesTo std fixed ((received.take 4095).takeWhile (· ≠ 0)) timestampNs
  refine ⟨_, body, if_neg hbuffer, ?_, hbody⟩
  rw [hanswer, createHttpResponse_eq]
  exact Http.parse_print (formed_httpResponse _ _) rest

/-- What a stream prints in fixed notation for a whole number that is not negative. -/
def printWhole (places : Nat) (x : ℚ) : {text : StdString // IsNumber text} :=
  let text := digits x.num.toNat ++ lit "." ++ List.replicate places 48
  if h : IsNumber text then ⟨text, h⟩ else ⟨digits x.num.toNat, isNumber_digits _⟩

/-- A bid of Binance and two asks of Coinbase. -/
def quotedBook : AggregatedOrderBook ℚ :=
  let book := AggregatedOrderBook.construct (lit "BTC-USD")
  let book := book.update ⟨.binance, lit "BTC-USD", 5, 1, [⟨100, 4, 1⟩], []⟩
  book.update ⟨.coinbase, lit "BTC-USD", 6, 1, [], [⟨103, 9, 1⟩, ⟨102, 2, 1⟩]⟩

/-- A server with a book and a monitor. -/
def oneBook : RestAPIServer Unit :=
  let server := construct.registerOrderbook (lit "BTC-USD") quotedBook
  server.registerArbitrageMonitor (.construct Unit 0 10)

theorem printable_oneBook : oneBook.Printable where
  orderbooks := by
    have hkeys : oneBook.orderbooks.keys = [lit "BTC-USD"] := by decide +kernel
    rw [hkeys, List.forall_mem_singleton]
    exact plain_of_ascii (by decide +kernel)
  analytics := by
    have hkeys : oneBook.analytics.keys = [] := by decide +kernel
    rw [hkeys]
    exact List.forall_mem_nil _
  opportunities := by
    intro monitor hmonitor
    obtain rfl := Option.some.inj hmonitor
    exact List.forall_mem_nil _

theorem serve_answers_oneBook : ∃ answer body,
    oneBook.serve .stable printWhole
        (lit "GET /api/v1/orderbook/BTC-USD?depth=5 HTTP/1.1\r\n\r\n") 7 = some answer ∧
      Http.parse (answer ++ [13]) = some (httpResponse 200 body, [13]) ∧
      DecodesTo body [(lit "symbol", .string (lit "BTC-USD")), (lit "timestamp", .number (lit "7")),
        (lit "mid_price", .number (lit "101.00000000")),
        (lit "spread", .number (lit "2.00000000")),
        (lit "bids", .array [.array [.number (lit "100.00000000"), .number (lit "4.00000000"),
          .string (lit "Binance")]]),
        (lit "asks", .array [
          .array [.number (lit "102.00000000"), .number (lit "2.00000000"),
            .string (lit "Coinbase")],
          .array [.number (lit "103.00000000"), .number (lit "9.00000000"),
            .string (lit "Coinbase")]])] := by
  have hreceived : lit "GET /api/v1/orderbook/BTC-USD?depth=5 HTTP/1.1\r\n\r\n" ≠ [] := by
    decide +kernel
  have hroute : routeOf (((lit "GET /api/v1/orderbook/BTC-USD?depth=5 HTTP/1.1\r\n\r\n").take
      4095).takeWhile (· ≠ 0)) = .orderbook (lit "BTC-USD") := by decide +kernel
  have hbook : oneBook.orderbooks[lit "BTC-USD"]? = some quotedBook := by
    simp [oneBook, registerOrderbook, registerArbitrageMonitor]
  have hsnapshot : quotedBook.getSnapshot .stable 10 7 = ⟨lit "BTC-USD", 7,
      [⟨.binance, 100, 4, 1, 5⟩], [⟨.coinbase, 102, 2, 1, 6⟩, ⟨.coinbase, 103, 9, 1, 6⟩]⟩ := by
    decide +kernel
  have hprices : [100, 101, 102, 103].map (fun x => (printWhole 8 x).1) =
      [lit "100.00000000", lit "101.00000000", lit "102.00000000", lit "103.00000000"] := by
    decide +kernel
  have hquantities : [2, 4, 9].map (fun x => (printWhole 8 x).1) =
      [lit "2.00000000", lit "4.00000000", lit "9.00000000"] := by decide +kernel
  have hmid : ((100 : ℚ) + 102) / 2 = 101 ∧ (102 : ℚ) - 100 = 2 := by norm_num
  have hnames : decimal 7 = lit "7" ∧ exchangeNameStr .binance = lit "Binance" ∧
      exchangeNameStr .coinbase = lit "Coinbase" := by decide +kernel
  obtain ⟨answer, body, hserve, hparse, hdecodes⟩ :=
    serve_answers .stable printWhole printable_oneBook hreceived 7 [13]
  rw [hroute] at hparse hdecodes
  refine ⟨answer, body, hserve, hparse, ?_⟩
  simp only [List.map_cons, List.map_nil, List.cons.injEq, and_true] at hprices hquantities
  simpa [answerOf, hbook, hsnapshot, snapshotFields, AggregatedSnapshot.getMidPrice,
    AggregatedSnapshot.getSpread, optionalField, levelJson, hprices, hquantities, hmid,
    hnames] using hdecodes

end Answers

end RestAPIServer

end OrderbookEngine
