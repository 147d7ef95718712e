import OrderbookEngine.Core.Types
import OrderbookEngine.Library.CompactJson

/-!
# Messages to the frontend

Order book updates and trades are printed as JSON with their strings as they are. So a message
decodes to its input exactly if its symbol and trade id need no escapes and are UTF-8.
-/

namespace OrderbookEngine

open Json Utf8

/-- `Trade`. -/
structure Trade (D : Type) where
  exchange : Exchange
  symbol : StdString
  timestamp : UInt64
  tradeId : StdString
  price : D
  quantity : D
  isBuyerMaker : Bool
  deriving DecidableEq, Repr

namespace MessageFormatter

variable {D : Type} (fixed8 : D → {text : StdString // IsNumber text})

/-- `exchange_to_string`. -/
def exchangeToString (exchange : Exchange) : StdString :=
  if exchange = .binance then lit "binance"
  else if exchange = .coinbase then lit "coinbase"
  else if exchange = .kraken then lit "kraken"
  else lit "unknown"

/-- A pass of the loops over the levels, with what is printed of a price or a quantity. -/
def formatLevel (level : PriceLevelSnapshot D) : StdString :=
  lit "[" ++ fixed8 level.price ++ lit "," ++ fixed8 level.quantity ++
    (if 0 < level.orderCount then lit "," ++ decimal level.orderCount.toNat else []) ++ lit "]"

/-- The loops over the levels. -/
def formatLevels (levels : List (PriceLevelSnapshot D)) : StdString :=
  levels.zipIdx.flatMap fun (level, i) =>
    (if i > 0 then lit "," else []) ++ formatLevel fixed8 level

/-- `format_order_book_update`. -/
def formatOrderBookUpdate (update : NormalizedOrderBookUpdate D) (sequence : UInt64) :
    StdString :=
  lit "\x7b" ++
    lit "\"type\":\"order_book_update\"," ++
    lit "\"exchange\":\"" ++ exchangeToString update.exchange ++ lit "\"," ++
    lit "\"symbol\":\"" ++ update.symbol ++ lit "\"," ++
    lit "\"timestamp\":" ++ decimal update.timestamp.toNat ++ lit "," ++
    lit "\"sequence\":" ++ decimal sequence.toNat ++ lit "," ++
    lit "\"bids\":[" ++ formatLevels fixed8 update.bids ++
    lit "],\"asks\":[" ++ formatLevels fixed8 update.asks ++ lit "]\x7d"

/-- `format_trade`. -/
def formatTrade (trade : Trade D) : StdString :=
  lit "\x7b" ++
    lit "\"type\":\"trade\"," ++
    lit "\"exchange\":\"" ++ exchangeToString trade.exchange ++ lit "\"," ++
    lit "\"symbol\":\"" ++ trade.symbol ++ lit "\"," ++
    lit "\"price\":" ++ fixed8 trade.price ++ lit "," ++
    lit "\"quantity\":" ++ fixed8 trade.quantity ++ lit "," ++
    lit "\"timestamp\":" ++ decimal trade.timestamp.toNat ++ lit "," ++
    lit "\"side\":\"" ++ (if trade.isBuyerMaker then lit "sell" else lit "buy") ++ lit "\"" ++
    (if trade.tradeId = [] then [] else lit ",\"id\":\"" ++ trade.tradeId ++ lit "\"") ++
    lit ",\"isBuyerMaker\":" ++ (if trade.isBuyerMaker then lit "true" else lit "false") ++
    lit "\x7d"

/-! ## What the messages stand for -/

/-- A price, a quantity, and the number of orders if it is positive. -/
def levelJson (level : PriceLevelSnapshot D) : Json :=
  .array (.number (fixed8 level.price) :: .number (fixed8 level.quantity) ::
    if 0 < level.orderCount then [.number (decimal level.orderCount.toNat)] else [])

def updateFields (update : NormalizedOrderBookUpdate D) (sequence : UInt64) :
    List (StdString × Json) :=
  [(lit "type", .string (lit "order_book_update")),
    (lit "exchange", .string (exchangeToString update.exchange)),
    (lit "symbol", .string update.symbol),
    (lit "timestamp", .number (decimal update.timestamp.toNat)),
    (lit "sequence", .number (decimal sequence.toNat)),
    (lit "bids", .array (update.bids.map (levelJson fixed8))),
    (lit "asks", .array (update.asks.map (levelJson fixed8)))]

/-- The id, unless there is none. -/
def idField (trade : Trade D) : List (StdString × Json) :=
  if trade.tradeId = [] then [] else [(lit "id", .string trade.tradeId)]

def tradeFields (trade : Trade D) : List (StdString × Json) :=
  (lit "type", .string (lit "trade")) ::
    (lit "exchange", .string (exchangeToString trade.exchange)) ::
    (lit "symbol", .string trade.symbol) ::
    (lit "price", .number (fixed8 trade.price)) ::
    (lit "quantity", .number (fixed8 trade.quantity)) ::
    (lit "timestamp", .number (decimal trade.timestamp.toNat)) ::
    (lit "side", .string (if trade.isBuyerMaker then lit "sell" else lit "buy")) ::
    (idField trade ++ [(lit "isBuyerMaker", .bool trade.isBuyerMaker)])

/-- A string that stands for itself in a JSON text. -/
def Plain (s : StdString) : Prop := IsClean s ∧ IsUtf8 s

/-! ## The messages are printed values -/

theorem decimal_eq_digits (n : ℕ) : decimal n = Decimal.digits n := by
  rw [decimal, lit, Decimal.digits]
  simp [Nat.repr]

theorem formatLevel_eq (level : PriceLevelSnapshot D) :
    formatLevel fixed8 level = compact (levelJson fixed8 level) := by
  rw [formatLevel, levelJson, compact]
  split
  · simp [commas, compact, lit]
  · simp [commas, compact, lit]

/-- Behind the first level there is a comma before each. -/
theorem formatLevels_behind (levels : List (PriceLevelSnapshot D)) (k : ℕ) :
    ((levels.zipIdx (k + 1)).flatMap fun (level, i) =>
      (if i > 0 then lit "," else []) ++ formatLevel fixed8 level) =
      (levels.map (formatLevel fixed8)).flatMap (44 :: ·) := by
  induction levels generalizing k with
  | nil => rfl
  | cons level levels ih =>
    rw [List.zipIdx_cons, List.flatMap_cons, ih, List.map_cons, List.flatMap_cons]
    dsimp only
    rw [if_pos (Nat.succ_pos k)]
    rfl

theorem formatLevels_eq (levels : List (PriceLevelSnapshot D)) :
    formatLevels fixed8 levels = commas ((levels.map (levelJson fixed8)).map compact) := by
  have hprint : formatLevel fixed8 = compact ∘ levelJson fixed8 :=
    funext (formatLevel_eq fixed8)
  rw [List.map_map, ← hprint]
  cases levels with
  | nil => rfl
  | cons level levels =>
    rw [formatLevels, List.zipIdx_cons, List.flatMap_cons, formatLevels_behind, List.map_cons,
      commas]
    rfl

theorem formatOrderBookUpdate_eq (update : NormalizedOrderBookUpdate D) (sequence : UInt64) :
    formatOrderBookUpdate fixed8 update sequence =
      compact (.object (updateFields fixed8 update sequence)) := by
  delta formatOrderBookUpdate updateFields
  simp only [compact_object]
  simp [commas, printField, compact, lit, formatLevels_eq]

theorem compact_bool (b : Bool) : compact (.bool b) = if b then lit "true" else lit "false" := by
  cases b
  · rw [compact]
    rfl
  · rw [compact]
    rfl

theorem formatTrade_eq (trade : Trade D) :
    formatTrade fixed8 trade = compact (.object (tradeFields fixed8 trade)) := by
  delta formatTrade tradeFields idField
  simp only [compact_object, ← compact_bool]
  by_cases hid : trade.tradeId = []
  · simp [commas, printField, compact, lit, hid]
  · simp [commas, printField, compact, lit, hid]

/-! ## When the messages decode to their input -/

/-- Printable ASCII other than the quote and the backslash. -/
theorem plain_of_ascii {s : StdString} (h : ∀ c ∈ s, ¬ IsUnclean c ∧ c < 128) : Plain s := by
  have hutf8 := (isUtf8_ascii_append (fun c hc => (h c hc).2) []).mpr isUtf8_nil
  rw [List.append_nil] at hutf8
  exact ⟨fun c hc => (h c hc).1, hutf8⟩

theorem plain_exchangeToString (exchange : Exchange) : Plain (exchangeToString exchange) := by
  unfold exchangeToString
  split_ifs
  all_goals exact plain_of_ascii (by decide +kernel)

theorem isNumber_decimal (n : ℕ) : IsNumber (decimal n) := decimal_eq_digits n ▸ isNumber_digits n

theorem strings_levelJson (level : PriceLevelSnapshot D) :
    strings (levelJson fixed8 level) = [] := by
  rw [levelJson]
  split
  · simp [strings]
  · simp [strings]

theorem isNumber_of_levelJson (level : PriceLevelSnapshot D) :
    ∀ t ∈ numbers (levelJson fixed8 level), IsNumber t := by
  rw [levelJson]
  split
  · simp [numbers, isNumber_decimal, (fixed8 level.price).2, (fixed8 level.quantity).2]
  · simp [numbers, (fixed8 level.price).2, (fixed8 level.quantity).2]

theorem strings_levels (levels : List (PriceLevelSnapshot D)) :
    strings (.array (levels.map (levelJson fixed8))) = [] := by
  rw [strings, List.flatMap_map, List.flatMap_eq_nil_iff]
  exact fun level _ => strings_levelJson fixed8 level

theorem isNumber_of_levels (levels : List (PriceLevelSnapshot D)) :
    ∀ t ∈ numbers (.array (levels.map (levelJson fixed8))), IsNumber t := by
  rw [numbers, List.flatMap_map, List.forall_mem_flatMap]
  exact fun level _ => isNumber_of_levelJson fixed8 level

/-- The keys and the fixed values of the messages. -/
theorem plain_names : ∀ s ∈ [lit "type", lit "order_book_update", lit "trade", lit "exchange",
    lit "symbol", lit "timestamp", lit "sequence", lit "bids", lit "asks", lit "price",
    lit "quantity", lit "side", lit "sell", lit "buy", lit "id", lit "isBuyerMaker"], Plain s := by
  have hascii : ∀ s ∈ [lit "type", lit "order_book_update", lit "trade", lit "exchange",
    lit "symbol", lit "timestamp", lit "sequence", lit "bids", lit "asks", lit "price",
    lit "quantity", lit "side", lit "sell", lit "buy", lit "id", lit "isBuyerMaker"],
    ∀ c ∈ s, ¬ IsUnclean c ∧ c < 128 := by decide +kernel
  exact fun s hs => plain_of_ascii (hascii s hs)

section Update

variable (update : NormalizedOrderBookUpdate D) (sequence : UInt64)

theorem nodup_updateFields : ((updateFields fixed8 update sequence).map Prod.fst).Nodup := by
  have hnames : [lit "type", lit "exchange", lit "symbol", lit "timestamp", lit "sequence",
    lit "bids", lit "asks"].Nodup := by decide
  exact hnames

theorem isNumber_of_updateFields :
    ∀ t ∈ numbers (.object (updateFields fixed8 update sequence)), IsNumber t := by
  have hbids := isNumber_of_levels fixed8 update.bids
  have hasks := isNumber_of_levels fixed8 update.asks
  rw [forall_numbers_object]
  simpa [updateFields, isNumber_decimal] using And.intro hbids hasks

theorem plain_of_updateFields : (∀ s ∈ strings (.object (updateFields fixed8 update sequence)),
    Plain s) ↔ Plain update.symbol := by
  have hbids := strings_levels fixed8 update.bids
  have hasks := strings_levels fixed8 update.asks
  have hnames := plain_names
  have hexchange := plain_exchangeToString update.exchange
  rw [forall_strings_object]
  simp only [List.forall_mem_cons] at hnames
  simp [updateFields, hbids, hasks, hnames, hexchange]

/-- An order book update decodes to its input if and only if its symbol is plain. -/
theorem decodesTo_update_iff : DecodesTo (formatOrderBookUpdate fixed8 update sequence)
    (updateFields fixed8 update sequence) ↔ Plain update.symbol := by
  rw [formatOrderBookUpdate_eq]
  exact (decodesTo_compact_iff (List.cons_ne_nil _ _) (nodup_updateFields fixed8 update sequence)
    (isNumber_of_updateFields fixed8 update sequence)).trans
      (plain_of_updateFields fixed8 update sequence)

end Update

section Trades

variable (trade : Trade D)

theorem nodup_tradeFields : ((tradeFields fixed8 trade).map Prod.fst).Nodup := by
  have hnames : [lit "type", lit "exchange", lit "symbol", lit "price", lit "quantity",
    lit "timestamp", lit "side", lit "id", lit "isBuyerMaker"].Nodup := by decide
  have hwithoutId : [lit "type", lit "exchange", lit "symbol", lit "price", lit "quantity",
    lit "timestamp", lit "side", lit "isBuyerMaker"].Nodup := by decide
  by_cases hid : trade.tradeId = []
  · rw [tradeFields, idField, if_pos hid]
    exact hwithoutId
  · rw [tradeFields, idField, if_neg hid]
    exact hnames

theorem isNumber_of_tradeFields :
    ∀ t ∈ numbers (.object (tradeFields fixed8 trade)), IsNumber t := by
  have hprice := (fixed8 trade.price).2
  have hquantity := (fixed8 trade.quantity).2
  rw [forall_numbers_object]
  by_cases hid : trade.tradeId = []
  · simp [tradeFields, idField, hid, isNumber_decimal, hprice, hquantity]
  · simp [tradeFields, idField, hid, isNumber_decimal, hprice, hquantity]

theorem plain_of_tradeFields : (∀ s ∈ strings (.object (tradeFields fixed8 trade)), Plain s) ↔
    Plain trade.symbol ∧ Plain trade.tradeId := by
  have hnames := plain_names
  have hexchange := plain_exchangeToString trade.exchange
  have hside : Plain (if trade.isBuyerMaker then lit "sell" else lit "buy") := by
    split
    · exact hnames _ (by simp)
    · exact hnames _ (by simp)
  have hempty : Plain [] := ⟨List.forall_mem_nil _, isUtf8_nil⟩
  simp only [List.forall_mem_cons] at hnames
  rw [forall_strings_object]
  by_cases hid : trade.tradeId = []
  · simp [tradeFields, idField, hid, hnames, hexchange, hside, hempty]
  · simp [tradeFields, idField, hid, hnames, hexchange, hside]

/-- A trade decodes to its input if and only if its symbol and its id are plain. -/
theorem decodesTo_trade_iff : DecodesTo (formatTrade fixed8 trade) (tradeFields fixed8 trade) ↔
    Plain trade.symbol ∧ Plain trade.tradeId := by
  rw [formatTrade_eq]
  exact (decodesTo_compact_iff (List.cons_ne_nil _ _) (nodup_tradeFields fixed8 trade)
    (isNumber_of_tradeFields fixed8 trade)).trans (plain_of_tradeFields fixed8 trade)

end Trades

/-- A message decodes to its input if and only if its strings stand for themselves in JSON. -/
theorem decodesTo_iff_plain :
    (∀ (update : NormalizedOrderBookUpdate D) (sequence : UInt64),
      DecodesTo (formatOrderBookUpdate fixed8 update sequence)
        (updateFields fixed8 update sequence) ↔ Plain update.symbol) ∧
    ∀ trade : Trade D, DecodesTo (formatTrade fixed8 trade) (tradeFields fixed8 trade) ↔
      Plain trade.symbol ∧ Plain trade.tradeId :=
  ⟨decodesTo_update_iff fixed8, decodesTo_trade_iff fixed8⟩

/-- A quote in a symbol ends its string. -/
theorem decodesTo_fails : ¬ ∀ (fixed8 : Unit → {text : StdString // IsNumber text})
    (update : NormalizedOrderBookUpdate Unit) (sequence : UInt64),
    DecodesTo (formatOrderBookUpdate fixed8 update sequence)
      (updateFields fixed8 update sequence) := by
  intro h
  have hdecodes := h (fun _ => ⟨lit "1.00000000", by decide +kernel⟩)
    ⟨.binance, lit "BTC\"USD", 0, 0, [], []⟩ 0
  have hplain := (decodesTo_update_iff _ _ _).mp hdecodes
  exact hplain.1 34 (by decide) (by decide)

/-! ## Metrics and statistics -/

/-- `format_metrics`. -/
def formatMetrics (latencyP50 latencyP95 latencyP99 latencyP999 messagesPerSec bytesPerSec : UInt64)
    (status : StdString) (reconnectAttempts : UInt32) : StdString :=
  lit "\x7b" ++
    lit "\"type\":\"metrics\"," ++
    lit "\"latency\":\x7b" ++
    lit "\"p50\":" ++ decimal latencyP50.toNat ++ lit "," ++
    lit "\"p95\":" ++ decimal latencyP95.toNat ++ lit "," ++
    lit "\"p99\":" ++ decimal latencyP99.toNat ++ lit "," ++
    lit "\"p999\":" ++ decimal latencyP999.toNat ++
    lit "\x7d," ++
    lit "\"throughput\":\x7b" ++
    lit "\"messagesPerSecond\":" ++ decimal messagesPerSec.toNat ++ lit "," ++
    lit "\"bytesPerSecond\":" ++ decimal bytesPerSec.toNat ++
    lit "\x7d," ++
    lit "\"websocket\":\x7b" ++
    lit "\"status\":\"" ++ status ++ lit "\"," ++
    lit "\"reconnectAttempts\":" ++ decimal reconnectAttempts.toNat ++
    lit "\x7d" ++ lit "\x7d"

/-- The arguments of `format_stats`. -/
structure MarketStats (D : Type) where
  symbol : StdString
  lastPrice : D
  priceChange24h : D
  priceChangePct24h : D
  high24h : D
  low24h : D
  volume24h : D
  quoteVolume24h : D
  timestamp : UInt64
  deriving DecidableEq, Repr

/-- `format_stats`. -/
def formatStats (stats : MarketStats D) : StdString :=
  lit "\x7b" ++
    lit "\"type\":\"stats\"," ++
    lit "\"symbol\":\"" ++ stats.symbol ++ lit "\"," ++
    lit "\"lastPrice\":" ++ fixed8 stats.lastPrice ++ lit "," ++
    lit "\"priceChange24h\":" ++ fixed8 stats.priceChange24h ++ lit "," ++
    lit "\"priceChangePercent24h\":" ++ fixed8 stats.priceChangePct24h ++ lit "," ++
    lit "\"high24h\":" ++ fixed8 stats.high24h ++ lit "," ++
    lit "\"low24h\":" ++ fixed8 stats.low24h ++ lit "," ++
    lit "\"volume24h\":" ++ fixed8 stats.volume24h ++ lit "," ++
    lit "\"quoteVolume24h\":" ++ fixed8 stats.quoteVolume24h ++ lit "," ++
    lit "\"timestamp\":" ++ decimal stats.timestamp.toNat ++
    lit "\x7d"

def metricsFields (latencyP50 latencyP95 latencyP99 latencyP999 messagesPerSec bytesPerSec : UInt64)
    (status : StdString) (reconnectAttempts : UInt32) : List (StdString × Json) :=
  [(lit "type", .string (lit "metrics")),
    (lit "latency", .object
      [(lit "p50", .number (decimal latencyP50.toNat)),
        (lit "p95", .number (decimal latencyP95.toNat)),
        (lit "p99", .number (decimal latencyP99.toNat)),
        (lit "p999", .number (decimal latencyP999.toNat))]),
    (lit "throughput", .object
      [(lit "messagesPerSecond", .number (decimal messagesPerSec.toNat)),
        (lit "bytesPerSecond", .number (decimal bytesPerSec.toNat))]),
    (lit "websocket", .object
      [(lit "status", .string status),
        (lit "reconnectAttempts", .number (decimal reconnectAttempts.toNat))])]

def statsFields (stats : MarketStats D) : List (StdString × Json) :=
  [(lit "type", .string (lit "stats")),
    (lit "symbol", .string stats.symbol),
    (lit "lastPrice", .number (fixed8 stats.lastPrice)),
    (lit "priceChange24h", .number (fixed8 stats.priceChange24h)),
    (lit "priceChangePercent24h", .number (fixed8 stats.priceChangePct24h)),
    (lit "high24h", .number (fixed8 stats.high24h)),
    (lit "low24h", .number (fixed8 stats.low24h)),
    (lit "volume24h", .number (fixed8 stats.volume24h)),
    (lit "quoteVolume24h", .number (fixed8 stats.quoteVolume24h)),
    (lit "timestamp", .number (decimal stats.timestamp.toNat))]

/-- The keys and the fixed values of these messages. -/
theorem plain_statisticNames : ∀ s ∈ [lit "type", lit "metrics", lit "latency", lit "p50",
    lit "p95", lit "p99", lit "p999", lit "throughput", lit "messagesPerSecond",
    lit "bytesPerSecond", lit "websocket", lit "status", lit "reconnectAttempts", lit "stats",
    lit "symbol", lit "lastPrice", lit "priceChange24h", lit "priceChangePercent24h",
    lit "high24h", lit "low24h", lit "volume24h", lit "quoteVolume24h", lit "timestamp"],
    Plain s := by
  have hascii : ∀ s ∈ [lit "type", lit "metrics", lit "latency", lit "p50",
    lit "p95", lit "p99", lit "p999", lit "throughput", lit "messagesPerSecond",
    lit "bytesPerSecond", lit "websocket", lit "status", lit "reconnectAttempts", lit "stats",
    lit "symbol", lit "lastPrice", lit "priceChange24h", lit "priceChangePercent24h",
    lit "high24h", lit "low24h", lit "volume24h", lit "quoteVolume24h", lit "timestamp"],
    ∀ c ∈ s, ¬ IsUnclean c ∧ c < 128 := by decide +kernel
  exact fun s hs => plain_of_ascii (hascii s hs)

section Statistics

variable (latencyP50 latencyP95 latencyP99 latencyP999 messagesPerSec bytesPerSec : UInt64)
  (status : StdString) (reconnectAttempts : UInt32) (stats : MarketStats D)

set_option maxRecDepth 4000 in
theorem formatMetrics_eq :
    formatMetrics latencyP50 latencyP95 latencyP99 latencyP999 messagesPerSec bytesPerSec status
        reconnectAttempts =
      compact (.object (metricsFields latencyP50 latencyP95 latencyP99 latencyP999 messagesPerSec
        bytesPerSec status reconnectAttempts)) := by
  delta formatMetrics metricsFields
  simp only [compact_object, commas, printField, compact, List.map_cons, List.map_nil,
    List.flatMap_cons, List.flatMap_nil, List.append_assoc, List.cons_append, List.append_nil]
  rfl

set_option maxRecDepth 4000 in
theorem formatStats_eq :
    formatStats fixed8 stats = compact (.object (statsFields fixed8 stats)) := by
  delta formatStats statsFields
  simp only [compact_object, commas, printField, compact, List.map_cons, List.map_nil,
    List.flatMap_cons, List.flatMap_nil, List.append_assoc, List.cons_append, List.append_nil]
  rfl

theorem plain_of_metricsFields :
    (∀ s ∈ strings (.object (metricsFields latencyP50 latencyP95 latencyP99 latencyP999
      messagesPerSec bytesPerSec status reconnectAttempts)), Plain s) ↔ Plain status := by
  have hnames := plain_statisticNames
  simp only [List.forall_mem_cons] at hnames
  rw [forall_strings_object]
  simp [metricsFields, strings, hnames]

/-- Metrics decode to their input if and only if the status is plain. -/
theorem decodesTo_metrics_iff :
    DecodesTo (formatMetrics latencyP50 latencyP95 latencyP99 latencyP999 messagesPerSec
        bytesPerSec status reconnectAttempts)
      (metricsFields latencyP50 latencyP95 latencyP99 latencyP999 messagesPerSec bytesPerSec
        status reconnectAttempts) ↔ Plain status := by
  have hkeys : [lit "type", lit "latency", lit "throughput", lit "websocket"].Nodup := by decide
  have hnumbers : ∀ t ∈ numbers (.object (metricsFields latencyP50 latencyP95 latencyP99
      latencyP999 messagesPerSec bytesPerSec status reconnectAttempts)), IsNumber t := by
    simp [metricsFields, numbers, isNumber_decimal]
  rw [formatMetrics_eq]
  refine (decodesTo_compact_iff (List.cons_ne_nil _ _) ?_ hnumbers).trans
    (plain_of_metricsFields ..)
  exact hkeys

theorem plain_of_statsFields :
    (∀ s ∈ strings (.object (statsFields fixed8 stats)), Plain s) ↔ Plain stats.symbol := by
  have hnames := plain_statisticNames
  simp only [List.forall_mem_cons] at hnames
  rw [forall_strings_object]
  simp [statsFields, hnames]

/-- Statistics decode to their input if and only if the symbol is plain. -/
theorem decodesTo_stats_iff : DecodesTo (formatStats fixed8 stats) (statsFields fixed8 stats) ↔
    Plain stats.symbol := by
  have hkeys : [lit "type", lit "symbol", lit "lastPrice", lit "priceChange24h",
    lit "priceChangePercent24h", lit "high24h", lit "low24h", lit "volume24h",
    lit "quoteVolume24h", lit "timestamp"].Nodup := by decide
  have hfixed : ∀ d, IsNumber (fixed8 d).1 := fun d => (fixed8 d).2
  have hnumbers : ∀ t ∈ numbers (.object (statsFields fixed8 stats)), IsNumber t := by
    simp [statsFields, numbers, isNumber_decimal, hfixed]
  rw [formatStats_eq]
  refine (decodesTo_compact_iff (List.cons_ne_nil _ _) ?_ hnumbers).trans
    (plain_of_statsFields ..)
  exact hkeys

end Statistics

end MessageFormatter

end OrderbookEngine
