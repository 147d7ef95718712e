import OrderbookEngine.Core.Types
import OrderbookEngine.Library.Stores
import OrderbookEngine.Library.TextSearch

/-!
# The configuration

The sections of a configuration with their defaults, and the fields of it that a document
can set. A document is a tree; reading it and converting its scalars is the business of the
YAML library and may throw. Doubles are words.
-/

namespace OrderbookEngine

open TextSearch

/-- `ExchangeConfig`. -/
structure ExchangeConfig where
  exchange : Exchange
  enabled : Bool := true
  websocketUrl : StdString := []
  restUrl : StdString := []
  useTestnet : Bool := false
  depth : UInt32 := 10
  reconnectDelayMs : UInt32 := 5000
  maxReconnectAttempts : UInt32 := 10
  /-- 20.0 -/
  rateLimitPerSec : UInt64 := 0x4034000000000000
  symbols : List StdString := []
  deriving DecidableEq

/-- `ServerConfig`. -/
structure ServerConfig where
  host : StdString := lit "0.0.0.0"
  websocketPort : UInt16 := 8080
  restPort : UInt16 := 8081
  maxConnections : UInt64 := 1000
  heartbeatIntervalMs : UInt32 := 30000
  deriving DecidableEq

/-- `PerformanceConfig`. -/
structure PerformanceConfig where
  enableCpuPinning : Bool := false
  cpuCores : List Int32 := []
  enableHugePages : Bool := false
  enableNuma : Bool := false
  memoryPoolSize : UInt64 := 100000
  queueSize : UInt64 := 100000
  deriving DecidableEq

/-- The default log pattern. -/
def defaultPattern : StdString := lit "[%Y-%m-%d %H:%M:%S.%e] [%^%l%$] %v"

/-- `LoggingConfig`. -/
structure LoggingConfig where
  level : StdString := lit "info"
  pattern : StdString := defaultPattern
  async : Bool := true
  logFile : StdString := []
  maxFileSize : UInt64 := 10485760
  maxFiles : UInt64 := 5
  deriving DecidableEq

/-- `RecordingConfig`. -/
structure RecordingConfig where
  enabled : Bool := false
  outputDir : StdString := lit "./data"
  format : StdString := lit "binary"
  bufferSize : UInt64 := 100000
  deriving DecidableEq

/-- `AnalyticsConfig`. -/
structure AnalyticsConfig where
  vwapWindowNs : UInt64 := 60000000000
  twapWindowNs : UInt64 := 300000000000
  imbalanceWindowNs : UInt64 := 10000000000
  spreadWindowNs : UInt64 := 60000000000
  deriving DecidableEq

/-- `ArbitrageConfig`. -/
structure ArbitrageConfig where
  enabled : Bool := true
  /-- 0.1 -/
  minProfitPercent : UInt64 := 0x3FB999999999999A
  historySize : UInt64 := 1000
  deriving DecidableEq

/-- `SystemConfig`. -/
structure SystemConfig where
  exchanges : Std.ExtTreeMap Exchange ExchangeConfig := ∅
  server : ServerConfig := {}
  performance : PerformanceConfig := {}
  logging : LoggingConfig := {}
  recording : RecordingConfig := {}
  analytics : AnalyticsConfig := {}
  arbitrage : ArbitrageConfig := {}
  deriving DecidableEq

/-- `create_default`. -/
def createDefault : SystemConfig where
  exchanges := ((∅ : Std.ExtTreeMap Exchange ExchangeConfig).insert .binance
      { exchange := .binance
        enabled := true
        websocketUrl := lit "wss://stream.binance.com:9443/ws"
        restUrl := lit "https://api.binance.com"
        rateLimitPerSec := 0x4034000000000000
        symbols := [lit "btcusdt", lit "ethusdt"] }).insert .coinbase
      { exchange := .coinbase
        enabled := true
        websocketUrl := lit "wss://ws-feed.exchange.coinbase.com"
        restUrl := lit "https://api.exchange.coinbase.com"
        rateLimitPerSec := 0x403E000000000000
        symbols := [lit "BTC-USD", lit "ETH-USD"] } |>.insert .kraken
      { exchange := .kraken
        enabled := true
        websocketUrl := lit "wss://ws.kraken.com"
        restUrl := lit "https://api.kraken.com"
        rateLimitPerSec := 0x402E000000000000
        depth := 10
        symbols := [lit "XBT/USD", lit "ETH/USD"] }

/-- What the YAML library and the conversions of the source throw; both handlers of
`parse_yaml` catch it. -/
structure YamlException where
  what : StdString
  deriving DecidableEq

/-- A document. Entries of maps under other keys than scalars are never found by a name. -/
inductive Node where
  | undefined
  | null
  | scalar (text : StdString)
  | sequence (items : List Node)
  | map (entries : List (StdString × Node))

namespace Node

/-- `Node::IsDefined`, the conversion to `bool`. -/
def isDefined : Node → Bool
  | undefined => false
  | _ => true

/-- `Node::operator[]` with a name: a scalar throws, and what is absent is undefined. -/
def get : Node → StdString → Except YamlException Node
  | scalar _, _ => .error ⟨lit "operator[] call on a scalar"⟩
  | map entries, key =>
    .ok (((entries.find? fun entry => entry.1 = key).map Prod.snd).getD undefined)
  | _, _ => .ok undefined

end Node

/-- The YAML library: reading a document, and `as<T>` with and without a fallback. -/
structure Yaml where
  load : StdString → Except YamlException Node
  asBool : Node → Bool → Except YamlException Bool
  asString : Node → StdString → Except YamlException StdString
  asUInt16 : Node → UInt16 → Except YamlException UInt16
  asUInt32 : Node → UInt32 → Except YamlException UInt32
  asSize : Node → UInt64 → Except YamlException UInt64
  asDouble : Node → UInt64 → Except YamlException UInt64
  asStrings : Node → Except YamlException (List StdString)
  asInts : Node → Except YamlException (List Int32)

/-- What the configuration manager asks of its surroundings. -/
structure Platform where
  yaml : Yaml
  /-- `std::getenv`. -/
  getenv : StdString → Option StdString
  /-- The content of a file that can be opened. -/
  readFile : StdString → Option StdString

/-- A name as `c_str` passes it on. -/
def cString (name : StdString) : StdString := name.takeWhile (· ≠ 0)

/-- The loop of `substitute_env_vars` from a position on. -/
def substituteFrom (getenv : StdString → Option StdString) (result : StdString) (pos : Nat) :
    StdString :=
  match _hstart : find (lit "$\x7b") result pos with
  | none => result
  | some start =>
    match _hstop : find (lit "\x7d") result start with
    | none => result
    | some stop =>
      match getenv (cString ((result.drop (start + 2)).take (stop - start - 2))) with
      | some value =>
        substituteFrom getenv (result.take start ++ value ++ result.drop (stop + 1))
          (start + value.length)
      | none => substituteFrom getenv result (stop + 1)
termination_by result.length - pos
decreasing_by
  · have hfirst := bounds_of_find _hstart
    have hlast := bounds_of_find _hstop
    have hpattern : (lit "\x7d").length = 1 := rfl
    simp only [List.length_append, List.length_take, List.length_drop]
    omega
  · have hfirst := bounds_of_find _hstart
    have hlast := bounds_of_find _hstop
    have hpattern : (lit "\x7d").length = 1 := rfl
    omega

/-- `substitute_env_vars`. -/
def substituteEnvVars (getenv : StdString → Option StdString) (value : StdString) : StdString :=
  substituteFrom getenv value 0

end OrderbookEngine
