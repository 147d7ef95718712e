import OrderbookEngine.Config.Configuration

/-!
# The configuration manager

`parse_yaml` writes section after section into the configuration and never reads it, so it is
a program that stores into fields until a conversion throws. `load` adds the file and the
change callback, which may throw as well.
-/

namespace OrderbookEngine

open Stores

/-- The fields of the configuration that a document can set. -/
inductive Setting where
  | exchange (exchange : Exchange)
  | serverHost
  | serverWebsocketPort
  | serverRestPort
  | serverMaxConnections
  | performanceEnableCpuPinning
  | performanceCpuCores
  | performanceEnableHugePages
  | performanceEnableNuma
  | loggingLevel
  | loggingPattern
  | loggingAsync
  | loggingLogFile
  | recordingEnabled
  | recordingOutputDir
  | recordingFormat
  | arbitrageEnabled
  | arbitrageMinProfitPercent
  deriving DecidableEq

namespace Setting

/-- The type of a field. -/
abbrev Value : Setting → Type
  | exchange _ => ExchangeConfig
  | serverHost | loggingLevel | loggingPattern | loggingLogFile | recordingOutputDir
  | recordingFormat => StdString
  | serverWebsocketPort | serverRestPort => UInt16
  | serverMaxConnections | arbitrageMinProfitPercent => UInt64
  | performanceEnableCpuPinning | performanceEnableHugePages | performanceEnableNuma
  | loggingAsync | recordingEnabled | arbitrageEnabled => Bool
  | performanceCpuCores => List Int32

/-- The value of a field; an exchange may have none. -/
def read : (name : Setting) → SystemConfig → Option name.Value
  | exchange e, c => c.exchanges[e]?
  | serverHost, c => some c.server.host
  | serverWebsocketPort, c => some c.server.websocketPort
  | serverRestPort, c => some c.server.restPort
  | serverMaxConnections, c => some c.server.maxConnections
  | performanceEnableCpuPinning, c => some c.performance.enableCpuPinning
  | performanceCpuCores, c => some c.performance.cpuCores
  | performanceEnableHugePages, c => some c.performance.enableHugePages
  | performanceEnableNuma, c => some c.performance.enableNuma
  | loggingLevel, c => some c.logging.level
  | loggingPattern, c => some c.logging.pattern
  | loggingAsync, c => some c.logging.async
  | loggingLogFile, c => some c.logging.logFile
  | recordingEnabled, c => some c.recording.enabled
  | recordingOutputDir, c => some c.recording.outputDir
  | recordingFormat, c => some c.recording.format
  | arbitrageEnabled, c => some c.arbitrage.enabled
  | arbitrageMinProfitPercent, c => some c.arbitrage.minProfitPercent

/-- Assign a value to a field. -/
def write : (name : Setting) → name.Value → SystemConfig → SystemConfig
  | exchange e, v, c => { c with exchanges := c.exchanges.insert e v }
  | serverHost, v, c => { c with server.host := v }
  | serverWebsocketPort, v, c => { c with server.websocketPort := v }
  | serverRestPort, v, c => { c with server.restPort := v }
  | serverMaxConnections, v, c => { c with server.maxConnections := v }
  | performanceEnableCpuPinning, v, c => { c with performance.enableCpuPinning := v }
  | performanceCpuCores, v, c => { c with performance.cpuCores := v }
  | performanceEnableHugePages, v, c => { c with performance.enableHugePages := v }
  | performanceEnableNuma, v, c => { c with performance.enableNuma := v }
  | loggingLevel, v, c => { c with logging.level := v }
  | loggingPattern, v, c => { c with logging.pattern := v }
  | loggingAsync, v, c => { c with logging.async := v }
  | loggingLogFile, v, c => { c with logging.logFile := v }
  | recordingEnabled, v, c => { c with recording.enabled := v }
  | recordingOutputDir, v, c => { c with recording.outputDir := v }
  | recordingFormat, v, c => { c with recording.format := v }
  | arbitrageEnabled, v, c => { c with arbitrage.enabled := v }
  | arbitrageMinProfitPercent, v, c => { c with arbitrage.minProfitPercent := v }

theorem read_write (name : Setting) (v : name.Value) (c : SystemConfig) :
    name.read (name.write v c) = some v := by
  cases name
  case exchange e => exact Std.ExtTreeMap.getElem?_insert_self
  all_goals rfl

theorem read_write_of_ne {other name : Setting} (h : other ≠ name) (v : name.Value)
    (c : SystemConfig) : other.read (name.write v c) = other.read c := by
  cases name
  case exchange e =>
    cases other
    case exchange e' =>
      have hne : e ≠ e' := fun heq => h (congrArg exchange heq.symm)
      show (c.exchanges.insert e v)[e']? = c.exchanges[e']?
      rw [Std.ExtTreeMap.getElem?_insert, if_neg]
      exact fun heq => hne (Std.LawfulEqCmp.compare_eq_iff_eq.mp heq)
    all_goals rfl
  all_goals
    cases other
    all_goals first | rfl | exact absurd rfl h

theorem write_of_read {name : Setting} {v : name.Value} {c : SystemConfig}
    (h : name.read c = some v) : name.write v c = c := by
  cases name
  case exchange e =>
    have hat : c.exchanges[e]? = some v := h
    have hsame : c.exchanges.insert e v = c.exchanges := by
      refine Std.ExtTreeMap.ext_getElem? fun e' => ?_
      rw [Std.ExtTreeMap.getElem?_insert]
      split
      · rename_i heq
        rw [← Std.LawfulEqCmp.compare_eq_iff_eq.mp heq, hat]
      · rfl
    show { c with exchanges := c.exchanges.insert e v } = c
    rw [hsame]
  all_goals
    cases h
    rfl

end Setting

/-- The fields that `parse_yaml` assigns. -/
def settings : Fields Setting.Value SystemConfig where
  read := Setting.read
  write := Setting.write
  read_write := Setting.read_write
  read_write_of_ne := Setting.read_write_of_ne
  write_of_read := Setting.write_of_read

/-- A program that assigns fields and may throw. -/
abbrev Parse := Storing Setting.Value YamlException

namespace Parse

open Storing

/-- A block under the test whether a node has an element. -/
def whenDefined (parent : Node) (key : StdString) (body : Node → Parse Unit) : Parse Unit := do
  if (← parent.get key).isDefined then
    body (← parent.get key)

variable (p : Platform)

/-- The local `cfg` of the block of an exchange. The block of Coinbase reads no depth. -/
def exchangeConfig (exchange : Exchange) (readsDepth : Bool) (rateLimit : UInt64) (node : Node) :
    Except YamlException ExchangeConfig := do
  let enabled ← p.yaml.asBool (← node.get (lit "enabled")) true
  let websocketUrl ← p.yaml.asString (← node.get (lit "websocket_url")) []
  let restUrl ← p.yaml.asString (← node.get (lit "rest_url")) []
  let useTestnet ← p.yaml.asBool (← node.get (lit "use_testnet")) false
  let depth ← if readsDepth then do p.yaml.asUInt32 (← node.get (lit "depth")) 10 else pure 10
  let rateLimitPerSec ← p.yaml.asDouble (← node.get (lit "rate_limit_per_sec")) rateLimit
  let symbols ←
    if (← node.get (lit "symbols")).isDefined then do
      p.yaml.asStrings (← node.get (lit "symbols"))
    else pure []
  return {
    exchange := exchange
    enabled := enabled
    websocketUrl := substituteEnvVars p.getenv websocketUrl
    restUrl := substituteEnvVars p.getenv restUrl
    useTestnet := useTestnet
    depth := depth
    rateLimitPerSec := rateLimitPerSec
    symbols := symbols }

/-- The block of an exchange. -/
def parseExchange (exchange : Exchange) (name : StdString) (readsDepth : Bool) (rateLimit : UInt64)
    (exchanges : Node) : Parse Unit :=
  whenDefined exchanges name fun node => do
    store (.exchange exchange) (← exchangeConfig p exchange readsDepth rateLimit node)

/-- 20.0 requests per second. -/
def parseBinance : Node → Parse Unit :=
  parseExchange p .binance (lit "binance") true 0x4034000000000000

/-- 30.0 requests per second. -/
def parseCoinbase : Node → Parse Unit :=
  parseExchange p .coinbase (lit "coinbase") false 0x403E000000000000

/-- 15.0 requests per second. -/
def parseKraken : Node → Parse Unit :=
  parseExchange p .kraken (lit "kraken") true 0x402E000000000000

def parseExchanges (root : Node) : Parse Unit :=
  whenDefined root (lit "exchanges") fun exchanges => do
    parseBinance p exchanges
    parseCoinbase p exchanges
    parseKraken p exchanges

def parseServer (root : Node) : Parse Unit :=
  whenDefined root (lit "server") fun server => do
    store .serverHost (← p.yaml.asString (← server.get (lit "host")) (lit "0.0.0.0"))
    store .serverWebsocketPort (← p.yaml.asUInt16 (← server.get (lit "websocket_port")) 8080)
    store .serverRestPort (← p.yaml.asUInt16 (← server.get (lit "rest_port")) 8081)
    store .serverMaxConnections (← p.yaml.asSize (← server.get (lit "max_connections")) 1000)

def parsePerformance (root : Node) : Parse Unit :=
  whenDefined root (lit "performance") fun perf => do
    store .performanceEnableCpuPinning
      (← p.yaml.asBool (← perf.get (lit "enable_cpu_pinning")) false)
    whenDefined perf (lit "cpu_cores") fun cores => do
      store .performanceCpuCores (← p.yaml.asInts cores)
    store .performanceEnableHugePages
      (← p.yaml.asBool (← perf.get (lit "enable_huge_pages")) false)
    store .performanceEnableNuma (← p.yaml.asBool (← perf.get (lit "enable_numa")) false)

def parseLogging (root : Node) : Parse Unit :=
  whenDefined root (lit "logging") fun log => do
    store .loggingLevel (← p.yaml.asString (← log.get (lit "level")) (lit "info"))
    store .loggingPattern (← p.yaml.asString (← log.get (lit "pattern")) defaultPattern)
    store .loggingAsync (← p.yaml.asBool (← log.get (lit "async")) true)
    store .loggingLogFile (← p.yaml.asString (← log.get (lit "log_file")) [])

def parseRecording (root : Node) : Parse Unit :=
  whenDefined root (lit "recording") fun rec => do
    store .recordingEnabled (← p.yaml.asBool (← rec.get (lit "enabled")) false)
    store .recordingOutputDir (← p.yaml.asString (← rec.get (lit "output_dir")) (lit "./data"))
    store .recordingFormat (← p.yaml.asString (← rec.get (lit "format")) (lit "binary"))

/-- 0.1 percent. -/
def parseArbitrage (root : Node) : Parse Unit :=
  whenDefined root (lit "arbitrage") fun arb => do
    store .arbitrageEnabled (← p.yaml.asBool (← arb.get (lit "enabled")) true)
    store .arbitrageMinProfitPercent
      (← p.yaml.asDouble (← arb.get (lit "min_profit_percent")) 0x3FB999999999999A)

/-- The body of the `try` block of `parse_yaml`. -/
def parseYaml (content : StdString) : Parse Unit := do
  let root ← p.yaml.load content
  parseExchanges p root
  parseServer p root
  parsePerformance p root
  parseLogging p root
  parseRecording p root
  parseArbitrage p root

end Parse

/-- The members of `ConfigurationManager` other than its mutex, and the configurations that
the change callback was invoked with. A callback may throw. -/
structure ConfigurationManager where
  config : SystemConfig
  filename : StdString
  changeCallback : Option (SystemConfig → Except YamlException Unit)
  notified : List SystemConfig

namespace ConfigurationManager

/-- `ConfigurationManager::ConfigurationManager`. -/
def construct : ConfigurationManager := ⟨createDefault, [], none, []⟩

/-- `get_config`. -/
def getConfig (m : ConfigurationManager) : SystemConfig := m.config

/-- `get_exchange_config`. -/
def getExchangeConfig (m : ConfigurationManager) (exchange : Exchange) : ExchangeConfig :=
  (m.config.exchanges[exchange]?).getD { exchange := exchange }

/-- `set_change_callback`. -/
def setChangeCallback (m : ConfigurationManager)
    (callback : Option (SystemConfig → Except YamlException Unit)) : ConfigurationManager :=
  { m with changeCallback := callback }

variable (p : Platform)

/-- `parse_yaml`: what was assigned before a throw stays, and both handlers return false. -/
def parseYaml (m : ConfigurationManager) (content : StdString) : ConfigurationManager × Bool :=
  ({ m with config := settings.applyAll m.config (Parse.parseYaml p content).stores },
    (Parse.parseYaml p content).result.isOk)

/-- `load_from_string`. -/
def loadFromString (m : ConfigurationManager) (yamlContent : StdString) :
    ConfigurationManager × Bool := m.parseYaml p yamlContent

/-- The end of `load`: the change callback is invoked, and what it throws is caught. -/
def notifyChange (m : ConfigurationManager) : ConfigurationManager × Bool :=
  match m.changeCallback with
  | none => (m, true)
  | some callback => ({ m with notified := m.notified ++ [m.config] }, (callback m.config).isOk)

/-- `load`. -/
def load (m : ConfigurationManager) (filename : StdString) : ConfigurationManager × Bool :=
  match p.readFile filename with
  | none => (m, false)
  | some content =>
    let parsed := m.parseYaml p content
    if parsed.2 then { parsed.1 with filename := filename }.notifyChange else (parsed.1, false)

/-- `reload`. -/
def reload (m : ConfigurationManager) : ConfigurationManager × Bool :=
  if m.filename = [] then (m, false) else m.load p m.filename

end ConfigurationManager

end OrderbookEngine
