import OrderbookEngine.Config.EnvSubstitution
import OrderbookEngine.Config.FailedLoads
import OrderbookEngine.Library.Decimal

/-!
# Saved configurations

`save` writes the exchanges and some fields of three sections. A manager that loads the file
finds the other fields at their defaults, so it has the configuration that was saved exactly when
these were never changed.
-/

namespace OrderbookEngine

open Stores Storing TextSearch

/-- What the emitter writes: scalars of each type, and a document. Texts are their own scalars. -/
structure Emitter where
  bool : Bool → StdString
  uint16 : UInt16 → StdString
  uint32 : UInt32 → StdString
  double : UInt64 → StdString
  int : Int32 → StdString
  emit : Node → StdString

namespace Emitter

variable (out : Emitter)

/-- The name that `save` writes for an exchange. -/
def exchangeName (exchange : Exchange) : StdString :=
  if exchange = .binance then lit "binance"
  else if exchange = .coinbase then lit "coinbase"
  else if exchange = .kraken then lit "kraken"
  else []

def exchange (cfg : ExchangeConfig) : Node :=
  .map [(lit "enabled", .scalar (out.bool cfg.enabled)),
    (lit "websocket_url", .scalar cfg.websocketUrl),
    (lit "rest_url", .scalar cfg.restUrl),
    (lit "use_testnet", .scalar (out.bool cfg.useTestnet)),
    (lit "depth", .scalar (out.uint32 cfg.depth)),
    (lit "rate_limit_per_sec", .scalar (out.double cfg.rateLimitPerSec)),
    (lit "symbols", .sequence (cfg.symbols.map .scalar))]

def exchanges (c : SystemConfig) : Node :=
  .map (c.exchanges.toList.map fun entry => (exchangeName entry.1, out.exchange entry.2))

def server (c : SystemConfig) : Node :=
  .map [(lit "host", .scalar c.server.host),
    (lit "websocket_port", .scalar (out.uint16 c.server.websocketPort)),
    (lit "rest_port", .scalar (out.uint16 c.server.restPort))]

def performance (c : SystemConfig) : Node :=
  .map [(lit "enable_cpu_pinning", .scalar (out.bool c.performance.enableCpuPinning)),
    (lit "cpu_cores", .sequence (c.performance.cpuCores.map fun core => .scalar (out.int core)))]

def logging (c : SystemConfig) : Node :=
  .map [(lit "level", .scalar c.logging.level), (lit "async", .scalar (out.bool c.logging.async))]

/-- The document that `save` writes. -/
def document (c : SystemConfig) : Node :=
  .map [(lit "exchanges", out.exchanges c), (lit "server", out.server c),
    (lit "performance", out.performance c), (lit "logging", out.logging c)]

end Emitter

namespace ConfigurationManager

/-- `save`: the files after it. -/
def save (m : ConfigurationManager) (out : Emitter) (files : StdString → Option StdString)
    (filename : StdString) : (StdString → Option StdString) × Bool :=
  (Function.update files filename (some (out.emit (out.document m.config))), true)

/-- The managers that `load_from_string` reaches, whatever the environment is each time. -/
inductive Reached : ConfigurationManager → Prop
  | construct : Reached construct
  | loadFromString {m : ConfigurationManager} (h : Reached m) (p : Platform)
      (yamlContent : StdString) : Reached (m.loadFromString p yamlContent).1

end ConfigurationManager

/-- The library reads back what it wrote of a configuration, and the conversion of an element
that is absent gives its fallback. -/
structure RoundTrips (yaml : Yaml) (out : Emitter) (c : SystemConfig) : Prop where
  document : yaml.load (out.emit (out.document c)) = .ok (out.document c)
  bool : ∀ b fallback, yaml.asBool (.scalar (out.bool b)) fallback = .ok b
  string : ∀ s fallback, yaml.asString (.scalar s) fallback = .ok s
  uint16 : ∀ n fallback, yaml.asUInt16 (.scalar (out.uint16 n)) fallback = .ok n
  uint32 : ∀ n fallback, yaml.asUInt32 (.scalar (out.uint32 n)) fallback = .ok n
  double : ∀ (e : Exchange) (cfg : ExchangeConfig), c.exchanges[e]? = some cfg → ∀ fallback,
    yaml.asDouble (.scalar (out.double cfg.rateLimitPerSec)) fallback = .ok cfg.rateLimitPerSec
  strings : ∀ l, yaml.asStrings (.sequence (l.map .scalar)) = .ok l
  ints : yaml.asInts (.sequence (c.performance.cpuCores.map fun core => .scalar (out.int core))) =
    .ok c.performance.cpuCores
  absentBool : ∀ fallback, yaml.asBool .undefined fallback = .ok fallback
  absentString : ∀ fallback, yaml.asString .undefined fallback = .ok fallback
  absentSize : ∀ fallback, yaml.asSize .undefined fallback = .ok fallback

/-- No `${` is left in the URLs. -/
def NoPlaceholders (c : SystemConfig) : Prop :=
  ∀ (e : Exchange) (cfg : ExchangeConfig), c.exchanges[e]? = some cfg →
    find (lit "$\x7b") cfg.websocketUrl 0 = none ∧ find (lit "$\x7b") cfg.restUrl 0 = none

/-- The fields that a document can set and that `save` does not write have their defaults. -/
structure UnsavedAreDefault (c : SystemConfig) : Prop where
  maxConnections : c.server.maxConnections = 1000
  enableHugePages : c.performance.enableHugePages = false
  enableNuma : c.performance.enableNuma = false
  pattern : c.logging.pattern = defaultPattern
  logFile : c.logging.logFile = []
  recordingEnabled : c.recording.enabled = false
  outputDir : c.recording.outputDir = lit "./data"
  format : c.recording.format = lit "binary"
  arbitrageEnabled : c.arbitrage.enabled = true
  /-- 0.1 -/
  minProfitPercent : c.arbitrage.minProfitPercent = 0x3FB999999999999A

/-! ## Configurations that are reached -/

/-- An entry that the block of its exchange can assign. -/
structure FormedEntry (e : Exchange) (cfg : ExchangeConfig) : Prop where
  known : e = .binance ∨ e = .coinbase ∨ e = .kraken
  exchange : cfg.exchange = e
  depth : e = .coinbase → cfg.depth = 10
  reconnectDelayMs : cfg.reconnectDelayMs = 5000
  maxReconnectAttempts : cfg.maxReconnectAttempts = 10

/-- The three exchanges are there, and what no document sets has its default. -/
structure Formed (c : SystemConfig) : Prop where
  binance : (c.exchanges[Exchange.binance]?).isSome
  coinbase : (c.exchanges[Exchange.coinbase]?).isSome
  kraken : (c.exchanges[Exchange.kraken]?).isSome
  entries : ∀ (e : Exchange) (cfg : ExchangeConfig), c.exchanges[e]? = some cfg → FormedEntry e cfg
  heartbeatIntervalMs : c.server.heartbeatIntervalMs = 30000
  memoryPoolSize : c.performance.memoryPoolSize = 100000
  queueSize : c.performance.queueSize = 100000
  maxFileSize : c.logging.maxFileSize = 10485760
  maxFiles : c.logging.maxFiles = 5
  bufferSize : c.recording.bufferSize = 100000
  analytics : c.analytics = {}
  historySize : c.arbitrage.historySize = 1000

/-- A store that keeps a configuration formed. -/
def Keeps : Store Setting.Value → Prop
  | ⟨.exchange e, cfg⟩ => FormedEntry e cfg
  | _ => True

theorem getElem?_insert_exchange (exchanges : Std.ExtTreeMap Exchange ExchangeConfig)
    (e : Exchange) (cfg : ExchangeConfig) (e' : Exchange) :
    (exchanges.insert e cfg)[e']? = if e = e' then some cfg else exchanges[e']? := by
  rw [Std.ExtTreeMap.getElem?_insert]
  simp only [Std.LawfulEqCmp.compare_eq_iff_eq]

theorem Formed.write {c : SystemConfig} (h : Formed c) {st : Store Setting.Value}
    (hst : Keeps st) : Formed (settings.write st.1 st.2 c) := by
  obtain ⟨name, v⟩ := st
  cases name
  case exchange e =>
    have hsome : ∀ e' : Exchange,
        (c.exchanges[e']?).isSome → ((c.exchanges.insert e v)[e']?).isSome := by
      intro e' he'
      rw [getElem?_insert_exchange]
      split
      · rfl
      · exact he'
    refine { h with
      binance := hsome _ h.binance
      coinbase := hsome _ h.coinbase
      kraken := hsome _ h.kraken
      entries := ?_ }
    intro e' cfg hcfg
    have hcfg : (c.exchanges.insert e v)[e']? = some cfg := hcfg
    rw [getElem?_insert_exchange] at hcfg
    split at hcfg
    · next heq =>
      cases hcfg
      exact heq ▸ hst
    · exact h.entries e' cfg hcfg
  all_goals exact { h with }

theorem ok_bind {α β ε : Type} (a : α) (f : α → Except ε β) :
    (Except.ok a : Except ε α) >>= f = f a := rfl

/-- What holds of every result of the last step holds of every result. -/
theorem always_bind {α β ε : Type} {P : β → Prop} {x : Except ε α} {f : α → Except ε β}
    (h : ∀ a b, f a = .ok b → P b) : ∀ b, x >>= f = .ok b → P b := by
  intro b hb
  cases x with
  | error e => cases hb
  | ok a => exact h a b hb

section Documents

variable {p : Platform}

/-- The block of Coinbase reads no depth, and no block reads the reconnect settings. -/
theorem formedEntry_of_exchangeConfig {e : Exchange} {readsDepth : Bool} {rateLimit : UInt64}
    {node : Node} (hknown : e = .binance ∨ e = .coinbase ∨ e = .kraken)
    (hdepth : e = .coinbase → readsDepth = false) :
    ∀ cfg, Parse.exchangeConfig p e readsDepth rateLimit node = .ok cfg → FormedEntry e cfg := by
  unfold Parse.exchangeConfig
  -- up to the flag for test nets
  iterate 8 refine always_bind fun _ => ?_
  cases readsDepth with
  | true =>
    have hne : e ≠ .coinbase := fun he => nomatch hdepth he
    iterate 5 refine always_bind fun _ => ?_
    dsimp only
    split
    · iterate 2 refine always_bind fun _ => ?_
      rintro cfg ⟨⟩
      exact ⟨hknown, rfl, fun he => absurd he hne, rfl, rfl⟩
    · refine always_bind fun _ => ?_
      rintro cfg ⟨⟩
      exact ⟨hknown, rfl, fun he => absurd he hne, rfl, rfl⟩
  | false =>
    rw [if_neg (by decide)]
    simp only [pure_bind]
    iterate 3 refine always_bind fun _ => ?_
    split
    · iterate 2 refine always_bind fun _ => ?_
      rintro cfg ⟨⟩
      exact ⟨hknown, rfl, fun _ => rfl, rfl, rfl⟩
    · rintro cfg ⟨⟩
      exact ⟨hknown, rfl, fun _ => rfl, rfl, rfl⟩

variable {st : Store Setting.Value}

theorem exists_of_mem_inSection {parent : Node} {key : StdString} {body : Node → List Conversion}
    (h : .ok st ∈ Conversion.inSection parent key body) : ∃ node, .ok st ∈ body node := by
  unfold Conversion.inSection at h
  split at h
  · cases List.mem_singleton.mp h
  · split at h
    · exact ⟨_, h⟩
    · cases h

theorem keeps_of_mem_ofExchange {e : Exchange} {name : StdString} {readsDepth : Bool}
    {rateLimit : UInt64} {exchanges : Node}
    (hknown : e = .binance ∨ e = .coinbase ∨ e = .kraken)
    (hdepth : e = .coinbase → readsDepth = false)
    (h : .ok st ∈ Conversion.ofExchange p e name readsDepth rateLimit exchanges) : Keeps st := by
  obtain ⟨node, h⟩ := exists_of_mem_inSection h
  have hconvert := (List.mem_singleton.mp h).symm
  unfold Conversion.ofNode at hconvert
  cases hcfg : Parse.exchangeConfig p e readsDepth rateLimit node with
  | error ex => rw [hcfg] at hconvert; cases hconvert
  | ok cfg =>
    rw [hcfg] at hconvert
    cases hconvert
    exact formedEntry_of_exchangeConfig hknown hdepth cfg hcfg

/-- Fields other than exchanges are free. -/
theorem keeps_of_within {α : Type} {names : List Setting} {program : Parse α}
    (h : Within names program) (hnames : ∀ e, .exchange e ∉ names) (hst : st ∈ program.stores) :
    Keeps st := by
  have hname : st.1 ∈ names := h.mem (List.mem_map_of_mem hst)
  obtain ⟨name, v⟩ := st
  cases name
  case exchange e => exact absurd hname (hnames e)
  all_goals trivial

/-- Whatever a document stores keeps the configuration formed. -/
theorem keeps_of_mem_parseYaml {content : StdString} (h : st ∈ (Parse.parseYaml p content).stores) :
    Keeps st := by
  rw [Conversion.parseYaml_eq_perform, Conversion.ofDocument] at h
  split at h
  · cases h
  rename_i root _
  rcases mem_stores_append h with h | h
  · obtain ⟨exchanges, h⟩ := exists_of_mem_inSection (mem_of_mem_stores h)
    simp only [List.mem_append] at h
    rcases h with h | h | h
    · exact keeps_of_mem_ofExchange (.inl rfl) nofun h
    · exact keeps_of_mem_ofExchange (.inr (.inl rfl)) (fun _ => rfl) h
    · exact keeps_of_mem_ofExchange (.inr (.inr rfl)) nofun h
  rcases mem_stores_append h with h | h
  · exact keeps_of_within (Conversion.within_ofServer p root) (by simp) h
  rcases mem_stores_append h with h | h
  · exact keeps_of_within (Conversion.within_ofPerformance p root) (by simp) h
  rcases mem_stores_append h with h | h
  · exact keeps_of_within (Conversion.within_ofLogging p root) (by simp) h
  rcases mem_stores_append h with h | h
  · exact keeps_of_within (Conversion.within_ofRecording p root) (by simp) h
  · exact keeps_of_within (Conversion.within_ofArbitrage p root) (by simp) h

end Documents

theorem Formed.applyAll {c : SystemConfig} (h : Formed c) {stores : List (Store Setting.Value)}
    (hkeeps : ∀ st ∈ stores, Keeps st) : Formed (settings.applyAll c stores) := by
  induction stores generalizing c with
  | nil => exact h
  | cons st stores ih =>
    obtain ⟨hst, hkeeps⟩ := List.forall_mem_cons.mp hkeeps
    exact ih (h.write hst) hkeeps

/-- The defaults are formed. -/
theorem formed_createDefault : Formed createDefault := by
  have hat : ∀ e : Exchange, createDefault.exchanges[e]? = none ∨
      ∃ cfg, createDefault.exchanges[e]? = some cfg ∧ FormedEntry e cfg := by
    intro e
    simp only [createDefault, getElem?_insert_exchange]
    split
    · next heq => exact .inr ⟨_, rfl, heq ▸ ⟨.inr (.inr rfl), rfl, nofun, rfl, rfl⟩⟩
    split
    · next heq => exact .inr ⟨_, rfl, heq ▸ ⟨.inr (.inl rfl), rfl, fun _ => rfl, rfl, rfl⟩⟩
    split
    · next heq => exact .inr ⟨_, rfl, heq ▸ ⟨.inl rfl, rfl, nofun, rfl, rfl⟩⟩
    · exact .inl Std.ExtTreeMap.getElem?_empty
  have hentries : ∀ (e : Exchange) (cfg : ExchangeConfig),
      createDefault.exchanges[e]? = some cfg → FormedEntry e cfg := by
    intro e cfg hcfg
    rcases hat e with hnone | ⟨cfg', hsome, hformed⟩
    · rw [hnone] at hcfg
      cases hcfg
    · rw [hsome] at hcfg
      cases hcfg
      exact hformed
  exact ⟨by decide +kernel, by decide +kernel, by decide +kernel, hentries, rfl, rfl, rfl, rfl, rfl,
    rfl, rfl, rfl⟩

/-- Every configuration that is reached is formed. -/
theorem ConfigurationManager.Reached.formed {m : ConfigurationManager} (h : m.Reached) :
    Formed m.config := by
  induction h with
  | construct => exact formed_createDefault
  | loadFromString _ p content ih => exact ih.applyAll fun st hst => keeps_of_mem_parseYaml hst

/-! ## Loading what was saved -/

theorem substituteEnvVars_of_find {getenv : StdString → Option StdString} {s : StdString}
    (h : find (lit "$\x7b") s 0 = none) : substituteEnvVars getenv s = s :=
  EnvSubstitution.substituteFrom_of_no_start h

section Load

variable {p : Platform} {out : Emitter} {c : SystemConfig}

/-- An entry that was saved is read back. -/
theorem exchangeConfig_saved (htrip : RoundTrips p.yaml out c) (hplain : NoPlaceholders c)
    {e : Exchange} {cfg : ExchangeConfig} (hcfg : c.exchanges[e]? = some cfg)
    (hformed : FormedEntry e cfg) {readsDepth : Bool}
    (hdepth : readsDepth = false → e = .coinbase) (rateLimit : UInt64) :
    Parse.exchangeConfig p e readsDepth rateLimit (out.exchange cfg) = .ok cfg := by
  have henabled :
      (out.exchange cfg).get (lit "enabled") = .ok (.scalar (out.bool cfg.enabled)) := rfl
  have hwebsocket :
      (out.exchange cfg).get (lit "websocket_url") = .ok (.scalar cfg.websocketUrl) := rfl
  have hrest : (out.exchange cfg).get (lit "rest_url") = .ok (.scalar cfg.restUrl) := rfl
  have htestnet : (out.exchange cfg).get (lit "use_testnet") =
      .ok (.scalar (out.bool cfg.useTestnet)) := rfl
  have hdepthNode :
      (out.exchange cfg).get (lit "depth") = .ok (.scalar (out.uint32 cfg.depth)) := rfl
  have hrate : (out.exchange cfg).get (lit "rate_limit_per_sec") =
      .ok (.scalar (out.double cfg.rateLimitPerSec)) := rfl
  have hsymbols : (out.exchange cfg).get (lit "symbols") =
      .ok (.sequence (cfg.symbols.map .scalar)) := rfl
  have hdouble := htrip.double e cfg hcfg
  obtain ⟨hwebsocketPlain, hrestPlain⟩ := hplain e cfg hcfg
  have hcfgEq :
      (⟨e, cfg.enabled, cfg.websocketUrl, cfg.restUrl, cfg.useTestnet, cfg.depth, 5000, 10,
      cfg.rateLimitPerSec, cfg.symbols⟩ : ExchangeConfig) = cfg := by
    rw [← hformed.exchange, ← hformed.reconnectDelayMs, ← hformed.maxReconnectAttempts]
  unfold Parse.exchangeConfig
  simp only [henabled, hwebsocket, hrest, htestnet, hrate, hsymbols, hdouble, htrip.bool,
    htrip.string, htrip.strings, ok_bind, Node.isDefined, if_true,
    substituteEnvVars_of_find hwebsocketPlain, substituteEnvVars_of_find hrestPlain]
  cases readsDepth with
  | true =>
    rw [if_pos rfl, hdepthNode, ok_bind, htrip.uint32, ok_bind]
    exact congrArg Except.ok hcfgEq
  | false =>
    have hten : cfg.depth = 10 := hformed.depth (hdepth rfl)
    rw [hten] at hcfgEq
    rw [if_neg (by decide)]
    exact congrArg Except.ok hcfgEq

/-- An element that no other one shadows. -/
theorem get_map_of_mem {entries : List (StdString × Node)} {key : StdString} {node : Node}
    (hmem : (key, node) ∈ entries) (hsame : ∀ other, (key, other) ∈ entries → other = node) :
    (Node.map entries).get key = .ok node := by
  have hfind : (entries.find? fun entry => entry.1 = key) = some (key, node) := by
    cases hfound : entries.find? fun entry => entry.1 = key with
    | none =>
      have hne := List.find?_eq_none.mp hfound (key, node) hmem
      exact absurd (by simp) hne
    | some entry =>
      obtain ⟨name, other⟩ := entry
      obtain rfl : name = key := by simpa using List.find?_some hfound
      rw [hsame other (List.mem_of_find?_eq_some hfound)]
  show Except.ok _ = _
  rw [hfind]
  rfl

/-- Each exchange is found under its name. -/
theorem get_exchanges (hformed : Formed c) {e : Exchange} {cfg : ExchangeConfig}
    (hcfg : c.exchanges[e]? = some cfg) :
    (out.exchanges c).get (Emitter.exchangeName e) = .ok (out.exchange cfg) := by
  have hinj : ∀ e' : Exchange, (e' = .binance ∨ e' = .coinbase ∨ e' = .kraken) →
      Emitter.exchangeName e' = Emitter.exchangeName e → e' = e := by
    rintro e' (rfl | rfl | rfl) <;>
      rcases (hformed.entries e cfg hcfg).known with rfl | rfl | rfl <;>
      first | exact fun _ => rfl | exact fun h => absurd h (by decide)
  refine get_map_of_mem (List.mem_map.mpr
    ⟨(e, cfg), Std.ExtTreeMap.mem_toList_iff_getElem?_eq_some.mpr hcfg, rfl⟩) ?_
  intro other hother
  obtain ⟨⟨e', cfg'⟩, hmem, heq⟩ := List.mem_map.mp hother
  obtain ⟨hname, rfl⟩ := Prod.mk.inj heq
  have hcfg' := Std.ExtTreeMap.mem_toList_iff_getElem?_eq_some.mp hmem
  obtain rfl := hinj e' (hformed.entries e' cfg' hcfg').known hname
  rw [hcfg] at hcfg'
  cases hcfg'
  rfl

theorem inSection_of_get {parent node : Node} {key : StdString} (h : parent.get key = .ok node)
    (hdefined : node.isDefined = true)
    (body : Node → List Conversion) : Conversion.inSection parent key body = body node := by
  simp only [Conversion.inSection, h, hdefined, if_true]

theorem inSection_of_absent {parent : Node} {key : StdString} (h : parent.get key = .ok .undefined)
    (body : Node → List Conversion) : Conversion.inSection parent key body = [] := by
  rw [Conversion.inSection, h]
  rfl

theorem ofKey_of_get {name : Setting} {node element : Node} {key : StdString}
    {convert : Node → Except YamlException name.Value} {v : name.Value}
    (h : node.get key = .ok element) (hconvert : convert element = .ok v) :
    Conversion.ofKey name node key convert = .ok ⟨name, v⟩ := by
  rw [Conversion.ofKey, h, ok_bind, Conversion.ofNode, hconvert]
  rfl

theorem ofExchange_saved (htrip : RoundTrips p.yaml out c) (hplain : NoPlaceholders c)
    (hformed : Formed c) {e : Exchange} {cfg : ExchangeConfig}
    (hcfg : c.exchanges[e]? = some cfg) (name : StdString) (hname : Emitter.exchangeName e = name)
    (readsDepth : Bool) (hdepth : readsDepth = false → e = .coinbase) (rateLimit : UInt64) :
    Conversion.ofExchange p e name readsDepth rateLimit (out.exchanges c) =
      [.ok ⟨.exchange e, cfg⟩] := by
  have hget : (out.exchanges c).get (Emitter.exchangeName e) = .ok (out.exchange cfg) :=
    get_exchanges hformed hcfg
  rw [hname] at hget
  have hread := exchangeConfig_saved htrip hplain hcfg (hformed.entries e cfg hcfg) hdepth rateLimit
  rw [Conversion.ofExchange, inSection_of_get hget rfl, Conversion.ofNode, hread]
  rfl

/-- The stores of a document that was saved. -/
def savedStores (c : SystemConfig) (binance coinbase kraken : ExchangeConfig) :
    List (Store Setting.Value) :=
  [⟨.exchange .binance, binance⟩, ⟨.exchange .coinbase, coinbase⟩, ⟨.exchange .kraken, kraken⟩,
    ⟨.serverHost, c.server.host⟩, ⟨.serverWebsocketPort, c.server.websocketPort⟩,
    ⟨.serverRestPort, c.server.restPort⟩, ⟨.serverMaxConnections, (1000 : UInt64)⟩,
    ⟨.performanceEnableCpuPinning, c.performance.enableCpuPinning⟩,
    ⟨.performanceCpuCores, c.performance.cpuCores⟩, ⟨.performanceEnableHugePages, false⟩,
    ⟨.performanceEnableNuma, false⟩, ⟨.loggingLevel, c.logging.level⟩,
    ⟨.loggingPattern, defaultPattern⟩, ⟨.loggingAsync, c.logging.async⟩,
    ⟨.loggingLogFile, ([] : StdString)⟩]

variable (htrip : RoundTrips p.yaml out c)

include htrip in
theorem ofServer_saved : Conversion.ofServer p (out.document c) =
    [.ok ⟨.serverHost, c.server.host⟩, .ok ⟨.serverWebsocketPort, c.server.websocketPort⟩,
      .ok ⟨.serverRestPort, c.server.restPort⟩, .ok ⟨.serverMaxConnections, (1000 : UInt64)⟩] := by
  have hget : (out.document c).get (lit "server") = .ok (out.server c) := rfl
  rw [Conversion.ofServer, inSection_of_get hget rfl]
  exact congrArg₂ List.cons (ofKey_of_get rfl (htrip.string _ _)) <|
    congrArg₂ List.cons (ofKey_of_get rfl (htrip.uint16 _ _)) <|
    congrArg₂ List.cons (ofKey_of_get rfl (htrip.uint16 _ _)) <|
    congrArg₂ List.cons (ofKey_of_get rfl (htrip.absentSize _)) rfl

include htrip in
theorem ofPerformance_saved : Conversion.ofPerformance p (out.document c) =
    [.ok ⟨.performanceEnableCpuPinning, c.performance.enableCpuPinning⟩,
      .ok ⟨.performanceCpuCores, c.performance.cpuCores⟩, .ok ⟨.performanceEnableHugePages, false⟩,
      .ok ⟨.performanceEnableNuma, false⟩] := by
  have hget : (out.document c).get (lit "performance") = .ok (out.performance c) := rfl
  have hgetCores : (out.performance c).get (lit "cpu_cores") =
      .ok (.sequence (c.performance.cpuCores.map fun core => .scalar (out.int core))) := rfl
  have hcores : Conversion.inSection (out.performance c) (lit "cpu_cores")
      (fun cores => [Conversion.ofNode .performanceCpuCores p.yaml.asInts cores]) =
      [.ok ⟨.performanceCpuCores, c.performance.cpuCores⟩] := by
    rw [inSection_of_get hgetCores rfl, Conversion.ofNode, htrip.ints]
    rfl
  rw [Conversion.ofPerformance, inSection_of_get hget rfl, hcores]
  exact congrArg₂ List.cons (ofKey_of_get rfl (htrip.bool _ _)) <|
    congrArg₂ List.cons rfl <|
    congrArg₂ List.cons (ofKey_of_get rfl (htrip.absentBool _)) <|
    congrArg₂ List.cons (ofKey_of_get rfl (htrip.absentBool _)) rfl

include htrip in
theorem ofLogging_saved : Conversion.ofLogging p (out.document c) =
    [.ok ⟨.loggingLevel, c.logging.level⟩, .ok ⟨.loggingPattern, defaultPattern⟩,
      .ok ⟨.loggingAsync, c.logging.async⟩, .ok ⟨.loggingLogFile, ([] : StdString)⟩] := by
  have hget : (out.document c).get (lit "logging") = .ok (out.logging c) := rfl
  rw [Conversion.ofLogging, inSection_of_get hget rfl]
  exact congrArg₂ List.cons (ofKey_of_get rfl (htrip.string _ _)) <|
    congrArg₂ List.cons (ofKey_of_get rfl (htrip.absentString _)) <|
    congrArg₂ List.cons (ofKey_of_get rfl (htrip.bool _ _)) <|
    congrArg₂ List.cons (ofKey_of_get rfl (htrip.absentString _)) rfl

include htrip in
/-- Loading a document that was saved stores all that it holds, and the defaults of the other
fields of its sections. -/
theorem ofDocument_saved (hplain : NoPlaceholders c)
    (hformed : Formed c) {binance coinbase kraken : ExchangeConfig}
    (hbinance : c.exchanges[Exchange.binance]? = some binance)
    (hcoinbase : c.exchanges[Exchange.coinbase]? = some coinbase)
    (hkraken : c.exchanges[Exchange.kraken]? = some kraken) :
    Conversion.ofDocument p (out.emit (out.document c)) =
      (savedStores c binance coinbase kraken).map .ok := by
  have hget : (out.document c).get (lit "exchanges") = .ok (out.exchanges c) := rfl
  have hexchanges : Conversion.ofExchanges p (out.document c) =
      [.ok ⟨.exchange .binance, binance⟩, .ok ⟨.exchange .coinbase, coinbase⟩,
        .ok ⟨.exchange .kraken, kraken⟩] := by
    rw [Conversion.ofExchanges, inSection_of_get hget rfl,
      ofExchange_saved htrip hplain hformed hbinance (lit "binance") rfl true nofun,
      ofExchange_saved htrip hplain hformed hcoinbase (lit "coinbase") rfl false fun _ => rfl,
      ofExchange_saved htrip hplain hformed hkraken (lit "kraken") rfl true nofun]
    rfl
  have hrecording : Conversion.ofRecording p (out.document c) = [] := inSection_of_absent rfl _
  have harbitrage : Conversion.ofArbitrage p (out.document c) = [] := inSection_of_absent rfl _
  rw [Conversion.ofDocument, htrip.document]
  dsimp only
  rw [hexchanges, ofServer_saved htrip, ofPerformance_saved htrip, ofLogging_saved htrip,
    hrecording, harbitrage]
  rfl

end Load

/-- What is left of a configuration after it was saved and loaded. -/
def restored (c : SystemConfig) : SystemConfig :=
  { c with
    server.maxConnections := 1000
    performance.enableHugePages := false
    performance.enableNuma := false
    logging.pattern := defaultPattern
    logging.logFile := []
    recording := {}
    arbitrage := {} }

/-- The defaults under the stores of a saved document. -/
theorem applyAll_savedStores {c : SystemConfig} (hformed : Formed c)
    {binance coinbase kraken : ExchangeConfig}
    (hbinance : c.exchanges[Exchange.binance]? = some binance)
    (hcoinbase : c.exchanges[Exchange.coinbase]? = some coinbase)
    (hkraken : c.exchanges[Exchange.kraken]? = some kraken) :
    settings.applyAll createDefault (savedStores c binance coinbase kraken) = restored c := by
  have hexchanges : ((createDefault.exchanges.insert .binance binance).insert .coinbase
      coinbase).insert .kraken kraken = c.exchanges := by
    refine Std.ExtTreeMap.ext_getElem? fun e => ?_
    simp only [getElem?_insert_exchange]
    split
    · next heq => rw [← heq, hkraken]
    split
    · next heq => rw [← heq, hcoinbase]
    split
    · next heq => rw [← heq, hbinance]
    next hk hc hb =>
    have hunknown : ∀ {c' : SystemConfig}, Formed c' → c'.exchanges[e]? = none := by
      intro c' hformed'
      by_contra hsome
      obtain ⟨cfg, hcfg⟩ := Option.ne_none_iff_exists'.mp hsome
      rcases (hformed'.entries e cfg hcfg).known with rfl | rfl | rfl
      · exact hb rfl
      · exact hc rfl
      · exact hk rfl
    rw [hunknown formed_createDefault, hunknown hformed]
  have hstores : settings.applyAll createDefault (savedStores c binance coinbase kraken) =
      { exchanges := ((createDefault.exchanges.insert .binance binance).insert .coinbase
          coinbase).insert .kraken kraken
        server := ⟨c.server.host, c.server.websocketPort, c.server.restPort, 1000, 30000⟩
        performance :=
          ⟨c.performance.enableCpuPinning, c.performance.cpuCores, false, false, 100000,
          100000⟩
        logging := ⟨c.logging.level, defaultPattern, c.logging.async, [], 10485760, 5⟩ } := rfl
  rw [hstores, hexchanges]
  simp only [restored, hformed.heartbeatIntervalMs, hformed.memoryPoolSize, hformed.queueSize,
    hformed.maxFileSize, hformed.maxFiles, hformed.analytics]

/-- A configuration is what is left of it exactly when the unsaved fields have their defaults. -/
theorem restored_eq_self_iff {c : SystemConfig} (hformed : Formed c) :
    restored c = c ↔ UnsavedAreDefault c := by
  constructor
  · intro h
    exact
      { maxConnections := (congrArg (·.server.maxConnections) h).symm
        enableHugePages := (congrArg (·.performance.enableHugePages) h).symm
        enableNuma := (congrArg (·.performance.enableNuma) h).symm
        pattern := (congrArg (·.logging.pattern) h).symm
        logFile := (congrArg (·.logging.logFile) h).symm
        recordingEnabled := (congrArg (·.recording.enabled) h).symm
        outputDir := (congrArg (·.recording.outputDir) h).symm
        format := (congrArg (·.recording.format) h).symm
        arbitrageEnabled := (congrArg (·.arbitrage.enabled) h).symm
        minProfitPercent := (congrArg (·.arbitrage.minProfitPercent) h).symm }
  · intro h
    have hbuffer := hformed.bufferSize
    have hhistory := hformed.historySize
    obtain ⟨_, ⟨⟩, ⟨⟩, ⟨⟩, ⟨⟩, _, ⟨⟩⟩ := c
    simp only [restored, SystemConfig.mk.injEq, ServerConfig.mk.injEq, PerformanceConfig.mk.injEq,
      LoggingConfig.mk.injEq, RecordingConfig.mk.injEq, ArbitrageConfig.mk.injEq, true_and,
      and_true]
    exact ⟨h.maxConnections.symm, ⟨h.enableHugePages.symm, h.enableNuma.symm⟩,
      ⟨h.pattern.symm, h.logFile.symm⟩, ⟨h.recordingEnabled.symm, h.outputDir.symm, h.format.symm,
        hbuffer.symm⟩, h.arbitrageEnabled.symm, h.minProfitPercent.symm, hhistory.symm⟩

namespace ConfigurationManager

theorem load_save {p : Platform} {out : Emitter} {m : ConfigurationManager} (hreached : m.Reached)
    (htrip : RoundTrips p.yaml out m.config) (hplain : NoPlaceholders m.config)
    (files : StdString → Option StdString) (filename : StdString) :
    let loaded := construct.load { p with readFile := (m.save out files filename).1 } filename
    loaded.1.getConfig = restored m.config ∧ loaded.2 = true := by
  intro loaded
  have hformed := hreached.formed
  obtain ⟨binance, hbinance⟩ := Option.isSome_iff_exists.mp hformed.binance
  obtain ⟨coinbase, hcoinbase⟩ := Option.isSome_iff_exists.mp hformed.coinbase
  obtain ⟨kraken, hkraken⟩ := Option.isSome_iff_exists.mp hformed.kraken
  have hparse : Parse.parseYaml { p with readFile := (m.save out files filename).1 }
      (out.emit (out.document m.config)) =
      ⟨savedStores m.config binance coinbase kraken, .ok ()⟩ := by
    rw [Conversion.parseYaml_eq_perform]
    have hdocument := ofDocument_saved htrip hplain hformed hbinance hcoinbase hkraken
    exact (congrArg perform hdocument).trans (perform_map_ok _)
  have hfile : (m.save out files filename).1 filename = some (out.emit (out.document m.config)) :=
    Function.update_self ..
  have hload : loaded = (⟨restored m.config, filename, none, []⟩, true) := by
    show construct.load _ filename = _
    simp only [load, hfile, ConfigurationManager.parseYaml, hparse]
    rw [← applyAll_savedStores hformed hbinance hcoinbase hkraken]
    rfl
  rw [hload]
  exact ⟨rfl, rfl⟩

/-- A configuration that was saved and loaded is the same. -/
def LoadsBack (p : Platform) (out : Emitter) (m : ConfigurationManager)
    (files : StdString → Option StdString) (filename : StdString) : Prop :=
  (construct.load { p with readFile := (m.save out files filename).1 } filename).1.getConfig =
    m.getConfig

/-- Saving loses exactly the fields that it does not write. -/
theorem loadsBack_iff_unsavedAreDefault (p : Platform) (out : Emitter) (m : ConfigurationManager)
    (hreached : m.Reached) (htrip : RoundTrips p.yaml out m.config)
    (hplain : NoPlaceholders m.config) (files : StdString → Option StdString)
    (filename : StdString) :
    LoadsBack p out m files filename ↔ UnsavedAreDefault m.config := by
  unfold LoadsBack
  rw [(load_save hreached htrip hplain files filename).1]
  exact restored_eq_self_iff hreached.formed

end ConfigurationManager

/-! ## Documents that set the server and the level of logging -/

/-- A number, if the scalar is one. -/
def numberOr (node : Node) (fallback : Nat) : Nat :=
  match node with
  | .scalar text =>
    if text ≠ [] ∧ ∀ c ∈ text, Decimal.IsDigit c then Decimal.value text else fallback
  | _ => fallback

/-- A library that knows a few numerals of doubles and empty lists of numbers. -/
def simpleYaml (load : StdString → Except YamlException Node) : Yaml where
  load := load
  asBool
    | .scalar text, fallback => .ok (if text = lit "true" then true else
        if text = lit "false" then false else fallback)
    | _, fallback => .ok fallback
  asString
    | .scalar text, _ => .ok text
    | _, fallback => .ok fallback
  asUInt16 node fallback := .ok (UInt16.ofNat (numberOr node fallback.toNat))
  asUInt32 node fallback := .ok (UInt32.ofNat (numberOr node fallback.toNat))
  asSize node fallback := .ok (UInt64.ofNat (numberOr node fallback.toNat))
  asDouble
    | .scalar text, fallback => .ok (if text = lit "20" then 0x4034000000000000 else
        if text = lit "30" then 0x403E000000000000 else
        if text = lit "15" then 0x402E000000000000 else fallback)
    | _, fallback => .ok fallback
  asStrings
    | .sequence items => .ok (items.filterMap fun
        | .scalar text => some text
        | _ => none)
    | _ => .error ⟨lit "bad conversion"⟩
  asInts
    | .sequence [] => .ok []
    | _ => .error ⟨lit "bad conversion"⟩

/-- What is written for the default configuration but for the server and the level. -/
def simpleEmitter : Emitter where
  bool b := if b then lit "true" else lit "false"
  uint16 n := Decimal.digits n.toNat
  uint32 n := Decimal.digits n.toNat
  double word := if word = 0x4034000000000000 then lit "20" else
    if word = 0x403E000000000000 then lit "30" else lit "15"
  int i := lit (toString i.toInt)
  emit _ := lit "exchanges:
  binance:
    enabled: true
    websocket_url: wss://stream.binance.com:9443/ws
    rest_url: https://api.binance.com
    use_testnet: false
    depth: 10
    rate_limit_per_sec: 20
    symbols:
      - btcusdt
      - ethusdt
  coinbase:
    enabled: true
    websocket_url: wss://ws-feed.exchange.coinbase.com
    rest_url: https://api.exchange.coinbase.com
    use_testnet: false
    depth: 10
    rate_limit_per_sec: 30
    symbols:
      - BTC-USD
      - ETH-USD
  kraken:
    enabled: true
    websocket_url: wss://ws.kraken.com
    rest_url: https://api.kraken.com
    use_testnet: false
    depth: 10
    rate_limit_per_sec: 15
    symbols:
      - XBT/USD
      - ETH/USD
server:
  host: localhost
  websocket_port: 9000
  rest_port: 9001
performance:
  enable_cpu_pinning: false
  cpu_cores:
    []
logging:
  level: debug
  async: true"

/-- A document with a server that takes a number of connections, and a level. -/
def connections (n : UInt64) : Node :=
  .map [(lit "server", .map [(lit "host", .scalar (lit "localhost")),
      (lit "websocket_port", .scalar (Decimal.digits 9000)),
      (lit "rest_port", .scalar (Decimal.digits 9001)),
      (lit "max_connections", .scalar (Decimal.digits n.toNat))]),
    (lit "logging", .map [(lit "level", .scalar (lit "debug"))])]

/-- A library that reads one document. -/
def reading (node : Node) : Platform := ⟨simpleYaml fun _ => .ok node, fun _ => none, fun _ => none⟩

/-- The manager that has loaded the document. -/
def withConnections (n : UInt64) : ConfigurationManager :=
  (ConfigurationManager.construct.loadFromString (reading (connections n))
    (lit "server:\n  host: localhost\n  websocket_port: 9000\n  rest_port: 9001\n" ++
      lit "  max_connections: " ++ Decimal.digits n.toNat ++
      lit "\nlogging:\n  level: debug\n")).1

/-- What is saved of it, whatever the number of connections. -/
def savedDocument : Node := simpleEmitter.document (withConnections 1000).config

theorem numberOr_digits (n fallback : Nat) :
    numberOr (.scalar (Decimal.digits n)) fallback = n := by
  rw [numberOr, if_pos ⟨Decimal.digits_ne_nil n, Decimal.isDigit_of_mem_digits n⟩,
    Decimal.value_digits]

theorem config_withConnections (n : UInt64) :
    (withConnections n).config =
      { createDefault with
        server := ⟨lit "localhost", 9000, 9001, n, 30000⟩
        logging.level := lit "debug" } := by
  have hport (port : UInt16) (fallback : UInt16) : (reading (connections n)).yaml.asUInt16
      (.scalar (Decimal.digits port.toNat)) fallback = .ok port := by
    show Except.ok _ = _
    rw [numberOr_digits, UInt16.ofNat_toNat]
  have hsize : (reading (connections n)).yaml.asSize (.scalar (Decimal.digits n.toNat)) 1000 =
      .ok n := by
    show Except.ok _ = _
    rw [numberOr_digits, UInt64.ofNat_toNat]
  have hserver : Conversion.ofServer (reading (connections n)) (connections n) =
      [.ok ⟨.serverHost, lit "localhost"⟩, .ok ⟨.serverWebsocketPort, (9000 : UInt16)⟩,
        .ok ⟨.serverRestPort, (9001 : UInt16)⟩, .ok ⟨.serverMaxConnections, n⟩] := by
    rw [Conversion.ofServer, inSection_of_get rfl rfl]
    exact congrArg₂ List.cons rfl <| congrArg₂ List.cons (ofKey_of_get rfl (hport 9000 8080)) <|
      congrArg₂ List.cons (ofKey_of_get rfl (hport 9001 8081)) <|
        congrArg₂ List.cons (ofKey_of_get rfl hsize) rfl
  have hlogging : Conversion.ofLogging (reading (connections n)) (connections n) =
      [.ok ⟨.loggingLevel, lit "debug"⟩, .ok ⟨.loggingPattern, defaultPattern⟩,
        .ok ⟨.loggingAsync, true⟩, .ok ⟨.loggingLogFile, []⟩] := by
    rfl
  have hdocument (text : StdString) : Conversion.ofDocument (reading (connections n)) text =
      ([⟨.serverHost, lit "localhost"⟩, ⟨.serverWebsocketPort, (9000 : UInt16)⟩,
        ⟨.serverRestPort, (9001 : UInt16)⟩, ⟨.serverMaxConnections, n⟩,
        ⟨.loggingLevel, lit "debug"⟩, ⟨.loggingPattern, defaultPattern⟩,
        ⟨.loggingAsync, true⟩, ⟨.loggingLogFile, []⟩] :
          List (Store Setting.Value)).map .ok := by
    have habsent : ∀ key, key ≠ lit "server" → key ≠ lit "logging" →
        (connections n).get key = .ok .undefined := by
      intro key hserver hlogging
      show Except.ok _ = _
      rw [List.find?_cons_of_neg (by simpa using hserver.symm),
        List.find?_cons_of_neg (by simpa using hlogging.symm)]
      rfl
    show Conversion.ofExchanges _ (connections n) ++ _ = _
    rw [hserver, hlogging, Conversion.ofExchanges, Conversion.ofPerformance,
      Conversion.ofRecording, Conversion.ofArbitrage,
      inSection_of_absent (habsent _ (by decide) (by decide)),
      inSection_of_absent (habsent _ (by decide) (by decide)),
      inSection_of_absent (habsent _ (by decide) (by decide)),
      inSection_of_absent (habsent _ (by decide) (by decide))]
    rfl
  show settings.applyAll createDefault (Parse.parseYaml _ _).stores = _
  rw [Conversion.parseYaml_eq_perform, hdocument, perform_map_ok]
  rfl

theorem roundTrips_withConnections (n : UInt64) :
    RoundTrips (reading savedDocument).yaml simpleEmitter
      (withConnections n).config := by
  have hsame : simpleEmitter.document (withConnections n).config = savedDocument := by
    rw [savedDocument, config_withConnections, config_withConnections]
    rfl
  have hrates : ∀ entry ∈ createDefault.exchanges.toList,
      entry.2.rateLimitPerSec ∈ [0x4034000000000000, 0x403E000000000000, 0x402E000000000000] := by
    decide +kernel
  exact
    { document := by rw [hsame]; rfl
      bool := by rintro (_ | _) fallback <;> rfl
      string := fun _ _ => rfl
      uint16 := fun n fallback => by
        show Except.ok _ = _
        rw [simpleEmitter, numberOr_digits, UInt16.ofNat_toNat]
      uint32 := fun n fallback => by
        show Except.ok _ = _
        rw [simpleEmitter, numberOr_digits, UInt32.ofNat_toNat]
      double := by
        intro e cfg hcfg fallback
        rw [config_withConnections] at hcfg
        have hrate := hrates (e, cfg) (Std.ExtTreeMap.mem_toList_iff_getElem?_eq_some.mpr hcfg)
        simp only [List.mem_cons, List.not_mem_nil, or_false] at hrate
        rcases hrate with hrate | hrate | hrate <;> rw [hrate] <;> rfl
      strings := fun l => by
        show Except.ok _ = _
        rw [List.filterMap_map]
        exact congrArg Except.ok List.filterMap_some
      ints := by rw [config_withConnections]; rfl
      absentBool := fun _ => rfl
      absentString := fun _ => rfl
      absentSize := fun _ => congrArg Except.ok UInt64.ofNat_toNat }

theorem noPlaceholders_withConnections (n : UInt64) :
    NoPlaceholders (withConnections n).config := by
  have hurls : ∀ entry ∈ createDefault.exchanges.toList,
      find (lit "$\x7b") entry.2.websocketUrl 0 = none ∧
        find (lit "$\x7b") entry.2.restUrl 0 = none := by
    decide +kernel
  intro e cfg hcfg
  rw [config_withConnections] at hcfg
  exact hurls (e, cfg) (Std.ExtTreeMap.mem_toList_iff_getElem?_eq_some.mpr hcfg)

namespace ConfigurationManager

theorem reached_withConnections (n : UInt64) : (withConnections n).Reached :=
  Reached.construct.loadFromString _ _

/-- A host, ports and a level other than the defaults come back with a thousand
connections. -/
theorem loadsBack_iff_unsavedAreDefault_thousand :
    LoadsBack (reading savedDocument) simpleEmitter (withConnections 1000) (fun _ => none)
      (lit "config.yaml") := by
  refine (loadsBack_iff_unsavedAreDefault _ _ _ (reached_withConnections 1000)
    (roundTrips_withConnections 1000) (noPlaceholders_withConnections 1000) _ _).mpr ?_
  rw [config_withConnections]
  exact ⟨rfl, rfl, rfl, rfl, rfl, rfl, rfl, rfl, rfl, rfl⟩

/-- Fifty connections are a thousand after saving and loading. -/
theorem loadsBack_fails :
    ¬ ∀ (p : Platform) (out : Emitter) (m : ConfigurationManager), m.Reached →
      RoundTrips p.yaml out m.config → NoPlaceholders m.config →
      ∀ (files : StdString → Option StdString) (filename : StdString),
        LoadsBack p out m files filename := by
  intro h
  have hback :=
    h (reading savedDocument) simpleEmitter (withConnections 50)
    (reached_withConnections 50) (roundTrips_withConnections 50) (noPlaceholders_withConnections 50)
    (fun _ => none) (lit "config.yaml")
  have hload := (load_save (reached_withConnections 50) (roundTrips_withConnections 50)
    (noPlaceholders_withConnections 50) (fun _ => none) (lit "config.yaml")).1
  have hsame : restored (withConnections 50).config = (withConnections 50).config :=
    hload.symm.trans hback
  rw [config_withConnections] at hsame
  have hconnections : (1000 : UInt64) = 50 := congrArg (·.server.maxConnections) hsame
  exact absurd hconnections (by decide)

end ConfigurationManager

end OrderbookEngine
