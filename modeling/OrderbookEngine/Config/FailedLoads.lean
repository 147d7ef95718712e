import OrderbookEngine.Config.ConfigurationManager

/-!
# Failed loads

A document asks for a list of conversions, each for a field of its own, and `parse_yaml` stores
their values until one of them throws. So a load that fails leaves the configuration as it was
exactly when the conversions before the first that throws give the values that it has; and the
change callback has been invoked when it is what fails.
-/

namespace OrderbookEngine

open Stores Storing

/-- The conversion of a value, together with the field that the value is for. -/
abbrev Conversion := Except YamlException (Store Setting.Value)

namespace Conversion

/-- The conversions of a section, if the document has it. -/
def inSection (parent : Node) (key : StdString) (body : Node → List Conversion) :
    List Conversion :=
  match parent.get key with
  | .error e => [.error e]
  | .ok node => if node.isDefined then body node else []

/-- The conversion of a node for a field. -/
def ofNode (name : Setting) (convert : Node → Except YamlException name.Value) (node : Node) :
    Conversion := do
  return ⟨name, ← convert node⟩

/-- The conversion of an element of a node for a field. -/
def ofKey (name : Setting) (node : Node) (key : StdString)
    (convert : Node → Except YamlException name.Value) : Conversion := do
  ofNode name convert (← node.get key)

variable (p : Platform)

/-- An exchange is one field. -/
def ofExchange (exchange : Exchange) (name : StdString) (readsDepth : Bool) (rateLimit : UInt64)
    (exchanges : Node) : List Conversion :=
  inSection exchanges name fun node =>
    [ofNode (.exchange exchange) (Parse.exchangeConfig p exchange readsDepth rateLimit) node]

def ofExchanges (root : Node) : List Conversion :=
  inSection root (lit "exchanges") fun exchanges =>
    ofExchange p .binance (lit "binance") true 0x4034000000000000 exchanges ++
      (ofExchange p .coinbase (lit "coinbase") false 0x403E000000000000 exchanges ++
        ofExchange p .kraken (lit "kraken") true 0x402E000000000000 exchanges)

def ofServer (root : Node) : List Conversion :=
  inSection root (lit "server") fun server =>
    [ofKey .serverHost server (lit "host") (p.yaml.asString · (lit "0.0.0.0")),
      ofKey .serverWebsocketPort server (lit "websocket_port") (p.yaml.asUInt16 · 8080),
      ofKey .serverRestPort server (lit "rest_port") (p.yaml.asUInt16 · 8081),
      ofKey .serverMaxConnections server (lit "max_connections") (p.yaml.asSize · 1000)]

def ofPerformance (root : Node) : List Conversion :=
  inSection root (lit "performance") fun perf =>
    ofKey .performanceEnableCpuPinning perf (lit "enable_cpu_pinning") (p.yaml.asBool · false) ::
      (inSection perf (lit "cpu_cores") (fun cores =>
        [ofNode .performanceCpuCores p.yaml.asInts cores]) ++
      [ofKey .performanceEnableHugePages perf (lit "enable_huge_pages") (p.yaml.asBool · false),
        ofKey .performanceEnableNuma perf (lit "enable_numa") (p.yaml.asBool · false)])

def ofLogging (root : Node) : List Conversion :=
  inSection root (lit "logging") fun log =>
    [ofKey .loggingLevel log (lit "level") (p.yaml.asString · (lit "info")),
      ofKey .loggingPattern log (lit "pattern") (p.yaml.asString · defaultPattern),
      ofKey .loggingAsync log (lit "async") (p.yaml.asBool · true),
      ofKey .loggingLogFile log (lit "log_file") (p.yaml.asString · [])]

def ofRecording (root : Node) : List Conversion :=
  inSection root (lit "recording") fun rec =>
    [ofKey .recordingEnabled rec (lit "enabled") (p.yaml.asBool · false),
      ofKey .recordingOutputDir rec (lit "output_dir") (p.yaml.asString · (lit "./data")),
      ofKey .recordingFormat rec (lit "format") (p.yaml.asString · (lit "binary"))]

def ofArbitrage (root : Node) : List Conversion :=
  inSection root (lit "arbitrage") fun arb =>
    [ofKey .arbitrageEnabled arb (lit "enabled") (p.yaml.asBool · true),
      ofKey .arbitrageMinProfitPercent arb (lit "min_profit_percent")
        (p.yaml.asDouble · 0x3FB999999999999A)]

/-- The conversions that a document asks for, in their order. -/
def ofDocument (content : StdString) : List Conversion :=
  match p.yaml.load content with
  | .error e => [.error e]
  | .ok root =>
    ofExchanges p root ++ (ofServer p root ++ (ofPerformance p root ++
      (ofLogging p root ++ (ofRecording p root ++ ofArbitrage p root))))

section Perform

/-- A section is a block under a test. -/
theorem perform_inSection (parent : Node) (key : StdString) (body : Node → List Conversion) :
    perform (inSection parent key body) =
      Parse.whenDefined parent key fun node => perform (body node) := by
  unfold Parse.whenDefined inSection
  cases parent.get key with
  | error e => rfl
  | ok node =>
    rw [lift_ok_bind, lift_ok_bind]
    show perform (if node.isDefined then body node else []) = _
    split <;> rfl

/-- A conversion is an assignment. -/
theorem perform_ofNode (name : Setting) (convert : Node → Except YamlException name.Value)
    (node : Node) : perform [ofNode name convert node] =
      (do let v ← (convert node : Parse name.Value)
          store name v) := by
  unfold ofNode
  cases convert node <;> rfl

/-- A conversion before others. -/
theorem perform_ofKey (name : Setting) (node : Node) (key : StdString)
    (convert : Node → Except YamlException name.Value) (rest : List Conversion) :
    perform (ofKey name node key convert :: rest) =
      (do let element ← (node.get key : Parse Node)
          let v ← (convert element : Parse name.Value)
          store name v
          perform rest) := by
  unfold ofKey
  cases node.get key with
  | error e => rfl
  | ok element =>
    rw [lift_ok_bind]
    show perform (ofNode name convert element :: rest) = _
    unfold ofNode
    cases convert element <;> rfl

variable (p : Platform)

theorem parseExchange_eq_perform (exchange : Exchange) (name : StdString) (readsDepth : Bool)
    (rateLimit : UInt64) (exchanges : Node) :
    Parse.parseExchange p exchange name readsDepth rateLimit exchanges =
      perform (ofExchange p exchange name readsDepth rateLimit exchanges) := by
  unfold ofExchange Parse.parseExchange
  simp only [perform_inSection, perform_ofNode]

theorem parseExchanges_eq_perform (root : Node) :
    Parse.parseExchanges p root = perform (ofExchanges p root) := by
  unfold ofExchanges Parse.parseExchanges
  simp only [perform_inSection, perform_append, ← parseExchange_eq_perform, Parse.parseBinance,
    Parse.parseCoinbase, Parse.parseKraken]

theorem parseServer_eq_perform (root : Node) :
    Parse.parseServer p root = perform (ofServer p root) := by
  unfold ofServer Parse.parseServer
  simp only [perform_inSection, perform_ofKey, store_bind_perform_nil]

theorem parsePerformance_eq_perform (root : Node) :
    Parse.parsePerformance p root = perform (ofPerformance p root) := by
  unfold ofPerformance Parse.parsePerformance
  simp only [perform_inSection, perform_ofKey, perform_append, perform_ofNode,
    store_bind_perform_nil]

theorem parseLogging_eq_perform (root : Node) :
    Parse.parseLogging p root = perform (ofLogging p root) := by
  unfold ofLogging Parse.parseLogging
  simp only [perform_inSection, perform_ofKey, store_bind_perform_nil]

theorem parseRecording_eq_perform (root : Node) :
    Parse.parseRecording p root = perform (ofRecording p root) := by
  unfold ofRecording Parse.parseRecording
  simp only [perform_inSection, perform_ofKey, store_bind_perform_nil]

theorem parseArbitrage_eq_perform (root : Node) :
    Parse.parseArbitrage p root = perform (ofArbitrage p root) := by
  unfold ofArbitrage Parse.parseArbitrage
  simp only [perform_inSection, perform_ofKey, store_bind_perform_nil]

/-- Parsing a document performs the conversions that it asks for. -/
theorem parseYaml_eq_perform (content : StdString) :
    Parse.parseYaml p content = perform (ofDocument p content) := by
  unfold Parse.parseYaml ofDocument
  cases p.yaml.load content with
  | error e => rfl
  | ok root =>
    rw [lift_ok_bind]
    simp only [perform_append, parseExchanges_eq_perform, parseServer_eq_perform,
      parsePerformance_eq_perform, parseLogging_eq_perform, parseRecording_eq_perform,
      parseArbitrage_eq_perform]

end Perform

section Names

variable {names : List Setting} {conversions : List Conversion}

theorem within_inSection {body : Node → List Conversion}
    (h : ∀ node, Within names (perform (body node))) (parent : Node) (key : StdString) :
    Within names (perform (inSection parent key body)) := by
  unfold inSection
  split
  · exact List.nil_sublist _
  · split
    · exact h _
    · exact List.nil_sublist _

theorem fst_of_ofNode {name : Setting} {convert : Node → Except YamlException name.Value}
    {node : Node} {st : Store Setting.Value} (h : ofNode name convert node = .ok st) :
    st.1 = name := by
  unfold ofNode at h
  cases hv : convert node with
  | error e => rw [hv] at h; cases h
  | ok v =>
    rw [hv] at h
    cases h
    rfl

theorem within_ofNode {name : Setting} {convert : Node → Except YamlException name.Value}
    {node : Node} : Within [name] (perform [ofNode name convert node]) :=
  within_perform_nil.perform_cons fun _ => fst_of_ofNode

theorem within_ofKey {name : Setting} {convert : Node → Except YamlException name.Value}
    {node : Node} {key : StdString} (h : Within names (perform conversions)) :
    Within (name :: names) (perform (ofKey name node key convert :: conversions)) := by
  refine h.perform_cons fun st hst => ?_
  unfold ofKey at hst
  cases hget : node.get key with
  | error e => rw [hget] at hst; cases hst
  | ok element =>
    rw [hget] at hst
    exact fst_of_ofNode hst

variable (p : Platform)

theorem within_ofExchange (exchange : Exchange) (name : StdString) (readsDepth : Bool)
    (rateLimit : UInt64) (exchanges : Node) :
    Within [Setting.exchange exchange]
      (perform (ofExchange p exchange name readsDepth rateLimit exchanges)) :=
  within_inSection (fun _ => within_ofNode) exchanges name

theorem within_ofExchanges (root : Node) :
    Within [.exchange .binance, .exchange .coinbase, .exchange .kraken]
      (perform (ofExchanges p root)) :=
  within_inSection (fun _ => (within_ofExchange p ..).perform_append
    ((within_ofExchange p ..).perform_append (within_ofExchange p ..))) root _

theorem within_ofServer (root : Node) :
    Within [.serverHost, .serverWebsocketPort, .serverRestPort, .serverMaxConnections]
      (perform (ofServer p root)) :=
  within_inSection (fun _ => within_ofKey (within_ofKey (within_ofKey (within_ofKey
    within_perform_nil)))) root _

theorem within_ofPerformance (root : Node) :
    Within [.performanceEnableCpuPinning, .performanceCpuCores, .performanceEnableHugePages,
      .performanceEnableNuma] (perform (ofPerformance p root)) := by
  refine within_inSection (fun perf => within_ofKey ?_) root _
  have hcores : Within [.performanceCpuCores] (perform (inSection perf (lit "cpu_cores")
      fun cores => [ofNode .performanceCpuCores p.yaml.asInts cores])) :=
    within_inSection (fun _ => within_ofNode) perf _
  exact hcores.perform_append (within_ofKey (within_ofKey within_perform_nil))

theorem within_ofLogging (root : Node) :
    Within [.loggingLevel, .loggingPattern, .loggingAsync, .loggingLogFile]
      (perform (ofLogging p root)) :=
  within_inSection (fun _ => within_ofKey (within_ofKey (within_ofKey (within_ofKey
    within_perform_nil)))) root _

theorem within_ofRecording (root : Node) :
    Within [.recordingEnabled, .recordingOutputDir, .recordingFormat]
      (perform (ofRecording p root)) :=
  within_inSection (fun _ => within_ofKey (within_ofKey (within_ofKey within_perform_nil))) root _

theorem within_ofArbitrage (root : Node) :
    Within [.arbitrageEnabled, .arbitrageMinProfitPercent] (perform (ofArbitrage p root)) :=
  within_inSection (fun _ => within_ofKey (within_ofKey within_perform_nil)) root _

/-- No field is assigned twice. -/
theorem nodup_ofDocument (content : StdString) :
    ((perform (ofDocument p content)).stores.map Sigma.fst).Nodup := by
  unfold ofDocument
  cases p.yaml.load content with
  | error e => exact List.nodup_nil
  | ok root =>
    have hwithin := (within_ofExchanges p root).perform_append <|
      (within_ofServer p root).perform_append <| (within_ofPerformance p root).perform_append <|
        (within_ofLogging p root).perform_append <|
          (within_ofRecording p root).perform_append (within_ofArbitrage p root)
    exact List.Sublist.nodup hwithin (by decide)

end Names

end Conversion

namespace ConfigurationManager

/-- The calls that load a document. -/
inductive LoadCall where
  | loadFromString (yamlContent : StdString)
  | load (filename : StdString)
  | reload

variable (p : Platform)

/-- Make a call. -/
def invoke (m : ConfigurationManager) : LoadCall → ConfigurationManager × Bool
  | .loadFromString yamlContent => m.loadFromString p yamlContent
  | .load filename => m.load p filename
  | .reload => m.reload p

/-- A call that returns false has changed no configuration and invoked no callback. -/
def FailsUnchanged (m : ConfigurationManager) (after : ConfigurationManager × Bool) : Prop :=
  after.2 = false → after.1.getConfig = m.getConfig ∧
    (∀ exchange, after.1.getExchangeConfig exchange = m.getExchangeConfig exchange) ∧
    after.1.notified = m.notified

/-- When a conversion throws, the ones before the first such gave the values that the
configuration has. -/
def ThrowsFirst (m : ConfigurationManager) (content : StdString) : Prop :=
  ∀ (done : List (Store Setting.Value)) (e : YamlException) (rest : List Conversion),
    Conversion.ofDocument p content = done.map .ok ++ .error e :: rest →
      ∀ st ∈ done, settings.Holds m.config st

/-- When no conversion throws, the change callback does not throw at the new configuration. -/
def CallbackReturns (m : ConfigurationManager) (content : StdString) : Prop :=
  ∀ done : List (Store Setting.Value), Conversion.ofDocument p content = done.map .ok →
    ∀ callback, m.changeCallback = some callback →
      (callback (settings.applyAll m.config done)).isOk = true

/-- The document of the call, if it has one, throws first or not at all, and then neither does
the callback of a call with a file. -/
def Harmless (m : ConfigurationManager) : LoadCall → Prop
  | .loadFromString yamlContent => m.ThrowsFirst p yamlContent
  | .load filename => ∀ content, p.readFile filename = some content →
      m.ThrowsFirst p content ∧ m.CallbackReturns p content
  | .reload => m.filename ≠ [] → ∀ content, p.readFile m.filename = some content →
      m.ThrowsFirst p content ∧ m.CallbackReturns p content

section Loads

variable {p : Platform} {m : ConfigurationManager} {content : StdString}

/-- What a document that throws leaves, and that it is not one that is accepted. -/
theorem parseYaml_of_error {done : List (Store Setting.Value)} {e : YamlException}
    {rest : List Conversion}
    (h : Conversion.ofDocument p content = done.map .ok ++ .error e :: rest) :
    m.parseYaml p content = ({ m with config := settings.applyAll m.config done }, false) := by
  rw [parseYaml, Conversion.parseYaml_eq_perform, h, perform_of_error]
  rfl

theorem parseYaml_of_ok {done : List (Store Setting.Value)}
    (h : Conversion.ofDocument p content = done.map .ok) :
    m.parseYaml p content = ({ m with config := settings.applyAll m.config done }, true) := by
  rw [parseYaml, Conversion.parseYaml_eq_perform, h, perform_map_ok]
  rfl

/-- What was stored before a throw changes nothing exactly when it is there already. -/
theorem applyAll_eq_config_iff {done : List (Store Setting.Value)} {e : YamlException}
    {rest : List Conversion}
    (h : Conversion.ofDocument p content = done.map .ok ++ .error e :: rest) :
    settings.applyAll m.config done = m.config ↔ ∀ st ∈ done, settings.Holds m.config st := by
  have hnodup := Conversion.nodup_ofDocument p content
  rw [h, perform_of_error] at hnodup
  exact settings.applyAll_eq_self_iff hnodup

/-- A document that throws changes nothing exactly when it throws first. -/
theorem failsUnchanged_parseYaml_iff :
    m.FailsUnchanged (m.parseYaml p content) ↔ m.ThrowsFirst p content := by
  constructor
  · intro h done e rest hdoc
    rw [parseYaml_of_error hdoc] at h
    exact (applyAll_eq_config_iff hdoc).mp (h rfl).1
  · intro h
    rcases eq_map_ok_or_error (Conversion.ofDocument p content) with
      ⟨done, hdoc⟩ | ⟨done, e, rest, hdoc⟩
    · rw [parseYaml_of_ok hdoc]
      exact nofun
    · have hsame := (applyAll_eq_config_iff hdoc).mpr (h done e rest hdoc)
      rw [parseYaml_of_error hdoc, hsame]
      exact fun _ => ⟨rfl, fun _ => rfl, rfl⟩

/-- The callback fails a load after the change, and after it was invoked. -/
theorem failsUnchanged_notifyChange_iff (m' : ConfigurationManager)
    (hnotified : m'.notified = m.notified) :
    m.FailsUnchanged m'.notifyChange ↔
      ∀ callback, m'.changeCallback = some callback → (callback m'.config).isOk = true := by
  unfold FailsUnchanged notifyChange
  cases m'.changeCallback with
  | none => simp
  | some callback =>
    cases hresult : (callback m'.config).isOk
    · simp [hnotified, hresult]
    · simp [hresult]

theorem failsUnchanged_load_iff (filename : StdString) :
    m.FailsUnchanged (m.load p filename) ↔ ∀ content, p.readFile filename = some content →
      m.ThrowsFirst p content ∧ m.CallbackReturns p content := by
  unfold load
  cases hfile : p.readFile filename with
  | none => exact iff_of_true (fun _ => ⟨rfl, fun _ => rfl, rfl⟩) (fun _ h => by cases h)
  | some content =>
    simp only [Option.some.injEq, forall_eq']
    rw [← failsUnchanged_parseYaml_iff]
    rcases eq_map_ok_or_error (Conversion.ofDocument p content) with
      ⟨done, hdoc⟩ | ⟨done, e, rest, hdoc⟩
    · -- accepted: what is left to fail is the callback
      have hparse := parseYaml_of_ok (m := m) hdoc
      have hnotify := failsUnchanged_notifyChange_iff (m := m)
        { m with config := settings.applyAll m.config done, filename := filename } rfl
      have hsame : m.FailsUnchanged ({ m with config := settings.applyAll m.config done }, true) :=
        nofun
      rw [hparse, if_pos rfl, hnotify, and_iff_right hsame]
      constructor
      · intro h other hother
        obtain rfl : done = other := map_ok_injective (hdoc.symm.trans hother)
        exact h
      · exact fun h => h done hdoc
    · have hparse := parseYaml_of_error (m := m) hdoc
      have hreturns : m.CallbackReturns p content := fun other hother =>
        absurd (hother.symm.trans hdoc) map_ok_ne_error
      rw [hparse, if_neg Bool.false_ne_true, and_iff_left hreturns]

end Loads

/-- A failed load has changed nothing exactly when its document throws before it changes
anything, if it throws, and the change callback does not throw. -/
theorem failsUnchanged_iff_harmless (p : Platform) (m : ConfigurationManager) (call : LoadCall) :
    m.FailsUnchanged (m.invoke p call) ↔ m.Harmless p call := by
  cases call with
  | loadFromString yamlContent => exact failsUnchanged_parseYaml_iff
  | load filename => exact failsUnchanged_load_iff filename
  | reload =>
    simp only [invoke, reload, Harmless]
    by_cases hname : m.filename = []
    · rw [if_pos hname]
      exact iff_of_true (fun _ => ⟨rfl, fun _ => rfl, rfl⟩) fun hne => absurd hname hne
    · rw [if_neg hname, failsUnchanged_load_iff]
      exact ⟨fun h _ => h, fun h => h hname⟩

/-- A library for documents all of whose values are texts: every other conversion returns its
fallback, or throws without one. -/
def textYaml (load : StdString → Except YamlException Node) : Yaml where
  load := load
  asBool _ fallback := .ok fallback
  asString
    | .scalar text, _ => .ok text
    | _, fallback => .ok fallback
  asUInt16 _ fallback := .ok fallback
  asUInt32 _ fallback := .ok fallback
  asSize _ fallback := .ok fallback
  asDouble _ fallback := .ok fallback
  asStrings _ := .error ⟨lit "bad conversion"⟩
  asInts _ := .error ⟨lit "bad conversion"⟩

/-- A document whose list of cores is no list. -/
def badCores : StdString := lit "server:\n  host: 10.0.0.1\nperformance:\n  cpu_cores: none\n"

/-- The tree of that document. -/
def badCoresTree : Node :=
  .map [(lit "server", .map [(lit "host", .scalar (lit "10.0.0.1"))]),
    (lit "performance", .map [(lit "cpu_cores", .scalar (lit "none"))])]

def badCoresPlatform : Platform where
  yaml := textYaml fun text =>
    if text = badCores then .ok badCoresTree else .error ⟨lit "no such document"⟩
  getenv _ := none
  readFile _ := none

/-- The load fails at the cores, after the host was changed. -/
theorem failsUnchanged_fails :
    ¬ ∀ (p : Platform) (m : ConfigurationManager) (call : LoadCall),
      m.FailsUnchanged (m.invoke p call) := by
  intro h
  have hcall := h badCoresPlatform construct (.loadFromString badCores)
  have hfalse : (construct.invoke badCoresPlatform (.loadFromString badCores)).2 = false := by
    decide +kernel
  have hhost : (construct.invoke badCoresPlatform
      (.loadFromString badCores)).1.getConfig.server.host ≠ construct.getConfig.server.host := by
    decide +kernel
  exact hhost (congrArg (fun config => config.server.host) (hcall hfalse).1)

end ConfigurationManager

end OrderbookEngine
