import OrderbookEngine.Core.ArbitrageNotification

/-!
# The arbitrage monitor

The members of `ArbitrageMonitor` and its methods, each between taking and
releasing the mutex. A detection has two such sections, one before and one after
the alert callback.
-/

namespace OrderbookEngine

open AggregatedOrderBook

/-- `TrackedArbitrage`. -/
structure TrackedArbitrage (D : Type) where
  id : UInt64
  opportunity : ArbitrageOpportunity D
  detectionTimeNs : UInt64
  expiryTimeNs : UInt64
  isActive : Bool
  deriving DecidableEq, Repr

/-- `get_duration_ms`, an unsigned difference in milliseconds. -/
def TrackedArbitrage.getDurationMs {D : Type} [Field D] (arb : TrackedArbitrage D) : D :=
  if arb.expiryTimeNs = 0 then 0
  else ((arb.expiryTimeNs - arb.detectionTimeNs).toNat : D) / 1000000

/-- The members of `ArbitrageMonitor` other than its mutex, over handles of the
registered order books. -/
structure ArbitrageMonitor (β D : Type) where
  minProfitPercent : D
  historySize : Nat
  running : Bool
  nextId : UInt64
  orderBooks : Std.TreeMap StdString β
  activeOpportunities : Std.TreeMap UInt64 (TrackedArbitrage D)
  history : List (TrackedArbitrage D)
  /-- Whether an alert callback is set. -/
  alertCallback : Bool
  totalCount : Nat
  totalProfit : WithTop D
  maxProfitPercent : WithTop D
  totalDurationMs : D
  completedCount : Nat

namespace ArbitrageMonitor

variable {β D : Type}

/-- The age from which on an opportunity is expired, one second. -/
def timeoutNs : UInt64 := 1000000000

/-- `add_to_history`: to the front, and trimmed at the back. -/
def addToHistory (m : ArbitrageMonitor β D) (arb : TrackedArbitrage D) : ArbitrageMonitor β D :=
  { m with history := (arb :: m.history).take m.historySize }

/-- An opportunity that expires at `now`. -/
def expired (now : UInt64) (arb : TrackedArbitrage D) : TrackedArbitrage D :=
  { arb with expiryTimeNs := now, isActive := false }

/-- The section of `stop` under the mutex: every active opportunity expires. -/
def expireAll (m : ArbitrageMonitor β D) (now : UInt64) : ArbitrageMonitor β D :=
  { m.activeOpportunities.toList.foldl (fun m e => m.addToHistory (expired now e.2)) m with
    activeOpportunities := ∅ }

/-- `start`. -/
def start (m : ArbitrageMonitor β D) : ArbitrageMonitor β D := { m with running := true }

/-- `stop`. -/
def stop (m : ArbitrageMonitor β D) (now : UInt64) : ArbitrageMonitor β D :=
  if m.running then { m with running := false }.expireAll now else m

/-- `set_alert_callback`. -/
def setAlertCallback (m : ArbitrageMonitor β D) (callback : Bool) : ArbitrageMonitor β D :=
  { m with alertCallback := callback }

/-- `set_min_profit`. -/
def setMinProfit (m : ArbitrageMonitor β D) (minProfitPercent : D) : ArbitrageMonitor β D :=
  { m with minProfitPercent := minProfitPercent }

variable [Field D]

/-- A monitor without books that is not running. -/
def construct (β : Type) (minProfitPercent : D) (historySize : Nat) : ArbitrageMonitor β D where
  minProfitPercent := minProfitPercent
  historySize := historySize
  running := false
  nextId := 1
  orderBooks := ∅
  activeOpportunities := ∅
  history := []
  alertCallback := false
  totalCount := 0
  totalProfit := 0
  maxProfitPercent := 0
  totalDurationMs := 0
  completedCount := 0

/-- `clear_history`. -/
def clearHistory (m : ArbitrageMonitor β D) : ArbitrageMonitor β D :=
  { m with
    history := []
    totalCount := 0
    totalProfit := 0
    maxProfitPercent := 0
    totalDurationMs := 0
    completedCount := 0 }

/-- One pass of the second loop of `update_active_opportunities`. -/
def expire (now : UInt64) (m : ArbitrageMonitor β D) (id : UInt64) : ArbitrageMonitor β D :=
  match m.activeOpportunities[id]? with
  | none => m
  | some arb =>
    { m.addToHistory (expired now arb) with
      totalDurationMs := m.totalDurationMs + (expired now arb).getDurationMs
      completedCount := m.completedCount + 1
      activeOpportunities := m.activeOpportunities.erase id }

/-- The identifiers that `update_active_opportunities` collects to expire. -/
def toExpire (m : ArbitrageMonitor β D) (currentTimeNs : UInt64) : List UInt64 :=
  (m.activeOpportunities.toList.filter fun e =>
    timeoutNs < currentTimeNs - e.2.detectionTimeNs).map Prod.fst

/-- `update_active_opportunities`. -/
def updateActiveOpportunities (m : ArbitrageMonitor β D) (currentTimeNs : UInt64) :
    ArbitrageMonitor β D :=
  (m.toExpire currentTimeNs).foldl (expire currentTimeNs) m

variable [LinearOrder D]

/-- The tests of `on_arbitrage_detected` before the mutex is taken. -/
def accepts (m : ArbitrageMonitor β D) (opportunity : ArbitrageOpportunity D) : Bool :=
  m.running && !decide (opportunity.profitPercentage < m.minProfitPercent)

/-- The opportunity that a detection at `now` tracks. -/
def tracked (m : ArbitrageMonitor β D) (opportunity : ArbitrageOpportunity D) (now : UInt64) :
    TrackedArbitrage D where
  id := m.nextId
  opportunity := opportunity
  detectionTimeNs := now
  expiryTimeNs := 0
  isActive := true

/-- The section of `on_arbitrage_detected` before the alert callback. -/
def track (m : ArbitrageMonitor β D) (opportunity : ArbitrageOpportunity D) (now : UInt64) :
    ArbitrageMonitor β D :=
  { m with
    nextId := m.nextId + 1
    activeOpportunities := m.activeOpportunities.insert m.nextId (m.tracked opportunity now)
    totalCount := m.totalCount + 1
    totalProfit := m.totalProfit + opportunity.profitPercentage
    maxProfitPercent := max m.maxProfitPercent opportunity.profitPercentage }

/-- `on_arbitrage_detected` at the clock reading `now`, when the alert callback
leaves the monitor alone. -/
def onArbitrageDetected (m : ArbitrageMonitor β D) (opportunity : ArbitrageOpportunity D)
    (now : UInt64) : ArbitrageMonitor β D :=
  if m.accepts opportunity then
    (m.track opportunity now).updateActiveOpportunities (m.tracked opportunity now).detectionTimeNs
  else m

section Expiry

omit [LinearOrder D]

variable (m : ArbitrageMonitor β D) (now : UInt64) {id : UInt64}

@[simp] theorem nextId_expire (id : UInt64) : (expire now m id).nextId = m.nextId := by
  unfold expire
  split <;> rfl

@[simp] theorem totalCount_expire (id : UInt64) : (expire now m id).totalCount = m.totalCount := by
  unfold expire
  split <;> rfl

/-- Expiring takes an opportunity from the active ones. -/
theorem activeOpportunities_expire (key : UInt64) :
    (expire now m key).activeOpportunities[id]? =
      if id = key then none else m.activeOpportunities[id]? := by
  unfold expire
  split
  · rename_i hkey
    split
    · rename_i heq
      rw [heq, hkey]
    · rfl
  · show (m.activeOpportunities.erase key)[id]? = _
    simp only [Std.TreeMap.getElem?_erase, Std.compare_eq_iff_eq, @eq_comm _ key id]

@[simp] theorem orderBooks_expire (id : UInt64) : (expire now m id).orderBooks = m.orderBooks := by
  unfold expire
  split <;> rfl

/-- What expiring one opportunity keeps, expiring several keeps. -/
theorem kept_foldl_expire {α : Type} (view : ArbitrageMonitor β D → α)
    (hview : ∀ m id, view (expire now m id) = view m) (ids : List UInt64) :
    view (ids.foldl (expire now) m) = view m := by
  induction ids generalizing m with
  | nil => rfl
  | cons key ids ih => rw [List.foldl_cons, ih, hview]

theorem activeOpportunities_foldl_expire (ids : List UInt64) :
    (ids.foldl (expire now) m).activeOpportunities[id]? =
      if id ∈ ids then none else m.activeOpportunities[id]? := by
  induction ids generalizing m with
  | nil => rfl
  | cons key ids ih =>
    rw [List.foldl_cons, ih, activeOpportunities_expire]
    by_cases hkey : id = key <;> simp [hkey]

omit [Field D] in
/-- The opportunities that expire are the active ones over age, by an unsigned
difference. -/
theorem mem_toExpire : id ∈ m.toExpire now ↔
    ∃ arb, m.activeOpportunities[id]? = some arb ∧ timeoutNs < now - arb.detectionTimeNs := by
  simp only [toExpire, List.mem_map, List.mem_filter, decide_eq_true_eq, Prod.exists,
    Std.TreeMap.mem_toList_iff_getElem?_eq_some]
  constructor
  · rintro ⟨id, arb, ⟨hat, hage⟩, rfl⟩
    exact ⟨arb, hat, hage⟩
  · rintro ⟨arb, hat, hage⟩
    exact ⟨id, arb, ⟨hat, hage⟩, rfl⟩

omit [Field D] in
theorem mem_history_addToHistory {arb entry : TrackedArbitrage D}
    (h : entry ∈ (m.addToHistory arb).history) : entry = arb ∨ entry ∈ m.history :=
  List.mem_cons.mp (List.mem_of_mem_take h)

/-- What expiring adds to the history was active. -/
theorem mem_history_foldl_expire {ids : List UInt64} {entry : TrackedArbitrage D}
    (h : entry ∈ (ids.foldl (expire now) m).history) :
    entry ∈ m.history ∨ ∃ id ∈ ids, ∃ arb, m.activeOpportunities[id]? = some arb ∧
      entry = expired now arb := by
  induction ids generalizing m with
  | nil => exact Or.inl h
  | cons key ids ih =>
    rcases ih _ h with h | ⟨id, hid, arb, hat, heq⟩
    · rw [expire] at h
      split at h
      · exact Or.inl h
      · rename_i arb hat
        rcases mem_history_addToHistory m h with rfl | h
        · exact Or.inr ⟨key, List.mem_cons_self, arb, hat, rfl⟩
        · exact Or.inl h
    · rw [activeOpportunities_expire] at hat
      split at hat
      · cases hat
      · exact Or.inr ⟨id, List.mem_cons_of_mem key hid, arb, hat, heq⟩

omit [Field D] in
/-- What stopping adds to the history was active. -/
theorem mem_history_expireAll {entry : TrackedArbitrage D} (h : entry ∈ (m.expireAll now).history) :
    entry ∈ m.history ∨ ∃ id : UInt64, ∃ arb, m.activeOpportunities[id]? = some arb ∧
      entry = expired now arb := by
  have hfold : ∀ (es : List (UInt64 × TrackedArbitrage D)) (m : ArbitrageMonitor β D),
      entry ∈ (es.foldl (fun m e => m.addToHistory (expired now e.2)) m).history →
        entry ∈ m.history ∨ ∃ e ∈ es, entry = expired now e.2 := by
    intro es
    induction es with
    | nil => exact fun _ => Or.inl
    | cons e es ih =>
      intro m h
      rcases ih _ h with h | ⟨e', he', heq⟩
      · rcases mem_history_addToHistory m h with heq | h
        · exact Or.inr ⟨e, List.mem_cons_self, heq⟩
        · exact Or.inl h
      · exact Or.inr ⟨e', List.mem_cons_of_mem e he', heq⟩
  rcases hfold _ m h with h | ⟨⟨id, arb⟩, he, heq⟩
  · exact Or.inl h
  · exact Or.inr ⟨id, arb, Std.TreeMap.mem_toList_iff_getElem?_eq_some.mp he, heq⟩

omit [Field D] in
/-- Stopping keeps the registered books. -/
theorem orderBooks_expireAll : (m.expireAll now).orderBooks = m.orderBooks := by
  have hfold : ∀ (es : List (UInt64 × TrackedArbitrage D)) (m : ArbitrageMonitor β D),
      (es.foldl (fun m e => m.addToHistory (expired now e.2)) m).orderBooks = m.orderBooks := by
    intro es
    induction es with
    | nil => exact fun _ => rfl
    | cons e es ih => exact fun m => ih _
  exact hfold _ m

end Expiry

end ArbitrageMonitor

/-- A monitor and the order books that it may be given. -/
structure Monitoring (β D : Type) [LinearOrder D] where
  monitor : ArbitrageMonitor β D
  books : β → AggregatedOrderBook D

namespace Monitoring

variable {β D : Type} [DecidableEq β] [Field D] [LinearOrder D]

/-- `add_order_book`; a null pointer is refused. -/
def addOrderBook (s : Monitoring β D) : Option β → Monitoring β D
  | none => s
  | some book =>
    let symbol := (s.books book).symbol
    if s.monitor.orderBooks.contains symbol then s
    else
      { monitor := { s.monitor with orderBooks := s.monitor.orderBooks.insert symbol book }
        books := Function.update s.books book ((s.books book).setArbitrageCallback true) }

/-- `remove_order_book`. -/
def removeOrderBook (s : Monitoring β D) (symbol : StdString) : Monitoring β D :=
  match s.monitor.orderBooks[symbol]? with
  | none => s
  | some book =>
    { monitor := { s.monitor with orderBooks := s.monitor.orderBooks.erase symbol }
      books := Function.update s.books book ((s.books book).setArbitrageCallback false) }

/-- `AggregatedOrderBook::update` with the monitor's callback, without the locks.
The book reads the clock at `now`, the monitor at `detectedAt`. -/
def update (s : Monitoring β D) (book : β) (u : NormalizedOrderBookUpdate D)
    (now detectedAt : UInt64) : Monitoring β D :=
  if u.symbol ≠ (s.books book).symbol then s
  else
    let s := { s with books := Function.update s.books book (applyUpdate u (s.books book)) }
    if (s.books book).arbitrageCallback then
      match (s.books book).detectArbitrage defaultMinProfitPercentage now with
      | some opportunity =>
        { s with monitor := s.monitor.onArbitrageDetected opportunity detectedAt }
      | none => s
    else s

end Monitoring

end OrderbookEngine
