import OrderbookEngine.Library.OrderedMap
import OrderbookEngine.Library.Transition
import OrderbookEngine.Trading.ArbitrageMonitor

/-!
# Runs of the arbitrage monitor

One call follows another, and a call sees one clock reading. An opportunity is
completed by the pass over the active ones at a later detection, which counts it, or by
`stop`, which does not. A run remembers what was detected and completed since the
history was cleared.
-/

namespace OrderbookEngine

open AggregatedOrderBook Transition OrderedMap

/-- `ArbitrageStats::ExchangePairStats`. -/
structure ExchangePairStats (D : Type) where
  buyExchange : Exchange
  sellExchange : Exchange
  count : UInt64
  totalProfit : WithTop D
  avgProfitPercent : WithTop D

/-- `ArbitrageStats`. -/
structure ArbitrageStats (D : Type) where
  totalOpportunities : UInt64
  activeOpportunities : UInt64
  totalPotentialProfit : WithTop D
  averageProfitPercent : WithTop D
  maxProfitPercent : WithTop D
  averageDurationMs : D
  pairStats : List (ExchangePairStats D)

/-- The order in which `std::map` keeps pairs of exchanges. -/
def comparePair : Exchange × Exchange → Exchange × Exchange → Ordering :=
  compareLex (compareOn Prod.fst) (compareOn Prod.snd)

namespace ArbitrageMonitor

variable {β D : Type}

/-- `get_history`. -/
def getHistory (m : ArbitrageMonitor β D) (count : Nat) : List (TrackedArbitrage D) :=
  (List.range (min count m.history.length)).filterMap fun i => m.history[i]?

/-- The active opportunities that `update_active_opportunities` expires. -/
def overdue (m : ArbitrageMonitor β D) (now : UInt64) : List (UInt64 × TrackedArbitrage D) :=
  m.activeOpportunities.toList.filter fun e => timeoutNs < now - e.2.detectionTimeNs

/-- Opportunities put into a history of a size, the last one to the front. -/
def pushAll (size : Nat) (history batch : List (TrackedArbitrage D)) : List (TrackedArbitrage D) :=
  batch.foldl (fun history arb => (arb :: history).take size) history

section Statistics

variable [Field D]

/-- One pass of the first loop over the history in `get_statistics`. -/
def countPair (pairs : Std.TreeMap (Exchange × Exchange) (ExchangePairStats D) comparePair)
    (arb : TrackedArbitrage D) :
    Std.TreeMap (Exchange × Exchange) (ExchangePairStats D) comparePair :=
  let key := (arb.opportunity.buyExchange, arb.opportunity.sellExchange)
  let pair := pairs.getD key ⟨key.1, key.2, 0, 0, 0⟩
  pairs.insert key
    { pair with
      buyExchange := key.1
      sellExchange := key.2
      count := pair.count + 1
      totalProfit := pair.totalProfit + arb.opportunity.profitPercentage }

/-- One pass of the second loop. -/
def averagePair (pair : ExchangePairStats D) : ExchangePairStats D :=
  if pair.count > 0 then
    { pair with avgProfitPercent := pair.totalProfit.map (· / (pair.count.toNat : D)) }
  else pair

/-- `get_statistics`. The counters of the source are words of 64 bits. -/
def getStatistics (m : ArbitrageMonitor β D) : ArbitrageStats D where
  totalOpportunities := m.totalCount.toUInt64
  activeOpportunities := m.activeOpportunities.size.toUInt64
  totalPotentialProfit := m.totalProfit
  averageProfitPercent :=
    if m.totalCount.toUInt64 > 0 then
      m.totalProfit.map (· / (m.totalCount.toUInt64.toNat : D))
    else 0
  maxProfitPercent := m.maxProfitPercent
  averageDurationMs :=
    if m.completedCount.toUInt64 > 0 then
      m.totalDurationMs / (m.completedCount.toUInt64.toNat : D)
    else 0
  pairStats := ((m.history.foldl countPair ∅).toList.map Prod.snd).map averagePair

end Statistics

section Passes

variable {size : Nat} {history batch : List (TrackedArbitrage D)} {m : ArbitrageMonitor β D}
  {now : UInt64}

/-- `get_history` returns the front of the history. -/
theorem getHistory_eq (m : ArbitrageMonitor β D) (count : Nat) :
    m.getHistory count = m.history.take (min count m.history.length) := by
  have hrange : ∀ l : List (TrackedArbitrage D), ∀ n ≤ l.length,
      (List.range n).filterMap (fun i => l[i]?) = l.take n := by
    intro l n
    induction n with
    | zero => exact fun _ => rfl
    | succ n ih =>
      intro hn
      have hlt : n < l.length := hn
      rw [List.range_succ, List.filterMap_append, ih (Nat.le_of_succ_le hn),
        List.take_succ_eq_append_getElem hlt, List.filterMap_cons, List.getElem?_eq_getElem hlt]
      rfl
  exact hrange m.history _ (min_le_right _ _)

/-- Trimming after each push is trimming once. -/
theorem pushAll_eq (h : history.length ≤ size) :
    pushAll size history batch = (batch.reverse ++ history).take size := by
  induction batch generalizing history with
  | nil => exact (List.take_of_length_le h).symm
  | cons arb batch ih =>
    rw [pushAll, List.foldl_cons, ← pushAll, ih (List.length_take_le _ _), List.reverse_cons,
      List.append_assoc, List.take_append, List.take_append, List.take_take]
    congr 2
    omega

/-- What expiring several opportunities does. -/
theorem foldl_expire_eq [Field D] {es : List (UInt64 × TrackedArbitrage D)}
    (hne : es.Pairwise fun e e' => e.1 ≠ e'.1)
    (hat : ∀ e ∈ es, m.activeOpportunities[e.1]? = some e.2) :
    (es.map Prod.fst).foldl (expire now) m =
      { m with
        history := pushAll m.historySize m.history (es.map fun e => expired now e.2)
        totalDurationMs :=
          m.totalDurationMs + (es.map fun e => (expired now e.2).getDurationMs).sum
        completedCount := m.completedCount + es.length
        activeOpportunities :=
          (es.map Prod.fst).foldl (fun active id => active.erase id) m.activeOpportunities } := by
  induction es generalizing m with
  | nil => simp [pushAll]
  | cons e es ih =>
    obtain ⟨hhead, hne⟩ := List.pairwise_cons.mp hne
    have hexpire : expire now m e.1 =
        { m.addToHistory (expired now e.2) with
          totalDurationMs := m.totalDurationMs + (expired now e.2).getDurationMs
          completedCount := m.completedCount + 1
          activeOpportunities := m.activeOpportunities.erase e.1 } := by
      rw [expire, hat e List.mem_cons_self]
    have hrest : ∀ e' ∈ es, (expire now m e.1).activeOpportunities[e'.1]? = some e'.2 := by
      intro e' he'
      rw [activeOpportunities_expire, if_neg (hhead e' he').symm]
      exact hat e' (List.mem_cons_of_mem e he')
    rw [List.map_cons, List.foldl_cons, ih hne hrest, hexpire]
    simp only [addToHistory, pushAll, List.map_cons, List.foldl_cons, List.sum_cons,
      List.length_cons, add_assoc, add_comm 1]

/-- What the pass over the active opportunities does. -/
theorem updateActiveOpportunities_eq [Field D] (m : ArbitrageMonitor β D) (now : UInt64) :
    m.updateActiveOpportunities now =
      { m with
        history := pushAll m.historySize m.history ((m.overdue now).map fun e => expired now e.2)
        totalDurationMs := m.totalDurationMs +
          ((m.overdue now).map fun e => (expired now e.2).getDurationMs).sum
        completedCount := m.completedCount + (m.overdue now).length
        activeOpportunities := ((m.overdue now).map Prod.fst).foldl
          (fun active id => active.erase id) m.activeOpportunities } := by
  refine foldl_expire_eq ((distinct_entries m.activeOpportunities).filter _) fun e he => ?_
  exact mem_entries.mp (List.mem_of_mem_filter he)

/-- The opportunities that stay active are those not overdue. -/
theorem getElem?_updateActiveOpportunities [Field D] (m : ArbitrageMonitor β D) (now id : UInt64) :
    (m.updateActiveOpportunities now).activeOpportunities[id]? =
      if id ∈ (m.overdue now).map Prod.fst then none else m.activeOpportunities[id]? :=
  activeOpportunities_foldl_expire m now _

theorem toList_updateActiveOpportunities_perm [Field D] (m : ArbitrageMonitor β D) (now : UInt64) :
    (m.updateActiveOpportunities now).activeOpportunities.toList.Perm
      (m.activeOpportunities.toList.filter fun e =>
        !decide (timeoutNs < now - e.2.detectionTimeNs)) := by
  refine (List.perm_ext_iff_of_nodup (nodup_entries _)
    ((nodup_entries _).filter _)).mpr fun e => ?_
  have hdue : e.1 ∈ (m.overdue now).map Prod.fst ↔ ∃ arb,
      m.activeOpportunities[e.1]? = some arb ∧ timeoutNs < now - arb.detectionTimeNs :=
    mem_toExpire m now
  rw [mem_entries, getElem?_updateActiveOpportunities, List.mem_filter, mem_entries,
    Bool.not_eq_true', decide_eq_false_iff_not]
  by_cases hid : e.1 ∈ (m.overdue now).map Prod.fst
  · obtain ⟨arb, hat, hage⟩ := hdue.mp hid
    rw [if_pos hid]
    refine iff_of_false nofun fun ⟨hat', hyoung⟩ => ?_
    obtain rfl : arb = e.2 := Option.some.inj (hat.symm.trans hat')
    exact hyoung hage
  · rw [if_neg hid]
    exact ⟨fun hat => ⟨hat, fun hage => hid (hdue.mpr ⟨e.2, hat, hage⟩)⟩, And.left⟩

/-- What the section of `stop` under the mutex does. -/
theorem expireAll_eq (m : ArbitrageMonitor β D) (now : UInt64) :
    m.expireAll now =
      { m with
        history := pushAll m.historySize m.history
          (m.activeOpportunities.toList.map fun e => expired now e.2)
        activeOpportunities := ∅ } := by
  have hfold : ∀ (es : List (UInt64 × TrackedArbitrage D)) (m : ArbitrageMonitor β D),
      es.foldl (fun m e => m.addToHistory (expired now e.2)) m =
        { m with
          history := pushAll m.historySize m.history (es.map fun e => expired now e.2) } := by
    intro es
    induction es with
    | nil => exact fun _ => rfl
    | cons e es ih => exact fun m => ih _
  rw [expireAll, hfold]

end Passes

end ArbitrageMonitor

/-- A monitor, the clock, and what happened since the history was cleared: the number of
detections, which active opportunities come from them, and the completed ones, with whether
they do, latest first. -/
structure MonitorRun (β D : Type) where
  monitor : ArbitrageMonitor β D
  clock : UInt64
  detected : Nat
  recent : UInt64 → Bool
  completed : List (Bool × TrackedArbitrage D)

namespace MonitorRun

open ArbitrageMonitor

/-- The passing of time and the calls. -/
inductive Event (D : Type) where
  | tick (clock : UInt64)
  | detect (opportunity : ArbitrageOpportunity D)
  | start
  | stop
  | clearHistory
  | getStatistics

variable {β D : Type}

/-- Time does not go back. -/
def Enabled (s : MonitorRun β D) : Event D → Prop
  | .tick clock => s.clock ≤ clock
  | _ => True

instance (s : MonitorRun β D) : (e : Event D) → Decidable (s.Enabled e)
  | .tick clock => inferInstanceAs (Decidable (s.clock ≤ clock))
  | .detect _ | .start | .stop | .clearHistory | .getStatistics => isTrue trivial

/-- A monitor without calls so far. -/
def construct [Field D] (β : Type) (minProfitPercent : D) (historySize : Nat) (clock : UInt64) :
    MonitorRun β D where
  monitor := ArbitrageMonitor.construct β minProfitPercent historySize
  clock := clock
  detected := 0
  recent := fun _ => false
  completed := []

/-- Completed opportunities, with whether they were detected since the last clear. -/
def completions (s : MonitorRun β D) (es : List (UInt64 × TrackedArbitrage D)) :
    List (Bool × TrackedArbitrage D) :=
  es.map fun e => (s.recent e.1, expired s.clock e.2)

/-- The run after the first section of a detection. -/
def draw [Field D] [LinearOrder D] (s : MonitorRun β D) (opportunity : ArbitrageOpportunity D) :
    MonitorRun β D :=
  { s with
    monitor := s.monitor.track opportunity s.clock
    detected := s.detected + 1
    recent := Function.update s.recent s.monitor.nextId true }

/-- The run after the pass over the active opportunities. -/
def sweep [Field D] (s : MonitorRun β D) : MonitorRun β D :=
  { s with
    monitor := s.monitor.updateActiveOpportunities s.clock
    completed := s.completions (s.monitor.overdue s.clock) ++ s.completed }

/-- The run after `stop` of a running monitor. -/
def halt (s : MonitorRun β D) : MonitorRun β D :=
  { s with
    monitor := { s.monitor with running := false }.expireAll s.clock
    completed := s.completions s.monitor.activeOpportunities.toList ++ s.completed }

/-- The run after `clear_history`. -/
def clear [Field D] (s : MonitorRun β D) : MonitorRun β D :=
  { s with
    monitor := s.monitor.clearHistory
    detected := 0
    recent := fun _ => false
    completed := [] }

variable [Field D] [LinearOrder D]

/-- The state that a call leaves; the alert callback leaves the monitor alone. -/
def next (s : MonitorRun β D) : Event D → MonitorRun β D
  | .tick clock => { s with clock := clock }
  | .detect opportunity => if s.monitor.accepts opportunity then (s.draw opportunity).sweep else s
  | .start => { s with monitor := s.monitor.start }
  | .stop => if s.monitor.running then s.halt else s
  | .clearHistory => s.clear
  | .getStatistics => s

/-- One call, or the passing of time. -/
def Step (s : MonitorRun β D) (e : Event D) (t : MonitorRun β D) : Prop :=
  s.Enabled e ∧ t = s.next e

/-- The monitor of a run takes the calls as `ArbitrageMonitor` does. -/
theorem monitor_next (s : MonitorRun β D) (e : Event D) :
    (s.next e).monitor =
      match e with
      | .tick _ | .getStatistics => s.monitor
      | .detect opportunity => s.monitor.onArbitrageDetected opportunity s.clock
      | .start => s.monitor.start
      | .stop => s.monitor.stop s.clock
      | .clearHistory => s.monitor.clearHistory := by
  cases e with
  | detect opportunity =>
    simp only [next, onArbitrageDetected]
    split <;> rfl
  | stop =>
    simp only [next, ArbitrageMonitor.stop]
    split <;> rfl
  | _ => rfl

end MonitorRun

end OrderbookEngine
