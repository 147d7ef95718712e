import OrderbookEngine.Trading.MonitorRuns

/-!
# The form of the arbitrage history

Both ways out of the active opportunities push a batch with the present time to the
front of the history and trim its back, so the history stays sorted by expiry and within
its size. Identifiers stay distinct as long as a detection draws one that is not in use.
-/

namespace OrderbookEngine

open AggregatedOrderBook Transition OrderedMap

namespace ArbitrageMonitor

variable {β D : Type}

/-- A history of ended opportunities, the last to expire in front, and active opportunities
under their own identifiers. -/
structure WellFormed (historySize : Nat) (m : ArbitrageMonitor β D) : Prop where
  length_le : m.history.length ≤ historySize
  sorted : m.history.Pairwise fun newer older => older.expiryTimeNs ≤ newer.expiryTimeNs
  ended : ∀ arb ∈ m.history, arb.isActive = false ∧ arb.detectionTimeNs ≤ arb.expiryTimeNs
  active : ∀ (id : UInt64) arb, m.activeOpportunities[id]? = some arb →
    arb.id = id ∧ arb.isActive = true ∧ arb.expiryTimeNs = 0
  getHistory : ∀ count, m.getHistory count = m.history.take (min count m.history.length)

/-- The identifiers of the active opportunities and of those of the history. -/
def liveIds (m : ArbitrageMonitor β D) : List UInt64 :=
  m.activeOpportunities.toList.map (fun e => e.2.id) ++ m.history.map (·.id)

section Push

variable {size : Nat} {history batch : List (TrackedArbitrage D)}

/-- A push keeps the order, and drops entries at most. -/
theorem pushAll_sublist (h : history.length ≤ size) :
    (pushAll size history batch).Sublist (batch.reverse ++ history) := by
  rw [pushAll_eq h]
  exact List.take_sublist _ _

theorem mem_pushAll (h : history.length ≤ size) {arb : TrackedArbitrage D}
    (hmem : arb ∈ pushAll size history batch) : arb ∈ batch ∨ arb ∈ history := by
  have hmem := (pushAll_sublist h).subset hmem
  rwa [List.mem_append, List.mem_reverse] at hmem

theorem length_pushAll_le (h : history.length ≤ size) :
    (pushAll size history batch).length ≤ size := by
  rw [pushAll_eq h]
  exact List.length_take_le _ _

end Push

/-- What every run keeps of the form of the history. -/
structure FormInv (historySize : Nat) (clock : UInt64) (m : ArbitrageMonitor β D) : Prop where
  form : m.WellFormed historySize
  size_eq : m.historySize = historySize
  detected : ∀ (id : UInt64) arb, m.activeOpportunities[id]? = some arb →
    arb.detectionTimeNs ≤ clock
  past : ∀ arb ∈ m.history, arb.expiryTimeNs ≤ clock

/-- The identifiers of the history are distinct, and none is active. -/
structure Distinct (m : ArbitrageMonitor β D) : Prop where
  nodup : (m.history.map (·.id)).Nodup
  apart : ∀ arb ∈ m.history, m.activeOpportunities[arb.id]? = none

section Complete

variable {historySize : Nat} {clock : UInt64} {m m' : ArbitrageMonitor β D}
  {es : List (UInt64 × TrackedArbitrage D)}

/-- Completing some of the active opportunities keeps the form. -/
theorem FormInv.complete (h : FormInv historySize clock m)
    (hes : ∀ e ∈ es, m.activeOpportunities[e.1]? = some e.2) (hsize : m'.historySize = historySize)
    (hhistory : m'.history = pushAll historySize m.history (es.map fun e => expired clock e.2))
    (hactive : ∀ (id : UInt64) arb, m'.activeOpportunities[id]? = some arb →
      m.activeOpportunities[id]? = some arb) : FormInv historySize clock m' := by
  have hlen := h.form.length_le
  have hbatch : ∀ arb ∈ es.map (fun e => expired clock e.2),
      arb.expiryTimeNs = clock ∧ arb.isActive = false ∧ arb.detectionTimeNs ≤ clock := by
    intro arb harb
    obtain ⟨e, he, rfl⟩ := List.mem_map.mp harb
    exact ⟨rfl, rfl, h.detected e.1 e.2 (hes e he)⟩
  refine ⟨⟨?_, ?_, ?_, fun id arb hat => h.form.active id arb (hactive id arb hat),
    getHistory_eq m'⟩, hsize, fun id arb hat => h.detected id arb (hactive id arb hat), ?_⟩
  · rw [hhistory]
    exact length_pushAll_le hlen
  · rw [hhistory]
    refine List.Pairwise.sublist (pushAll_sublist hlen) (List.pairwise_append.mpr ⟨?_, ?_, ?_⟩)
    · rw [List.pairwise_reverse]
      refine List.pairwise_of_forall_mem_list fun arb harb arb' harb' => ?_
      rw [(hbatch arb harb).1, (hbatch arb' harb').1]
      exact UInt64.le_refl _
    · exact h.form.sorted
    · intro newer hnewer older holder
      rw [(hbatch newer (List.mem_reverse.mp hnewer)).1]
      exact h.past older holder
  · intro arb harb
    rw [hhistory] at harb
    rcases mem_pushAll hlen harb with harb | harb
    · obtain ⟨hexpiry, hended, hdetected⟩ := hbatch arb harb
      exact ⟨hended, hexpiry ▸ hdetected⟩
    · exact h.form.ended arb harb
  · intro arb harb
    rw [hhistory] at harb
    rcases mem_pushAll hlen harb with harb | harb
    · rw [(hbatch arb harb).1]
      exact UInt64.le_refl _
    · exact h.past arb harb

/-- The flag that `start` and `stop` set has no part in the form. -/
theorem FormInv.setRunning (h : FormInv historySize clock m) (running : Bool) :
    FormInv historySize clock { m with running := running } :=
  ⟨⟨h.form.length_le, h.form.sorted, h.form.ended, h.form.active, getHistory_eq _⟩, h.size_eq,
    h.detected, h.past⟩

/-- Completing active opportunities, which are no longer active then, keeps identifiers
distinct. -/
theorem Distinct.complete (h : Distinct m) (hform : FormInv historySize clock m)
    (hne : es.Pairwise fun e e' => e.1 ≠ e'.1)
    (hes : ∀ e ∈ es, m.activeOpportunities[e.1]? = some e.2)
    (hhistory : m'.history = pushAll historySize m.history (es.map fun e => expired clock e.2))
    (hactive : ∀ id : UInt64, m.activeOpportunities[id]? = none →
      m'.activeOpportunities[id]? = none)
    (hgone : ∀ e ∈ es, m'.activeOpportunities[e.1]? = none) : Distinct m' := by
  have hlen := hform.form.length_le
  have hid : ∀ e ∈ es, e.2.id = e.1 := fun e he => (hform.form.active e.1 e.2 (hes e he)).1
  constructor
  · rw [hhistory]
    refine ((pushAll_sublist hlen).map _).nodup ?_
    rw [List.map_append, List.map_reverse, List.map_map, List.nodup_append, List.nodup_reverse]
    refine ⟨?_, h.nodup, ?_⟩
    · refine List.pairwise_map.mpr (hne.imp_of_mem fun {e e'} he he' hne => ?_)
      show e.2.id ≠ e'.2.id
      rwa [hid e he, hid e' he']
    · intro id hbatch id' hold heq
      obtain ⟨e, he, rfl⟩ := List.mem_map.mp (List.mem_reverse.mp hbatch)
      obtain ⟨arb, harb, rfl⟩ := List.mem_map.mp hold
      have hnone := h.apart arb harb
      rw [← heq, show ((fun arb : TrackedArbitrage D => arb.id) ∘ fun e => expired clock e.2) e =
        e.2.id from rfl, hid e he, hes e he] at hnone
      cases hnone
  · intro arb harb
    rw [hhistory] at harb
    rcases mem_pushAll hlen harb with harb | harb
    · obtain ⟨e, he, rfl⟩ := List.mem_map.mp harb
      show m'.activeOpportunities[e.2.id]? = none
      rw [hid e he]
      exact hgone e he
    · exact hactive arb.id (h.apart arb harb)

/-- Distinct identifiers of the history and distinct keys make all identifiers distinct. -/
theorem Distinct.nodup_liveIds (h : Distinct m) (hform : FormInv historySize clock m) :
    m.liveIds.Nodup := by
  have hid : ∀ e ∈ m.activeOpportunities.toList, e.2.id = e.1 :=
    fun e he => (hform.form.active e.1 e.2 (mem_entries.mp he)).1
  refine List.nodup_append.mpr ⟨?_, h.nodup, fun id hactive id' hold heq => ?_⟩
  · refine List.pairwise_map.mpr ((distinct_entries m.activeOpportunities).imp_of_mem ?_)
    intro e e' he he' hne
    rwa [hid e he, hid e' he']
  · obtain ⟨e, he, rfl⟩ := List.mem_map.mp hactive
    obtain ⟨arb, harb, rfl⟩ := List.mem_map.mp hold
    have hnone := h.apart arb harb
    rw [← heq, hid e he, mem_entries.mp he] at hnone
    cases hnone

end Complete

section Calls

variable {historySize : Nat} {clock : UInt64} {m : ArbitrageMonitor β D}

theorem overdue_active (m : ArbitrageMonitor β D) (clock : UInt64) :
    ∀ e ∈ m.overdue clock, m.activeOpportunities[e.1]? = some e.2 :=
  fun _ he => mem_entries.mp (List.mem_of_mem_filter he)

theorem history_updateActiveOpportunities [Field D] (h : m.historySize = historySize)
    (clock : UInt64) : (m.updateActiveOpportunities clock).history =
      pushAll historySize m.history ((m.overdue clock).map fun e => expired clock e.2) := by
  rw [updateActiveOpportunities_eq, h]

theorem history_expireAll (h : m.historySize = historySize) (clock : UInt64) :
    (m.expireAll clock).history = pushAll historySize m.history
      (m.activeOpportunities.toList.map fun e => expired clock e.2) := by
  rw [expireAll_eq, h]

theorem getElem?_expireAll (m : ArbitrageMonitor β D) (clock id : UInt64) :
    (m.expireAll clock).activeOpportunities[id]? = none :=
  Std.TreeMap.getElem?_emptyc

theorem mem_liveIds {id : UInt64} : id ∈ m.liveIds ↔
    (∃ key : UInt64, ∃ arb, m.activeOpportunities[key]? = some arb ∧ arb.id = id) ∨
      ∃ arb ∈ m.history, arb.id = id := by
  simp only [liveIds, List.mem_append, List.mem_map, Prod.exists, mem_entries]

theorem FormInv.updateActiveOpportunities [Field D] (h : FormInv historySize clock m) :
    FormInv historySize clock (m.updateActiveOpportunities clock) := by
  refine h.complete (overdue_active m clock) ?_ (history_updateActiveOpportunities h.size_eq clock)
    fun id arb hat => ?_
  · rw [updateActiveOpportunities_eq]
    exact h.size_eq
  · rw [getElem?_updateActiveOpportunities] at hat
    split at hat
    · cases hat
    · exact hat

theorem FormInv.expireAll (h : FormInv historySize clock m) :
    FormInv historySize clock (m.expireAll clock) := by
  refine h.complete (fun _ he => mem_entries.mp he) ?_ (history_expireAll h.size_eq clock)
    fun id arb hat => ?_
  · rw [expireAll_eq]
    exact h.size_eq
  · rw [getElem?_expireAll] at hat
    cases hat

theorem Distinct.updateActiveOpportunities [Field D] (h : Distinct m)
    (hform : FormInv historySize clock m) : Distinct (m.updateActiveOpportunities clock) := by
  refine h.complete hform ((distinct_entries m.activeOpportunities).filter _)
    (overdue_active m clock) (history_updateActiveOpportunities hform.size_eq clock)
    (fun id hnone => ?_) fun e he => ?_
  · rw [getElem?_updateActiveOpportunities, hnone, ite_self]
  · rw [getElem?_updateActiveOpportunities]
    exact if_pos (List.mem_map_of_mem he)

theorem Distinct.expireAll (h : Distinct m) (hform : FormInv historySize clock m) :
    Distinct (m.expireAll clock) :=
  h.complete hform (distinct_entries m.activeOpportunities) (fun _ he => mem_entries.mp he)
    (history_expireAll hform.size_eq clock) (fun id _ => getElem?_expireAll m clock id)
    fun e _ => getElem?_expireAll m clock e.1

variable [Field D] [LinearOrder D]

theorem getElem?_track (m : ArbitrageMonitor β D) (opportunity : ArbitrageOpportunity D)
    (now id : UInt64) : (m.track opportunity now).activeOpportunities[id]? =
      if m.nextId = id then some (m.tracked opportunity now) else m.activeOpportunities[id]? := by
  show (m.activeOpportunities.insert m.nextId (m.tracked opportunity now))[id]? = _
  simp only [Std.TreeMap.getElem?_insert, Std.compare_eq_iff_eq]

theorem FormInv.track (h : FormInv historySize clock m) (opportunity : ArbitrageOpportunity D) :
    FormInv historySize clock (m.track opportunity clock) := by
  refine ⟨⟨h.form.length_le, h.form.sorted, h.form.ended, fun id arb hat => ?_, getHistory_eq _⟩,
    h.size_eq, fun id arb hat => ?_, h.past⟩
  · rw [getElem?_track] at hat
    split at hat
    · rename_i heq
      cases hat
      exact ⟨heq, rfl, rfl⟩
    · exact h.form.active id arb hat
  · rw [getElem?_track] at hat
    split at hat
    · cases hat
      exact UInt64.le_refl _
    · exact h.detected id arb hat

theorem Distinct.track (h : Distinct m) (hfresh : m.nextId ∉ m.liveIds)
    (opportunity : ArbitrageOpportunity D) (now : UInt64) :
    Distinct (m.track opportunity now) := by
  refine ⟨h.nodup, fun arb harb => ?_⟩
  have hne : m.nextId ≠ arb.id := by
    rintro heq
    exact hfresh (List.mem_append_right _ (heq ▸ List.mem_map_of_mem harb))
  rw [getElem?_track, if_neg hne]
  exact h.apart arb harb

end Calls

end ArbitrageMonitor

namespace MonitorRun

open ArbitrageMonitor

variable {β D : Type} [Field D] [LinearOrder D]

section Steps

variable {historySize : Nat} {s : MonitorRun β D}

/-- Every call keeps the form of the history. -/
theorem formInv_next (h : FormInv historySize s.clock s.monitor) {e : Event D}
    (henabled : s.Enabled e) :
    FormInv historySize (s.next e).clock (s.next e).monitor := by
  cases e with
  | tick clock =>
    have hle : s.clock ≤ clock := henabled
    exact ⟨h.form, h.size_eq, fun id arb hat => UInt64.le_trans (h.detected id arb hat) hle,
      fun arb harb => UInt64.le_trans (h.past arb harb) hle⟩
  | detect opportunity =>
    simp only [MonitorRun.next]
    split
    · exact (h.track opportunity).updateActiveOpportunities
    · exact h
  | start => exact h.setRunning true
  | stop =>
    simp only [MonitorRun.next]
    split
    · exact (h.setRunning false).expireAll
    · exact h
  | clearHistory =>
    refine ⟨⟨Nat.zero_le _, List.Pairwise.nil, ?_, h.form.active, getHistory_eq _⟩, h.size_eq,
      h.detected, ?_⟩
    · exact fun _ harb => absurd harb List.not_mem_nil
    · exact fun _ harb => absurd harb List.not_mem_nil
  | getStatistics => exact h

/-- When the next identifier is not in use, each call keeps identifiers distinct. -/
theorem distinct_next (h : Distinct s.monitor) (hform : FormInv historySize s.clock s.monitor)
    (hfresh : s.monitor.nextId ∉ s.monitor.liveIds) (e : Event D) :
    Distinct (s.next e).monitor := by
  cases e with
  | tick | getStatistics => exact h
  | detect opportunity =>
    simp only [MonitorRun.next]
    split
    · exact (h.track hfresh opportunity s.clock).updateActiveOpportunities
        (hform.track opportunity)
    · exact h
  | start => exact ⟨h.nodup, h.apart⟩
  | stop =>
    simp only [MonitorRun.next]
    split
    · have hidle : Distinct { s.monitor with running := false } := ⟨h.nodup, h.apart⟩
      exact hidle.expireAll (hform.setRunning false)
    · exact h
  | clearHistory => exact ⟨List.nodup_nil, fun _ harb => absurd harb List.not_mem_nil⟩

end Steps

section Runs

variable {minProfitPercent : D} {historySize : Nat} {clock : UInt64}

omit [LinearOrder D] in
theorem formInv_construct :
    FormInv historySize clock (ArbitrageMonitor.construct β minProfitPercent historySize) where
  form := ⟨Nat.zero_le _, List.Pairwise.nil, fun _ harb => absurd harb List.not_mem_nil,
    fun id arb hat => by simp [ArbitrageMonitor.construct] at hat, getHistory_eq _⟩
  size_eq := rfl
  detected id arb hat := by simp [ArbitrageMonitor.construct] at hat
  past _ harb := absurd harb List.not_mem_nil

omit [LinearOrder D] in
theorem distinct_construct :
    Distinct (ArbitrageMonitor.construct β minProfitPercent historySize) :=
  ⟨List.nodup_nil, fun _ harb => absurd harb List.not_mem_nil⟩

/-- In every run the history is well formed in every state. -/
theorem wellFormed_throughout {tr : List (Event D × MonitorRun β D)}
    (hrun : IsRun Step (construct β minProfitPercent historySize clock) tr) :
    Throughout (fun s => s.monitor.WellFormed historySize)
      (construct β minProfitPercent historySize clock) tr := by
  have hform : Throughout (fun s => FormInv historySize s.clock s.monitor)
      (construct β minProfitPercent historySize clock) tr := by
    refine hrun.throughout _ (fun s e t hs hstep => ?_) formInv_construct
    obtain ⟨henabled, rfl⟩ := hstep
    exact formInv_next hs henabled
  exact hform.mono fun s hs => hs.form

end Runs

end MonitorRun

end OrderbookEngine
