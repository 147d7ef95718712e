import OrderbookEngine.Library.DrawnNumbers
import OrderbookEngine.Trading.HistoryForm
import OrderbookEngine.Trading.OpportunityLifetimes

/-!
# The identifiers of the arbitrage history

The opportunities expire in the order of their detection, so the active ones are the last
that were detected, and in front of an opportunity of the history lie those that came after
it. What the two containers hold bounds how many identifiers were drawn since any in use, so
the counter never comes round to one.
-/

namespace OrderbookEngine

open AggregatedOrderBook Transition OrderedMap DrawnNumbers

namespace ArbitrageMonitor

variable {β D : Type}

/-- The active opportunities are the last `n` that were detected, the older ones earlier. -/
structure Window (n : Nat) (m : ArbitrageMonitor β D) : Prop where
  small : n < 2 ^ 64
  active : ∀ id : UInt64, (∃ arb, m.activeOpportunities[id]? = some arb) ↔
    1 ≤ age m.nextId id ∧ age m.nextId id ≤ n
  ordered : ∀ (id id' : UInt64) arb arb', m.activeOpportunities[id]? = some arb →
    m.activeOpportunities[id']? = some arb' → age m.nextId id ≤ age m.nextId id' →
      arb'.detectionTimeNs ≤ arb.detectionTimeNs

/-- An opportunity of the history is older than the `n` active ones and those in front of it by
no more than the `batch` that it came with. -/
def Follows (n batch : Nat) (m : ArbitrageMonitor β D) : Prop :=
  ∀ (i : Nat) arb, m.history[i]? = some arb →
    1 ≤ age m.nextId arb.id ∧ age m.nextId arb.id ≤ n + i + batch

section Calls

variable {historySize n batch : Nat} {clock : UInt64} {m m' : ArbitrageMonitor β D}

/-- There are as many active opportunities. -/
theorem Window.le_size (h : m.Window n) : n ≤ m.activeOpportunities.size := by
  have hall : ∀ id : UInt64, 0 < age m.nextId id → age m.nextId id ≤ n →
      id ∈ m.activeOpportunities.toList.map Prod.fst := by
    intro id hlow hhigh
    obtain ⟨arb, hat⟩ := (h.active id).mpr ⟨hlow, hhigh⟩
    exact List.mem_map_of_mem (mem_entries.mpr hat)
  have hlength := le_add_length h.small hall
  rwa [List.length_map, Std.TreeMap.length_toList, Nat.zero_add] at hlength

/-- The counter is at no identifier in use. -/
theorem Window.fresh (h : m.Window n) (hfollows : m.Follows n batch)
    (hform : FormInv historySize clock m) : m.nextId ∉ m.liveIds := by
  have hzero : age m.nextId m.nextId = 0 := age_eq_zero_iff.mpr rfl
  rw [mem_liveIds]
  rintro (⟨id, arb, hat, heq⟩ | ⟨arb, harb, heq⟩)
  · have hid := (hform.form.active id arb hat).1
    have hage := ((h.active id).mp ⟨arb, hat⟩).1
    rw [← hid, heq] at hage
    omega
  · obtain ⟨i, hget⟩ := List.mem_iff_getElem?.mp harb
    have hage := (hfollows i arb hget).1
    rw [heq] at hage
    omega

/-- Completed opportunities are put in front of the history. -/
theorem Follows.complete (h : m.Follows n batch) (hwindow : m.Window n)
    (hform : FormInv historySize clock m) {es : List (UInt64 × TrackedArbitrage D)} {n' : Nat}
    (hnext : m'.nextId = m.nextId)
    (hhistory : m'.history = pushAll historySize m.history (es.map fun e => expired clock e.2))
    (hes : ∀ e ∈ es, m.activeOpportunities[e.1]? = some e.2) (hbatch : n ≤ batch)
    (hcount : n ≤ n' + es.length) : m'.Follows n' batch := by
  intro i arb hget
  rw [hhistory, pushAll_eq hform.form.length_le, List.getElem?_take] at hget
  rw [hnext]
  split at hget
  · rw [List.getElem?_append, List.length_reverse, List.length_map] at hget
    split at hget
    · have hmem := List.mem_reverse.mp (List.mem_of_getElem? hget)
      obtain ⟨e, he, rfl⟩ := List.mem_map.mp hmem
      have hid := (hform.form.active e.1 e.2 (hes e he)).1
      have hage := (hwindow.active e.1).mp ⟨e.2, hes e he⟩
      change 1 ≤ age m.nextId e.2.id ∧ age m.nextId e.2.id ≤ n' + i + batch
      rw [hid]
      omega
    · have hage := h (i - es.length) arb hget
      omega
  · cases hget

/-- When all opportunities expire, none is active. -/
theorem window_expireAll (m : ArbitrageMonitor β D) (clock : UInt64) :
    (m.expireAll clock).Window 0 where
  small := Nat.two_pow_pos 64
  active id := by
    rw [getElem?_expireAll]
    refine iff_of_false (fun ⟨arb, hat⟩ => ?_) (by omega)
    cases hat
  ordered id id' arb arb' hat := by
    rw [getElem?_expireAll] at hat
    cases hat

theorem Follows.expireAll (h : m.Follows n batch) (hwindow : m.Window n)
    (hform : FormInv historySize clock m) (hbatch : n ≤ batch) :
    (m.expireAll clock).Follows 0 batch := by
  refine h.complete hwindow hform ?_ (history_expireAll hform.size_eq clock)
    (fun _ he => mem_entries.mp he) hbatch ?_
  · rw [expireAll_eq]
  · rw [Nat.zero_add, Std.TreeMap.length_toList]
    exact hwindow.le_size

/-- The pass over the active opportunities completes the oldest ones. -/
theorem Window.updateActiveOpportunities [Field D] (h : m.Window n)
    (hform : FormInv historySize clock m) :
    ∃ n', (m.updateActiveOpportunities clock).Window n' ∧ n ≤ n' + (m.overdue clock).length := by
  have hnext : (m.updateActiveOpportunities clock).nextId = m.nextId := by
    rw [updateActiveOpportunities_eq]
  have hdue : ∀ id : UInt64, id ∈ (m.overdue clock).map Prod.fst ↔ ∃ arb,
      m.activeOpportunities[id]? = some arb ∧ timeoutNs < clock - arb.detectionTimeNs :=
    fun id => mem_toExpire m clock
  -- an older opportunity was detected earlier
  obtain ⟨n', hle, hiff⟩ := exists_threshold
    (P := fun k => ∃ id ∈ (m.overdue clock).map Prod.fst, age m.nextId id = k) (n := n) (by
      rintro j k hj hjk hk ⟨id, hid, rfl⟩
      obtain ⟨arb, hat, hage⟩ := (hdue id).mp hid
      obtain ⟨id', rfl⟩ := exists_age m.nextId (show k < 2 ^ 64 by have := h.small; omega)
      obtain ⟨arb', hat'⟩ := (h.active id').mpr ⟨by omega, hk⟩
      refine ⟨id', (hdue id').mpr ⟨arb', hat', ?_⟩, rfl⟩
      have hearlier := UInt64.le_iff_toNat_le.mp (h.ordered id id' arb arb' hat hat' hjk)
      rw [UInt64.lt_iff_toNat_lt, UInt64.toNat_sub_of_le _ _ (hform.detected id arb hat)] at hage
      rw [UInt64.lt_iff_toNat_lt, UInt64.toNat_sub_of_le _ _ (hform.detected id' arb' hat')]
      omega)
  have hold : ∀ id : UInt64, 1 ≤ age m.nextId id → age m.nextId id ≤ n →
      (id ∈ (m.overdue clock).map Prod.fst ↔ n' < age m.nextId id) := by
    intro id hlow hhigh
    rw [← hiff _ hlow hhigh]
    refine ⟨fun hid => ⟨id, hid, rfl⟩, fun ⟨id', hid', heq⟩ => ?_⟩
    rwa [age_injective m.nextId heq] at hid'
  refine ⟨n', ⟨hle.trans_lt h.small, fun id => ?_, fun id id' arb arb' hat hat' => ?_⟩, ?_⟩
  · rw [hnext, getElem?_updateActiveOpportunities]
    split
    · rename_i hid
      obtain ⟨arb, hat, -⟩ := (hdue id).mp hid
      obtain ⟨hlow, hhigh⟩ := (h.active id).mp ⟨arb, hat⟩
      have hgone := (hold id hlow hhigh).mp hid
      refine iff_of_false (fun ⟨arb, hnone⟩ => ?_) (by omega)
      cases hnone
    · rename_i hid
      rw [h.active id]
      refine ⟨fun ⟨hlow, hhigh⟩ => ⟨hlow, ?_⟩, fun ⟨hlow, hhigh⟩ => ⟨hlow, hhigh.trans hle⟩⟩
      have hkept := (hold id hlow hhigh).not.mp hid
      omega
  · rw [getElem?_updateActiveOpportunities] at hat hat'
    split at hat
    · cases hat
    · split at hat'
      · cases hat'
      · rw [hnext]
        exact h.ordered id id' arb arb' hat hat'
  · have hlength := le_add_length h.small fun id hlow hhigh =>
      (hold id (by omega) hhigh).mpr hlow
    rwa [List.length_map] at hlength

variable [Field D] [LinearOrder D]

/-- A detection makes the others one older. -/
theorem Window.track (h : m.Window n) (hform : FormInv historySize clock m)
    (hroom : n + 1 < 2 ^ 64) (opportunity : ArbitrageOpportunity D) :
    (m.track opportunity clock).Window (n + 1) where
  small := hroom
  active id := by
    change (∃ arb, (m.track opportunity clock).activeOpportunities[id]? = some arb) ↔
      1 ≤ age (m.nextId + 1) id ∧ age (m.nextId + 1) id ≤ n + 1
    have hlt := age_lt m.nextId id
    rw [getElem?_track, age_succ]
    split
    · rename_i hid
      have hzero := age_eq_zero_iff.mpr hid.symm
      exact iff_of_true ⟨_, rfl⟩ (by omega)
    · rename_i hid
      have hpos : age m.nextId id ≠ 0 := fun hzero => hid (age_eq_zero_iff.mp hzero).symm
      rw [h.active id]
      omega
  ordered id id' arb arb' hat hat' hage := by
    change age (m.nextId + 1) id ≤ age (m.nextId + 1) id' at hage
    rw [getElem?_track] at hat hat'
    split at hat
    · cases hat
      split at hat'
      · cases hat'
        exact UInt64.le_refl _
      · exact hform.detected id' arb' hat'
    · rename_i hne
      have hid := (h.active id).mp ⟨arb, hat⟩
      split at hat'
      · rename_i hid'
        have hzero := age_eq_zero_iff.mpr hid'.symm
        rw [age_succ, age_succ] at hage
        omega
      · have hid' := (h.active id').mp ⟨arb', hat'⟩
        refine h.ordered id id' arb arb' hat hat' ?_
        rw [age_succ, age_succ] at hage
        omega

theorem Follows.track (h : m.Follows n batch)
    (hroom : n + m.history.length + batch < 2 ^ 64) (opportunity : ArbitrageOpportunity D)
    (now : UInt64) : (m.track opportunity now).Follows (n + 1) batch := by
  intro i arb hget
  have hlength := (List.getElem?_eq_some_iff.mp hget).1
  have hage := h i arb hget
  change 1 ≤ age (m.nextId + 1) arb.id ∧ age (m.nextId + 1) arb.id ≤ n + 1 + i + batch
  change i < m.history.length at hlength
  rw [age_succ]
  omega

end Calls

end ArbitrageMonitor

namespace MonitorRun

open ArbitrageMonitor

variable {β D : Type} [Field D] [LinearOrder D]

/-- More entries than any of the containers holds: an entry is larger than its identifier, and
an address has 64 bits. -/
def maxEntries : Nat := 2 ^ 61

/-- The containers are within their `max_size`. -/
structure Fits (s : MonitorRun β D) : Prop where
  active : s.monitor.activeOpportunities.size ≤ maxEntries
  history : s.monitor.history.length ≤ maxEntries

omit [Field D] [LinearOrder D] in
theorem fits_iff {s : MonitorRun β D} : s.Fits ↔ s.monitor.activeOpportunities.size ≤ maxEntries ∧
    s.monitor.history.length ≤ maxEntries :=
  ⟨fun h => ⟨h.active, h.history⟩, fun h => ⟨h.1, h.2⟩⟩

instance (s : MonitorRun β D) : Decidable s.Fits := decidable_of_iff' _ fits_iff

/-- The identifiers in use are the last ones drawn. -/
def Recent (s : MonitorRun β D) : Prop :=
  ∃ n, s.monitor.Window n ∧ s.monitor.Follows n (maxEntries + 1)

section Steps

variable {historySize : Nat} {s : MonitorRun β D}

omit [Field D] [LinearOrder D] in
theorem Recent.fresh (h : s.Recent) (hform : FormInv historySize s.clock s.monitor) :
    s.monitor.nextId ∉ s.monitor.liveIds := by
  obtain ⟨n, hwindow, hfollows⟩ := h
  exact hwindow.fresh hfollows hform

/-- A detection draws an identifier, and then some of the active opportunities expire. -/
theorem Recent.detect (h : s.Recent) (hform : FormInv historySize s.clock s.monitor)
    (hfits : s.Fits) (opportunity : ArbitrageOpportunity D) :
    (s.draw opportunity).sweep.Recent := by
  obtain ⟨n, hwindow, hfollows⟩ := h
  have hsize := hwindow.le_size.trans hfits.active
  have hlength := hfits.history
  rw [maxEntries] at hsize hlength
  have htrack := hform.track opportunity
  have hwindow' := hwindow.track hform (by omega) opportunity
  have hfollows' := hfollows.track (by rw [maxEntries]; omega) opportunity s.clock
  obtain ⟨n', hswept, hcount⟩ := hwindow'.updateActiveOpportunities htrack
  refine ⟨n', hswept, hfollows'.complete hwindow' htrack ?_
    (history_updateActiveOpportunities htrack.size_eq s.clock) (overdue_active _ s.clock)
    (by rw [maxEntries]; omega) hcount⟩
  change ((s.monitor.track opportunity s.clock).updateActiveOpportunities s.clock).nextId = _
  rw [updateActiveOpportunities_eq]

omit [Field D] [LinearOrder D] in
theorem Recent.halt (h : s.Recent) (hform : FormInv historySize s.clock s.monitor)
    (hfits : s.Fits) : s.halt.Recent := by
  obtain ⟨n, hwindow, hfollows⟩ := h
  have hidle : ({ s.monitor with running := false } : ArbitrageMonitor β D).Window n :=
    ⟨hwindow.small, hwindow.active, hwindow.ordered⟩
  have hfollows' : ({ s.monitor with running := false } : ArbitrageMonitor β D).Follows n
      (maxEntries + 1) := hfollows
  exact ⟨0, window_expireAll _ s.clock, hfollows'.expireAll hidle (hform.setRunning false)
    ((hwindow.le_size.trans hfits.active).trans (Nat.le_succ _))⟩

theorem Recent.next (h : s.Recent) (hform : FormInv historySize s.clock s.monitor)
    (hfits : s.Fits) (e : Event D) : (s.next e).Recent := by
  cases e with
  | tick | getStatistics => exact h
  | detect opportunity =>
    simp only [MonitorRun.next]
    split
    · exact h.detect hform hfits opportunity
    · exact h
  | start =>
    obtain ⟨n, hwindow, hfollows⟩ := h
    exact ⟨n, ⟨hwindow.small, hwindow.active, hwindow.ordered⟩, hfollows⟩
  | stop =>
    simp only [MonitorRun.next]
    split
    · exact h.halt hform hfits
    · exact h
  | clearHistory =>
    obtain ⟨n, hwindow, -⟩ := h
    refine ⟨n, ⟨hwindow.small, hwindow.active, hwindow.ordered⟩, fun i arb hget => ?_⟩
    cases hget

end Steps

omit [LinearOrder D] in
theorem recent_construct (minProfitPercent : D) (historySize : Nat) (clock : UInt64) :
    (construct β minProfitPercent historySize clock).Recent := by
  refine ⟨0, ⟨Nat.two_pow_pos 64, fun id => ?_, fun id id' arb arb' hat => ?_⟩,
    fun i arb hget => ?_⟩
  · refine iff_of_false (fun ⟨arb, hat⟩ => ?_) (by omega)
    simp [construct, ArbitrageMonitor.construct] at hat
  · simp [construct, ArbitrageMonitor.construct] at hat
  · cases hget

/-- In every run whose calls find the containers within their `max_size`, the history is well
formed and the identifiers are unique in every state. -/
theorem wellFormed_and_unique (minProfitPercent : D) (historySize : Nat) (clock : UInt64)
    (tr : List (Event D × MonitorRun β D))
    (hrun : IsRun Step (construct β minProfitPercent historySize clock) tr)
    (hfits : Guarded (fun s _ => s.Fits) (construct β minProfitPercent historySize clock) tr) :
    Throughout (fun s => s.monitor.WellFormed historySize ∧ s.monitor.liveIds.Nodup)
      (construct β minProfitPercent historySize clock) tr := by
  have hinv := hrun.invariant
    (fun s => FormInv historySize s.clock s.monitor ∧ Distinct s.monitor ∧ s.Recent)
    (fun s e t ⟨hform, hdistinct, hrecent⟩ hfits ⟨henabled, ht⟩ => by
      subst ht
      exact ⟨formInv_next hform henabled, distinct_next hdistinct hform (hrecent.fresh hform) e,
        hrecent.next hform hfits e⟩)
    hfits
    ⟨formInv_construct, distinct_construct, recent_construct minProfitPercent historySize clock⟩
  exact hinv.mono fun s ⟨hform, hdistinct, _⟩ => ⟨hform.form, hdistinct.nodup_liveIds hform⟩

/-- Two opportunities expire at a later detection, and the last one when the monitor stops. -/
def threeDetections : List (Event ℚ) :=
  [.start, .detect Lifetimes.onePercent, .tick 500000000, .detect Lifetimes.onePercent,
    .tick 2000000000, .detect Lifetimes.onePercent, .getStatistics, .stop]

theorem wellFormed_threeDetections :
    Throughout (fun s => s.monitor.WellFormed 2 ∧ s.monitor.liveIds.Nodup)
      (construct Unit (1 / 10 : ℚ) 2 0)
      (runOf next (construct Unit (1 / 10 : ℚ) 2 0) threeDetections) :=
  wellFormed_and_unique (β := Unit) (1 / 10 : ℚ) 2 0
    (runOf next (construct Unit (1 / 10 : ℚ) 2 0) threeDetections)
    (isRun_runOf_of_enabled (show Guarded Enabled _ _ by decide +kernel)) (by decide +kernel)

end MonitorRun

end OrderbookEngine
