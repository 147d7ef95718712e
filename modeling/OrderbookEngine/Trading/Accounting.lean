import OrderbookEngine.Library.DrawnNumbers
import OrderbookEngine.Trading.MonitorRuns
import OrderbookEngine.Trading.OpportunityLifetimes

/-!
# The accounts of the arbitrage monitor

Every detection is counted, and every opportunity leaves the active ones by being
completed. But `clear_history` forgets the detections of what stays active, and `stop`
completes without adding to the durations.
-/

namespace OrderbookEngine

open AggregatedOrderBook Transition OrderedMap ArbitrageMonitor

namespace MonitorRun

variable {β D : Type}

/-- How many of the active opportunities were detected since the last clear. -/
def recentActive (s : MonitorRun β D) : Nat :=
  s.monitor.activeOpportunities.toList.countP fun e => s.recent e.1

/-- How many opportunities were detected and completed since the last clear. -/
def recentCompleted (s : MonitorRun β D) : Nat := s.completed.countP Prod.fst

/-- The time from the detection of an opportunity to its expiry, in milliseconds. -/
def lifetimeMs [Field D] (arb : TrackedArbitrage D) : D :=
  ((arb.expiryTimeNs.toNat : D) - arb.detectionTimeNs.toNat) / (1000000 : ℕ)

section Accounts

variable [Field D]

/-- The statistics count what was detected since the last clear, which is active or completed. -/
def Balanced (s : MonitorRun β D) : Prop :=
  s.monitor.getStatistics.totalOpportunities.toNat = s.detected ∧
    s.detected = s.recentActive + s.recentCompleted

/-- No more opportunities are active than the statistics count. -/
def ActiveWithin (s : MonitorRun β D) : Prop :=
  s.monitor.getStatistics.activeOpportunities ≤ s.monitor.getStatistics.totalOpportunities

/-- The average duration is the mean over what was completed since the last clear. -/
def AverageIsMean (s : MonitorRun β D) : Prop :=
  s.monitor.getStatistics.averageDurationMs =
    (s.completed.map fun e => lifetimeMs e.2).sum / s.completed.length

variable [LinearOrder D]

/-- A detection draws an identifier that is not active, and the counter has room for it. -/
def CountsDetection (s : MonitorRun β D) : Event D → Prop
  | .detect opportunity => s.monitor.accepts opportunity = true →
      s.monitor.activeOpportunities[s.monitor.nextId]? = none ∧ s.detected + 1 < 2 ^ 64
  | _ => True

/-- Nothing is active when the history is cleared or the monitor stops, and the counter has
room for a detection. -/
def KeepsAccounts (s : MonitorRun β D) : Event D → Prop
  | .detect opportunity => s.monitor.accepts opportunity = true → s.detected + 1 < 2 ^ 64
  | .clearHistory => s.monitor.activeOpportunities.toList = []
  | .stop => s.monitor.running = true → s.monitor.activeOpportunities.toList = []
  | _ => True

end Accounts

instance [Field D] (s : MonitorRun β D) : Decidable s.ActiveWithin :=
  inferInstanceAs (Decidable (_ ≤ _))

instance [Field D] [DecidableEq D] (s : MonitorRun β D) : Decidable s.AverageIsMean :=
  inferInstanceAs (Decidable (_ = _))

instance [Field D] [LinearOrder D] (s : MonitorRun β D) :
    (e : Event D) → Decidable (s.KeepsAccounts e)
  | .detect opportunity => inferInstanceAs
      (Decidable (s.monitor.accepts opportunity = true → s.detected + 1 < 2 ^ 64))
  | .clearHistory => decidable_of_iff
      (s.monitor.activeOpportunities.toList.isEmpty = true) List.isEmpty_iff
  | .stop => decidable_of_iff (s.monitor.running = true →
      s.monitor.activeOpportunities.toList.isEmpty = true) (by rw [List.isEmpty_iff]; rfl)
  | .tick _ | .start | .getStatistics => isTrue trivial

section Counts

variable {s : MonitorRun β D}

theorem countP_completions (s : MonitorRun β D) (es : List (UInt64 × TrackedArbitrage D)) :
    (s.completions es).countP Prod.fst = es.countP fun e => s.recent e.1 := by
  rw [completions, List.countP_map]
  rfl

/-- The pass over the active opportunities moves some of them to the completed ones. -/
theorem recent_sweep [Field D] (s : MonitorRun β D) :
    s.sweep.recentActive + s.sweep.recentCompleted = s.recentActive + s.recentCompleted := by
  have hactive : s.sweep.recentActive =
      (s.monitor.activeOpportunities.toList.filter fun e =>
        !decide (timeoutNs < s.clock - e.2.detectionTimeNs)).countP fun e => s.recent e.1 :=
    (toList_updateActiveOpportunities_perm s.monitor s.clock).countP_eq _
  have hcompleted : s.sweep.recentCompleted =
      (s.monitor.overdue s.clock).countP (fun e => s.recent e.1) + s.recentCompleted := by
    rw [recentCompleted, sweep, List.countP_append, countP_completions]
    rfl
  have hsplit := List.countP_eq_countP_filter_add s.monitor.activeOpportunities.toList
    (fun e => s.recent e.1) fun e => timeoutNs < s.clock - e.2.detectionTimeNs
  rw [hactive, hcompleted, recentActive, hsplit, overdue]
  omega

/-- `stop` moves all of them. -/
theorem recent_halt (s : MonitorRun β D) :
    s.halt.recentActive + s.halt.recentCompleted = s.recentActive + s.recentCompleted := by
  have hcompleted : s.halt.recentCompleted = s.recentActive + s.recentCompleted := by
    rw [recentCompleted, halt, List.countP_append, countP_completions]
    rfl
  rw [hcompleted]
  exact Nat.zero_add _

variable [Field D] [LinearOrder D]

/-- A detection with a new identifier adds one active opportunity. -/
theorem recentActive_draw (h : s.monitor.activeOpportunities[s.monitor.nextId]? = none)
    (opportunity : ArbitrageOpportunity D) :
    (s.draw opportunity).recentActive = s.recentActive + 1 := by
  have hperm := entries_insert_perm h (s.monitor.tracked opportunity s.clock)
  have hold : s.monitor.activeOpportunities.toList.countP
      (fun e => Function.update s.recent s.monitor.nextId true e.1) = s.recentActive := by
    refine List.countP_congr fun e he => ?_
    have hne : e.1 ≠ s.monitor.nextId := by
      intro heq
      rw [mem_entries, heq, h] at he
      cases he
    rw [Function.update_of_ne hne]
  have hcount : (s.draw opportunity).recentActive =
      ((s.monitor.nextId, s.monitor.tracked opportunity s.clock) ::
        s.monitor.activeOpportunities.toList).countP
          fun e => Function.update s.recent s.monitor.nextId true e.1 := hperm.countP_eq _
  rw [hcount, List.countP_cons_of_pos (by simp), hold]

end Counts

/-- What calls that count their detections keep. -/
structure CountInv (s : MonitorRun β D) : Prop where
  total : s.monitor.totalCount = s.detected
  small : s.detected < 2 ^ 64
  balance : s.detected = s.recentActive + s.recentCompleted

section Balance

variable [Field D] {s : MonitorRun β D}

theorem CountInv.balanced (h : s.CountInv) : s.Balanced := by
  refine ⟨?_, h.balance⟩
  show s.monitor.totalCount.toUInt64.toNat = s.detected
  rw [h.total]
  exact UInt64.toNat_ofNat_of_lt' h.small

theorem CountInv.sweep (h : s.CountInv) : s.sweep.CountInv := by
  refine ⟨?_, h.small, h.balance.trans (recent_sweep s).symm⟩
  show (s.monitor.updateActiveOpportunities s.clock).totalCount = _
  rw [updateActiveOpportunities_eq]
  exact h.total

omit [Field D] in
theorem CountInv.halt (h : s.CountInv) : s.halt.CountInv := by
  refine ⟨?_, h.small, h.balance.trans (recent_halt s).symm⟩
  show ({ s.monitor with running := false }.expireAll s.clock).totalCount = _
  rw [expireAll_eq]
  exact h.total

theorem CountInv.clear (s : MonitorRun β D) : s.clear.CountInv := by
  refine ⟨rfl, show (0 : Nat) < 2 ^ 64 by norm_num, ?_⟩
  show 0 = s.monitor.activeOpportunities.toList.countP (fun _ => false) + 0
  simp

variable [LinearOrder D]

theorem CountInv.draw (h : s.CountInv)
    (hnew : s.monitor.activeOpportunities[s.monitor.nextId]? = none)
    (hsmall : s.detected + 1 < 2 ^ 64) (opportunity : ArbitrageOpportunity D) :
    (s.draw opportunity).CountInv := by
  refine ⟨congrArg (· + 1) h.total, hsmall, ?_⟩
  have hcompleted : (s.draw opportunity).recentCompleted = s.recentCompleted := rfl
  have hdetected : (s.draw opportunity).detected = s.detected + 1 := rfl
  have hbalance := h.balance
  rw [hdetected, recentActive_draw hnew, hcompleted]
  omega

theorem CountInv.next (h : s.CountInv) {e : Event D} (hcounts : s.CountsDetection e) :
    (s.next e).CountInv := by
  cases e with
  | tick | getStatistics => exact ⟨h.total, h.small, h.balance⟩
  | detect opportunity =>
    simp only [MonitorRun.next]
    split
    · rename_i haccepts
      obtain ⟨hnew, hsmall⟩ := hcounts haccepts
      exact (h.draw hnew hsmall opportunity).sweep
    · exact h
  | start => exact ⟨h.total, h.small, h.balance⟩
  | stop =>
    simp only [MonitorRun.next]
    split
    · exact h.halt
    · exact h
  | clearHistory => exact CountInv.clear s

end Balance

/-- What calls that keep the accounts keep: everything active or completed was detected since
the last clear, and the identifiers in use were the last ones drawn. -/
structure AccountInv [Field D] (s : MonitorRun β D) : Prop where
  counts : s.CountInv
  active : ∀ (id : UInt64) arb, s.monitor.activeOpportunities[id]? = some arb →
    s.recent id = true ∧ arb.detectionTimeNs ≤ s.clock
  drawn : ∀ (id : UInt64) arb, s.monitor.activeOpportunities[id]? = some arb →
    1 ≤ (s.monitor.nextId - id).toNat ∧ (s.monitor.nextId - id).toNat ≤ s.detected
  completed : ∀ e ∈ s.completed, e.1 = true
  durations : s.monitor.totalDurationMs = (s.completed.map fun e => lifetimeMs e.2).sum
  count : s.monitor.completedCount = s.completed.length

section Average

variable [Field D] {s : MonitorRun β D}

/-- Without going back in time the duration is the time from detection to expiry. -/
theorem getDurationMs_expired {now : UInt64} {arb : TrackedArbitrage D}
    (h : arb.detectionTimeNs ≤ now) :
    (expired now arb).getDurationMs = lifetimeMs (expired now arb) := by
  have hle := UInt64.le_iff_toNat_le.mp h
  rw [TrackedArbitrage.getDurationMs, lifetimeMs]
  show (if now = 0 then 0 else ((now - arb.detectionTimeNs).toNat : D) / 1000000) =
    ((now.toNat : D) - arb.detectionTimeNs.toNat) / 1000000
  split
  · rename_i hzero
    subst hzero
    have hdetected : arb.detectionTimeNs.toNat = 0 := Nat.le_zero.mp hle
    rw [hdetected]
    simp
  · rw [UInt64.toNat_sub_of_le _ _ h, Nat.cast_sub hle]

theorem AccountInv.activeWithin (h : s.AccountInv) : s.ActiveWithin := by
  have hall : s.monitor.activeOpportunities.toList.length = s.recentActive := by
    refine (List.countP_eq_length.mpr fun e he => ?_).symm
    exact (h.active e.1 e.2 (mem_entries.mp he)).1
  have hsmall := h.counts.small
  have hbalance := h.counts.balance
  rw [ActiveWithin, UInt64.le_iff_toNat_le, h.counts.balanced.1]
  show s.monitor.activeOpportunities.size.toUInt64.toNat ≤ s.detected
  rw [← Std.TreeMap.length_toList, hall]
  exact (Nat.mod_le _ _).trans (by omega)

theorem AccountInv.averageIsMean (h : s.AccountInv) : s.AverageIsMean := by
  have hall : s.completed.length = s.recentCompleted :=
    (List.countP_eq_length.mpr h.completed).symm
  have hsmall := h.counts.small
  have hbalance := h.counts.balance
  have hword : s.monitor.completedCount.toUInt64.toNat = s.completed.length := by
    rw [h.count]
    exact UInt64.toNat_ofNat_of_lt' (show s.completed.length < 2 ^ 64 by omega)
  show (if s.monitor.completedCount.toUInt64 > 0 then
    s.monitor.totalDurationMs / (s.monitor.completedCount.toUInt64.toNat : D) else 0) = _
  rw [hword, h.durations]
  split
  · rfl
  · rename_i hzero
    have hnil : s.completed.length = 0 := by
      rw [← hword, UInt64.le_zero_iff.mp (UInt64.not_lt.mp hzero)]
      rfl
    rw [hnil, Nat.cast_zero, div_zero]

theorem AccountInv.sweep (h : s.AccountInv) : s.sweep.AccountInv := by
  have hkept : ∀ (id : UInt64) arb, s.sweep.monitor.activeOpportunities[id]? = some arb →
      s.monitor.activeOpportunities[id]? = some arb := by
    intro id arb hat
    have hat : (s.monitor.updateActiveOpportunities s.clock).activeOpportunities[id]? = some arb :=
      hat
    rw [getElem?_updateActiveOpportunities] at hat
    split at hat
    · cases hat
    · exact hat
  have hdue : ∀ e ∈ s.monitor.overdue s.clock,
      s.recent e.1 = true ∧ e.2.detectionTimeNs ≤ s.clock :=
    fun e he => h.active e.1 e.2 (mem_entries.mp (List.mem_of_mem_filter he))
  have hnext : s.sweep.monitor.nextId = s.monitor.nextId := by
    show (s.monitor.updateActiveOpportunities s.clock).nextId = _
    rw [updateActiveOpportunities_eq]
  refine ⟨h.counts.sweep, fun id arb hat => h.active id arb (hkept id arb hat),
    fun id arb hat => ?_, fun e he => ?_, ?_, ?_⟩
  · rw [hnext]
    exact h.drawn id arb (hkept id arb hat)
  · rcases List.mem_append.mp he with he | he
    · obtain ⟨due, hmem, rfl⟩ := List.mem_map.mp he
      exact (hdue due hmem).1
    · exact h.completed e he
  · show (s.monitor.updateActiveOpportunities s.clock).totalDurationMs = _
    rw [updateActiveOpportunities_eq]
    show s.monitor.totalDurationMs + _ =
      ((s.completions (s.monitor.overdue s.clock) ++ s.completed).map _).sum
    rw [h.durations, List.map_append, List.sum_append, completions, List.map_map, add_comm]
    congr 2
    refine List.map_congr_left fun e he => ?_
    exact getDurationMs_expired (hdue e he).2
  · show (s.monitor.updateActiveOpportunities s.clock).completedCount = _
    rw [updateActiveOpportunities_eq]
    show s.monitor.completedCount + _ =
      (s.completions (s.monitor.overdue s.clock) ++ s.completed).length
    rw [h.count, List.length_append, completions, List.length_map, Nat.add_comm]

/-- The counter draws no identifier of the last ones. -/
theorem AccountInv.fresh (h : s.AccountInv) :
    s.monitor.activeOpportunities[s.monitor.nextId]? = none := by
  cases hat : s.monitor.activeOpportunities[s.monitor.nextId]? with
  | none => rfl
  | some arb =>
    have hdrawn := (h.drawn s.monitor.nextId arb hat).1
    rw [UInt64.sub_self] at hdrawn
    exact absurd hdrawn (by decide)

/-- When nothing is active, `stop` completes nothing. -/
theorem AccountInv.halt (h : s.AccountInv) (hidle : s.monitor.activeOpportunities.toList = []) :
    s.halt.AccountInv := by
  have hcompleted : s.halt.completed = s.completed := by
    show s.completions s.monitor.activeOpportunities.toList ++ s.completed = _
    rw [hidle]
    rfl
  have hnone : ∀ id : UInt64, s.halt.monitor.activeOpportunities[id]? = none :=
    fun id => Std.TreeMap.getElem?_emptyc
  refine ⟨h.counts.halt, fun id arb hat => ?_, fun id arb hat => ?_, ?_, ?_, ?_⟩
  · rw [hnone] at hat
    cases hat
  · rw [hnone] at hat
    cases hat
  · rw [hcompleted]
    exact h.completed
  · show ({ s.monitor with running := false }.expireAll s.clock).totalDurationMs = _
    rw [expireAll_eq, hcompleted]
    exact h.durations
  · show ({ s.monitor with running := false }.expireAll s.clock).completedCount = _
    rw [expireAll_eq, hcompleted]
    exact h.count

theorem AccountInv.clear (hidle : s.monitor.activeOpportunities.toList = []) :
    s.clear.AccountInv := by
  have hnone : ∀ (id : UInt64) arb, s.clear.monitor.activeOpportunities[id]? ≠ some arb := by
    intro id arb hat
    have hmem : (id, arb) ∈ s.monitor.activeOpportunities.toList := mem_entries.mpr hat
    rw [hidle] at hmem
    exact List.not_mem_nil hmem
  exact ⟨CountInv.clear s, fun id arb hat => absurd hat (hnone id arb),
    fun id arb hat => absurd hat (hnone id arb), fun _ he => absurd he List.not_mem_nil, rfl, rfl⟩

variable [LinearOrder D]

theorem AccountInv.draw (h : s.AccountInv) (hsmall : s.detected + 1 < 2 ^ 64)
    (opportunity : ArbitrageOpportunity D) : (s.draw opportunity).AccountInv := by
  have hinsert : ∀ (id : UInt64) arb, (s.draw opportunity).monitor.activeOpportunities[id]? =
      some arb → (id = s.monitor.nextId ∧ arb = s.monitor.tracked opportunity s.clock) ∨
        id ≠ s.monitor.nextId ∧ s.monitor.activeOpportunities[id]? = some arb := by
    intro id arb hat
    have hat : (s.monitor.activeOpportunities.insert s.monitor.nextId
        (s.monitor.tracked opportunity s.clock))[id]? = some arb := hat
    by_cases hid : id = s.monitor.nextId
    · subst hid
      rw [Std.TreeMap.getElem?_insert_self] at hat
      exact Or.inl ⟨rfl, (Option.some.inj hat).symm⟩
    · rw [getElem?_insert_of_ne hid] at hat
      exact Or.inr ⟨hid, hat⟩
  refine ⟨h.counts.draw h.fresh hsmall opportunity, fun id arb hat => ?_, fun id arb hat => ?_,
    h.completed, h.durations, h.count⟩
  · rcases hinsert id arb hat with ⟨rfl, rfl⟩ | ⟨hne, hat⟩
    · exact ⟨Function.update_self .., UInt64.le_refl _⟩
    · obtain ⟨hrecent, hdetected⟩ := h.active id arb hat
      exact ⟨(Function.update_of_ne hne ..).trans hrecent, hdetected⟩
  · show 1 ≤ DrawnNumbers.age (s.monitor.nextId + 1) id ∧
      DrawnNumbers.age (s.monitor.nextId + 1) id ≤ s.detected + 1
    rw [DrawnNumbers.age_succ]
    rcases hinsert id arb hat with ⟨rfl, rfl⟩ | ⟨-, hat⟩
    · have hzero : DrawnNumbers.age s.monitor.nextId s.monitor.nextId = 0 :=
        DrawnNumbers.age_eq_zero_iff.mpr rfl
      omega
    · have hdrawn : 1 ≤ DrawnNumbers.age s.monitor.nextId id ∧
          DrawnNumbers.age s.monitor.nextId id ≤ s.detected := h.drawn id arb hat
      omega

theorem AccountInv.next (h : s.AccountInv) {e : Event D} (henabled : s.Enabled e)
    (hkeeps : s.KeepsAccounts e) : (s.next e).AccountInv := by
  cases e with
  | tick clock =>
    have hle : s.clock ≤ clock := henabled
    refine ⟨⟨h.counts.total, h.counts.small, h.counts.balance⟩, fun id arb hat => ?_, h.drawn,
      h.completed, h.durations, h.count⟩
    obtain ⟨hrecent, hdetected⟩ := h.active id arb hat
    exact ⟨hrecent, UInt64.le_trans hdetected hle⟩
  | detect opportunity =>
    simp only [MonitorRun.next]
    split
    · rename_i haccepts
      exact (h.draw (hkeeps haccepts) opportunity).sweep
    · exact h
  | start =>
    exact ⟨⟨h.counts.total, h.counts.small, h.counts.balance⟩, h.active, h.drawn, h.completed,
      h.durations, h.count⟩
  | stop =>
    simp only [MonitorRun.next]
    split
    · rename_i hrunning
      exact h.halt (hkeeps hrunning)
    · exact h
  | clearHistory => exact AccountInv.clear hkeeps
  | getStatistics => exact h

end Average

section Runs

variable [Field D]

theorem countInv_construct (minProfitPercent : D) (historySize : Nat) (clock : UInt64) :
    (construct β minProfitPercent historySize clock).CountInv :=
  ⟨rfl, show (0 : Nat) < 2 ^ 64 by norm_num, rfl⟩

theorem accountInv_construct (minProfitPercent : D) (historySize : Nat) (clock : UInt64) :
    (construct β minProfitPercent historySize clock).AccountInv where
  counts := countInv_construct minProfitPercent historySize clock
  active id arb hat := by simp [construct, ArbitrageMonitor.construct] at hat
  drawn id arb hat := by simp [construct, ArbitrageMonitor.construct] at hat
  completed _ he := absurd he List.not_mem_nil
  durations := rfl
  count := rfl

variable [LinearOrder D]

/-- In every run whose detections draw identifiers that are not active and have room in the
counter, what was detected since the last clear is active or completed. When moreover nothing is
active at a clear or a stop, the statistics count all that is active, and their average duration
is the mean over all that was completed. -/
theorem accounts_of_keepsAccounts (minProfitPercent : D) (historySize : Nat) (clock : UInt64)
    (tr : List (Event D × MonitorRun β D))
    (hrun : IsRun Step (construct β minProfitPercent historySize clock) tr) :
    (Guarded CountsDetection (construct β minProfitPercent historySize clock) tr →
        Throughout Balanced (construct β minProfitPercent historySize clock) tr) ∧
      (Guarded KeepsAccounts (construct β minProfitPercent historySize clock) tr →
        Throughout (fun s => s.Balanced ∧ s.ActiveWithin ∧ s.AverageIsMean)
          (construct β minProfitPercent historySize clock) tr) := by
  constructor
  · intro hcounts
    have hinv := hrun.invariant CountInv (fun s e t hs hcond hstep => by
      obtain ⟨-, rfl⟩ := hstep
      exact hs.next hcond) hcounts (countInv_construct minProfitPercent historySize clock)
    exact hinv.mono fun s hs => hs.balanced
  · intro hkeeps
    have hinv := hrun.invariant AccountInv (fun s e t hs hcond hstep => by
      obtain ⟨henabled, rfl⟩ := hstep
      exact hs.next henabled hcond) hkeeps
      (accountInv_construct minProfitPercent historySize clock)
    exact hinv.mono fun s hs => ⟨hs.counts.balanced, hs.activeWithin, hs.averageIsMean⟩

/-- A clear before the first detection, and a second detection at which the first
opportunity expires. -/
def clearedFirst : List (Event ℚ) :=
  [.clearHistory, .start, .detect Lifetimes.onePercent, .tick 1500000000,
    .detect Lifetimes.onePercent, .getStatistics]

theorem accounts_clearedFirst :
    Throughout (fun s => s.Balanced ∧ s.ActiveWithin ∧ s.AverageIsMean)
      (construct Unit (1 / 10 : ℚ) 1000 0)
      (runOf next (construct Unit (1 / 10 : ℚ) 1000 0) clearedFirst) :=
  (accounts_of_keepsAccounts (1 / 10 : ℚ) 1000 0
    (runOf next (construct Unit (1 / 10 : ℚ) 1000 0) clearedFirst)
    (isRun_runOf_of_enabled (show Guarded Enabled _ _ by decide +kernel))).2 (by decide +kernel)

/-- The history is cleared while an opportunity is active. -/
def clearedActive : List (Event ℚ) := [.start, .detect Lifetimes.onePercent, .clearHistory]

/-- The monitor stops five milliseconds after it detected an opportunity. -/
def stoppedActive : List (Event ℚ) :=
  [.start, .detect Lifetimes.onePercent, .tick 5000000, .stop]

/-- After the clear one opportunity is active and none is counted; after the stop one is
completed and the average duration is zero. -/
theorem accounts_fail :
    (¬ ∀ tr : List (Event ℚ × MonitorRun Unit ℚ),
      IsRun Step (construct Unit (1 / 10 : ℚ) 1000 0) tr →
        Throughout ActiveWithin (construct Unit (1 / 10 : ℚ) 1000 0) tr) ∧
      ¬ ∀ tr : List (Event ℚ × MonitorRun Unit ℚ),
        IsRun Step (construct Unit (1 / 10 : ℚ) 1000 0) tr →
          Throughout AverageIsMean (construct Unit (1 / 10 : ℚ) 1000 0) tr := by
  have hstart := accountInv_construct (β := Unit) (1 / 10 : ℚ) 1000 0
  constructor
  · intro h
    have hrun := h (runOf next (construct Unit (1 / 10 : ℚ) 1000 0) clearedActive)
      (isRun_runOf_of_enabled (show Guarded Enabled _ _ by decide +kernel))
    have hlast := hrun.last hstart.activeWithin
    rw [lastState_runOf] at hlast
    revert hlast
    decide +kernel
  · intro h
    have hrun := h (runOf next (construct Unit (1 / 10 : ℚ) 1000 0) stoppedActive)
      (isRun_runOf_of_enabled (show Guarded Enabled _ _ by decide +kernel))
    have hlast := hrun.last hstart.averageIsMean
    rw [lastState_runOf] at hlast
    revert hlast
    decide +kernel

end Runs

end MonitorRun

end OrderbookEngine
