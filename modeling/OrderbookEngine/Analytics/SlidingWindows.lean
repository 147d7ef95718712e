import OrderbookEngine.Analytics.MarketAnalytics

/-!
# Which samples the indicators retain

Each calculator expires samples by the cutoff `t - w`, which wraps for times
before the width of the window. It retains exactly the samples of its window as
long as no such early update follows another.
-/

namespace OrderbookEngine.MarketAnalytics

open SlidingWindow Transition

/-- In runs with ordered times the four calculators keep their windows exactly as
long as every update at a time before the width of the window is the first since the
calculator was constructed or reset. -/
theorem keepsWindow_iff_firstIfEarly (w : UInt64) :
    (∀ tr, IsRun VWAPCalculator.windowed.Step ⟨.construct w, []⟩ tr →
      (Always VWAPCalculator.windowed.KeepsWindow ⟨.construct w, []⟩ tr ↔
        Guarded VWAPCalculator.windowed.FirstIfEarly ⟨.construct w, []⟩ tr)) ∧
    (∀ tr, IsRun TWAPCalculator.windowed.Step ⟨.construct w, []⟩ tr →
      (Always TWAPCalculator.windowed.KeepsWindow ⟨.construct w, []⟩ tr ↔
        Guarded TWAPCalculator.windowed.FirstIfEarly ⟨.construct w, []⟩ tr)) ∧
    (∀ tr, IsRun OrderFlowImbalance.windowed.Step ⟨.construct w, []⟩ tr →
      (Always OrderFlowImbalance.windowed.KeepsWindow ⟨.construct w, []⟩ tr ↔
        Guarded OrderFlowImbalance.windowed.FirstIfEarly ⟨.construct w, []⟩ tr)) ∧
    (∀ tr, IsRun SpreadAnalyzer.windowed.Step ⟨.construct w, []⟩ tr →
      (Always SpreadAnalyzer.windowed.KeepsWindow ⟨.construct w, []⟩ tr ↔
        Guarded SpreadAnalyzer.windowed.FirstIfEarly ⟨.construct w, []⟩ tr)) := by
  refine ⟨fun tr hrun => ?_, fun tr hrun => ?_, fun tr hrun => ?_, fun tr hrun => ?_⟩
  · exact VWAPCalculator.windowed.keepsWindow_iff rfl hrun
  · exact TWAPCalculator.windowed.keepsWindow_iff rfl hrun
  · exact OrderFlowImbalance.windowed.keepsWindow_iff rfl hrun
  · exact SpreadAnalyzer.windowed.keepsWindow_iff rfl hrun

/-- Two trades, a millisecond apart, in the first second after the epoch. -/
def twoTrades : List (Call TradePoint) :=
  [.update ⟨42000, 1, 1000000000⟩, .update ⟨42100, 2, 1001000000⟩]

/-- An update, a reset, and an update at the same time. -/
def resetBetween {ε : Type} (args : ε) : List (Call ε) := [.update args, .reset, .update args]

theorem keepsWindow_iff_firstIfEarly_default :
    (Always VWAPCalculator.windowed.KeepsWindow ⟨.construct VWAPCalculator.defaultWindowNs, []⟩
        (runOf VWAPCalculator.windowed.next ⟨.construct VWAPCalculator.defaultWindowNs, []⟩
          twoTrades) ↔
      Guarded VWAPCalculator.windowed.FirstIfEarly
        ⟨.construct VWAPCalculator.defaultWindowNs, []⟩
        (runOf VWAPCalculator.windowed.next ⟨.construct VWAPCalculator.defaultWindowNs, []⟩
          twoTrades)) ∧
    (Always TWAPCalculator.windowed.KeepsWindow ⟨.construct TWAPCalculator.defaultWindowNs, []⟩
        (runOf TWAPCalculator.windowed.next ⟨.construct TWAPCalculator.defaultWindowNs, []⟩
          (resetBetween (42000, 1000))) ↔
      Guarded TWAPCalculator.windowed.FirstIfEarly
        ⟨.construct TWAPCalculator.defaultWindowNs, []⟩
        (runOf TWAPCalculator.windowed.next ⟨.construct TWAPCalculator.defaultWindowNs, []⟩
          (resetBetween (42000, 1000)))) ∧
    (Always OrderFlowImbalance.windowed.KeepsWindow
        ⟨.construct OrderFlowImbalance.defaultWindowNs, []⟩
        (runOf OrderFlowImbalance.windowed.next
          ⟨.construct OrderFlowImbalance.defaultWindowNs, []⟩ (resetBetween ⟨[], [], 1000⟩)) ↔
      Guarded OrderFlowImbalance.windowed.FirstIfEarly
        ⟨.construct OrderFlowImbalance.defaultWindowNs, []⟩
        (runOf OrderFlowImbalance.windowed.next
          ⟨.construct OrderFlowImbalance.defaultWindowNs, []⟩ (resetBetween ⟨[], [], 1000⟩))) ∧
    (Always SpreadAnalyzer.windowed.KeepsWindow ⟨.construct SpreadAnalyzer.defaultWindowNs, []⟩
        (runOf SpreadAnalyzer.windowed.next ⟨.construct SpreadAnalyzer.defaultWindowNs, []⟩
          (resetBetween ⟨42000, 42001, 1000⟩)) ↔
      Guarded SpreadAnalyzer.windowed.FirstIfEarly
        ⟨.construct SpreadAnalyzer.defaultWindowNs, []⟩
        (runOf SpreadAnalyzer.windowed.next ⟨.construct SpreadAnalyzer.defaultWindowNs, []⟩
          (resetBetween ⟨42000, 42001, 1000⟩))) :=
  ⟨(keepsWindow_iff_firstIfEarly VWAPCalculator.defaultWindowNs).1 _
      (isRun_runOf_of_enabled (by decide +kernel)),
    (keepsWindow_iff_firstIfEarly TWAPCalculator.defaultWindowNs).2.1 _
      (isRun_runOf_of_enabled (by decide +kernel)),
    (keepsWindow_iff_firstIfEarly OrderFlowImbalance.defaultWindowNs).2.2.1 _
      (isRun_runOf_of_enabled (by decide +kernel)),
    (keepsWindow_iff_firstIfEarly SpreadAnalyzer.defaultWindowNs).2.2.2 _
      (isRun_runOf_of_enabled (by decide +kernel))⟩

/-- The second trade expires the first, and only the second price counts. -/
theorem twoTrades_not_keepsWindow :
    IsRun VWAPCalculator.windowed.Step ⟨.construct VWAPCalculator.defaultWindowNs, []⟩
        (runOf VWAPCalculator.windowed.next ⟨.construct VWAPCalculator.defaultWindowNs, []⟩
          twoTrades) ∧
      ¬ Always VWAPCalculator.windowed.KeepsWindow
        ⟨.construct VWAPCalculator.defaultWindowNs, []⟩
        (runOf VWAPCalculator.windowed.next ⟨.construct VWAPCalculator.defaultWindowNs, []⟩
          twoTrades) ∧
      (twoTrades.foldl VWAPCalculator.windowed.next
        ⟨.construct VWAPCalculator.defaultWindowNs, []⟩).component.getVwap = 42100 := by
  have hrun : IsRun VWAPCalculator.windowed.Step
      ⟨.construct VWAPCalculator.defaultWindowNs, []⟩
      (runOf VWAPCalculator.windowed.next ⟨.construct VWAPCalculator.defaultWindowNs, []⟩
        twoTrades) := isRun_runOf_of_enabled (by decide +kernel)
  refine ⟨hrun, ?_, by decide +kernel⟩
  rw [VWAPCalculator.windowed.keepsWindow_iff rfl hrun]
  decide +kernel

end OrderbookEngine.MarketAnalytics
