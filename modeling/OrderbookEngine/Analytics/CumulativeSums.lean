import OrderbookEngine.Analytics.MarketAnalytics

/-!
# The cumulative values and what they bound

The volume-weighted price and the imbalance divide cumulative values that updates
add to and expiries subtract from. They are the sums over the retained samples in
every state, whatever the order of the times, and so the price is a weighted mean
and the imbalance lies between -1 and 1.
-/

namespace OrderbookEngine

open SlidingWindow

/-- A weighted mean of values lies between their bounds. -/
theorem weightedMean_mem_Icc {α : Type*} {value weight : α → ℚ} {lo hi : ℚ} {q : List α}
    (hq : q ≠ []) (hweight : ∀ x ∈ q, 0 < weight x)
    (hvalue : ∀ x ∈ q, lo ≤ value x ∧ value x ≤ hi) :
    (q.map fun x => value x * weight x).sum / (q.map weight).sum ∈ Set.Icc lo hi := by
  have hpos : 0 < (q.map weight).sum := by
    refine List.sum_pos _ (fun w hw => ?_) (by simpa using hq)
    obtain ⟨x, hx, rfl⟩ := List.mem_map.mp hw
    exact hweight x hx
  have hlo : lo * (q.map weight).sum ≤ (q.map fun x => value x * weight x).sum := by
    rw [← List.sum_map_mul_left]
    refine List.sum_le_sum fun x hx => ?_
    exact mul_le_mul_of_nonneg_right (hvalue x hx).1 (hweight x hx).le
  have hhi : (q.map fun x => value x * weight x).sum ≤ hi * (q.map weight).sum := by
    rw [← List.sum_map_mul_left]
    refine List.sum_le_sum fun x hx => ?_
    exact mul_le_mul_of_nonneg_right (hvalue x hx).2 (hweight x hx).le
  exact ⟨(le_div_iff₀ hpos).mpr hlo, (div_le_iff₀ hpos).mpr hhi⟩

namespace VWAPCalculator

/-- The cumulative values are the sums over the retained trades. -/
structure SumsMatch (c : VWAPCalculator) : Prop where
  priceVolume : c.cumulativePriceVolume = (c.trades.map fun t => t.price * t.volume).sum
  volume : c.cumulativeVolume = (c.trades.map TradePoint.volume).sum

/-- The price lies between the least and the greatest retained price. -/
def BetweenPrices (c : VWAPCalculator) : Prop :=
  ∃ lo ∈ c.trades, ∃ hi ∈ c.trades,
    (∀ t ∈ c.trades, lo.price ≤ t.price ∧ t.price ≤ hi.price) ∧
      lo.price ≤ c.getVwap ∧ c.getVwap ≤ hi.price

variable {c : VWAPCalculator}

theorem SumsMatch.pair (h : SumsMatch c) :
    (c.cumulativePriceVolume, c.cumulativeVolume) = (c.trades.map weight).sum := by
  have hsum := sum_map_pair (fun t : TradePoint => t.price * t.volume) TradePoint.volume c.trades
  rw [h.priceVolume, h.volume, ← hsum]
  rfl

theorem SumsMatch.removeExpired (h : SumsMatch c) (currentTimeNs : UInt64) :
    SumsMatch (c.removeExpired currentTimeNs) := by
  have hpop := popExpired_snd TradePoint.timestampNs weight (currentTimeNs - c.windowNs) c.trades
  rw [← h.pair, ← popExpired_fst TradePoint.timestampNs weight _ c.trades
    (c.cumulativePriceVolume, c.cumulativeVolume)] at hpop
  have hsum := hpop.trans (sum_map_pair (fun t : TradePoint => t.price * t.volume)
    TradePoint.volume _)
  exact ⟨congrArg Prod.fst hsum, congrArg Prod.snd hsum⟩

theorem SumsMatch.update (h : SumsMatch c) (trade : TradePoint) : SumsMatch (c.update trade) := by
  have hexpired := h.removeExpired trade.timestampNs
  constructor
  · simp [VWAPCalculator.update, hexpired.priceVolume]
  · simp [VWAPCalculator.update, hexpired.volume]

theorem SumsMatch.reset (c : VWAPCalculator) : SumsMatch c.reset := ⟨rfl, rfl⟩

/-- With positive volumes the price is a mean of the retained prices. -/
theorem SumsMatch.betweenPrices (h : SumsMatch c) (htrades : c.trades ≠ [])
    (hvolume : ∀ t ∈ c.trades, 0 < t.volume) : BetweenPrices c := by
  have hnonempty : c.trades.toFinset.Nonempty := List.toFinset_nonempty_iff _ |>.mpr htrades
  obtain ⟨lo, hlo, hleast⟩ := Finset.exists_min_image _ TradePoint.price hnonempty
  obtain ⟨hi, hhi, hgreatest⟩ := Finset.exists_max_image _ TradePoint.price hnonempty
  simp only [List.mem_toFinset] at hlo hhi hleast hgreatest
  have hbounds : ∀ t ∈ c.trades, lo.price ≤ t.price ∧ t.price ≤ hi.price :=
    fun t ht => ⟨hleast t ht, hgreatest t ht⟩
  have hmean := weightedMean_mem_Icc htrades hvolume hbounds
  rw [← h.priceVolume, ← h.volume] at hmean
  have hpos : c.cumulativeVolume ≠ 0 := by
    rw [h.volume]
    refine ne_of_gt (List.sum_pos _ (fun w hw => ?_) (by simpa using htrades))
    obtain ⟨t, ht, rfl⟩ := List.mem_map.mp hw
    exact hvolume t ht
  refine ⟨lo, hlo, hi, hhi, hbounds, ?_⟩
  rw [getVwap, if_neg hpos]
  exact hmean

end VWAPCalculator

namespace OrderFlowImbalance

/-- The cumulative volumes are the sums over the retained flows. -/
structure SumsMatch (c : OrderFlowImbalance) : Prop where
  bidVolume : c.cumulativeBidVolume = (c.flows.map FlowPoint.bidVolume).sum
  askVolume : c.cumulativeAskVolume = (c.flows.map FlowPoint.askVolume).sum

variable {c : OrderFlowImbalance}

theorem SumsMatch.pair (h : SumsMatch c) :
    (c.cumulativeBidVolume, c.cumulativeAskVolume) = (c.flows.map weight).sum := by
  rw [h.bidVolume, h.askVolume, ← sum_map_pair]
  rfl

theorem SumsMatch.removeExpired (h : SumsMatch c) (currentTimeNs : UInt64) :
    SumsMatch (c.removeExpired currentTimeNs) := by
  have hpop := popExpired_snd FlowPoint.timestampNs weight (currentTimeNs - c.windowNs) c.flows
  rw [← h.pair, ← popExpired_fst FlowPoint.timestampNs weight _ c.flows
    (c.cumulativeBidVolume, c.cumulativeAskVolume)] at hpop
  have hsum := hpop.trans (sum_map_pair FlowPoint.bidVolume FlowPoint.askVolume _)
  exact ⟨congrArg Prod.fst hsum, congrArg Prod.snd hsum⟩

theorem SumsMatch.update (h : SumsMatch c) (r : Reading) : SumsMatch (c.update r) := by
  have hexpired := h.removeExpired r.timestampNs
  constructor
  · simp [OrderFlowImbalance.update, hexpired.bidVolume]
  · simp [OrderFlowImbalance.update, hexpired.askVolume]

theorem SumsMatch.reset (c : OrderFlowImbalance) : SumsMatch c.reset := ⟨rfl, rfl⟩

/-- With non-negative volumes the imbalance lies between -1 and 1. -/
theorem SumsMatch.imbalance_mem_Icc (h : SumsMatch c)
    (hvolume : ∀ f ∈ c.flows, 0 ≤ f.bidVolume ∧ 0 ≤ f.askVolume) :
    c.getImbalance ∈ Set.Icc (-1) 1 := by
  have hbid : 0 ≤ c.cumulativeBidVolume := by
    rw [h.bidVolume]
    refine List.sum_nonneg fun v hv => ?_
    obtain ⟨f, hf, rfl⟩ := List.mem_map.mp hv
    exact (hvolume f hf).1
  have hask : 0 ≤ c.cumulativeAskVolume := by
    rw [h.askVolume]
    refine List.sum_nonneg fun v hv => ?_
    obtain ⟨f, hf, rfl⟩ := List.mem_map.mp hv
    exact (hvolume f hf).2
  simp only [getImbalance]
  split
  · exact ⟨by norm_num, by norm_num⟩
  · rename_i hne
    have hpos : 0 < c.cumulativeBidVolume + c.cumulativeAskVolume :=
      lt_of_le_of_ne (add_nonneg hbid hask) (Ne.symm hne)
    exact ⟨(le_div_iff₀ hpos).mpr (by linarith), (div_le_iff₀ hpos).mpr (by linarith)⟩

end OrderFlowImbalance

namespace MarketAnalytics

/-- After any calls, with times in any order, the cumulative values are the sums over
what is retained, and the two indicators stay within their bounds. -/
theorem cumulativeSums_match (w : UInt64) :
    (∀ calls, (VWAPCalculator.windowed.after (.construct w) calls).SumsMatch ∧
      ((VWAPCalculator.windowed.after (.construct w) calls).trades ≠ [] →
        (∀ t ∈ (VWAPCalculator.windowed.after (.construct w) calls).trades, 0 < t.volume) →
        (VWAPCalculator.windowed.after (.construct w) calls).BetweenPrices)) ∧
    (∀ calls, (OrderFlowImbalance.windowed.after (.construct w) calls).SumsMatch ∧
      ((∀ f ∈ (OrderFlowImbalance.windowed.after (.construct w) calls).flows,
          0 ≤ f.bidVolume ∧ 0 ≤ f.askVolume) →
        (OrderFlowImbalance.windowed.after (.construct w) calls).getImbalance ∈
          Set.Icc (-1) 1)) := by
  constructor
  · intro calls
    have hsums : (VWAPCalculator.windowed.after (.construct w) calls).SumsMatch :=
      Windowed.after_preserves VWAPCalculator.SumsMatch (fun _ trade h => h.update trade)
        (fun c _ => .reset c) ⟨rfl, rfl⟩ calls
    exact ⟨hsums, hsums.betweenPrices⟩
  · intro calls
    have hsums : (OrderFlowImbalance.windowed.after (.construct w) calls).SumsMatch :=
      Windowed.after_preserves OrderFlowImbalance.SumsMatch (fun _ r h => h.update r)
        (fun c _ => .reset c) ⟨rfl, rfl⟩ calls
    exact ⟨hsums, hsums.imbalance_mem_Icc⟩

/-- Two trades within the window, and a book with nothing on its ask side. -/
theorem cumulativeSums_match_default :
    (VWAPCalculator.windowed.after (.construct 60) [.update ⟨42000, 1, 100⟩,
      .update ⟨42100, 2, 101⟩]).BetweenPrices ∧
    (OrderFlowImbalance.windowed.after (.construct 10)
      [.update ⟨[⟨42000, 3, 1⟩], [], 100⟩]).getImbalance ∈ Set.Icc (-1) 1 :=
  ⟨((cumulativeSums_match 60).1 _).2 (by decide +kernel) (by decide +kernel),
    ((cumulativeSums_match 10).2 _).2 (by decide +kernel)⟩

end MarketAnalytics

end OrderbookEngine
