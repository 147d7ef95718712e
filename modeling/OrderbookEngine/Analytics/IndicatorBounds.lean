import OrderbookEngine.Analytics.CumulativeSums
import OrderbookEngine.Analytics.TimeWeighted
import OrderbookEngine.Library.Means

/-!
# The indicators of a market

`MarketAnalytics` hands order book snapshots and trades to the four calculators. Whatever it is
handed, each indicator stays within what its calculator retains, as long as the clock does not go
back, trades have volume and no level has a negative quantity.
-/

namespace OrderbookEngine

open Means SlidingWindow Transition

/-- `SpreadStats`, with the variance for its root `std_dev_spread`. -/
structure SpreadStats where
  currentSpread : ℚ := 0
  currentSpreadBps : ℚ := 0
  averageSpread : ℚ := 0
  averageSpreadBps : ℚ := 0
  minSpread : ℚ := 0
  maxSpread : ℚ := 0
  varianceSpread : ℚ := 0
  sampleCount : Nat := 0
  deriving DecidableEq, Repr

namespace SpreadAnalyzer

/-- `calculate_stats`. The limits that the loop starts with are beyond every spread. -/
def calculateStats (c : SpreadAnalyzer) : SpreadStats :=
  match c.samples with
  | [] => {}
  | first :: rest =>
    let current := (first :: rest).getLast (List.cons_ne_nil first rest)
    let count : ℚ := (first :: rest).length
    let averageSpread := ((first :: rest).map SpreadSample.spread).sum / count
    { currentSpread := current.spread
      currentSpreadBps := current.spreadBps
      averageSpread := averageSpread
      averageSpreadBps := ((first :: rest).map SpreadSample.spreadBps).sum / count
      minSpread := rest.foldl (fun m sample => min m sample.spread) first.spread
      maxSpread := rest.foldl (fun m sample => max m sample.spread) first.spread
      varianceSpread :=
        ((first :: rest).map fun sample => (sample.spread - averageSpread) ^ 2).sum / count
      sampleCount := (first :: rest).length }

end SpreadAnalyzer

/-- The members of `MarketAnalytics`. -/
structure MarketAnalytics where
  symbol : StdString
  vwap : VWAPCalculator
  twap : TWAPCalculator
  imbalance : OrderFlowImbalance
  spread : SpreadAnalyzer
  deriving DecidableEq, Repr

namespace MarketAnalytics

def construct (symbol : StdString) : MarketAnalytics where
  symbol := symbol
  vwap := .construct VWAPCalculator.defaultWindowNs
  twap := .construct TWAPCalculator.defaultWindowNs
  imbalance := .construct OrderFlowImbalance.defaultWindowNs
  spread := .construct SpreadAnalyzer.defaultWindowNs

/-- `on_orderbook_update`. The clock is read once here and once by the imbalance. -/
def onOrderbookUpdate (m : MarketAnalytics) (bids asks : List (PriceLevelSnapshot ℚ))
    (timestampNs flowTimestampNs : UInt64) : MarketAnalytics :=
  let m := { m with imbalance := m.imbalance.update ⟨bids, asks, flowTimestampNs⟩ }
  match bids, asks with
  | bid :: _, ask :: _ =>
    { m with
      twap := m.twap.update ((bid.price + ask.price) / 2) timestampNs
      spread := m.spread.update ⟨bid.price, ask.price, timestampNs⟩ }
  | _, _ => m

/-- `on_trade`. -/
def onTrade (m : MarketAnalytics) (trade : TradePoint) : MarketAnalytics :=
  { m with vwap := m.vwap.update trade }

def reset (m : MarketAnalytics) : MarketAnalytics :=
  { m with
    vwap := m.vwap.reset
    twap := m.twap.reset
    imbalance := m.imbalance.reset
    spread := m.spread.reset }

def getVwap (m : MarketAnalytics) : ℚ := m.vwap.getVwap

def getTwap (m : MarketAnalytics) : ℚ := m.twap.getTwap

def getImbalance (m : MarketAnalytics) : ℚ := m.imbalance.getImbalance

def getSpreadStats (m : MarketAnalytics) : SpreadStats := m.spread.calculateStats

end MarketAnalytics

namespace SpreadAnalyzer

variable {c : SpreadAnalyzer}

/-- The statistics of the retained spreads are consistent. -/
structure Consistent (stats : SpreadStats) (spreads : List ℚ) : Prop where
  all : ∀ spread ∈ spreads, spread ∈ Set.Icc stats.minSpread stats.maxSpread
  current : stats.currentSpread ∈ Set.Icc stats.minSpread stats.maxSpread
  average : stats.averageSpread ∈ Set.Icc stats.minSpread stats.maxSpread
  variance : stats.varianceSpread ∈ Set.Icc 0
    ((stats.maxSpread - stats.averageSpread) * (stats.averageSpread - stats.minSpread))
  count : stats.sampleCount = spreads.length

theorem consistent (c : SpreadAnalyzer) :
    Consistent c.calculateStats (c.samples.map SpreadSample.spread) := by
  cases hsamples : c.samples with
  | nil =>
    rw [calculateStats, hsamples]
    exact ⟨List.forall_mem_nil _, ⟨le_rfl, le_rfl⟩, ⟨le_rfl, le_rfl⟩, by simp, rfl⟩
  | cons first rest =>
    have hne : first :: rest ≠ [] := List.cons_ne_nil first rest
    have hmin := foldl_min_le SpreadSample.spread rest first.spread
    have hmax := le_foldl_max SpreadSample.spread rest first.spread
    have hall : ∀ sample ∈ first :: rest, sample.spread ∈
        Set.Icc (rest.foldl (fun m sample => min m sample.spread) first.spread)
          (rest.foldl (fun m sample => max m sample.spread) first.spread) :=
      List.forall_mem_cons.mpr ⟨⟨hmin.1, hmax.1⟩, fun s hs => ⟨hmin.2 s hs, hmax.2 s hs⟩⟩
    rw [calculateStats, hsamples]
    exact ⟨List.forall_mem_map.mpr hall, hall _ (List.getLast_mem hne), mean_mem_Icc hne hall,
      ⟨variance_nonneg _ _, variance_le hne hall⟩, (List.length_map _).symm⟩

end SpreadAnalyzer

namespace TWAPCalculator

variable {c : TWAPCalculator} {samples rest : List PriceSample} {back new : PriceSample}

/-- A sample ended when the next one began, or before. -/
def EndsBy (a b : PriceSample) : Prop :=
  a.timestampNs.toNat + a.durationNs.toNat ≤ b.timestampNs.toNat

/-- The durations fit between the samples. -/
structure Fits (c : TWAPCalculator) : Prop where
  durations : c.samples.IsChain EndsBy
  last : ∀ back ∈ c.samples.getLast?, back.durationNs = 0 ∧ c.lastTimestampNs = back.timestampNs

theorem Fits.reset (c : TWAPCalculator) : Fits c.reset := ⟨.nil, nofun⟩

/-- A sample that ends, and the next one. -/
theorem isChain_endsBy (h : (rest ++ [back]).IsChain EndsBy) (durationNs : UInt64)
    (hnew : EndsBy { back with durationNs := durationNs } new) :
    (rest ++ [{ back with durationNs := durationNs }] ++ [new]).IsChain EndsBy := by
  obtain ⟨hrest, -, hlast⟩ := List.isChain_append.mp h
  refine List.isChain_append.mpr ⟨List.isChain_append.mpr ⟨hrest, .singleton _, ?_⟩,
    .singleton _, ?_⟩
  · intro x hx y hy
    obtain rfl := Option.some.inj hy
    exact hlast x hx back rfl
  · intro x hx y hy
    rw [List.getLast?_concat] at hx
    obtain rfl := Option.some.inj hx
    obtain rfl := Option.some.inj hy
    exact hnew

theorem Fits.removeExpired (h : Fits c) (now : UInt64) : Fits (c.removeExpired now) where
  durations := h.durations.suffix (expire_suffix _ _ _)
  last back hback := by
    obtain ⟨gone, hgone⟩ := expire_suffix PriceSample.timestampNs (now - c.windowNs) c.samples
    refine h.last back ?_
    rw [← hgone]
    exact List.mem_getLast?_append_of_mem_getLast? hback

/-- The sample before an update gets the time up to it, or none. -/
theorem Fits.endLastSample (h : Fits c) {now : UInt64} (hnow : c.lastTimestampNs ≤ now)
    (price : ℚ) :
    ((c.endLastSample now).samples ++ [(⟨price, now, 0⟩ : PriceSample)]).IsChain EndsBy := by
  rcases List.eq_nil_or_concat c.samples with hnil | ⟨rest, back, hsamples⟩
  · rw [TWAPCalculator.endLastSample, if_neg fun hne => hne.1 hnil, hnil]
    exact .singleton _
  · rw [List.concat_eq_append] at hsamples
    have hchain := hsamples ▸ h.durations
    obtain ⟨hduration, hlast⟩ := h.last back (by rw [hsamples, List.getLast?_concat]; rfl)
    rw [hlast, UInt64.le_iff_toNat_le] at hnow
    by_cases hzero : c.lastTimestampNs = 0
    · have hback : back = { back with durationNs := 0 } := by rw [← hduration]
      rw [endLastSample_of_zero c hzero, hsamples, hback]
      exact isChain_endsBy hchain 0 hnow
    · rw [endLastSample_of_pos hsamples (UInt64.pos_iff_ne_zero.mpr hzero), hlast]
      refine isChain_endsBy hchain _ ?_
      rw [EndsBy, UInt64.toNat_sub_of_le _ _ (UInt64.le_iff_toNat_le.mpr hnow)]
      exact (Nat.add_sub_cancel' hnow).le

theorem Fits.update (h : Fits c) {now : UInt64} (hnow : c.lastTimestampNs ≤ now) (price : ℚ) :
    Fits (c.update price now) where
  durations := (h.removeExpired now).endLastSample hnow price
  last back hback := by
    rw [TWAPCalculator.update, List.getLast?_concat] at hback
    obtain rfl := Option.some.inj hback
    exact ⟨rfl, rfl⟩

/-- The durations add up to the time between the first and the last sample, or less. -/
theorem Fits.sum_le (h : samples.IsChain EndsBy) {front : PriceSample}
    (hfront : front ∈ samples.head?) (hback : back ∈ samples.getLast?)
    (hzero : back.durationNs = 0) :
    front.timestampNs.toNat + (samples.map fun s => s.durationNs.toNat).sum ≤
      back.timestampNs.toNat := by
  induction samples generalizing front with
  | nil => cases hfront
  | cons s q ih =>
    obtain rfl : s = front := Option.some.inj hfront
    cases q with
    | nil =>
      obtain rfl : s = back := Option.some.inj hback
      simp [hzero]
    | cons s' q =>
      obtain ⟨hends, hchain⟩ := List.isChain_cons_cons.mp h
      have hrest := ih hchain rfl hback
      simp only [EndsBy] at hends
      simp only [List.map_cons, List.sum_cons] at hrest ⊢
      omega

/-- The durations add up to a word, so the price is a mean of the retained prices. -/
theorem Fits.getTwap_mem_Icc (h : Fits c) (hne : c.samples ≠ []) {lo hi : ℚ}
    (hprice : ∀ s ∈ c.samples, s.price ∈ Set.Icc lo hi) : c.getTwap ∈ Set.Icc lo hi := by
  have hback := List.getLast?_eq_some_getLast hne
  have hsum := Fits.sum_le h.durations (List.head?_eq_some_head hne) hback (h.last _ hback).1
  have htotal := toNat_foldl_durations c.samples 0
  have hlt := (c.samples.getLast hne).timestampNs.toNat_lt
  rw [UInt64.toNat_zero, Nat.zero_add, Nat.mod_eq_of_lt (by omega)] at htotal
  rw [getTwap, hback]
  simp only [foldl_price_mul, zero_add, ← UInt64.toNat_inj, htotal, UInt64.toNat_zero]
  split
  · exact hprice _ (List.getLast_mem hne)
  · rename_i hpos
    have hcast : (((c.samples.map fun s => s.durationNs.toNat).sum : ℕ) : ℚ) =
        (c.samples.map fun s => (s.durationNs.toNat : ℚ)).sum := by
      rw [Nat.cast_list_sum, List.map_map]
      rfl
    have hmean : 0 < (c.samples.map fun s => (s.durationNs.toNat : ℚ)).sum := by
      rw [← hcast]
      exact Nat.cast_pos.mpr (Nat.pos_of_ne_zero hpos)
    rw [hcast]
    exact weighted_mem_Icc hmean (fun _ _ => Nat.cast_nonneg _) hprice

end TWAPCalculator

theorem OrderFlowImbalance.volume_nonneg {levels : List (PriceLevelSnapshot ℚ)}
    (h : ∀ level ∈ levels, 0 ≤ level.quantity) : 0 ≤ volume levels := by
  have hsum : ∀ start : ℚ, levels.foldl (fun sum level => sum + level.quantity) start =
      start + (levels.map PriceLevelSnapshot.quantity).sum := by
    induction levels with
    | nil => exact fun start => (add_zero start).symm
    | cons level levels ih =>
      intro start
      rw [List.foldl_cons, ih (fun l hl => h l (List.mem_cons_of_mem _ hl)), List.map_cons,
        List.sum_cons, add_assoc]
  rw [volume, hsum, zero_add]
  exact List.sum_nonneg (List.forall_mem_map.mpr h)

namespace MarketAnalytics

/-- What the indicators of a symbol are handed. -/
inductive Event where
  | orderbookUpdate (bids asks : List (PriceLevelSnapshot ℚ)) (timestampNs flowTimestampNs : UInt64)
  | trade (trade : TradePoint)
  | reset
  deriving DecidableEq, Repr

/-- The indicators, and the last reading of the clock. -/
structure Observed where
  analytics : MarketAnalytics
  now : UInt64
  deriving DecidableEq, Repr

def next (s : Observed) : Event → Observed
  | .orderbookUpdate bids asks timestampNs flowTimestampNs =>
    ⟨s.analytics.onOrderbookUpdate bids asks timestampNs flowTimestampNs, flowTimestampNs⟩
  | .trade trade => ⟨s.analytics.onTrade trade, s.now⟩
  | .reset => ⟨s.analytics.reset, s.now⟩

/-- The clock does not go back, no quantity is negative, and trades have volume. -/
def Sane (s : Observed) : Event → Prop
  | .orderbookUpdate bids asks timestampNs flowTimestampNs =>
    (s.now ≤ timestampNs ∧ timestampNs ≤ flowTimestampNs) ∧
      (∀ level ∈ bids, 0 ≤ level.quantity) ∧ ∀ level ∈ asks, 0 ≤ level.quantity
  | .trade trade => 0 < trade.volume
  | .reset => True

instance (s : Observed) : (event : Event) → Decidable (Sane s event)
  | .orderbookUpdate bids asks timestampNs flowTimestampNs => inferInstanceAs (Decidable
      ((s.now ≤ timestampNs ∧ timestampNs ≤ flowTimestampNs) ∧
        (∀ level ∈ bids, 0 ≤ level.quantity) ∧ ∀ level ∈ asks, 0 ≤ level.quantity))
  | .trade trade => inferInstanceAs (Decidable (0 < trade.volume))
  | .reset => isTrue trivial

/-- The indicators stay within what they retain. -/
structure WithinRetained (m : MarketAnalytics) : Prop where
  vwap : if m.vwap.trades = [] then m.getVwap = 0 else m.vwap.BetweenPrices
  twap : m.twap.samples ≠ [] → ∀ lo hi,
    (∀ s ∈ m.twap.samples, s.price ∈ Set.Icc lo hi) → m.getTwap ∈ Set.Icc lo hi
  imbalance : m.getImbalance ∈ Set.Icc (-1) 1
  spread : SpreadAnalyzer.Consistent m.getSpreadStats (m.spread.samples.map SpreadSample.spread)

/-- What sane events preserve. -/
structure Inv (s : Observed) : Prop where
  vwapSums : s.analytics.vwap.SumsMatch
  volumes : ∀ t ∈ s.analytics.vwap.trades, 0 < t.volume
  twapFits : s.analytics.twap.Fits
  twapBefore : s.analytics.twap.lastTimestampNs ≤ s.now
  flowSums : s.analytics.imbalance.SumsMatch
  flows : ∀ f ∈ s.analytics.imbalance.flows, 0 ≤ f.bidVolume ∧ 0 ≤ f.askVolume

section Step

variable {s : Observed} {event : Event}

theorem inv_construct (symbol : StdString) (now : UInt64) : Inv ⟨.construct symbol, now⟩ where
  vwapSums := ⟨rfl, rfl⟩
  volumes := List.forall_mem_nil _
  twapFits := .reset (.construct TWAPCalculator.defaultWindowNs)
  twapBefore := UInt64.zero_le
  flowSums := ⟨rfl, rfl⟩
  flows := List.forall_mem_nil _

theorem Inv.withinRetained (h : Inv s) : WithinRetained s.analytics where
  vwap := by
    split
    · rename_i htrades
      have hvolume := h.vwapSums.volume
      rw [htrades, List.map_nil, List.sum_nil] at hvolume
      rw [getVwap, VWAPCalculator.getVwap, if_pos hvolume]
    · rename_i htrades
      exact h.vwapSums.betweenPrices htrades h.volumes
  twap hne _ _ hprice := h.twapFits.getTwap_mem_Icc hne hprice
  imbalance := h.flowSums.imbalance_mem_Icc h.flows
  spread := s.analytics.spread.consistent

theorem Inv.trade (h : Inv s) {trade : TradePoint} (hvolume : 0 < trade.volume) :
    Inv (next s (.trade trade)) where
  vwapSums := h.vwapSums.update trade
  volumes := VWAPCalculator.windowed.forall_retained_update h.volumes hvolume
  twapFits := h.twapFits
  twapBefore := h.twapBefore
  flowSums := h.flowSums
  flows := h.flows

theorem inv_reset (s : Observed) : Inv (next s .reset) where
  vwapSums := .reset _
  volumes := List.forall_mem_nil _
  twapFits := .reset _
  twapBefore := UInt64.zero_le
  flowSums := .reset _
  flows := List.forall_mem_nil _

theorem Inv.orderbookUpdate (h : Inv s) {bids asks : List (PriceLevelSnapshot ℚ)}
    {timestampNs flowTimestampNs : UInt64}
    (hsane : Sane s (.orderbookUpdate bids asks timestampNs flowTimestampNs)) :
    Inv (next s (.orderbookUpdate bids asks timestampNs flowTimestampNs)) := by
  obtain ⟨⟨hnow, hlater⟩, hbids, hasks⟩ := hsane
  have hbefore := UInt64.le_trans h.twapBefore hnow
  have hsums := h.flowSums.update ⟨bids, asks, flowTimestampNs⟩
  have hflows : ∀ f ∈ (s.analytics.imbalance.update ⟨bids, asks, flowTimestampNs⟩).flows,
      0 ≤ f.bidVolume ∧ 0 ≤ f.askVolume :=
    OrderFlowImbalance.windowed.forall_retained_update h.flows
      ⟨OrderFlowImbalance.volume_nonneg hbids, OrderFlowImbalance.volume_nonneg hasks⟩
  have hunread := UInt64.le_trans hbefore hlater
  -- only a book with both sides is quoted
  cases bids with
  | nil => exact ⟨h.vwapSums, h.volumes, h.twapFits, hunread, hsums, hflows⟩
  | cons bid bids =>
    cases asks with
    | nil => exact ⟨h.vwapSums, h.volumes, h.twapFits, hunread, hsums, hflows⟩
    | cons ask asks =>
      exact ⟨h.vwapSums, h.volumes, h.twapFits.update hbefore _, hlater, hsums, hflows⟩

theorem Inv.next (h : Inv s) (hsane : Sane s event) : Inv (next s event) := by
  cases event with
  | orderbookUpdate => exact h.orderbookUpdate hsane
  | trade => exact h.trade hsane
  | reset => exact inv_reset s

end Step

/-- In every run of sane events the indicators stay within what they retain: the
volume-weighted price between the least and the greatest retained price of a trade, the
time-weighted price between any bounds of the retained prices, the imbalance between -1 and 1, and
the statistics of the spread consistent. -/
theorem withinRetained_throughout (symbol : StdString) (now : UInt64) {tr : List (Event × Observed)}
    (hrun : IsRun (fun s event t => Sane s event ∧ t = next s event) ⟨construct symbol, now⟩ tr) :
    Throughout (fun s => WithinRetained s.analytics) ⟨construct symbol, now⟩ tr := by
  have hinv : Throughout Inv ⟨construct symbol, now⟩ tr := by
    refine hrun.throughout Inv ?_ (inv_construct symbol now)
    rintro s event t h ⟨hsane, rfl⟩
    exact h.next hsane
  exact hinv.mono fun _ => Inv.withinRetained

/-- Two updates of a book around a trade, and a reset. -/
def quotedTwice : List Event :=
  [.orderbookUpdate [⟨42000, 1, 1⟩] [⟨42002, 2, 1⟩] 400000000000 400000000001,
    .trade ⟨42001, 1, 400000000002⟩,
    .orderbookUpdate [⟨42004, 1, 1⟩] [⟨42006, 1, 1⟩] 400000000003 400000000004,
    .reset]

theorem withinRetained_throughout_quotedTwice :
    Throughout (fun s => WithinRetained s.analytics) ⟨construct (lit "BTC-USD"), 0⟩
      (runOf next ⟨construct (lit "BTC-USD"), 0⟩ quotedTwice) :=
  withinRetained_throughout _ _ (isRun_runOf_of_enabled (by decide +kernel))

/-- An update that comes after a later one makes the total of the durations wrap. -/
example : 43000 < ((((TWAPCalculator.construct 300000000000).update 42000 400000000002).update
    43000 400000000001).update 42000 400000000003).getTwap := by decide +kernel

end MarketAnalytics

end OrderbookEngine
