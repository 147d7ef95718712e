import OrderbookEngine.Core.Types
import OrderbookEngine.Library.SlidingWindow

/-!
# Indicators over sliding windows

The four calculators of the analytics keep a deque of samples that their updates
trim at the front. Each method holds the calculator's mutex and is one step. The
doubles are exact rationals.
-/

namespace OrderbookEngine

open SlidingWindow

/-- `VWAPCalculator::TradePoint`. -/
structure TradePoint where
  price : ℚ
  volume : ℚ
  timestampNs : UInt64
  deriving DecidableEq, Repr

/-- The members of `VWAPCalculator`. -/
structure VWAPCalculator where
  windowNs : UInt64
  trades : List TradePoint
  cumulativePriceVolume : ℚ
  cumulativeVolume : ℚ
  deriving DecidableEq, Repr

namespace VWAPCalculator

/-- The default window, one minute. -/
def defaultWindowNs : UInt64 := 60000000000

def construct (windowNs : UInt64) : VWAPCalculator where
  windowNs := windowNs
  trades := []
  cumulativePriceVolume := 0
  cumulativeVolume := 0

/-- What a trade adds to the two cumulative values. -/
def weight (trade : TradePoint) : ℚ × ℚ := (trade.price * trade.volume, trade.volume)

/-- `remove_expired`. -/
def removeExpired (c : VWAPCalculator) (currentTimeNs : UInt64) : VWAPCalculator :=
  let cutoff := currentTimeNs - c.windowNs
  let (trades, cumulative) := popExpired TradePoint.timestampNs weight cutoff c.trades
    (c.cumulativePriceVolume, c.cumulativeVolume)
  { c with
    trades := trades
    cumulativePriceVolume := cumulative.1
    cumulativeVolume := cumulative.2 }

/-- `update`, its arguments being the members of the trade. -/
def update (c : VWAPCalculator) (trade : TradePoint) : VWAPCalculator :=
  let c := c.removeExpired trade.timestampNs
  { c with
    trades := c.trades ++ [trade]
    cumulativePriceVolume := c.cumulativePriceVolume + trade.price * trade.volume
    cumulativeVolume := c.cumulativeVolume + trade.volume }

/-- `get_vwap`. -/
def getVwap (c : VWAPCalculator) : ℚ :=
  if c.cumulativeVolume = 0 then 0 else c.cumulativePriceVolume / c.cumulativeVolume

/-- `reset`. -/
def reset (c : VWAPCalculator) : VWAPCalculator :=
  { c with trades := [], cumulativePriceVolume := 0, cumulativeVolume := 0 }

/-- The trades are a sliding window. -/
def windowed : Windowed VWAPCalculator TradePoint TradePoint where
  update := update
  reset := reset
  width := windowNs
  retained := trades
  sample := id
  time := TradePoint.timestampNs
  retained_update c trade := by
    simp only [update, removeExpired, popExpired_fst, id]
  retained_reset _ := rfl
  width_update _ _ := rfl
  width_reset _ := rfl

end VWAPCalculator

/-- `TWAPCalculator::PriceSample`. -/
structure PriceSample where
  price : ℚ
  timestampNs : UInt64
  durationNs : UInt64
  deriving DecidableEq, Repr

/-- The members of `TWAPCalculator`. -/
structure TWAPCalculator where
  windowNs : UInt64
  samples : List PriceSample
  lastTimestampNs : UInt64
  deriving DecidableEq, Repr

namespace TWAPCalculator

/-- The default window, five minutes. -/
def defaultWindowNs : UInt64 := 300000000000

def construct (windowNs : UInt64) : TWAPCalculator where
  windowNs := windowNs
  samples := []
  lastTimestampNs := 0

/-- `remove_expired`. -/
def removeExpired (c : TWAPCalculator) (currentTimeNs : UInt64) : TWAPCalculator :=
  let cutoff := currentTimeNs - c.windowNs
  { c with samples := expire PriceSample.timestampNs cutoff c.samples }

/-- `samples_.back().duration_ns = durationNs`. -/
def setBackDuration (durationNs : UInt64) : List PriceSample → List PriceSample
  | [] => []
  | [sample] => [{ sample with durationNs := durationNs }]
  | sample :: next :: rest => sample :: setBackDuration durationNs (next :: rest)

/-- The part of `update` that gives the last sample its duration. -/
def endLastSample (c : TWAPCalculator) (timestampNs : UInt64) : TWAPCalculator :=
  if c.samples ≠ [] ∧ 0 < c.lastTimestampNs then
    { c with samples := setBackDuration (timestampNs - c.lastTimestampNs) c.samples }
  else c

/-- `update`. -/
def update (c : TWAPCalculator) (price : ℚ) (timestampNs : UInt64) : TWAPCalculator :=
  let c := (c.removeExpired timestampNs).endLastSample timestampNs
  { c with
    samples := c.samples ++ [⟨price, timestampNs, 0⟩]
    lastTimestampNs := timestampNs }

/-- `get_twap`, its total duration being an unsigned word. -/
def getTwap (c : TWAPCalculator) : ℚ :=
  match c.samples.getLast? with
  | none => 0
  | some back =>
    let weightedSum := c.samples.foldl (fun (sum : ℚ) s => sum + s.price * s.durationNs.toNat) 0
    let totalDuration := c.samples.foldl (fun (total : UInt64) s => total + s.durationNs) 0
    if totalDuration = 0 then back.price else weightedSum / totalDuration.toNat

/-- `reset`. -/
def reset (c : TWAPCalculator) : TWAPCalculator := { c with samples := [], lastTimestampNs := 0 }

/-- A sample without its duration, which a later update fills in. -/
def quote (s : PriceSample) : ℚ × UInt64 := (s.price, s.timestampNs)

theorem map_quote_setBackDuration (durationNs : UInt64) (samples : List PriceSample) :
    (setBackDuration durationNs samples).map quote = samples.map quote := by
  induction samples using setBackDuration.induct with
  | case1 => rfl
  | case2 => rfl
  | case3 sample next rest ih => rw [setBackDuration, List.map_cons, ih, ← List.map_cons]

theorem map_quote_endLastSample (c : TWAPCalculator) (timestampNs : UInt64) :
    (c.endLastSample timestampNs).samples.map quote = c.samples.map quote := by
  unfold endLastSample
  split
  · exact map_quote_setBackDuration _ _
  · rfl

@[simp] theorem windowNs_endLastSample (c : TWAPCalculator) (timestampNs : UInt64) :
    (c.endLastSample timestampNs).windowNs = c.windowNs := by
  unfold endLastSample
  split <;> rfl

/-- The prices with their times are a sliding window. -/
def windowed : Windowed TWAPCalculator (ℚ × UInt64) (ℚ × UInt64) where
  update c args := c.update args.1 args.2
  reset := reset
  width := windowNs
  retained c := c.samples.map quote
  sample := id
  time := Prod.snd
  retained_update c args := by
    have hmap : expire Prod.snd (args.2 - c.windowNs) (c.samples.map quote) =
        (c.removeExpired args.2).samples.map quote := List.dropWhile_map
    simp only [update, List.map_append, map_quote_endLastSample, id, hmap]
    rfl
  retained_reset _ := rfl
  width_update c args := windowNs_endLastSample _ _
  width_reset _ := rfl

end TWAPCalculator

/-- `OrderFlowImbalance::FlowPoint`. -/
structure FlowPoint where
  bidVolume : ℚ
  askVolume : ℚ
  timestampNs : UInt64
  deriving DecidableEq, Repr

/-- The members of `OrderFlowImbalance`. -/
structure OrderFlowImbalance where
  windowNs : UInt64
  flows : List FlowPoint
  cumulativeBidVolume : ℚ
  cumulativeAskVolume : ℚ
  deriving DecidableEq, Repr

namespace OrderFlowImbalance

/-- The default window, ten seconds. -/
def defaultWindowNs : UInt64 := 10000000000

def construct (windowNs : UInt64) : OrderFlowImbalance where
  windowNs := windowNs
  flows := []
  cumulativeBidVolume := 0
  cumulativeAskVolume := 0

/-- What a flow adds to the two cumulative volumes. -/
def weight (flow : FlowPoint) : ℚ × ℚ := (flow.bidVolume, flow.askVolume)

/-- `remove_expired`. -/
def removeExpired (c : OrderFlowImbalance) (currentTimeNs : UInt64) : OrderFlowImbalance :=
  let cutoff := currentTimeNs - c.windowNs
  let (flows, cumulative) := popExpired FlowPoint.timestampNs weight cutoff c.flows
    (c.cumulativeBidVolume, c.cumulativeAskVolume)
  { c with
    flows := flows
    cumulativeBidVolume := cumulative.1
    cumulativeAskVolume := cumulative.2 }

/-- What `update` reads: the two sides of the snapshot and the clock. -/
structure Reading where
  bids : List (PriceLevelSnapshot ℚ)
  asks : List (PriceLevelSnapshot ℚ)
  timestampNs : UInt64
  deriving DecidableEq, Repr

/-- The sum of the quantities of one side. -/
def volume (levels : List (PriceLevelSnapshot ℚ)) : ℚ :=
  levels.foldl (fun sum level => sum + level.quantity) 0

/-- The flow point of a reading. -/
def flowPoint (r : Reading) : FlowPoint := ⟨volume r.bids, volume r.asks, r.timestampNs⟩

/-- `update`. -/
def update (c : OrderFlowImbalance) (r : Reading) : OrderFlowImbalance :=
  let c := c.removeExpired r.timestampNs
  let flow := flowPoint r
  { c with
    flows := c.flows ++ [flow]
    cumulativeBidVolume := c.cumulativeBidVolume + flow.bidVolume
    cumulativeAskVolume := c.cumulativeAskVolume + flow.askVolume }

/-- `get_imbalance`. -/
def getImbalance (c : OrderFlowImbalance) : ℚ :=
  let total := c.cumulativeBidVolume + c.cumulativeAskVolume
  if total = 0 then 0 else (c.cumulativeBidVolume - c.cumulativeAskVolume) / total

/-- `reset`. -/
def reset (c : OrderFlowImbalance) : OrderFlowImbalance :=
  { c with flows := [], cumulativeBidVolume := 0, cumulativeAskVolume := 0 }

/-- The flows are a sliding window. -/
def windowed : Windowed OrderFlowImbalance Reading FlowPoint where
  update := update
  reset := reset
  width := windowNs
  retained := flows
  sample := flowPoint
  time := FlowPoint.timestampNs
  retained_update c r := by
    simp only [update, removeExpired, popExpired_fst, flowPoint]
  retained_reset _ := rfl
  width_update _ _ := rfl
  width_reset _ := rfl

end OrderFlowImbalance

/-- `SpreadAnalyzer::SpreadSample`. -/
structure SpreadSample where
  bid : ℚ
  ask : ℚ
  mid : ℚ
  spread : ℚ
  spreadBps : ℚ
  timestampNs : UInt64
  deriving DecidableEq, Repr

/-- The members of `SpreadAnalyzer`. -/
structure SpreadAnalyzer where
  windowNs : UInt64
  samples : List SpreadSample
  deriving DecidableEq, Repr

namespace SpreadAnalyzer

/-- The default window, one minute. -/
def defaultWindowNs : UInt64 := 60000000000

def construct (windowNs : UInt64) : SpreadAnalyzer where
  windowNs := windowNs
  samples := []

/-- `remove_expired`. -/
def removeExpired (c : SpreadAnalyzer) (currentTimeNs : UInt64) : SpreadAnalyzer :=
  let cutoff := currentTimeNs - c.windowNs
  { c with samples := expire SpreadSample.timestampNs cutoff c.samples }

/-- The arguments of `update`. -/
structure Quote where
  bid : ℚ
  ask : ℚ
  timestampNs : UInt64
  deriving DecidableEq, Repr

/-- The sample of a bid and an ask. -/
def spreadSample (q : Quote) : SpreadSample :=
  let mid := (q.bid + q.ask) / 2
  let spread := q.ask - q.bid
  { bid := q.bid
    ask := q.ask
    mid := mid
    spread := spread
    spreadBps := if mid > 0 then spread / mid * 10000 else 0
    timestampNs := q.timestampNs }

/-- `update`. -/
def update (c : SpreadAnalyzer) (q : Quote) : SpreadAnalyzer :=
  let c := c.removeExpired q.timestampNs
  { c with samples := c.samples ++ [spreadSample q] }

/-- `reset`. -/
def reset (c : SpreadAnalyzer) : SpreadAnalyzer := { c with samples := [] }

/-- The samples are a sliding window. -/
def windowed : Windowed SpreadAnalyzer Quote SpreadSample where
  update := update
  reset := reset
  width := windowNs
  retained := samples
  sample := spreadSample
  time := SpreadSample.timestampNs
  retained_update _ _ := rfl
  retained_reset _ := rfl
  width_update _ _ := rfl
  width_reset _ := rfl

end SpreadAnalyzer

end OrderbookEngine
