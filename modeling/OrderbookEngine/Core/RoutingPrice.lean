import OrderbookEngine.Core.Routing

/-!
# Expected price and primary exchange of a routed order

A single venue is quoted at its best price even when the order goes deeper, and a
split order is priced from each exchange's total allocation instead of the fills.
The primary exchange is the one with the lowest number, whatever its allocation.
-/

namespace OrderbookEngine.AggregatedOrderBook

open GreedyFill

variable {D : Type} [LinearOrder D] [Field D]

/-- The volume-weighted average price of a fill. -/
def averagePrice (levels : List (AggregatedPriceLevel D)) (fill : AggregatedPriceLevel D → D) :
    D := cost (·.price) levels fill / total levels fill

/-- A price is the average of a fill, between a least and a greatest price that the
fill pays. -/
structure ExecutionPrice (levels : List (AggregatedPriceLevel D))
    (fill : AggregatedPriceLevel D → D) (price : D) : Prop where
  average : price = averagePrice levels fill
  above : ∃ l ∈ levels, 0 < fill l ∧ l.price ≤ price
  below : ∃ l ∈ levels, 0 < fill l ∧ price ≤ l.price

/-- The recommendation expects the price of the greedy fill that it allocates. -/
def ExpectsTruePrice (std : StdChoices) (book : AggregatedOrderBook D) (side : OrderSide)
    (quantity : D) (now : UInt64) : Prop :=
  ∃ rec, book.recommendRouting std side quantity now = some rec ∧
    ExecutionPrice (book.relevantLevels side) (routedFill std book side quantity)
      rec.expectedPrice

/-- A level that is neither exhausted nor filled with all that its exchange is allocated. -/
def OverCounted (levels : List (AggregatedPriceLevel D)) (fill : AggregatedPriceLevel D → D)
    (l : AggregatedPriceLevel D) : Prop :=
  fill l < l.quantity ∧ fill l < allocatedOn levels fill l.exchange

/-- The fill touches one exchange only. -/
def OnOneExchange (levels : List (AggregatedPriceLevel D)) (fill : AggregatedPriceLevel D → D) :
    Prop := ∃ exchange, ∀ l ∈ levels, 0 < fill l → l.exchange = exchange

/-- On one exchange only one price is paid. On several, no level is over-counted, or the
levels that are filled or over-counted have one price. -/
structure PricedFairly (levels : List (AggregatedPriceLevel D))
    (fill : AggregatedPriceLevel D → D) : Prop where
  single : OnOneExchange levels fill → ∃ price, ∀ l ∈ levels, 0 < fill l → l.price = price
  split : ¬ OnOneExchange levels fill → (∀ l ∈ levels, ¬ OverCounted levels fill l) ∨
    ∃ price, ∀ l ∈ levels, 0 < fill l ∨ OverCounted levels fill l → l.price = price

/-- The routing returns, and the allocation of the primary exchange is the largest. -/
def RoutesToLargest (std : StdChoices) (book : AggregatedOrderBook D) (side : OrderSide)
    (quantity : D) (now : UInt64) : Prop :=
  ∃ rec, book.recommendRouting std side quantity now = some rec ∧
    ∀ (exchange : Exchange) (a : D),
      (routedAllocations std book side quantity)[exchange]? = some a →
        ∃ b, (routedAllocations std book side quantity)[rec.primaryExchange]? = some b ∧ a ≤ b

/-- The lowest-numbered exchange that the fill touches receives the most. -/
def LowestReceivesMost (levels : List (AggregatedPriceLevel D))
    (fill : AggregatedPriceLevel D → D) : Prop :=
  ∃ l ∈ levels, 0 < fill l ∧
    (∀ l' ∈ levels, 0 < fill l' → l.exchange.val ≤ l'.exchange.val) ∧
    ∀ exchange, allocatedOn levels fill exchange ≤ allocatedOn levels fill l.exchange

section Weights

variable {levels : List (AggregatedPriceLevel D)} {fill : AggregatedPriceLevel D → D}
  {allocations : Std.TreeMap Exchange D}

/-- What the second loop weighs a level with. -/
def weight (levels : List (AggregatedPriceLevel D)) (fill : AggregatedPriceLevel D → D)
    (l : AggregatedPriceLevel D) : D :=
  min (allocatedOn levels fill l.exchange) l.quantity

/-- The loop weighs the levels of the exchanges with an allocation. -/
theorem priceLevel_eq (h : Allocates levels fill allocations)
    (hwithin : Within (·.quantity) levels fill) (totals : D × D) {l : AggregatedPriceLevel D}
    (hl : l ∈ levels) : priceLevel allocations totals l =
      (totals.1 + weight levels fill l * l.price, totals.2 + weight levels fill l) := by
  rw [priceLevel]
  cases ha : allocations[l.exchange]? with
  | some a => rw [weight, (h.getElem?_eq_some_iff.mp ha).1]
  | none =>
    have hnone : allocatedOn levels fill l.exchange = 0 := by
      rw [← h.getD, Std.TreeMap.getD_eq_getD_getElem?, ha]
      rfl
    have hquantity : 0 ≤ l.quantity := (hwithin l hl).1.trans (hwithin l hl).2
    simp [weight, hnone, min_eq_left hquantity]

/-- The second loop sums the weights and their prices. -/
theorem foldl_priceLevel (h : Allocates levels fill allocations)
    (hwithin : Within (·.quantity) levels fill) {ls : List (AggregatedPriceLevel D)}
    (hls : ∀ l ∈ ls, l ∈ levels) (totals : D × D) :
    ls.foldl (priceLevel allocations) totals =
      (totals.1 + cost (·.price) ls (weight levels fill),
        totals.2 + total ls (weight levels fill)) := by
  induction ls generalizing totals with
  | nil => simp [cost]
  | cons l ls ih =>
    rw [List.foldl_cons, priceLevel_eq h hwithin totals (hls l List.mem_cons_self),
      ih fun l' hl' => hls l' (List.mem_cons_of_mem _ hl')]
    simp only [cost, total_cons, List.map_cons, List.sum_cons, add_assoc]

/-- A level is weighed more than it is filled exactly when it is over-counted. -/
theorem lt_weight_iff {l : AggregatedPriceLevel D} :
    fill l < weight levels fill l ↔ OverCounted levels fill l := by
  rw [weight, lt_min_iff, OverCounted, and_comm]

variable [IsStrictOrderedRing D]

theorem le_allocatedOn (hnonneg : ∀ l ∈ levels, 0 ≤ fill l) {l : AggregatedPriceLevel D}
    (hl : l ∈ levels) : fill l ≤ allocatedOn levels fill l.exchange := by
  refine List.single_le_sum (fun x hx => ?_) _
    (List.mem_map_of_mem (List.mem_filter.mpr ⟨hl, by simp⟩))
  obtain ⟨l', hl', rfl⟩ := List.mem_map.mp hx
  exact hnonneg l' (List.mem_of_mem_filter hl')

/-- No level is weighed less than it is filled. -/
theorem le_weight (h : Within (·.quantity) levels fill) {l : AggregatedPriceLevel D}
    (hl : l ∈ levels) : fill l ≤ weight levels fill l :=
  le_min (le_allocatedOn (fun l' hl' => (h l' hl').1) hl) (h l hl).2

/-- A split order is priced at the average of the weights. -/
theorem splitPrice_eq (h : Allocates levels fill allocations)
    (hwithin : Within (·.quantity) levels fill) (hpos : 0 < total levels fill)
    {ls : List (AggregatedPriceLevel D)} (hperm : ls.Perm levels) :
    splitPrice allocations ls = averagePrice levels (weight levels fill) := by
  have hweights : 0 < total levels (weight levels fill) :=
    hpos.trans_le (total_le_total fun l hl => le_weight hwithin hl)
  rw [splitPrice, foldl_priceLevel h hwithin fun l hl => hperm.mem_iff.mp hl]
  simp only [zero_add]
  rw [total_perm hperm, cost_perm hperm, if_pos hweights, averagePrice]

end Weights

section Price

variable [IsStrictOrderedRing D] (std : StdChoices) {book : AggregatedOrderBook D}
  {side : OrderSide} {quantity : D} {now : UInt64}
  {levels : List (AggregatedPriceLevel D)} {fill : AggregatedPriceLevel D → D}

/-- An average price lies between prices that are paid. -/
theorem executionPrice_averagePrice (hwithin : Within (·.quantity) levels fill)
    (hpos : 0 < total levels fill) :
    ExecutionPrice levels fill (averagePrice levels fill) := by
  have hcost : cost (·.price) levels fill = averagePrice levels fill * total levels fill :=
    (div_mul_cancel₀ _ hpos.ne').symm
  have hnonneg : ∀ l ∈ levels, 0 ≤ fill l := fun l hl => (hwithin l hl).1
  exact ⟨rfl, exists_price_le hnonneg hpos hcost, exists_le_price hnonneg hpos hcost⟩

omit [LinearOrder D] [IsStrictOrderedRing D] in
/-- Costs and prices compare alike on both sides. -/
theorem costPrice_inj {l l' : AggregatedPriceLevel D} :
    costPrice side l = costPrice side l' ↔ l.price = l'.price := by
  cases side with
  | buy => exact Iff.rfl
  | sell => exact neg_inj

/-- The best price is the average of the fill exactly when no other price is paid. -/
theorem price_eq_averagePrice_iff (hwithin : Within (·.quantity) levels fill)
    {best : AggregatedPriceLevel D} (hbest : ∀ l ∈ levels, costPrice side best ≤ costPrice side l)
    (hpos : 0 < total levels fill) :
    best.price = averagePrice levels fill ↔
      ∀ l ∈ levels, 0 < fill l → l.price = best.price := by
  have hiff := cost_eq_iff_of_le (fun l hl => (hwithin l hl).1) hbest
  simp only [costPrice_inj] at hiff
  rw [← hiff, averagePrice, eq_div_iff hpos.ne', eq_comm]
  cases side with
  | buy => exact Iff.rfl
  | sell => simp only [costPrice, cost_neg, neg_mul, neg_inj]

/-- The average of the weights is that of the fill exactly when the over-counted levels,
if any, have the one price that is paid. -/
theorem averagePrice_weight_iff {c : D}
    (hmarginal : Marginal (·.quantity) (costPrice side) levels fill c)
    (hwithin : Within (·.quantity) levels fill) (hpos : 0 < total levels fill) :
    averagePrice levels (weight levels fill) = averagePrice levels fill ↔
      (∀ l ∈ levels, ¬ OverCounted levels fill l) ∨
        ∃ price, ∀ l ∈ levels, 0 < fill l ∨ OverCounted levels fill l → l.price = price := by
  have hweight : ∀ l ∈ levels, fill l ≤ weight levels fill l := fun l hl => le_weight hwithin hl
  have hweights := hpos.trans_le (total_le_total hweight)
  have hpaid : ∀ l ∈ levels, 0 < fill l → costPrice side l ≤ c :=
    fun l hl hfill => not_lt.mp fun hlt => hfill.ne' ((hmarginal l hl).2 hlt)
  have hexcess : ∀ l ∈ levels, fill l < weight levels fill l → c ≤ costPrice side l :=
    fun l hl hfill => not_lt.mp fun hlt =>
      (lt_weight_iff.mp hfill).1.ne ((hmarginal l hl).1 hlt)
  have hiff := average_eq_iff (fun l hl => (hwithin l hl).1) hweight hpos hpaid hexcess
  simp only [lt_weight_iff] at hiff
  have hcross : averagePrice levels (weight levels fill) = averagePrice levels fill ↔
      cost (costPrice side) levels (weight levels fill) * total levels fill =
        cost (costPrice side) levels fill * total levels (weight levels fill) := by
    rw [averagePrice, averagePrice, div_eq_div_iff hweights.ne' hpos.ne']
    cases side with
    | buy => exact Iff.rfl
    | sell => simp only [costPrice, cost_neg, neg_mul, neg_inj]
  rw [hcross, hiff]
  refine or_congr (forall₂_congr fun l hl => ?_) ?_
  · rw [← lt_weight_iff, not_lt]
    exact ⟨fun heq => heq.le, fun hle => le_antisymm hle (hweight l hl)⟩
  · cases side with
    | buy => exact Iff.rfl
    | sell =>
      constructor
      · rintro ⟨p, hp⟩
        exact ⟨-p, fun l hl h => neg_eq_iff_eq_neg.mp (hp l hl h)⟩
      · rintro ⟨p, hp⟩
        exact ⟨-p, fun l hl h => congrArg Neg.neg (hp l hl h)⟩

omit [IsStrictOrderedRing D] in
/-- The allocations of a fill of one exchange have one entry. -/
theorem Allocates.onOneExchange_iff {allocations : Std.TreeMap Exchange D}
    (h : Allocates levels fill allocations) (hne : allocations.toList ≠ []) :
    OnOneExchange levels fill ↔ ∃ primary a, allocations.toList = [(primary, a)] := by
  have hentry : ∀ e ∈ allocations.toList, ∃ l ∈ levels, l.exchange = e.1 ∧ 0 < fill l := by
    intro e he
    exact (h.getElem?_eq_some_iff.mp (Std.TreeMap.mem_toList_iff_getElem?_eq_some.mp he)).2
  constructor
  · rintro ⟨exchange, honly⟩
    have hexchange : ∀ e ∈ allocations.toList, e.1 = exchange := by
      intro e he
      obtain ⟨l, hl, hle, hfill⟩ := hentry e he
      rw [← hle, honly l hl hfill]
    have hnd := nodup_exchanges allocations
    cases hlist : allocations.toList with
    | nil => exact absurd hlist hne
    | cons e more =>
      cases more with
      | nil => exact ⟨e.1, e.2, rfl⟩
      | cons e' more =>
        rw [hlist] at hnd hexchange
        have heq : e.1 = e'.1 :=
          (hexchange e (by simp)).trans (hexchange e' (by simp)).symm
        simp [heq] at hnd
  · rintro ⟨primary, a, hlist⟩
    exact ⟨primary, fun l hl hfill => h.exchange_eq_of_single hlist hl hfill⟩

/-- The greedy fill of an order of a positive quantity fills something, and has a
marginal price. -/
theorem Stocked.exists_marginal_routedFill (h : Stocked book) (side : OrderSide)
    (hq : 0 < quantity) : ∃ c, Marginal (·.quantity) (costPrice side)
      (book.relevantLevels side) (routedFill std book side quantity) c := by
  obtain ⟨c, hc⟩ := exists_marginal AggregatedPriceLevel.quantity
    (h.nodup_consumedLevels std side) (sorted_consumedLevels std book side) hq
  exact ⟨c, fun l hl => hc l ((consumedLevels_perm std book side).mem_iff.mpr hl)⟩

theorem Stocked.total_routedFill_pos (h : Stocked book) (hq : 0 < quantity)
    {best : AggregatedPriceLevel D} {rest : List (AggregatedPriceLevel D)}
    (hlevels : consumedLevels std book side = best :: rest) :
    0 < total (book.relevantLevels side) (routedFill std book side quantity) := by
  have hoptimal := h.optimalFill std side hq
  have hmem : best ∈ book.relevantLevels side :=
    (consumedLevels_perm std book side).mem_iff.mp (by simp [hlevels])
  have hnonneg : ∀ l ∈ book.relevantLevels side, 0 ≤ routedFill std book side quantity l :=
    fun l hl => (hoptimal.within l hl).1
  refine lt_of_le_of_ne (total_nonneg hnonneg) fun hzero => ?_
  have hbest := (sum_eq_zero_iff hnonneg).mp hzero.symm best hmem
  exact (h.exists_touched std hq hlevels).ne' hbest

/-- The first level consumed has the best price. -/
theorem costPrice_best_le {best : AggregatedPriceLevel D} {rest : List (AggregatedPriceLevel D)}
    (hlevels : consumedLevels std book side = best :: rest) :
    ∀ l ∈ book.relevantLevels side, costPrice side best ≤ costPrice side l := by
  have hperm := consumedLevels_perm std book side
  have hsorted := sorted_consumedLevels std book side
  rw [hlevels] at hsorted hperm
  intro l hl
  rcases List.mem_cons.mp (hperm.mem_iff.mpr hl) with rfl | hl
  · exact le_refl _
  · exact List.rel_of_pairwise_cons hsorted hl

/-- The expected price is the execution price exactly when it is the average price. -/
theorem expectsTruePrice_iff_average {now : UInt64} {rec : RoutingRecommendation D}
    (hrec : book.recommendRouting std side quantity now = some rec)
    (hwithin : Within (·.quantity) (book.relevantLevels side)
      (routedFill std book side quantity))
    (hpos : 0 < total (book.relevantLevels side) (routedFill std book side quantity)) :
    ExpectsTruePrice std book side quantity now ↔ rec.expectedPrice =
      averagePrice (book.relevantLevels side) (routedFill std book side quantity) := by
  constructor
  · rintro ⟨rec', hrec', hprice⟩
    rw [hrec, Option.some.injEq] at hrec'
    rw [hrec']
    exact hprice.average
  · intro heq
    exact ⟨rec, hrec, heq ▸ executionPrice_averagePrice hwithin hpos⟩

/-- After any updates and clears an order of a positive quantity is expected to execute
at the average price of its fill exactly when the fill is priced fairly. -/
theorem expectsTruePrice_iff (symbol : StdString) (calls : List (Call D)) (side : OrderSide)
    (quantity : D) (now : UInt64) (hq : 0 < quantity)
    (hlevels : (run symbol calls).relevantLevels side ≠ []) :
    ExpectsTruePrice std (run symbol calls) side quantity now ↔
      PricedFairly ((run symbol calls).relevantLevels side)
        (routedFill std (run symbol calls) side quantity) := by
  have hstocked := stocked_run symbol calls
  have hperm := consumedLevels_perm std (run symbol calls) side
  have hwithin := (hstocked.optimalFill std side hq).within
  have hallocates := hstocked.allocates std side quantity
  cases hconsumed : consumedLevels std (run symbol calls) side with
  | nil =>
    rw [hconsumed] at hperm
    exact absurd hperm.nil_eq.symm hlevels
  | cons best rest =>
    have hpos := hstocked.total_routedFill_pos std hq hconsumed
    have hone := hallocates.onOneExchange_iff (hstocked.routedAllocations_ne_nil std hq hconsumed)
    rcases hstocked.recommendRouting_cases std hq now hconsumed with
      ⟨primary, a, hlist, hrec⟩ | ⟨e, e', more, hlist, hrec⟩
    · have hsingle : OnOneExchange _ _ := hone.mpr ⟨primary, a, hlist⟩
      have hbest := costPrice_best_le std hconsumed
      rw [expectsTruePrice_iff_average std hrec hwithin hpos,
        price_eq_averagePrice_iff hwithin hbest hpos]
      constructor
      · exact fun h => ⟨fun _ => ⟨best.price, h⟩, fun hnot => absurd hsingle hnot⟩
      · intro h
        obtain ⟨p, hp⟩ := h.single hsingle
        rw [hconsumed] at hperm
        intro l hl hfill
        rw [hp l hl hfill, hp best (hperm.mem_iff.mp List.mem_cons_self)
          (hstocked.exists_touched std hq hconsumed)]
    · have hsplit : ¬ OnOneExchange ((run symbol calls).relevantLevels side)
          (routedFill std (run symbol calls) side quantity) := by
        intro hsingle
        obtain ⟨primary, a, heq⟩ := hone.mp hsingle
        rw [hlist] at heq
        cases heq
      obtain ⟨c, hc⟩ := hstocked.exists_marginal_routedFill std side hq
      rw [expectsTruePrice_iff_average std hrec hwithin hpos, ← hconsumed,
        splitPrice_eq hallocates hwithin hpos (consumedLevels_perm std _ side),
        averagePrice_weight_iff hc hwithin hpos]
      exact ⟨fun h => ⟨fun hnot => absurd hnot hsplit, fun _ => h⟩, fun h => h.split hsplit⟩

/-- One exchange asks 100 and 110 for a unit each. -/
def twoLevels : List (Call ℚ) :=
  [.update ⟨.binance, lit "BTC-USD", 1, 1, [], [⟨100, 1, 1⟩, ⟨110, 1, 1⟩]⟩]

theorem expectsTruePrice_iff_twoLevels :
    ExpectsTruePrice .stable (run (lit "BTC-USD") twoLevels) .buy 1 9 ↔
      PricedFairly ((run (lit "BTC-USD") twoLevels).relevantLevels .buy)
        (routedFill .stable (run (lit "BTC-USD") twoLevels) .buy 1) :=
  expectsTruePrice_iff .stable _ _ _ _ _ (by norm_num) (by decide +kernel)

/-- Two units cost 105 each, but 100 is expected. -/
theorem expectsTruePrice_fails :
    ¬ ExpectsTruePrice .stable (run (lit "BTC-USD") twoLevels) .buy 2 9 := by
  rintro ⟨rec, hrec, hprice⟩
  have hexpected : ((run (lit "BTC-USD") twoLevels).recommendRouting .stable .buy 2 9).map
      (·.expectedPrice) = some 100 := by decide +kernel
  have haverage : averagePrice ((run (lit "BTC-USD") twoLevels).relevantLevels .buy)
      (routedFill .stable (run (lit "BTC-USD") twoLevels) .buy 2) = 105 := by decide +kernel
  have heq := hprice.average
  rw [haverage] at heq
  rw [hrec, Option.map_some, Option.some.injEq, heq] at hexpected
  norm_num at hexpected

end Price

section Primary

variable [IsStrictOrderedRing D] (std : StdChoices) {side : OrderSide} {quantity : D}
  {now : UInt64} {levels : List (AggregatedPriceLevel D)} {fill : AggregatedPriceLevel D → D}
  {allocations : Std.TreeMap Exchange D}

omit [LinearOrder D] [Field D] [IsStrictOrderedRing D] in
/-- The first allocation belongs to the lowest-numbered exchange. -/
theorem first_allocation_le {e : Exchange × D} {more : List (Exchange × D)}
    (hlist : allocations.toList = e :: more) :
    ∀ e' ∈ allocations.toList, e.1.val ≤ e'.1.val := by
  intro e' he'
  have hsorted := Std.TreeMap.ordered_keys_toList (t := allocations)
  rw [hlist] at he' hsorted
  rcases List.mem_cons.mp he' with rfl | he'
  · exact UInt8.le_refl _
  · have hlt : compare e.1.val e'.1.val = .lt := List.rel_of_pairwise_cons hsorted he'
    exact UInt8.le_of_lt (compareOfLessAndEq_eq_lt.mp hlt)

/-- The first allocation is the largest exactly when the lowest-numbered exchange
receives the most. -/
theorem Allocates.first_largest_iff (h : Allocates levels fill allocations)
    (hnonneg : ∀ l ∈ levels, 0 ≤ fill l) {e : Exchange × D} {more : List (Exchange × D)}
    (hlist : allocations.toList = e :: more) :
    (∀ (exchange : Exchange) (a : D), allocations[exchange]? = some a →
        ∃ b, allocations[e.1]? = some b ∧ a ≤ b) ↔ LowestReceivesMost levels fill := by
  have hfirst : allocations[e.1]? = some e.2 := by
    rw [← Std.TreeMap.mem_toList_iff_getElem?_eq_some, hlist]
    exact List.mem_cons_self
  obtain ⟨hvalue, l, hl, hexchange, hfill⟩ := h.getElem?_eq_some_iff.mp hfirst
  have hentry : ∀ l' ∈ levels, 0 < fill l' →
      allocations[l'.exchange]? = some (allocatedOn levels fill l'.exchange) :=
    fun l' hl' hfill' => h.getElem?_eq_some_iff.mpr ⟨rfl, l', hl', rfl, hfill'⟩
  have hlowest : ∀ l' ∈ levels, 0 < fill l' → l.exchange.val ≤ l'.exchange.val := by
    intro l' hl' hfill'
    rw [hexchange]
    exact first_allocation_le hlist _
      (Std.TreeMap.mem_toList_iff_getElem?_eq_some.mpr (hentry l' hl' hfill'))
  constructor
  · intro hlargest
    refine ⟨l, hl, hfill, hlowest, fun exchange => ?_⟩
    by_cases htouched : ∃ l' ∈ levels, l'.exchange = exchange ∧ 0 < fill l'
    · obtain ⟨l', hl', rfl, hfill'⟩ := htouched
      obtain ⟨b, hb, hle⟩ := hlargest _ _ (hentry l' hl' hfill')
      rw [hfirst, Option.some.injEq] at hb
      rw [hexchange, ← hvalue, hb]
      exact hle
    · have hzero : allocatedOn levels fill exchange = 0 := by
        rw [← h.getD, Std.TreeMap.getD_eq_getD_getElem?]
        cases ha : allocations[exchange]? with
        | none => rfl
        | some a => exact absurd (h.getElem?_eq_some_iff.mp ha).2 htouched
      rw [hzero]
      exact hfill.le.trans (le_allocatedOn hnonneg hl)
  · rintro ⟨l₀, hl₀, hfill₀, hlowest₀, hmost⟩ exchange a ha
    have hsame : l₀.exchange = e.1 := by
      have hval : l₀.exchange.val = l.exchange.val :=
        UInt8.le_antisymm (hlowest₀ l hl hfill) (hlowest l₀ hl₀ hfill₀)
      rw [← hexchange]
      exact congrArg Exchange.mk hval
    refine ⟨e.2, hfirst, ?_⟩
    rw [(h.getElem?_eq_some_iff.mp ha).1, hvalue, ← hsame]
    exact hmost exchange

/-- After any updates and clears the routing returns and names an exchange of the
largest allocation exactly when there is nothing to consume, or the quantity is
positive and the lowest-numbered exchange receives the most. -/
theorem routesToLargest_iff (symbol : StdString) (calls : List (Call D)) (side : OrderSide)
    (quantity : D) (now : UInt64) :
    RoutesToLargest std (run symbol calls) side quantity now ↔
      (run symbol calls).relevantLevels side = [] ∨ 0 < quantity ∧
        LowestReceivesMost ((run symbol calls).relevantLevels side)
          (routedFill std (run symbol calls) side quantity) := by
  have hstocked := stocked_run symbol calls
  have hperm := consumedLevels_perm std (run symbol calls) side
  cases hconsumed : consumedLevels std (run symbol calls) side with
  | nil =>
    rw [hconsumed] at hperm
    refine iff_of_true ⟨_, recommendRouting_of_nil std hconsumed, fun exchange a ha => ?_⟩
      (Or.inl hperm.nil_eq.symm)
    rw [routedAllocations, hconsumed, fillLoop] at ha
    simp at ha
  | cons best rest =>
    have hmem : best ∈ (run symbol calls).relevantLevels side :=
      hperm.mem_iff.mp (by simp [hconsumed])
    have hcases := recommendRouting_of_cons std quantity now hconsumed
    rw [or_iff_right (List.ne_nil_of_mem hmem)]
    rcases le_or_gt quantity 0 with hq | hq
    · -- the loop stops before its first allocation
      have hempty : routedAllocations std (run symbol calls) side quantity = ∅ := by
        rw [routedAllocations, hconsumed, fillLoop, if_pos hq]
      have hnil : (∅ : Std.TreeMap Exchange D).toList = [] := rfl
      rw [hempty, hnil] at hcases
      refine iff_of_false ?_ fun h => absurd h.1 (not_lt.mpr hq)
      rintro ⟨rec, hrec, -⟩
      rw [hcases] at hrec
      cases hrec
    · have hwithin := (hstocked.optimalFill std side hq).within
      obtain ⟨e, more, rec, hlist, hrec, hfirst⟩ : ∃ e more rec,
          (routedAllocations std (run symbol calls) side quantity).toList = e :: more ∧
          (run symbol calls).recommendRouting std side quantity now = some rec ∧
          rec.primaryExchange = e.1 := by
        rcases hstocked.recommendRouting_cases std hq now hconsumed with
          ⟨primary, a, hlist, hrec⟩ | ⟨e, e', more, hlist, hrec⟩
        · exact ⟨_, _, _, hlist, hrec, rfl⟩
        · exact ⟨_, _, _, hlist, hrec, rfl⟩
      rw [and_iff_right hq, ← (hstocked.allocates std side quantity).first_largest_iff
        (fun l hl => (hwithin l hl).1) hlist]
      constructor
      · rintro ⟨rec', hrec', hall⟩
        rw [hrec, Option.some.injEq] at hrec'
        rw [← hrec', hfirst] at hall
        exact hall
      · intro hall
        exact ⟨rec, hrec, hfirst ▸ hall⟩

/-- The first exchange asks less, the second has more. -/
def smallFirst : List (Call ℚ) :=
  [.update ⟨.binance, lit "BTC-USD", 1, 1, [], [⟨100, 1, 1⟩]⟩,
    .update ⟨.coinbase, lit "BTC-USD", 2, 1, [], [⟨101, 2, 1⟩]⟩]

theorem routesToLargest_iff_smallFirst :
    RoutesToLargest .stable (run (lit "BTC-USD") smallFirst) .buy 1 9 ↔
      (run (lit "BTC-USD") smallFirst).relevantLevels .buy = [] ∨ 0 < (1 : ℚ) ∧
        LowestReceivesMost ((run (lit "BTC-USD") smallFirst).relevantLevels .buy)
          (routedFill .stable (run (lit "BTC-USD") smallFirst) .buy 1) :=
  routesToLargest_iff .stable _ _ _ _ _

/-- An order of nothing dereferences the first of no allocations, and an order of three
units names the exchange that fills one of them. -/
theorem routesToLargest_fails :
    ¬ RoutesToLargest .stable (run (lit "BTC-USD") smallFirst) .buy 0 9 ∧
      ¬ RoutesToLargest .stable (run (lit "BTC-USD") smallFirst) .buy 3 9 := by
  constructor
  · rintro ⟨rec, hrec, -⟩
    have hnone : ((run (lit "BTC-USD") smallFirst).recommendRouting .stable .buy 0 9).isNone := by
      decide +kernel
    rw [hrec] at hnone
    cases hnone
  · rintro ⟨rec, hrec, hlargest⟩
    have hprimary : ((run (lit "BTC-USD") smallFirst).recommendRouting .stable .buy 3 9).map
        (·.primaryExchange) = some .binance := by decide +kernel
    have hbinance : (routedAllocations .stable (run (lit "BTC-USD") smallFirst) .buy
        3)[Exchange.binance]? = some 1 := by decide +kernel
    have hcoinbase : (routedAllocations .stable (run (lit "BTC-USD") smallFirst) .buy
        3)[Exchange.coinbase]? = some 2 := by decide +kernel
    rw [hrec, Option.map_some, Option.some.injEq] at hprimary
    obtain ⟨b, hb, hle⟩ := hlargest _ _ hcoinbase
    rw [hprimary, hbinance, Option.some.injEq] at hb
    rw [← hb] at hle
    norm_num at hle

end Primary

end OrderbookEngine.AggregatedOrderBook
