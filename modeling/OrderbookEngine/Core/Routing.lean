import OrderbookEngine.Core.AggregatedSnapshot
import OrderbookEngine.Library.GreedyFill
import OrderbookEngine.Library.Grouping
import OrderbookEngine.Library.OrderedMap

/-!
# Smart order routing

`recommend_routing` fills an order from the levels of all exchanges in order of
price and adds the fills up by exchange. The fill is a greedy one, so no other way
to fill the order is cheaper, whatever the sort does with equal prices.
-/

namespace OrderbookEngine

/-- The side of an order, `Side` as the routing names it. -/
inductive OrderSide where
  | buy
  | sell
  deriving DecidableEq, Repr

/-- The side of the book that an order consumes. -/
def OrderSide.consumed : OrderSide → Side
  | .buy => .ask
  | .sell => .bid

/-- `RoutingRecommendation::Strategy`. -/
inductive Strategy where
  | singleVenue
  | splitOrder
  | iceberg
  | twap
  deriving DecidableEq, Repr

/-- `RoutingRecommendation`. -/
structure RoutingRecommendation (D : Type) where
  symbol : StdString
  side : OrderSide
  quantity : D
  strategy : Strategy
  primaryExchange : Exchange
  expectedPrice : D
  allocations : Std.TreeMap Exchange D
  timestampNs : UInt64

namespace AggregatedOrderBook

variable {D : Type} [LinearOrder D] [Field D]

/-- The loop that fills the order: the allocations once the levels or the remaining
quantity are used up. -/
def fillLoop : List (AggregatedPriceLevel D) → D → Std.TreeMap Exchange D →
    Std.TreeMap Exchange D
  | [], _, allocations => allocations
  | level :: levels, remainingQty, allocations =>
    if remainingQty ≤ 0 then allocations
    else
      let fillQty := min remainingQty level.quantity
      fillLoop levels (remainingQty - fillQty)
        (allocations.insert level.exchange (allocations.getD level.exchange 0 + fillQty))

/-- One pass of the loop that adds up cost and quantity. -/
def priceLevel (allocations : Std.TreeMap Exchange D) (totals : D × D)
    (level : AggregatedPriceLevel D) : D × D :=
  match allocations[level.exchange]? with
  | some allocated =>
    let qty := min allocated level.quantity
    (totals.1 + qty * level.price, totals.2 + qty)
  | none => totals

/-- The price that is expected of a split order. -/
def splitPrice (allocations : Std.TreeMap Exchange D) (levels : List (AggregatedPriceLevel D)) :
    D :=
  let (totalCost, totalQty) := levels.foldl (priceLevel allocations) (0, 0)
  if totalQty > 0 then totalCost / totalQty else 0

/-- `recommend_routing` at the clock reading `now`, without a result where the source
dereferences `begin()` of an empty map. -/
def recommendRouting (std : StdChoices) (book : AggregatedOrderBook D) (side : OrderSide)
    (quantity : D) (now : UInt64) : Option (RoutingRecommendation D) :=
  match std.sort (before side.consumed) (book.allLevels side.consumed) with
  | [] => some ⟨book.symbol, side, quantity, .singleVenue, .binance, 0, ∅, now⟩
  | best :: rest =>
    let levels := best :: rest
    let allocations := fillLoop levels quantity ∅
    match allocations.toList.head? with
    | none => none
    | some (primary, _) =>
      if allocations.size = 1 then
        some ⟨book.symbol, side, quantity, .singleVenue, primary, best.price, ∅, now⟩
      else
        some ⟨book.symbol, side, quantity, .splitOrder, primary,
          splitPrice allocations levels, allocations, now⟩

/-- Every exchange. -/
def allExchanges : List Exchange := (List.range 256).map fun n => ⟨UInt8.ofNat n⟩

/-- The levels that an order can consume: those that each exchange holds on the other side. -/
def relevantLevels (book : AggregatedOrderBook D) (side : OrderSide) :
    List (AggregatedPriceLevel D) :=
  allExchanges.flatMap fun exchange => (book.heldLevels exchange side.consumed).toList.map Prod.snd

/-- The part of a fill that falls to an exchange. -/
def allocatedOn (levels : List (AggregatedPriceLevel D)) (fill : AggregatedPriceLevel D → D)
    (exchange : Exchange) : D :=
  ((levels.filter fun l => l.exchange = exchange).map fill).sum

/-- The quantity of some levels. -/
def depth (levels : List (AggregatedPriceLevel D)) : D :=
  GreedyFill.total levels (·.quantity)

/-- The quantity of an exchange's levels. -/
def depthOn (levels : List (AggregatedPriceLevel D)) (exchange : Exchange) : D :=
  allocatedOn levels (·.quantity) exchange

/-- Buying, a cost is no worse than another when it is at most that; selling, when it
is at least that. -/
def NoWorse : OrderSide → D → D → Prop
  | .buy => fun cost cost' => cost ≤ cost'
  | .sell => fun cost cost' => cost' ≤ cost

/-- A fill of the levels of a given total, and no other such fill is better. -/
structure OptimalFill (side : OrderSide) (levels : List (AggregatedPriceLevel D)) (amount : D)
    (fill : AggregatedPriceLevel D → D) : Prop where
  within : GreedyFill.Within (·.quantity) levels fill
  total : GreedyFill.total levels fill = amount
  best : ∀ other, GreedyFill.Within (·.quantity) levels other →
    GreedyFill.total levels other = amount →
    NoWorse side (GreedyFill.cost (·.price) levels fill) (GreedyFill.cost (·.price) levels other)

/-- The allocations of a split order add up an optimal fill of all that can be filled. -/
structure SplitOptimal (side : OrderSide) (levels : List (AggregatedPriceLevel D)) (quantity : D)
    (allocations : Std.TreeMap Exchange D) : Prop where
  sum : (allocations.toList.map Prod.snd).sum = min quantity (depth levels)
  bounds : ∀ (exchange : Exchange) (a : D), allocations[exchange]? = some a →
    0 < a ∧ a ≤ depthOn levels exchange
  optimal : ∃ fill, OptimalFill side levels (min quantity (depth levels)) fill ∧
    ∀ exchange, allocations.getD exchange 0 = allocatedOn levels fill exchange

/-- Filling all that can be filled on one exchange alone is optimal. -/
structure SingleOptimal (side : OrderSide) (levels : List (AggregatedPriceLevel D))
    (quantity : D) (primary : Exchange) : Prop where
  optimal : ∃ fill, OptimalFill side levels (min quantity (depth levels)) fill ∧
    ∀ l ∈ levels, l.exchange ≠ primary → fill l = 0
  sufficient : quantity ≤ depthOn levels primary ∨ ∀ l ∈ levels, l.exchange = primary

/-- A recommendation is made, and its allocation is complete and optimal. -/
def RoutesOptimally (std : StdChoices) (book : AggregatedOrderBook D) (side : OrderSide)
    (quantity : D) (now : UInt64) : Prop :=
  ∃ rec, book.recommendRouting std side quantity now = some rec ∧
    (rec.strategy = .splitOrder ∧
        SplitOptimal side (book.relevantLevels side) quantity rec.allocations ∨
      rec.strategy = .singleVenue ∧
        SingleOptimal side (book.relevantLevels side) quantity rec.primaryExchange)

section Relevant

theorem nodup_allExchanges : allExchanges.Nodup := by
  refine List.nodup_range.map_on fun n hn m hm h => ?_
  have hval : (UInt8.ofNat n).toNat = (UInt8.ofNat m).toNat :=
    congrArg (fun exchange : Exchange => exchange.val.toNat) h
  rw [UInt8.toNat_ofNat', UInt8.toNat_ofNat'] at hval
  have hn := List.mem_range.mp hn
  have hm := List.mem_range.mp hm
  omega

theorem mem_allExchanges (exchange : Exchange) : exchange ∈ allExchanges := by
  refine List.mem_map.mpr ⟨exchange.val.toNat, List.mem_range.mpr exchange.val.toNat_lt, ?_⟩
  rw [UInt8.ofNat_toNat]

omit [Field D] in
/-- The routing collects the levels that the exchanges hold. -/
theorem relevantLevels_perm (book : AggregatedOrderBook D) (side : OrderSide) :
    (book.relevantLevels side).Perm (book.allLevels side.consumed) := by
  have hentries := OrderedMap.entries_perm book.exchangeBooks nodup_allExchanges
    fun exchange _ _ => mem_allExchanges exchange
  refine ((hentries.flatMap_right _).trans (.of_eq ?_)).symm
  rw [relevantLevels, List.flatMap_assoc]
  refine List.flatMap_congr fun exchange _ => ?_
  rw [heldLevels, Std.TreeMap.getD_eq_getD_getElem?]
  cases book.exchangeBooks[exchange]? with
  | none => cases side <;> rfl
  | some held => simp

end Relevant

section Reachable

variable {book : AggregatedOrderBook D} {side : Side}

omit [Field D] in
/-- Levels that one exchange holds under their prices are distinct. -/
theorem nodup_allLevels (h : Keyed book) (side : Side) : (book.allLevels side).Nodup :=
  (nodup_keys_allLevels h).of_map _

omit [Field D] in
/-- A level that an update leaves has a positive quantity. -/
theorem quantity_pos_foldl_applyLevel [Zero D] (u : NormalizedOrderBookUpdate D)
    {ls : List (PriceLevelSnapshot D)} {levels : Std.TreeMap D (AggregatedPriceLevel D)}
    (h : ∀ (price : D) level, levels[price]? = some level → 0 < level.quantity) (price : D)
    {level : AggregatedPriceLevel D}
    (hlevel : (ls.foldl (applyLevel u) levels)[price]? = some level) : 0 < level.quantity := by
  induction ls generalizing levels with
  | nil => exact h price level hlevel
  | cons l ls ih =>
    refine ih (fun p level' hlevel' => ?_) hlevel
    rw [getElem?_applyLevel] at hlevel'
    split at hlevel'
    · split at hlevel'
      · rename_i hq
        cases hlevel'
        exact hq
      · cases hlevel'
    · exact h p level' hlevel'

omit [Field D] in
/-- The quantities of the levels of a reachable book are positive. -/
theorem quantity_pos_run [Zero D] (symbol : StdString) (calls : List (Call D)) {side : Side}
    {l : AggregatedPriceLevel D} (hl : l ∈ (run symbol calls).allLevels side) :
    0 < l.quantity := by
  suffices h : ∀ exchange side (price : D) level,
      ((run symbol calls).heldLevels exchange side)[price]? = some level → 0 < level.quantity by
    obtain ⟨exchange, price, hprice⟩ := mem_allLevels.mp hl
    exact h _ _ _ _ hprice
  clear hl
  induction calls using List.reverseRecOn with
  | nil =>
    intro exchange side price level h
    rw [run, List.foldl_nil, construct, heldLevels_of_empty] at h
    simp at h
  | append_singleton calls c ih =>
    intro exchange side price level h
    rw [run_append_singleton] at h
    cases c with
    | clear =>
      rw [call, clear, heldLevels_of_empty] at h
      simp at h
    | update u =>
      by_cases hu : u.symbol = (run symbol calls).symbol
      · rw [call, update_of_symbol_eq u hu] at h
        by_cases he : exchange = u.exchange
        · subst he
          rw [heldLevels_applyUpdate_self] at h
          exact quantity_pos_foldl_applyLevel u (ih u.exchange side) price h
        · rw [heldLevels_applyUpdate_of_ne u _ he] at h
          exact ih _ _ _ _ h
      · rw [call, update_of_symbol_ne u hu] at h
        exact ih _ _ _ _ h

end Reachable

section FillLoop

open GreedyFill

variable {levels : List (AggregatedPriceLevel D)}

omit [LinearOrder D] in
theorem allocatedOn_cons (l : AggregatedPriceLevel D) (levels : List (AggregatedPriceLevel D))
    (fill : AggregatedPriceLevel D → D) (exchange : Exchange) :
    allocatedOn (l :: levels) fill exchange =
      (if l.exchange = exchange then fill l else 0) + allocatedOn levels fill exchange := by
  by_cases h : l.exchange = exchange <;> simp [allocatedOn, h]

omit [LinearOrder D] in
theorem allocatedOn_congr {fill fill' : AggregatedPriceLevel D → D}
    (h : ∀ l ∈ levels, fill l = fill' l) (exchange : Exchange) :
    allocatedOn levels fill exchange = allocatedOn levels fill' exchange :=
  congrArg List.sum (List.map_congr_left fun l hl => h l (List.mem_of_mem_filter hl))

/-- The loop allocates to each exchange what a greedy fill takes from its levels. -/
theorem getD_fillLoop (hnd : levels.Nodup) (remainingQty : D)
    (allocations : Std.TreeMap Exchange D) (exchange : Exchange) :
    (fillLoop levels remainingQty allocations).getD exchange 0 =
      allocations.getD exchange 0 +
        allocatedOn levels (greedy (·.quantity) levels remainingQty) exchange := by
  induction levels generalizing remainingQty allocations with
  | nil => simp [fillLoop, allocatedOn]
  | cons l levels ih =>
    rcases le_or_gt remainingQty 0 with hr | hr
    · rw [fillLoop, if_pos hr, greedy_of_nonpos hr]
      simp [allocatedOn]
    · have hrest := allocatedOn_congr (fun y hy =>
        greedy_cons_of_mem AggregatedPriceLevel.quantity hr hnd hy) exchange
      rw [fillLoop, if_neg (not_le.mpr hr), ih (List.nodup_cons.mp hnd).2, allocatedOn_cons,
        hrest, greedy_cons_self hr, ← add_assoc]
      congr 1
      by_cases he : l.exchange = exchange
      · subst he
        rw [Std.TreeMap.getD_insert_self, if_pos rfl]
      · have hne : compare l.exchange exchange ≠ .eq :=
          fun h => he (Std.LawfulEqOrd.eq_of_compare h)
        rw [Std.TreeMap.getD_insert, if_neg hne, if_neg he, add_zero]

/-- The loop touches exactly the exchanges of levels with a positive fill. -/
theorem mem_fillLoop (hnd : levels.Nodup) (hpos : ∀ l ∈ levels, 0 < l.quantity)
    (remainingQty : D) (allocations : Std.TreeMap Exchange D) (exchange : Exchange) :
    exchange ∈ fillLoop levels remainingQty allocations ↔
      exchange ∈ allocations ∨ ∃ l ∈ levels, l.exchange = exchange ∧
        0 < greedy (·.quantity) levels remainingQty l := by
  induction levels generalizing remainingQty allocations with
  | nil => simp [fillLoop]
  | cons l levels ih =>
    rcases le_or_gt remainingQty 0 with hr | hr
    · rw [fillLoop, if_pos hr, greedy_of_nonpos hr]
      simp
    · have hfirst : 0 < greedy (·.quantity) (l :: levels) remainingQty l := by
        rw [greedy_cons_self hr]
        exact lt_min hr (hpos l List.mem_cons_self)
      have hrest : (∃ l' ∈ levels, l'.exchange = exchange ∧
          0 < greedy (·.quantity) levels (remainingQty - min remainingQty l.quantity) l') ↔
          ∃ l' ∈ levels, l'.exchange = exchange ∧
            0 < greedy (·.quantity) (l :: levels) remainingQty l' := by
        refine exists_congr fun l' => and_congr_right fun hl' => ?_
        rw [greedy_cons_of_mem _ hr hnd hl']
      rw [fillLoop, if_neg (not_le.mpr hr), ih (List.nodup_cons.mp hnd).2
        (fun l' hl' => hpos l' (List.mem_cons_of_mem _ hl')), hrest, Std.TreeMap.mem_insert,
        Std.LawfulEqOrd.compare_eq_iff_eq]
      simp only [List.mem_cons, exists_eq_or_imp, hfirst, and_true]
      rw [or_assoc, or_left_comm]

end FillLoop

section Allocations

open GreedyFill

variable {levels levels' : List (AggregatedPriceLevel D)} {fill : AggregatedPriceLevel D → D}
  {allocations : Std.TreeMap Exchange D}

/-- The allocations add up a fill by exchange and name the exchanges that it touches. -/
structure Allocates (levels : List (AggregatedPriceLevel D)) (fill : AggregatedPriceLevel D → D)
    (allocations : Std.TreeMap Exchange D) : Prop where
  getD : ∀ exchange, allocations.getD exchange 0 = allocatedOn levels fill exchange
  mem_iff : ∀ exchange, exchange ∈ allocations ↔
    ∃ l ∈ levels, l.exchange = exchange ∧ 0 < fill l

/-- The loop allocates the greedy fill. -/
theorem allocates_fillLoop (hnd : levels.Nodup) (hpos : ∀ l ∈ levels, 0 < l.quantity)
    (quantity : D) : Allocates levels (greedy (·.quantity) levels quantity)
      (fillLoop levels quantity ∅) where
  getD exchange := by simp [getD_fillLoop hnd]
  mem_iff exchange := by simp [mem_fillLoop hnd hpos]

omit [LinearOrder D] in
theorem allocatedOn_perm (hp : levels.Perm levels') (fill : AggregatedPriceLevel D → D)
    (exchange : Exchange) : allocatedOn levels fill exchange = allocatedOn levels' fill exchange :=
  ((hp.filter _).map fill).sum_eq

/-- The order of the levels does not matter. -/
theorem Allocates.perm (h : Allocates levels fill allocations) (hp : levels.Perm levels') :
    Allocates levels' fill allocations where
  getD exchange := by rw [h.getD, allocatedOn_perm hp]
  mem_iff exchange := by simp only [h.mem_iff, hp.mem_iff]

/-- What is stored under an exchange. -/
theorem Allocates.getElem?_eq_some_iff (h : Allocates levels fill allocations)
    {exchange : Exchange} {a : D} : allocations[exchange]? = some a ↔
      a = allocatedOn levels fill exchange ∧ ∃ l ∈ levels, l.exchange = exchange ∧ 0 < fill l := by
  rw [← h.mem_iff, ← h.getD, Std.TreeMap.getD_eq_getD_getElem?, Std.TreeMap.mem_iff_isSome_getElem?]
  cases allocations[exchange]? with
  | none => simp
  | some b => simp [eq_comm]

omit [LinearOrder D] [Field D] in
/-- The exchanges of the allocations are distinct. -/
theorem nodup_exchanges (allocations : Std.TreeMap Exchange D) :
    (allocations.toList.map Prod.fst).Nodup := by
  rw [List.Nodup, List.pairwise_map]
  exact (Std.TreeMap.distinct_keys_toList (t := allocations)).imp fun {p q} hne heq =>
    hne (Std.LawfulEqOrd.compare_eq_iff_eq.mpr heq)

/-- The allocations sum to the fill. -/
theorem Allocates.sum_eq (h : Allocates levels fill allocations)
    (hnonneg : ∀ l ∈ levels, 0 ≤ fill l) :
    (allocations.toList.map Prod.snd).sum = total levels fill := by
  have hvalues : allocations.toList.map Prod.snd =
      (allocations.toList.map Prod.fst).map (allocatedOn levels fill) := by
    rw [List.map_map]
    apply List.map_congr_left
    rintro ⟨exchange, a⟩ ha
    exact (h.getElem?_eq_some_iff.mp (Std.TreeMap.mem_toList_iff_getElem?_eq_some.mp ha)).1
  rw [hvalues]
  refine sum_by_key AggregatedPriceLevel.exchange (nodup_exchanges allocations)
    fun l hl hnot => ?_
  rcases (hnonneg l hl).eq_or_lt with hzero | hpos
  · exact hzero.symm
  · obtain ⟨a, ha⟩ := Std.TreeMap.mem_iff_isSome_getElem?.mp
      ((h.mem_iff l.exchange).mpr ⟨l, hl, rfl, hpos⟩) |> Option.isSome_iff_exists.mp
    exact absurd (List.mem_map_of_mem (f := Prod.fst)
      (Std.TreeMap.mem_toList_iff_getElem?_eq_some.mpr ha)) hnot

/-- A single allocation touches one exchange. -/
theorem Allocates.exchange_eq_of_single (h : Allocates levels fill allocations)
    {primary : Exchange} {a : D} (hlist : allocations.toList = [(primary, a)])
    {l : AggregatedPriceLevel D} (hl : l ∈ levels) (hfill : 0 < fill l) :
    l.exchange = primary := by
  have hmem := (h.mem_iff l.exchange).mpr ⟨l, hl, rfl, hfill⟩
  rw [Std.TreeMap.mem_iff_isSome_getElem?, Option.isSome_iff_exists] at hmem
  obtain ⟨b, hb⟩ := hmem
  rw [← Std.TreeMap.mem_toList_iff_getElem?_eq_some, hlist, List.mem_singleton] at hb
  exact congrArg Prod.fst hb

theorem Allocates.eq_zero_of_single (h : Allocates levels fill allocations)
    (hnonneg : ∀ l ∈ levels, 0 ≤ fill l) {primary : Exchange} {a : D}
    (hlist : allocations.toList = [(primary, a)]) :
    ∀ l ∈ levels, l.exchange ≠ primary → fill l = 0 := by
  intro l hl hne
  by_contra hfill
  have hpos : 0 < fill l := lt_of_le_of_ne (hnonneg l hl) (Ne.symm hfill)
  exact hne (h.exchange_eq_of_single hlist hl hpos)

end Allocations

section Optimality

open GreedyFill

variable [IsStrictOrderedRing D] (std : StdChoices) {book : AggregatedOrderBook D}
  {side : OrderSide} {quantity : D}

/-- The levels in the order in which the loop consumes them. -/
def consumedLevels (std : StdChoices) (book : AggregatedOrderBook D) (side : OrderSide) :
    List (AggregatedPriceLevel D) :=
  std.sort (before side.consumed) (book.allLevels side.consumed)

/-- The allocations that the loop leaves. -/
def routedAllocations (std : StdChoices) (book : AggregatedOrderBook D) (side : OrderSide)
    (quantity : D) : Std.TreeMap Exchange D :=
  fillLoop (consumedLevels std book side) quantity ∅

/-- The greedy fill of an order. -/
def routedFill (std : StdChoices) (book : AggregatedOrderBook D) (side : OrderSide)
    (quantity : D) : AggregatedPriceLevel D → D :=
  greedy (·.quantity) (consumedLevels std book side) quantity

/-- A price as a cost: what is received counts negatively. -/
def costPrice : OrderSide → AggregatedPriceLevel D → D
  | .buy => fun l => l.price
  | .sell => fun l => -l.price

/-- A book whose levels are filed under their own keys and have positive quantities. -/
structure Stocked (book : AggregatedOrderBook D) : Prop where
  keyed : Keyed book
  positive : ∀ side, ∀ l ∈ book.allLevels side, 0 < l.quantity

omit [IsStrictOrderedRing D] in
theorem stocked_run (symbol : StdString) (calls : List (Call D)) :
    Stocked (run symbol calls) :=
  ⟨(run_spec symbol calls).2.1, fun _ _ => quantity_pos_run symbol calls⟩

omit [Field D] [IsStrictOrderedRing D] in
theorem consumedLevels_perm (book : AggregatedOrderBook D) (side : OrderSide) :
    (consumedLevels std book side).Perm (book.relevantLevels side) :=
  (std.sort_perm _ _).trans (relevantLevels_perm book side).symm

omit [IsStrictOrderedRing D] in
theorem Stocked.nodup_consumedLevels (h : Stocked book) (side : OrderSide) :
    (consumedLevels std book side).Nodup :=
  (std.sort_perm _ _).nodup_iff.mpr (nodup_allLevels h.keyed _)

omit [IsStrictOrderedRing D] in
theorem Stocked.positive_consumedLevels (h : Stocked book) (side : OrderSide) :
    ∀ l ∈ consumedLevels std book side, 0 < l.quantity :=
  fun l hl => h.positive _ l ((std.sort_perm _ _).mem_iff.mp hl)

omit [IsStrictOrderedRing D] in
theorem Stocked.positive_relevantLevels (h : Stocked book) (side : OrderSide) :
    ∀ l ∈ book.relevantLevels side, 0 < l.quantity :=
  fun l hl => h.positive _ l ((relevantLevels_perm book side).mem_iff.mp hl)

/-- The levels are consumed by increasing cost. -/
theorem sorted_consumedLevels (book : AggregatedOrderBook D) (side : OrderSide) :
    (consumedLevels std book side).Pairwise fun l l' => costPrice side l ≤ costPrice side l' := by
  refine (std.sort_sorted (strictWeak_before side.consumed) (book.allLevels side.consumed)).imp
    fun {l l'} h => ?_
  cases side with
  | buy => simpa [before, OrderSide.consumed, costPrice] using h
  | sell => simpa [before, OrderSide.consumed, costPrice] using h

theorem noWorse_iff {levels : List (AggregatedPriceLevel D)}
    {fill other : AggregatedPriceLevel D → D} :
    NoWorse side (cost (·.price) levels fill) (cost (·.price) levels other) ↔
      cost (costPrice side) levels fill ≤ cost (costPrice side) levels other := by
  cases side with
  | buy => exact Iff.rfl
  | sell => simp only [costPrice, cost_neg, neg_le_neg_iff, NoWorse]

/-- The greedy fill in the order of the sort is optimal. -/
theorem Stocked.optimalFill (h : Stocked book) (side : OrderSide) (hq : 0 < quantity) :
    OptimalFill side (book.relevantLevels side)
      (min quantity (depth (book.relevantLevels side)))
      (routedFill std book side quantity) := by
  have hperm := consumedLevels_perm std book side
  have hnd := h.nodup_consumedLevels std side
  have hcap : ∀ l ∈ consumedLevels std book side, 0 ≤ l.quantity :=
    fun l hl => (h.positive_consumedLevels std side l hl).le
  have hwithin := greedy_within hnd hcap quantity
  have htotal := total_greedy hnd hcap hq.le
  rw [total_perm hperm, total_perm hperm] at htotal
  refine ⟨fun l hl => hwithin l (hperm.mem_iff.mpr hl), htotal, fun other hother hsame => ?_⟩
  obtain ⟨c, hc⟩ := exists_marginal AggregatedPriceLevel.quantity hnd
    (sorted_consumedLevels std book side) hq
  rw [noWorse_iff, ← cost_perm hperm, ← cost_perm hperm]
  apply hc.cost_le (fun l hl => hother l (hperm.mem_iff.mp hl))
  rw [total_perm hperm, total_perm hperm, hsame]
  exact htotal.symm

omit [IsStrictOrderedRing D] in
/-- The loop allocates the greedy fill of the order. -/
theorem Stocked.allocates (h : Stocked book) (side : OrderSide) (quantity : D) :
    Allocates (book.relevantLevels side) (routedFill std book side quantity)
      (routedAllocations std book side quantity) :=
  (allocates_fillLoop (h.nodup_consumedLevels std side)
    (h.positive_consumedLevels std side) quantity).perm (consumedLevels_perm std book side)

variable {levels : List (AggregatedPriceLevel D)} {fill : AggregatedPriceLevel D → D}
  {allocations : Std.TreeMap Exchange D}

/-- Allocations of an optimal fill. -/
theorem OptimalFill.splitOptimal
    (h : OptimalFill side levels (min quantity (depth levels)) fill)
    (hallocates : Allocates levels fill allocations) :
    SplitOptimal side levels quantity allocations where
  sum := by rw [hallocates.sum_eq fun l hl => (h.within l hl).1, h.total]
  bounds := by
    intro exchange a ha
    obtain ⟨rfl, l, hl, rfl, hpos⟩ := hallocates.getElem?_eq_some_iff.mp ha
    have hnonneg : ∀ l' ∈ levels.filter fun l' => l'.exchange = l.exchange, 0 ≤ fill l' :=
      fun l' hl' => (h.within l' (List.mem_of_mem_filter hl')).1
    refine ⟨lt_of_le_of_ne (total_nonneg hnonneg) fun hzero => ?_, List.sum_le_sum fun l' hl' =>
      (h.within l' (List.mem_of_mem_filter hl')).2⟩
    have hall := (sum_eq_zero_iff hnonneg).mp hzero.symm l
      (List.mem_filter.mpr ⟨hl, by simp⟩)
    exact hpos.ne' hall
  optimal := ⟨fill, h, hallocates.getD⟩

omit [LinearOrder D] [IsStrictOrderedRing D] in
/-- A sum of amounts that vanish off one exchange is that exchange's part. -/
theorem total_eq_allocatedOn {primary : Exchange}
    (honly : ∀ l ∈ levels, l.exchange ≠ primary → fill l = 0) :
    total levels fill = allocatedOn levels fill primary := by
  induction levels with
  | nil => rfl
  | cons l levels ih =>
    rw [total_cons, allocatedOn_cons, ih fun l' hl' => honly l' (List.mem_cons_of_mem _ hl')]
    by_cases he : l.exchange = primary
    · rw [if_pos he]
    · rw [if_neg he, honly l List.mem_cons_self he]

/-- An optimal fill on one exchange exhausts that exchange or the order. -/
theorem OptimalFill.singleOptimal
    (h : OptimalFill side levels (min quantity (depth levels)) fill)
    (hpositive : ∀ l ∈ levels, 0 < l.quantity) {primary : Exchange}
    (honly : ∀ l ∈ levels, l.exchange ≠ primary → fill l = 0) :
    SingleOptimal side levels quantity primary where
  optimal := ⟨fill, h, honly⟩
  sufficient := by
    rcases le_total quantity (depth levels) with hle | hle
    · left
      have htotal := h.total
      rw [min_eq_left hle, total_eq_allocatedOn honly] at htotal
      rw [← htotal]
      exact List.sum_le_sum fun l hl => (h.within l (List.mem_of_mem_filter hl)).2
    · right
      have htotal := h.total
      rw [min_eq_right hle] at htotal
      intro l hl
      by_contra hne
      have hcap := h.within.eq_cap htotal l hl
      rw [honly l hl hne] at hcap
      exact (hpositive l hl).ne hcap

end Optimality

section Recommendation

variable (std : StdChoices) {book : AggregatedOrderBook D} {side : OrderSide} {quantity : D}
  {now : UInt64}

/-- Without levels the order goes to the default exchange. -/
theorem recommendRouting_of_nil (h : consumedLevels std book side = []) :
    book.recommendRouting std side quantity now =
      some ⟨book.symbol, side, quantity, .singleVenue, .binance, 0, ∅, now⟩ := by
  rw [consumedLevels] at h
  rw [recommendRouting, h]

variable (quantity now) in
/-- With levels the first allocation decides, if there is one. -/
theorem recommendRouting_of_cons {best : AggregatedPriceLevel D}
    {rest : List (AggregatedPriceLevel D)} (h : consumedLevels std book side = best :: rest) :
    book.recommendRouting std side quantity now =
      match (routedAllocations std book side quantity).toList with
      | [] => none
      | [(primary, _)] =>
        some ⟨book.symbol, side, quantity, .singleVenue, primary, best.price, ∅, now⟩
      | (primary, _) :: _ :: _ =>
        some ⟨book.symbol, side, quantity, .splitOrder, primary,
          splitPrice (routedAllocations std book side quantity) (best :: rest),
          routedAllocations std book side quantity, now⟩ := by
  have hsort : std.sort (before side.consumed) (book.allLevels side.consumed) = best :: rest := h
  rw [recommendRouting, hsort, routedAllocations, h]
  simp only [← Std.TreeMap.length_toList]
  cases (fillLoop (best :: rest) quantity ∅).toList with
  | nil => rfl
  | cons e more =>
    cases more with
    | nil => rfl
    | cons e' more => rfl

/-- An order of a positive quantity touches the first level that it consumes. -/
theorem Stocked.exists_touched (h : Stocked book) (hq : 0 < quantity)
    {best : AggregatedPriceLevel D} {rest : List (AggregatedPriceLevel D)}
    (hlevels : consumedLevels std book side = best :: rest) :
    0 < routedFill std book side quantity best := by
  rw [routedFill, hlevels, GreedyFill.greedy_cons_self hq]
  exact lt_min hq (h.positive_consumedLevels std side best (by simp [hlevels]))

/-- A positive quantity is allocated somewhere when there are levels. -/
theorem Stocked.routedAllocations_ne_nil (h : Stocked book) (hq : 0 < quantity)
    {best : AggregatedPriceLevel D} {rest : List (AggregatedPriceLevel D)}
    (hlevels : consumedLevels std book side = best :: rest) :
    (routedAllocations std book side quantity).toList ≠ [] := by
  intro hnil
  have hmem : best ∈ book.relevantLevels side :=
    (consumedLevels_perm std book side).mem_iff.mp (by simp [hlevels])
  have htouched := ((h.allocates std side quantity).mem_iff best.exchange).mpr
    ⟨best, hmem, rfl, h.exists_touched std hq hlevels⟩
  rw [Std.TreeMap.mem_iff_isSome_getElem?, Option.isSome_iff_exists] at htouched
  obtain ⟨a, ha⟩ := htouched
  rw [← Std.TreeMap.mem_toList_iff_getElem?_eq_some, hnil] at ha
  cases ha

/-- An order of a positive quantity that finds levels is routed to its only allocation, or
split over several. -/
theorem Stocked.recommendRouting_cases (h : Stocked book) (hq : 0 < quantity) (now : UInt64)
    {best : AggregatedPriceLevel D} {rest : List (AggregatedPriceLevel D)}
    (hlevels : consumedLevels std book side = best :: rest) :
    (∃ primary a, (routedAllocations std book side quantity).toList = [(primary, a)] ∧
        book.recommendRouting std side quantity now =
          some ⟨book.symbol, side, quantity, .singleVenue, primary, best.price, ∅, now⟩) ∨
      ∃ e e' more, (routedAllocations std book side quantity).toList = e :: e' :: more ∧
        book.recommendRouting std side quantity now =
          some ⟨book.symbol, side, quantity, .splitOrder, e.1,
            splitPrice (routedAllocations std book side quantity) (best :: rest),
            routedAllocations std book side quantity, now⟩ := by
  have hcases := recommendRouting_of_cons std quantity now hlevels
  cases hlist : (routedAllocations std book side quantity).toList with
  | nil => exact absurd hlist (h.routedAllocations_ne_nil std hq hlevels)
  | cons e more =>
    rw [hlist] at hcases
    cases more with
    | nil => exact Or.inl ⟨e.1, e.2, rfl, hcases⟩
    | cons e' more => exact Or.inr ⟨e, e', more, rfl, hcases⟩

variable [IsStrictOrderedRing D]

/-- After any updates and clears an order of a positive quantity is allocated
completely and optimally. -/
theorem routesOptimally_run (symbol : StdString) (calls : List (Call D)) (side : OrderSide)
    (quantity : D) (now : UInt64) (hq : 0 < quantity) :
    RoutesOptimally std (run symbol calls) side quantity now := by
  have hstocked := stocked_run symbol calls
  have hoptimal := hstocked.optimalFill std side hq
  have hallocates := hstocked.allocates std side quantity
  cases hlevels : consumedLevels std (run symbol calls) side with
  | nil =>
    refine ⟨_, recommendRouting_of_nil std hlevels, Or.inr ⟨rfl, ?_⟩⟩
    have hnil : (run symbol calls).relevantLevels side = [] :=
      (hlevels ▸ consumedLevels_perm std (run symbol calls) side).nil_eq.symm
    exact hoptimal.singleOptimal (hstocked.positive_relevantLevels side) fun l hl => by
      simp [hnil] at hl
  | cons best rest =>
    rcases hstocked.recommendRouting_cases std hq now hlevels with
      ⟨primary, a, hlist, hrec⟩ | ⟨e, e', more, -, hrec⟩
    · refine ⟨_, hrec, Or.inr ⟨rfl, ?_⟩⟩
      refine hoptimal.singleOptimal (hstocked.positive_relevantLevels side) ?_
      exact hallocates.eq_zero_of_single (fun l hl => (hoptimal.within l hl).1) hlist
    · exact ⟨_, hrec, Or.inl ⟨rfl, hoptimal.splitOptimal hallocates⟩⟩

theorem routesOptimally_two_exchanges :
    RoutesOptimally .stable (run (lit "BTC-USD")
      [.update ⟨.binance, lit "BTC-USD", 1, 1, [], [⟨42000, 1, 1⟩]⟩,
        .update ⟨.coinbase, lit "BTC-USD", 2, 1, [], [⟨42001, 2, 1⟩]⟩])
      .buy (3 / 2 : ℚ) 3 :=
  routesOptimally_run .stable _ _ _ _ _ (by norm_num)

end Recommendation

end AggregatedOrderBook

end OrderbookEngine
