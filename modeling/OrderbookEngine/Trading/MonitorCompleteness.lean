import OrderbookEngine.Core.AggregatedSnapshot
import OrderbookEngine.Library.Transition
import OrderbookEngine.Trading.ArbitrageMonitor
import OrderbookEngine.Library.OrderedMap

/-!
# Which updates the monitor tracks

A book passes an opportunity on only above its own default percentage, and the
monitor tracks it only above the configured one. An update adds an opportunity
when the updated book is crossed by both, or crossed at an ask price of zero.
-/

namespace OrderbookEngine

open Transition OrderedMap

namespace AggregatedOrderBook

variable {D : Type} [LinearOrder D]

/-- The prices at which some exchange holds a level. -/
def prices (book : AggregatedOrderBook D) (side : Side) : Set D :=
  {price | ∃ exchange, price ∈ book.heldLevels exchange side}

/-- The best bid and the best ask of all exchanges. -/
structure BestPrices (book : AggregatedOrderBook D) (bid ask : D) : Prop where
  bid : IsGreatest (book.prices .bid) bid
  ask : IsLeast (book.prices .ask) ask

variable {book : AggregatedOrderBook D} {side : Side} {bid ask bid' ask' price : D}

theorem BestPrices.unique (h : book.BestPrices bid ask) (h' : book.BestPrices bid' ask') :
    bid = bid' ∧ ask = ask' :=
  ⟨h.bid.unique h'.bid, h.ask.unique h'.ask⟩

/-- The prices of the held levels are those that the levels carry. -/
theorem Keyed.mem_prices (h : Keyed book) :
    price ∈ book.prices side ↔ ∃ l ∈ book.allLevels side, l.price = price := by
  constructor
  · rintro ⟨exchange, hprice⟩
    rw [Std.TreeMap.mem_iff_isSome_getElem?, Option.isSome_iff_exists] at hprice
    obtain ⟨l, hl⟩ := hprice
    exact ⟨l, mem_allLevels.mpr ⟨exchange, price, hl⟩, (h exchange side price l hl).2⟩
  · rintro ⟨l, hl, rfl⟩
    obtain ⟨exchange, price, hat⟩ := mem_allLevels.mp hl
    refine ⟨exchange, ?_⟩
    rw [(h exchange side price l hat).2, Std.TreeMap.mem_iff_isSome_getElem?, hat]
    rfl

theorem Keyed.isGreatest_bid (h : Keyed book) {l : AggregatedPriceLevel D}
    (hl : book.getBestBid = some l) : IsGreatest (book.prices .bid) l.price := by
  have hbest := isBest_getBestBid h
  rw [hl] at hbest
  refine ⟨h.mem_prices.mpr ⟨l, hbest.1, rfl⟩, fun price hprice => ?_⟩
  obtain ⟨l', hl', rfl⟩ := h.mem_prices.mp hprice
  exact hbest.2 l' hl'

theorem Keyed.isLeast_ask (h : Keyed book) {l : AggregatedPriceLevel D}
    (hl : book.getBestAsk = some l) : IsLeast (book.prices .ask) l.price := by
  have hbest := isBest_getBestAsk h
  rw [hl] at hbest
  refine ⟨h.mem_prices.mpr ⟨l, hbest.1, rfl⟩, fun price hprice => ?_⟩
  obtain ⟨l', hl', rfl⟩ := h.mem_prices.mp hprice
  exact hbest.2 l' hl'

theorem Keyed.getBestBid_of_mem (h : Keyed book) (hprice : price ∈ book.prices .bid) :
    ∃ l, book.getBestBid = some l := by
  obtain ⟨l, hl, -⟩ := h.mem_prices.mp hprice
  refine Option.ne_none_iff_exists'.mp fun hnone => List.ne_nil_of_mem hl ?_
  exact (isBest_getBestBid h).eq_none_iff.mp hnone

theorem Keyed.getBestAsk_of_mem (h : Keyed book) (hprice : price ∈ book.prices .ask) :
    ∃ l, book.getBestAsk = some l := by
  obtain ⟨l, hl, -⟩ := h.mem_prices.mp hprice
  refine Option.ne_none_iff_exists'.mp fun hnone => List.ne_nil_of_mem hl ?_
  exact (isBest_getBestAsk h).eq_none_iff.mp hnone

/-- The detection finds the profit between the best prices when it reaches the
threshold. -/
theorem Keyed.detectArbitrage_spec [Field D] (h : Keyed book) (minProfitPercentage : D)
    (now : UInt64) :
    (∃ bid ask opportunity, book.BestPrices bid ask ∧ ask < bid ∧
        minProfitPercentage ≤ percentageOf (bid - ask) ask ∧
        book.detectArbitrage minProfitPercentage now = some opportunity ∧
        opportunity.profitPercentage = percentageOf (bid - ask) ask) ∨
      book.detectArbitrage minProfitPercentage now = none ∧
        ∀ bid ask, book.BestPrices bid ask → ask < bid →
          percentageOf (bid - ask) ask < minProfitPercentage := by
  have hbids : (book.exchangeBooks.toList.map Prod.snd).foldl betterBid none =
    book.getBestBid := rfl
  have hasks : (book.exchangeBooks.toList.map Prod.snd).foldl betterAsk none =
    book.getBestAsk := rfl
  simp only [AggregatedOrderBook.detectArbitrage, hbids, hasks]
  cases hbid : book.getBestBid with
  | none =>
    refine Or.inr ⟨rfl, fun bid ask hbest _ => ?_⟩
    obtain ⟨l, hl⟩ := h.getBestBid_of_mem hbest.bid.1
    rw [hbid] at hl
    cases hl
  | some bestBid =>
    cases hask : book.getBestAsk with
    | none =>
      refine Or.inr ⟨rfl, fun bid ask hbest _ => ?_⟩
      obtain ⟨l, hl⟩ := h.getBestAsk_of_mem hbest.ask.1
      rw [hask] at hl
      cases hl
    | some bestAsk =>
      have hbest : book.BestPrices bestBid.price bestAsk.price :=
        ⟨h.isGreatest_bid hbid, h.isLeast_ask hask⟩
      simp only
      split_ifs with hcrossed hprofit
      · refine Or.inr ⟨rfl, fun bid ask hbest' hlt => ?_⟩
        obtain ⟨rfl, rfl⟩ := hbest'.unique hbest
        exact absurd hcrossed (not_le.mpr hlt)
      · refine Or.inr ⟨rfl, fun bid ask hbest' _ => ?_⟩
        obtain ⟨rfl, rfl⟩ := hbest'.unique hbest
        exact hprofit
      · exact Or.inl ⟨_, _, _, hbest, not_le.mp hcrossed, not_lt.mp hprofit, rfl, rfl⟩

end AggregatedOrderBook

open AggregatedOrderBook

namespace Monitoring

/-- The calls on the monitor and on its books. An update comes with the readings of
the clock by the book and by the monitor. -/
inductive Event (β D : Type) where
  | addOrderBook (book : Option β)
  | removeOrderBook (symbol : StdString)
  | start
  | stop (now : UInt64)
  | setMinProfit (minProfitPercent : D)
  | setAlertCallback (callback : Bool)
  | clearHistory
  | clear (book : β)
  | update (book : β) (u : NormalizedOrderBookUpdate D) (now detectedAt : UInt64)

variable {β D : Type} [Field D] [LinearOrder D]

/-- A new monitor and empty books. -/
def construct (minProfitPercent : D) (historySize : Nat) (symbols : β → StdString) :
    Monitoring β D where
  monitor := ArbitrageMonitor.construct β minProfitPercent historySize
  books := fun book => AggregatedOrderBook.construct (symbols book)

/-- The monitor holds the book under its symbol. -/
def Registered (s : Monitoring β D) (book : β) : Prop :=
  s.monitor.orderBooks[(s.books book).symbol]? = some book

/-- The book is crossed at a positive ask price, with at least this percentage of
profit. -/
def Worth (minProfitPercent : D) (book : AggregatedOrderBook D) : Prop :=
  ∃ bid ask, book.BestPrices bid ask ∧ 0 < ask ∧ ask < bid ∧
    minProfitPercent ≤ percent (bid - ask) ask

/-- One opportunity, detected at `now`, is tracked under the next identifier, and
no other is new. -/
structure AddsOne (m m' : ArbitrageMonitor β D) (now : UInt64) : Prop where
  nextId : m'.nextId = m.nextId + 1
  totalCount : m'.totalCount = m.totalCount + 1
  added : ∃ opportunity, m'.activeOpportunities[m.nextId]? = some (m.tracked opportunity now)
  others : ∀ id ≠ m.nextId, id ∈ m'.activeOpportunities → id ∈ m.activeOpportunities

variable [DecidableEq β]

/-- The state that a call leaves. -/
def step (s : Monitoring β D) : Event β D → Monitoring β D
  | .addOrderBook book => s.addOrderBook book
  | .removeOrderBook symbol => s.removeOrderBook symbol
  | .start => { s with monitor := s.monitor.start }
  | .stop now => { s with monitor := s.monitor.stop now }
  | .setMinProfit minProfitPercent =>
    { s with monitor := s.monitor.setMinProfit minProfitPercent }
  | .setAlertCallback callback => { s with monitor := s.monitor.setAlertCallback callback }
  | .clearHistory => { s with monitor := s.monitor.clearHistory }
  | .clear book => { s with books := Function.update s.books book (s.books book).clear }
  | .update book u now detectedAt => s.update book u now detectedAt

/-- An update of a registered book tracks one opportunity when the updated book is
worth it to a running monitor, and none otherwise. -/
def Complete (s : Monitoring β D) : Event β D → Monitoring β D → Prop
  | .update book u _ detectedAt, t => s.monitor.running = true → s.Registered book →
    (u.symbol = (s.books book).symbol ∧ Worth s.monitor.minProfitPercent (t.books book) →
      AddsOne s.monitor t.monitor detectedAt) ∧
    (¬ (u.symbol = (s.books book).symbol ∧ Worth s.monitor.minProfitPercent (t.books book)) →
      t.monitor = s.monitor)
  | _, _ => True

/-- The updated book is not crossed at an ask price of zero, nor with a profit that
reaches the monitor's percentage but not the default one of the book. -/
def ThresholdsAgree (s : Monitoring β D) : Event β D → Prop
  | .update book u _ _ => s.monitor.running = true → s.Registered book →
    u.symbol = (s.books book).symbol →
      ∀ bid ask, (applyUpdate u (s.books book)).BestPrices bid ask → ask < bid →
        ask ≠ 0 ∧ (0 < ask → s.monitor.minProfitPercent ≤ percent (bid - ask) ask →
          defaultMinProfitPercentage ≤ percent (bid - ask) ask)
  | _ => True

/-- A book is called back exactly when it is registered, under its symbol only. -/
structure Tracks (orderBooks : Std.TreeMap StdString β) (book : β) (b : AggregatedOrderBook D) :
    Prop where
  keyed : Keyed b
  callback : b.arbitrageCallback = true ↔ orderBooks[b.symbol]? = some book
  symbol : ∀ symbol, orderBooks[symbol]? = some book → b.symbol = symbol

/-- What every history of calls keeps. -/
def Inv (s : Monitoring β D) : Prop :=
  ∀ book, Tracks s.monitor.orderBooks book (s.books book)

section Detection

omit [DecidableEq β]

variable {m : ArbitrageMonitor β D} {opportunity : ArbitrageOpportunity D}

/-- An accepted detection adds one opportunity. -/
theorem addsOne_onArbitrageDetected (h : m.accepts opportunity = true) (now : UInt64) :
    AddsOne m (m.onArbitrageDetected opportunity now) now := by
  have hon : m.onArbitrageDetected opportunity now =
      (((m.track opportunity now).toExpire now).foldl (ArbitrageMonitor.expire now)
        (m.track opportunity now)) := if_pos h
  have hnew : (m.track opportunity now).activeOpportunities[m.nextId]? =
      some (m.tracked opportunity now) := Std.TreeMap.getElem?_insert_self
  rw [hon]
  constructor
  · exact ArbitrageMonitor.kept_foldl_expire _ now (·.nextId)
      (fun m => ArbitrageMonitor.nextId_expire m now) _
  · exact ArbitrageMonitor.kept_foldl_expire _ now (·.totalCount)
      (fun m => ArbitrageMonitor.totalCount_expire m now) _
  · refine ⟨opportunity, ?_⟩
    rw [ArbitrageMonitor.activeOpportunities_foldl_expire, if_neg, hnew]
    intro hmem
    obtain ⟨arb, harb, hage⟩ := (ArbitrageMonitor.mem_toExpire _ now).mp hmem
    cases hnew.symm.trans harb
    simp [ArbitrageMonitor.tracked, ArbitrageMonitor.timeoutNs] at hage
  · intro id hid hmem
    rw [Std.TreeMap.mem_iff_isSome_getElem?,
      ArbitrageMonitor.activeOpportunities_foldl_expire] at hmem
    split at hmem
    · cases hmem
    · rw [← Std.TreeMap.mem_iff_isSome_getElem?] at hmem
      rcases Std.TreeMap.mem_insert.mp hmem with heq | hmem
      · exact absurd (Std.compare_eq_iff_eq.mp heq).symm hid
      · exact hmem

theorem onArbitrageDetected_of_not_accepts (h : m.accepts opportunity = false) (now : UInt64) :
    m.onArbitrageDetected opportunity now = m := if_neg (by simp [h])

omit [Field D] [LinearOrder D] in
theorem AddsOne.ne {m' : ArbitrageMonitor β D} {now : UInt64} (h : AddsOne m m' now) :
    m' ≠ m := by
  rintro rfl
  have := h.totalCount
  omega

end Detection

section Percentage

omit [DecidableEq β]

variable [IsStrictOrderedRing D] {bid ask : D}

omit [IsStrictOrderedRing D] in
theorem percentageOf_zero (profitPerUnit : D) : percentageOf profitPerUnit 0 = ⊤ := if_pos rfl

omit [IsStrictOrderedRing D] in
theorem percentageOf_of_pos (profitPerUnit : D) (h : 0 < ask) :
    percentageOf profitPerUnit ask = ↑(percent profitPerUnit ask) := if_neg h.ne'

/-- A book crossed at a negative ask price stays below the default percentage. -/
theorem percentageOf_of_neg (h : ask < 0) (hlt : ask < bid) :
    percentageOf (bid - ask) ask < ↑(defaultMinProfitPercentage : D) := by
  have hquotient : (bid - ask) / ask < 0 := div_neg_of_pos_of_neg (sub_pos.mpr hlt) h
  have hdefault : (0 : D) < defaultMinProfitPercentage := by
    simp [defaultMinProfitPercentage]
  rw [percentageOf, if_neg h.ne, WithTop.coe_lt_coe, percent]
  linarith

end Percentage

section Update

variable {s : Monitoring β D} {book : β} {u : NormalizedOrderBookUpdate D} {now detectedAt : UInt64}

theorem update_of_symbol_ne (h : u.symbol ≠ (s.books book).symbol) :
    s.update book u now detectedAt = s := if_pos h

/-- The book that an update leaves. -/
theorem books_update (h : u.symbol = (s.books book).symbol) :
    (s.update book u now detectedAt).books =
      Function.update s.books book (applyUpdate u (s.books book)) := by
  rw [update, if_neg (not_not.mpr h)]
  simp only
  split
  · split <;> rfl
  · rfl

variable (now detectedAt) in
/-- The updates that pass both thresholds add one opportunity, the others none. -/
theorem monitor_update (hinv : Inv s) (hrunning : s.monitor.running = true)
    (hregistered : s.Registered book) (h : u.symbol = (s.books book).symbol) :
    (∃ bid ask, (applyUpdate u (s.books book)).BestPrices bid ask ∧ ask < bid ∧
        ↑(defaultMinProfitPercentage : D) ≤ percentageOf (bid - ask) ask ∧
        ↑s.monitor.minProfitPercent ≤ percentageOf (bid - ask) ask) ∧
        AddsOne s.monitor (s.update book u now detectedAt).monitor detectedAt ∨
      (∀ bid ask, (applyUpdate u (s.books book)).BestPrices bid ask → ask < bid →
        percentageOf (bid - ask) ask < ↑(defaultMinProfitPercentage : D) ∨
          percentageOf (bid - ask) ask < ↑s.monitor.minProfitPercent) ∧
        (s.update book u now detectedAt).monitor = s.monitor := by
  have hcallback : (applyUpdate u (s.books book)).arbitrageCallback = true :=
    (hinv book).callback.mpr hregistered
  have hupdate : (s.update book u now detectedAt).monitor =
      ((applyUpdate u (s.books book)).detectArbitrage defaultMinProfitPercentage now).elim
        s.monitor fun opportunity => s.monitor.onArbitrageDetected opportunity detectedAt := by
    rw [update, if_neg (not_not.mpr h)]
    simp only [Function.update_self, hcallback, if_true]
    split <;> simp_all
  have hkeyed : Keyed (applyUpdate u (s.books book)) := (hinv book).keyed.applyUpdate u
  rcases hkeyed.detectArbitrage_spec defaultMinProfitPercentage now with
    ⟨bid, ask, opportunity, hbest, hlt, hdefault, hdetect, hprofit⟩ | ⟨hdetect, hnone⟩
  · rw [hdetect] at hupdate
    by_cases hmin : opportunity.profitPercentage < ↑s.monitor.minProfitPercent
    · right
      have hrejects : s.monitor.accepts opportunity = false := by
        simp [ArbitrageMonitor.accepts, hmin]
      refine ⟨fun bid' ask' hbest' _ => ?_, ?_⟩
      · obtain ⟨rfl, rfl⟩ := hbest'.unique hbest
        exact Or.inr (hprofit ▸ hmin)
      · rw [hupdate]
        exact onArbitrageDetected_of_not_accepts hrejects _
    · left
      have haccepts : s.monitor.accepts opportunity = true := by
        simp [ArbitrageMonitor.accepts, hmin, hrunning]
      refine ⟨⟨bid, ask, hbest, hlt, hdefault, hprofit ▸ not_lt.mp hmin⟩, ?_⟩
      rw [hupdate]
      exact addsOne_onArbitrageDetected haccepts _
  · rw [hdetect] at hupdate
    exact Or.inr ⟨fun bid ask hbest hlt => Or.inl (hnone bid ask hbest hlt), hupdate⟩

/-- An update meets the law exactly when the two thresholds agree on it. -/
theorem complete_iff [IsStrictOrderedRing D] (hinv : Inv s) (e : Event β D) :
    Complete s e (s.step e) ↔ ThresholdsAgree s e := by
  cases e with
  | update book u now detectedAt =>
    refine forall_congr' fun hrunning => forall_congr' fun hregistered => ?_
    by_cases h : u.symbol = (s.books book).symbol
    · have hbook : (s.update book u now detectedAt).books book = applyUpdate u (s.books book) := by
        rw [books_update h, Function.update_self]
      simp only [h, hbook, true_and, true_imp_iff, step]
      rcases monitor_update now detectedAt hinv hrunning hregistered h with
        ⟨⟨bid, ask, hbest, hlt, hdefault, hmin⟩, hadds⟩ | ⟨hbelow, hsame⟩
      · constructor
        · rintro ⟨-, hsame⟩ bid' ask' hbest' -
          have hworth : Worth s.monitor.minProfitPercent (applyUpdate u (s.books book)) :=
            by_contra fun hworth => hadds.ne (hsame hworth)
          obtain ⟨bid'', ask'', hbest'', hpos, -⟩ := hworth
          obtain ⟨rfl, rfl⟩ := hbest'.unique hbest
          obtain ⟨rfl, rfl⟩ := hbest''.unique hbest
          rw [percentageOf_of_pos _ hpos, WithTop.coe_le_coe] at hdefault
          exact ⟨hpos.ne', fun _ _ => hdefault⟩
        · intro hagree
          refine ⟨fun _ => hadds, fun hworth => absurd ?_ hworth⟩
          rcases lt_or_gt_of_ne (hagree bid ask hbest hlt).1 with hneg | hpos
          · exact absurd hdefault (not_le.mpr (percentageOf_of_neg hneg hlt))
          · rw [percentageOf_of_pos _ hpos, WithTop.coe_le_coe] at hmin
            exact ⟨bid, ask, hbest, hpos, hlt, hmin⟩
      · constructor
        · rintro ⟨hadds, -⟩ bid ask hbest hlt
          refine ⟨?_, fun hpos hmin => absurd hsame ?_⟩
          · rintro rfl
            rcases hbelow bid 0 hbest hlt with hprofit | hprofit <;>
              exact absurd hprofit (by simp [percentageOf_zero])
          · exact (hadds ⟨bid, ask, hbest, hpos, hlt, hmin⟩).ne
        · intro hagree
          refine ⟨?_, fun _ => hsame⟩
          rintro ⟨bid, ask, hbest, hpos, hlt, hmin⟩
          have hdefault := (hagree bid ask hbest hlt).2 hpos hmin
          exfalso
          rcases hbelow bid ask hbest hlt with hprofit | hprofit
          · rw [percentageOf_of_pos _ hpos, WithTop.coe_lt_coe] at hprofit
            exact absurd hdefault (not_le.mpr hprofit)
          · rw [percentageOf_of_pos _ hpos, WithTop.coe_lt_coe] at hprofit
            exact absurd hmin (not_le.mpr hprofit)
    · simp only [h, false_and, step, update_of_symbol_ne h, false_imp_iff, not_false_iff,
        true_imp_iff, true_and]
  | _ => exact Iff.rfl

end Update

section History

variable {orderBooks : Std.TreeMap StdString β} {book other : β} {b : AggregatedOrderBook D}
  {symbol : StdString} {s : Monitoring β D}

omit [Field D] [DecidableEq β]

/-- Changes that keep the symbol and the callback. -/
theorem Tracks.of_same {b' : AggregatedOrderBook D} (h : Tracks orderBooks book b)
    (hkeyed : Keyed b') (hsymbol : b'.symbol = b.symbol)
    (hcallback : b'.arbitrageCallback = b.arbitrageCallback) : Tracks orderBooks book b' where
  keyed := hkeyed
  callback := by rw [hcallback, h.callback, hsymbol]
  symbol symbol hat := hsymbol.trans (h.symbol symbol hat)

/-- A book under a new symbol is registered. -/
theorem Tracks.register (h : Tracks orderBooks book b) :
    Tracks (orderBooks.insert b.symbol book) book (b.setArbitrageCallback true) where
  keyed := h.keyed
  callback := iff_of_true rfl Std.TreeMap.getElem?_insert_self
  symbol symbol hat := by
    by_cases hs : symbol = b.symbol
    · exact hs.symm
    · rw [getElem?_insert_of_ne hs] at hat
      exact h.symbol symbol hat

theorem Tracks.register_other (h : Tracks orderBooks other b) (hne : other ≠ book)
    (hfree : orderBooks[symbol]? = none) :
    Tracks (orderBooks.insert symbol book) other b := by
  have hsame : ∀ symbol' : StdString, (orderBooks.insert symbol book)[symbol']? = some other ↔
      orderBooks[symbol']? = some other := by
    intro symbol'
    by_cases hs : symbol' = symbol
    · rw [hs, Std.TreeMap.getElem?_insert_self, hfree]
      simp [hne.symm]
    · rw [getElem?_insert_of_ne hs]
  exact ⟨h.keyed, by rw [h.callback, hsame], fun symbol' hat => h.symbol symbol' ((hsame _).mp hat)⟩

/-- The book under a symbol is removed. -/
theorem Tracks.remove (h : Tracks orderBooks book b) (hat : orderBooks[symbol]? = some book) :
    Tracks (orderBooks.erase symbol) book (b.setArbitrageCallback false) where
  keyed := h.keyed
  callback := by
    refine iff_of_false Bool.false_ne_true ?_
    rw [show (b.setArbitrageCallback false).symbol = symbol from h.symbol symbol hat,
      Std.TreeMap.getElem?_erase_self]
    exact nofun
  symbol symbol' hat' := by
    rw [Std.TreeMap.getElem?_erase] at hat'
    split at hat'
    · cases hat'
    · exact h.symbol symbol' hat'

theorem Tracks.remove_other (h : Tracks orderBooks other b) (hne : other ≠ book)
    (hat : orderBooks[symbol]? = some book) : Tracks (orderBooks.erase symbol) other b := by
  have hsame : ∀ symbol' : StdString, (orderBooks.erase symbol)[symbol']? = some other ↔
      orderBooks[symbol']? = some other := by
    intro symbol'
    by_cases hs : symbol' = symbol
    · rw [hs, Std.TreeMap.getElem?_erase_self, hat]
      simp [hne.symm]
    · rw [getElem?_erase_of_ne hs]
  exact ⟨h.keyed, by rw [h.callback, hsame], fun symbol' hat => h.symbol symbol' ((hsame _).mp hat)⟩

theorem inv_construct [Field D] (minProfitPercent : D) (historySize : Nat)
    (symbols : β → StdString) : Inv (construct minProfitPercent historySize symbols) := by
  intro book
  refine ⟨keyed_of_empty _ _, ?_, fun symbol hat => ?_⟩
  · simp [construct, AggregatedOrderBook.construct, ArbitrageMonitor.construct]
  · simp [construct, ArbitrageMonitor.construct] at hat

variable [DecidableEq β]

theorem Inv.addOrderBook (h : Inv s) (book : Option β) : Inv (s.addOrderBook book) := by
  cases book with
  | none => exact h
  | some book =>
    rw [Monitoring.addOrderBook]
    simp only
    split
    · exact h
    · rename_i hcontains
      have hfree : s.monitor.orderBooks[(s.books book).symbol]? = none :=
        Std.TreeMap.getElem?_eq_none hcontains
      exact (Function.forall_update_iff s.books _).mpr
        ⟨(h book).register, fun other hne => (h other).register_other hne hfree⟩

theorem Inv.removeOrderBook (h : Inv s) (symbol : StdString) : Inv (s.removeOrderBook symbol) := by
  rw [Monitoring.removeOrderBook]
  split
  · exact h
  · rename_i book hat
    exact (Function.forall_update_iff s.books _).mpr
      ⟨(h book).remove hat, fun other hne => (h other).remove_other hne hat⟩

variable [Field D]

omit [DecidableEq β] in
theorem orderBooks_onArbitrageDetected (m : ArbitrageMonitor β D)
    (opportunity : ArbitrageOpportunity D) (now : UInt64) :
    (m.onArbitrageDetected opportunity now).orderBooks = m.orderBooks := by
  rw [ArbitrageMonitor.onArbitrageDetected]
  split
  · exact ArbitrageMonitor.kept_foldl_expire _ _ (·.orderBooks)
      (fun m => ArbitrageMonitor.orderBooks_expire m _) _
  · rfl

theorem Inv.update (h : Inv s) (book : β) (u : NormalizedOrderBookUpdate D)
    (now detectedAt : UInt64) : Inv (s.update book u now detectedAt) := by
  by_cases hs : u.symbol = (s.books book).symbol
  · have horderBooks : (s.update book u now detectedAt).monitor.orderBooks =
        s.monitor.orderBooks := by
      rw [Monitoring.update, if_neg (not_not.mpr hs)]
      simp only
      split
      · split
        · exact orderBooks_onArbitrageDetected _ _ _
        · rfl
      · rfl
    rw [Inv, horderBooks, books_update hs]
    refine (Function.forall_update_iff s.books _).mpr ⟨?_, fun other _ => h other⟩
    exact (h book).of_same ((h book).keyed.applyUpdate u) rfl rfl
  · rw [update_of_symbol_ne hs]
    exact h

/-- Every call keeps the invariant. -/
theorem Inv.step (h : Inv s) (e : Event β D) : Inv (s.step e) := by
  cases e with
  | addOrderBook book => exact h.addOrderBook book
  | removeOrderBook symbol => exact h.removeOrderBook symbol
  | start | setMinProfit | setAlertCallback | clearHistory => exact h
  | stop now =>
    have horderBooks : (s.monitor.stop now).orderBooks = s.monitor.orderBooks := by
      rw [ArbitrageMonitor.stop]
      split
      · exact ArbitrageMonitor.orderBooks_expireAll _ now
      · rfl
    intro book
    exact horderBooks.symm ▸ h book
  | clear book =>
    refine (Function.forall_update_iff s.books _).mpr ⟨?_, fun other _ => h other⟩
    exact (h book).of_same (keyed_of_empty _ _) rfl rfl
  | update book u now detectedAt => exact h.update book u now detectedAt

/-- In every history of calls, the updates meet the law exactly when both
thresholds agree on each of them. -/
theorem complete_iff_thresholdsAgree [IsStrictOrderedRing D] (minProfitPercent : D)
    (historySize : Nat) (symbols : β → StdString) (calls : List (Event β D)) :
    Always Complete (construct minProfitPercent historySize symbols)
        (runOf step (construct minProfitPercent historySize symbols) calls) ↔
      Guarded ThresholdsAgree (construct minProfitPercent historySize symbols)
        (runOf step (construct minProfitPercent historySize symbols) calls) := by
  exact always_runOf_iff_guarded Inv (fun _ e h => h.step e) (fun _ e h => complete_iff h e)
    (inv_construct minProfitPercent historySize symbols) calls

end History

/-- An update that leaves a book crossed by 0.07 percent. -/
def narrowUpdate : NormalizedOrderBookUpdate ℚ where
  exchange := .binance
  symbol := lit "BTC-USD"
  timestamp := 1
  updateId := 1
  bids := [⟨10007 / 100, 1, 1⟩]
  asks := [⟨100, 1, 1⟩]

/-- A monitor that is set to 0.05 percent sees the update. -/
def belowDefault : List (Event Unit ℚ) :=
  [.addOrderBook (some ()), .start, .update () narrowUpdate 2 3]

theorem complete_iff_thresholdsAgree_belowDefault :
    Always Complete (construct (1/20) 1000 fun _ => lit "BTC-USD")
        (runOf step (construct (1/20) 1000 fun _ => lit "BTC-USD") belowDefault) ↔
      Guarded ThresholdsAgree (construct (1/20) 1000 fun _ => lit "BTC-USD")
        (runOf step (construct (1/20) 1000 fun _ => lit "BTC-USD") belowDefault) :=
  complete_iff_thresholdsAgree (1/20) 1000 (fun _ => lit "BTC-USD") belowDefault

/-- The update is worth it to the monitor and nothing is tracked. -/
theorem belowDefault_not_complete :
    ¬ Always Complete (construct (1/20) 1000 fun _ => lit "BTC-USD")
      (runOf step (construct (1/20) 1000 fun _ => lit "BTC-USD") belowDefault) := by
  rintro ⟨-, -, hupdate, -⟩
  let s : Monitoring Unit ℚ := ((construct (1/20) 1000 fun _ => lit "BTC-USD").step
    (.addOrderBook (some ()))).step .start
  have hinv : Inv s := ((inv_construct _ _ _).step _).step _
  have hkeyed := (hinv ()).keyed.applyUpdate narrowUpdate
  have hbids : (applyUpdate narrowUpdate (s.books ())).allLevels .bid =
      [⟨.binance, 10007 / 100, 1, 1, 1⟩] := by decide +kernel
  have hasks : (applyUpdate narrowUpdate (s.books ())).allLevels .ask =
      [⟨.binance, 100, 1, 1, 1⟩] := by decide +kernel
  have hbest : (applyUpdate narrowUpdate (s.books ())).BestPrices (10007 / 100) 100 := by
    constructor
    · simp [IsGreatest, upperBounds, hkeyed.mem_prices, hbids]
    · simp [IsLeast, lowerBounds, hkeyed.mem_prices, hasks]
  have hregistered : s.Registered () := by
    show s.monitor.orderBooks[lit "BTC-USD"]? = some ()
    decide +kernel
  have hagree := (complete_iff hinv _).mp hupdate rfl hregistered rfl _ _ hbest (by norm_num)
  have hmin : s.monitor.minProfitPercent ≤ percent (10007 / 100 - 100) 100 := by
    rw [show s.monitor.minProfitPercent = 1 / 20 from rfl]
    norm_num [percent]
  have hdefault := hagree.2 (by norm_num) hmin
  norm_num [percent, defaultMinProfitPercentage] at hdefault

end Monitoring

end OrderbookEngine
