import OrderbookEngine.Core.AggregatedSnapshot

/-!
# Soundness and completeness of arbitrage detection

The detection takes the best bid and the best ask of all exchanges, each for
itself. It finds the best pair of quotes of two exchanges exactly when these two
stand on different exchanges or do not cross far enough; a single exchange with
a crossed book is reported as an opportunity with itself.
-/

namespace OrderbookEngine.AggregatedOrderBook

variable {D : Type} [LinearOrder D]

/-- The exchange has the level on a side. -/
def Quotes (book : AggregatedOrderBook D) (exchange : Exchange) (side : Side)
    (l : AggregatedPriceLevel D) : Prop :=
  ∃ price : D, (book.heldLevels exchange side)[price]? = some l

/-- A price of the side is at most as good as another. -/
def NoBetter : Side → D → D → Prop
  | .bid => fun p q => p ≤ q
  | .ask => fun p q => q ≤ p

/-- The level leads its side: no price is better, and no exchange with a lower number
quotes the same price. -/
structure Leads (book : AggregatedOrderBook D) (side : Side) (l : AggregatedPriceLevel D) :
    Prop where
  quoted : book.Quotes l.exchange side l
  best : ∀ exchange l', book.Quotes exchange side l' → NoBetter side l'.price l.price
  lowest : ∀ exchange l', book.Quotes exchange side l' → l'.price = l.price →
    l.exchange.val ≤ exchange.val

section Detection

variable [Field D]

/-- A bid of one exchange exceeds an ask of another by a percentage of the ask. -/
structure Profitable (book : AggregatedOrderBook D) (minProfitPercentage : D)
    (sell buy : Exchange) (bid ask : AggregatedPriceLevel D) : Prop where
  distinct : sell ≠ buy
  bid_quoted : book.Quotes sell .bid bid
  ask_quoted : book.Quotes buy .ask ask
  crossed : ask.price < bid.price
  enough : minProfitPercentage ≤ percent (bid.price - ask.price) ask.price

/-- The detection reports an opportunity exactly when two exchanges offer one, and
then the most profitable one. -/
structure Detects (book : AggregatedOrderBook D) (minProfitPercentage : D) (now : UInt64) :
    Prop where
  isSome_iff : (book.detectArbitrage minProfitPercentage now).isSome ↔
    ∃ sell buy bid ask, Profitable book minProfitPercentage sell buy bid ask
  attained : ∀ o, book.detectArbitrage minProfitPercentage now = some o →
    ∃ bid ask, Profitable book minProfitPercentage o.sellExchange o.buyExchange bid ask ∧
      o.profitPercentage = ↑(percent (bid.price - ask.price) ask.price) ∧
      o.maxQuantity = min bid.quantity ask.quantity
  distinct : ∀ o, book.detectArbitrage minProfitPercentage now = some o →
    o.buyExchange ≠ o.sellExchange
  maximal : ∀ o, book.detectArbitrage minProfitPercentage now = some o →
    ∀ sell buy bid ask, Profitable book minProfitPercentage sell buy bid ask →
      ↑(percent (bid.price - ask.price) ask.price) ≤ o.profitPercentage

/-- The leading bid and the leading ask belong to different exchanges, or they do not
cross by the percentage. -/
def VenuesDiffer (book : AggregatedOrderBook D) (minProfitPercentage : D) : Prop :=
  ∀ bid ask, Leads book .bid bid → Leads book .ask ask → ask.price < bid.price →
    minProfitPercentage ≤ percent (bid.price - ask.price) ask.price →
    bid.exchange ≠ ask.exchange

end Detection

section Leading

variable {book : AggregatedOrderBook D} {side : Side} {l l' : AggregatedPriceLevel D}
  {exchange : Exchange}

/-- A quoted level is one of those that the exchange's book iterates. -/
theorem quotes_iff_mem : book.Quotes exchange side l ↔
    ∃ e ∈ book.exchangeBooks.toList, e.1 = exchange ∧
      l ∈ (e.2.levels side).toList.map Prod.snd := by
  constructor
  · rintro ⟨price, h⟩
    cases hbook : book.exchangeBooks[exchange]? with
    | none =>
      rw [heldLevels, Std.TreeMap.getD_eq_getD_getElem?, hbook] at h
      cases side <;> simp [ExchangeBook.levels] at h
    | some exchangeBook =>
      have he : (exchange, exchangeBook) ∈ book.exchangeBooks.toList :=
        Std.TreeMap.mem_toList_iff_getElem?_eq_some.mpr hbook
      rw [heldLevels_of_mem he, ← Std.TreeMap.mem_toList_iff_getElem?_eq_some] at h
      exact ⟨_, he, rfl, List.mem_map_of_mem h⟩
  · rintro ⟨e, he, rfl, hl⟩
    obtain ⟨⟨price, l⟩, hp, rfl⟩ := List.mem_map.mp hl
    refine ⟨price, ?_⟩
    rw [heldLevels_of_mem he, ← Std.TreeMap.mem_toList_iff_getElem?_eq_some]
    exact hp

theorem quotes_iff_mem_allLevels (h : Keyed book) :
    book.Quotes l.exchange side l ↔ l ∈ book.allLevels side := by
  rw [mem_allLevels]
  constructor
  · exact fun ⟨price, hl⟩ => ⟨l.exchange, price, hl⟩
  · rintro ⟨exchange, price, hl⟩
    rw [← (h _ _ _ _ hl).1] at hl
    exact ⟨price, hl⟩

/-- A quoted level carries its exchange. -/
theorem Quotes.exchange_eq (hl : book.Quotes exchange side l) (h : Keyed book) :
    l.exchange = exchange :=
  hl.elim fun _ hp => (h _ _ _ _ hp).1

theorem Quotes.mem_allLevels (hl : book.Quotes exchange side l) : l ∈ book.allLevels side :=
  AggregatedOrderBook.mem_allLevels.mpr ⟨exchange, hl⟩

/-- An exchange quotes one level at a price. -/
theorem Quotes.eq (hl : book.Quotes exchange side l) (hl' : book.Quotes exchange side l')
    (h : Keyed book) (hprice : l.price = l'.price) : l = l' := by
  obtain ⟨p, hp⟩ := hl
  obtain ⟨p', hp'⟩ := hl'
  rw [← (h _ _ _ _ hp).2, hprice, (h _ _ _ _ hp').2, hp', Option.some.injEq] at hp
  exact hp.symm

/-- At most one level leads a side. -/
theorem Leads.eq (hl : Leads book side l) (hl' : Leads book side l') (h : Keyed book) :
    l = l' := by
  have hprice : l.price = l'.price := by
    have hle := hl.best _ _ hl'.quoted
    have hge := hl'.best _ _ hl.quoted
    cases side with
    | bid => exact le_antisymm hge hle
    | ask => exact le_antisymm hle hge
  have hexchange : l.exchange = l'.exchange := by
    have hval := UInt8.le_antisymm (hl.lowest _ _ hl'.quoted hprice.symm)
      (hl'.lowest _ _ hl.quoted hprice)
    cases hl : l.exchange
    cases hl' : l'.exchange
    rw [hl, hl'] at hval
    exact congrArg Exchange.mk hval
  exact hl.quoted.eq (hexchange ▸ hl'.quoted) h hprice

/-- The only level of a side leads it. -/
theorem leads_of_allLevels_eq (h : Keyed book) (hl : book.allLevels side = [l]) :
    Leads book side l := by
  have honly : ∀ {exchange l'}, book.Quotes exchange side l' → l' = l := by
    intro exchange l' hl'
    have hmem := hl'.mem_allLevels
    rw [hl] at hmem
    exact List.mem_singleton.mp hmem
  have hmem : l ∈ book.allLevels side := by simp [hl]
  refine ⟨(quotes_iff_mem_allLevels h).mpr hmem, fun _ _ hl' => ?_, fun _ _ hl' _ => ?_⟩
  · rw [honly hl']
    cases side <;> exact le_refl _
  · rw [← hl'.exchange_eq h, honly hl']
    exact UInt8.le_refl _

/-- The exchanges are iterated by increasing number. -/
theorem exchanges_sorted (book : AggregatedOrderBook D) :
    book.exchangeBooks.toList.Pairwise fun e e' => e.1.val < e'.1.val := by
  refine (Std.TreeMap.ordered_keys_toList (t := book.exchangeBooks)).imp fun {e e'} h => ?_
  have hval : compare e.1.val e'.1.val = .lt := h
  exact compareOfLessAndEq_eq_lt.mp hval

/-- The top of the first exchange whose top is best leads the side. -/
theorem leads_of_isFirstBest (side : Side) {β : Type} [LinearOrder β]
    {f : AggregatedPriceLevel D → β}
    (h : Keyed book) (hf : ∀ l l' : AggregatedPriceLevel D, l.price = l'.price → f l = f l')
    {top : Exchange × ExchangeBook D → Option (AggregatedPriceLevel D)}
    (htop : ∀ e ∈ book.exchangeBooks.toList,
      IsBest f ((e.2.levels side).toList.map Prod.snd) (top e))
    (hfirst : IsFirstBest f top book.exchangeBooks.toList (some l)) :
    book.Quotes l.exchange side l ∧
      (∀ exchange l', book.Quotes exchange side l' → f l' ≤ f l) ∧
      ∀ exchange l', book.Quotes exchange side l' → l'.price = l.price →
        l.exchange.val ≤ exchange.val := by
  obtain ⟨pre, e, post, hsplit, he, hpre, hpost⟩ := hfirst
  have hmem : e ∈ book.exchangeBooks.toList := by simp [hsplit]
  have hsorted := exchanges_sorted book
  rw [hsplit] at hsorted
  have hlevel : l ∈ (e.2.levels side).toList.map Prod.snd := by
    have hbest := htop e hmem
    rw [he] at hbest
    exact hbest.1
  have hquoted : book.Quotes e.1 side l := quotes_iff_mem.mpr ⟨e, hmem, rfl, hlevel⟩
  have hexchange : l.exchange = e.1 := hquoted.exchange_eq h
  -- a level is no better than the top of its own exchange
  have hown : ∀ e' ∈ book.exchangeBooks.toList, ∀ l' ∈ (e'.2.levels side).toList.map Prod.snd,
      ∃ t, top e' = some t ∧ f l' ≤ f t :=
    fun e' he' l' hl' => (htop e' he').exists_of_mem hl'
  refine ⟨hexchange ▸ hquoted, fun exchange l' hl' => ?_, fun exchange l' hl' hprice => ?_⟩
  · obtain ⟨e', he', -, hmem'⟩ := quotes_iff_mem.mp hl'
    obtain ⟨t, ht, hle⟩ := hown e' he' l' hmem'
    rw [hsplit] at he'
    rcases List.mem_append.mp he' with he' | he'
    · exact hle.trans (hpre e' he' t ht).le
    · rcases List.mem_cons.mp he' with rfl | he'
      · rw [he] at ht
        cases ht
        exact hle
      · exact hle.trans (hpost e' he' t ht)
  · obtain ⟨e', he', rfl, hmem'⟩ := quotes_iff_mem.mp hl'
    obtain ⟨t, ht, hle⟩ := hown e' he' l' hmem'
    rw [hf l' l hprice] at hle
    rw [hexchange]
    rw [hsplit] at he'
    rcases List.mem_append.mp he' with he' | he'
    · exact absurd (hpre e' he' t ht) (not_lt.mpr hle)
    · rcases List.mem_cons.mp he' with rfl | he'
      · exact UInt8.le_refl _
      · exact UInt8.le_of_lt
          (List.rel_of_pairwise_cons (List.pairwise_append.mp hsorted).2.1 he')

/-- The best bid of the source is the leading one. -/
theorem leads_getBestBid (h : Keyed book) (hl : book.getBestBid = some l) :
    Leads book .bid l := by
  have hfirst := isFirstBest_foldl (fun l : AggregatedPriceLevel D => l.price)
    (fun e : Exchange × ExchangeBook D => (e.2.bids.toList.map Prod.snd).getLast?)
    book.exchangeBooks.toList
  simp only [getBestBid, List.foldl_map, betterBid_eq] at hl
  rw [hl] at hfirst
  obtain ⟨hquoted, hbest, hlowest⟩ := leads_of_isFirstBest .bid h (fun _ _ hp => hp)
    (fun e he => isBest_getLast? (sorted_levels h he .bid)) hfirst
  exact ⟨hquoted, hbest, hlowest⟩

/-- The best ask of the source is the leading one. -/
theorem leads_getBestAsk (h : Keyed book) (hl : book.getBestAsk = some l) :
    Leads book .ask l := by
  have hfirst := isFirstBest_foldl (fun l : AggregatedPriceLevel D => OrderDual.toDual l.price)
    (fun e : Exchange × ExchangeBook D => (e.2.asks.toList.map Prod.snd).head?)
    book.exchangeBooks.toList
  simp only [getBestAsk, List.foldl_map, betterAsk_eq] at hl
  rw [hl] at hfirst
  obtain ⟨hquoted, hbest, hlowest⟩ := leads_of_isFirstBest .ask h
    (fun _ _ hp => congrArg OrderDual.toDual hp)
    (fun e he => isBest_head? (f := fun l : AggregatedPriceLevel D => OrderDual.toDual l.price)
      (sorted_levels h he .ask)) hfirst
  exact ⟨hquoted, hbest, hlowest⟩

/-- The best quote of a side is the leading level. -/
theorem bestQuote_eq_some_iff (h : Keyed book) :
    book.bestQuote side = some l ↔ Leads book side l := by
  have hleads : ∀ {l}, book.bestQuote side = some l → Leads book side l := by
    intro l hl
    cases side with
    | bid => exact leads_getBestBid h hl
    | ask => exact leads_getBestAsk h hl
  refine ⟨hleads, fun hl => ?_⟩
  cases hbest : book.bestQuote side with
  | none =>
    rw [quote_none_iff h] at hbest
    have hmem := hl.quoted.mem_allLevels
    rw [hbest] at hmem
    cases hmem
  | some l' => rw [(hleads hbest).eq hl h]

end Leading

section Detected

variable [Field D] [IsStrictOrderedRing D] {book : AggregatedOrderBook D}
  {minProfitPercentage : D} {now : UInt64}

omit [IsStrictOrderedRing D] in
theorem percentageOf_of_pos {price : D} (h : 0 < price) (part : D) :
    percentageOf part price = ↑(percent part price) := if_neg h.ne'

/-- A higher bid and a lower ask make a higher percentage. -/
theorem percent_le_percent {bid ask bid' ask' : D} (hask' : 0 < ask') (hbid : bid ≤ bid')
    (hask : ask' ≤ ask) (hcrossed : ask ≤ bid) :
    percent (bid - ask) ask ≤ percent (bid' - ask') ask' := by
  have hpart : bid - ask ≤ bid' - ask' := sub_le_sub hbid hask
  have hnonneg : 0 ≤ bid' - ask' := (sub_nonneg.mpr hcrossed).trans hpart
  exact mul_le_mul_of_nonneg_right (div_le_div₀ hnonneg hpart hask' hask) (by norm_num)

omit [IsStrictOrderedRing D] in
/-- What the detection reports, in terms of the leading levels. -/
theorem detectArbitrage_eq_some_iff (h : Keyed book)
    (hpos : ∀ exchange ask, book.Quotes exchange .ask ask → 0 < ask.price)
    {o : ArbitrageOpportunity D} :
    book.detectArbitrage minProfitPercentage now = some o ↔
      ∃ bid ask, Leads book .bid bid ∧ Leads book .ask ask ∧ ask.price < bid.price ∧
        minProfitPercentage ≤ percent (bid.price - ask.price) ask.price ∧
        o = ⟨book.symbol, ask.exchange, bid.exchange, ask.price, bid.price,
          min bid.quantity ask.quantity, bid.price - ask.price,
          ↑(percent (bid.price - ask.price) ask.price), now⟩ := by
  have hbids : (book.exchangeBooks.toList.map Prod.snd).foldl betterBid none =
      book.bestQuote .bid := rfl
  have hasks : (book.exchangeBooks.toList.map Prod.snd).foldl betterAsk none =
      book.bestQuote .ask := rfl
  simp only [detectArbitrage, hbids, hasks]
  constructor
  · intro ho
    cases hbid : book.bestQuote .bid with
    | none => simp [hbid] at ho
    | some bid =>
      cases hask : book.bestQuote .ask with
      | none => simp [hbid, hask] at ho
      | some ask =>
        have hleads := (bestQuote_eq_some_iff h).mp hask
        have hprice := hpos _ _ hleads.quoted
        simp only [hbid, hask, percentageOf_of_pos hprice, WithTop.coe_lt_coe] at ho
        split at ho
        · cases ho
        · rename_i hcrossed
          split at ho
          · cases ho
          · rename_i henough
            rw [Option.some.injEq] at ho
            exact ⟨bid, ask, (bestQuote_eq_some_iff h).mp hbid, hleads, not_le.mp hcrossed,
              not_lt.mp henough, ho.symm⟩
  · rintro ⟨bid, ask, hbid, hask, hcrossed, henough, rfl⟩
    rw [(bestQuote_eq_some_iff h).mpr hbid, (bestQuote_eq_some_iff h).mpr hask]
    simp only [percentageOf_of_pos (hpos _ _ hask.quoted), WithTop.coe_lt_coe,
      not_le.mpr hcrossed, not_lt.mpr henough, if_false]

/-- A profitable pair is at most as profitable as the leading levels. -/
theorem Profitable.leads (h : Keyed book)
    (hpos : ∀ exchange ask, book.Quotes exchange .ask ask → 0 < ask.price)
    {sell buy : Exchange} {bid ask : AggregatedPriceLevel D}
    (hpair : Profitable book minProfitPercentage sell buy bid ask) :
    ∃ bid' ask', Leads book .bid bid' ∧ Leads book .ask ask' ∧ ask'.price < bid'.price ∧
      percent (bid.price - ask.price) ask.price ≤
        percent (bid'.price - ask'.price) ask'.price := by
  have hleading : ∀ {side exchange l}, book.Quotes exchange side l →
      ∃ l', Leads book side l' := by
    intro side exchange l hl
    cases hbest : book.bestQuote side with
    | none =>
      have hmem := hl.mem_allLevels
      rw [(quote_none_iff h side).mp hbest] at hmem
      cases hmem
    | some l' => exact ⟨l', (bestQuote_eq_some_iff h).mp hbest⟩
  obtain ⟨bid', hbid'⟩ := hleading hpair.bid_quoted
  obtain ⟨ask', hask'⟩ := hleading hpair.ask_quoted
  have hbid : bid.price ≤ bid'.price := hbid'.best _ _ hpair.bid_quoted
  have hask : ask'.price ≤ ask.price := hask'.best _ _ hpair.ask_quoted
  exact ⟨bid', ask', hbid', hask', hask.trans_lt (hpair.crossed.trans_le hbid),
    percent_le_percent (hpos _ _ hask'.quoted) hbid hask hpair.crossed.le⟩

/-- Leading levels of different exchanges make the detection exact. -/
theorem VenuesDiffer.detects (hdiffer : VenuesDiffer book minProfitPercentage) (h : Keyed book)
    (hpos : ∀ exchange ask, book.Quotes exchange .ask ask → 0 < ask.price) :
    Detects book minProfitPercentage now where
  isSome_iff := by
    rw [Option.isSome_iff_exists]
    constructor
    · rintro ⟨o, ho⟩
      obtain ⟨bid, ask, hbid, hask, hcrossed, henough, -⟩ :=
        (detectArbitrage_eq_some_iff h hpos).mp ho
      exact ⟨_, _, bid, ask, hdiffer bid ask hbid hask hcrossed henough, hbid.quoted,
        hask.quoted, hcrossed, henough⟩
    · rintro ⟨sell, buy, bid, ask, hpair⟩
      obtain ⟨bid', ask', hbid', hask', hcrossed, hle⟩ := hpair.leads h hpos
      exact ⟨_, (detectArbitrage_eq_some_iff h hpos).mpr
        ⟨bid', ask', hbid', hask', hcrossed, hpair.enough.trans hle, rfl⟩⟩
  attained o ho := by
    obtain ⟨bid, ask, hbid, hask, hcrossed, henough, rfl⟩ :=
      (detectArbitrage_eq_some_iff h hpos).mp ho
    exact ⟨bid, ask, ⟨hdiffer bid ask hbid hask hcrossed henough, hbid.quoted, hask.quoted,
      hcrossed, henough⟩, rfl, rfl⟩
  distinct o ho := by
    obtain ⟨bid, ask, hbid, hask, hcrossed, henough, rfl⟩ :=
      (detectArbitrage_eq_some_iff h hpos).mp ho
    exact (hdiffer bid ask hbid hask hcrossed henough).symm
  maximal o ho := by
    intro sell buy bid ask hpair
    obtain ⟨bid', ask', hbid', hask', -, hle⟩ := hpair.leads h hpos
    obtain ⟨bid'', ask'', hbid'', hask'', -, -, rfl⟩ :=
      (detectArbitrage_eq_some_iff h hpos).mp ho
    rw [hbid'.eq hbid'' h, hask'.eq hask'' h] at hle
    exact WithTop.coe_le_coe.mpr hle

/-- After any updates and clears that leave all asks positive, the detection is sound
and complete exactly when the leading bid and the leading ask stand on different
exchanges or do not cross far enough. -/
theorem detects_iff_venuesDiffer (symbol : StdString) (calls : List (Call D))
    (minProfitPercentage : D) (now : UInt64)
    (hpos : ∀ exchange ask, (run symbol calls).Quotes exchange .ask ask → 0 < ask.price) :
    Detects (run symbol calls) minProfitPercentage now ↔
      VenuesDiffer (run symbol calls) minProfitPercentage := by
  have hkeyed := (run_spec symbol calls).2.1
  refine ⟨fun hdetects bid ask hbid hask hcrossed henough heq => ?_,
    fun hdiffer => hdiffer.detects hkeyed hpos⟩
  exact hdetects.distinct _ ((detectArbitrage_eq_some_iff hkeyed hpos).mpr
    ⟨bid, ask, hbid, hask, hcrossed, henough, rfl⟩) heq.symm

/-- Two exchanges, the second bidding above the first one's ask. -/
def crossedVenues : List (Call ℚ) :=
  [.update ⟨.binance, lit "BTC-USD", 1, 1, [⟨99, 1, 1⟩], [⟨100, 1, 1⟩]⟩,
    .update ⟨.coinbase, lit "BTC-USD", 2, 1, [⟨102, 3, 1⟩], [⟨103, 1, 1⟩]⟩]

theorem detects_iff_crossedVenues :
    Detects (run (lit "BTC-USD") crossedVenues) 1 5 ↔
      VenuesDiffer (run (lit "BTC-USD") crossedVenues) 1 := by
  apply detects_iff_venuesDiffer
  intro exchange ask h
  have hall : ∀ l ∈ (run (lit "BTC-USD") crossedVenues).allLevels .ask, 0 < l.price := by
    decide +kernel
  exact hall ask h.mem_allLevels

/-- One exchange bids 102 and asks 100. -/
def crossedVenue : List (Call ℚ) :=
  [.update ⟨.binance, lit "BTC-USD", 1, 1, [⟨102, 1, 1⟩], [⟨100, 1, 1⟩]⟩]

theorem quotes_crossedVenue {exchange : Exchange} {ask : AggregatedPriceLevel ℚ}
    (h : (run (lit "BTC-USD") crossedVenue).Quotes exchange .ask ask) : 0 < ask.price := by
  have hall : ∀ l ∈ (run (lit "BTC-USD") crossedVenue).allLevels .ask, 0 < l.price := by
    decide +kernel
  exact hall ask h.mem_allLevels

/-- The crossed exchange is reported as buying from itself. -/
theorem detects_fails : ¬ Detects (run (lit "BTC-USD") crossedVenue) 1 5 := by
  intro h
  have hkeyed := (run_spec (lit "BTC-USD") crossedVenue).2.1
  have hbid : (run (lit "BTC-USD") crossedVenue).allLevels .bid =
      [⟨.binance, 102, 1, 1, 1⟩] := by decide +kernel
  have hask : (run (lit "BTC-USD") crossedVenue).allLevels .ask =
      [⟨.binance, 100, 1, 1, 1⟩] := by decide +kernel
  refine h.distinct _ ((detectArbitrage_eq_some_iff hkeyed
    (fun _ _ => quotes_crossedVenue)).mpr ⟨_, _, leads_of_allLevels_eq hkeyed hbid,
      leads_of_allLevels_eq hkeyed hask, ?_, ?_, rfl⟩) rfl
  · norm_num
  · norm_num [percent]

end Detected

end OrderbookEngine.AggregatedOrderBook
