import OrderbookEngine.Core.AggregatedOrderBook
import OrderbookEngine.Library.BestOf
import OrderbookEngine.Library.LastWrite
import OrderbookEngine.Library.StdChoices

/-!
# Snapshots and best quotes of the aggregated book

`get_snapshot` collects the levels of every exchange, sorts them by price and
cuts them off; the best quotes come from a scan of the ends of the exchanges'
maps. Both are views of one map, the last write of every exchange to every
price, whatever the history of updates and clears.
-/

namespace OrderbookEngine

open LastWrite

/-- `AggregatedSnapshot`. -/
structure AggregatedSnapshot (D : Type) where
  symbol : StdString
  timestampNs : UInt64
  bids : List (AggregatedPriceLevel D)
  asks : List (AggregatedPriceLevel D)
  deriving DecidableEq, Repr

/-- The levels of one side of a snapshot. -/
def AggregatedSnapshot.levels {D : Type} (snapshot : AggregatedSnapshot D) :
    Side → List (AggregatedPriceLevel D)
  | .bid => snapshot.bids
  | .ask => snapshot.asks

namespace AggregatedOrderBook

variable {D : Type} [LinearOrder D]

/-- `all_bids` or `all_asks`: the levels of every exchange, exchange by exchange. -/
def allLevels (book : AggregatedOrderBook D) (side : Side) : List (AggregatedPriceLevel D) :=
  book.exchangeBooks.toList.flatMap fun e => (e.2.levels side).toList.map Prod.snd

/-- `levels.resize(depth)` when there are more. -/
def cutTo (depth : Nat) (levels : List (AggregatedPriceLevel D)) :
    List (AggregatedPriceLevel D) :=
  if levels.length > depth then levels.take depth else levels

/-- `merge_bids`. -/
def mergeBids (std : StdChoices) (book : AggregatedOrderBook D) (depth : Nat) :
    List (AggregatedPriceLevel D) :=
  cutTo depth (std.sort (fun a b => decide (a.price > b.price)) (book.allLevels .bid))

/-- `merge_asks`. -/
def mergeAsks (std : StdChoices) (book : AggregatedOrderBook D) (depth : Nat) :
    List (AggregatedPriceLevel D) :=
  cutTo depth (std.sort (fun a b => decide (a.price < b.price)) (book.allLevels .ask))

/-- `get_snapshot` at the clock reading `timestampNs`. -/
def getSnapshot (std : StdChoices) (book : AggregatedOrderBook D) (depth : Nat)
    (timestampNs : UInt64) : AggregatedSnapshot D where
  symbol := book.symbol
  timestampNs := timestampNs
  bids := book.mergeBids std depth
  asks := book.mergeAsks std depth

/-- `get_best_bid`. -/
def getBestBid (book : AggregatedOrderBook D) : Option (AggregatedPriceLevel D) :=
  (book.exchangeBooks.toList.map Prod.snd).foldl betterBid none

/-- `get_best_ask`. -/
def getBestAsk (book : AggregatedOrderBook D) : Option (AggregatedPriceLevel D) :=
  (book.exchangeBooks.toList.map Prod.snd).foldl betterAsk none

/-- `get_mid_price`. -/
def getMidPrice [Field D] (book : AggregatedOrderBook D) : Option D :=
  match book.getBestBid, book.getBestAsk with
  | some bid, some ask => some ((bid.price + ask.price) / 2)
  | _, _ => none

/-- `get_spread`. -/
def getSpread [Field D] (book : AggregatedOrderBook D) : Option D :=
  match book.getBestBid, book.getBestAsk with
  | some bid, some ask => some (ask.price - bid.price)
  | _, _ => none

/-- A call that changes the levels of a book. -/
inductive Call (D : Type) where
  | update (u : NormalizedOrderBookUpdate D)
  | clear

/-- One call. -/
def call [Zero D] (book : AggregatedOrderBook D) : Call D → AggregatedOrderBook D
  | .update u => book.update u
  | .clear => book.clear

/-- A new book after some calls. -/
def run [Zero D] (symbol : StdString) (calls : List (Call D)) : AggregatedOrderBook D :=
  calls.foldl call (construct symbol)

/-- What an exchange holds at a price: quantity, order count and time. -/
abbrev Held (D : Type) := D × UInt32 × UInt64

/-- A level under its exchange and price. -/
def entry (l : AggregatedPriceLevel D) : (Exchange × D) × Held D :=
  ((l.exchange, l.price), l.quantity, l.orderCount, l.timestampNs)

section LastWrites

variable [Zero D]

/-- A level of an update writes its exchange's price, and deletes it when the
quantity is not positive. -/
def writeLevel (u : NormalizedOrderBookUpdate D) (m : LastWrite (Exchange × D) (Held D))
    (l : PriceLevelSnapshot D) : LastWrite (Exchange × D) (Held D) :=
  m.write (u.exchange, l.price)
    (if 0 < l.quantity then some (l.quantity, l.orderCount, u.timestamp) else none)

/-- What a call writes to a side of the book of `symbol`. -/
def writeCall (symbol : StdString) (side : Side) (m : LastWrite (Exchange × D) (Held D)) :
    Call D → LastWrite (Exchange × D) (Held D)
  | .update u => if u.symbol = symbol then (u.levels side).foldl (writeLevel u) m else m
  | .clear => LastWrite.empty

/-- The last writes of some calls to a side. -/
def lastWrites (symbol : StdString) (side : Side) (calls : List (Call D)) :
    LastWrite (Exchange × D) (Held D) :=
  calls.foldl (writeCall symbol side) LastWrite.empty

end LastWrites

/-- From the best price to the worst. -/
def sortPrices (side : Side) (prices : List D) : List D :=
  match side with
  | .bid => prices.mergeSort fun a b => decide (b ≤ a)
  | .ask => prices.mergeSort fun a b => decide (a ≤ b)

/-- The best stored quote of a side. -/
def bestQuote (book : AggregatedOrderBook D) : Side → Option (AggregatedPriceLevel D)
  | .bid => book.getBestBid
  | .ask => book.getBestAsk

/-- The book shows the stored levels: snapshots of every depth list the best of
them, and the quotes agree with the front of a snapshot. -/
structure Shows [Field D] (std : StdChoices) (book : AggregatedOrderBook D)
    (stored : Side → List (AggregatedPriceLevel D)) : Prop where
  length : ∀ depth now side, ((book.getSnapshot std depth now).levels side).length =
    min depth (stored side).length
  prices : ∀ depth now side, ((book.getSnapshot std depth now).levels side).map (·.price) =
    (sortPrices side ((stored side).map (·.price))).take depth
  subperm : ∀ depth now side,
    ((book.getSnapshot std depth now).levels side).Subperm (stored side)
  quote : ∀ now side, (book.bestQuote side).map (·.price) =
    ((book.getSnapshot std 1 now).levels side).head?.map (·.price)
  quote_none : ∀ side, book.bestQuote side = none ↔ stored side = []
  mid_none : book.getMidPrice = none ↔ stored .bid = [] ∨ stored .ask = []
  mid : ∀ now, book.getMidPrice =
    match (book.getSnapshot std 1 now).bids.head?, (book.getSnapshot std 1 now).asks.head? with
    | some bid, some ask => some ((bid.price + ask.price) / 2)
    | _, _ => none
  spread_none : book.getSpread = none ↔ stored .bid = [] ∨ stored .ask = []
  spread : ∀ now, book.getSpread =
    match (book.getSnapshot std 1 now).bids.head?, (book.getSnapshot std 1 now).asks.head? with
    | some bid, some ask => some (ask.price - bid.price)
    | _, _ => none

section Stored

variable {book : AggregatedOrderBook D} {side : Side}

/-- Every stored level carries the exchange and the price that it is stored under. -/
def Keyed (book : AggregatedOrderBook D) : Prop :=
  ∀ exchange side (price : D) level, (book.heldLevels exchange side)[price]? = some level →
    level.exchange = exchange ∧ level.price = price

/-- The levels are what the exchanges hold. -/
theorem mem_allLevels {l : AggregatedPriceLevel D} :
    l ∈ book.allLevels side ↔
      ∃ exchange, ∃ price : D, (book.heldLevels exchange side)[price]? = some l := by
  constructor
  · intro h
    obtain ⟨⟨exchange, exchangeBook⟩, he, hl⟩ := List.mem_flatMap.mp h
    obtain ⟨⟨price, l⟩, hp, rfl⟩ := List.mem_map.mp hl
    rw [Std.TreeMap.mem_toList_iff_getElem?_eq_some] at he hp
    refine ⟨exchange, price, ?_⟩
    rw [heldLevels, Std.TreeMap.getD_eq_getD_getElem?, he]
    exact hp
  · rintro ⟨exchange, price, h⟩
    rw [heldLevels, Std.TreeMap.getD_eq_getD_getElem?] at h
    cases he : book.exchangeBooks[exchange]? with
    | none =>
      rw [he] at h
      cases side <;> simp [ExchangeBook.levels] at h
    | some exchangeBook =>
      rw [he] at h
      refine List.mem_flatMap.mpr ⟨(exchange, exchangeBook), ?_, ?_⟩
      · exact Std.TreeMap.mem_toList_iff_getElem?_eq_some.mpr he
      · exact List.mem_map.mpr
          ⟨(price, l), Std.TreeMap.mem_toList_iff_getElem?_eq_some.mpr h, rfl⟩

/-- The levels of one exchange's book, as they are iterated. -/
theorem heldLevels_of_mem {e : Exchange × ExchangeBook D} (he : e ∈ book.exchangeBooks.toList) :
    book.heldLevels e.1 side = e.2.levels side := by
  rw [Std.TreeMap.mem_toList_iff_getElem?_eq_some] at he
  rw [heldLevels, Std.TreeMap.getD_eq_getD_getElem?, he]
  rfl

/-- The keys under which the levels are stored, in the order of the iteration. -/
theorem keys_allLevels (h : Keyed book) :
    (book.allLevels side).map (fun l => (entry l).1) =
      book.exchangeBooks.toList.flatMap fun e =>
        (e.2.levels side).toList.map fun p => (e.1, p.1) := by
  rw [allLevels, List.map_flatMap]
  apply List.flatMap_congr
  intro e he
  rw [List.map_map]
  apply List.map_congr_left
  rintro ⟨price, level⟩ hp
  rw [Std.TreeMap.mem_toList_iff_getElem?_eq_some, ← heldLevels_of_mem he] at hp
  obtain ⟨hexchange, hprice⟩ := h e.1 side price level hp
  exact Prod.ext hexchange hprice

/-- No exchange has two levels at one price. -/
theorem nodup_keys_allLevels (h : Keyed book) :
    ((book.allLevels side).map fun l => (entry l).1).Nodup := by
  rw [keys_allLevels h, List.nodup_flatMap]
  constructor
  · intro e _
    rw [List.Nodup, List.pairwise_map]
    refine (Std.TreeMap.distinct_keys_toList (t := e.2.levels side)).imp fun {p q} hne heq => ?_
    exact hne (Std.LawfulEqOrd.compare_eq_iff_eq.mpr (congrArg Prod.snd heq))
  · refine (Std.TreeMap.distinct_keys_toList (t := book.exchangeBooks)).imp ?_
    intro e e' hne key hkey hkey'
    obtain ⟨p, -, rfl⟩ := List.mem_map.mp hkey
    obtain ⟨p', -, heq⟩ := List.mem_map.mp hkey'
    exact hne (Std.LawfulEqOrd.compare_eq_iff_eq.mpr (congrArg Prod.fst heq).symm)

/-- The levels list the map that gives what each exchange holds. -/
theorem lists_allLevels (h : Keyed book) {stored : LastWrite (Exchange × D) (Held D)}
    (hview : ∀ exchange price, stored (exchange, price) =
      (book.heldLevels exchange side)[price]?.map fun l => (entry l).2) :
    Lists ((book.allLevels side).map entry) stored where
  nodup := by
    rw [List.map_map]
    exact nodup_keys_allLevels h
  mem_iff := by
    rintro ⟨exchange, price⟩ held
    rw [hview, Option.map_eq_some_iff]
    constructor
    · intro hmem
      obtain ⟨l, hl, he⟩ := List.mem_map.mp hmem
      obtain ⟨exchange', price', hheld⟩ := mem_allLevels.mp hl
      obtain ⟨rfl, rfl⟩ := h _ _ _ _ hheld
      simp only [entry, Prod.mk.injEq] at he
      obtain ⟨⟨rfl, rfl⟩, rfl⟩ := he
      exact ⟨l, hheld, rfl⟩
    · rintro ⟨l, hheld, rfl⟩
      obtain ⟨rfl, rfl⟩ := h _ _ _ _ hheld
      exact List.mem_map.mpr ⟨l, mem_allLevels.mpr ⟨_, _, hheld⟩, rfl⟩

end Stored

section History

variable [Zero D] {book : AggregatedOrderBook D} {side : Side}
  {m : LastWrite (Exchange × D) (Held D)} (u : NormalizedOrderBookUpdate D)

/-- What the exchanges hold on a side, as a map. -/
def held (book : AggregatedOrderBook D) (side : Side) : LastWrite (Exchange × D) (Held D) :=
  fun key => (book.heldLevels key.1 side)[key.2]?.map fun l => (entry l).2

/-- Levels of an update leave the other exchanges' prices. -/
theorem foldl_writeLevel_of_ne {exchange : Exchange} (h : exchange ≠ u.exchange)
    (ls : List (PriceLevelSnapshot D)) (price : D) :
    ls.foldl (writeLevel u) m (exchange, price) = m (exchange, price) := by
  induction ls generalizing m with
  | nil => rfl
  | cons l ls ih =>
    rw [List.foldl_cons, ih]
    exact write_of_ne m _ fun he => h (congrArg Prod.fst he)

/-- Levels of an update act on the map as on the levels of its exchange. -/
theorem foldl_applyLevel_held (ls : List (PriceLevelSnapshot D))
    {levels : Std.TreeMap D (AggregatedPriceLevel D)}
    (h : ∀ price, levels[price]?.map (fun l => (entry l).2) = m (u.exchange, price)) (price : D) :
    (ls.foldl (applyLevel u) levels)[price]?.map (fun l => (entry l).2) =
      ls.foldl (writeLevel u) m (u.exchange, price) := by
  induction ls generalizing m levels with
  | nil => exact h price
  | cons l ls ih =>
    rw [List.foldl_cons, List.foldl_cons]
    apply ih
    intro p
    rw [getElem?_applyLevel]
    by_cases hp : l.price = p
    · subst hp
      rw [if_pos rfl, writeLevel, write_self]
      split <;> rfl
    · rw [if_neg hp, h, writeLevel, write_of_ne]
      exact fun he => hp (congrArg Prod.snd he).symm

/-- An update of the book's symbol writes its levels. -/
theorem held_applyUpdate (book : AggregatedOrderBook D) (side : Side) :
    (applyUpdate u book).held side = (u.levels side).foldl (writeLevel u) (book.held side) := by
  ext1 ⟨exchange, price⟩
  by_cases he : exchange = u.exchange
  · subst he
    rw [held, heldLevels_applyUpdate_self]
    exact foldl_applyLevel_held u _ (fun _ => rfl) price
  · rw [held, heldLevels_applyUpdate_of_ne u book he, foldl_writeLevel_of_ne u he]
    rfl

/-- A level that an update leaves is an old one or one of its own. -/
theorem getElem?_foldl_applyLevel {ls : List (PriceLevelSnapshot D)}
    {levels : Std.TreeMap D (AggregatedPriceLevel D)} {price : D} {level : AggregatedPriceLevel D}
    (h : (ls.foldl (applyLevel u) levels)[price]? = some level) :
    levels[price]? = some level ∨ level.exchange = u.exchange ∧ level.price = price := by
  induction ls generalizing levels with
  | nil => exact Or.inl h
  | cons l ls ih =>
    rcases ih h with hl | hl
    · rw [getElem?_applyLevel] at hl
      split at hl
      · rename_i hp
        split at hl
        · cases hl
          exact Or.inr ⟨rfl, hp⟩
        · cases hl
      · exact Or.inl hl
    · exact Or.inr hl

theorem Keyed.applyUpdate (h : Keyed book) : Keyed (applyUpdate u book) := by
  intro exchange side price level hlevel
  by_cases he : exchange = u.exchange
  · subst he
    rw [heldLevels_applyUpdate_self] at hlevel
    exact (getElem?_foldl_applyLevel u hlevel).elim (h _ _ _ _) id
  · rw [heldLevels_applyUpdate_of_ne u book he] at hlevel
    exact h _ _ _ _ hlevel

omit [Zero D] in
theorem heldLevels_of_empty (symbol : StdString) (callback : Bool) (exchange : Exchange)
    (side : Side) :
    (⟨symbol, ∅, callback⟩ : AggregatedOrderBook D).heldLevels exchange side = ∅ := by
  cases side <;> rfl

omit [Zero D] in
theorem keyed_of_empty (symbol : StdString) (callback : Bool) :
    Keyed (⟨symbol, ∅, callback⟩ : AggregatedOrderBook D) := by
  intro exchange side price level h
  rw [heldLevels_of_empty] at h
  simp at h

omit [Zero D] in
theorem held_of_empty (symbol : StdString) (callback : Bool) (side : Side) :
    (⟨symbol, ∅, callback⟩ : AggregatedOrderBook D).held side = LastWrite.empty := by
  ext1 key
  rw [held, heldLevels_of_empty]
  simp

theorem run_append_singleton (symbol : StdString) (calls : List (Call D)) (c : Call D) :
    run symbol (calls ++ [c]) = (run symbol calls).call c := List.foldl_append ..

theorem lastWrites_append_singleton (symbol : StdString) (calls : List (Call D)) (c : Call D) :
    lastWrites symbol side (calls ++ [c]) =
      writeCall symbol side (lastWrites symbol side calls) c := List.foldl_append ..

/-- After any calls the book keeps its symbol, stores its levels under their own
keys, and holds the last writes. -/
theorem run_spec (symbol : StdString) (calls : List (Call D)) :
    (run symbol calls).symbol = symbol ∧ Keyed (run symbol calls) ∧
      ∀ side, (run symbol calls).held side = lastWrites symbol side calls := by
  induction calls using List.reverseRecOn with
  | nil => exact ⟨rfl, keyed_of_empty _ _, fun side => held_of_empty _ _ side⟩
  | append_singleton calls c ih =>
    obtain ⟨hsymbol, hkeyed, hheld⟩ := ih
    simp only [run_append_singleton, lastWrites_append_singleton]
    cases c with
    | update u =>
      by_cases hu : u.symbol = symbol
      · rw [call, update_of_symbol_eq u (hu.trans hsymbol.symm)]
        refine ⟨hsymbol, hkeyed.applyUpdate u, fun side => ?_⟩
        rw [held_applyUpdate, hheld, writeCall, if_pos hu]
      · rw [call, update_of_symbol_ne u (by rwa [hsymbol])]
        refine ⟨hsymbol, hkeyed, fun side => ?_⟩
        rw [hheld, writeCall, if_neg hu]
    | clear => exact ⟨hsymbol, keyed_of_empty _ _, fun side => held_of_empty _ _ side⟩

end History

section Views

variable (std : StdChoices) (book : AggregatedOrderBook D)

/-- The comparison by which a side is sorted. -/
def before : Side → AggregatedPriceLevel D → AggregatedPriceLevel D → Bool
  | .bid => fun a b => decide (a.price > b.price)
  | .ask => fun a b => decide (a.price < b.price)

omit [LinearOrder D] in
theorem cutTo_eq_take (depth : Nat) (levels : List (AggregatedPriceLevel D)) :
    cutTo depth levels = levels.take depth := by
  unfold cutTo
  split
  · rfl
  · rename_i h
    exact (List.take_of_length_le (not_lt.mp h)).symm

/-- A snapshot shows the front of the sorted levels. -/
theorem levels_getSnapshot (depth : Nat) (now : UInt64) (side : Side) :
    (book.getSnapshot std depth now).levels side =
      (std.sort (before side) (book.allLevels side)).take depth := by
  cases side <;> exact cutTo_eq_take ..

theorem strictWeak_before (side : Side) : StrictWeak (before side (D := D)) := by
  cases side with
  | bid => exact strictWeak_gt _
  | ask => exact strictWeak_lt _

/-- Sorting the levels sorts their prices. -/
theorem prices_sort (levels : List (AggregatedPriceLevel D)) (side : Side) :
    (std.sort (before side) levels).map (·.price) = sortPrices side (levels.map (·.price)) := by
  have hperm := (std.sort_perm (before side) levels).map (·.price)
  have hsorted := std.sort_sorted (strictWeak_before side) levels
  cases side with
  | bid =>
    have hprices : ((std.sort (before .bid) levels).map (·.price)).Pairwise (· ≥ ·) :=
      List.pairwise_map.mpr (hsorted.imp fun h => by simpa [before] using h)
    have hmerge : (sortPrices .bid (levels.map (·.price))).Pairwise (· ≥ ·) :=
      (List.pairwise_mergeSort (by simpa using fun a b c h h' => le_trans h' h)
        (by simpa using fun a b => le_total b a) _).imp fun h => by simpa using h
    exact List.Perm.eq_of_pairwise' hprices hmerge (hperm.trans (List.mergeSort_perm _ _).symm)
  | ask =>
    have hprices : ((std.sort (before .ask) levels).map (·.price)).Pairwise (· ≤ ·) :=
      List.pairwise_map.mpr (hsorted.imp fun h => by simpa [before] using h)
    have hmerge : (sortPrices .ask (levels.map (·.price))).Pairwise (· ≤ ·) :=
      (List.pairwise_mergeSort (by simpa using fun a b c h h' => le_trans h h')
        (by simpa using fun a b => le_total a b) _).imp fun h => by simpa using h
    exact List.Perm.eq_of_pairwise' hprices hmerge (hperm.trans (List.mergeSort_perm _ _).symm)

end Views

section Quotes

variable {book : AggregatedOrderBook D}

/-- The levels of one exchange are iterated by increasing price. -/
theorem sorted_levels (h : Keyed book) {e : Exchange × ExchangeBook D}
    (he : e ∈ book.exchangeBooks.toList) (side : Side) :
    ((e.2.levels side).toList.map Prod.snd).Pairwise fun l l' => l.price ≤ l'.price := by
  have hprice : ∀ p ∈ (e.2.levels side).toList, p.2.price = p.1 := by
    intro p hp
    rw [Std.TreeMap.mem_toList_iff_getElem?_eq_some, ← heldLevels_of_mem he] at hp
    exact (h _ _ _ _ hp).2
  rw [List.pairwise_map]
  refine (Std.TreeMap.ordered_keys_toList (t := e.2.levels side)).imp_of_mem ?_
  intro p q hp hq hlt
  rw [hprice p hp, hprice q hq]
  exact (compare_lt_iff_lt.mp hlt).le

theorem betterBid_eq (best : Option (AggregatedPriceLevel D)) (exchangeBook : ExchangeBook D) :
    betterBid best exchangeBook =
      betterOf (·.price) best (exchangeBook.bids.toList.map Prod.snd).getLast? := by
  rw [betterBid, maxEntry?_eq_getLast?_toList, List.getLast?_map]
  cases exchangeBook.bids.toList.getLast? with
  | none => cases best <;> rfl
  | some top => cases best <;> rfl

theorem betterAsk_eq (best : Option (AggregatedPriceLevel D)) (exchangeBook : ExchangeBook D) :
    betterAsk best exchangeBook =
      betterOf (fun l => OrderDual.toDual l.price) best
        (exchangeBook.asks.toList.map Prod.snd).head? := by
  rw [betterAsk, minEntry?_eq_head?_toList, List.head?_map]
  cases exchangeBook.asks.toList.head? with
  | none => cases best <;> rfl
  | some top => cases best <;> rfl

/-- The scan over the exchanges finds a bid of the highest price. -/
theorem isBest_getBestBid (h : Keyed book) :
    IsBest (·.price) (book.allLevels .bid) book.getBestBid := by
  have hscan := IsBest.foldl_betterOf (l := []) (a := none) (f := AggregatedPriceLevel.price) rfl
    fun e he => isBest_getLast? (sorted_levels h he .bid)
  simp only [getBestBid, List.foldl_map, betterBid_eq]
  exact hscan

/-- The scan over the exchanges finds an ask of the lowest price. -/
theorem isBest_getBestAsk (h : Keyed book) :
    IsBest (fun l => OrderDual.toDual l.price) (book.allLevels .ask) book.getBestAsk := by
  have hscan := IsBest.foldl_betterOf (l := []) (a := none)
    (f := fun l : AggregatedPriceLevel D => OrderDual.toDual l.price) rfl
    fun e he => isBest_head? (f := fun l : AggregatedPriceLevel D => OrderDual.toDual l.price)
      (sorted_levels h he .ask)
  simp only [getBestAsk, List.foldl_map, betterAsk_eq]
  exact hscan

variable (std : StdChoices)

theorem head?_getSnapshot (book : AggregatedOrderBook D) (now : UInt64) (side : Side) :
    ((book.getSnapshot std 1 now).levels side).head? =
      (std.sort (before side) (book.allLevels side)).head? := by
  rw [levels_getSnapshot]
  cases std.sort (before side) (book.allLevels side) <;> rfl

/-- A best quote has the price at the front of a snapshot. -/
theorem quote_eq_front (h : Keyed book) (now : UInt64) (side : Side) :
    (book.bestQuote side).map (·.price) =
      ((book.getSnapshot std 1 now).levels side).head?.map (·.price) := by
  have hsorted := std.sort_sorted (strictWeak_before side) (book.allLevels side)
  have hperm := std.sort_perm (before side) (book.allLevels side)
  rw [head?_getSnapshot]
  cases side with
  | bid =>
    have hfront := isBest_head? (f := (·.price)) (hsorted.imp fun h => by simpa [before] using h)
    exact (isBest_getBestBid h).key_eq (hfront.perm hperm)
  | ask =>
    have hfront := isBest_head? (f := fun l => OrderDual.toDual l.price)
      (hsorted.imp fun h => by simpa [before] using h)
    exact (isBest_getBestAsk h).key_eq (hfront.perm hperm)

theorem quote_none_iff (h : Keyed book) (side : Side) :
    book.bestQuote side = none ↔ book.allLevels side = [] := by
  cases side with
  | bid => exact (isBest_getBestBid h).eq_none_iff
  | ask => exact (isBest_getBestAsk h).eq_none_iff

/-- A quantity computed from the prices of both best quotes agrees with the one
computed from the fronts of a snapshot. -/
theorem quotes_eq_fronts (h : Keyed book) (now : UInt64) (combine : D → D → D) :
    (match book.getBestBid, book.getBestAsk with
      | some bid, some ask => some (combine bid.price ask.price)
      | _, _ => none) =
    match (book.getSnapshot std 1 now).bids.head?, (book.getSnapshot std 1 now).asks.head? with
      | some bid, some ask => some (combine bid.price ask.price)
      | _, _ => none := by
  have hbid : book.getBestBid.map (·.price) = _ := quote_eq_front std h now .bid
  have hask : book.getBestAsk.map (·.price) = _ := quote_eq_front std h now .ask
  simp only [AggregatedSnapshot.levels] at hbid hask
  cases hb : (book.getSnapshot std 1 now).bids.head? with
  | none =>
    rw [hb, Option.map_none, Option.map_eq_none_iff] at hbid
    rw [hbid]
  | some b =>
    rw [hb, Option.map_some, Option.map_eq_some_iff] at hbid
    obtain ⟨bid, hbid, hbprice⟩ := hbid
    cases ha : (book.getSnapshot std 1 now).asks.head? with
    | none =>
      rw [ha, Option.map_none, Option.map_eq_none_iff] at hask
      rw [hbid, hask]
    | some a =>
      rw [ha, Option.map_some, Option.map_eq_some_iff] at hask
      obtain ⟨ask, hask, haprice⟩ := hask
      rw [hbid, hask]
      simp only [hbprice, haprice]

/-- It is missing exactly when a side is empty. -/
theorem quotes_none_iff (h : Keyed book) (combine : D → D → D) :
    (match book.getBestBid, book.getBestAsk with
      | some bid, some ask => some (combine bid.price ask.price)
      | _, _ => none) = none ↔ book.allLevels .bid = [] ∨ book.allLevels .ask = [] := by
  rw [← quote_none_iff h .bid, ← quote_none_iff h .ask]
  simp only [bestQuote]
  cases book.getBestBid <;> cases book.getBestAsk <;> simp

end Quotes

/-- A book whose levels carry their own keys shows all its levels. -/
theorem Keyed.shows [Field D] {book : AggregatedOrderBook D} (h : Keyed book)
    (std : StdChoices) : Shows std book book.allLevels where
  length depth now side := by
    rw [levels_getSnapshot, List.length_take, (std.sort_perm _ _).length_eq]
  prices depth now side := by
    rw [levels_getSnapshot, List.map_take, prices_sort]
  subperm depth now side := by
    rw [levels_getSnapshot]
    exact (List.take_sublist _ _).subperm.trans (std.sort_perm _ _).subperm
  quote := quote_eq_front std h
  quote_none := quote_none_iff h
  mid_none := quotes_none_iff h fun bid ask => (bid + ask) / 2
  mid now := quotes_eq_fronts std h now fun bid ask => (bid + ask) / 2
  spread_none := quotes_none_iff h fun bid ask => ask - bid
  spread now := quotes_eq_fronts std h now fun bid ask => ask - bid

/-- After any updates and clears the book shows a list of levels in which every
binding of the last writes occurs once, and an update of another symbol changes
nothing. -/
theorem shows_lastWrites [Field D] (std : StdChoices) (symbol : StdString)
    (calls : List (Call D)) :
    (∃ stored : Side → List (AggregatedPriceLevel D),
      (∀ side, Lists ((stored side).map entry) (lastWrites symbol side calls)) ∧
        Shows std (run symbol calls) stored) ∧
      ∀ u : NormalizedOrderBookUpdate D, u.symbol ≠ symbol →
        (run symbol calls).update u = run symbol calls := by
  obtain ⟨hsymbol, hkeyed, hheld⟩ := run_spec symbol calls
  refine ⟨⟨(run symbol calls).allLevels, fun side => ?_, hkeyed.shows std⟩, fun u hu => ?_⟩
  · rw [← hheld]
    exact lists_allLevels hkeyed fun exchange price => rfl
  · exact update_of_symbol_ne u (by rwa [hsymbol])

end AggregatedOrderBook

end OrderbookEngine
