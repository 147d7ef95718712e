import OrderbookEngine.Core.AggregatedSnapshot

/-!
# The number of exchanges of the aggregated book

`get_exchange_count` is the size of the map of books. An update of the book's symbol makes
a book for its exchange, whatever levels it leaves there, and only `clear` takes a book
away. The count is right as long as every exchange that has sent an update has a level.
-/

namespace OrderbookEngine

open LastWrite

/-- The exchanges of the levels of a snapshot. -/
def AggregatedSnapshot.exchanges {D : Type} (snapshot : AggregatedSnapshot D) : Finset Exchange :=
  ((snapshot.bids ++ snapshot.asks).map (·.exchange)).toFinset

namespace AggregatedOrderBook

variable {D : Type} [LinearOrder D]

/-- `get_exchange_count`. -/
def getExchangeCount (book : AggregatedOrderBook D) : Nat := book.exchangeBooks.size

/-- The exchanges that hold a bid or an ask level. -/
def withData (book : AggregatedOrderBook D) : Set Exchange :=
  {exchange | ∃ side, ∃ price : D, ((book.heldLevels exchange side)[price]?).isSome}

/-- The count is the number of exchanges with levels, and of those that a snapshot shows
which is deep enough for all levels. -/
structure CountsData (std : StdChoices) (book : AggregatedOrderBook D) : Prop where
  held : book.getExchangeCount = book.withData.ncard
  shown : ∀ depth now, (∀ side, (book.allLevels side).length ≤ depth) →
    book.getExchangeCount = (book.getSnapshot std depth now).exchanges.card

/-- The exchanges with an update of the book's symbol since the last `clear`, after one
more call. -/
def markUpdated (symbol : StdString) (exchanges : List Exchange) : Call D → List Exchange
  | .update u => if u.symbol = symbol then u.exchange :: exchanges else exchanges
  | .clear => []

/-- The exchanges with an update of the book's symbol since the last `clear`. -/
def updated (symbol : StdString) (calls : List (Call D)) : List Exchange :=
  calls.foldl (markUpdated symbol) []

/-- The last writes of the calls leave a level to the exchange. -/
def LeavesLevel [Zero D] (symbol : StdString) (calls : List (Call D)) (exchange : Exchange) :
    Prop :=
  ∃ side, ∃ price : D, lastWrites symbol side calls (exchange, price) ≠ none

section Books

variable {book : AggregatedOrderBook D}

/-- The exchanges that have a book. -/
def booked (book : AggregatedOrderBook D) : Finset Exchange := book.exchangeBooks.keys.toFinset

theorem mem_booked {exchange : Exchange} :
    exchange ∈ book.booked ↔ exchange ∈ book.exchangeBooks := by
  rw [booked, List.mem_toFinset, Std.TreeMap.mem_keys]

theorem getExchangeCount_eq_card : book.getExchangeCount = book.booked.card := by
  rw [booked, List.toFinset_card_of_nodup Std.TreeMap.nodup_keys, Std.TreeMap.length_keys,
    getExchangeCount]

/-- Levels stand in books. -/
theorem withData_subset : book.withData ⊆ ↑book.booked := by
  rintro exchange ⟨side, price, h⟩
  rw [Finset.mem_coe, mem_booked]
  by_contra hnot
  rw [heldLevels, Std.TreeMap.getD_eq_fallback hnot] at h
  cases side <;> simp [ExchangeBook.levels] at h

/-- The exchanges that a deep snapshot shows are the ones with levels. -/
theorem coe_exchanges_getSnapshot (std : StdChoices) (h : Keyed book) {depth : Nat} {now : UInt64}
    (hdepth : ∀ side, (book.allLevels side).length ≤ depth) :
    ((book.getSnapshot std depth now).exchanges : Set Exchange) = book.withData := by
  have hlevels : ∀ side l, l ∈ (book.getSnapshot std depth now).levels side ↔
      l ∈ book.allLevels side := by
    intro side l
    rw [levels_getSnapshot, List.take_of_length_le, std.mem_sort]
    exact ((std.sort_perm _ _).length_eq).trans_le (hdepth side)
  have hshown : ∀ exchange, exchange ∈ (book.getSnapshot std depth now).exchanges ↔
      ∃ side, ∃ l ∈ book.allLevels side, l.exchange = exchange := by
    intro exchange
    rw [AggregatedSnapshot.exchanges, List.mem_toFinset, List.mem_map]
    constructor
    · rintro ⟨l, hl, rfl⟩
      rcases List.mem_append.mp hl with hl | hl
      · exact ⟨.bid, l, (hlevels .bid l).mp hl, rfl⟩
      · exact ⟨.ask, l, (hlevels .ask l).mp hl, rfl⟩
    · rintro ⟨side, l, hl, rfl⟩
      refine ⟨l, List.mem_append.mpr ?_, rfl⟩
      cases side with
      | bid => exact Or.inl ((hlevels .bid l).mpr hl)
      | ask => exact Or.inr ((hlevels .ask l).mpr hl)
  ext exchange
  rw [Finset.mem_coe, hshown]
  constructor
  · rintro ⟨side, l, hl, rfl⟩
    obtain ⟨exchange, price, hheld⟩ := mem_allLevels.mp hl
    obtain ⟨rfl, -⟩ := h _ _ _ _ hheld
    exact ⟨side, price, by rw [hheld]; rfl⟩
  · rintro ⟨side, price, hsome⟩
    obtain ⟨l, hl⟩ := Option.isSome_iff_exists.mp hsome
    exact ⟨side, l, mem_allLevels.mpr ⟨exchange, price, hl⟩, (h _ _ _ _ hl).1⟩

/-- The count is right when every book has a level, and only then. -/
theorem countsData_iff_booked (std : StdChoices) (h : Keyed book) :
    CountsData std book ↔ ∀ exchange ∈ book.booked, exchange ∈ book.withData := by
  constructor
  · rintro ⟨hheld, -⟩ exchange hexchange
    rw [getExchangeCount_eq_card, ← Set.ncard_coe_finset] at hheld
    rwa [Set.eq_of_subset_of_ncard_le withData_subset hheld.le (Finset.finite_toSet _)]
  · intro hall
    have hsame : book.withData = ↑book.booked := withData_subset.antisymm hall
    refine ⟨?_, fun depth now hdepth => ?_⟩
    · rw [hsame, Set.ncard_coe_finset, getExchangeCount_eq_card]
    · rw [getExchangeCount_eq_card, Finset.coe_injective
        ((coe_exchanges_getSnapshot std h hdepth).trans hsame)]

end Books

section History

variable [Zero D] {symbol : StdString} {calls : List (Call D)}

omit [LinearOrder D] [Zero D] in
theorem updated_append_singleton (calls : List (Call D)) (c : Call D) :
    updated symbol (calls ++ [c]) = markUpdated symbol (updated symbol calls) c :=
  List.foldl_append ..

/-- The exchanges with a book are the ones that sent an update. -/
theorem mem_booked_run {exchange : Exchange} :
    exchange ∈ (run symbol calls).booked ↔ exchange ∈ updated symbol calls := by
  induction calls using List.reverseRecOn with
  | nil => simp [run, construct, booked, updated]
  | append_singleton calls c ih =>
    rw [run_append_singleton, updated_append_singleton]
    cases c with
    | update u =>
      have hsymbol := (run_spec symbol calls).1
      by_cases hu : u.symbol = symbol
      · rw [call, update_of_symbol_eq u (hu.trans hsymbol.symm), markUpdated, if_pos hu,
          List.mem_cons, ← ih, mem_booked, mem_booked, applyUpdate, Std.TreeMap.mem_insert,
          Std.LawfulEqOrd.compare_eq_iff_eq, eq_comm]
      · rwa [call, update_of_symbol_ne u (by rwa [hsymbol]), markUpdated, if_neg hu]
    | clear => simp [call, clear, booked, markUpdated]

/-- The exchanges with data are the ones that the last writes leave a level. -/
theorem mem_withData_run {exchange : Exchange} :
    exchange ∈ (run symbol calls).withData ↔ LeavesLevel symbol calls exchange := by
  have hheld := (run_spec symbol calls).2.2
  constructor
  · rintro ⟨side, price, h⟩
    refine ⟨side, price, ?_⟩
    rw [← hheld, held]
    simpa [Option.ne_none_iff_isSome] using h
  · rintro ⟨side, price, h⟩
    refine ⟨side, price, ?_⟩
    rw [← hheld, held] at h
    simpa [Option.ne_none_iff_isSome] using h

end History

/-- After any calls the count is right exactly when each exchange that sent an update since
the last `clear` still has a level. -/
theorem countsData_iff_leavesLevel [Zero D] (std : StdChoices) (symbol : StdString)
    (calls : List (Call D)) : CountsData std (run symbol calls) ↔
      ∀ exchange ∈ updated symbol calls, LeavesLevel symbol calls exchange := by
  rw [countsData_iff_booked std (run_spec symbol calls).2.1]
  simp only [mem_booked_run, mem_withData_run]

/-- An update without levels. -/
def bareUpdate : NormalizedOrderBookUpdate ℚ := ⟨.binance, lit "BTC-USD", 1, 1, [], []⟩

/-- It makes its exchange count. -/
theorem countsData_fails : ¬ ∀ (std : StdChoices) (symbol : StdString) (calls : List (Call ℚ)),
    CountsData std (run symbol calls) := by
  intro h
  have hdata := (h .stable (lit "BTC-USD") [.update bareUpdate]).shown 0 0
    (by rintro (_ | _) <;> decide)
  revert hdata
  decide

end AggregatedOrderBook

end OrderbookEngine
