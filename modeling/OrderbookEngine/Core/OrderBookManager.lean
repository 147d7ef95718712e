import OrderbookEngine.Core.OrderBookCapacity

/-!
# The order book manager

`create_order_book` takes a number of levels and builds a book of the default size
whatever it is. `process_update` passes the levels of an update to the book one by one,
does not look at what `update_bid` and `update_ask` return, and reports success. The
book still does what was asked of it as long as every level applies and the sizes fit.
-/

namespace OrderbookEngine

/-- The `MAX_LEVELS` of an `OrderBook<>`. -/
def OrderBook.defaultLevels : Nat := 1000

/-- `OrderBookManager`: its books, and whether a callback is set. -/
structure OrderBookManager where
  orderBooks : StdString → Option (Memory Cell)
  updateCallback : Bool

namespace OrderBookManager

open OrderBook Prog LastWrite Transition

/-- A manager after its constructor. -/
def construct : OrderBookManager := ⟨fun _ => none, false⟩

/-- `create_order_book`. -/
def createOrderBook (manager : OrderBookManager) (symbol : StdString) (_maxLevels : Nat) :
    Bool × OrderBookManager :=
  if (manager.orderBooks symbol).isSome then (false, manager)
  else (true, { manager with
    orderBooks := Function.update manager.orderBooks symbol (some OrderBook.construct) })

/-- The calls of `update_bid` and `update_ask` that an update makes, with the readings of
the clock that they take. -/
def levelUpdates (update : NormalizedOrderBookUpdate UInt64) (clock : Nat → UInt64) :
    List LevelUpdate :=
  (update.bids.map (Prod.mk Side.bid) ++ update.asks.map (Prod.mk Side.ask)).mapIdx
    fun k (side, level) => ⟨side, level.price, level.quantity, level.orderCount, clock k⟩

/-- The book after a level was passed to it; what `update_level` returns is dropped. -/
def applyLevel (maxLevels : Nat) (m : Memory Cell) (u : LevelUpdate) : Memory Cell :=
  ((updateLevel maxLevels u).run m).2

/-- What the callback gets: the top 20 levels of the book. -/
def notification (std : StdChoices) (update : NormalizedOrderBookUpdate UInt64)
    (timestamp : UInt64) (m : Memory Cell) : List (StdString × OrderBookSnapshot) :=
  ((snapshotRound std defaultLevels 20 timestamp).run m).1.toList.map fun snapshot =>
    (update.symbol, { snapshot with symbol := update.symbol, exchange := update.exchange })

/-- `process_update`: what it returns, the manager after it and the calls of the callback. -/
def processUpdate (std : StdChoices) (manager : OrderBookManager)
    (update : NormalizedOrderBookUpdate UInt64) (clock : Nat → UInt64) :
    Bool × OrderBookManager × List (StdString × OrderBookSnapshot) :=
  match manager.orderBooks update.symbol with
  | none => (false, manager, [])
  | some m =>
    let levels := levelUpdates update clock
    let book := levels.foldl (applyLevel defaultLevels) m
    (true, { manager with
      orderBooks := Function.update manager.orderBooks update.symbol (some book) },
      if manager.updateCallback then notification std update (clock levels.length) book else [])

/-- A call of `process_update`. -/
structure UpdateCall where
  update : NormalizedOrderBookUpdate UInt64
  clock : Nat → UInt64

/-- The levels of a call. -/
def UpdateCall.levels (c : UpdateCall) : List LevelUpdate := levelUpdates c.update c.clock

/-- Whether a call reports success. -/
def UpdateCall.returned (std : StdChoices) (manager : OrderBookManager) (c : UpdateCall) : Bool :=
  (processUpdate std manager c.update c.clock).1

/-- The manager after a call. -/
def next (std : StdChoices) (manager : OrderBookManager) (c : UpdateCall) : OrderBookManager :=
  (processUpdate std manager c.update c.clock).2.1

/-- What a side shows, with levels written over it. -/
def writtenOver (maxLevels : Nat) (m : Memory Cell) (side : Side) (levels : List LevelUpdate) :
    LastWrite UInt64 LevelValue :=
  (levels.map Call.update).foldl (Call.write side) (ofList (liveLevels maxLevels m side))

/-- Every price that the levels write has in the book the value that they write last. -/
def Reflected (maxLevels : Nat) (m : Memory Cell) (levels : List LevelUpdate) : Prop :=
  ∀ u ∈ levels, ∀ value, (u.priceFixed, value) ∈ liveLevels maxLevels m u.side ↔
    lastWrites u.side (levels.map .update) u.priceFixed = some value

/-- A call for the symbol that returns true is reflected in its book, the book holds at
most `n` prices on a side, and a call that leaves it with no more is accepted. -/
def Honest (std : StdChoices) (n : Nat) (symbol : StdString) (s : OrderBookManager)
    (c : UpdateCall) (t : OrderBookManager) : Prop :=
  c.update.symbol = symbol → ∀ m m', s.orderBooks symbol = some m → t.orderBooks symbol = some m' →
    (c.returned std s = true → Reflected defaultLevels m' c.levels) ∧
    (∀ side, (livePrices defaultLevels m' side).toFinset.card ≤ n) ∧
    ((∀ side, AtMost n (writtenOver defaultLevels m side c.levels)) → c.returned std s = true)

/-- A level finds its price; or brings a price that is not live, and a slot is free or
there is nothing to store; or the full side holds already what it writes. -/
def Applies (maxLevels : Nat) (m : Memory Cell) (u : LevelUpdate) : Prop :=
  u.priceFixed ≠ 0 ∧ (PriceIndexMap.ChainIntact m u.side u.priceFixed ∨
    (u.priceFixed ∉ livePrices maxLevels m u.side ∧
      (Full maxLevels m u.side → u.quantityFixed = 0)) ∨
    (Full maxLevels m u.side ∧
      ∃ value, u.value = some value ∧ (u.priceFixed, value) ∈ liveLevels maxLevels m u.side))

/-- Every level of a call for the symbol applies to the book as it finds it. -/
def LevelsApply (symbol : StdString) (s : OrderBookManager) (c : UpdateCall) : Prop :=
  c.update.symbol = symbol → ∀ m, s.orderBooks symbol = some m →
    Guarded (Applies defaultLevels) m (runOf (applyLevel defaultLevels) m c.levels)

/-- A call for the symbol leaves no side with more than `n` prices to hold. -/
def Fits (n : Nat) (symbol : StdString) (s : OrderBookManager) (c : UpdateCall) : Prop :=
  c.update.symbol = symbol → ∀ m, s.orderBooks symbol = some m →
    ∀ side, AtMost n (writtenOver defaultLevels m side c.levels)

variable {std : StdChoices} {maxLevels : Nat} {m : Memory Cell} {u : LevelUpdate} {side : Side}
  {map : LastWrite UInt64 LevelValue} {calls : List Call} {levels : List LevelUpdate}

section Levels

/-- A price is live when the map binds it. -/
theorem mem_livePrices_iff (h : Lists (liveLevels maxLevels m side) map) (price : UInt64) :
    price ∈ livePrices maxLevels m side ↔ map price ≠ none := by
  rw [Option.ne_none_iff_exists', livePrices, List.mem_map]
  constructor
  · rintro ⟨⟨_, value⟩, hx, rfl⟩
    exact ⟨value, (h.mem_iff _ _).mp hx⟩
  · rintro ⟨value, hvalue⟩
    exact ⟨_, (h.mem_iff _ _).mpr hvalue, rfl⟩

/-- A level that applies finds its level, and has room. -/
theorem Applies.finds (h : Applies maxLevels m u) (hside : SideInv maxLevels m u.side map) :
    Finds maxLevels m map u ∧ AtMost maxLevels (map.write u.priceFixed u.value) := by
  have hlists := hside.lists
  have hroom : AtMost maxLevels map :=
    (hlists.atMost_iff maxLevels).mpr (length_liveLevels_le m u.side)
  obtain ⟨hp, hchain | ⟨hnew, hfree⟩ | ⟨hfull, value, hvalue, hlive⟩⟩ := h
  · refine ⟨Or.inl hchain, hroom.write (Or.inl ?_)⟩
    obtain ⟨k, hk⟩ := Option.isSome_iff_exists.mp (PriceIndexMap.entryOf_isSome_iff.mpr hchain)
    obtain ⟨i, hi, -, hslot⟩ := hside.slot_of_entryOf hp hk
    have hbound := hside.bound hi (hslot ▸ hp)
    rw [← hslot, hbound]
    simp
  · rw [mem_livePrices_iff hlists, not_not] at hnew
    refine ⟨Or.inr (Or.inl hnew), ?_⟩
    by_cases hfull : Full maxLevels m u.side
    · exact hroom.write (Or.inr (by rw [LevelUpdate.value, if_pos (hfree hfull)]))
    · have hle : (liveLevels maxLevels m u.side).length ≤ maxLevels := length_liveLevels_le m u.side
      rw [full_iff_length_liveLevels] at hfull
      have hless := (hlists.atMost_iff (maxLevels - 1)).mpr (by omega)
      have hmore := hless.write_succ u.priceFixed u.value
      rwa [Nat.sub_add_cancel (by omega)] at hmore
  · have hbound := (hlists.mem_iff _ _).mp hlive
    refine ⟨Or.inr (Or.inr ⟨hfull, hbound.trans hvalue.symm⟩), hroom.write (Or.inl ?_)⟩
    rw [hbound]
    simp

/-- A new price applies while there are fewer prices than slots. -/
theorem applies_of_new (h : BookInv maxLevels calls) (hp : u.priceFixed ≠ 0)
    (hnew : lastWrites u.side calls u.priceFixed = none) {n : Nat}
    (hfew : AtMost n (lastWrites u.side calls)) (hn : n < maxLevels) :
    Applies maxLevels (bookAfter maxLevels calls) u := by
  have hlists := (h.side u.side).lists
  refine ⟨hp, Or.inr (Or.inl ⟨?_, fun hfull => ?_⟩)⟩
  · rw [mem_livePrices_iff hlists, hnew]
    simp
  · have hlen := (hlists.atMost_iff n).mp hfew
    rw [hfull.length_liveLevels] at hlen
    omega

theorem applyLevel_bookAfter (calls : List Call) (u : LevelUpdate) :
    applyLevel maxLevels (bookAfter maxLevels calls) u =
      bookAfter maxLevels (calls ++ [.update u]) := by
  rw [bookAfter_append]
  rfl

/-- Levels that apply keep the invariant of the book. -/
theorem bookInv_of_applies (hN : maxLevels < 2 ^ 64) (h : BookInv maxLevels calls)
    (happly : Guarded (Applies maxLevels) (bookAfter maxLevels calls)
      (runOf (applyLevel maxLevels) (bookAfter maxLevels calls) levels)) :
    BookInv maxLevels (calls ++ levels.map .update) := by
  induction levels generalizing calls with
  | nil => simpa using h
  | cons u levels ih =>
    obtain ⟨hfirst, hrest⟩ := happly
    obtain ⟨hfinds, hroom⟩ := hfirst.finds (h.side u.side)
    have hnext : BookInv maxLevels (calls ++ [.update u]) :=
      h.update hN hfirst.1 (by rwa [lastWrites_update]) hfinds
    rw [applyLevel_bookAfter] at hrest
    simpa using ih hnext hrest

theorem foldl_applyLevel (calls : List Call) (levels : List LevelUpdate) :
    levels.foldl (applyLevel maxLevels) (bookAfter maxLevels calls) =
      bookAfter maxLevels (calls ++ levels.map .update) := by
  rw [bookAfter, bookAfter, List.foldl_append, List.foldl_map]
  rfl

/-- A key that the calls write has the value of the last of these writes. -/
theorem lastWrites_append_of_mem (calls : List Call) (hu : u ∈ levels) :
    lastWrites u.side (calls ++ levels.map .update) u.priceFixed =
      lastWrites u.side (levels.map .update) u.priceFixed := by
  induction levels using List.reverseRecOn with
  | nil => cases hu
  | append_singleton levels v ih =>
    rw [List.map_append, List.map_singleton, ← List.append_assoc, lastWrites_append,
      lastWrites_append, Call.write, Call.write]
    by_cases hsame : v.side = u.side ∧ v.priceFixed = u.priceFixed
    · rw [if_pos hsame.1, if_pos hsame.1, hsame.2, LastWrite.write_self, LastWrite.write_self]
    · have hmem : u ∈ levels := by
        rcases List.mem_append.mp hu with hmem | hmem
        · exact hmem
        · rw [List.mem_singleton] at hmem
          exact absurd (hmem ▸ ⟨rfl, rfl⟩) hsame
      split
      · rename_i hside
        have hne : u.priceFixed ≠ v.priceFixed := fun he => hsame ⟨hside, he.symm⟩
        rw [LastWrite.write_of_ne _ _ hne, LastWrite.write_of_ne _ _ hne, ih hmem]
      · exact ih hmem

/-- A book that keeps the invariant reflects the levels that were written last. -/
theorem reflected_of_bookInv (h : BookInv maxLevels (calls ++ levels.map .update)) :
    Reflected maxLevels (bookAfter maxLevels (calls ++ levels.map .update)) levels := by
  intro u hu value
  rw [(h.side u.side).lists.mem_iff, lastWrites_append_of_mem calls hu]

theorem writtenOver_eq (h : BookInv maxLevels calls) (side : Side) (levels : List LevelUpdate) :
    writtenOver maxLevels (bookAfter maxLevels calls) side levels =
      lastWrites side (calls ++ levels.map .update) := by
  rw [writtenOver, (h.side side).lists.ofList_eq, lastWrites, lastWrites, List.foldl_append]

theorem card_livePrices_le_iff (h : BookInv maxLevels calls) (side : Side) (n : Nat) :
    (livePrices maxLevels (bookAfter maxLevels calls) side).toFinset.card ≤ n ↔
      AtMost n (lastWrites side calls) := by
  have hlists := (h.side side).lists
  have hnodup : (livePrices maxLevels (bookAfter maxLevels calls) side).Nodup := hlists.nodup
  rw [hlists.atMost_iff, List.toFinset_card_of_nodup hnodup, livePrices, List.length_map]

end Levels

section Calls

variable {symbol : StdString} {s : OrderBookManager} {c : UpdateCall} {n : Nat}

/-- The book of the symbol is one that its calls have made, and keeps the invariant. -/
def HasBook (symbol : StdString) (s : OrderBookManager) : Prop :=
  ∃ calls, s.orderBooks symbol = some (bookAfter defaultLevels calls) ∧
    BookInv defaultLevels calls

theorem createOrderBook_orderBooks {manager : OrderBookManager}
    (hnew : manager.orderBooks symbol = none) (n : Nat) :
    (createOrderBook manager symbol n).2.orderBooks symbol = some (bookAfter defaultLevels []) := by
  simp [createOrderBook, hnew, bookAfter]

theorem hasBook_createOrderBook {manager : OrderBookManager}
    (hnew : manager.orderBooks symbol = none) (n : Nat) :
    HasBook symbol (createOrderBook manager symbol n).2 :=
  ⟨[], createOrderBook_orderBooks hnew n, bookInv_nil _⟩

/-- A call for another symbol leaves the book alone. -/
theorem next_orderBooks_of_ne (std : StdChoices) (s : OrderBookManager)
    (h : c.update.symbol ≠ symbol) : (next std s c).orderBooks symbol = s.orderBooks symbol := by
  rw [next, processUpdate]
  cases s.orderBooks c.update.symbol with
  | none => rfl
  | some m => exact Function.update_of_ne (Ne.symm h) ..

/-- A call for a symbol that has a book passes its levels to the book and returns true. -/
theorem processUpdate_of_book (std : StdChoices) (h : s.orderBooks c.update.symbol = some m) :
    c.returned std s = true ∧ (next std s c).orderBooks c.update.symbol =
      some (c.levels.foldl (applyLevel defaultLevels) m) := by
  rw [UpdateCall.returned, next, processUpdate, h]
  exact ⟨rfl, Function.update_self ..⟩

/-- The callback gets one snapshot, of the book as the levels leave it. -/
theorem notification_bookAfter (std : StdChoices) (update : NormalizedOrderBookUpdate UInt64)
    (timestamp : UInt64) (calls : List Call) :
    notification std update timestamp (bookAfter defaultLevels calls) = [(update.symbol,
      { snapshotOf std defaultLevels 20 timestamp (bookAfter defaultLevels calls) with
        symbol := update.symbol, exchange := update.exchange })] := by
  rw [notification, run_snapshotRound std defaultLevels 20 timestamp (even_bookAfter _ calls)]
  rfl

/-- A call whose levels apply keeps the invariant of the book, and is honest exactly
when the sizes fit. -/
theorem honest_iff_of_hasBook (std : StdChoices) (n : Nat) (h : HasBook symbol s)
    (happly : LevelsApply symbol s c) :
    HasBook symbol (next std s c) ∧
      (Honest std n symbol s c (next std s c) ↔ Fits n symbol s c) := by
  obtain ⟨calls, hbook, hinv⟩ := h
  by_cases hsymbol : c.update.symbol = symbol
  · subst hsymbol
    obtain ⟨hreturned, hnext⟩ := processUpdate_of_book std hbook
    rw [foldl_applyLevel] at hnext
    have hinv' := bookInv_of_applies (by decide) hinv (happly rfl _ hbook)
    refine ⟨⟨_, hnext, hinv'⟩, ?_⟩
    have hsizes : (∀ side, (livePrices defaultLevels (bookAfter defaultLevels
        (calls ++ c.levels.map .update)) side).toFinset.card ≤ n) ↔
        ∀ side, AtMost n (writtenOver defaultLevels (bookAfter defaultLevels calls) side
          c.levels) := by
      refine forall_congr' fun side => ?_
      rw [card_livePrices_le_iff hinv', writtenOver_eq hinv]
    constructor
    · intro hhonest _ m hm
      cases hbook.symm.trans hm
      exact hsizes.mp (hhonest rfl _ _ hbook hnext).2.1
    · intro hfits _ m m' hm hm'
      cases hbook.symm.trans hm
      cases hnext.symm.trans hm'
      exact ⟨fun _ => reflected_of_bookInv hinv', hsizes.mpr (hfits rfl _ hbook),
        fun _ => hreturned⟩
  · refine ⟨⟨calls, ?_, hinv⟩, ?_⟩
    · rw [next_orderBooks_of_ne std s hsymbol, hbook]
    · exact iff_of_true (fun he => absurd he hsymbol) (fun he => absurd he hsymbol)

end Calls

/-- As long as every level applies, a created book is honest exactly as long as the
sizes fit. -/
theorem honest_iff_fits (std : StdChoices) {manager : OrderBookManager} {symbol : StdString}
    (hnew : manager.orderBooks symbol = none) (n : Nat) (calls : List UpdateCall)
    (happly : Guarded (LevelsApply symbol) (createOrderBook manager symbol n).2
      (runOf (next std) (createOrderBook manager symbol n).2 calls)) :
    Always (Honest std n symbol) (createOrderBook manager symbol n).2
        (runOf (next std) (createOrderBook manager symbol n).2 calls) ↔
      Guarded (Fits n symbol) (createOrderBook manager symbol n).2
        (runOf (next std) (createOrderBook manager symbol n).2 calls) := by
  apply (isRun_runOf_of_enabled happly).always_iff_guarded (HasBook symbol)
  · rintro s c t hs hfits ⟨happly, rfl⟩
    obtain ⟨hnext, hiff⟩ := honest_iff_of_hasBook std n hs happly
    exact ⟨hnext, hiff.mpr hfits⟩
  · rintro s c t hs hnot ⟨happly, rfl⟩
    exact fun hhonest => hnot ((honest_iff_of_hasBook std n hs happly).2.mp hhonest)
  · exact hasBook_createOrderBook hnew n

/-- A call with one bid. -/
def oneBid : UpdateCall := ⟨⟨.binance, lit "BTC-USD", 0, 0, [⟨1, 5, 1⟩], []⟩, fun _ => 0⟩

/-- A call with bids at two prices. -/
def twoBids : UpdateCall :=
  ⟨⟨.binance, lit "BTC-USD", 0, 0, [⟨1, 5, 1⟩, ⟨2, 5, 1⟩], []⟩, fun _ => 0⟩

theorem applies_firstBid :
    Applies defaultLevels (bookAfter defaultLevels []) ⟨.bid, 1, 5, 1, 0⟩ :=
  applies_of_new (bookInv_nil _) (by decide) rfl (n := 0) (atMost_lastWrites [] le_rfl (by simp))
    (by decide)

/-- A book for one price and one bid. -/
theorem honest_iff_fits_oneBid :
    Always (Honest .stable 1 (lit "BTC-USD")) (createOrderBook construct (lit "BTC-USD") 1).2
      (runOf (next .stable) (createOrderBook construct (lit "BTC-USD") 1).2 [oneBid]) := by
  have hbook : (createOrderBook construct (lit "BTC-USD") 1).2.orderBooks (lit "BTC-USD") =
      some (bookAfter defaultLevels []) := createOrderBook_orderBooks rfl 1
  refine (honest_iff_fits .stable rfl 1 [oneBid] ⟨fun _ m hm => ?_, trivial⟩).mpr
    ⟨fun _ m hm side => ?_, trivial⟩
  · cases hbook.symm.trans hm
    exact ⟨applies_firstBid, trivial⟩
  · cases hbook.symm.trans hm
    rw [writtenOver_eq (bookInv_nil _)]
    apply atMost_lastWrites [1] le_rfl
    intro u hu _
    have hbid : u = ⟨.bid, 1, 5, 1, 0⟩ := by
      simpa [UpdateCall.levels, levelUpdates, oneBid] using hu
    simp [hbid]

/-- A book created for one price takes two, and the call returns true. -/
theorem honest_fails :
    ¬ ∀ (std : StdChoices) (manager : OrderBookManager) (symbol : StdString) (n : Nat)
      (calls : List UpdateCall), manager.orderBooks symbol = none → 1 ≤ n →
      Always (Honest std n symbol) (createOrderBook manager symbol n).2
        (runOf (next std) (createOrderBook manager symbol n).2 calls) := by
  intro h
  have hbook : (createOrderBook construct (lit "BTC-USD") 1).2.orderBooks (lit "BTC-USD") =
      some (bookAfter defaultLevels []) := createOrderBook_orderBooks rfl 1
  have hcreated : HasBook (lit "BTC-USD") (createOrderBook construct (lit "BTC-USD") 1).2 :=
    hasBook_createOrderBook rfl 1
  obtain ⟨hhonest, -⟩ := h .stable construct (lit "BTC-USD") 1 [twoBids] rfl le_rfl
  have hfirst : BookInv defaultLevels ([] ++ [⟨.bid, 1, 5, 1, 0⟩].map .update) :=
    bookInv_of_applies (by decide) (bookInv_nil _) ⟨applies_firstBid, trivial⟩
  have hsecond := applies_of_new (u := ⟨.bid, 2, 5, 1, 0⟩) hfirst (by decide) rfl (n := 1)
    (atMost_lastWrites [1] le_rfl (by simp)) (by decide)
  have happly : LevelsApply (lit "BTC-USD") (createOrderBook construct (lit "BTC-USD") 1).2
      twoBids := by
    intro _ m hm
    cases hbook.symm.trans hm
    refine ⟨applies_firstBid, ?_, trivial⟩
    rw [applyLevel_bookAfter]
    exact hsecond
  have hfits := (honest_iff_of_hasBook .stable 1 hcreated happly).2.mp hhonest rfl _ hbook .bid
  rw [writtenOver_eq (bookInv_nil _)] at hfits
  have hlen : ([1, 2] : List UInt64).length ≤ 1 := hfits.length_le (by decide) fun k hk => by
    rcases List.mem_pair.mp hk with rfl | rfl
    · exact ⟨(5, 1), rfl⟩
    · exact ⟨(5, 1), rfl⟩
  exact absurd hlen (by decide)

end OrderBookManager

end OrderbookEngine
