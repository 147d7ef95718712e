import OrderbookEngine.Exchange.Snapshots

/-!
# Batched Coinbase updates

An `l2update` message lists changes of both sides. The parser sorts them into bids and asks and
the book replays the bids first. The two sides never meet, so the levels are those of the
changes one by one; and an update is only made of a message all of whose changes can be read.
-/

namespace OrderbookEngine

section Parser

variable {D : Type} (stod : StdString → Option D)

/-- What a change says: its side, its price and its quantity. -/
structure CoinbaseChange (D : Type) where
  side : StdString
  price : D
  quantity : D
  deriving DecidableEq, Repr

/-- The level that a change is parsed into. -/
def CoinbaseChange.level (change : CoinbaseChange D) : PriceLevelSnapshot D where
  price := change.price
  quantity := change.quantity
  orderCount := 1

/-- What the body of the loop reads of a change, in its order. -/
def CoinbaseConnector.readChange (changeElement : Json) : Option (CoinbaseChange D) := do
  match ← changeElement.getArray with
  | sideElement :: priceElement :: qtyElement :: _ =>
    let sideStr ← sideElement.getString
    let priceStr ← priceElement.getString
    let qtyStr ← qtyElement.getString
    let price ← stod priceStr
    let quantity ← stod qtyStr
    return { side := sideStr, price := price, quantity := quantity }
  | _ => none

/-- What the body of the loop adds to the update. -/
def CoinbaseConnector.addChange (update : NormalizedOrderBookUpdate D)
    (change : CoinbaseChange D) : NormalizedOrderBookUpdate D :=
  if change.side = lit "buy" then { update with bids := update.bids ++ [change.level] }
  else if change.side = lit "sell" then { update with asks := update.asks ++ [change.level] }
  else update

/-- An update of Coinbase without levels. -/
def CoinbaseConnector.emptyUpdate (productId : StdString) (now : UInt64) :
    NormalizedOrderBookUpdate D where
  exchange := .coinbase
  symbol := productId
  timestamp := now
  updateId := 0
  bids := []
  asks := []

/-- `CoinbaseConnector::parse_l2update` at the clock reading `now`; every thrown error is caught
and yields no update. -/
def CoinbaseConnector.parseL2update (json : Json) (now : UInt64) :
    Option (NormalizedOrderBookUpdate D) := do
  let productId ← (← json.atKey (lit "product_id")).getString
  let changesArray ← (← json.atKey (lit "changes")).getArray
  changesArray.foldlM
    (fun update changeElement => do
      return CoinbaseConnector.addChange update (← CoinbaseConnector.readChange stod changeElement))
    (CoinbaseConnector.emptyUpdate productId now)

variable [LinearOrder D] [Zero D]

/-- The branch of `CoinbaseConnector::on_message` for an `l2update`, with a callback that hands
the update to the book. -/
def CoinbaseConnector.onL2update (book : AggregatedOrderBook D) (json : Json) (now : UInt64) :
    AggregatedOrderBook D :=
  match CoinbaseConnector.parseL2update stod json now with
  | none => book
  | some update => book.update update

end Parser

namespace L2update

variable {D : Type}

/-- What the element of a change says. -/
def Says (stod : StdString → Option D) (changeElement : Json) (change : CoinbaseChange D) : Prop :=
  ∃ priceStr qtyStr rest, changeElement =
      .array (.string change.side :: .string priceStr :: .string qtyStr :: rest) ∧
    stod priceStr = some change.price ∧ stod qtyStr = some change.quantity

/-- An update of Coinbase. -/
def coinbaseUpdate (productId : StdString) (now : UInt64)
    (bids asks : List (PriceLevelSnapshot D)) : NormalizedOrderBookUpdate D where
  exchange := .coinbase
  symbol := productId
  timestamp := now
  updateId := 0
  bids := bids
  asks := asks

/-- The update of one change: one bid, one ask, or none for an unknown side. -/
def ofChange (productId : StdString) (now : UInt64) (change : CoinbaseChange D) :
    Option (NormalizedOrderBookUpdate D) :=
  let level : PriceLevelSnapshot D := ⟨change.price, change.quantity, 1⟩
  if change.side = lit "buy" then some (coinbaseUpdate productId now [level] [])
  else if change.side = lit "sell" then some (coinbaseUpdate productId now [] [level])
  else none

section Book

variable [LinearOrder D] [Zero D]

/-- A change as an update of its own; those of unknown sides are ignored. -/
def applyOne (productId : StdString) (book : AggregatedOrderBook D)
    (change : CoinbaseChange D × UInt64) : AggregatedOrderBook D :=
  match ofChange productId change.2 change.1 with
  | none => book
  | some update => book.update update

/-- The price and the quantity that the book holds for Coinbase at each price. -/
def quotes (book : AggregatedOrderBook D) (side : Side) (p : D) : Option (D × D) :=
  ((book.heldLevels .coinbase side)[p]?).map fun level => (level.price, level.quantity)

/-- The message is applied like its changes one by one, at any clock readings, and not at all
when one of them cannot be read. -/
def AppliesInOrder (stod : StdString → Option D) (book : AggregatedOrderBook D) (json : Json)
    (now : UInt64) (productId : StdString) (changesArray : List Json) : Prop :=
  (∀ changes : List (CoinbaseChange D × UInt64),
    List.Forall₂ (Says stod) changesArray (changes.map Prod.fst) →
      ∀ side, quotes (CoinbaseConnector.onL2update stod book json now) side =
        quotes (changes.foldl (applyOne productId) book) side) ∧
    ((∃ changeElement ∈ changesArray, ∀ change, ¬ Says stod changeElement change) →
      CoinbaseConnector.onL2update stod book json now = book)

end Book

section Parsing

variable {stod : StdString → Option D} {json : Json} {productId : StdString}
  {changesArray : List Json}

/-- The loop reads what the element of a change says. -/
theorem readChange_eq_some_iff {changeElement : Json} {change : CoinbaseChange D} :
    CoinbaseConnector.readChange stod changeElement = some change ↔
      Says stod changeElement change := by
  constructor
  · intro h
    rw [CoinbaseConnector.readChange, Option.bind_eq_bind, Option.bind_eq_some_iff] at h
    obtain ⟨elements, harray, h⟩ := h
    obtain rfl := Json.getArray_eq_some_iff.mp harray
    match elements, h with
    | sideElement :: priceElement :: qtyElement :: rest, h =>
      simp only [Option.bind_eq_bind, Option.bind_eq_some_iff, Option.pure_def,
        Option.some.injEq] at h
      obtain ⟨sideStr, hside, priceStr, hprice, qtyStr, hqty, price, hstod, quantity, hstod',
        rfl⟩ := h
      obtain rfl := Json.getString_eq_some_iff.mp hside
      obtain rfl := Json.getString_eq_some_iff.mp hprice
      obtain rfl := Json.getString_eq_some_iff.mp hqty
      exact ⟨priceStr, qtyStr, rest, rfl, hstod, hstod'⟩
  · rintro ⟨priceStr, qtyStr, rest, rfl, hprice, hqty⟩
    simp [CoinbaseConnector.readChange, Json.getArray, Json.getString, hprice, hqty]

/-- The changes that the elements say are those that the loop reads. -/
theorem map_readChange_eq {changes : List (CoinbaseChange D)}
    (h : List.Forall₂ (Says stod) changesArray changes) :
    changesArray.map (CoinbaseConnector.readChange stod) = changes.map some := by
  induction h with
  | nil => rfl
  | cons hsays _ ih => rw [List.map_cons, List.map_cons, readChange_eq_some_iff.mpr hsays, ih]

/-- The loop cannot read an element that says no change. -/
theorem none_mem_map_readChange {changeElement : Json} (hmem : changeElement ∈ changesArray)
    (h : ∀ change, ¬ Says stod changeElement change) :
    none ∈ changesArray.map (CoinbaseConnector.readChange stod) := by
  refine List.mem_map.mpr ⟨changeElement, hmem, ?_⟩
  exact Option.eq_none_iff_forall_ne_some.mpr fun change hread =>
    h change (readChange_eq_some_iff.mp hread)

/-- The side that a change is for. -/
def sideOf (change : CoinbaseChange D) : Option Side :=
  if change.side = lit "buy" then some .bid
  else if change.side = lit "sell" then some .ask
  else none

/-- The update of a change carries its level on its side. -/
theorem ofChange_of_some {now : UInt64} {change : CoinbaseChange D}
    {u : NormalizedOrderBookUpdate D} (h : ofChange productId now change = some u) :
    u.exchange = .coinbase ∧ u.symbol = productId ∧
      ∀ side, u.levels side = if sideOf change = some side then [change.level] else [] := by
  unfold ofChange at h
  unfold sideOf
  split_ifs at h ⊢ with hbuy hsell
  · cases h
    exact ⟨rfl, rfl, fun side => by cases side <;> rfl⟩
  · cases h
    exact ⟨rfl, rfl, fun side => by cases side <;> rfl⟩

/-- An unknown side makes no update. -/
theorem ofChange_of_none {now : UInt64} {change : CoinbaseChange D}
    (h : ofChange productId now change = none) : sideOf change = none := by
  unfold ofChange at h
  unfold sideOf
  split_ifs at h ⊢
  rfl

theorem levels_addChange (update : NormalizedOrderBookUpdate D) (change : CoinbaseChange D)
    (side : Side) :
    (CoinbaseConnector.addChange update change).levels side =
      update.levels side ++ if sideOf change = some side then [change.level] else [] := by
  unfold CoinbaseConnector.addChange sideOf
  split_ifs <;> cases side <;> simp_all [NormalizedOrderBookUpdate.levels]

theorem levels_emptyUpdate (productId : StdString) (now : UInt64) (side : Side) :
    (CoinbaseConnector.emptyUpdate productId now : NormalizedOrderBookUpdate D).levels side =
      [] := by
  cases side <;> rfl

/-- The levels of a side are those of its changes, in their order. -/
theorem levels_foldl_addChange (changes : List (CoinbaseChange D))
    (update : NormalizedOrderBookUpdate D) (side : Side) :
    (changes.foldl CoinbaseConnector.addChange update).levels side =
      update.levels side ++
        (changes.filter fun change => sideOf change = some side).map CoinbaseChange.level := by
  induction changes generalizing update with
  | nil => exact (List.append_nil _).symm
  | cons change changes ih =>
    rw [List.foldl_cons, ih, levels_addChange, List.filter_cons, List.append_assoc]
    split_ifs <;> simp_all

theorem addChange_keeps (update : NormalizedOrderBookUpdate D) (change : CoinbaseChange D) :
    (CoinbaseConnector.addChange update change).exchange = update.exchange ∧
      (CoinbaseConnector.addChange update change).symbol = update.symbol := by
  unfold CoinbaseConnector.addChange
  split_ifs <;> exact ⟨rfl, rfl⟩

theorem foldl_addChange_keeps (changes : List (CoinbaseChange D))
    (update : NormalizedOrderBookUpdate D) :
    (changes.foldl CoinbaseConnector.addChange update).exchange = update.exchange ∧
      (changes.foldl CoinbaseConnector.addChange update).symbol = update.symbol := by
  induction changes generalizing update with
  | nil => exact ⟨rfl, rfl⟩
  | cons change changes ih =>
    obtain ⟨hexchange, hsymbol⟩ := ih (CoinbaseConnector.addChange update change)
    obtain ⟨hexchange', hsymbol'⟩ := addChange_keeps update change
    exact ⟨hexchange.trans hexchange', hsymbol.trans hsymbol'⟩

/-- The loop over changes that can all be read. -/
theorem foldlM_of_read {changes : List (CoinbaseChange D)}
    (h : changesArray.map (CoinbaseConnector.readChange stod) = changes.map some)
    (update : NormalizedOrderBookUpdate D) :
    changesArray.foldlM (fun update changeElement => do
      return CoinbaseConnector.addChange update (← CoinbaseConnector.readChange stod changeElement))
        update = some (changes.foldl CoinbaseConnector.addChange update) := by
  induction changesArray generalizing changes update with
  | nil =>
    obtain rfl : changes = [] := List.map_eq_nil_iff.mp h.symm
    rfl
  | cons element elements ih =>
    cases changes with
    | nil => cases h
    | cons change changes =>
      obtain ⟨hread, hrest⟩ := List.cons.inj h
      rw [List.foldlM_cons, hread]
      exact ih hrest _

/-- The loop fails at a change that cannot be read. -/
theorem foldlM_of_unread (h : none ∈ changesArray.map (CoinbaseConnector.readChange stod))
    (update : NormalizedOrderBookUpdate D) :
    changesArray.foldlM (fun update changeElement => do
      return CoinbaseConnector.addChange update (← CoinbaseConnector.readChange stod changeElement))
        update = none := by
  induction changesArray generalizing update with
  | nil => cases h
  | cons element elements ih =>
    rw [List.foldlM_cons]
    cases hread : CoinbaseConnector.readChange stod element with
    | none => rfl
    | some change =>
      rw [List.map_cons, hread] at h
      exact ih ((List.mem_cons.mp h).resolve_left (Option.some_ne_none change).symm) _

end Parsing

section Quotes

variable [LinearOrder D] [Zero D] {book : AggregatedOrderBook D}

/-- What a change of a side makes of the quotes of that side. -/
def quote (held : D → Option (D × D)) (change : CoinbaseChange D) : D → Option (D × D) := fun p =>
  if change.price = p then
    if 0 < change.quantity then some (change.price, change.quantity) else none
  else held p

theorem quotes_foldl_applyLevel (u : NormalizedOrderBookUpdate D)
    (changes : List (CoinbaseChange D)) (levels : Std.TreeMap D (AggregatedPriceLevel D)) :
    (fun p => (((changes.map CoinbaseChange.level).foldl (AggregatedOrderBook.applyLevel u)
      levels)[p]?).map fun level => (level.price, level.quantity)) =
      changes.foldl quote fun p => (levels[p]?).map fun level => (level.price, level.quantity) := by
  induction changes generalizing levels with
  | nil => rfl
  | cons change changes ih =>
    rw [List.map_cons, List.foldl_cons, List.foldl_cons, ih]
    congr 1
    funext p
    rw [AggregatedOrderBook.getElem?_applyLevel, quote]
    show Option.map _ (if change.price = p then _ else _) = _
    split
    · show Option.map _ (if 0 < change.quantity then _ else _) = _
      split <;> rfl
    · rfl

/-- An update of the book's symbol runs the changes of each side into its quotes. -/
theorem quotes_update {u : NormalizedOrderBookUpdate D} (hexchange : u.exchange = .coinbase)
    (hsymbol : u.symbol = book.symbol) {side : Side} (changes : List (CoinbaseChange D))
    (hlevels : u.levels side = changes.map CoinbaseChange.level) :
    quotes (book.update u) side = changes.foldl quote (quotes book side) := by
  have hheld := AggregatedOrderBook.heldLevels_applyUpdate_self u book side
  rw [hexchange, hlevels] at hheld
  unfold quotes
  rw [AggregatedOrderBook.update_of_symbol_eq _ hsymbol, hheld]
  exact quotes_foldl_applyLevel u changes (book.heldLevels .coinbase side)

/-- A change as an update of its own runs into the quotes of its side. -/
theorem quotes_applyOne {productId : StdString} (hsymbol : productId = book.symbol)
    (change : CoinbaseChange D × UInt64) (side : Side) :
    quotes (applyOne productId book change) side =
      if sideOf change.1 = some side then quote (quotes book side) change.1
      else quotes book side := by
  unfold applyOne
  split
  · rename_i hnone
    rw [if_neg]
    rw [ofChange_of_none hnone]
    exact (Option.some_ne_none side).symm
  · rename_i u hsome
    obtain ⟨hexchange, hkept, hlevels⟩ := ofChange_of_some hsome
    have hlevels := hlevels side
    split
    · rename_i hside
      rw [if_pos hside] at hlevels
      exact quotes_update hexchange (hkept.trans hsymbol) [change.1] hlevels
    · rename_i hside
      rw [if_neg hside] at hlevels
      exact quotes_update hexchange (hkept.trans hsymbol) [] hlevels

theorem symbol_applyOne (productId : StdString) (change : CoinbaseChange D × UInt64) :
    (applyOne productId book change).symbol = book.symbol := by
  unfold applyOne
  split
  · rfl
  · rename_i u _
    unfold AggregatedOrderBook.update
    split <;> rfl

/-- Changes one by one run into the quotes of their sides. -/
theorem quotes_foldl_applyOne {productId : StdString} (hsymbol : productId = book.symbol)
    (changes : List (CoinbaseChange D × UInt64)) (side : Side) :
    quotes (changes.foldl (applyOne productId) book) side =
      ((changes.map Prod.fst).filter fun change => sideOf change = some side).foldl quote
        (quotes book side) := by
  induction changes generalizing book with
  | nil => rfl
  | cons change changes ih =>
    rw [List.foldl_cons, ih (hsymbol.trans (symbol_applyOne productId change).symm),
      quotes_applyOne hsymbol, List.map_cons, List.filter_cons]
    split_ifs <;> simp_all

/-- Changes of another symbol are ignored. -/
theorem foldl_applyOne_of_ne {productId : StdString} (hsymbol : productId ≠ book.symbol)
    (changes : List (CoinbaseChange D × UInt64)) :
    changes.foldl (applyOne productId) book = book := by
  induction changes with
  | nil => rfl
  | cons change changes ih =>
    have hone : applyOne productId book change = book := by
      unfold applyOne
      split
      · rfl
      · rename_i u hsome
        obtain ⟨-, hkept, -⟩ := ofChange_of_some hsome
        exact AggregatedOrderBook.update_of_symbol_ne _ (by rw [hkept]; exact hsymbol)
    rw [List.foldl_cons, hone, ih]

/-- A batch of changes is applied like its changes one by one, or not at all. -/
theorem appliesInOrder (stod : StdString → Option D) (book : AggregatedOrderBook D) (json : Json)
    (now : UInt64) (productId : StdString) (changesArray : List Json)
    (hid : json.atKey (lit "product_id") = some (.string productId))
    (hchanges : json.atKey (lit "changes") = some (.array changesArray)) :
    AppliesInOrder stod book json now productId changesArray := by
  have hparse : CoinbaseConnector.parseL2update stod json now =
      changesArray.foldlM (fun update changeElement => do
        return CoinbaseConnector.addChange update
          (← CoinbaseConnector.readChange stod changeElement))
        (CoinbaseConnector.emptyUpdate productId now) := by
    unfold CoinbaseConnector.parseL2update
    rw [hid, hchanges]
    rfl
  constructor
  · intro changes hsays side
    have hkeeps := foldl_addChange_keeps (changes.map Prod.fst)
      (CoinbaseConnector.emptyUpdate productId now)
    have hlevels := levels_foldl_addChange (changes.map Prod.fst)
      (CoinbaseConnector.emptyUpdate productId now) side
    rw [levels_emptyUpdate, List.nil_append] at hlevels
    unfold CoinbaseConnector.onL2update
    rw [hparse, foldlM_of_read (map_readChange_eq hsays)]
    by_cases hsymbol : productId = book.symbol
    · rw [quotes_foldl_applyOne hsymbol]
      exact quotes_update hkeeps.1 (hkeeps.2.trans hsymbol) _ hlevels
    · rw [foldl_applyOne_of_ne hsymbol]
      exact congrArg (quotes · side)
        (AggregatedOrderBook.update_of_symbol_ne _ (by rw [hkeeps.2]; exact hsymbol))
  · rintro ⟨changeElement, hmem, hunread⟩
    unfold CoinbaseConnector.onL2update
    rw [hparse, foldlM_of_unread (none_mem_map_readChange hmem hunread)]

end Quotes

/-- A message that sets a bid, sets an ask and takes the bid away. -/
def threeChanges : List Json :=
  [.array [.string (lit "buy"), .string (lit "90"), .string (lit "2")],
    .array [.string (lit "sell"), .string (lit "91"), .string (lit "3")],
    .array [.string (lit "buy"), .string (lit "90"), .string (lit "0")]]

theorem appliesInOrder_threeChanges :
    AppliesInOrder SnapshotMessage.stodDigits (.construct (lit "BTC-USD"))
      (.object [(lit "type", .string (lit "l2update")),
        (lit "product_id", .string (lit "BTC-USD")), (lit "changes", .array threeChanges)])
      5 (lit "BTC-USD") threeChanges :=
  appliesInOrder _ _ _ 5 (lit "BTC-USD") threeChanges rfl rfl

end L2update

end OrderbookEngine
