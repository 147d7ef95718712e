import Mathlib.Data.List.TakeWhile
import OrderbookEngine.Core.Types
import OrderbookEngine.Library.LastWrite
import OrderbookEngine.Library.StdChoices
import OrderbookEngine.Library.Transition

/-!
# The aggregated book of the order book manager

One vector per side holds the levels of all exchanges, sorted by price. An
update looks only at the first entry stored at its price. The vector holds the
last write of every exchange at every price exactly as long as each exchange
that rewrites a price finds its own entry there first.
-/

namespace OrderbookEngine

/-- One exchange's level, prices and quantities in fixed point. -/
structure ExchangeLevel where
  price : UInt64
  quantity : UInt64
  exchange : Exchange
  timestamp : UInt64
  deriving DecidableEq, Repr

namespace Manager

open LastWrite

/-- A price level with contributions from several exchanges. -/
structure AggregatedLevel where
  price : ℚ
  quantity : ℚ
  exchangeLevels : List ExchangeLevel

/-- The view of both sides that `get_snapshot` returns. -/
structure AggregatedSnapshot where
  symbol : StdString
  timestamp : UInt64
  bids : List AggregatedLevel
  asks : List AggregatedLevel

/-- `AggregatedOrderBook` of `order_book_manager.hpp`, between two locked calls. -/
structure AggregatedOrderBook where
  aggregatedBids : List ExchangeLevel
  aggregatedAsks : List ExchangeLevel
  deriving DecidableEq, Repr

namespace AggregatedOrderBook

/-- A book without levels. -/
def construct : AggregatedOrderBook := ⟨[], []⟩

/-- The vector of one side. -/
def levels (book : AggregatedOrderBook) : Side → List ExchangeLevel
  | .bid => book.aggregatedBids
  | .ask => book.aggregatedAsks

/-- The comparator of a side: bids descend, asks ascend. -/
def levelLess : Side → ExchangeLevel → ExchangeLevel → Bool
  | .bid => fun a b => decide (a.price > b.price)
  | .ask => fun a b => decide (a.price < b.price)

/-- The body of `update_level` on the vector of the chosen side. -/
def updateLevels (std : StdChoices) (side : Side) (level : ExchangeLevel)
    (levels : List ExchangeLevel) : List ExchangeLevel :=
  let before := levels.takeWhile fun l => l.price != level.price
  let it := levels.dropWhile fun l => l.price != level.price
  if level.quantity = 0 then
    match it with
    | found :: after => if found.exchange = level.exchange then before ++ after else levels
    | [] => levels
  else
    match it with
    | found :: after =>
      if found.exchange = level.exchange then
        before ++ { found with quantity := level.quantity, timestamp := level.timestamp } :: after
      else std.sort (levelLess side) (levels ++ [level])
    | [] => std.sort (levelLess side) (levels ++ [level])

/-- `update_level` at the clock reading `timestamp`. -/
def updateLevel (std : StdChoices) (exchange : Exchange) (side : Side)
    (priceFixed quantityFixed timestamp : UInt64) (book : AggregatedOrderBook) :
    AggregatedOrderBook :=
  let level : ExchangeLevel := ⟨priceFixed, quantityFixed, exchange, timestamp⟩
  match side with
  | .bid => { book with aggregatedBids := updateLevels std .bid level book.aggregatedBids }
  | .ask => { book with aggregatedAsks := updateLevels std .ask level book.aggregatedAsks }

/-- `clear`. -/
def clear (_ : AggregatedOrderBook) : AggregatedOrderBook := ⟨[], []⟩

/-- `map[level.price].push_back(level)`, keys kept in the order they were created. -/
def pushLevel : List (UInt64 × List ExchangeLevel) → ExchangeLevel →
    List (UInt64 × List ExchangeLevel)
  | [], level => [(level.price, [level])]
  | (price, levels) :: rest, level =>
    if price = level.price then (price, levels ++ [level]) :: rest
    else (price, levels) :: pushLevel rest level

/-- The levels of one side grouped by price and cut to a depth. -/
def aggregate (std : StdChoices) (less : ℚ → ℚ → Bool) (levels : List ExchangeLevel)
    (depth : Nat) : List AggregatedLevel :=
  let groups := levels.foldl pushLevel []
  let aggregated := (std.iterate groups).map fun (price, levels) =>
    { price := fixedToDouble price
      quantity := (levels.map fun l => fixedToDouble l.quantity).sum
      exchangeLevels := levels }
  (std.sort (fun a b => less a.price b.price) aggregated).take depth

/-- `get_snapshot` at the clock reading `timestamp`; the symbol is never set. -/
def getSnapshot (std : StdChoices) (book : AggregatedOrderBook) (depth : Nat)
    (timestamp : UInt64) : AggregatedSnapshot where
  symbol := []
  timestamp := timestamp
  bids := aggregate std (fun a b => decide (a > b)) book.aggregatedBids depth
  asks := aggregate std (fun a b => decide (a < b)) book.aggregatedAsks depth

/-- The snapshot's levels of one side. -/
def snapshotSide (snapshot : AggregatedSnapshot) : Side → List AggregatedLevel
  | .bid => snapshot.bids
  | .ask => snapshot.asks

/-- A call that changes the book. -/
inductive Call where
  | updateLevel (exchange : Exchange) (side : Side) (priceFixed quantityFixed timestamp : UInt64)
  | clear

/-- The effect of a call on the book. -/
def step (std : StdChoices) (book : AggregatedOrderBook) : Call → AggregatedOrderBook
  | .updateLevel ex side p q ts => book.updateLevel std ex side p q ts
  | .clear => book.clear

/-- The book after a sequence of calls. -/
def run (std : StdChoices) (calls : List Call) : AggregatedOrderBook :=
  calls.foldl (step std) construct

/-- What a side of the book should hold: a quantity for each exchange and price. -/
abbrev Quotes := LastWrite (Exchange × UInt64) UInt64

/-- The effect of a call on the quotes, a quantity of 0 being a deletion. -/
def quote (quotes : Side → Quotes) : Call → Side → Quotes
  | .updateLevel ex side p q _ =>
    Function.update quotes side ((quotes side).write (ex, p) (if q = 0 then none else some q))
  | .clear => fun _ => LastWrite.empty

/-- The last writes since the last `clear`. -/
def lastQuotes (calls : List Call) : Side → Quotes :=
  calls.foldl quote fun _ => LastWrite.empty

/-- The stored levels as keyed entries. -/
def entries (levels : List ExchangeLevel) : List ((Exchange × UInt64) × UInt64) :=
  levels.map fun l => ((l.exchange, l.price), l.quantity)

/-- The book holds the last writes, and its snapshots show nothing else. -/
def Holds (std : StdChoices) (calls : List Call) : Prop :=
  ∀ side, Lists (entries ((run std calls).levels side)) (lastQuotes calls side) ∧
    ∀ depth timestamp, ∀ a ∈ snapshotSide ((run std calls).getSnapshot std depth timestamp) side,
      ∀ l ∈ a.exchangeLevels, lastQuotes calls side (l.exchange, l.price) = some l.quantity

/-- The first level stored at the price is the exchange's own. -/
def OwnFirst (levels : List ExchangeLevel) (exchange : Exchange) (price : UInt64) : Prop :=
  ∃ found, levels.find? (fun l => l.price == price) = some found ∧ found.exchange = exchange

/-- An update of a price at which its exchange has a level finds that level first. -/
def FindsOwn (book : AggregatedOrderBook) : Call → Prop
  | .updateLevel ex side p _ _ =>
    (∃ l ∈ book.levels side, l.exchange = ex ∧ l.price = p) → OwnFirst (book.levels side) ex p
  | .clear => True

section UpdateLevels

variable (std : StdChoices) (side : Side) (level : ExchangeLevel)

@[simp] theorem entries_append (l l' : List ExchangeLevel) :
    entries (l ++ l') = entries l ++ entries l' := List.map_append

@[simp] theorem entries_cons (l : ExchangeLevel) (rest : List ExchangeLevel) :
    entries (l :: rest) = ((l.exchange, l.price), l.quantity) :: entries rest := rfl

private theorem takeWhile_split {before : List ExchangeLevel} {found : ExchangeLevel}
    {price : UInt64} (hbefore : ∀ l ∈ before, l.price ≠ price) (hfound : found.price = price)
    (after : List ExchangeLevel) :
    (before ++ found :: after).takeWhile (fun l => l.price != price) = before ∧
      (before ++ found :: after).dropWhile (fun l => l.price != price) = found :: after := by
  have hb : ∀ l ∈ before, (l.price != price) = true := by simpa using hbefore
  constructor
  · rw [List.takeWhile_append_of_pos hb, List.takeWhile_cons_of_neg (by simp [hfound])]
    exact List.append_nil before
  · rw [List.dropWhile_append_of_pos hb, List.dropWhile_cons_of_neg (by simp [hfound])]

/-- An exchange that finds its own level first changes or erases that level. -/
theorem updateLevels_own {levels : List ExchangeLevel}
    (h : OwnFirst levels level.exchange level.price) :
    ∃ before found after, levels = before ++ found :: after ∧
      found.exchange = level.exchange ∧ found.price = level.price ∧
      updateLevels std side level levels =
        if level.quantity = 0 then before ++ after
        else before ++
          { found with quantity := level.quantity, timestamp := level.timestamp } :: after := by
  obtain ⟨found, hfind, hown⟩ := h
  obtain ⟨hprice, before, after, rfl, hbefore⟩ := List.find?_eq_some_iff_append.mp hfind
  have hp : found.price = level.price := by simpa using hprice
  obtain ⟨htake, hdrop⟩ := takeWhile_split (fun l hl => by simpa using hbefore l hl) hp after
  refine ⟨before, found, after, rfl, hown, hp, ?_⟩
  simp only [updateLevels, htake, hdrop, hown, if_true]

/-- An exchange that does not find its own level first adds one, and erases none. -/
theorem updateLevels_other {levels : List ExchangeLevel}
    (h : ¬ OwnFirst levels level.exchange level.price) :
    updateLevels std side level levels =
      if level.quantity = 0 then levels else std.sort (levelLess side) (levels ++ [level]) := by
  cases hfind : levels.find? fun l => l.price == level.price with
  | none =>
    have hall : ∀ l ∈ levels, (l.price != level.price) = true := by
      simpa [List.find?_eq_none] using hfind
    have hdrop : levels.dropWhile (fun l => l.price != level.price) = [] :=
      List.dropWhile_eq_nil_iff.mpr hall
    simp only [updateLevels, hdrop]
  | some found =>
    have hown : found.exchange ≠ level.exchange := fun he => h ⟨found, hfind, he⟩
    obtain ⟨hprice, before, after, rfl, hbefore⟩ := List.find?_eq_some_iff_append.mp hfind
    obtain ⟨htake, hdrop⟩ := takeWhile_split
      (fun l hl => by simpa using hbefore l hl) (by simpa using hprice) after
    simp only [updateLevels, htake, hdrop, hown, if_false]

variable {levels : List ExchangeLevel} {quotes : Quotes}

/-- The quote an update leaves under its key. -/
def written (level : ExchangeLevel) (quotes : Quotes) : Quotes :=
  quotes.write (level.exchange, level.price)
    (if level.quantity = 0 then none else some level.quantity)

/-- A stored level is an entry under its exchange and price. -/
theorem mem_entries {l : ExchangeLevel} (h : l ∈ levels) :
    ((l.exchange, l.price), l.quantity) ∈ entries levels := List.mem_map_of_mem h

/-- The vector follows the last write when the exchange finds its own level. -/
theorem lists_updateLevels (h : Lists (entries levels) quotes)
    (hown : (∃ l ∈ levels, l.exchange = level.exchange ∧ l.price = level.price) →
      OwnFirst levels level.exchange level.price) :
    Lists (entries (updateLevels std side level levels)) (written level quotes) := by
  by_cases hfirst : OwnFirst levels level.exchange level.price
  · obtain ⟨before, found, after, rfl, hex, hp, heq⟩ := updateLevels_own std side level hfirst
    rw [heq]
    simp only [entries_append, entries_cons, hex, hp] at h
    by_cases hq : level.quantity = 0
    · simpa [hq, written] using h.remove
    · simpa [hq, written, hex, hp] using h.replace level.quantity
  · rw [updateLevels_other std side level hfirst]
    have hnone : quotes (level.exchange, level.price) = none := by
      apply h.eq_none
      intro hmem
      obtain ⟨e, he, hkey⟩ := List.mem_map.mp hmem
      obtain ⟨l, hl, rfl⟩ := List.mem_map.mp he
      simp only [Prod.mk.injEq] at hkey
      exact hfirst (hown ⟨l, hl, hkey⟩)
    by_cases hq : level.quantity = 0
    · simpa [hq, written, write_none_of_none hnone] using h
    · simp only [hq, if_false, written]
      apply (h.cons hnone level.quantity).perm
      apply ((std.sort_perm (levelLess side) (levels ++ [level])).map _).trans
      rw [List.map_append]
      exact List.perm_append_singleton _ _

/-- The vector misses the last write when another exchange's level stands first. -/
theorem not_lists_updateLevels
    (hown : ∃ l ∈ levels, l.exchange = level.exchange ∧ l.price = level.price)
    (hfirst : ¬ OwnFirst levels level.exchange level.price) :
    ¬ Lists (entries (updateLevels std side level levels)) (written level quotes) := by
  intro h'
  obtain ⟨l, hl, hex, hp⟩ := hown
  rw [updateLevels_other std side level hfirst] at h'
  by_cases hq : level.quantity = 0
  · have hmem := (h'.mem_iff _ _).mp (mem_entries (by simpa [hq] using hl))
    simp [written, hex, hp, hq] at hmem
  · simp only [hq, if_false] at h'
    have hperm := (std.sort_perm (levelLess side) (levels ++ [level])).trans
      (List.perm_append_singleton level levels)
    have hnodup := (((hperm.map fun l => ((l.exchange, l.price), l.quantity)).map
      Prod.fst).nodup_iff).mp h'.nodup
    have hkey := List.mem_map_of_mem (f := Prod.fst) (mem_entries hl)
    simp only [hex, hp] at hkey
    exact (List.nodup_cons.mp hnodup).1 hkey

end UpdateLevels

section Snapshot

variable (std : StdChoices)

private theorem mem_pushLevel {groups : List (UInt64 × List ExchangeLevel)}
    {level l : ExchangeLevel} {g : UInt64 × List ExchangeLevel}
    (hg : g ∈ pushLevel groups level) (hl : l ∈ g.2) :
    l = level ∨ ∃ g' ∈ groups, l ∈ g'.2 := by
  induction groups with
  | nil =>
    simp only [pushLevel, List.mem_singleton] at hg
    subst hg
    exact Or.inl (by simpa using hl)
  | cons head rest ih =>
    obtain ⟨price, levels⟩ := head
    simp only [pushLevel] at hg
    split at hg
    · rcases List.mem_cons.mp hg with rfl | hg
      · rcases List.mem_append.mp hl with hl | hl
        · exact Or.inr ⟨_, List.mem_cons_self, hl⟩
        · exact Or.inl (by simpa using hl)
      · exact Or.inr ⟨g, List.mem_cons_of_mem _ hg, hl⟩
    · rcases List.mem_cons.mp hg with rfl | hg
      · exact Or.inr ⟨_, List.mem_cons_self, hl⟩
      · rcases ih hg with h | ⟨g', hg', hl'⟩
        · exact Or.inl h
        · exact Or.inr ⟨g', List.mem_cons_of_mem _ hg', hl'⟩

private theorem mem_groups {levels : List ExchangeLevel} {l : ExchangeLevel} :
    ∀ {groups : List (UInt64 × List ExchangeLevel)} {g : UInt64 × List ExchangeLevel},
      g ∈ levels.foldl pushLevel groups → l ∈ g.2 → l ∈ levels ∨ ∃ g' ∈ groups, l ∈ g'.2 := by
  induction levels with
  | nil => exact fun hg hl => Or.inr ⟨_, hg, hl⟩
  | cons level rest ih =>
    intro groups g hg hl
    rcases ih hg hl with h | ⟨g', hg', hl'⟩
    · exact Or.inl (List.mem_cons_of_mem _ h)
    · rcases mem_pushLevel hg' hl' with rfl | h
      · exact Or.inl List.mem_cons_self
      · exact Or.inr h

/-- A level shown in an aggregation is stored. -/
theorem mem_aggregate {less : ℚ → ℚ → Bool} {levels : List ExchangeLevel} {depth : Nat}
    {a : AggregatedLevel} {l : ExchangeLevel} (ha : a ∈ aggregate std less levels depth)
    (hl : l ∈ a.exchangeLevels) : l ∈ levels := by
  have hsort := List.mem_of_mem_take ha
  rw [StdChoices.mem_sort] at hsort
  obtain ⟨g, hg, rfl⟩ := List.mem_map.mp hsort
  rw [StdChoices.mem_iterate] at hg
  rcases mem_groups hg hl with h | ⟨g', hg', -⟩
  · exact h
  · cases hg'

/-- A level shown in a snapshot is stored on its side. -/
theorem mem_getSnapshot {book : AggregatedOrderBook} {side : Side} {depth : Nat}
    {timestamp : UInt64} {a : AggregatedLevel} {l : ExchangeLevel}
    (ha : a ∈ snapshotSide (book.getSnapshot std depth timestamp) side)
    (hl : l ∈ a.exchangeLevels) : l ∈ book.levels side := by
  cases side with
  | bid =>
    have ha : a ∈ aggregate std (fun a b => decide (a > b)) book.aggregatedBids depth := ha
    exact mem_aggregate std ha hl
  | ask =>
    have ha : a ∈ aggregate std (fun a b => decide (a < b)) book.aggregatedAsks depth := ha
    exact mem_aggregate std ha hl

end Snapshot

section History

variable (std : StdChoices)

theorem run_append (pre : List Call) (call : Call) :
    run std (pre ++ [call]) = step std (run std pre) call := List.foldl_append

theorem lastQuotes_append (pre : List Call) (call : Call) :
    lastQuotes (pre ++ [call]) = quote (lastQuotes pre) call := List.foldl_append

/-- An update changes the vector of its side. -/
theorem levels_updateLevel (book : AggregatedOrderBook) (ex : Exchange) (side side' : Side)
    (p q ts : UInt64) :
    (book.updateLevel std ex side p q ts).levels side' =
      if side' = side then updateLevels std side ⟨p, q, ex, ts⟩ (book.levels side)
      else book.levels side' := by
  cases side <;> cases side' <;> rfl

/-- The vectors list the last writes. -/
def ListsQuotes (pre : List Call) : Prop :=
  ∀ side, Lists (entries ((run std pre).levels side)) (lastQuotes pre side)

/-- A book that lists the last writes shows nothing else. -/
theorem ListsQuotes.holds {pre : List Call} (h : ListsQuotes std pre) : Holds std pre :=
  fun side => ⟨h side, fun _ _ _ ha _ hl =>
    ((h side).mem_iff _ _).mp (mem_entries (mem_getSnapshot std ha hl))⟩

theorem listsQuotes_nil : ListsQuotes std [] := by
  intro side
  cases side with
  | bid => exact lists_nil
  | ask => exact lists_nil

/-- A call that finds its own level keeps the last writes listed. -/
theorem ListsQuotes.step {pre : List Call} (h : ListsQuotes std pre) {call : Call}
    (hfinds : FindsOwn (run std pre) call) : ListsQuotes std (pre ++ [call]) := by
  intro side'
  rw [run_append, lastQuotes_append]
  cases call with
  | clear =>
    cases side' with
    | bid => exact lists_nil
    | ask => exact lists_nil
  | updateLevel ex side p q ts =>
    simp only [AggregatedOrderBook.step, quote, levels_updateLevel]
    by_cases hs : side' = side
    · subst hs
      simpa [written] using
        lists_updateLevels std side' ⟨p, q, ex, ts⟩ (h side') hfinds
    · simpa [hs] using h side'

/-- A call that finds another exchange's level first leaves the last writes. -/
theorem not_holds_step {pre : List Call} {call : Call}
    (hfinds : ¬ FindsOwn (run std pre) call) : ¬ Holds std (pre ++ [call]) := by
  intro hholds
  cases call with
  | clear => exact hfinds trivial
  | updateLevel ex side p q ts =>
    simp only [FindsOwn, Classical.not_imp] at hfinds
    have hlists := (hholds side).1
    rw [run_append, lastQuotes_append] at hlists
    simp only [AggregatedOrderBook.step, quote, levels_updateLevel, if_true,
      Function.update_self] at hlists
    exact not_lists_updateLevels std side ⟨p, q, ex, ts⟩ hfinds.1 hfinds.2 hlists

/-- The book holds the last writes after every prefix of the calls exactly when
every exchange that rewrites a price finds its own level first at that price. -/
theorem holds_iff_findsOwn (calls : List Call) :
    (∀ pre, pre <+: calls → Holds std pre) ↔
      ∀ pre call, pre ++ [call] <+: calls → FindsOwn (run std pre) call :=
  Transition.prefixes_iff_guarded (ListsQuotes std) (listsQuotes_nil std)
    (fun _ h => h.holds) (fun _ _ _ h => h.step std) (fun _ _ _ _ => not_holds_step std)

/-- Two exchanges quote one price, and the second withdraws its quote. -/
def secondWithdraws : List Call :=
  [.updateLevel .binance .bid 100 5 1, .updateLevel .coinbase .bid 100 7 2,
    .updateLevel .coinbase .bid 100 0 3]

/-- The withdrawn quote of the second exchange stays in the book. -/
theorem holds_fails : ¬ Holds .stable secondWithdraws := by
  intro h
  have hmem : ((Exchange.coinbase, 100), 7) ∈
      entries ((run .stable secondWithdraws).levels .bid) := by decide
  have hquote := ((h .bid).1.mem_iff _ _).mp hmem
  revert hquote
  decide

end History

end AggregatedOrderBook
end Manager
end OrderbookEngine
