import OrderbookEngine.Core.AggregatedOrderBook

/-!
# Locking in the aggregated book's update

`update` holds the mutex exclusively while it looks for arbitrage, and the
detection takes the mutex itself. A call that finds a registered callback
therefore waits for its own lock; only calls without one return.
-/

namespace OrderbookEngine.AggregatedOrderBook

/-- How the calling thread holds `mutex_`. -/
inductive Hold where
  | free
  | exclusive
  | shared
  deriving DecidableEq, Repr

/-- What a call sees and leaves: the mutex, the members, and the invocations of
the callback, each with the state of the mutex when it ran. -/
structure CallState (D : Type) [LinearOrder D] where
  mutex : Hold
  book : AggregatedOrderBook D
  invoked : List (Hold × ArbitrageOpportunity D)

/-- Computations of one call; a call without a result waits for the mutex forever. -/
abbrev CallM (D : Type) [LinearOrder D] := StateT (CallState D) Option

variable {D : Type} [LinearOrder D]

/-- Take the mutex in a mode. It is not recursive: a thread that holds it already
never gets it. -/
def acquire (mode : Hold) : CallM D Unit := fun s =>
  match s.mutex with
  | .free => some ((), { s with mutex := mode })
  | _ => none

/-- Release the mutex, at the end of a scope or before it. -/
def release : CallM D Unit := modify fun s => { s with mutex := .free }

/-- `arbitrage_callback_(opportunity)`. -/
def invokeCallback (opportunity : ArbitrageOpportunity D) : CallM D Unit :=
  modify fun s => { s with invoked := s.invoked ++ [(s.mutex, opportunity)] }

variable [Field D]

/-- The default of `min_profit_percentage`. -/
def defaultMinProfitPercentage : D := 1 / 10

/-- `detect_arbitrage` with its lock. -/
def lockedDetectArbitrage (minProfitPercentage : D) (now : UInt64) :
    CallM D (Option (ArbitrageOpportunity D)) := do
  acquire .shared
  let s ← get
  let found := s.book.detectArbitrage minProfitPercentage now
  release
  return found

/-- `update` with its lock and callback, at the clock reading `now`. -/
def lockedUpdate (u : NormalizedOrderBookUpdate D) (now : UInt64) : CallM D Unit := do
  let s ← get
  if u.symbol ≠ s.book.symbol then return ()
  else
    acquire .exclusive
    modify fun s => { s with book := applyUpdate u s.book }
    if s.book.arbitrageCallback then
      match ← lockedDetectArbitrage defaultMinProfitPercentage now with
      | some opportunity =>
        release
        invokeCallback opportunity
      | none => release
    else release

/-- The call returns, after invoking the callback, with the mutex free, on just
the opportunity of the updated book if there is one. -/
def NotifiesOnce (book : AggregatedOrderBook D) (u : NormalizedOrderBookUpdate D)
    (now : UInt64) : Prop :=
  ∃ s, lockedUpdate u now ⟨.free, book, []⟩ = some ((), s) ∧
    s.invoked =
      match (applyUpdate u book).detectArbitrage defaultMinProfitPercentage now with
      | some opportunity => [(.free, opportunity)]
      | none => []

section Rules

variable {α β : Type} (s : CallState D)

omit [Field D]

@[simp] theorem bind_apply (x : CallM D α) (f : α → CallM D β) :
    (x >>= f) s = (x s).bind fun r => f r.1 r.2 := rfl

@[simp] theorem pure_apply (a : α) : (pure a : CallM D α) s = some (a, s) := rfl

@[simp] theorem get_apply : (get : CallM D (CallState D)) s = some (s, s) := rfl

@[simp] theorem modify_apply (f : CallState D → CallState D) :
    (modify f : CallM D Unit) s = some ((), f s) := rfl

@[simp] theorem release_apply : release s = some ((), { s with mutex := .free }) := rfl

end Rules

variable (book : AggregatedOrderBook D) (u : NormalizedOrderBookUpdate D) (now : UInt64)
  (invoked : List (Hold × ArbitrageOpportunity D))

/-- Under an exclusive hold the detection never gets the mutex. -/
theorem lockedDetectArbitrage_exclusive (minProfitPercentage : D) :
    lockedDetectArbitrage minProfitPercentage now ⟨.exclusive, book, invoked⟩ = none := rfl

variable {book u}

/-- An update of another symbol returns at once. -/
theorem lockedUpdate_of_symbol_ne (h : u.symbol ≠ book.symbol) :
    lockedUpdate u now ⟨.free, book, invoked⟩ = some ((), ⟨.free, book, invoked⟩) := by
  simp [lockedUpdate, h]

/-- Without a callback the update is applied and the mutex freed. -/
theorem lockedUpdate_of_no_callback (h : u.symbol = book.symbol)
    (hcallback : book.arbitrageCallback = false) :
    lockedUpdate u now ⟨.free, book, invoked⟩ =
      some ((), ⟨.free, applyUpdate u book, invoked⟩) := by
  simp [lockedUpdate, acquire, h, hcallback]

/-- With a callback the update waits for the mutex that it holds. -/
theorem lockedUpdate_of_callback (h : u.symbol = book.symbol)
    (hcallback : book.arbitrageCallback = true) :
    lockedUpdate u now ⟨.free, book, invoked⟩ = none := by
  simp [lockedUpdate, acquire, h, hcallback, lockedDetectArbitrage_exclusive]

/-- An update never returns exactly when it matches the symbol and finds a callback. -/
theorem lockedUpdate_eq_none_iff :
    lockedUpdate u now ⟨.free, book, invoked⟩ = none ↔
      u.symbol = book.symbol ∧ book.arbitrageCallback = true := by
  by_cases h : u.symbol = book.symbol
  · cases hcallback : book.arbitrageCallback with
    | false => simp [lockedUpdate_of_no_callback now invoked h hcallback]
    | true => simp [lockedUpdate_of_callback now invoked h hcallback, h]
  · simp [lockedUpdate_of_symbol_ne now invoked h, h]

/-- No update of the book's symbol notifies a registered callback: it never returns. -/
theorem not_notifiesOnce (h : u.symbol = book.symbol)
    (hcallback : book.arbitrageCallback = true) : ¬ NotifiesOnce book u now := by
  rintro ⟨s, hreturn, -⟩
  rw [lockedUpdate_of_callback now [] h hcallback] at hreturn
  cases hreturn

/-- A book whose callback is registered. -/
def monitoredBook : AggregatedOrderBook ℚ :=
  (construct (lit "BTC-USD")).setArbitrageCallback true

/-- An update of that book that changes no level. -/
def emptyUpdate : NormalizedOrderBookUpdate ℚ where
  exchange := .binance
  symbol := lit "BTC-USD"
  timestamp := 1
  updateId := 1
  bids := []
  asks := []

theorem not_notifiesOnce_monitoredBook : ¬ NotifiesOnce monitoredBook emptyUpdate 2 :=
  not_notifiesOnce 2 rfl rfl

/-- Even an update without levels waits for its own lock. -/
theorem notifiesOnce_fails : ¬ NotifiesOnce monitoredBook emptyUpdate 3 := by
  rintro ⟨s, hreturn, -⟩
  rw [lockedUpdate_of_callback 3 [] rfl rfl] at hreturn
  cases hreturn

end OrderbookEngine.AggregatedOrderBook
