import OrderbookEngine.Core.BookStatistics
import OrderbookEngine.Core.OrderBookManager
import OrderbookEngine.Core.SharedBook
import OrderbookEngine.Library.RegistryLinearizability

/-!
# Concurrent calls of the manager

Calls of the manager interleave, one access of a book at a time. Its mutex guards the map of
the books and not the books: `process_update` and `clear_order_book` share it with the calls
that only read. The books are the objects of a registry.
-/

namespace OrderbookEngine.OrderBookManager

open OrderBook Prog Transition Linearizability Registry

/-- The calls that look up a book, without its symbol. -/
inductive BookCall where
  | processUpdate (c : UpdateCall)
  | getSnapshot (depth : Nat) (timestamp : UInt64)
  | getStatistics (timestamp : UInt64)
  | getSpread
  | getMidPrice
  | clearOrderBook

/-- What they return for a book: `process_update` with the calls of the callback, and a round of
`get_snapshot` without a snapshot to be repeated. -/
inductive BookResult where
  | updated (notified : List (StdString × OrderBookSnapshot))
  | snapshot (snapshot : OrderBookSnapshot)
  | statistics (statistics : OrderBookStatistics)
  | value (value : ℚ)
  | cleared
  | repeated
  deriving DecidableEq

section Programs

variable (std : StdChoices) (symbol : StdString)

/-- The calls of `update_bid` and `update_ask` of an update. -/
def applyLevels : List LevelUpdate → Prog Cell Unit
  | [] => return ()
  | u :: levels => do
    let _ ← updateLevel defaultLevels u
    applyLevels levels

/-- A round of `get_snapshot`, and what is done with the snapshot. -/
def takeSnapshot (depth : Nat) (timestamp : UInt64) (result : OrderBookSnapshot → BookResult) :
    Prog Cell BookResult := do
  match ← snapshotRound std defaultLevels depth timestamp with
  | none => return .repeated
  | some snapshot => return result snapshot

/-- The call of the callback. -/
def notify (c : UpdateCall) : Prog Cell BookResult :=
  takeSnapshot std 20 (c.clock c.levels.length) fun snapshot => .updated [(symbol,
    { snapshot with symbol := symbol, exchange := c.update.exchange })]

/-- The snapshot that `get_snapshot` returns. -/
def namedSnapshot (depth : Nat) (timestamp : UInt64) : Prog Cell BookResult :=
  takeSnapshot std depth timestamp fun snapshot => .snapshot { snapshot with symbol := symbol }

namespace BookCall

/-- What a call does on the book that it has found. -/
def prog (updateCallback : Bool) : BookCall → Prog Cell BookResult
  | processUpdate c => do
    applyLevels c.levels
    if updateCallback then notify std symbol c else return .updated []
  | getSnapshot depth timestamp => namedSnapshot std symbol depth timestamp
  | getStatistics timestamp => do
    return .statistics (← OrderBook.getStatistics defaultLevels timestamp)
  | getSpread => do return .value (← OrderBook.getSpread)
  | getMidPrice => do return .value (← OrderBook.getMidPrice)
  | clearOrderBook => do
    OrderBook.clear defaultLevels
    return .cleared

/-- A round without a snapshot is followed by another. -/
def again : BookCall → BookResult → Option (Prog Cell BookResult)
  | processUpdate c, .repeated => some (notify std symbol c)
  | getSnapshot depth timestamp, .repeated => some (namedSnapshot std symbol depth timestamp)
  | _, _ => none

/-- Whether a call only reads. -/
def reads : BookCall → Bool
  | processUpdate _ | clearOrderBook => false
  | _ => true

end BookCall

end Programs

/-- The books of a manager, by their symbols. -/
def books (std : StdChoices) (updateCallback : Bool) :
    Interface StdString Cell BookCall BookResult where
  initial := OrderBook.construct
  prog symbol b := b.prog std symbol updateCallback
  again symbol b := b.again std symbol
  reads := BookCall.reads

section Alone

variable (std : StdChoices) (manager : OrderBookManager) (symbol : StdString)

/-- `remove_order_book`. -/
def removeOrderBook : Bool × OrderBookManager :=
  match manager.orderBooks symbol with
  | none => (false, manager)
  | some _ => (true, { manager with
      orderBooks := Function.update manager.orderBooks symbol none })

/-- A book after `clear`. -/
def clearBook (maxLevels : Nat) (m : Memory Cell) : Memory Cell :=
  ((OrderBook.clear maxLevels).run m).2

/-- `clear_order_book`. -/
def clearOrderBook : Bool × OrderBookManager :=
  match manager.orderBooks symbol with
  | none => (false, manager)
  | some m => (true, { manager with
      orderBooks := Function.update manager.orderBooks symbol (some (clearBook defaultLevels m)) })

/-- `get_snapshot`. -/
def getSnapshot (depth : Nat) (timestamp : UInt64) : Option OrderBookSnapshot :=
  (manager.orderBooks symbol).bind fun m =>
    ((snapshotRound std defaultLevels depth timestamp).run m).1.map fun snapshot =>
      { snapshot with symbol := symbol }

/-- `get_statistics`. -/
def getStatistics (timestamp : UInt64) : Option OrderBookStatistics :=
  (manager.orderBooks symbol).map fun m =>
    ((OrderBook.getStatistics defaultLevels timestamp).run m).1

/-- `get_spread`. -/
def getSpread : Option ℚ := (manager.orderBooks symbol).map fun m => (OrderBook.getSpread.run m).1

/-- `get_mid_price`. -/
def getMidPrice : Option ℚ :=
  (manager.orderBooks symbol).map fun m => (OrderBook.getMidPrice.run m).1

/-- A call on its own: the manager after it, and what it returns. -/
def call : Registry.Call StdString BookCall → OrderBookManager × Res BookResult
  | .change symbol .create =>
    let (created, manager) := manager.createOrderBook symbol defaultLevels
    (manager, .changed created)
  | .change symbol .remove =>
    let (removed, manager) := manager.removeOrderBook symbol
    (manager, .changed removed)
  | .use symbol (.processUpdate c) =>
    let (returned, manager, notified) :=
      manager.processUpdate std { c.update with symbol := symbol } c.clock
    (manager, .used (if returned then some (.updated notified) else none))
  | .use symbol (.getSnapshot depth timestamp) =>
    (manager, .used ((manager.getSnapshot std symbol depth timestamp).map .snapshot))
  | .use symbol (.getStatistics timestamp) =>
    (manager, .used ((manager.getStatistics symbol timestamp).map .statistics))
  | .use symbol .getSpread => (manager, .used ((manager.getSpread symbol).map .value))
  | .use symbol .getMidPrice => (manager, .used ((manager.getMidPrice symbol).map .value))
  | .use symbol .clearOrderBook =>
    let (cleared, manager) := manager.clearOrderBook symbol
    (manager, .used (if cleared then some .cleared else none))

end Alone

/-- The words of a book that calls have made. -/
def Made (m : Memory Cell) : Prop := ∃ calls, m = bookAfter defaultLevels calls

variable {std : StdChoices} {updateCallback : Bool} {symbol : StdString} {m : Memory Cell}

section Settled

theorem Made.even (h : Made m) : m .sequence &&& 1 = 0 := by
  obtain ⟨calls, rfl⟩ := h
  exact even_bookAfter defaultLevels calls

theorem Made.foldl_applyLevel (h : Made m) (levels : List LevelUpdate) :
    Made (levels.foldl (applyLevel defaultLevels) m) := by
  obtain ⟨calls, rfl⟩ := h
  exact ⟨_, OrderBookManager.foldl_applyLevel calls levels⟩

theorem clearBook_bookAfter (maxLevels : Nat) (calls : List OrderBook.Call) :
    clearBook maxLevels (bookAfter maxLevels calls) = bookAfter maxLevels (calls ++ [.clear]) := by
  rw [bookAfter_append]
  rfl

theorem Made.clearBook (h : Made m) : Made (clearBook defaultLevels m) := by
  obtain ⟨calls, rfl⟩ := h
  exact ⟨_, clearBook_bookAfter defaultLevels calls⟩

theorem run_bind_pure {α β : Type} (p : Prog Cell α) (f : α → β) (m : Memory Cell) :
    (p >>= fun a => pure (f a)).run m = (f (p.run m).1, (p.run m).2) := run_bind ..

/-- The levels are any number here, for the kernel is not to run `clear`. -/
theorem run_clear_snd {β : Type} (maxLevels : Nat) (b : β) (m : Memory Cell) :
    ((OrderBook.clear maxLevels >>= fun _ => pure b).run m).2 = clearBook maxLevels m := by
  rw [run_bind_pure]
  rfl

theorem run_applyLevels (levels : List LevelUpdate) (m : Memory Cell) :
    (applyLevels levels).run m = ((), levels.foldl (applyLevel defaultLevels) m) := by
  induction levels generalizing m with
  | nil => rfl
  | cons u levels ih =>
    rw [applyLevels, run_bind, ih]
    rfl

/-- The first round on a book that calls have made has a snapshot. -/
theorem run_takeSnapshot (h : Made m) (depth : Nat) (timestamp : UInt64)
    (result : OrderBookSnapshot → BookResult) :
    (takeSnapshot std depth timestamp result).run m =
      (result (snapshotOf std defaultLevels depth timestamp m), m) := by
  rw [takeSnapshot, run_bind, run_snapshotRound std defaultLevels depth timestamp h.even]
  rfl

/-- The accesses of a program are loads. -/
def Loads {α : Type} (p : Prog Cell α) : Prop := p.Every (fun _ op => op = .load) fun _ => True

theorem loads_ofBestPrices (value : ℚ → ℚ → ℚ) : Loads (ofBestPrices value) := by
  refine every_load_bind rfl fun bidIdx => every_load_bind rfl fun askIdx => ?_
  split
  · trivial
  · exact every_load_bind rfl fun _ => every_load_bind rfl fun _ => trivial

/-- The step of a loop over the slots that looks at the quantity of a live level. -/
theorem loads_addQuantity {α : Type} (side : Side) (i : Nat) (add : UInt64 → α) (total : α) :
    Loads (load (.level side i .price) >>= fun price =>
      if price > 0 then load (.level side i .quantity) >>= fun quantity => pure (add quantity)
      else pure total) := by
  refine every_load_bind rfl fun price => ?_
  split
  · exact every_load_bind rfl fun _ => trivial
  · trivial

theorem loads_volumeLoop (n i : Nat) (bidVol askVol : UInt64) :
    Loads (volumeLoop n i bidVol askVol) := by
  induction n generalizing i bidVol askVol with
  | zero => trivial
  | succ n ih =>
    exact (loads_addQuantity ..).bind fun _ _ => (loads_addQuantity ..).bind fun _ _ => ih ..

theorem loads_statisticsLoop (n i : Nat) (bids asks : UInt64 × UInt32) :
    Loads (statisticsLoop n i bids asks) := by
  induction n generalizing i bids asks with
  | zero => trivial
  | succ n ih =>
    exact (loads_addQuantity ..).bind fun _ _ => (loads_addQuantity ..).bind fun _ _ => ih ..

theorem loads_getStatistics (timestamp : UInt64) :
    Loads (OrderBook.getStatistics defaultLevels timestamp) := by
  have himbalance : Loads (getBookImbalance defaultLevels) :=
    (loads_volumeLoop defaultLevels 0 0 0).bind fun _ _ => trivial
  exact (loads_ofBestPrices _).bind fun _ _ => (loads_ofBestPrices _).bind fun _ _ =>
    himbalance.bind fun _ _ => (loads_statisticsLoop defaultLevels 0 _ _).bind fun _ _ => trivial

theorem loads_takeSnapshot (depth : Nat) (timestamp : UInt64)
    (result : OrderBookSnapshot → BookResult) :
    Loads (takeSnapshot std depth timestamp result) := by
  have hround : Loads (snapshotRound std defaultLevels depth timestamp) := by
    refine every_load_bind rfl fun seq => ?_
    split
    · trivial
    · refine ((Shared.readBook_loads std defaultLevels depth timestamp).mono (fun _ _ h => h.2)
        fun _ h => h).bind fun snapshot _ => every_load_bind rfl fun now => ?_
      split <;> trivial
  refine hround.bind fun snapshot _ => ?_
  cases snapshot <;> trivial

theorem loads_prog (b : BookCall) (hb : b.reads = true) :
    Loads (b.prog std symbol updateCallback) := by
  cases b with
  | processUpdate c => cases hb
  | getSnapshot depth timestamp => exact loads_takeSnapshot ..
  | getStatistics timestamp => exact (loads_getStatistics timestamp).bind fun _ _ => trivial
  | getSpread => exact (loads_ofBestPrices _).bind fun _ _ => trivial
  | getMidPrice => exact (loads_ofBestPrices _).bind fun _ _ => trivial
  | clearOrderBook => cases hb

variable (std symbol updateCallback) in
/-- An update passes its levels to the book, and the callback gets the book that they leave. -/
theorem run_processUpdate (h : Made m) (c : UpdateCall) :
    ((BookCall.processUpdate c).prog std symbol updateCallback).run m =
      (.updated (if updateCallback then notification std { c.update with symbol := symbol }
        (c.clock c.levels.length) (c.levels.foldl (applyLevel defaultLevels) m) else []),
        c.levels.foldl (applyLevel defaultLevels) m) := by
  have hmade := h.foldl_applyLevel c.levels
  rw [BookCall.prog, run_bind, run_applyLevels]
  cases updateCallback with
  | false => rfl
  | true =>
    rw [if_pos rfl, if_pos rfl, notify, run_takeSnapshot hmade, notification,
      run_snapshotRound std defaultLevels 20 _ hmade.even]
    rfl

variable (std symbol updateCallback) in
theorem run_clearOrderBook_fst (m : Memory Cell) :
    ((BookCall.clearOrderBook.prog std symbol updateCallback).run m).1 = .cleared := by
  rw [BookCall.prog, run_bind_pure]

variable (std symbol updateCallback) in
theorem run_clearOrderBook_snd (m : Memory Cell) :
    ((BookCall.clearOrderBook.prog std symbol updateCallback).run m).2 =
      clearBook defaultLevels m := by
  rw [BookCall.prog, run_clear_snd]

/-- A call leaves a book as calls make it, and returns at once. -/
theorem run_prog (h : Made m) (b : BookCall) :
    Made ((b.prog std symbol updateCallback).run m).2 ∧
      b.again std symbol ((b.prog std symbol updateCallback).run m).1 = none := by
  cases b with
  | processUpdate c =>
    rw [run_processUpdate std updateCallback symbol h]
    exact ⟨h.foldl_applyLevel c.levels, rfl⟩
  | getSnapshot depth timestamp =>
    rw [BookCall.prog, namedSnapshot, run_takeSnapshot h]
    exact ⟨h, rfl⟩
  | getStatistics | getSpread | getMidPrice =>
    rw [run_of_reads (loads_prog _ rfl), BookCall.prog, run_bind_pure]
    exact ⟨h, rfl⟩
  | clearOrderBook =>
    rw [run_clearOrderBook_fst, run_clearOrderBook_snd]
    exact ⟨h.clearBook, rfl⟩

variable (std updateCallback) in
/-- The books are objects of a registry that calls leave settled. -/
theorem settles_books : Settles (books std updateCallback) Made where
  initial := ⟨[], rfl⟩
  keeps _ b _ h := (run_prog h b).1
  returns _ b _ h := (run_prog h b).2
  reads _ b hb := loads_prog b hb

end Settled

section Calls

/-- A manager has the books that the registry shows. -/
structure Keeps (updateCallback : Bool) (shown : StdString → Option (Memory Cell))
    (manager : OrderBookManager) : Prop where
  eq : manager = ⟨shown, updateCallback⟩
  made : ∀ symbol m, shown symbol = some m → Made m

variable {shown : StdString → Option (Memory Cell)} {manager : OrderBookManager}

theorem Keeps.update (h : Keeps updateCallback shown manager) {book : Option (Memory Cell)}
    (hbook : ∀ m, book = some m → Made m) :
    Keeps updateCallback (Function.update shown symbol book)
      { manager with orderBooks := Function.update manager.orderBooks symbol book } where
  eq := by rw [h.eq]
  made symbol' m hm := by
    by_cases he : symbol' = symbol
    · rw [he, Function.update_self] at hm
      exact hbook m hm
    · rw [Function.update_of_ne he] at hm
      exact h.made symbol' m hm

theorem Keeps.store (h : Keeps updateCallback shown manager) (hm : Made m) :
    Keeps updateCallback (Function.update shown symbol (some m))
      { manager with orderBooks := Function.update manager.orderBooks symbol (some m) } :=
  h.update fun _ he => Option.some.inj he ▸ hm

/-- A call that only reads leaves the books as they are. -/
theorem apply_of_reads (shown : StdString → Option (Memory Cell)) {b : BookCall}
    (hb : b.reads = true) : (Registry.apply (books std updateCallback) shown (.use symbol b)) =
      (shown, .used ((shown symbol).map fun m =>
        ((b.prog std symbol updateCallback).run m).1)) := by
  rw [Registry.apply]
  cases hm : shown symbol with
  | none => rfl
  | some m =>
    have hrun : (((books std updateCallback).prog symbol b).run m).2 = m :=
      run_of_reads (loads_prog b hb) m
    simp only [hrun, ← hm, Function.update_eq_self]
    rw [hm]
    rfl

/-- The calls of the manager do to its books what the calls of the registry do. -/
theorem Keeps.call (h : Keeps updateCallback shown manager)
    (c : Registry.Call StdString BookCall) :
    Keeps updateCallback (Registry.apply (books std updateCallback) shown c).1
        (manager.call std c).1 ∧
      (Registry.apply (books std updateCallback) shown c).2 = (manager.call std c).2 := by
  obtain rfl := h.eq
  cases c with
  | change symbol change =>
    cases change with
    | create =>
      simp only [OrderBookManager.call, createOrderBook, Registry.apply]
      split
      · exact ⟨h, rfl⟩
      · exact ⟨h.store ⟨[], rfl⟩, rfl⟩
    | remove =>
      simp only [OrderBookManager.call, removeOrderBook, Registry.apply]
      cases shown symbol with
      | none => exact ⟨h, rfl⟩
      | some m => exact ⟨h.update fun m hm => absurd hm.symm (Option.some_ne_none m), rfl⟩
  | use symbol b =>
    cases b with
    | processUpdate c =>
      simp only [OrderBookManager.call, processUpdate, Registry.apply]
      cases hm : shown symbol with
      | none => exact ⟨h, rfl⟩
      | some m =>
        have hrun : ((books std updateCallback).prog symbol (.processUpdate c)).run m = _ :=
          run_processUpdate std updateCallback symbol (h.made symbol m hm) c
        have hmade := (h.made symbol m hm).foldl_applyLevel c.levels
        simp only [hrun]
        exact ⟨h.store hmade, rfl⟩
    | getSnapshot depth timestamp =>
      rw [apply_of_reads shown rfl]
      refine ⟨h, ?_⟩
      simp only [OrderBookManager.call, OrderBookManager.getSnapshot]
      cases hm : shown symbol with
      | none => rfl
      | some m =>
        rw [Option.map_some, BookCall.prog, namedSnapshot, run_takeSnapshot (h.made _ _ hm),
          Option.bind_some, run_snapshotRound std defaultLevels depth timestamp
            (h.made _ _ hm).even]
        rfl
    | getStatistics timestamp =>
      rw [apply_of_reads shown rfl]
      refine ⟨h, ?_⟩
      rw [OrderBookManager.call, OrderBookManager.getStatistics, Option.map_map]
      simp only [BookCall.prog, run_bind, run_pure]
      rfl
    | getSpread =>
      rw [apply_of_reads shown rfl]
      refine ⟨h, ?_⟩
      rw [OrderBookManager.call, OrderBookManager.getSpread, Option.map_map]
      simp only [BookCall.prog, run_bind, run_pure]
      rfl
    | getMidPrice =>
      rw [apply_of_reads shown rfl]
      refine ⟨h, ?_⟩
      rw [OrderBookManager.call, OrderBookManager.getMidPrice, Option.map_map]
      simp only [BookCall.prog, run_bind, run_pure]
      rfl
    | clearOrderBook =>
      cases hm : shown symbol with
      | none =>
        simp only [OrderBookManager.call, OrderBookManager.clearOrderBook, Registry.apply, hm]
        exact ⟨h, rfl⟩
      | some m =>
        have hmade := (h.made symbol m hm).clearBook
        have hres : (((books std updateCallback).prog symbol .clearOrderBook).run m).1 = _ :=
          run_clearOrderBook_fst std updateCallback symbol m
        have hbook : (((books std updateCallback).prog symbol .clearOrderBook).run m).2 = _ :=
          run_clearOrderBook_snd std updateCallback symbol m
        simp only [OrderBookManager.call, OrderBookManager.clearOrderBook, Registry.apply, hm, hres,
          hbook]
        exact ⟨h.store hmade, rfl⟩

end Calls

section Runs

variable {ι : Type} [DecidableEq ι]

/-- A state of the manager, and of the calls of its threads. -/
abbrev SharedManager (ι : Type) := State ι StdString Cell BookCall BookResult

variable (std updateCallback)

/-- A new manager. -/
abbrev newManager (ι : Type) : SharedManager ι :=
  Registry.construct ι StdString Cell BookCall BookResult

/-- However its calls interleave, a thread that accesses a book finds it stored under its symbol
and under no other, and not destroyed; and no book is destroyed while a thread accesses any. -/
theorem bookAccess_safe {tr : List (Event ι StdString BookCall × SharedManager ι)}
    (hrun : IsRun (State.Step (books std updateCallback)) (newManager ι) tr) :
    Throughout Safe (newManager ι) tr :=
  safe_throughout _ hrun

/-- A thread takes some steps. -/
def steps (n : Nat) (thread : Bool) : List (Event Bool StdString BookCall) :=
  List.replicate n (.step thread)

/-- A book is created, and read by two threads before one of them removes it. -/
def sharedReads (symbol : StdString) : List (Event Bool StdString BookCall) :=
  .call false (.change symbol .create) :: steps 4 false ++
    (.call false (.use symbol .getSpread) :: .call true (.use symbol .getMidPrice) ::
      steps 3 false ++ steps 3 true ++ steps 3 false) ++
    (.call false (.change symbol .remove) :: steps 3 true ++ steps 4 false)

theorem bookAccess_safe_sharedReads :
    Throughout Safe (newManager Bool)
      (runOf (State.next (books .stable false)) (newManager Bool) (sharedReads (lit "BTC-USD"))) :=
  bookAccess_safe .stable false (isRun_runOf_of_enabled (by decide +kernel))

/-- In every run in which the calls on one book do not overlap, unless they only read, the calls
return what they return on their own in some order that keeps the order of calls that do not
overlap; and when all calls have returned, the books are those that this order leaves. -/
theorem linearizable_of_noOverlap
    {tr : List (Event ι StdString BookCall × SharedManager ι)}
    (hrun : IsRun (State.Step (books std updateCallback)) (newManager ι) tr)
    (hover : Guarded (NoOverlap (books std updateCallback)) (newManager ι) tr) :
    Throughout (fun s => ∃ order manager,
      Linearizes (OrderBookManager.call std) ⟨fun _ => none, updateCallback⟩ s.history order
        manager ∧ ((∀ i, s.threads i = none) → manager.orderBooks = s.view s.heap))
      (newManager ι) tr := by
  refine (linearizes_throughout (settles_books std updateCallback) hrun hover).mono
    fun s ⟨committed, order, hlin, hidle⟩ => ?_
  have hstart : Keeps updateCallback (fun _ => none) ⟨fun _ => none, updateCallback⟩ :=
    ⟨rfl, fun _ m hm => absurd hm.symm (Option.some_ne_none m)⟩
  obtain ⟨manager, hmanager, hkeeps⟩ := hlin.simulate (R := Keeps updateCallback) hstart
    fun shown manager c h => h.call c
  refine ⟨order, manager, hmanager, fun hnone => ?_⟩
  rw [← hidle hnone, hkeeps.eq]

theorem linearizable_of_noOverlap_sharedReads :
    Throughout (fun s => ∃ order manager,
      Linearizes (OrderBookManager.call .stable) ⟨fun _ => none, false⟩ s.history order manager ∧
        ((∀ i, s.threads i = none) → manager.orderBooks = s.view s.heap))
      (newManager Bool)
      (runOf (State.next (books .stable false)) (newManager Bool) (sharedReads (lit "BTC-USD"))) :=
  linearizable_of_noOverlap .stable false (isRun_runOf_of_enabled (by decide +kernel))
    (by decide +kernel)

end Runs

end OrderbookEngine.OrderBookManager
