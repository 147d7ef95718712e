import OrderbookEngine.Core.OrderBookBest

/-!
# Updates with price zero

Zero marks a free slot and an empty entry of the index. An update whose price converts
to zero therefore takes an empty entry for its own: it stores to the slot that the entry
last led to, or to a free one, and reports success. Only a full side whose first empty
entry leads nowhere refuses it.
-/

namespace OrderbookEngine.OrderBook

open Prog LastWrite

/-- A level with its slot and its words. -/
structure SlotLevel where
  slot : Nat
  price : UInt64
  quantity : UInt64
  orderCount : UInt64
  timestamp : UInt64
  deriving DecidableEq, Repr

/-- The level of a slot. -/
def slotLevel (m : Memory Cell) (side : Side) (i : Nat) : SlotLevel :=
  ⟨i, m (.level side i .price), m (.level side i .quantity), m (.level side i .orderCount),
    m (.level side i .timestamp)⟩

/-- What a book holds: its levels, its cached best indices and its sequence number. -/
structure View where
  levels : Side → List SlotLevel
  bestIdx : Side → UInt64
  sequenceNumber : UInt64

/-- What a memory holds as a book. -/
def viewOf (maxLevels : Nat) (m : Memory Cell) : View where
  levels side := ((List.range maxLevels).filter fun i => m (.level side i .price) ≠ 0).map
    (slotLevel m side)
  bestIdx side := m (.bestIdx side)
  sequenceNumber := m .sequenceNumber

/-- What a sequence of updates returns, and what the book holds after each. -/
def responses (maxLevels : Nat) (m : Memory Cell) : List LevelUpdate → List (Bool × View)
  | [] => []
  | u :: later =>
    (((updateLevel maxLevels u).run m).1, viewOf maxLevels ((updateLevel maxLevels u).run m).2) ::
      responses maxLevels ((updateLevel maxLevels u).run m).2 later

/-- The update returns false, the book holds what it held, and later updates of other
prices do what they would have done without it. -/
def RejectedUnharmed (maxLevels : Nat) (m : Memory Cell) (u : LevelUpdate) : Prop :=
  ((updateLevel maxLevels u).run m).1 = false ∧
    viewOf maxLevels ((updateLevel maxLevels u).run m).2 = viewOf maxLevels m ∧
      ∀ later : List LevelUpdate, (∀ v ∈ later, v.priceFixed ≠ 0) →
        responses maxLevels ((updateLevel maxLevels u).run m).2 later =
          responses maxLevels m later

/-- The first empty entry that the probe path of zero meets leads to no slot. -/
def LeadsNowhere (m : Memory Cell) (side : Side) : Prop :=
  ∀ k, PriceIndexMap.entryOf m side 0 = some k → m (.entry side k .index) = sizeMax

instance (m : Memory Cell) (side : Side) : Decidable (LeadsNowhere m side) :=
  decidable_of_iff (∀ k ∈ PriceIndexMap.entryOf m side 0, m (.entry side k .index) = sizeMax)
    Iff.rfl

instance (maxLevels : Nat) (m : Memory Cell) (side : Side) : Decidable (Full maxLevels m side) :=
  inferInstanceAs (Decidable (∀ i < maxLevels, m (.level side i .price) ≠ 0))

variable {maxLevels : Nat} {m : Memory Cell} {u : LevelUpdate}

section Sequence

/-- What a book holds does not depend on the sequence of its lock. -/
@[simp] theorem viewOf_sequence (maxLevels : Nat) (m : Memory Cell) (value : UInt64) :
    viewOf maxLevels (Function.update m .sequence value) = viewOf maxLevels m := by
  have hlevel : ∀ side, slotLevel (Function.update m .sequence value) side = slotLevel m side := by
    intro side
    funext i
    simp [slotLevel]
  simp [viewOf, hlevel]

/-- Nor does what an update does to the rest of the book. -/
theorem run_updateLevel_update (maxLevels : Nat) (u : LevelUpdate) (m : Memory Cell)
    (value : UInt64) : (updateLevel maxLevels u).run (Function.update m .sequence value) =
      (((updateLevel maxLevels u).run m).1, Function.update ((updateLevel maxLevels u).run m).2
        .sequence (value + 1 + 1)) := by
  have hbest : bestIndex maxLevels (Function.update ((placeLevel maxLevels u).run m).2
      .sequence value) u.side = bestIndex maxLevels ((placeLevel maxLevels u).run m).2 u.side :=
    bestIndex_congr fun i => Function.update_of_ne (by simp) ..
  rw [run_updateLevel, run_updateLevel, (placeLevel_avoids_sequence maxLevels u).run_update]
  cases ((placeLevel maxLevels u).run m).1 with
  | false => simp [Function.update_idem]
  | true =>
    refine Prod.ext rfl (funext fun c => ?_)
    simp only [if_true, committed, hbest]
    cases c <;> simp [Function.update_apply]

/-- Books that differ in the sequence of their locks respond alike. -/
theorem responses_sequence (maxLevels : Nat) (later : List LevelUpdate) (m : Memory Cell)
    (value : UInt64) : responses maxLevels (Function.update m .sequence value) later =
      responses maxLevels m later := by
  induction later generalizing m value with
  | nil => rfl
  | cons v later ih =>
    rw [responses, responses, run_updateLevel_update, viewOf_sequence, ih]

end Sequence

section Refusal

/-- An update that is refused does no harm. -/
theorem rejectedUnharmed_of_false (hN : maxLevels < 2 ^ 64)
    (h : ((placeLevel maxLevels u).run m).1 = false) : RejectedUnharmed maxLevels m u := by
  rw [RejectedUnharmed, run_updateLevel_of_false hN h]
  refine ⟨rfl, viewOf_sequence .., fun later _ => responses_sequence ..⟩

/-- For zero, `find` returns what the first empty entry leads to. -/
theorem find_zero_eq_none_iff (m : Memory Cell) (side : Side) :
    ((PriceIndexMap.find side 0).run m).1 = none ↔ LeadsNowhere m side := by
  rw [PriceIndexMap.run_find, LeadsNowhere]
  cases PriceIndexMap.entryOf m side 0 with
  | none => simp
  | some k => simp

/-- An update is refused exactly when its price is not found and its side is full. -/
theorem placeLevel_eq_false_iff (hN : maxLevels < 2 ^ 64) (u : LevelUpdate) (m : Memory Cell) :
    ((placeLevel maxLevels u).run m).1 = false ↔
      Full maxLevels m u.side ∧
        ((PriceIndexMap.find u.side u.priceFixed).run m).1 = none := by
  rcases placeLevel_outcome hN u m with ⟨idx, hfind, hrun⟩ | ⟨hfind, i, hi, hfree, hrun⟩ |
    ⟨hfind, hfull, hrun⟩
  · simp [hrun, hfind]
  · have hnot : ¬ Full maxLevels m u.side := fun hfull => hfull i hi hfree
    simp [hrun, hnot]
  · simp [hrun, hfind, hfull]

end Refusal

/-- After any calls, an update with price zero is rejected and does no harm exactly when
its side is full and the first empty entry of the index leads to no slot. -/
theorem rejectedUnharmed_iff (hN : maxLevels < 2 ^ 64) (calls : List Call) (u : LevelUpdate)
    (hu : u.priceFixed = 0) : RejectedUnharmed maxLevels (bookAfter maxLevels calls) u ↔
      Full maxLevels (bookAfter maxLevels calls) u.side ∧
        LeadsNowhere (bookAfter maxLevels calls) u.side := by
  have hfalse := placeLevel_eq_false_iff hN u (bookAfter maxLevels calls)
  rw [hu, find_zero_eq_none_iff] at hfalse
  rw [← hfalse]
  constructor
  · rintro ⟨hreturned, -⟩
    rwa [updateLevel_returns] at hreturned
  · exact rejectedUnharmed_of_false hN

/-- A side with one slot that is taken refuses the price. -/
theorem rejectedUnharmed_iff_oneBid :
    RejectedUnharmed 1 (bookAfter 1 [.update ⟨.bid, 1, 5, 1, 0⟩]) ⟨.bid, 0, 7, 1, 0⟩ :=
  (rejectedUnharmed_iff (by decide) _ _ rfl).mpr (by decide +kernel)

/-- A bid of zero that takes the slot of the bid after it, and the zero bid to follow. -/
def zeroThenBid : List Call := [.update ⟨.bid, 0, 5, 1, 0⟩, .update ⟨.bid, 1, 5, 1, 0⟩]

/-- The second zero bid destroys the level of the bid between, and reports success. -/
theorem rejectedUnharmed_fails :
    ¬ ∀ (maxLevels : Nat) (calls : List Call) (u : LevelUpdate), maxLevels < 2 ^ 64 →
      u.priceFixed = 0 → RejectedUnharmed maxLevels (bookAfter maxLevels calls) u := by
  intro h
  obtain ⟨-, hview, -⟩ := h 2 zeroThenBid ⟨.bid, 0, 7, 1, 0⟩ (by decide) rfl
  have hlevels := congrFun (congrArg View.levels hview) .bid
  revert hlevels
  decide +kernel

end OrderbookEngine.OrderBook
