import OrderbookEngine.Core.Types
import OrderbookEngine.Library.Program

/-!
# The price index

Each side of an order book finds the slot of a price through a hash table with
linear probing. Its operations are programs over the words of the table; run
alone, they depend on where the probe path of a price first meets the price or
an empty entry.
-/

namespace OrderbookEngine

/-- `SIZE_MAX`. -/
def sizeMax : UInt64 := 0xFFFFFFFFFFFFFFFF

/-- The words of a `PriceLevel`. -/
inductive LevelField where
  | price
  | quantity
  | orderCount
  | timestamp
  deriving DecidableEq, Repr

/-- The words of a table entry. -/
inductive EntryField where
  | price
  | index
  deriving DecidableEq, Repr

/-- The atomic words of an `OrderBook`. -/
inductive Cell where
  | sequence
  | sequenceNumber
  | bestIdx (side : Side)
  | level (side : Side) (i : Nat) (field : LevelField)
  | entry (side : Side) (k : Nat) (field : EntryField)
  deriving DecidableEq, Repr

namespace PriceIndexMap

open Prog

/-- `TABLE_SIZE`. -/
def tableSize : Nat := 4096

/-- `hash`. -/
def hash (price : UInt64) : Nat := ((price * 0x9E3779B97F4A7C15) &&& 4095).toNat

/-- The step of linear probing. -/
def nextIdx (idx : Nat) : Nat := (idx + 1) &&& (tableSize - 1)

/-- The loop of `find`, with the attempts that are left. -/
def findLoop (side : Side) (price : UInt64) : Nat → Nat → Prog Cell (Option UInt64)
  | 0, _ => return none
  | attempts + 1, idx => do
    let storedPrice ← load (.entry side idx .price)
    if storedPrice = price then
      let storedIdx ← load (.entry side idx .index)
      if storedIdx ≠ sizeMax then return some storedIdx else return none
    else if storedPrice = 0 then return none
    else findLoop side price attempts (nextIdx idx)

/-- `find`. -/
def find (side : Side) (price : UInt64) : Prog Cell (Option UInt64) :=
  findLoop side price tableSize (hash price)

/-- The loop of `insert`, with the attempts that are left. -/
def insertLoop (side : Side) (price index : UInt64) : Nat → Nat → Prog Cell Bool
  | 0, _ => return false
  | attempts + 1, idx => do
    let storedPrice ← load (.entry side idx .price)
    if storedPrice = 0 ∨ storedPrice = price then
      store (.entry side idx .price) price
      store (.entry side idx .index) index
      return true
    else insertLoop side price index attempts (nextIdx idx)

/-- `insert`. -/
def insert (side : Side) (price index : UInt64) : Prog Cell Bool :=
  insertLoop side price index tableSize (hash price)

/-- The loop of `remove`, with the attempts that are left. -/
def removeLoop (side : Side) (price : UInt64) : Nat → Nat → Prog Cell Bool
  | 0, _ => return false
  | attempts + 1, idx => do
    let storedPrice ← load (.entry side idx .price)
    if storedPrice = price then
      store (.entry side idx .index) sizeMax
      store (.entry side idx .price) 0
      return true
    else if storedPrice = 0 then return false
    else removeLoop side price attempts (nextIdx idx)

/-- `remove`. -/
def remove (side : Side) (price : UInt64) : Prog Cell Bool :=
  removeLoop side price tableSize (hash price)

/-- The loop of `clear` over the first entries. -/
def clearLoop (side : Side) : Nat → Nat → Prog Cell Unit
  | 0, _ => return ()
  | remaining + 1, i => do
    store (.entry side i .price) 0
    store (.entry side i .index) sizeMax
    clearLoop side remaining (i + 1)

/-- `clear`. -/
def clear (side : Side) : Prog Cell Unit := clearLoop side tableSize 0

/-- Where the probe path from an index meets the price before an empty entry. -/
def entryFrom (m : Memory Cell) (side : Side) (price : UInt64) : Nat → Nat → Option Nat
  | 0, _ => none
  | attempts + 1, idx =>
    if m (.entry side idx .price) = price then some idx
    else if m (.entry side idx .price) = 0 then none
    else entryFrom m side price attempts (nextIdx idx)

/-- The entry that the probe path of a price reaches. -/
def entryOf (m : Memory Cell) (side : Side) (price : UInt64) : Option Nat :=
  entryFrom m side price tableSize (hash price)

/-- The `j`-th index on the probe path of a price. -/
def probe (price : UInt64) (j : Nat) : Nat := nextIdx^[j] (hash price)

/-- The entry of the price stands on its probe path with no empty entry before it. -/
def ChainIntact (m : Memory Cell) (side : Side) (price : UInt64) : Prop :=
  ∃ j < tableSize, m (.entry side (probe price j) .price) = price ∧
    ∀ i < j, m (.entry side (probe price i) .price) ≠ 0

/-- Where the probe path from an index meets the price or an empty entry. -/
def roomFrom (m : Memory Cell) (side : Side) (price : UInt64) : Nat → Nat → Option Nat
  | 0, _ => none
  | attempts + 1, idx =>
    if m (.entry side idx .price) = 0 ∨ m (.entry side idx .price) = price then some idx
    else roomFrom m side price attempts (nextIdx idx)

/-- The entry that `insert` uses for a price. -/
def roomOf (m : Memory Cell) (side : Side) (price : UInt64) : Option Nat :=
  roomFrom m side price tableSize (hash price)

variable {m : Memory Cell} {side : Side} {price : UInt64}

theorem entryFrom_isSome_iff (n idx : Nat) :
    (entryFrom m side price n idx).isSome ↔
      ∃ j < n, m (.entry side (nextIdx^[j] idx) .price) = price ∧
        ∀ i < j, m (.entry side (nextIdx^[i] idx) .price) ≠ 0 := by
  induction n generalizing idx with
  | zero => simp [entryFrom]
  | succ n ih =>
    unfold entryFrom
    by_cases hhit : m (.entry side idx .price) = price
    · rw [if_pos hhit]
      exact iff_of_true rfl ⟨0, Nat.succ_pos n, hhit, fun i hi => absurd hi (Nat.not_lt_zero i)⟩
    · rw [if_neg hhit]
      by_cases hempty : m (.entry side idx .price) = 0
      · rw [if_pos hempty]
        apply iff_of_false (by simp)
        rintro ⟨j, -, hj, hbefore⟩
        cases j with
        | zero => exact hhit hj
        | succ j => exact hbefore 0 (Nat.succ_pos j) hempty
      · rw [if_neg hempty, ih]
        constructor
        · rintro ⟨j, hlt, hj, hbefore⟩
          refine ⟨j + 1, Nat.succ_lt_succ hlt, hj, fun i hi => ?_⟩
          cases i with
          | zero => exact hempty
          | succ i => exact hbefore i (Nat.lt_of_succ_lt_succ hi)
        · rintro ⟨j, hlt, hj, hbefore⟩
          cases j with
          | zero => exact absurd hj hhit
          | succ j =>
            exact ⟨j, Nat.lt_of_succ_lt_succ hlt, hj,
              fun i hi => hbefore (i + 1) (Nat.succ_lt_succ hi)⟩

/-- The probe path reaches the entry of a price exactly when its chain is intact. -/
theorem entryOf_isSome_iff : (entryOf m side price).isSome ↔ ChainIntact m side price :=
  entryFrom_isSome_iff tableSize (hash price)

theorem price_of_entryFrom {n idx k : Nat} (h : entryFrom m side price n idx = some k) :
    m (.entry side k .price) = price := by
  induction n generalizing idx with
  | zero => cases h
  | succ n ih =>
    unfold entryFrom at h
    split at h
    · rename_i hhit
      cases h
      exact hhit
    · split at h
      · cases h
      · exact ih h

/-- The entry that is reached holds the price. -/
theorem price_of_entryOf {k : Nat} (h : entryOf m side price = some k) :
    m (.entry side k .price) = price := price_of_entryFrom h

/-- `find` returns the index of the entry that is reached. -/
theorem run_find (side : Side) (price : UInt64) (m : Memory Cell) :
    (find side price).run m =
      ((entryOf m side price).bind fun k =>
        if m (.entry side k .index) ≠ sizeMax then some (m (.entry side k .index)) else none,
        m) := by
  have hloop : ∀ n idx, (findLoop side price n idx).run m =
      ((entryFrom m side price n idx).bind fun k =>
        if m (.entry side k .index) ≠ sizeMax then some (m (.entry side k .index)) else none,
        m) := by
    intro n
    induction n with
    | zero => exact fun idx => rfl
    | succ n ih =>
      intro idx
      simp only [findLoop, run_bind, run_load, entryFrom]
      split
      · simp only [run_bind, run_load, Option.bind_some]
        split <;> rfl
      · split
        · rfl
        · exact ih _
  exact hloop tableSize (hash price)

/-- The memory after an entry was written. -/
def setEntry (m : Memory Cell) (side : Side) (k : Nat) (price index : UInt64) : Memory Cell :=
  Function.update (Function.update m (.entry side k .price) price) (.entry side k .index) index

@[simp] theorem setEntry_level (side : Side) (k : Nat) (price index : UInt64) (s : Side) (i : Nat)
    (field : LevelField) :
    setEntry m side k price index (.level s i field) = m (.level s i field) := by
  simp [setEntry]

@[simp] theorem setEntry_self_price (side : Side) (k : Nat) (price index : UInt64) :
    setEntry m side k price index (.entry side k .price) = price := by
  simp [setEntry]

@[simp] theorem setEntry_self_index (side : Side) (k : Nat) (price index : UInt64) :
    setEntry m side k price index (.entry side k .index) = index := by
  simp [setEntry]

theorem setEntry_of_ne {k k' : Nat} (h : k' ≠ k) (side : Side) (price index : UInt64)
    (field : EntryField) :
    setEntry m side k price index (.entry side k' field) = m (.entry side k' field) := by
  simp [setEntry, h]

/-- `insert` writes the entry that it finds room in. -/
theorem run_insert (side : Side) (price index : UInt64) (m : Memory Cell) :
    (insert side price index).run m =
      match roomOf m side price with
      | some k => (true, setEntry m side k price index)
      | none => (false, m) := by
  have hloop : ∀ n idx, (insertLoop side price index n idx).run m =
      match roomFrom m side price n idx with
      | some k => (true, setEntry m side k price index)
      | none => (false, m) := by
    intro n
    induction n with
    | zero => exact fun idx => rfl
    | succ n ih =>
      intro idx
      simp only [insertLoop, run_bind, run_load, roomFrom]
      split
      · rfl
      · exact ih _
  exact hloop tableSize (hash price)

/-- `remove` empties the entry that is reached. -/
theorem run_remove (side : Side) (price : UInt64) (m : Memory Cell) :
    (remove side price).run m =
      match entryOf m side price with
      | some k => (true, setEntry m side k 0 sizeMax)
      | none => (false, m) := by
  have hloop : ∀ n idx, (removeLoop side price n idx).run m =
      match entryFrom m side price n idx with
      | some k => (true, setEntry m side k 0 sizeMax)
      | none => (false, m) := by
    intro n
    induction n with
    | zero => exact fun idx => rfl
    | succ n ih =>
      intro idx
      simp only [removeLoop, run_bind, run_load, entryFrom]
      split
      · simp only [run_bind, run_store, run_pure, setEntry]
        rw [Function.update_comm (by simp)]
      · split
        · rfl
        · exact ih _
  exact hloop tableSize (hash price)

/-- Only the prices of the entries decide what is reached. -/
theorem entryFrom_congr {m' : Memory Cell}
    (h : ∀ k, m' (.entry side k .price) = m (.entry side k .price)) (n idx : Nat) :
    entryFrom m' side price n idx = entryFrom m side price n idx := by
  induction n generalizing idx with
  | zero => rfl
  | succ n ih => simp only [entryFrom, h, ih]

theorem entryOf_congr {m' : Memory Cell}
    (h : ∀ k, m' (.entry side k .price) = m (.entry side k .price)) :
    entryOf m' side price = entryOf m side price := entryFrom_congr h tableSize (hash price)

theorem nextIdx_lt (idx : Nat) : nextIdx idx < tableSize := by
  have h := Nat.and_le_right (n := idx + 1) (m := tableSize - 1)
  simp only [nextIdx, tableSize] at *
  omega

theorem hash_lt (price : UInt64) : hash price < tableSize := by
  have h := Nat.and_le_right (n := (price * 0x9E3779B97F4A7C15).toNat) (m := 4095)
  simp only [hash, tableSize, UInt64.toNat_and]
  exact Nat.lt_succ_of_le h

/-- The entry with room lies in the table. -/
theorem roomOf_lt {k : Nat} (h : roomOf m side price = some k) : k < tableSize := by
  have hloop : ∀ n idx, idx < tableSize → roomFrom m side price n idx = some k →
      k < tableSize := by
    intro n
    induction n with
    | zero => exact fun idx _ h => nomatch h
    | succ n ih =>
      intro idx hidx h
      unfold roomFrom at h
      split at h
      · cases h
        exact hidx
      · exact ih _ (nextIdx_lt idx) h
  exact hloop tableSize (hash price) (hash_lt price) h

theorem price_of_roomFrom {n idx k : Nat} (h : roomFrom m side price n idx = some k) :
    m (.entry side k .price) = 0 ∨ m (.entry side k .price) = price := by
  induction n generalizing idx with
  | zero => cases h
  | succ n ih =>
    unfold roomFrom at h
    split at h
    · rename_i hroom
      cases h
      exact hroom
    · exact ih h

/-- The entry with room is empty or holds the price. -/
theorem price_of_roomOf {k : Nat} (h : roomOf m side price = some k) :
    m (.entry side k .price) = 0 ∨ m (.entry side k .price) = price := price_of_roomFrom h

/-- Once the price stands in the entry with room, it is reached there. -/
theorem entryFrom_setEntry {n idx k : Nat} (h : roomFrom m side price n idx = some k)
    (index : UInt64) : entryFrom (setEntry m side k price index) side price n idx = some k := by
  induction n generalizing idx with
  | zero => cases h
  | succ n ih =>
    unfold roomFrom at h
    unfold entryFrom
    split at h
    · cases h
      rw [setEntry_self_price, if_pos rfl]
    · rename_i hroom
      rw [not_or] at hroom
      have hne : idx ≠ k := by
        rintro rfl
        exact (price_of_roomFrom h).elim hroom.1 hroom.2
      rw [setEntry_of_ne hne, if_neg hroom.2, if_neg hroom.1]
      exact ih h

theorem entryOf_setEntry {k : Nat} (h : roomOf m side price = some k) (index : UInt64) :
    entryOf (setEntry m side k price index) side price = some k := entryFrom_setEntry h index

/-- The words of an empty entry. -/
def emptyWord : EntryField → UInt64
  | .price => 0
  | .index => sizeMax

/-- The loop of `clear` empties the entries that it passes. -/
theorem clearLoop_entry (s : Side) (n start : Nat) (m : Memory Cell) {k : Nat} {field : EntryField}
    (h : s = side ∧ start ≤ k ∧ k < start + n ∨ m (.entry side k field) = emptyWord field) :
    ((clearLoop s n start).run m).2 (.entry side k field) = emptyWord field := by
  induction n generalizing start m with
  | zero => exact h.resolve_left (by omega)
  | succ n ih =>
    simp only [clearLoop, run_bind]
    refine ih _ _ ?_
    by_cases he : s = side ∧ k = start
    · obtain ⟨rfl, rfl⟩ := he
      right
      cases field <;> simp [emptyWord]
    · apply h.imp (fun hin => ⟨hin.1, by grind⟩)
      intro h0
      have hne : ∀ field', Cell.entry side k field ≠ .entry s start field' := by
        rintro field' ⟨⟩
        exact he ⟨rfl, rfl⟩
      simpa [Function.update_of_ne (hne _)] using h0

end PriceIndexMap

end OrderbookEngine
