import OrderbookEngine.Core.OrderBook
import OrderbookEngine.Library.LastWrite

/-!
# The slots of an order book

The slots of a side are meant to list a map from prices to levels, and the price
index is meant to lead to them. `SideInv` says so; the lemmas follow the slots
and the index through the parts of `update_level`.
-/

namespace OrderbookEngine.OrderBook

open Prog LastWrite

/-- The words of a side that decide which levels it shows: its slots, except for
their timestamps, and its index. -/
def OnSide (side : Side) : Cell → Prop
  | .level s _ field => s = side ∧ field ≠ .timestamp
  | .entry s _ _ => s = side
  | _ => False

instance (side : Side) : DecidablePred (OnSide side)
  | .level s _ field => inferInstanceAs (Decidable (s = side ∧ field ≠ .timestamp))
  | .entry s _ _ => inferInstanceAs (Decidable (s = side))
  | .sequence | .sequenceNumber | .bestIdx _ => inferInstanceAs (Decidable False)

/-- The words that decide which levels a book shows. -/
def Tracked (c : Cell) : Prop := ∃ side, OnSide side c

theorem tracked_iff {c : Cell} : Tracked c ↔ OnSide .bid c ∨ OnSide .ask c := by
  refine ⟨fun ⟨side, h⟩ => ?_, fun h => h.elim (⟨_, ·⟩) (⟨_, ·⟩)⟩
  cases side with
  | bid => exact Or.inl h
  | ask => exact Or.inr h

instance : DecidablePred Tracked := fun _ => decidable_of_iff _ tracked_iff.symm

theorem not_tracked_sequence : ¬ Tracked .sequence := fun ⟨_, h⟩ => h

/-- What a level shows besides its price: quantity and order count. -/
abbrev LevelValue := UInt64 × UInt32

/-- The price and the value of a slot. -/
def levelAt (m : Memory Cell) (side : Side) (i : Nat) : UInt64 × LevelValue :=
  (m (.level side i .price), m (.level side i .quantity), (m (.level side i .orderCount)).toUInt32)

/-- The levels that the given slots hold. -/
def levelsOf (m : Memory Cell) (side : Side) (slots : List Nat) : List (UInt64 × LevelValue) :=
  (slots.filter fun i => m (.level side i .price) ≠ 0).map (levelAt m side)

/-- The levels that a side holds. -/
def liveLevels (maxLevels : Nat) (m : Memory Cell) (side : Side) : List (UInt64 × LevelValue) :=
  levelsOf m side (List.range maxLevels)

/-- No slot of the side is free. -/
def Full (maxLevels : Nat) (m : Memory Cell) (side : Side) : Prop :=
  ∀ i < maxLevels, m (.level side i .price) ≠ 0

/-- The slots of a side list the map, and every entry of its index leads to the
slot of its price. -/
structure SideInv (maxLevels : Nat) (m : Memory Cell) (side : Side)
    (map : LastWrite UInt64 LevelValue) : Prop where
  lists : Lists (liveLevels maxLevels m side) map
  entry_slot : ∀ k, m (.entry side k .price) ≠ 0 → ∃ i < maxLevels,
    m (.entry side k .index) = i.toUInt64 ∧
      m (.level side i .price) = m (.entry side k .price)
  entry_inj : ∀ k k', m (.entry side k .price) ≠ 0 →
    m (.entry side k' .price) = m (.entry side k .price) → k' = k
  entry_lt : ∀ k, m (.entry side k .price) ≠ 0 → k < PriceIndexMap.tableSize

/-- The memory after the four stores of an update to its slot. -/
def placed (m : Memory Cell) (u : LevelUpdate) (i : Nat) : Memory Cell :=
  Function.update (Function.update (Function.update (Function.update m
    (.level u.side i .price) u.priceFixed) (.level u.side i .quantity) u.quantityFixed)
    (.level u.side i .orderCount) u.orderCount.toUInt64) (.level u.side i .timestamp) u.timestamp

/-- A price that stands in an entry is found. -/
def Indexed (m : Memory Cell) (side : Side) (price : UInt64) : Prop :=
  ∀ k, m (.entry side k .price) = price → (PriceIndexMap.entryOf m side price).isSome

/-- The memory after the index of a new level is inserted. -/
def inserted (m : Memory Cell) (u : LevelUpdate) (i : Nat) : Memory Cell :=
  ((PriceIndexMap.insert u.side u.priceFixed i.toUInt64).run m).2

/-- The memory after a level is removed from its slot and the index. -/
def vacated (m : Memory Cell) (side : Side) (price : UInt64) (i : Nat) : Memory Cell :=
  Function.update ((PriceIndexMap.remove side price).run m).2 (.level side i .price) 0

/-- The memory after `storeLevel`. -/
def stored (m : Memory Cell) (u : LevelUpdate) (i : Nat) : Memory Cell :=
  if u.quantityFixed = 0 then vacated (placed m u i) u.side u.priceFixed i else placed m u i

/-- What an update writes: a quantity of zero deletes. -/
def LevelUpdate.value (u : LevelUpdate) : Option LevelValue :=
  if u.quantityFixed = 0 then none else some (u.quantityFixed, u.orderCount)

variable {maxLevels : Nat} {m m' : Memory Cell} {side : Side}
  {map : LastWrite UInt64 LevelValue} {u : LevelUpdate} {i : Nat}

section Levels

@[simp] theorem levelsOf_append (m : Memory Cell) (side : Side) (s t : List Nat) :
    levelsOf m side (s ++ t) = levelsOf m side s ++ levelsOf m side t := by
  simp [levelsOf]

theorem levelsOf_cons (m : Memory Cell) (side : Side) (i : Nat) (slots : List Nat) :
    levelsOf m side (i :: slots) =
      if m (.level side i .price) = 0 then levelsOf m side slots
      else levelAt m side i :: levelsOf m side slots := by
  by_cases h : m (.level side i .price) = 0 <;> simp [levelsOf, h]

/-- Only the words of the given slots decide what they hold. -/
theorem levelsOf_congr {slots : List Nat}
    (h : ∀ i ∈ slots, ∀ field, field ≠ .timestamp →
      m' (.level side i field) = m (.level side i field)) :
    levelsOf m' side slots = levelsOf m side slots := by
  induction slots with
  | nil => rfl
  | cons i slots ih =>
    have hi := h i List.mem_cons_self
    rw [levelsOf_cons, levelsOf_cons, ih fun j hj => h j (List.mem_cons_of_mem i hj)]
    simp only [levelAt, hi .price (by decide), hi .quantity (by decide),
      hi .orderCount (by decide)]

/-- The levels of a side, around those of one slot. -/
theorem liveLevels_split (hi : i < maxLevels) : ∃ before after : List Nat,
    i ∉ before ∧ i ∉ after ∧ ∀ (m : Memory Cell) (side : Side),
      liveLevels maxLevels m side =
        levelsOf m side before ++ levelsOf m side (i :: after) := by
  obtain ⟨before, after, hsplit⟩ := List.append_of_mem (List.mem_range.mpr hi)
  have hnd := List.nodup_range (n := maxLevels)
  rw [hsplit] at hnd
  obtain ⟨-, hcons, hdisj⟩ := List.nodup_append'.mp hnd
  refine ⟨before, after, fun hb => hdisj hb List.mem_cons_self, (List.nodup_cons.mp hcons).1,
    fun m side => ?_⟩
  rw [liveLevels, hsplit, levelsOf_append]

theorem mem_liveLevels {x : UInt64 × LevelValue} :
    x ∈ liveLevels maxLevels m side ↔
      ∃ i < maxLevels, m (.level side i .price) ≠ 0 ∧ levelAt m side i = x := by
  simp [liveLevels, levelsOf, and_assoc]

theorem length_liveLevels_le (m : Memory Cell) (side : Side) :
    (liveLevels maxLevels m side).length ≤ maxLevels := by
  have h := List.length_filter_le (fun i => decide (m (.level side i .price) ≠ 0))
    (List.range maxLevels)
  simpa [liveLevels, levelsOf] using h

/-- A list of a map shows no price in two slots. -/
theorem slot_inj (h : Lists (liveLevels maxLevels m side) map) {j : Nat} (hi : i < maxLevels)
    (hj : j < maxLevels) (hprice : m (.level side i .price) ≠ 0)
    (he : m (.level side j .price) = m (.level side i .price)) : j = i := by
  have hnd := h.nodup
  rw [liveLevels, levelsOf, List.map_map] at hnd
  refine List.inj_on_of_nodup_map hnd ?_ ?_ he
  · exact List.mem_filter.mpr ⟨List.mem_range.mpr hj, decide_eq_true (he ▸ hprice)⟩
  · exact List.mem_filter.mpr ⟨List.mem_range.mpr hi, decide_eq_true hprice⟩

/-- A full side holds as many levels as it has slots. -/
theorem Full.length_liveLevels (h : Full maxLevels m side) :
    (liveLevels maxLevels m side).length = maxLevels := by
  have hall : ∀ i ∈ List.range maxLevels, decide (m (.level side i .price) ≠ 0) = true :=
    fun i hi => decide_eq_true (h i (List.mem_range.mp hi))
  rw [liveLevels, levelsOf, List.length_map, List.filter_eq_self.mpr hall, List.length_range]

end Levels

section Stores

@[simp] theorem placed_entry (side : Side) (k : Nat) (field : EntryField) :
    placed m u i (.entry side k field) = m (.entry side k field) := by
  simp [placed]

theorem placed_level_of_ne {j : Nat} (h : j ≠ i) (side : Side) (field : LevelField) :
    placed m u i (.level side j field) = m (.level side j field) := by
  simp [placed, h]

@[simp] theorem placed_price : placed m u i (.level u.side i .price) = u.priceFixed := by
  simp [placed]

theorem levelAt_placed :
    levelAt (placed m u i) u.side i = (u.priceFixed, u.quantityFixed, u.orderCount) := by
  simp [levelAt, placed]

theorem vacated_level_of_ne {j : Nat} (h : j ≠ i) (price : UInt64) (field : LevelField) :
    vacated m side price i (.level side j field) = m (.level side j field) := by
  rw [vacated, Function.update_of_ne (by simp [h]), PriceIndexMap.run_remove]
  split <;> simp

theorem stored_level_of_ne {j : Nat} (h : j ≠ i) (field : LevelField) :
    stored m u i (.level u.side j field) = m (.level u.side j field) := by
  unfold stored
  split
  · rw [vacated_level_of_ne h, placed_level_of_ne h]
  · exact placed_level_of_ne h ..

theorem stored_price (hq : u.quantityFixed ≠ 0) :
    stored m u i (.level u.side i .price) = u.priceFixed := by
  rw [stored, if_neg hq, placed_price]

theorem run_storeLevel (u : LevelUpdate) (idx : UInt64) (m : Memory Cell) :
    (storeLevel u idx).run m = ((), stored m u idx.toNat) := by
  simp only [storeLevel, run_bind, run_store, stored]
  split <;> simp [vacated, placed]

/-- The search for a free slot finds one, unless the side is full. -/
theorem run_findFreeSlot (maxLevels : Nat) (side : Side) (m : Memory Cell) :
    (∃ i < maxLevels, m (.level side i .price) = 0 ∧
      (findFreeSlot maxLevels side).run m = (i.toUInt64, m)) ∨
    (Full maxLevels m side ∧ (findFreeSlot maxLevels side).run m = (sizeMax, m)) := by
  have hloop : ∀ n start, (∃ i, start ≤ i ∧ i < start + n ∧ m (.level side i .price) = 0 ∧
      (findFreeSlotLoop side n start).run m = (i.toUInt64, m)) ∨
      ((∀ i, start ≤ i → i < start + n → m (.level side i .price) ≠ 0) ∧
        (findFreeSlotLoop side n start).run m = (sizeMax, m)) := by
    intro n
    induction n with
    | zero => exact fun start => Or.inr ⟨fun i h h' => by omega, rfl⟩
    | succ n ih =>
      intro start
      by_cases hfree : m (.level side start .price) = 0
      · refine Or.inl ⟨start, le_refl start, by omega, hfree, ?_⟩
        simp [findFreeSlotLoop, hfree]
      · have hrun : (findFreeSlotLoop side (n + 1) start).run m =
            (findFreeSlotLoop side n (start + 1)).run m := by
          simp [findFreeSlotLoop, hfree]
        rw [hrun]
        rcases ih (start + 1) with ⟨i, hle, hlt, hi⟩ | ⟨hall, hnone⟩
        · exact Or.inl ⟨i, by omega, by omega, hi⟩
        · refine Or.inr ⟨fun i hle hlt => ?_, hnone⟩
          rcases Nat.eq_or_lt_of_le hle with rfl | hlt'
          · exact hfree
          · exact hall i hlt' (by omega)
  rcases hloop maxLevels 0 with ⟨i, -, hlt, hi⟩ | ⟨hall, hnone⟩
  · exact Or.inl ⟨i, by omega, hi⟩
  · exact Or.inr ⟨fun i hi => hall i (Nat.zero_le i) (by omega), hnone⟩

end Stores

section Invariant

/-- The invariant reads only the words of its side. -/
theorem SideInv.congr (h : SideInv maxLevels m side map)
    (hm : ∀ c, OnSide side c → m' c = m c) : SideInv maxLevels m' side map := by
  have hentry : ∀ k field, m' (.entry side k field) = m (.entry side k field) :=
    fun k field => hm _ rfl
  have hlevel : ∀ i field, field ≠ .timestamp →
      m' (.level side i field) = m (.level side i field) := fun i field hf => hm _ ⟨rfl, hf⟩
  have hlive : liveLevels maxLevels m' side = liveLevels maxLevels m side :=
    levelsOf_congr fun i _ field hf => hlevel i field hf
  constructor
  · rw [hlive]
    exact h.lists
  · intro k hk
    rw [hentry] at hk
    obtain ⟨i, hi, hindex, hprice⟩ := h.entry_slot k hk
    exact ⟨i, hi, (hentry k .index).trans hindex,
      (hlevel i .price (by decide)).trans (hprice.trans (hentry k .price).symm)⟩
  · intro k k'
    rw [hentry, hentry]
    exact h.entry_inj k k'
  · intro k
    rw [hentry]
    exact h.entry_lt k

/-- A slot in use holds what the map says about its price. -/
theorem SideInv.bound (h : SideInv maxLevels m side map) (hi : i < maxLevels)
    (hprice : m (.level side i .price) ≠ 0) :
    map (m (.level side i .price)) = some (levelAt m side i).2 :=
  (h.lists.mem_iff _ _).mp (mem_liveLevels.mpr ⟨i, hi, hprice, rfl⟩)

/-- No entry holds a price that the map does not bind. -/
theorem SideInv.entry_ne (h : SideInv maxLevels m side map) {price : UInt64}
    (hprice : price ≠ 0) (hnone : map price = none) (k : Nat) :
    m (.entry side k .price) ≠ price := by
  rintro rfl
  obtain ⟨i, hi, -, hslot⟩ := h.entry_slot k hprice
  have hb := h.bound hi (hslot ▸ hprice)
  rw [hslot, hnone] at hb
  cases hb

/-- An entry that is reached leads to the slot of its price. -/
theorem SideInv.slot_of_entryOf (h : SideInv maxLevels m side map) {price : UInt64}
    (hprice : price ≠ 0) {k : Nat} (hk : PriceIndexMap.entryOf m side price = some k) :
    ∃ i < maxLevels, m (.entry side k .index) = i.toUInt64 ∧
      m (.level side i .price) = price := by
  have hstored := PriceIndexMap.price_of_entryOf hk
  obtain ⟨i, hi, hindex, hslot⟩ := h.entry_slot k (hstored ▸ hprice)
  exact ⟨i, hi, hindex, hslot.trans hstored⟩

/-- A slot that is free or has the written price comes to list what is written. -/
theorem lists_of_store {price : UInt64} {value : LevelValue}
    (h : Lists (liveLevels maxLevels m side) map) (hi : i < maxLevels) (hp : price ≠ 0)
    (hslot : m (.level side i .price) = price ∨
      m (.level side i .price) = 0 ∧ map price = none)
    (hother : ∀ j, j ≠ i → ∀ field, m' (.level side j field) = m (.level side j field))
    (hself : levelAt m' side i = (price, value)) :
    Lists (liveLevels maxLevels m' side) (map.write price (some value)) := by
  obtain ⟨before, after, hbefore, hafter, hsplit⟩ := liveLevels_split hi
  have hprice : m' (.level side i .price) = price := congrArg Prod.fst hself
  have hb : levelsOf m' side before = levelsOf m side before :=
    levelsOf_congr fun j hj field _ => hother j (ne_of_mem_of_not_mem hj hbefore) field
  have ha : levelsOf m' side after = levelsOf m side after :=
    levelsOf_congr fun j hj field _ => hother j (ne_of_mem_of_not_mem hj hafter) field
  rw [hsplit, levelsOf_cons] at h
  rw [hsplit, levelsOf_cons, hb, ha, hself, hprice, if_neg hp]
  rcases hslot with hslot | ⟨hfree, hnone⟩
  · rw [hslot, if_neg hp] at h
    have hat : levelAt m side i = (price, (levelAt m side i).2) := Prod.ext hslot rfl
    rw [hat] at h
    exact h.replace value
  · rw [hfree, if_pos rfl] at h
    exact (h.cons hnone value).perm List.perm_middle

/-- Emptying the slot of a price deletes the price. -/
theorem lists_of_empty {price : UInt64} (h : Lists (liveLevels maxLevels m side) map)
    (hi : i < maxLevels) (hp : price ≠ 0) (hslot : m (.level side i .price) = price)
    (hother : ∀ j, j ≠ i → ∀ field, m' (.level side j field) = m (.level side j field))
    (hself : m' (.level side i .price) = 0) :
    Lists (liveLevels maxLevels m' side) (map.write price none) := by
  obtain ⟨before, after, hbefore, hafter, hsplit⟩ := liveLevels_split hi
  have hb : levelsOf m' side before = levelsOf m side before :=
    levelsOf_congr fun j hj field _ => hother j (ne_of_mem_of_not_mem hj hbefore) field
  have ha : levelsOf m' side after = levelsOf m side after :=
    levelsOf_congr fun j hj field _ => hother j (ne_of_mem_of_not_mem hj hafter) field
  have hat : levelAt m side i = (price, (levelAt m side i).2) := Prod.ext hslot rfl
  rw [hsplit, levelsOf_cons, hslot, if_neg hp, hat] at h
  rw [hsplit, levelsOf_cons, hb, ha, hself, if_pos rfl]
  exact h.remove

/-- Storing to the slot that a price has writes its level. -/
theorem SideInv.overwrite (h : SideInv maxLevels m u.side map) (hi : i < maxLevels)
    (hp : u.priceFixed ≠ 0) (hslot : m (.level u.side i .price) = u.priceFixed) :
    SideInv maxLevels (placed m u i) u.side
      (map.write u.priceFixed (some (u.quantityFixed, u.orderCount))) := by
  have hprices : ∀ j, placed m u i (.level u.side j .price) = m (.level u.side j .price) := by
    intro j
    by_cases hj : j = i
    · rw [hj, placed_price, hslot]
    · exact placed_level_of_ne hj ..
  refine ⟨lists_of_store h.lists hi hp (Or.inl hslot) (fun j hj field => placed_level_of_ne hj ..)
    levelAt_placed, ?_, ?_, ?_⟩
  · simpa only [placed_entry, hprices] using h.entry_slot
  · simpa only [placed_entry] using h.entry_inj
  · simpa only [placed_entry] using h.entry_lt

theorem inserted_level (m : Memory Cell) (u : LevelUpdate) (i : Nat) (side : Side) (j : Nat)
    (field : LevelField) :
    inserted m u i (.level side j field) = m (.level side j field) := by
  rw [inserted, PriceIndexMap.run_insert]
  split <;> simp

/-- An insertion changes one entry that was empty, or none. -/
theorem inserted_cases (hnew : ∀ k, m (.entry u.side k .price) ≠ u.priceFixed) :
    inserted m u i = m ∨ ∃ k < PriceIndexMap.tableSize, m (.entry u.side k .price) = 0 ∧
      inserted m u i = PriceIndexMap.setEntry m u.side k u.priceFixed i.toUInt64 ∧
      PriceIndexMap.entryOf (inserted m u i) u.side u.priceFixed = some k := by
  rw [inserted, PriceIndexMap.run_insert]
  cases hroom : PriceIndexMap.roomOf m u.side u.priceFixed with
  | none => exact Or.inl rfl
  | some k =>
    refine Or.inr ⟨k, PriceIndexMap.roomOf_lt hroom, ?_, rfl,
      PriceIndexMap.entryOf_setEntry hroom _⟩
    exact (PriceIndexMap.price_of_roomOf hroom).resolve_right (hnew k)

/-- An entry of a new price that leads to its slot joins the old ones. -/
theorem SideInv.addEntry {map' : LastWrite UInt64 LevelValue} {k₀ : Nat}
    (h : SideInv maxLevels m side map)
    (hlists : Lists (liveLevels maxLevels m' side) map')
    (hslot : ∀ k, m (.entry side k .price) ≠ 0 → ∃ j < maxLevels,
      m (.entry side k .index) = j.toUInt64 ∧
        m' (.level side j .price) = m (.entry side k .price))
    (hlt : k₀ < PriceIndexMap.tableSize)
    (hentry : ∀ k, k ≠ k₀ → ∀ field, m' (.entry side k field) = m (.entry side k field))
    (hself : ∃ i < maxLevels, m' (.entry side k₀ .index) = i.toUInt64 ∧
      m' (.level side i .price) = m' (.entry side k₀ .price))
    (hnew : ∀ k, m (.entry side k .price) ≠ m' (.entry side k₀ .price)) :
    SideInv maxLevels m' side map' := by
  refine ⟨hlists, fun k hk => ?_, fun k k' hk hk' => ?_, fun k hk => ?_⟩
  · by_cases he : k = k₀
    · exact he ▸ hself
    · rw [hentry k he] at hk ⊢
      rw [hentry k he]
      exact hslot k hk
  · by_cases he : k = k₀ <;> by_cases he' : k' = k₀
    · rw [he, he']
    · rw [he, hentry k' he'] at hk'
      exact absurd hk' (hnew k')
    · rw [he', hentry k he] at hk'
      exact absurd hk'.symm (hnew k)
    · rw [hentry k he] at hk hk'
      rw [hentry k' he'] at hk'
      exact h.entry_inj k k' hk hk'
  · by_cases he : k = k₀
    · exact he ▸ hlt
    · rw [hentry k he] at hk
      exact h.entry_lt k hk

/-- Taking a free slot for a new price writes its level. -/
theorem SideInv.occupy (h : SideInv maxLevels m u.side map) (hi : i < maxLevels)
    (hp : u.priceFixed ≠ 0) (hfree : m (.level u.side i .price) = 0)
    (hnone : map u.priceFixed = none) :
    SideInv maxLevels (placed (inserted m u i) u i) u.side
        (map.write u.priceFixed (some (u.quantityFixed, u.orderCount))) ∧
      Indexed (placed (inserted m u i) u i) u.side u.priceFixed := by
  have hnew := h.entry_ne hp hnone
  have hother : ∀ j, j ≠ i → ∀ field, placed (inserted m u i) u i (.level u.side j field) =
      m (.level u.side j field) := by
    intro j hj field
    rw [placed_level_of_ne hj, inserted_level]
  have hlists := lists_of_store h.lists hi hp (Or.inr ⟨hfree, hnone⟩) hother levelAt_placed
  -- the slot of an old entry is not the free one
  have hslot : ∀ k, m (.entry u.side k .price) ≠ 0 → ∃ j < maxLevels,
      m (.entry u.side k .index) = j.toUInt64 ∧
        placed (inserted m u i) u i (.level u.side j .price) = m (.entry u.side k .price) := by
    intro k hk
    obtain ⟨j, hj, hindex, hprice⟩ := h.entry_slot k hk
    have hne : j ≠ i := by
      rintro rfl
      exact hk (hprice.symm.trans hfree)
    exact ⟨j, hj, hindex, (hother j hne .price).trans hprice⟩
  rcases inserted_cases (i := i) hnew with hsame | ⟨k₀, hlt, hempty, hset, hfound⟩
  · have hentry : ∀ k field, placed (inserted m u i) u i (.entry u.side k field) =
        m (.entry u.side k field) := by
      intro k field
      rw [placed_entry, hsame]
    refine ⟨⟨hlists, ?_, ?_, ?_⟩, fun k hk => ?_⟩
    · simpa only [hentry] using hslot
    · simpa only [hentry] using h.entry_inj
    · simpa only [hentry] using h.entry_lt
    · rw [hentry] at hk
      exact absurd hk (hnew k)
  · have hself : placed (inserted m u i) u i (.entry u.side k₀ .price) = u.priceFixed := by
      rw [placed_entry, hset, PriceIndexMap.setEntry_self_price]
    have hindex : placed (inserted m u i) u i (.entry u.side k₀ .index) = i.toUInt64 := by
      rw [placed_entry, hset, PriceIndexMap.setEntry_self_index]
    have hentry : ∀ k, k ≠ k₀ → ∀ field, placed (inserted m u i) u i (.entry u.side k field) =
        m (.entry u.side k field) := by
      intro k hk field
      rw [placed_entry, hset, PriceIndexMap.setEntry_of_ne hk]
    refine ⟨h.addEntry hlists hslot hlt hentry ⟨i, hi, hindex, ?_⟩ ?_, fun k _ => ?_⟩
    · rw [hself, placed_price]
    · rw [hself]
      exact hnew
    · rw [PriceIndexMap.entryOf_congr fun k => placed_entry u.side k .price, hfound]
      rfl

/-- Removing the level of an indexed price deletes it. -/
theorem SideInv.vacate (h : SideInv maxLevels m side map) {price : UInt64} (hi : i < maxLevels)
    (hp : price ≠ 0) (hslot : m (.level side i .price) = price)
    (hindexed : Indexed m side price) :
    SideInv maxLevels (vacated m side price i) side (map.write price none) := by
  have hlists := lists_of_empty h.lists hi hp hslot
    (fun j hj field => vacated_level_of_ne hj price field) (Function.update_self ..)
  -- the entries that are left are the ones of other prices
  have hentry : ∀ k, vacated m side price i (.entry side k .price) ≠ 0 →
      m (.entry side k .price) ≠ price ∧
        ∀ field, vacated m side price i (.entry side k field) = m (.entry side k field) := by
    intro k
    rw [vacated, Function.update_of_ne (by simp), PriceIndexMap.run_remove]
    cases hk₀ : PriceIndexMap.entryOf m side price with
    | none =>
      refine fun _ => ⟨fun hk => ?_, fun field => Function.update_of_ne (by simp) ..⟩
      simpa [hk₀] using hindexed k hk
    | some k₀ =>
      have hstored := PriceIndexMap.price_of_entryOf hk₀
      intro hk
      have hne : k ≠ k₀ := by
        rintro rfl
        exact hk (PriceIndexMap.setEntry_self_price ..)
      refine ⟨fun hk' => hne (h.entry_inj k₀ k (hstored ▸ hp) (hk'.trans hstored.symm)),
        fun field => ?_⟩
      rw [Function.update_of_ne (by simp)]
      exact PriceIndexMap.setEntry_of_ne hne ..
  refine ⟨hlists, fun k hk => ?_, fun k k' hk hk' => ?_, fun k hk => ?_⟩
  · obtain ⟨hne, hsame⟩ := hentry k hk
    rw [hsame] at hk
    obtain ⟨j, hj, hindex, hprice⟩ := h.entry_slot k hk
    have hji : j ≠ i := by
      rintro rfl
      exact hne (hprice.symm.trans hslot)
    exact ⟨j, hj, (hsame .index).trans hindex,
      (vacated_level_of_ne hji price .price).trans (hprice.trans (hsame .price).symm)⟩
  · have hsame := (hentry k hk).2 .price
    have hsame' := (hentry k' (hk'.trans_ne hk)).2 .price
    rw [hsame] at hk hk'
    exact h.entry_inj k k' hk (hsame'.symm.trans hk')
  · have hsame := (hentry k hk).2 .price
    exact h.entry_lt k (hsame ▸ hk)

/-- The tail of `storeLevel` turns a write of the level into what the update writes. -/
theorem SideInv.stored (hi : i < maxLevels) (hp : u.priceFixed ≠ 0)
    (h : SideInv maxLevels (placed m u i) u.side
      (map.write u.priceFixed (some (u.quantityFixed, u.orderCount))))
    (hindexed : Indexed (placed m u i) u.side u.priceFixed) :
    SideInv maxLevels (stored m u i) u.side (map.write u.priceFixed u.value) := by
  unfold OrderBook.stored LevelUpdate.value
  split
  · have hv := h.vacate hi hp placed_price hindexed
    simpa only [LastWrite.write, Function.update_idem] using hv
  · exact h

end Invariant

end OrderbookEngine.OrderBook
