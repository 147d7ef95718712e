import OrderbookEngine.Core.SequenceNumbers
import OrderbookEngine.Core.ZeroPrices

/-!
# The capacity of a side

An update looks for the level of its price and, when it finds none, for a free slot; a
removal does the same. A full side therefore refuses to remove a price that it does not
hold, and, behind a broken probe chain, to update one that it does.
-/

namespace OrderbookEngine.OrderBook

open Prog LastWrite

/-- The prices that a side holds. -/
def livePrices (maxLevels : Nat) (m : Memory Cell) (side : Side) : List UInt64 :=
  (liveLevels maxLevels m side).map Prod.fst

/-- What a reader of a book can observe is the same. -/
structure SameBook (std : StdChoices) (maxLevels : Nat) (m m' : Memory Cell) : Prop where
  snapshot : ∀ depth timestamp,
    ((snapshotRound std maxLevels depth timestamp).run m').1 =
      ((snapshotRound std maxLevels depth timestamp).run m).1
  spread : (getSpread.run m').1 = (getSpread.run m).1
  midPrice : (getMidPrice.run m').1 = (getMidPrice.run m).1
  sequenceNumber : m' .sequenceNumber = m .sequenceNumber

/-- An update is refused exactly when it needs a slot that its side does not have; then
it changes nothing. The removal of a price that is not there succeeds and does nothing. -/
structure CapacityHolds (std : StdChoices) (maxLevels : Nat) (m : Memory Cell)
    (u : LevelUpdate) : Prop where
  refused_iff : ((updateLevel maxLevels u).run m).1 = false ↔
    (livePrices maxLevels m u.side).toFinset.card = maxLevels ∧
      u.priceFixed ∉ livePrices maxLevels m u.side ∧ u.quantityFixed ≠ 0
  refused_same : ((updateLevel maxLevels u).run m).1 = false →
    SameBook std maxLevels m ((updateLevel maxLevels u).run m).2
  removes_nothing : u.quantityFixed = 0 → u.priceFixed ∉ livePrices maxLevels m u.side →
    ((updateLevel maxLevels u).run m).1 = true ∧
      (viewOf maxLevels ((updateLevel maxLevels u).run m).2).levels = (viewOf maxLevels m).levels

/-- An update that meets a full side finds the level of its price, or brings a new price
to a side that holds none twice. -/
def FitsFull (maxLevels : Nat) (m : Memory Cell) (u : LevelUpdate) : Prop :=
  Full maxLevels m u.side →
    (u.priceFixed ≠ 0 ∧ PriceIndexMap.ChainIntact m u.side u.priceFixed) ∨
    ((livePrices maxLevels m u.side).Nodup ∧ u.priceFixed ∉ livePrices maxLevels m u.side ∧
      u.quantityFixed ≠ 0)

/-- Every entry in use leads to the slot of its price, no two of them to one slot, and an
empty one leads nowhere. Two entries may hold one price. -/
structure Linked (maxLevels : Nat) (m : Memory Cell) (side : Side) : Prop where
  entry_slot : ∀ k, m (.entry side k .price) ≠ 0 → ∃ i < maxLevels,
    m (.entry side k .index) = i.toUInt64 ∧
      m (.level side i .price) = m (.entry side k .price)
  index_inj : ∀ k k', m (.entry side k .price) ≠ 0 →
    m (.entry side k' .index) = m (.entry side k .index) → k' = k
  entry_empty : ∀ k, m (.entry side k .price) = 0 → m (.entry side k .index) = sizeMax

variable {std : StdChoices} {maxLevels : Nat} {m m' : Memory Cell} {side : Side}
  {u : LevelUpdate} {i : Nat} {price : UInt64}

section Links

/-- The links read only the words of their side. -/
theorem Linked.congr (h : Linked maxLevels m side) (hm : ∀ c, OnSide side c → m' c = m c) :
    Linked maxLevels m' side := by
  have hentry : ∀ k field, m' (.entry side k field) = m (.entry side k field) :=
    fun k field => hm _ rfl
  have hprice : ∀ i, m' (.level side i .price) = m (.level side i .price) :=
    fun i => hm _ ⟨rfl, by decide⟩
  constructor
  · simpa only [hentry, hprice] using h.entry_slot
  · simpa only [hentry] using h.index_inj
  · simpa only [hentry] using h.entry_empty

theorem linked_construct (maxLevels : Nat) (side : Side) : Linked maxLevels construct side :=
  ⟨fun _ hk => absurd rfl hk, fun _ _ hk => absurd rfl hk, fun _ _ => rfl⟩

/-- No entry leads to a free slot. -/
theorem Linked.index_ne (h : Linked maxLevels m side) (hN : maxLevels < 2 ^ 64)
    (hi : i < maxLevels) (hfree : m (.level side i .price) = 0) (k : Nat) :
    m (.entry side k .index) ≠ i.toUInt64 := by
  intro hk
  by_cases hempty : m (.entry side k .price) = 0
  · exact slot_ne_sizeMax hN hi (hk.symm.trans (h.entry_empty k hempty))
  · obtain ⟨j, hj, hindex, hslot⟩ := h.entry_slot k hempty
    have hji := congrArg UInt64.toNat (hindex.symm.trans hk)
    rw [toNat_slot hN hj, toNat_slot hN hi] at hji
    rw [hji, hfree] at hslot
    exact hempty hslot.symm

/-- Storing to the slot that a price has keeps the links. -/
theorem Linked.overwrite (h : Linked maxLevels m u.side)
    (hslot : m (.level u.side i .price) = u.priceFixed) :
    Linked maxLevels (placed m u i) u.side := by
  have hprices : ∀ j, placed m u i (.level u.side j .price) = m (.level u.side j .price) := by
    intro j
    by_cases hj : j = i
    · rw [hj, placed_price, hslot]
    · exact placed_level_of_ne hj ..
  constructor
  · simpa only [placed_entry, hprices] using h.entry_slot
  · simpa only [placed_entry] using h.index_inj
  · simpa only [placed_entry] using h.entry_empty

/-- A slot that no entry leads to may take any price. -/
theorem Linked.of_entries {t : Memory Cell} (h : Linked maxLevels m side)
    (hfresh : ∀ k, m (.entry side k .index) ≠ i.toUInt64)
    (hentry : ∀ k field, t (.entry side k field) = m (.entry side k field))
    (hlevel : ∀ j, j ≠ i → t (.level side j .price) = m (.level side j .price)) :
    Linked maxLevels t side := by
  refine ⟨fun k hk => ?_, ?_, ?_⟩
  · rw [hentry] at hk
    obtain ⟨j, hj, hindex, hprice⟩ := h.entry_slot k hk
    have hne : j ≠ i := by
      rintro rfl
      exact hfresh k hindex
    exact ⟨j, hj, (hentry k .index).trans hindex, by rw [hlevel j hne, hprice, hentry]⟩
  · simpa only [hentry] using h.index_inj
  · simpa only [hentry] using h.entry_empty

/-- An entry may lead to a slot that holds its price and that no other leads to. -/
theorem Linked.of_setEntry {t : Memory Cell} {k₀ : Nat} (h : Linked maxLevels m side)
    (hi : i < maxLevels) (hp : price ≠ 0) (hfresh : ∀ k, m (.entry side k .index) ≠ i.toUInt64)
    (hself : t (.entry side k₀ .price) = price) (hindex : t (.entry side k₀ .index) = i.toUInt64)
    (hentry : ∀ k, k ≠ k₀ → ∀ field, t (.entry side k field) = m (.entry side k field))
    (hslot : t (.level side i .price) = price)
    (hlevel : ∀ j, j ≠ i → t (.level side j .price) = m (.level side j .price)) :
    Linked maxLevels t side := by
  refine ⟨fun k hk => ?_, fun k k' hk he => ?_, fun k hk => ?_⟩
  · by_cases hk₀ : k = k₀
    · subst hk₀
      exact ⟨i, hi, hindex, hslot.trans hself.symm⟩
    · rw [hentry k hk₀] at hk
      obtain ⟨j, hj, hleads, hprice⟩ := h.entry_slot k hk
      have hne : j ≠ i := by
        rintro rfl
        exact hfresh k hleads
      exact ⟨j, hj, (hentry k hk₀ .index).trans hleads,
        by rw [hlevel j hne, hprice, hentry k hk₀]⟩
  · by_cases hk₀ : k = k₀ <;> by_cases hk₀' : k' = k₀
    · rw [hk₀, hk₀']
    · rw [hk₀, hindex, hentry k' hk₀'] at he
      exact absurd he (hfresh k')
    · rw [hk₀', hindex, hentry k hk₀] at he
      exact absurd he.symm (hfresh k)
    · rw [hentry k hk₀] at hk he
      rw [hentry k' hk₀'] at he
      exact h.index_inj k k' hk he
  · by_cases hk₀ : k = k₀
    · rw [hk₀, hself] at hk
      exact absurd hk hp
    · rw [hentry k hk₀] at hk ⊢
      exact h.entry_empty k hk

/-- So does taking a free slot. -/
theorem Linked.occupy (h : Linked maxLevels m u.side) (hN : maxLevels < 2 ^ 64)
    (hi : i < maxLevels) (hfree : m (.level u.side i .price) = 0) (hp : u.priceFixed ≠ 0) :
    Linked maxLevels (placed (inserted m u i) u i) u.side ∧
      ∀ k, placed (inserted m u i) u i (.entry u.side k .index) = i.toUInt64 →
        PriceIndexMap.entryOf (placed (inserted m u i) u i) u.side u.priceFixed = some k := by
  have hfresh := h.index_ne hN hi hfree
  have hlevel : ∀ j, j ≠ i → placed (inserted m u i) u i (.level u.side j .price) =
      m (.level u.side j .price) := by
    intro j hj
    rw [placed_level_of_ne hj, inserted_level]
  cases hroom : PriceIndexMap.roomOf m u.side u.priceFixed with
  | none =>
    have hsame : ∀ k field, placed (inserted m u i) u i (.entry u.side k field) =
        m (.entry u.side k field) := by
      intro k field
      rw [placed_entry, inserted, PriceIndexMap.run_insert, hroom]
    refine ⟨h.of_entries hfresh hsame hlevel, fun k hk => ?_⟩
    exact absurd ((hsame k .index).symm.trans hk) (hfresh k)
  | some k₀ =>
    have hset : inserted m u i =
        PriceIndexMap.setEntry m u.side k₀ u.priceFixed i.toUInt64 := by
      rw [inserted, PriceIndexMap.run_insert, hroom]
    have hself : placed (inserted m u i) u i (.entry u.side k₀ .price) = u.priceFixed := by
      rw [placed_entry, hset, PriceIndexMap.setEntry_self_price]
    have hindex : placed (inserted m u i) u i (.entry u.side k₀ .index) = i.toUInt64 := by
      rw [placed_entry, hset, PriceIndexMap.setEntry_self_index]
    have hentry : ∀ k, k ≠ k₀ → ∀ field, placed (inserted m u i) u i (.entry u.side k field) =
        m (.entry u.side k field) := by
      intro k hk field
      rw [placed_entry, hset, PriceIndexMap.setEntry_of_ne hk]
    have hfound : PriceIndexMap.entryOf (placed (inserted m u i) u i) u.side u.priceFixed =
        some k₀ := by
      rw [PriceIndexMap.entryOf_congr fun k => placed_entry u.side k .price, hset]
      exact PriceIndexMap.entryOf_setEntry hroom _
    refine ⟨h.of_setEntry hi hp hfresh hself hindex hentry (placed_price ..) hlevel, ?_⟩
    intro k hk
    by_cases hk₀ : k = k₀
    · rw [hfound, hk₀]
    · rw [hentry k hk₀] at hk
      exact absurd hk (hfresh k)

/-- Removing a level empties the entry that is reached, and no other. -/
theorem vacated_entry (m : Memory Cell) (side : Side) (price : UInt64) (i k : Nat) :
    (PriceIndexMap.entryOf m side price = some k ∧
      vacated m side price i (.entry side k .price) = 0 ∧
        vacated m side price i (.entry side k .index) = sizeMax) ∨
    (PriceIndexMap.entryOf m side price ≠ some k ∧
      ∀ field, vacated m side price i (.entry side k field) = m (.entry side k field)) := by
  have hlevel : ∀ field, vacated m side price i (.entry side k field) =
      ((PriceIndexMap.remove side price).run m).2 (.entry side k field) :=
    fun field => Function.update_of_ne (by simp) ..
  simp only [hlevel, PriceIndexMap.run_remove]
  cases PriceIndexMap.entryOf m side price with
  | none => simp
  | some k₀ =>
    by_cases hk : k = k₀
    · simp [hk]
    · exact Or.inr ⟨by simpa using Ne.symm hk, fun field => PriceIndexMap.setEntry_of_ne hk ..⟩

/-- So does removing a level whose entry, if it has one, is reached. -/
theorem Linked.vacate (h : Linked maxLevels m side) (hN : maxLevels < 2 ^ 64)
    (hreached : ∀ k, m (.entry side k .index) = i.toUInt64 →
      PriceIndexMap.entryOf m side price = some k) :
    Linked maxLevels (vacated m side price i) side := by
  have hentry := vacated_entry m side price i
  have hkept : ∀ k, vacated m side price i (.entry side k .price) ≠ 0 →
      m (.entry side k .index) ≠ i.toUInt64 ∧
        ∀ field, vacated m side price i (.entry side k field) = m (.entry side k field) := by
    intro k hk
    rcases hentry k with ⟨-, hempty, -⟩ | ⟨hne, hsame⟩
    · exact absurd hempty hk
    · exact ⟨fun hindex => hne (hreached k hindex), hsame⟩
  refine ⟨fun k hk => ?_, fun k k' hk he => ?_, fun k hk => ?_⟩
  · obtain ⟨hne, hsame⟩ := hkept k hk
    rw [hsame] at hk
    obtain ⟨j, hj, hindex, hslot⟩ := h.entry_slot k hk
    have hji : j ≠ i := by
      rintro rfl
      exact hne hindex
    refine ⟨j, hj, (hsame .index).trans hindex, ?_⟩
    rw [vacated_level_of_ne hji, hslot, hsame]
  · obtain ⟨hne, hsame⟩ := hkept k hk
    rw [hsame] at hk he
    rcases hentry k' with ⟨-, -, hnowhere⟩ | ⟨-, hsame'⟩
    · obtain ⟨j, hj, hindex, -⟩ := h.entry_slot k hk
      exact absurd (hindex.symm.trans (he.symm.trans hnowhere)) (slot_ne_sizeMax hN hj)
    · rw [hsame'] at he
      exact h.index_inj k k' hk he
  · rcases hentry k with ⟨-, -, hnowhere⟩ | ⟨-, hsame⟩
    · exact hnowhere
    · rw [hsame] at hk ⊢
      exact h.entry_empty k hk

/-- The tail of `storeLevel` keeps the links. -/
theorem Linked.stored (h : Linked maxLevels (placed m u i) u.side) (hN : maxLevels < 2 ^ 64)
    (hreached : ∀ k, placed m u i (.entry u.side k .index) = i.toUInt64 →
      PriceIndexMap.entryOf (placed m u i) u.side u.priceFixed = some k) :
    Linked maxLevels (OrderBook.stored m u i) u.side := by
  unfold OrderBook.stored
  split
  · exact h.vacate hN hreached
  · exact h

/-- What `find` returns: the slot of its price, or nothing. -/
theorem Linked.run_find (h : Linked maxLevels m side) (hN : maxLevels < 2 ^ 64)
    (price : UInt64) :
    (price ≠ 0 ∧ ∃ k, PriceIndexMap.entryOf m side price = some k ∧ ∃ i < maxLevels,
      m (.entry side k .index) = i.toUInt64 ∧ m (.level side i .price) = price ∧
        ((PriceIndexMap.find side price).run m).1 = some i.toUInt64) ∨
    (¬ (price ≠ 0 ∧ PriceIndexMap.ChainIntact m side price) ∧
      ((PriceIndexMap.find side price).run m).1 = none) := by
  rw [← PriceIndexMap.entryOf_isSome_iff, PriceIndexMap.run_find]
  cases hk : PriceIndexMap.entryOf m side price with
  | none => exact Or.inr ⟨by simp, rfl⟩
  | some k =>
    have hstored := PriceIndexMap.price_of_entryOf hk
    by_cases hp : price = 0
    · exact Or.inr ⟨fun h => h.1 hp, by simp [h.entry_empty k (hstored.trans hp)]⟩
    · obtain ⟨i, hi, hindex, hslot⟩ := h.entry_slot k (hstored ▸ hp)
      refine Or.inl ⟨hp, k, rfl, i, hi, hindex, hslot.trans hstored, ?_⟩
      simp [hindex, slot_ne_sizeMax hN hi]

/-- Updates with prices keep the links. -/
theorem Linked.placeLevel (h : Linked maxLevels m u.side) (hN : maxLevels < 2 ^ 64)
    (hp : u.priceFixed ≠ 0) : Linked maxLevels ((placeLevel maxLevels u).run m).2 u.side := by
  rcases placeLevel_outcome hN u m with ⟨idx, hfind, hrun⟩ | ⟨-, i, hi, hfree, hrun⟩ |
    ⟨-, -, hrun⟩
  · rcases h.run_find hN u.priceFixed with ⟨-, k, hk, i, hi, hindex, hslot, hfound⟩ | ⟨-, hnone⟩
    · have hidx : idx = i.toUInt64 := Option.some.inj (hfind.symm.trans hfound)
      rw [hrun, hidx, toNat_slot hN hi]
      refine (h.overwrite hslot).stored hN fun k' hk' => ?_
      rw [placed_entry, ← hindex] at hk'
      rw [PriceIndexMap.entryOf_congr fun k => placed_entry u.side k .price, hk]
      have hused : m (.entry u.side k .price) ≠ 0 := by
        rw [PriceIndexMap.price_of_entryOf hk]
        exact hp
      rw [h.index_inj k k' hused hk']
    · rw [hfind] at hnone
      cases hnone
  · rw [hrun]
    obtain ⟨hlinked, hreached⟩ := h.occupy hN hi hfree hp
    exact hlinked.stored hN hreached
  · rw [hrun]
    exact h

/-- Every history of updates with prices leaves both sides linked. -/
theorem linked_bookAfter (hN : maxLevels < 2 ^ 64) {updates : List LevelUpdate}
    (hp : ∀ u ∈ updates, u.priceFixed ≠ 0) (side : Side) :
    Linked maxLevels (bookAfter maxLevels (updates.map .update)) side := by
  induction updates using List.reverseRecOn with
  | nil => exact linked_construct maxLevels side
  | append_singleton updates u ih =>
    rw [List.map_append, List.map_singleton, bookAfter_append]
    have hpre := ih fun v hv => hp v (List.mem_append_left _ hv)
    by_cases hside : side = u.side
    · subst hside
      refine Linked.congr (hpre.placeLevel hN (hp u (by simp))) fun c hc => ?_
      exact run_updateLevel_onSide maxLevels u _ hc
    · exact hpre.congr fun c hc => run_updateLevel_other hside hc

end Links

section Observations

/-- The sequence of the lock is not observed. -/
theorem sameBook_sequence (std : StdChoices) (maxLevels : Nat) (heven : m .sequence &&& 1 = 0) :
    SameBook std maxLevels m (Function.update m .sequence (m .sequence + 1 + 1)) := by
  have hbest : ∀ value, ((ofBestPrices value).run (Function.update m .sequence
      (m .sequence + 1 + 1))).1 = ((ofBestPrices value).run m).1 := by
    intro value
    simp only [ofBestPrices, run_bind, run_load]
    split <;> split <;> simp_all
  refine ⟨fun depth timestamp => ?_, hbest _, hbest _, Function.update_of_ne (by simp) ..⟩
  have heven' : Function.update m .sequence (m .sequence + 1 + 1) .sequence &&& 1 = 0 := by
    rw [Function.update_self]
    exact even_add_two heven
  rw [run_snapshotRound std maxLevels depth timestamp heven,
    run_snapshotRound std maxLevels depth timestamp heven']
  simp [snapshotOf, sortedLevels_sequence]

theorem mem_livePrices : price ∈ livePrices maxLevels m side ↔
    ∃ i < maxLevels, m (.level side i .price) = price ∧ price ≠ 0 := by
  simp only [livePrices, List.mem_map, mem_liveLevels]
  constructor
  · rintro ⟨_, ⟨i, hi, hlive, rfl⟩, rfl⟩
    exact ⟨i, hi, rfl, hlive⟩
  · rintro ⟨i, hi, rfl, hlive⟩
    exact ⟨_, ⟨i, hi, hlive, rfl⟩, rfl⟩

theorem full_iff_length_liveLevels :
    Full maxLevels m side ↔ (liveLevels maxLevels m side).length = maxLevels := by
  refine ⟨Full.length_liveLevels, fun hall i hi => ?_⟩
  rw [liveLevels, levelsOf, List.length_map] at hall
  have hfilter := List.length_filter_eq_length_iff.mp
    (hall.trans (List.length_range (n := maxLevels)).symm)
  exact of_decide_eq_true (hfilter i (List.mem_range.mpr hi))

/-- A side holds as many prices as it has slots when it is full and holds none twice. -/
theorem card_livePrices_eq_iff :
    (livePrices maxLevels m side).toFinset.card = maxLevels ↔
      Full maxLevels m side ∧ (livePrices maxLevels m side).Nodup := by
  have hlength : (livePrices maxLevels m side).length = (liveLevels maxLevels m side).length :=
    List.length_map ..
  have hle : (liveLevels maxLevels m side).length ≤ maxLevels := length_liveLevels_le m side
  have hcard := List.toFinset_card_le (livePrices maxLevels m side)
  constructor
  · intro h
    have hall : (liveLevels maxLevels m side).length = maxLevels := by omega
    refine ⟨full_iff_length_liveLevels.mpr hall, ?_⟩
    rw [List.card_toFinset] at h
    have hsame := (List.dedup_sublist (livePrices maxLevels m side)).eq_of_length (by omega)
    exact List.dedup_eq_self.mp hsame
  · rintro ⟨hfull, hnodup⟩
    rw [List.toFinset_card_of_nodup hnodup, hlength, hfull.length_liveLevels]

/-- Only the words of the slots in use decide what levels a book holds. -/
theorem viewOf_levels_congr
    (hprice : ∀ side i, m' (.level side i .price) = m (.level side i .price))
    (hlevel : ∀ side i, m (.level side i .price) ≠ 0 → ∀ field,
      m' (.level side i field) = m (.level side i field)) :
    (viewOf maxLevels m').levels = (viewOf maxLevels m).levels := by
  funext side
  simp only [viewOf, hprice]
  apply List.map_congr_left
  intro i hi
  have hlive := hlevel side i (of_decide_eq_true (List.mem_filter.mp hi).2)
  simp only [slotLevel, hlive]

/-- Storing to a free slot what is at once removed changes no level. -/
theorem viewOf_removed (hq : u.quantityFixed = 0) (hfree : m (.level u.side i .price) = 0) :
    (viewOf maxLevels (stored (inserted m u i) u i)).levels = (viewOf maxLevels m).levels := by
  have hother : ∀ side j, ¬ (side = u.side ∧ j = i) → ∀ field,
      stored (inserted m u i) u i (.level side j field) = m (.level side j field) := by
    intro side j hne field
    have hcell : ∀ field', Cell.level side j field ≠ .level u.side i field' := by
      intro field' he
      injection he with hside hslot
      exact hne ⟨hside, hslot⟩
    have hplaced : placed (inserted m u i) u i (.level side j field) = m (.level side j field) := by
      rw [← inserted_level m u i side j field]
      simp only [placed, Function.update_of_ne (hcell _)]
    rw [stored, if_pos hq, vacated, Function.update_of_ne (hcell _), PriceIndexMap.run_remove]
    cases PriceIndexMap.entryOf (placed (inserted m u i) u i) u.side u.priceFixed with
    | none => exact hplaced
    | some k => exact (PriceIndexMap.setEntry_level u.side k 0 sizeMax side j field).trans hplaced
  have hself : stored (inserted m u i) u i (.level u.side i .price) = 0 := by
    rw [stored, if_pos hq, vacated, Function.update_self]
  refine viewOf_levels_congr (fun side j => ?_) fun side j hlive => ?_
  · by_cases hslot : side = u.side ∧ j = i
    · rw [hslot.1, hslot.2, hself, hfree]
    · exact hother side j hslot .price
  · refine hother side j fun hslot => hlive ?_
    rw [hslot.1, hslot.2, hfree]

end Observations

section Capacity

/-- An update is refused exactly when it finds no level on a full side. -/
theorem Linked.refused_iff (h : Linked maxLevels m u.side) (hN : maxLevels < 2 ^ 64) :
    ((updateLevel maxLevels u).run m).1 = false ↔ Full maxLevels m u.side ∧
      ¬ (u.priceFixed ≠ 0 ∧ PriceIndexMap.ChainIntact m u.side u.priceFixed) := by
  rw [updateLevel_returns, placeLevel_eq_false_iff hN]
  refine and_congr_right fun _ => ?_
  rcases h.run_find hN u.priceFixed with ⟨hp, k, hk, i, -, -, -, hfound⟩ | ⟨hmiss, hnone⟩
  · rw [hfound, ← PriceIndexMap.entryOf_isSome_iff, hk]
    simp [hp]
  · exact iff_of_true hnone hmiss

/-- A price that is found is live. -/
theorem Linked.mem_livePrices_of_chainIntact (h : Linked maxLevels m side)
    (hp : price ≠ 0) (hchain : PriceIndexMap.ChainIntact m side price) :
    price ∈ livePrices maxLevels m side := by
  obtain ⟨k, hk⟩ := Option.isSome_iff_exists.mp (PriceIndexMap.entryOf_isSome_iff.mpr hchain)
  have hstored := PriceIndexMap.price_of_entryOf hk
  obtain ⟨i, hi, -, hslot⟩ := h.entry_slot k (hstored ▸ hp)
  exact mem_livePrices.mpr ⟨i, hi, hslot.trans hstored, hp⟩

/-- On linked sides, capacity holds exactly for the updates that fit a full side. -/
theorem capacityHolds_iff_of_linked (std : StdChoices) (hN : maxLevels < 2 ^ 64)
    (heven : m .sequence &&& 1 = 0) (h : Linked maxLevels m u.side) :
    CapacityHolds std maxLevels m u ↔ FitsFull maxLevels m u := by
  have hrefused := h.refused_iff hN
  constructor
  · intro hholds hfull
    by_cases hfound : u.priceFixed ≠ 0 ∧ PriceIndexMap.ChainIntact m u.side u.priceFixed
    · exact Or.inl hfound
    · obtain ⟨hcard, hrest⟩ := hholds.refused_iff.mp (hrefused.mpr ⟨hfull, hfound⟩)
      exact Or.inr ⟨(card_livePrices_eq_iff.mp hcard).2, hrest⟩
  · intro hfits
    have hmissing : u.priceFixed ∉ livePrices maxLevels m u.side →
        ¬ (u.priceFixed ≠ 0 ∧ PriceIndexMap.ChainIntact m u.side u.priceFixed) :=
      fun hnot hfound => hnot (h.mem_livePrices_of_chainIntact hfound.1 hfound.2)
    refine ⟨?_, fun hfalse => ?_, fun hq hnot => ?_⟩
    · rw [hrefused, card_livePrices_eq_iff]
      constructor
      · rintro ⟨hfull, hmiss⟩
        obtain ⟨hnodup, hrest⟩ := (hfits hfull).resolve_left hmiss
        exact ⟨⟨hfull, hnodup⟩, hrest⟩
      · rintro ⟨⟨hfull, -⟩, hnot, -⟩
        exact ⟨hfull, hmissing hnot⟩
    · rw [updateLevel_returns] at hfalse
      rw [run_updateLevel_of_false hN hfalse]
      exact sameBook_sequence std maxLevels heven
    · have hroom : ¬ Full maxLevels m u.side := by
        intro hfull
        rcases hfits hfull with hfound | ⟨-, -, hq'⟩
        · exact hmissing hnot hfound
        · exact hq' hq
      have hplaced : ((placeLevel maxLevels u).run m).1 = true := by
        rw [← updateLevel_returns]
        exact Bool.of_not_eq_false fun hfalse => hroom (hrefused.mp hfalse).1
      rcases placeLevel_outcome hN u m with ⟨idx, hfind, -⟩ | ⟨-, i, -, hfree, hrun⟩ | ⟨-, hfull, -⟩
      · rcases h.run_find hN u.priceFixed with ⟨hp, k, hk, -⟩ | ⟨-, hnone⟩
        · exact absurd ⟨hp, PriceIndexMap.entryOf_isSome_iff.mp (hk ▸ rfl)⟩ (hmissing hnot)
        · rw [hfind] at hnone
          cases hnone
      · rw [run_updateLevel, if_pos hplaced, hrun]
        refine ⟨rfl, Eq.trans ?_ (viewOf_removed hq hfree)⟩
        exact viewOf_levels_congr (fun side j => by simp [committed])
          fun side j _ field => by simp [committed]
      · exact absurd hfull hroom

end Capacity

/-- After any updates with prices, capacity holds for an update exactly when it fits a
full side. -/
theorem capacityHolds_iff_fitsFull (std : StdChoices) (hN : maxLevels < 2 ^ 64)
    (updates : List LevelUpdate) (hp : ∀ u ∈ updates, u.priceFixed ≠ 0) (u : LevelUpdate) :
    CapacityHolds std maxLevels (bookAfter maxLevels (updates.map .update)) u ↔
      FitsFull maxLevels (bookAfter maxLevels (updates.map .update)) u :=
  capacityHolds_iff_of_linked std hN (even_bookAfter ..) (linked_bookAfter hN hp u.side)

/-- A new price on a side with a free slot. -/
theorem capacityHolds_iff_fitsFull_newPrice :
    CapacityHolds .stable 2 (bookAfter 2 ([⟨.bid, 1, 5, 1, 0⟩].map .update)) ⟨.bid, 2, 5, 1, 0⟩ :=
  (capacityHolds_iff_fitsFull .stable (by decide) [⟨.bid, 1, 5, 1, 0⟩] (by decide) _).mpr
    fun hfull => absurd hfull (by decide +kernel)

/-- A side that removals have filled up: the price 4097 is behind an emptied entry. -/
def brokenChain : List LevelUpdate :=
  [⟨.bid, 1, 5, 1, 0⟩, ⟨.bid, 4097, 7, 1, 0⟩, ⟨.bid, 1, 0, 1, 0⟩, ⟨.bid, 3, 5, 1, 0⟩]

/-- A full side refuses to remove a price that it does not hold, and to update one that
it does. -/
theorem capacityHolds_fails :
    ¬ CapacityHolds .stable 1 (bookAfter 1 ([⟨.bid, 1, 5, 1, 0⟩].map .update)) ⟨.bid, 2, 0, 1, 0⟩ ∧
      ¬ CapacityHolds .stable 2 (bookAfter 2 (brokenChain.map .update)) ⟨.bid, 4097, 9, 1, 0⟩ := by
  constructor
  · intro h
    have hremoved := (h.removes_nothing rfl (by decide +kernel)).1
    revert hremoved
    decide +kernel
  · intro h
    have hrefused := h.refused_iff.mp (by decide +kernel)
    revert hrefused
    decide +kernel

end OrderbookEngine.OrderBook
