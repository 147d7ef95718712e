import OrderbookEngine.Core.OrderBookCapacity
import OrderbookEngine.Core.PriceIndexMapRefinement

/-!
# Entries and slots

Whatever a removal does to the probe chains, the entries of the index and the slots in use
of a side stay in bijection: an update that misses its price takes a free slot and an empty
entry for it, and a removal empties the entry that it came through. So the index has no
more entries than the side has slots, and always room for one more.
-/

namespace OrderbookEngine.OrderBook

open Prog PriceIndexMap

/-- The entries of the table that are in use. -/
def usedEntries (m : Memory Cell) (side : Side) : Finset Nat :=
  (Finset.range tableSize).filter fun k => m (.entry side k .price) ≠ 0

/-- The index and the slots of a side are in bijection, and the index has room. -/
structure IndexBijective (maxLevels : Nat) (m : Memory Cell) (side : Side) : Prop where
  /-- An entry in use leads to a slot in use that stores its price. -/
  entry_slot : ∀ k ∈ usedEntries m side, ∃ i < maxLevels,
    m (.entry side k .index) = i.toUInt64 ∧ m (.level side i .price) ≠ 0 ∧
      m (.level side i .price) = m (.entry side k .price)
  index_inj : ∀ k ∈ usedEntries m side, ∀ k' ∈ usedEntries m side,
    m (.entry side k' .index) = m (.entry side k .index) → k' = k
  /-- A slot in use has one entry that leads to it. -/
  slot_entry : ∀ i < maxLevels, m (.level side i .price) ≠ 0 →
    ∃! k, k ∈ usedEntries m side ∧ m (.entry side k .index) = i.toUInt64
  empty_index : ∀ k < tableSize, m (.entry side k .price) = 0 →
    m (.entry side k .index) = sizeMax
  card_entries : (usedEntries m side).card ≤ maxLevels
  room : maxLevels < tableSize
  /-- An update that holds the lock would insert with success. -/
  inserts : ∀ price index, price ≠ 0 →
    ((PriceIndexMap.insert side price index).run (writeLock.run m).2).1 = true

/-- The links of a side, with an entry for every slot in use. -/
structure Paired (maxLevels : Nat) (m : Memory Cell) (side : Side) : Prop
    extends Linked maxLevels m side where
  entry_lt : ∀ k, m (.entry side k .price) ≠ 0 → k < tableSize
  slot_entry : ∀ i < maxLevels, m (.level side i .price) ≠ 0 →
    ∃ k, m (.entry side k .index) = i.toUInt64

variable {maxLevels : Nat} {m m' : Memory Cell} {side : Side} {u : LevelUpdate} {i k : Nat}
  {price : UInt64}

theorem mem_usedEntries :
    k ∈ usedEntries m side ↔ k < tableSize ∧ m (.entry side k .price) ≠ 0 := by
  rw [usedEntries, Finset.mem_filter, Finset.mem_range]

/-- Behind a search that fails, the room for the price is an empty entry. -/
theorem price_eq_zero_of_roomOf (hroom : roomOf m side price = some k)
    (hmiss : entryOf m side price = none) : m (.entry side k .price) = 0 := by
  have hloop : ∀ n idx, roomFrom m side price n idx = some k →
      entryFrom m side price n idx = none → m (.entry side k .price) = 0 := by
    intro n
    induction n with
    | zero => exact fun idx h => nomatch h
    | succ n ih =>
      intro idx hroom hmiss
      unfold roomFrom at hroom
      unfold entryFrom at hmiss
      by_cases hhit : m (.entry side idx .price) = price
      · rw [if_pos hhit] at hmiss
        cases hmiss
      rw [if_neg hhit] at hmiss
      by_cases hempty : m (.entry side idx .price) = 0
      · rw [if_pos (Or.inl hempty)] at hroom
        cases hroom
        exact hempty
      · rw [if_neg (not_or.mpr ⟨hempty, hhit⟩)] at hroom
        rw [if_neg hempty] at hmiss
        exact ih _ hroom hmiss
  exact hloop _ _ hroom hmiss

section Room

/-- The entry of a slot in use is in use. -/
theorem Paired.used_of_index (h : Paired maxLevels m side) (hN : maxLevels < 2 ^ 64)
    (hi : i < maxLevels) (hk : m (.entry side k .index) = i.toUInt64) :
    m (.entry side k .price) ≠ 0 := by
  intro hempty
  exact slot_ne_sizeMax hN hi (hk.symm.trans (h.entry_empty k hempty))

/-- There are no more entries in use than slots. -/
theorem Paired.card_usedEntries_le (h : Paired maxLevels m side) :
    (usedEntries m side).card ≤ maxLevels := by
  have hslot : ∀ k ∈ usedEntries m side, ∃ i < maxLevels,
      m (.entry side k .index) = i.toUInt64 := by
    intro k hk
    obtain ⟨i, hi, hindex, -⟩ := h.entry_slot k (mem_usedEntries.mp hk).2
    exact ⟨i, hi, hindex⟩
  choose! slot hlt hindex using hslot
  rw [← Finset.card_range maxLevels]
  refine Finset.card_le_card_of_injOn slot (fun k hk => Finset.mem_range.mpr (hlt k hk)) ?_
  intro k hk k' hk' hsame
  refine (h.index_inj k k' (mem_usedEntries.mp hk).2 ?_).symm
  rw [hindex k hk, hindex k' hk', hsame]

/-- An index with fewer entries than the table has room for every price. -/
theorem Paired.roomOf_isSome (h : Paired maxLevels m side) (hN : maxLevels < tableSize)
    (price : UInt64) : (roomOf m side price).isSome := by
  have hlt : (usedEntries m side).card < (Finset.range tableSize).card := by
    rw [Finset.card_range]
    exact h.card_usedEntries_le.trans_lt hN
  obtain ⟨k, hk, hunused⟩ := Finset.exists_mem_notMem_of_card_lt_card hlt
  rw [Finset.mem_range] at hk
  have hempty : m (.entry side k .price) = 0 := by
    by_contra hne
    exact hunused (mem_usedEntries.mpr ⟨hk, hne⟩)
  obtain ⟨j, hj, rfl⟩ := exists_probe_eq price hk
  exact roomFrom_isSome hj (Or.inl hempty)

theorem Paired.congr (h : Paired maxLevels m side) (hm : ∀ c, OnSide side c → m' c = m c) :
    Paired maxLevels m' side := by
  have hentry : ∀ k field, m' (.entry side k field) = m (.entry side k field) :=
    fun k field => hm _ rfl
  have hprice : ∀ i, m' (.level side i .price) = m (.level side i .price) :=
    fun i => hm _ ⟨rfl, by decide⟩
  refine ⟨h.toLinked.congr hm, ?_, ?_⟩
  · simpa only [hentry] using h.entry_lt
  · simpa only [hentry, hprice] using h.slot_entry

theorem Paired.indexBijective (h : Paired maxLevels m side) (hN : maxLevels ≤ 1000) :
    IndexBijective maxLevels m side where
  entry_slot k hk := by
    have hused := (mem_usedEntries.mp hk).2
    obtain ⟨i, hi, hindex, hprice⟩ := h.entry_slot k hused
    exact ⟨i, hi, hindex, hprice ▸ hused, hprice⟩
  index_inj k hk k' _ := h.index_inj k k' (mem_usedEntries.mp hk).2
  slot_entry i hi hprice := by
    have hN' : maxLevels < 2 ^ 64 := by omega
    obtain ⟨k, hk⟩ := h.slot_entry i hi hprice
    have hused := h.used_of_index hN' hi hk
    refine ⟨k, ⟨mem_usedEntries.mpr ⟨h.entry_lt k hused, hused⟩, hk⟩, ?_⟩
    rintro k' ⟨-, hk'⟩
    exact h.index_inj k k' hused (hk'.trans hk.symm)
  empty_index k _ := h.entry_empty k
  card_entries := h.card_usedEntries_le
  room := hN.trans_lt (by decide)
  inserts price index _ := by
    have hlocked : Paired maxLevels (writeLock.run m).2 side :=
      h.congr fun c hc => writeLock_frame c hc
    obtain ⟨k, hk⟩ := Option.isSome_iff_exists.mp
      (hlocked.roomOf_isSome (hN.trans_lt (by decide)) price)
    rw [run_insert, hk]

end Room

section Steps

/-- Storing to the slot that a price has keeps the pairs. -/
theorem Paired.overwrite (h : Paired maxLevels m u.side)
    (hslot : m (.level u.side i .price) = u.priceFixed) :
    Paired maxLevels (placed m u i) u.side := by
  refine ⟨h.toLinked.overwrite hslot, ?_, ?_⟩
  · simpa only [placed_entry] using h.entry_lt
  · intro j hj hprice
    have hsame : placed m u i (.level u.side j .price) = m (.level u.side j .price) := by
      by_cases hji : j = i
      · rw [hji, placed_price, hslot]
      · exact placed_level_of_ne hji ..
    simpa only [placed_entry] using h.slot_entry j hj (hsame ▸ hprice)

/-- Taking a free slot and an empty entry for a price pairs them. -/
theorem Paired.occupy (h : Paired maxLevels m u.side) (hN : maxLevels < tableSize)
    (hi : i < maxLevels) (hfree : m (.level u.side i .price) = 0) (hp : u.priceFixed ≠ 0)
    (hmiss : entryOf m u.side u.priceFixed = none) :
    Paired maxLevels (placed (inserted m u i) u i) u.side := by
  have hN' : maxLevels < 2 ^ 64 := hN.trans (by decide)
  obtain ⟨k₀, hroom⟩ := Option.isSome_iff_exists.mp (h.roomOf_isSome hN u.priceFixed)
  have hset : inserted m u i = setEntry m u.side k₀ u.priceFixed i.toUInt64 := by
    rw [inserted, run_insert, hroom]
  have hempty := h.entry_empty k₀ (price_eq_zero_of_roomOf hroom hmiss)
  have hother : ∀ k, k ≠ k₀ → ∀ field, placed (inserted m u i) u i (.entry u.side k field) =
      m (.entry u.side k field) := by
    intro k hk field
    rw [placed_entry, hset, setEntry_of_ne hk]
  refine ⟨(h.toLinked.occupy hN' hi hfree hp).1, fun k hk => ?_, fun j hj hprice => ?_⟩
  · by_cases hk₀ : k = k₀
    · exact hk₀ ▸ roomOf_lt hroom
    · rw [hother k hk₀] at hk
      exact h.entry_lt k hk
  · by_cases hji : j = i
    · refine ⟨k₀, ?_⟩
      rw [placed_entry, hset, setEntry_self_index, hji]
    · rw [placed_level_of_ne hji, inserted_level] at hprice
      obtain ⟨k, hk⟩ := h.slot_entry j hj hprice
      -- the entry of another slot is not the empty one
      have hk₀ : k ≠ k₀ := by
        rintro rfl
        exact slot_ne_sizeMax hN' hj (hk.symm.trans hempty)
      exact ⟨k, (hother k hk₀ .index).trans hk⟩

/-- Removing a level whose entry is reached takes away both. -/
theorem Paired.vacate (h : Paired maxLevels m side) (hN : maxLevels < 2 ^ 64)
    (hi : i < maxLevels) (hused : m (.level side i .price) ≠ 0)
    (hreached : ∀ k, m (.entry side k .index) = i.toUInt64 → entryOf m side price = some k) :
    Paired maxLevels (vacated m side price i) side := by
  obtain ⟨k₀, hk₀⟩ := h.slot_entry i hi hused
  have hother : ∀ k, k ≠ k₀ → ∀ field, vacated m side price i (.entry side k field) =
      m (.entry side k field) := by
    intro k hk
    rcases vacated_entry m side price i k with ⟨hentry, -⟩ | ⟨-, hsame⟩
    · exact absurd (Option.some.inj (hentry.symm.trans (hreached k₀ hk₀))) hk
    · exact hsame
  refine ⟨h.toLinked.vacate hN hreached, fun k hk => ?_, fun j hj hprice => ?_⟩
  · by_cases he : k = k₀
    · rw [he]
      exact h.entry_lt k₀ (h.used_of_index hN hi hk₀)
    · rw [hother k he] at hk
      exact h.entry_lt k hk
  · have hji : j ≠ i := by
      rintro rfl
      exact hprice (Function.update_self ..)
    rw [vacated_level_of_ne hji] at hprice
    obtain ⟨k, hk⟩ := h.slot_entry j hj hprice
    have he : k ≠ k₀ := by
      rintro rfl
      have hsame := congrArg UInt64.toNat (hk.symm.trans hk₀)
      rw [toNat_slot hN hj, toNat_slot hN hi] at hsame
      exact hji hsame
    exact ⟨k, (hother k he .index).trans hk⟩

/-- The tail of `storeLevel` keeps the pairs. -/
theorem Paired.stored (h : Paired maxLevels (placed m u i) u.side) (hN : maxLevels < 2 ^ 64)
    (hi : i < maxLevels) (hp : u.priceFixed ≠ 0)
    (hreached : ∀ k, placed m u i (.entry u.side k .index) = i.toUInt64 →
      entryOf (placed m u i) u.side u.priceFixed = some k) :
    Paired maxLevels (OrderBook.stored m u i) u.side := by
  unfold OrderBook.stored
  split
  · exact h.vacate hN hi (by rwa [placed_price]) hreached
  · exact h

/-- An update keeps the pairs of its side, whether it finds its price or misses it. -/
theorem Paired.placeLevel (h : Paired maxLevels m u.side) (hN : maxLevels < tableSize)
    (hp : u.priceFixed ≠ 0) : Paired maxLevels ((placeLevel maxLevels u).run m).2 u.side := by
  have hN' : maxLevels < 2 ^ 64 := hN.trans (by decide)
  rcases placeLevel_outcome hN' u m with ⟨idx, hfind, hrun⟩ | ⟨hnone, i, hi, hfree, hrun⟩ |
    ⟨-, -, hrun⟩
  · rcases h.run_find hN' u.priceFixed with
      ⟨-, k, hk, i, hi, hindex, hslot, hfound⟩ | ⟨-, hmissed⟩
    · have hidx : idx = i.toUInt64 := Option.some.inj (hfind.symm.trans hfound)
      rw [hrun, hidx, toNat_slot hN' hi]
      refine (h.overwrite hslot).stored hN' hi hp fun k' hk' => ?_
      rw [placed_entry, ← hindex] at hk'
      rw [entryOf_congr fun k => placed_entry u.side k .price, hk,
        h.index_inj k k' (h.used_of_index hN' hi hindex) hk']
    · rw [hfind] at hmissed
      cases hmissed
  · have hmiss : entryOf m u.side u.priceFixed = none := by
      rcases h.run_find hN' u.priceFixed with ⟨-, k, -, j, -, -, -, hfound⟩ | ⟨hbroken, -⟩
      · rw [hnone] at hfound
        cases hfound
      · rw [← Option.not_isSome_iff_eq_none, entryOf_isSome_iff]
        exact fun hchain => hbroken ⟨hp, hchain⟩
    rw [hrun]
    refine (h.occupy hN hi hfree hp hmiss).stored hN' hi hp ?_
    exact (h.toLinked.occupy hN' hi hfree hp).2
  · rw [hrun]
    exact h

theorem paired_construct (maxLevels : Nat) (side : Side) : Paired maxLevels construct side :=
  ⟨linked_construct maxLevels side, fun _ hk => absurd rfl hk, fun _ _ hprice => absurd rfl hprice⟩

/-- `clear` takes all pairs away. -/
theorem Paired.clear (h : Paired maxLevels m side) :
    Paired maxLevels ((clear maxLevels).run m).2 side := by
  have hprice : ∀ k, ((OrderBook.clear maxLevels).run m).2 (.entry side k .price) = 0 := by
    intro k
    apply clear_entry maxLevels .price
    by_cases hk : m (.entry side k .price) = 0
    · exact Or.inr hk
    · exact Or.inl (h.entry_lt k hk)
  have hindex : ∀ k, ((OrderBook.clear maxLevels).run m).2 (.entry side k .index) = sizeMax := by
    intro k
    apply clear_entry maxLevels .index
    by_cases hk : m (.entry side k .price) = 0
    · exact Or.inr (h.entry_empty k hk)
    · exact Or.inl (h.entry_lt k hk)
  refine ⟨⟨fun k hk => absurd (hprice k) hk, fun k _ hk => absurd (hprice k) hk,
    fun k _ => hindex k⟩, fun k hk => absurd (hprice k) hk, fun i hi hused => ?_⟩
  exact absurd (clear_level_price hi) hused

/-- Every call keeps the pairs of both sides. -/
theorem Paired.call (h : Paired maxLevels m side) (hN : maxLevels < tableSize) {c : Call}
    (hp : ∀ u, c = .update u → u.priceFixed ≠ 0) : Paired maxLevels (c.run maxLevels m) side := by
  cases c with
  | update u =>
    by_cases hside : side = u.side
    · subst hside
      refine (h.placeLevel hN (hp u rfl)).congr fun c hc => ?_
      exact run_updateLevel_onSide maxLevels u _ hc
    · exact h.congr fun c hc => run_updateLevel_other hside hc
  | clear => exact h.clear

end Steps

/-- After every sequence of calls with prices, the index and the slots of each side are in
bijection, and an insertion into the index succeeds. -/
theorem indexBijective_bookAfter (hN : maxLevels ≤ 1000) (calls : List Call)
    (hp : ∀ u, .update u ∈ calls → u.priceFixed ≠ 0) (side : Side) :
    IndexBijective maxLevels (bookAfter maxLevels calls) side := by
  have hpaired : Paired maxLevels (bookAfter maxLevels calls) side := by
    induction calls using List.reverseRecOn with
    | nil => exact paired_construct maxLevels side
    | append_singleton calls c ih =>
      rw [bookAfter_append]
      refine (ih fun u hu => hp u (List.mem_append_left _ hu)).call (hN.trans_lt (by decide)) ?_
      rintro u rfl
      exact hp u (by simp)
  exact hpaired.indexBijective hN

/-- Two bids with one hash, of which the first is removed: the update of the second misses
its entry behind the gap, and takes a second slot and a second entry. -/
theorem indexBijective_bookAfter_collision : IndexBijective 4 (bookAfter 4
    [.update ⟨.bid, 1, 5, 1, 0⟩, .update ⟨.bid, 4097, 5, 1, 0⟩, .update ⟨.bid, 1, 0, 1, 0⟩,
      .update ⟨.bid, 4097, 7, 1, 0⟩]) .bid :=
  indexBijective_bookAfter (by decide) _ (by simp) .bid

end OrderbookEngine.OrderBook
