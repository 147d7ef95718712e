import OrderbookEngine.Core.OrderBookSlots

/-!
# Updates of an order book

What `update_level` and `clear`, run alone, do to the slots and the index of a
side. An update that finds the level of its price keeps the invariant; one that
misses it leaves slots that do not list what was written.
-/

namespace OrderbookEngine.OrderBook

open Prog LastWrite

/-- An update finds the level of its price, or the price has none, or the side is
full and the level already holds what the update writes. -/
def Finds (maxLevels : Nat) (m : Memory Cell) (map : LastWrite UInt64 LevelValue)
    (u : LevelUpdate) : Prop :=
  PriceIndexMap.ChainIntact m u.side u.priceFixed ∨ map u.priceFixed = none ∨
    Full maxLevels m u.side ∧ map u.priceFixed = u.value

variable {maxLevels : Nat} {m m' : Memory Cell} {side : Side}
  {map : LastWrite UInt64 LevelValue} {u : LevelUpdate} {i : Nat}

section Accesses

/-- The words of the slots and the index of a side. -/
def OfSide (side : Side) : Cell → Prop
  | .level s _ _ => s = side
  | .entry s _ _ => s = side
  | _ => False

theorem OnSide.ofSide {c : Cell} (h : OnSide side c) : OfSide side c := by
  cases c with
  | level s i field => exact h.1
  | entry s k field => exact h
  | _ => exact h

/-- An access to the slots or the index of a side that loads no timestamp. -/
def StaysOn (side : Side) (c : Cell) (op : Op) : Prop :=
  OfSide side c ∧ (op = .load → OnSide side c)

theorem find_staysOn (side : Side) (price : UInt64) :
    (PriceIndexMap.find side price).Every (fun c op => OnSide side c ∧ op = .load)
      fun _ => True := by
  have hloop : ∀ n idx, (PriceIndexMap.findLoop side price n idx).Every
      (fun c op => OnSide side c ∧ op = .load) fun _ => True := by
    intro n
    induction n with
    | zero => exact fun idx => trivial
    | succ n ih =>
      intro idx
      apply every_load_bind ⟨rfl, rfl⟩
      intro storedPrice
      split
      · apply every_load_bind ⟨rfl, rfl⟩
        intro storedIdx
        split <;> trivial
      · split
        · trivial
        · exact ih _
  exact hloop _ _

theorem insert_staysOn (side : Side) (price index : UInt64) :
    (PriceIndexMap.insert side price index).Every (StaysOn side) fun _ => True := by
  have hloop : ∀ n idx, (PriceIndexMap.insertLoop side price index n idx).Every
      (StaysOn side) fun _ => True := by
    intro n
    induction n with
    | zero => exact fun idx => trivial
    | succ n ih =>
      intro idx
      apply every_load_bind ⟨rfl, fun _ => rfl⟩
      intro storedPrice
      split
      · exact every_store_bind ⟨rfl, nofun⟩ (every_store_bind ⟨rfl, nofun⟩ trivial)
      · exact ih _
  exact hloop _ _

theorem remove_staysOn (side : Side) (price : UInt64) :
    (PriceIndexMap.remove side price).Every (StaysOn side) fun _ => True := by
  have hloop : ∀ n idx, (PriceIndexMap.removeLoop side price n idx).Every
      (StaysOn side) fun _ => True := by
    intro n
    induction n with
    | zero => exact fun idx => trivial
    | succ n ih =>
      intro idx
      apply every_load_bind ⟨rfl, fun _ => rfl⟩
      intro storedPrice
      split
      · exact every_store_bind ⟨rfl, nofun⟩ (every_store_bind ⟨rfl, nofun⟩ trivial)
      · split
        · trivial
        · exact ih _
  exact hloop _ _

theorem findFreeSlot_staysOn (maxLevels : Nat) (side : Side) :
    (findFreeSlot maxLevels side).Every (fun c op => OnSide side c ∧ op = .load)
      fun _ => True := by
  have hloop : ∀ n start, (findFreeSlotLoop side n start).Every
      (fun c op => OnSide side c ∧ op = .load) fun _ => True := by
    intro n
    induction n with
    | zero => exact fun start => trivial
    | succ n ih =>
      intro start
      apply every_load_bind ⟨⟨rfl, by decide⟩, rfl⟩
      intro price
      split
      · trivial
      · exact ih _
  exact hloop _ _

theorem storeLevel_staysOn (u : LevelUpdate) (idx : UInt64) :
    (storeLevel u idx).Every (StaysOn u.side) fun _ => True := by
  refine every_store_bind ⟨rfl, nofun⟩ (every_store_bind ⟨rfl, nofun⟩
    (every_store_bind ⟨rfl, nofun⟩ (every_store_bind ⟨rfl, nofun⟩ ?_)))
  split
  · exact (remove_staysOn ..).bind fun _ _ => every_store ⟨rfl, nofun⟩
  · trivial

theorem findSlot_staysOn (maxLevels : Nat) (u : LevelUpdate) :
    (findSlot maxLevels u).Every (StaysOn u.side) fun _ => True := by
  have hload : ∀ c op, OnSide u.side c ∧ op = .load → StaysOn u.side c op :=
    fun _ _ h => ⟨h.1.ofSide, fun _ => h.1⟩
  apply ((find_staysOn ..).mono hload fun _ h => h).bind
  intro found _
  cases found with
  | some idx => trivial
  | none =>
    apply ((findFreeSlot_staysOn ..).mono hload fun _ h => h).bind
    intro idx _
    split
    · trivial
    · exact (insert_staysOn ..).bind fun _ _ => trivial

/-- `placeLevel` accesses only the slots and the index of its side. -/
theorem placeLevel_staysOn (maxLevels : Nat) (u : LevelUpdate) :
    (placeLevel maxLevels u).Every (StaysOn u.side) fun _ => True := by
  apply (findSlot_staysOn maxLevels u).bind
  intro slot _
  cases slot with
  | none => trivial
  | some idx => exact (storeLevel_staysOn u idx).bind fun _ _ => trivial

theorem bestLevelLoop_loads (side : Side) (n i : Nat) (bestPrice bestIndex : UInt64) :
    (bestLevelLoop side n i bestPrice bestIndex).Every
      (fun c op => OnSide side c ∧ op = .load) fun _ => True := by
  induction n generalizing i bestPrice bestIndex with
  | zero => trivial
  | succ n ih =>
    apply every_load_bind ⟨⟨rfl, by decide⟩, rfl⟩
    intro price
    split <;> exact ih ..

/-- `finishUpdate` stores to no slot and to no index, and returns what it is given. -/
theorem finishUpdate_frame (maxLevels : Nat) (side : Side) (b : Bool) :
    (finishUpdate maxLevels side b).Every (fun c op => Tracked c → op = .load)
      fun r => r = b := by
  cases b with
  | false =>
    rw [finishUpdate, if_neg (by decide)]
    exact every_fetchAdd_bind (fun h => absurd h not_tracked_sequence) rfl
  | true =>
    have hbest : (updateBestLevel maxLevels side).Every (fun c op => Tracked c → op = .load)
        fun _ => True := by
      refine Every.bind (Q := fun _ => True) ?_ fun bestIndex _ =>
        every_store fun ⟨_, h⟩ => h.elim
      exact (bestLevelLoop_loads ..).mono (fun _ _ h _ => h.2) fun _ h => h
    rw [finishUpdate, if_pos rfl]
    exact hbest.bind fun _ _ => every_fetchAdd_bind (fun ⟨_, h⟩ => h.elim)
      (every_fetchAdd_bind (fun h => absurd h not_tracked_sequence) rfl)

end Accesses

section PlaceLevel

theorem toNat_slot (hN : maxLevels < 2 ^ 64) (hi : i < maxLevels) :
    i.toUInt64.toNat = i :=
  UInt64.toNat_ofNat_of_lt' (hi.trans hN)

theorem slot_ne_sizeMax (hN : maxLevels < 2 ^ 64) (hi : i < maxLevels) :
    i.toUInt64 ≠ sizeMax := by
  intro he
  have h := congrArg UInt64.toNat he
  rw [toNat_slot hN hi] at h
  have hmax : sizeMax.toNat = 2 ^ 64 - 1 := rfl
  omega

/-- What `placeLevel` does with any index: write to the slot that it finds, take a free
slot, or give up on a full side. -/
theorem placeLevel_outcome (hN : maxLevels < 2 ^ 64) (u : LevelUpdate) (m : Memory Cell) :
    (∃ idx, ((PriceIndexMap.find u.side u.priceFixed).run m).1 = some idx ∧
      (placeLevel maxLevels u).run m = (true, stored m u idx.toNat)) ∨
    (((PriceIndexMap.find u.side u.priceFixed).run m).1 = none ∧ ∃ i < maxLevels,
      m (.level u.side i .price) = 0 ∧
        (placeLevel maxLevels u).run m = (true, stored (inserted m u i) u i)) ∨
    (((PriceIndexMap.find u.side u.priceFixed).run m).1 = none ∧ Full maxLevels m u.side ∧
      (placeLevel maxLevels u).run m = (false, m)) := by
  have hmemory : ((PriceIndexMap.find u.side u.priceFixed).run m).2 = m := by
    rw [PriceIndexMap.run_find]
  simp only [placeLevel, findSlot, run_bind, hmemory]
  cases ((PriceIndexMap.find u.side u.priceFixed).run m).1 with
  | some idx => exact Or.inl ⟨idx, rfl, by simp [run_storeLevel]⟩
  | none =>
    rcases run_findFreeSlot maxLevels u.side m with ⟨i, hi, hfree, hrun⟩ | ⟨hfull, hrun⟩
    · refine Or.inr (Or.inl ⟨rfl, i, hi, hfree, ?_⟩)
      simp [hrun, slot_ne_sizeMax hN hi, run_storeLevel, toNat_slot hN hi, inserted]
    · exact Or.inr (Or.inr ⟨rfl, hfull, by simp [hrun]⟩)

/-- With entries that lead to slots, `find` returns what the reached entry holds. -/
theorem SideInv.run_find (h : SideInv maxLevels m side map) (hN : maxLevels < 2 ^ 64)
    {price : UInt64} (hp : price ≠ 0) : ((PriceIndexMap.find side price).run m).1 =
      (PriceIndexMap.entryOf m side price).map fun k => m (.entry side k .index) := by
  rw [PriceIndexMap.run_find]
  cases hk : PriceIndexMap.entryOf m side price with
  | none => rfl
  | some k =>
    obtain ⟨i, hi, hindex, -⟩ := h.slot_of_entryOf hp hk
    simp [hindex, slot_ne_sizeMax hN hi]

/-- What `placeLevel` can do: write to the slot of its price, take a free slot, or
give up on a full side. -/
theorem placeLevel_cases (h : SideInv maxLevels m u.side map) (hN : maxLevels < 2 ^ 64)
    (hp : u.priceFixed ≠ 0) :
    ((PriceIndexMap.entryOf m u.side u.priceFixed).isSome ∧ ∃ i < maxLevels,
      m (.level u.side i .price) = u.priceFixed ∧
        (placeLevel maxLevels u).run m = (true, stored m u i)) ∨
    (PriceIndexMap.entryOf m u.side u.priceFixed = none ∧ ∃ i < maxLevels,
      m (.level u.side i .price) = 0 ∧
        (placeLevel maxLevels u).run m = (true, stored (inserted m u i) u i)) ∨
    (PriceIndexMap.entryOf m u.side u.priceFixed = none ∧ Full maxLevels m u.side ∧
      (placeLevel maxLevels u).run m = (false, m)) := by
  have houtcome := placeLevel_outcome hN u m
  rw [h.run_find hN hp, Option.map_eq_none_iff] at houtcome
  rcases houtcome with ⟨idx, hfind, hrun⟩ | ⟨hmiss, hfree⟩ | ⟨hmiss, hfull⟩
  · obtain ⟨k, hk, rfl⟩ := Option.map_eq_some_iff.mp hfind
    obtain ⟨i, hi, hindex, hslot⟩ := h.slot_of_entryOf hp hk
    rw [hindex, toNat_slot hN hi] at hrun
    exact Or.inl ⟨by rw [hk]; rfl, i, hi, hslot, hrun⟩
  · exact Or.inr (Or.inl ⟨hmiss, hfree⟩)
  · exact Or.inr (Or.inr ⟨hmiss, hfull⟩)

/-- A full side has no room for a new price. -/
theorem SideInv.value_eq_none (h : SideInv maxLevels m u.side map)
    (hfull : Full maxLevels m u.side) (hnone : map u.priceFixed = none)
    (hroom : AtMost maxLevels (map.write u.priceFixed u.value)) : u.value = none := by
  by_contra hvalue
  obtain ⟨v, hv⟩ := Option.ne_none_iff_exists'.mp hvalue
  have hlists := h.lists.cons hnone v
  rw [hv] at hroom
  have hlen := hroom.length_le hlists.nodup fun price hprice => by
    obtain ⟨x, hx, rfl⟩ := List.mem_map.mp hprice
    exact ⟨x.2, (hlists.mem_iff x.1 x.2).mp hx⟩
  rw [List.length_map, List.length_cons, hfull.length_liveLevels] at hlen
  omega

/-- An update that finds its level keeps the invariant. -/
theorem SideInv.placeLevel (h : SideInv maxLevels m u.side map) (hN : maxLevels < 2 ^ 64)
    (hp : u.priceFixed ≠ 0) (hroom : AtMost maxLevels (map.write u.priceFixed u.value))
    (hfinds : Finds maxLevels m map u) :
    SideInv maxLevels ((placeLevel maxLevels u).run m).2 u.side
      (map.write u.priceFixed u.value) := by
  rw [Finds, ← PriceIndexMap.entryOf_isSome_iff] at hfinds
  rcases placeLevel_cases h hN hp with ⟨hsome, i, hi, hslot, hrun⟩ | ⟨hmiss, i, hi, hfree, hrun⟩ |
    ⟨hmiss, hfull, hrun⟩
  · rw [hrun]
    apply SideInv.stored hi hp (h.overwrite hi hp hslot)
    intro k _
    rwa [PriceIndexMap.entryOf_congr fun k => placed_entry u.side k .price]
  · rw [hrun]
    rw [hmiss] at hfinds
    have hnone := (hfinds.resolve_left (by simp)).resolve_right fun hc => hc.1 i hi hfree
    obtain ⟨hoccupied, hindexed⟩ := h.occupy hi hp hfree hnone
    exact SideInv.stored hi hp hoccupied hindexed
  · rw [hrun]
    rw [hmiss] at hfinds
    have hsame : u.value = map u.priceFixed := by
      rcases hfinds.resolve_left (by simp) with hnone | ⟨-, hvalue⟩
      · rw [hnone, h.value_eq_none hfull hnone hroom]
      · exact hvalue.symm
    rw [hsame, LastWrite.write, Function.update_eq_self]
    exact h

/-- An update that misses its level leaves slots that do not list what was written. -/
theorem SideInv.not_lists (h : SideInv maxLevels m u.side map) (hN : maxLevels < 2 ^ 64)
    (hp : u.priceFixed ≠ 0) (hmisses : ¬ Finds maxLevels m map u) :
    ¬ Lists (liveLevels maxLevels ((OrderBook.placeLevel maxLevels u).run m).2 u.side)
      (map.write u.priceFixed u.value) := by
  rw [Finds, ← PriceIndexMap.entryOf_isSome_iff, not_or, not_or] at hmisses
  obtain ⟨hnot, hbound, hnotfull⟩ := hmisses
  obtain ⟨v, hv⟩ := Option.ne_none_iff_exists'.mp hbound
  have hmem := (h.lists.mem_iff _ _).mpr hv
  intro hlists
  rcases placeLevel_cases h hN hp with ⟨hsome, -⟩ | ⟨-, i, hi, hfree, hrun⟩ | ⟨-, hfull, hrun⟩
  · exact hnot hsome
  · -- the old slot of the price stays beside the one that was taken
    obtain ⟨j, hj, hlive, hat⟩ := mem_liveLevels.mp hmem
    have hprice : m (.level u.side j .price) = u.priceFixed := congrArg Prod.fst hat
    have hji : j ≠ i := by
      rintro rfl
      exact hlive hfree
    have hold : OrderBook.stored (inserted m u i) u i (.level u.side j .price) =
        u.priceFixed := by
      rw [stored_level_of_ne hji, inserted_level, hprice]
    rw [hrun] at hlists
    by_cases hq : u.quantityFixed = 0
    · have hin := mem_liveLevels.mpr ⟨j, hj, hold.trans_ne hp, rfl⟩
      have hshown := (hlists.mem_iff _ _).mp hin
      rw [hold, LastWrite.write_self, LevelUpdate.value, if_pos hq] at hshown
      cases hshown
    · have htaken := stored_price (m := inserted m u i) (i := i) hq
      exact hji (slot_inj hlists hi hj (htaken.trans_ne hp) (hold.trans htaken.symm))
  · rw [hrun] at hlists
    have hshown := (hlists.mem_iff _ _).mp hmem
    rw [LastWrite.write_self] at hshown
    exact hnotfull ⟨hfull, hv.trans hshown.symm⟩

end PlaceLevel

section UpdateLevel

theorem writeLock_frame (c : Cell) (hc : OnSide side c) : (writeLock.run m).2 c = m c := by
  cases c with
  | sequence => exact hc.elim
  | _ => rfl

/-- On the slots and the index of a side, `update_level` does what `placeLevel` does. -/
theorem run_updateLevel_onSide (maxLevels : Nat) (u : LevelUpdate) (m : Memory Cell)
    {c : Cell} (hc : OnSide side c) :
    ((updateLevel maxLevels u).run m).2 c = ((placeLevel maxLevels u).run m).2 c := by
  simp only [updateLevel, run_bind]
  rw [(finishUpdate_frame ..).run_frame _ c ⟨side, hc⟩]
  refine (Every.run_congr (T := Tracked)
    ((placeLevel_staysOn maxLevels u).mono (fun _ _ h hload => ⟨_, h.2 hload⟩) fun _ h => h)
    ?_).2 c ⟨side, hc⟩
  rintro c ⟨s, hs⟩
  exact writeLock_frame c hs

/-- An update does not touch the other side. -/
theorem run_updateLevel_other (h : side ≠ u.side) {c : Cell} (hc : OnSide side c) :
    ((updateLevel maxLevels u).run m).2 c = m c := by
  rw [run_updateLevel_onSide maxLevels u m hc]
  refine Every.run_frame (T := OnSide side)
    ((placeLevel_staysOn maxLevels u).mono (fun c op hs hon => ?_) fun _ h => h) m c hc
  have hside := hs.1
  cases c with
  | level s i field => exact absurd (hon.1.symm.trans hside) h
  | entry s k field => exact absurd (hon.symm.trans hside) h
  | _ => exact hon.elim

theorem run_updateLevel_sequence (maxLevels : Nat) (u : LevelUpdate) (m : Memory Cell) :
    ((updateLevel maxLevels u).run m).2 .sequence = m .sequence + 1 + 1 := by
  have hplace : ∀ m', ((placeLevel maxLevels u).run m').2 .sequence = m' .sequence :=
    fun m' => Every.run_frame (T := (· = .sequence))
      ((placeLevel_staysOn maxLevels u).mono (fun c op hs hc => absurd hs.1 (hc ▸ not_false))
        fun _ h => h) m' _ rfl
  have hbest : ∀ m', ((updateBestLevel maxLevels u.side).run m').2 .sequence = m' .sequence := by
    intro m'
    simp only [updateBestLevel, run_bind, run_store]
    rw [Function.update_of_ne (by simp)]
    exact Every.run_frame (T := fun _ => True)
      ((bestLevelLoop_loads ..).mono (fun _ _ h _ => h.2) fun _ h => h) m' _ trivial
  have hfinish : ∀ b m', ((finishUpdate maxLevels u.side b).run m').2 .sequence =
      m' .sequence + 1 := by
    intro b m'
    cases b with
    | false => simp [finishUpdate, writeUnlock]
    | true => simp [finishUpdate, writeUnlock, hbest]
  simp only [updateLevel, run_bind, hfinish, hplace]
  rfl

end UpdateLevel

section Clear

theorem clearLevels_frame (n start : Nat) :
    (clearLevels n start).Every (fun c _ => ∃ side i field, c = .level side i field)
      fun _ => True := by
  have hlevel : ∀ side i, (clearLevel side i).Every
      (fun c _ => ∃ side i field, c = .level side i field) fun _ => True := fun side i =>
    every_store_bind ⟨_, _, _, rfl⟩ (every_store_bind ⟨_, _, _, rfl⟩
      (every_store_bind ⟨_, _, _, rfl⟩ (every_store ⟨_, _, _, rfl⟩)))
  induction n generalizing start with
  | zero => trivial
  | succ n ih => exact (hlevel .bid start).bind fun _ _ => (hlevel .ask start).bind fun _ _ => ih _

theorem clearIndex_frame (side : Side) :
    (PriceIndexMap.clear side).Every (fun c _ => ∃ k field, c = .entry side k field)
      fun _ => True := by
  have hloop : ∀ n i, (PriceIndexMap.clearLoop side n i).Every
      (fun c _ => ∃ k field, c = .entry side k field) fun _ => True := by
    intro n
    induction n with
    | zero => exact fun i => trivial
    | succ n ih => exact fun i => every_store_bind ⟨_, _, rfl⟩ (every_store_bind ⟨_, _, rfl⟩ (ih _))
  exact hloop _ _

theorem clearLevels_price (n start : Nat) (m : Memory Cell) {i : Nat}
    (h : start ≤ i ∧ i < start + n ∨ m (.level side i .price) = 0) :
    ((clearLevels n start).run m).2 (.level side i .price) = 0 := by
  induction n generalizing start m with
  | zero => exact h.resolve_left (by omega)
  | succ n ih =>
    simp only [clearLevels, run_bind]
    refine ih _ _ ?_
    by_cases he : i = start
    · subst he
      right
      cases side <;> simp [clearLevel]
    · apply h.imp (fun hin => by omega)
      intro h0
      simp [clearLevel, he, h0]

/-- `clear` empties the entries of the table. -/
theorem clear_entry (maxLevels : Nat) {k : Nat} (field : EntryField)
    (hk : k < PriceIndexMap.tableSize ∨
      m (.entry side k field) = PriceIndexMap.emptyWord field) :
    ((clear maxLevels).run m).2 (.entry side k field) = PriceIndexMap.emptyWord field := by
  have hlevels : ∀ m' : Memory Cell, ((clearLevels maxLevels 0).run m').2 (.entry side k field) =
      m' (.entry side k field) := fun m' =>
    Every.run_frame (T := fun c => c = .entry side k field)
      ((clearLevels_frame maxLevels 0).mono (fun c op ⟨_, _, _, hl⟩ hc => by simp [hl] at hc)
        fun _ h => h) m' _ rfl
  have hclear : ∀ (s : Side) (m' : Memory Cell),
      s = side ∧ k < PriceIndexMap.tableSize ∨
        m' (.entry side k field) = PriceIndexMap.emptyWord field →
          ((PriceIndexMap.clear s).run m').2 (.entry side k field) =
            PriceIndexMap.emptyWord field := by
    intro s m' h
    rw [PriceIndexMap.clear]
    refine PriceIndexMap.clearLoop_entry s _ 0 m'
      (h.imp_left fun hin => ⟨hin.1, Nat.zero_le k, ?_⟩)
    rw [Nat.zero_add]
    exact hin.2
  have hstart : k < PriceIndexMap.tableSize ∨
      (writeLock.run m).2 (.entry side k field) = PriceIndexMap.emptyWord field := hk
  simp only [clear, run_bind, run_store, writeUnlock, run_fetchAdd]
  rw [Function.update_of_ne (by simp), Function.update_of_ne (by simp),
    Function.update_of_ne (by simp)]
  cases side with
  | bid => exact hclear .ask _ (Or.inr (hclear .bid _ (hstart.imp (⟨rfl, ·⟩) (hlevels _).trans)))
  | ask =>
    refine hclear .ask _ (hstart.imp (⟨rfl, ·⟩) fun h0 => ?_)
    exact hclear .bid _ (Or.inr ((hlevels _).trans h0))

theorem clear_level_price (hi : i < maxLevels) :
    ((clear maxLevels).run m).2 (.level side i .price) = 0 := by
  have hindex : ∀ (s : Side) (m' : Memory Cell),
      ((PriceIndexMap.clear s).run m').2 (.level side i .price) = m' (.level side i .price) :=
    fun s m' => Every.run_frame (T := fun c => c = .level side i .price)
      ((clearIndex_frame s).mono (fun c op ⟨_, _, hl⟩ hc => by simp [hl] at hc) fun _ h => h)
      m' _ rfl
  simp only [clear, run_bind, run_store, writeUnlock, run_fetchAdd]
  rw [Function.update_of_ne (by simp), Function.update_of_ne (by simp),
    Function.update_of_ne (by simp), hindex, hindex]
  exact clearLevels_price _ _ _ (Or.inl ⟨Nat.zero_le i, by omega⟩)

theorem run_clear_sequence (maxLevels : Nat) (m : Memory Cell) :
    ((clear maxLevels).run m).2 .sequence = m .sequence + 1 + 1 := by
  have hlevels : ∀ m', ((clearLevels maxLevels 0).run m').2 .sequence = m' .sequence :=
    fun m' => Every.run_frame (T := (· = .sequence))
      ((clearLevels_frame maxLevels 0).mono (fun c op ⟨_, _, _, hl⟩ hc => by simp [hl] at hc)
        fun _ h => h) m' _ rfl
  have hindex : ∀ s m', ((PriceIndexMap.clear s).run m').2 .sequence = m' .sequence :=
    fun s m' => Every.run_frame (T := (· = .sequence))
      ((clearIndex_frame s).mono (fun c op ⟨_, _, hl⟩ hc => by simp [hl] at hc) fun _ h => h)
      m' _ rfl
  simp [clear, run_bind, run_store, writeUnlock, hlevels, hindex, writeLock]

/-- After `clear` the slots list nothing. -/
theorem SideInv.clear (h : SideInv maxLevels m side map) :
    SideInv maxLevels ((clear maxLevels).run m).2 side empty := by
  have hentry : ∀ k, ((OrderBook.clear maxLevels).run m).2 (.entry side k .price) = 0 := by
    intro k
    apply clear_entry maxLevels .price
    by_cases hk : m (.entry side k .price) = 0
    · exact Or.inr hk
    · exact Or.inl (h.entry_lt k hk)
  refine ⟨?_, fun k hk => absurd (hentry k) hk, fun k k' hk _ => absurd (hentry k) hk,
    fun k hk => absurd (hentry k) hk⟩
  have hnil : liveLevels maxLevels ((OrderBook.clear maxLevels).run m).2 side = [] :=
    List.eq_nil_iff_forall_not_mem.mpr fun x hx => by
      obtain ⟨i, hi, hlive, -⟩ := mem_liveLevels.mp hx
      exact hlive (clear_level_price hi)
  rw [hnil]
  exact lists_nil

end Clear

end OrderbookEngine.OrderBook
