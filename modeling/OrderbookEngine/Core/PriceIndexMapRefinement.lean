import OrderbookEngine.Core.PriceIndexMap
import OrderbookEngine.Library.LastWrite
import OrderbookEngine.Library.OpenAddressing
import OrderbookEngine.Library.Transition

/-!
# The price index as a map

A `PriceIndexMap` that one thread uses is meant to hold the map of its last
insertions. `remove` empties the entry of its price, so it answers as the map does
exactly until a removal empties an entry that another stored price is probed through.
-/

namespace OrderbookEngine.PriceIndexMap

open Prog LastWrite OpenAddressing Transition

/-- The words of a table after its constructor. -/
def construct : Memory Cell
  | .entry _ _ .index => sizeMax
  | _ => 0

/-- The prices that the entries of a table store. -/
def prices (m : Memory Cell) (side : Side) (k : Nat) : UInt64 := m (.entry side k .price)

/-- The calls that change a table. -/
inductive Call where
  | insert (price index : UInt64)
  | remove (price : UInt64)
  | clear
  deriving DecidableEq, Repr

namespace Call

/-- The call with the value that it returns, if any. -/
def prog (side : Side) : Call → Prog Cell (Option Bool)
  | insert price index => do
    let done ← PriceIndexMap.insert side price index
    return some done
  | remove price => do
    let removed ← PriceIndexMap.remove side price
    return some removed
  | clear => do
    PriceIndexMap.clear side
    return none

/-- What the call writes to the map. -/
def write (map : LastWrite UInt64 UInt64) : Call → LastWrite UInt64 UInt64
  | insert price index => map.write price (some index)
  | remove price => map.write price none
  | clear => empty

/-- What the call returns on the map: an insertion succeeds, and a removal does when
the price was there. -/
def returns (map : LastWrite UInt64 UInt64) : Call → Option Bool
  | insert _ _ => some true
  | remove price => some (map price).isSome
  | clear => none

/-- The markers of an empty entry are neither prices nor indices. -/
def Valid : Call → Prop
  | insert price index => price ≠ 0 ∧ index ≠ sizeMax
  | remove price => price ≠ 0
  | clear => True

end Call

/-- The words of a table after a sequence of calls. -/
def tableAfter (side : Side) (calls : List Call) : Memory Cell :=
  calls.foldl (fun m c => ((c.prog side).run m).2) construct

/-- The index of the last insertion of each price that is still there. -/
def lastInserts (calls : List Call) : LastWrite UInt64 UInt64 := calls.foldl Call.write empty

/-- `find` answers as the map of the last insertions. -/
def FindsLast (side : Side) (calls : List Call) : Prop :=
  ∀ price ≠ 0, ((find side price).run (tableAfter side calls)).1 = lastInserts calls price

/-- After every call `find` answers as the map, and every call returns what it should. -/
def IsMap (side : Side) (calls : List Call) : Prop :=
  (∀ pre, pre <+: calls → FindsLast side pre) ∧
    ∀ pre c, pre ++ [c] <+: calls →
      ((c.prog side).run (tableAfter side pre)).1 = c.returns (lastInserts pre)

/-- No stored price is probed through the entry of a price before it is met. -/
def Removable (m : Memory Cell) (side : Side) (price : UInt64) : Prop :=
  ∀ k, m (.entry side k .price) = price → PassedByNone probe tableSize 0 (prices m side) k

variable {m m' : Memory Cell} {side : Side} {price index : UInt64} {k : Nat}
  {map : LastWrite UInt64 UInt64} {calls pre : List Call}

section Probing

theorem nextIdx_eq (idx : Nat) : nextIdx idx = (idx + 1) % tableSize := by
  have hsize : tableSize = 2 ^ 12 := by norm_num [tableSize]
  rw [nextIdx, hsize, Nat.and_two_pow_sub_one_eq_mod]

theorem probe_zero (price : UInt64) : probe price 0 = hash price := by
  rw [probe, Function.iterate_zero_apply]

theorem probe_succ (price : UInt64) (j : Nat) : probe price (j + 1) = nextIdx (probe price j) := by
  rw [probe, probe, Function.iterate_succ_apply']

/-- The probe path goes through the table from the hash of the price. -/
theorem probe_eq (price : UInt64) (j : Nat) : probe price j = (hash price + j) % tableSize := by
  induction j with
  | zero => rw [probe_zero, Nat.add_zero, Nat.mod_eq_of_lt (hash_lt price)]
  | succ j ih => rw [probe_succ, nextIdx_eq, ih, Nat.mod_add_mod, Nat.add_assoc]

/-- It meets no entry twice. -/
theorem injOn_probe (price : UInt64) : Set.InjOn (probe price) (Set.Iio tableSize) := by
  intro i hi j hj he
  have hhash := hash_lt price
  simp only [probe_eq, Set.mem_Iio, tableSize] at *
  omega

/-- It meets every entry. -/
theorem exists_probe_eq (price : UInt64) (hk : k < tableSize) :
    ∃ j < tableSize, probe price j = k := by
  have hhash := hash_lt price
  by_cases hle : hash price ≤ k
  · refine ⟨k - hash price, by omega, ?_⟩
    rw [probe_eq, Nat.add_sub_cancel' hle, Nat.mod_eq_of_lt hk]
  · refine ⟨k + tableSize - hash price, by omega, ?_⟩
    rw [probe_eq, show hash price + (k + tableSize - hash price) = k + tableSize by omega,
      Nat.add_mod_right, Nat.mod_eq_of_lt hk]

theorem probe_lt (price : UInt64) (j : Nat) : probe price j < tableSize := by
  rw [probe_eq]
  exact Nat.mod_lt _ (by decide)

/-- In a sound table the probe path reaches the entry that stores the price. -/
theorem entryOf_eq_some_iff (h : Sound probe tableSize 0 (prices m side)) (hp : price ≠ 0) :
    entryOf m side price = some k ↔ m (.entry side k .price) = price := by
  constructor
  · exact price_of_entryOf
  · intro hk
    have hchain : ChainIntact m side price := by
      have hreached := h.reached k (hk.trans_ne hp)
      rwa [prices, hk] at hreached
    obtain ⟨k', hk'⟩ := Option.isSome_iff_exists.mp (entryOf_isSome_iff.mpr hchain)
    have hsame : k' = k :=
      h.inj k k' (hk.trans_ne hp) ((price_of_entryOf hk').trans hk.symm)
    rw [hk', hsame]

theorem exists_of_roomFrom {n idx : Nat} (h : roomFrom m side price n idx = some k) :
    ∃ j < n, nextIdx^[j] idx = k ∧
      ∀ i < j, m (.entry side (nextIdx^[i] idx) .price) ≠ 0 ∧
        m (.entry side (nextIdx^[i] idx) .price) ≠ price := by
  induction n generalizing idx with
  | zero => cases h
  | succ n ih =>
    unfold roomFrom at h
    split at h
    · cases h
      exact ⟨0, Nat.succ_pos n, rfl, fun i hi => absurd hi (Nat.not_lt_zero i)⟩
    · rename_i hroom
      obtain ⟨j, hj, hat, hbefore⟩ := ih h
      refine ⟨j + 1, Nat.succ_lt_succ hj, hat, fun i hi => ?_⟩
      cases i with
      | zero => exact not_or.mp hroom
      | succ i => exact hbefore i (Nat.lt_of_succ_lt_succ hi)

/-- The entry with room comes before the price and before every empty entry. -/
theorem exists_of_roomOf (h : roomOf m side price = some k) :
    ∃ j < tableSize, probe price j = k ∧
      ∀ i < j, prices m side (probe price i) ≠ 0 ∧ prices m side (probe price i) ≠ price :=
  exists_of_roomFrom h

theorem roomFrom_isSome {n idx j : Nat} (hj : j < n)
    (h : m (.entry side (nextIdx^[j] idx) .price) = 0 ∨
      m (.entry side (nextIdx^[j] idx) .price) = price) :
    (roomFrom m side price n idx).isSome := by
  induction n generalizing idx j with
  | zero => exact absurd hj (Nat.not_lt_zero j)
  | succ n ih =>
    unfold roomFrom
    split
    · rfl
    · rename_i hroom
      cases j with
      | zero => exact absurd h hroom
      | succ j => exact ih (Nat.lt_of_succ_lt_succ hj) h

/-- Storing in an entry changes the price of that entry. -/
theorem prices_setEntry (m : Memory Cell) (side : Side) (k : Nat) (price index : UInt64) :
    prices (setEntry m side k price index) side =
      Function.update (prices m side) k price := by
  ext1 k'
  by_cases he : k' = k
  · rw [he, Function.update_self, prices, setEntry_self_price]
  · rw [Function.update_of_ne he, prices, setEntry_of_ne he, prices]

end Probing

/-- The entries of a table are sound and hold the map. -/
structure TableInv (m : Memory Cell) (side : Side) (map : LastWrite UInt64 UInt64) : Prop where
  sound : Sound probe tableSize 0 (prices m side)
  bound : ∀ k, prices m side k ≠ 0 → map (prices m side k) = some (m (.entry side k .index))
  stored : ∀ price ≠ 0, ∀ index, map price = some index →
    index ≠ sizeMax ∧ ∃ k, prices m side k = price

section Invariant

theorem tableInv_construct (side : Side) : TableInv construct side empty where
  sound := sound_of_empty fun _ => rfl
  bound _ hk := absurd rfl hk
  stored _ _ _ h := by cases h

/-- A price that is not bound is not stored. -/
theorem TableInv.ne_of_eq_none (h : TableInv m side map) (hp : price ≠ 0)
    (hnone : map price = none) (k : Nat) : prices m side k ≠ price := by
  intro hk
  have hbound := h.bound k (hk.trans_ne hp)
  rw [hk, hnone] at hbound
  cases hbound

/-- `find` answers as the map. -/
theorem TableInv.find (h : TableInv m side map) (hp : price ≠ 0) :
    ((find side price).run m).1 = map price := by
  rw [run_find]
  cases hmap : map price with
  | none =>
    cases hk : entryOf m side price with
    | none => rfl
    | some k => exact absurd (price_of_entryOf hk) (h.ne_of_eq_none hp hmap k)
  | some index =>
    obtain ⟨hindex, k, hk⟩ := h.stored price hp index hmap
    have hbound := h.bound k (hk.trans_ne hp)
    rw [hk, hmap, Option.some.injEq] at hbound
    rw [(entryOf_eq_some_iff h.sound hp).mpr hk, Option.bind_some, ← hbound, if_pos hindex]

/-- A table that may take one more price has an empty entry. -/
theorem TableInv.exists_empty (h : TableInv m side map) (hnone : map price = none)
    (hp : price ≠ 0) (hroom : AtMost tableSize (map.write price (some index))) :
    ∃ k < tableSize, prices m side k = 0 := by
  by_contra hfull
  push Not at hfull
  have hnodup : ((List.range tableSize).map (prices m side)).Nodup := by
    refine List.Nodup.map_on (fun i hi j hj he => ?_) List.nodup_range
    exact h.sound.inj j i (hfull j (List.mem_range.mp hj)) he
  have hnew : price ∉ (List.range tableSize).map (prices m side) := by
    intro hmem
    obtain ⟨k, -, hk⟩ := List.mem_map.mp hmem
    exact h.ne_of_eq_none hp hnone k hk
  have hlen := hroom.length_le (List.nodup_cons.mpr ⟨hnew, hnodup⟩) fun p hmem => by
    rcases List.mem_cons.mp hmem with rfl | hmem
    · exact ⟨index, LastWrite.write_self ..⟩
    · obtain ⟨k, hk, rfl⟩ := List.mem_map.mp hmem
      rw [LastWrite.write_of_ne _ _ (h.ne_of_eq_none hp hnone k)]
      exact ⟨_, h.bound k (hfull k (List.mem_range.mp hk))⟩
  rw [List.length_cons, List.length_map, List.length_range] at hlen
  omega

/-- An insertion uses the entry of its price, or the first empty one for a new price. -/
theorem TableInv.exists_room (h : TableInv m side map) (hp : price ≠ 0)
    (hroom : AtMost tableSize (map.write price (some index))) :
    ∃ k, roomOf m side price = some k ∧ (prices m side k = price ∨
      (∀ k', prices m side k' ≠ price) ∧ prices m side k = 0) := by
  by_cases hstored : ∃ k', prices m side k' = price
  · obtain ⟨k', hk'⟩ := hstored
    obtain ⟨j', hj', hat, hbefore'⟩ := h.sound.reached k' (hk'.trans_ne hp)
    rw [hk'] at hat hbefore'
    obtain ⟨k, hk⟩ := Option.isSome_iff_exists.mp (roomFrom_isSome hj' (Or.inr hat))
    refine ⟨k, hk, (price_of_roomOf hk).symm.imp id fun hempty => ?_⟩
    -- an empty entry cannot come before the price, nor the price before it
    obtain ⟨j, -, hprobe, hbefore⟩ := exists_of_roomOf hk
    rw [← hprobe] at hempty
    rcases Nat.lt_trichotomy j j' with hlt | heq | hgt
    · exact absurd hempty (hbefore' j hlt)
    · rw [heq] at hempty
      exact absurd (hat.symm.trans hempty) hp
    · exact absurd hat (hbefore j' hgt).2
  · have hnew : ∀ k', prices m side k' ≠ price := fun k' hk' => hstored ⟨k', hk'⟩
    have hnone : map price = none := by
      by_contra hsome
      obtain ⟨i, hi⟩ := Option.ne_none_iff_exists'.mp hsome
      exact hstored (h.stored price hp i hi).2
    obtain ⟨k', hlt, hempty⟩ := h.exists_empty hnone hp hroom
    obtain ⟨j, hj, rfl⟩ := exists_probe_eq price hlt
    obtain ⟨k, hk⟩ := Option.isSome_iff_exists.mp (roomFrom_isSome hj (Or.inl hempty))
    exact ⟨k, hk, Or.inr ⟨hnew, (price_of_roomOf hk).resolve_right (hnew k)⟩⟩

/-- An insertion stores its price and returns true. -/
theorem TableInv.insert (h : TableInv m side map) (hp : price ≠ 0) (hindex : index ≠ sizeMax)
    (hroom : AtMost tableSize (map.write price (some index))) :
    ((insert side price index).run m).1 = true ∧
      TableInv ((PriceIndexMap.insert side price index).run m).2 side
        (map.write price (some index)) := by
  obtain ⟨k, hk, hcell⟩ := h.exists_room hp hroom
  have hrun : (PriceIndexMap.insert side price index).run m =
      (true, setEntry m side k price index) := by rw [run_insert, hk]
  refine ⟨congrArg Prod.fst hrun, ?_⟩
  rw [hrun]
  show TableInv (setEntry m side k price index) side _
  refine ⟨?_, fun k' hk' => ?_, fun p hp' i hi => ?_⟩
  · rw [prices_setEntry]
    rcases hcell with hsame | ⟨hnew, hempty⟩
    · rw [← hsame, Function.update_eq_self]
      exact h.sound
    · obtain ⟨j, hj, rfl, hbefore⟩ := exists_of_roomOf hk
      exact h.sound.fill hp hnew hj hempty fun i hi => (hbefore i hi).1
  · rw [prices_setEntry] at hk' ⊢
    by_cases he : k' = k
    · rw [he, Function.update_self, LastWrite.write_self, setEntry_self_index]
    · rw [Function.update_of_ne he] at hk' ⊢
      have hother : prices m side k' ≠ price := by
        rcases hcell with hsame | ⟨hnew, -⟩
        · exact fun hk'' => he (h.sound.inj k k' (hsame.trans_ne hp) (hk''.trans hsame.symm))
        · exact hnew k'
      rw [LastWrite.write_of_ne _ _ hother, setEntry_of_ne he, h.bound k' hk']
  · rw [prices_setEntry]
    by_cases he : p = price
    · subst he
      rw [LastWrite.write_self, Option.some.injEq] at hi
      exact ⟨hi ▸ hindex, k, Function.update_self ..⟩
    · rw [LastWrite.write_of_ne _ _ he] at hi
      obtain ⟨hi', k', hk'⟩ := h.stored p hp' i hi
      refine ⟨hi', k', ?_⟩
      rw [Function.update_of_ne, hk']
      rintro rfl
      rcases hcell with hsame | ⟨-, hempty⟩
      · exact he (hk'.symm.trans hsame)
      · exact hp' (hk'.symm.trans hempty)

/-- A removal reports whether its price was there. -/
theorem TableInv.remove_returns (h : TableInv m side map) (hp : price ≠ 0) :
    ((remove side price).run m).1 = (map price).isSome := by
  rw [run_remove]
  cases hk : entryOf m side price with
  | some k =>
    have hcell : prices m side k = price := price_of_entryOf hk
    have hbound := h.bound k (hcell.trans_ne hp)
    rw [hcell] at hbound
    rw [hbound]
    rfl
  | none =>
    cases hmap : map price with
    | none => rfl
    | some index =>
      obtain ⟨-, k, hcell⟩ := h.stored price hp index hmap
      rw [(entryOf_eq_some_iff h.sound hp).mpr hcell] at hk
      cases hk

/-- A removal that no other price is probed through deletes its price. -/
theorem TableInv.remove (h : TableInv m side map) (hp : price ≠ 0)
    (hremovable : Removable m side price) :
    TableInv ((remove side price).run m).2 side (map.write price none) := by
  rw [run_remove]
  cases hk : entryOf m side price with
  | none =>
    have hnone : map price = none := by
      by_contra hsome
      obtain ⟨i, hi⟩ := Option.ne_none_iff_exists'.mp hsome
      obtain ⟨-, k, hcell⟩ := h.stored price hp i hi
      rw [(entryOf_eq_some_iff h.sound hp).mpr hcell] at hk
      cases hk
    rw [write_none_of_none hnone]
    exact h
  | some k =>
    have hcell : prices m side k = price := price_of_entryOf hk
    show TableInv (setEntry m side k 0 sizeMax) side _
    refine ⟨?_, fun k' hk' => ?_, fun p hp' i hi => ?_⟩
    · rw [prices_setEntry]
      exact h.sound.vacate (hremovable k hcell)
    · rw [prices_setEntry] at hk' ⊢
      have he : k' ≠ k := by
        rintro rfl
        exact hk' (Function.update_self ..)
      rw [Function.update_of_ne he] at hk' ⊢
      have hother : prices m side k' ≠ price := fun hk'' =>
        he (h.sound.inj k k' (hcell.trans_ne hp) (hk''.trans hcell.symm))
      rw [LastWrite.write_of_ne _ _ hother, setEntry_of_ne he, h.bound k' hk']
    · have hne : p ≠ price := by
        rintro rfl
        rw [LastWrite.write_self] at hi
        cases hi
      rw [LastWrite.write_of_ne _ _ hne] at hi
      obtain ⟨hi', k', hk'⟩ := h.stored p hp' i hi
      refine ⟨hi', k', ?_⟩
      rw [prices_setEntry, Function.update_of_ne, hk']
      rintro rfl
      exact hne (hk'.symm.trans hcell)

/-- `clear` empties the table. -/
theorem TableInv.clear (h : TableInv m side map) :
    TableInv ((clear side).run m).2 side empty := by
  have hempty : ∀ k, prices ((PriceIndexMap.clear side).run m).2 side k = 0 := by
    intro k
    rw [prices, PriceIndexMap.clear]
    apply clearLoop_entry
    by_cases hk : prices m side k = 0
    · exact Or.inr hk
    · obtain ⟨j, -, hprobe⟩ := h.sound.exists_path_eq hk
      rw [Nat.zero_add]
      exact Or.inl ⟨rfl, Nat.zero_le _, hprobe ▸ probe_lt _ j⟩
  exact ⟨sound_of_empty hempty, fun k hk => absurd (hempty k) hk, fun _ _ _ hi => by cases hi⟩

/-- A price that is alone in the table is removed without harm. -/
theorem removable_of_alone (h : Sound probe tableSize 0 (prices m side)) (hp : price ≠ 0)
    (halone : ∀ k, prices m side k ≠ 0 → prices m side k = price) :
    Removable m side price := by
  rintro k hk key hkey j hj hat i hij rfl
  have hcell : prices m side (probe key i) = price := hk
  have hsame := halone _ (hat.trans_ne hkey)
  have he := h.inj _ _ (hcell.trans_ne hp) (hsame.trans hcell.symm)
  exact hij.ne (injOn_probe key (hij.trans hj) hj he.symm)

/-- After a removal that another price is probed through, that price is not found. -/
theorem TableInv.exists_lost (h : TableInv m side map) (hp : price ≠ 0)
    (hbroken : ¬ Removable m side price) :
    ∃ key ≠ 0, ((PriceIndexMap.find side key).run
      ((PriceIndexMap.remove side price).run m).2).1 ≠ (map.write price none) key := by
  simp only [Removable, PassedByNone, not_forall, not_not] at hbroken
  obtain ⟨k, hk, key, hkey, j, hj, hat, i, hij, hpass⟩ := hbroken
  have hcell : prices m side k = price := hk
  have hne : key ≠ price := by
    rintro rfl
    have he := h.sound.inj _ _ (hat.trans_ne hkey) (hcell.trans hat.symm)
    exact hij.ne (injOn_probe key (hij.trans hj) hj (hpass.trans he))
  have hlost : entryOf (setEntry m side k 0 sizeMax) side key = none := by
    rw [← Option.not_isSome_iff_eq_none, entryOf_isSome_iff]
    have hnot := h.sound.not_reached hkey (injOn_probe key) hij hj hat hpass
    rwa [← prices_setEntry m side k 0 sizeMax] at hnot
  have hrun : ((PriceIndexMap.remove side price).run m).2 = setEntry m side k 0 sizeMax := by
    rw [run_remove, (entryOf_eq_some_iff h.sound hp).mpr hk]
  have hbound := h.bound _ (hat.trans_ne hkey)
  rw [hat] at hbound
  refine ⟨key, hkey, ?_⟩
  rw [hrun, run_find, hlost, LastWrite.write_of_ne _ _ hne, hbound]
  exact (Option.some_ne_none _).symm

end Invariant

section Runs

@[simp] theorem tableAfter_append (side : Side) (calls : List Call) (c : Call) :
    tableAfter side (calls ++ [c]) = ((c.prog side).run (tableAfter side calls)).2 := by
  simp [tableAfter]

@[simp] theorem lastInserts_append (calls : List Call) (c : Call) :
    lastInserts (calls ++ [c]) = c.write (lastInserts calls) := by
  simp [lastInserts]

/-- A removal leaves every other stored price to be found. -/
def Call.Harmless (m : Memory Cell) (side : Side) : Call → Prop
  | .remove price => Removable m side price
  | .insert _ _ | .clear => True

/-- What a call does to a table that holds the map. -/
theorem TableInv.call (h : TableInv m side map) {c : Call} (hvalid : c.Valid)
    (hroom : AtMost tableSize (c.write map)) :
    ((c.prog side).run m).1 = c.returns map ∧
      (c.Harmless m side → TableInv ((c.prog side).run m).2 side (c.write map)) := by
  cases c with
  | insert price index =>
    obtain ⟨hdone, hinv⟩ := h.insert hvalid.1 hvalid.2 hroom
    exact ⟨by simp [Call.prog, Call.returns, hdone],
      fun _ => by simpa [Call.prog, Call.write] using hinv⟩
  | remove price =>
    have hreturns := h.remove_returns hvalid
    exact ⟨by simp [Call.prog, Call.returns, hreturns],
      fun hremovable => by simpa [Call.prog, Call.write] using h.remove hvalid hremovable⟩
  | clear =>
    exact ⟨by simp [Call.prog, Call.returns],
      fun _ => by simpa [Call.prog, Call.write] using h.clear⟩

/-- A call that does harm leaves a price that is not found. -/
theorem TableInv.not_finds (h : TableInv (tableAfter side pre) side (lastInserts pre)) {c : Call}
    (hvalid : c.Valid) (hharm : ¬ c.Harmless (tableAfter side pre) side) :
    ¬ FindsLast side (pre ++ [c]) := by
  intro hfinds
  cases c with
  | remove price =>
    obtain ⟨key, hkey, hlost⟩ := h.exists_lost hvalid hharm
    have hfound := hfinds key hkey
    rw [tableAfter_append, lastInserts_append] at hfound
    exact hlost (by simpa [Call.prog, Call.write] using hfound)
  | insert price index => exact hharm trivial
  | clear => exact hharm trivial

/-- The table answers as the map exactly when no removal empties an entry that another
stored price is probed through. -/
theorem isMap_iff_removable (side : Side) {calls : List Call} (hvalid : ∀ c ∈ calls, c.Valid)
    (hroom : ∀ pre, pre <+: calls → AtMost tableSize (lastInserts pre)) :
    IsMap side calls ↔ ∀ pre price, pre ++ [.remove price] <+: calls →
      Removable (tableAfter side pre) side price := by
  have hv : ∀ pre c, pre ++ [c] <+: calls → c.Valid := fun pre c hp =>
    hvalid c (hp.subset (by simp))
  have hr : ∀ pre c, pre ++ [c] <+: calls → AtMost tableSize (c.write (lastInserts pre)) := by
    intro pre c hp
    rw [← lastInserts_append]
    exact hroom _ hp
  have hgood : ∀ pre c, pre ++ [c] <+: calls →
      TableInv (tableAfter side pre) side (lastInserts pre) →
      c.Harmless (tableAfter side pre) side →
      TableInv (tableAfter side (pre ++ [c])) side (lastInserts (pre ++ [c])) := by
    intro pre c hp hinv hharmless
    rw [tableAfter_append, lastInserts_append]
    exact (hinv.call (hv pre c hp) (hr pre c hp)).2 hharmless
  have hfinds : (∀ pre, pre <+: calls → FindsLast side pre) ↔
      ∀ pre c, pre ++ [c] <+: calls → c.Harmless (tableAfter side pre) side :=
    prefixes_iff_guarded _ (tableInv_construct side) (fun pre hinv price hp => hinv.find hp) hgood
      fun pre c hp hinv hharm => hinv.not_finds (hv pre c hp) hharm
  constructor
  · exact fun h pre price hp => hfinds.mp h.1 pre _ hp
  · intro h
    have hharmless : ∀ pre c, pre ++ [c] <+: calls → c.Harmless (tableAfter side pre) side := by
      intro pre c hp
      cases c with
      | remove price => exact h pre price hp
      | insert price index => trivial
      | clear => trivial
    refine ⟨hfinds.mpr hharmless, fun pre c hp => ?_⟩
    have hinv := prefixes_invariant _ (tableInv_construct side) hgood hharmless pre
      ((List.prefix_append pre [c]).trans hp)
    exact (hinv.call (hv pre c hp) (hr pre c hp)).1

/-- A price that no call inserts is unbound. -/
theorem lastInserts_eq_none (h : ∀ index, .insert price index ∉ calls) :
    lastInserts calls price = none := by
  induction calls using List.reverseRecOn with
  | nil => rfl
  | append_singleton calls c ih =>
    have hpre := ih fun index hmem => h index (List.mem_append_left _ hmem)
    rw [lastInserts_append]
    cases c with
    | clear => rfl
    | insert p index =>
      have hne : price ≠ p := by
        rintro rfl
        exact h index (by simp)
      rw [Call.write, LastWrite.write_of_ne _ _ hne, hpre]
    | remove p =>
      by_cases he : price = p
      · rw [he, Call.write, LastWrite.write_self]
      · rw [Call.write, LastWrite.write_of_ne _ _ he, hpre]

/-- Calls that insert few prices bind few. -/
theorem atMost_lastInserts {n : Nat} (inserted : List UInt64) (hlen : inserted.length ≤ n)
    (h : ∀ price index, .insert price index ∈ calls → price ∈ inserted) :
    AtMost n (lastInserts calls) := by
  refine ⟨inserted, hlen, fun price index hbound => by_contra fun hnot => ?_⟩
  rw [lastInserts_eq_none fun index hmem => hnot (h price index hmem)] at hbound
  cases hbound

/-- One price is inserted and removed. -/
theorem isMap_iff_removable_onePrice : IsMap .bid [.insert 1 5, .remove 1] := by
  have hroom : ∀ pre, pre <+: [.insert 1 5, .remove 1] → AtMost tableSize (lastInserts pre) := by
    intro pre hp
    apply atMost_lastInserts [1] (by norm_num [tableSize])
    intro price index hmem
    have hcall := hp.subset hmem
    simp only [List.mem_cons, Call.insert.injEq, reduceCtorEq, List.not_mem_nil, or_false] at hcall
    simp [hcall.1]
  refine (isMap_iff_removable .bid (by simp [Call.Valid, sizeMax]) hroom).mpr ?_
  intro pre price hp
  obtain ⟨rfl, rfl⟩ : pre = [.insert 1 5] ∧ price = 1 := by
    rcases pre with _ | ⟨c, _ | ⟨c', pre⟩⟩
    · simp at hp
    · simpa using hp
    · simpa using hp.length_le
  have hinv : TableInv (tableAfter .bid [.insert 1 5]) .bid (LastWrite.write empty 1 (some 5)) :=
    ((tableInv_construct .bid).insert (by decide) (by decide) (hroom [.insert 1 5] (by simp))).2
  apply removable_of_alone hinv.sound (by decide)
  intro k hk
  by_contra hne
  have hbound := hinv.bound k hk
  rw [LastWrite.write_of_ne _ _ hne] at hbound
  cases hbound

/-- Two prices with one hash; the first of them is removed. -/
def collidingPrices : List Call := [.insert 1 0, .insert 4097 1, .remove 1]

/-- The other price is not found after the removal. -/
theorem isMap_fails :
    ¬ ∀ (side : Side) (calls : List Call), (∀ c ∈ calls, c.Valid) →
      (∀ pre, pre <+: calls → AtMost tableSize (lastInserts pre)) → IsMap side calls := by
  intro h
  have hroom : ∀ pre, pre <+: collidingPrices → AtMost tableSize (lastInserts pre) := by
    intro pre hp
    apply atMost_lastInserts [1, 4097] (by norm_num [tableSize])
    intro price index hmem
    have hcall := hp.subset hmem
    simp only [collidingPrices, List.mem_cons, Call.insert.injEq, reduceCtorEq, List.not_mem_nil,
      or_false] at hcall
    rcases hcall with ⟨rfl, -⟩ | ⟨rfl, -⟩ <;> decide
  have hfinds := (h .bid collidingPrices (by simp [collidingPrices, Call.Valid, sizeMax]) hroom).1
    _ List.prefix_rfl 4097 (by decide)
  have hlost : ((find .bid 4097).run (tableAfter .bid collidingPrices)).1 = none := by
    decide +kernel
  rw [hlost] at hfinds
  revert hfinds
  decide

end Runs

end OrderbookEngine.PriceIndexMap
