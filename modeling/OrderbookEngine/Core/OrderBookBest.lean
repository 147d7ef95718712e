import OrderbookEngine.Core.OrderBookRefinement
import OrderbookEngine.Library.BestOf

/-!
# The cached best levels

Every update that returns true scans its side for the best level and stores its index.
`get_spread` and `get_mid_price` follow the stored indices, a snapshot sorts the
levels; both read the same best prices.
-/

namespace OrderbookEngine.OrderBook

open Prog LastWrite

/-- How good a price is: bids by their height, asks by their depth. -/
def rank : Side → UInt64 → Int
  | .bid, price => price.toNat
  | .ask, price => -price.toNat

/-- The best level that a side holds, with its slot. -/
def bestSlot (maxLevels : Nat) (m : Memory Cell) (side : Side) : Option (UInt64 × Nat) :=
  (pricesOf m side (List.range maxLevels)).foldl
    (fun best x => betterOf (fun y => rank side y.1) best (some x)) none

/-- The index that `update_best_level` stores. -/
def bestIndex (maxLevels : Nat) (m : Memory Cell) (side : Side) : UInt64 :=
  (bestSlot maxLevels m side).elim sizeMax fun x => x.2.toUInt64

/-- Each side's cached index is that of its best level. -/
def BestCached (maxLevels : Nat) (m : Memory Cell) : Prop :=
  ∀ side, m (.bestIdx side) = bestIndex maxLevels m side

/-- The memory after an update whose level was placed. -/
def committed (maxLevels : Nat) (side : Side) (m : Memory Cell) : Memory Cell :=
  Function.update (Function.update (Function.update m
    (.bestIdx side) (bestIndex maxLevels m side))
    .sequenceNumber (m .sequenceNumber + 1)) .sequence (m .sequence + 1 + 1)

variable {maxLevels : Nat} {m m' : Memory Cell} {side : Side}

section Scan

theorem isBetter_eq {price bestPrice : UInt64} (h : bestPrice ≠ 0) :
    isBetter side price bestPrice = true ↔ rank side bestPrice < rank side price := by
  cases side <;>
    simp only [isBetter, rank, h, decide_false, Bool.false_or, decide_eq_true_eq, gt_iff_lt,
      UInt64.lt_iff_toNat_lt] <;> omega

theorem pos_iff_ne_zero {price : UInt64} : price > 0 ↔ price ≠ 0 := by
  rw [gt_iff_lt, UInt64.lt_iff_toNat_lt, ← not_iff_not, not_lt, ne_eq, not_not,
    ← UInt64.toNat_inj]
  simp

/-- The scan keeps the better of the best level so far and the level of a slot. -/
theorem run_bestLevelLoop (n start : Nat) (best : Option (UInt64 × Nat))
    (hbest : ∀ x, best = some x → x.1 ≠ 0) :
    (bestLevelLoop side n start (best.elim 0 Prod.fst)
      (best.elim sizeMax fun x => x.2.toUInt64)).run m =
      (((pricesOf m side (List.range' start n)).foldl
        (fun best x => betterOf (fun y => rank side y.1) best (some x)) best).elim sizeMax
          fun x => x.2.toUInt64, m) := by
  induction n generalizing start best with
  | zero => rfl
  | succ n ih =>
    simp only [bestLevelLoop, run_bind, run_load, List.range'_succ]
    by_cases hfree : m (.level side start .price) = 0
    · have hnot : ¬ (m (.level side start .price) > 0 ∧
          isBetter side (m (.level side start .price)) (best.elim 0 Prod.fst) = true) :=
        fun h => pos_iff_ne_zero.mp h.1 hfree
      have hprices : pricesOf m side (start :: List.range' (start + 1) n) =
          pricesOf m side (List.range' (start + 1) n) := by simp [pricesOf, hfree]
      rw [if_neg hnot, hprices]
      exact ih (start + 1) best hbest
    · have hprices : pricesOf m side (start :: List.range' (start + 1) n) =
          (m (.level side start .price), start) ::
            pricesOf m side (List.range' (start + 1) n) := by simp [pricesOf, hfree]
      rw [hprices, List.foldl_cons]
      have hnew := ih (start + 1) (some (m (.level side start .price), start))
        (by simpa using hfree)
      cases best with
      | none =>
        rw [if_pos ⟨pos_iff_ne_zero.mpr hfree, by cases side <;> simp [isBetter]⟩]
        exact hnew
      | some x =>
        have hbetter : isBetter side (m (.level side start .price)) x.1 = true ↔
            rank side x.1 < rank side (m (.level side start .price)) := isBetter_eq (hbest x rfl)
        by_cases hlt : rank side x.1 < rank side (m (.level side start .price))
        · rw [if_pos ⟨pos_iff_ne_zero.mpr hfree, hbetter.mpr hlt⟩, betterOf, if_pos hlt]
          exact hnew
        · rw [if_neg fun h => hlt (hbetter.mp h.2), betterOf, if_neg hlt]
          exact ih (start + 1) (some x) hbest

theorem run_updateBestLevel (maxLevels : Nat) (side : Side) (m : Memory Cell) :
    (updateBestLevel maxLevels side).run m =
      ((), Function.update m (.bestIdx side) (bestIndex maxLevels m side)) := by
  have hloop := @run_bestLevelLoop m side maxLevels 0 none (by simp)
  rw [← List.range_eq_range'] at hloop
  simp only [updateBestLevel, run_bind, run_store]
  rw [show bestLevelLoop side maxLevels 0 0 sizeMax = bestLevelLoop side maxLevels 0
    ((none : Option (UInt64 × Nat)).elim 0 Prod.fst)
    ((none : Option (UInt64 × Nat)).elim sizeMax fun x => x.2.toUInt64) from rfl, hloop]
  rfl

/-- Only the prices of the slots decide which level is best. -/
theorem bestSlot_congr (h : ∀ i, m' (.level side i .price) = m (.level side i .price)) :
    bestSlot maxLevels m' side = bestSlot maxLevels m side := by
  simp only [bestSlot, pricesOf, h]

theorem bestIndex_congr (h : ∀ i, m' (.level side i .price) = m (.level side i .price)) :
    bestIndex maxLevels m' side = bestIndex maxLevels m side := by
  rw [bestIndex, bestIndex, bestSlot_congr h]

end Scan

section Update

variable {u : LevelUpdate} {c : Cell}

/-- `placeLevel` leaves the words outside the slots and the index of its side alone. -/
theorem placeLevel_frame (maxLevels : Nat) (u : LevelUpdate) (m : Memory Cell)
    (hc : ¬ OfSide u.side c) : ((placeLevel maxLevels u).run m).2 c = m c :=
  Every.run_frame (T := (· = c)) ((placeLevel_staysOn maxLevels u).mono
    (fun _ _ hs he => absurd (he ▸ hs.1) hc) fun _ h => h) m c rfl

theorem placeLevel_avoids_sequence (maxLevels : Nat) (u : LevelUpdate) :
    (placeLevel maxLevels u).Every (fun c _ => c ≠ .sequence) fun _ => True :=
  (placeLevel_staysOn maxLevels u).mono (fun c _ hs he => by subst he; exact hs.1) fun _ h => h

/-- `update_level` caches the best level and counts the update when its level was placed;
in any case it passes through its write lock. -/
theorem run_updateLevel (maxLevels : Nat) (u : LevelUpdate) (m : Memory Cell) :
    (updateLevel maxLevels u).run m =
      if ((placeLevel maxLevels u).run m).1 = true then
        (true, committed maxLevels u.side ((placeLevel maxLevels u).run m).2)
      else (false, Function.update ((placeLevel maxLevels u).run m).2 .sequence
        (m .sequence + 1 + 1)) := by
  have hlock : (writeLock.run m).2 = Function.update m .sequence (m .sequence + 1) := rfl
  have hsequence : ((placeLevel maxLevels u).run m).2 .sequence = m .sequence :=
    placeLevel_frame maxLevels u m id
  simp only [updateLevel, run_bind, hlock, (placeLevel_avoids_sequence maxLevels u).run_update]
  cases ((placeLevel maxLevels u).run m).1 with
  | false => simp [finishUpdate, writeUnlock, Function.update_idem]
  | true =>
    have hbest : ∀ v, bestIndex maxLevels (Function.update ((placeLevel maxLevels u).run m).2
        .sequence v) u.side = bestIndex maxLevels ((placeLevel maxLevels u).run m).2 u.side :=
      fun v => bestIndex_congr fun i => Function.update_of_ne (by simp) ..
    simp only [finishUpdate, if_true, run_bind, run_updateBestLevel, run_fetchAdd, writeUnlock,
      run_pure, hbest, committed, hsequence]
    refine Prod.ext rfl (funext fun c => ?_)
    cases c <;> simp [Function.update_apply]

/-- `update_level` returns whether its level was placed. -/
theorem updateLevel_returns (maxLevels : Nat) (u : LevelUpdate) (m : Memory Cell) :
    ((updateLevel maxLevels u).run m).1 = ((placeLevel maxLevels u).run m).1 := by
  rw [run_updateLevel]
  cases ((placeLevel maxLevels u).run m).1 with
  | false => rfl
  | true => rfl

/-- An update that is refused changes nothing but the sequence of its lock. -/
theorem run_updateLevel_of_false (hN : maxLevels < 2 ^ 64)
    (h : ((placeLevel maxLevels u).run m).1 = false) :
    (updateLevel maxLevels u).run m =
      (false, Function.update m .sequence (m .sequence + 1 + 1)) := by
  rw [run_updateLevel, h, if_neg (by decide)]
  rcases placeLevel_outcome hN u m with ⟨idx, -, hrun⟩ | ⟨-, i, -, -, hrun⟩ | ⟨-, -, hrun⟩
  · rw [hrun] at h
    cases h
  · rw [hrun] at h
    cases h
  · rw [hrun]

/-- Updates keep the cached indices right, whatever their prices. -/
theorem BestCached.update (h : BestCached maxLevels m) (hN : maxLevels < 2 ^ 64)
    (u : LevelUpdate) : BestCached maxLevels ((updateLevel maxLevels u).run m).2 := by
  intro side
  cases hplaced : ((placeLevel maxLevels u).run m).1 with
  | false =>
    rw [run_updateLevel_of_false hN hplaced]
    have hframe : ∀ c, c ≠ .sequence →
        Function.update m .sequence (m .sequence + 1 + 1) c = m c :=
      fun c hc => Function.update_of_ne hc ..
    refine (hframe _ (by simp)).trans ((h side).trans ?_)
    exact (bestIndex_congr fun i => hframe _ (by simp)).symm
  | true =>
    rw [run_updateLevel, hplaced, if_pos rfl]
    have hprices : ∀ i, committed maxLevels u.side ((placeLevel maxLevels u).run m).2
        (.level side i .price) = ((placeLevel maxLevels u).run m).2 (.level side i .price) := by
      intro i
      simp [committed]
    rw [bestIndex_congr hprices]
    by_cases hside : side = u.side
    · simp [committed, hside]
    · have hother : ∀ i, ((placeLevel maxLevels u).run m).2 (.level side i .price) =
          m (.level side i .price) := fun i => placeLevel_frame maxLevels u m hside
      rw [bestIndex_congr hother, ← h side,
        ← placeLevel_frame maxLevels u m (c := .bestIdx side) id]
      simp [committed, hside]

theorem bestCached_construct (maxLevels : Nat) : BestCached maxLevels construct := by
  intro side
  simp [bestIndex, bestSlot, pricesOf, construct]

theorem bestCached_clear (maxLevels : Nat) (m : Memory Cell) :
    BestCached maxLevels ((clear maxLevels).run m).2 := by
  intro side
  have hslots : pricesOf ((clear maxLevels).run m).2 side (List.range maxLevels) = [] := by
    simp only [pricesOf, List.map_eq_nil_iff, List.filter_eq_nil_iff, List.mem_range]
    intro i hi
    simp [clear_level_price hi]
  rw [bestIndex, bestSlot, hslots]
  cases side <;> simp [clear, writeUnlock]

/-- Whatever is called, the cached indices stay right. -/
theorem bestCached_bookAfter (hN : maxLevels < 2 ^ 64) (calls : List Call) :
    BestCached maxLevels (bookAfter maxLevels calls) := by
  induction calls using List.reverseRecOn with
  | nil => exact bestCached_construct maxLevels
  | append_singleton calls c ih =>
    rw [bookAfter_append]
    cases c with
    | update u => exact ih.update hN u
    | clear => exact bestCached_clear maxLevels _

/-- Whatever is called, no write lock is left taken. -/
theorem even_bookAfter (maxLevels : Nat) (calls : List Call) :
    bookAfter maxLevels calls .sequence &&& 1 = 0 := by
  induction calls using List.reverseRecOn with
  | nil => simp [bookAfter, construct]
  | append_singleton calls c ih =>
    rw [bookAfter_append]
    cases c with
    | update u =>
      rw [Call.run, run_updateLevel_sequence]
      exact even_add_two ih
    | clear =>
      rw [Call.run, run_clear_sequence]
      exact even_add_two ih

end Update

section Agreement

variable {std : StdChoices} {depth : Nat} {timestamp : UInt64}

theorem rank_injective (side : Side) : Function.Injective (rank side) := by
  intro a b h
  cases side <;> simp only [rank, neg_inj, Nat.cast_inj, UInt64.toNat_inj] at h <;> exact h

theorem mem_pricesOf {x : UInt64 × Nat} {slots : List Nat} (h : x ∈ pricesOf m side slots) :
    x.2 ∈ slots ∧ x.1 ≠ 0 ∧ m (.level side x.2 .price) = x.1 := by
  obtain ⟨i, hi, rfl⟩ := List.mem_map.mp h
  obtain ⟨hmem, hlive⟩ := List.mem_filter.mp hi
  exact ⟨hmem, of_decide_eq_true hlive, rfl⟩

/-- The scan finds a level that no other level of the side is better than. -/
theorem isBest_bestSlot (maxLevels : Nat) (m : Memory Cell) (side : Side) :
    IsBest (fun x => rank side x.1) (pricesOf m side (List.range maxLevels))
      (bestSlot maxLevels m side) := by
  have hnil : IsBest (fun x : UInt64 × Nat => rank side x.1) [] none := rfl
  have hfold : IsBest (fun x => rank side x.1)
      ([] ++ (pricesOf m side (List.range maxLevels)).flatMap fun x => [x])
      (bestSlot maxLevels m side) :=
    hnil.foldl_betterOf fun x _ => ⟨List.mem_cons_self, by simp⟩
  simpa using hfold

/-- So does the sort of a snapshot. -/
theorem isBest_sort (std : StdChoices) (maxLevels : Nat) (m : Memory Cell) (side : Side) :
    IsBest (fun x => rank side x.1) (pricesOf m side (List.range maxLevels))
      (std.sort (priceLess side) (pricesOf m side (List.range maxLevels))).head? := by
  refine (isBest_head? ?_).perm (std.sort_perm _ _)
  refine (std.sort_sorted (strictWeak_priceLess side) _).imp fun {a b} h => ?_
  cases side <;> simp only [priceLess, gt_iff_lt, decide_eq_false_iff_not, UInt64.lt_iff_toNat_lt,
    rank] at h ⊢ <;> omega

/-- The first level of a snapshot has the best price. -/
theorem head?_sortedLevels (std : StdChoices) (maxLevels : Nat) (m : Memory Cell) (side : Side) :
    (sortedLevels std maxLevels m side).head?.map PriceLevelSnapshot.price =
      (bestSlot maxLevels m side).map Prod.fst := by
  have hkeys := (isBest_sort std maxLevels m side).key_eq (isBest_bestSlot maxLevels m side)
  have hprices : (std.sort (priceLess side) (pricesOf m side (List.range maxLevels))).head?.map
      Prod.fst = (bestSlot maxLevels m side).map Prod.fst := by
    apply Option.map_injective (rank_injective side)
    rw [Option.map_map, Option.map_map]
    exact hkeys
  rw [← hprices, sortedLevels, List.head?_map, Option.map_map]
  apply Option.map_congr
  intro x hx
  have hmem : x ∈ std.sort (priceLess side) (pricesOf m side (List.range maxLevels)) :=
    List.mem_of_mem_head? hx
  rw [std.mem_sort] at hmem
  exact (mem_pricesOf hmem).2.2

/-- What a computation from the best prices returns when the cached indices are right. -/
theorem run_ofBestPrices (h : BestCached maxLevels m) (hN : maxLevels < 2 ^ 64)
    (value : ℚ → ℚ → ℚ) : ((ofBestPrices value).run m).1 =
      match (bestSlot maxLevels m .bid).map Prod.fst, (bestSlot maxLevels m .ask).map Prod.fst with
      | some bestBid, some bestAsk => value (fixedToDouble bestBid) (fixedToDouble bestAsk)
      | _, _ => 0 := by
  have hslot : ∀ side x, bestSlot maxLevels m side = some x →
      m (.bestIdx side) ≠ sizeMax ∧ m (.level side (m (.bestIdx side)).toNat .price) = x.1 := by
    intro side x hx
    have hbest := isBest_bestSlot maxLevels m side
    rw [hx] at hbest
    obtain ⟨hmem, -, hprice⟩ := mem_pricesOf hbest.1
    have hindex : m (.bestIdx side) = x.2.toUInt64 := by rw [h side, bestIndex, hx]; rfl
    rw [hindex, toNat_slot hN (List.mem_range.mp hmem)]
    exact ⟨slot_ne_sizeMax hN (List.mem_range.mp hmem), hprice⟩
  have hnone : ∀ side, bestSlot maxLevels m side = none → m (.bestIdx side) = sizeMax := by
    intro side hx
    rw [h side, bestIndex, hx]
    rfl
  simp only [ofBestPrices, run_bind, run_load]
  cases hbid : bestSlot maxLevels m .bid with
  | none => simp [hnone .bid hbid]
  | some x =>
    cases hask : bestSlot maxLevels m .ask with
    | none => simp [hnone .ask hask]
    | some y =>
      obtain ⟨hbidIdx, hbidPrice⟩ := hslot .bid x hbid
      obtain ⟨haskIdx, haskPrice⟩ := hslot .ask y hask
      simp [hbidIdx, haskIdx, hbidPrice, haskPrice]

/-- A side without a cached index is a side without levels. -/
theorem bestIdx_eq_sizeMax_iff (h : BestCached maxLevels m) (hN : maxLevels < 2 ^ 64) :
    m (.bestIdx side) = sizeMax ↔ bestSlot maxLevels m side = none := by
  rw [h side, bestIndex]
  cases hx : bestSlot maxLevels m side with
  | none => exact iff_of_true rfl rfl
  | some x =>
    have hbest := isBest_bestSlot maxLevels m side
    rw [hx] at hbest
    have hi := List.mem_range.mp (mem_pricesOf hbest.1).1
    exact iff_of_false (slot_ne_sizeMax hN hi) (by simp)

/-- `get_spread` and `get_mid_price` return what a snapshot's first bid and first ask
give, and zero, with a cached index of `SIZE_MAX`, when the snapshot lacks one of them. -/
def AgreesWith (m : Memory Cell) (snapshot : OrderBookSnapshot) : Prop :=
  (∀ bid ask, snapshot.bids.head? = some bid → snapshot.asks.head? = some ask →
    (getSpread.run m).1 = fixedToDouble ask.price - fixedToDouble bid.price ∧
      (getMidPrice.run m).1 = (fixedToDouble bid.price + fixedToDouble ask.price) / 2) ∧
  ((m (.bestIdx .bid) = sizeMax ∨ m (.bestIdx .ask) = sizeMax) ↔
    snapshot.bids = [] ∨ snapshot.asks = []) ∧
  (snapshot.bids = [] ∨ snapshot.asks = [] →
    (getSpread.run m).1 = 0 ∧ (getMidPrice.run m).1 = 0)

/-- The cached best prices agree with the snapshots of a book after any calls. -/
theorem bestPrices_agree (std : StdChoices) {maxLevels : Nat} (hN : maxLevels < 2 ^ 64)
    (calls : List Call) {depth : Nat} (hdepth : 1 ≤ depth) (timestamp : UInt64) :
    ∃ snapshot, ((snapshotRound std maxLevels depth timestamp).run (bookAfter maxLevels calls)).1 =
      some snapshot ∧ AgreesWith (bookAfter maxLevels calls) snapshot := by
  have hcached := bestCached_bookAfter hN calls
  rw [run_snapshotRound std maxLevels depth timestamp (even_bookAfter maxLevels calls)]
  refine ⟨_, rfl, ?_⟩
  let m := bookAfter maxLevels calls
  have hhead : ∀ side, ((sortedLevels std maxLevels m side).take depth).head?.map
      PriceLevelSnapshot.price = (bestSlot maxLevels m side).map Prod.fst := by
    intro side
    rw [List.head?_take, if_neg (by omega), head?_sortedLevels]
  have hempty : ∀ side, (sortedLevels std maxLevels m side).take depth = [] ↔
      bestSlot maxLevels m side = none := by
    intro side
    rw [← List.head?_eq_none_iff, ← Option.map_eq_none_iff (f := PriceLevelSnapshot.price), hhead,
      Option.map_eq_none_iff]
  refine ⟨fun bid ask hbid hask => ?_, ?_, fun hnone => ?_⟩
  · have hbestBid := hhead .bid
    have hbestAsk := hhead .ask
    rw [show ((sortedLevels std maxLevels m .bid).take depth).head? = some bid from hbid]
      at hbestBid
    rw [show ((sortedLevels std maxLevels m .ask).take depth).head? = some ask from hask]
      at hbestAsk
    rw [getSpread, getMidPrice, run_ofBestPrices hcached hN, run_ofBestPrices hcached hN,
      ← hbestBid, ← hbestAsk]
    exact ⟨rfl, rfl⟩
  · rw [bestIdx_eq_sizeMax_iff hcached hN, bestIdx_eq_sizeMax_iff hcached hN]
    exact or_congr (hempty .bid).symm (hempty .ask).symm
  · have hslots := hnone.imp (hempty .bid).mp (hempty .ask).mp
    rw [getSpread, getMidPrice, run_ofBestPrices hcached hN, run_ofBestPrices hcached hN]
    rcases hslots with hbid | hask
    · simp [m, hbid]
    · cases (bestSlot maxLevels m .bid).map Prod.fst <;> simp [m, hask]

/-- After a bid and an ask, and with the bid removed again. -/
theorem bestPrices_agree_bidRemoved :
    ∃ snapshot, ((snapshotRound .stable 2 1 0).run (bookAfter 2
      [.update ⟨.bid, 5, 1, 1, 0⟩, .update ⟨.ask, 7, 1, 1, 0⟩, .update ⟨.bid, 5, 0, 1, 0⟩])).1 =
      some snapshot ∧ AgreesWith (bookAfter 2
        [.update ⟨.bid, 5, 1, 1, 0⟩, .update ⟨.ask, 7, 1, 1, 0⟩, .update ⟨.bid, 5, 0, 1, 0⟩])
        snapshot :=
  bestPrices_agree .stable (by decide) _ (by decide) 0

end Agreement

end OrderbookEngine.OrderBook
