import OrderbookEngine.Core.OrderBookUpdate
import OrderbookEngine.Library.Transition

/-!
# The order book as a finite map

A book that is used by one thread is meant to hold the map of its last writes,
and a snapshot to show it best price first. It does so after every call exactly
when every update finds the level that its price has; removals that break a
probe chain let an update miss it.
-/

namespace OrderbookEngine.OrderBook

open Prog LastWrite Transition

/-- The better price of a side: bids descend, asks ascend. -/
def Better : Side → UInt64 → UInt64 → Prop
  | .bid, a, b => a > b
  | .ask, a, b => a < b

/-- A level as a binding of its price. -/
def levelEntry (l : PriceLevelSnapshot UInt64) : UInt64 × LevelValue :=
  (l.price, l.quantity, l.orderCount)

/-- The levels are the bindings of the map, best price first and cut to the depth. -/
def Shows (side : Side) (depth : Nat) (levels : List (PriceLevelSnapshot UInt64))
    (map : LastWrite UInt64 LevelValue) : Prop :=
  ∃ full : List (PriceLevelSnapshot UInt64),
    full.Pairwise (fun a b => Better side a.price b.price) ∧
      Lists (full.map levelEntry) map ∧ levels = full.take depth

/-- The calls that change a book. -/
inductive Call where
  | update (u : LevelUpdate)
  | clear
  deriving DecidableEq, Repr

namespace Call

/-- The memory after the call. -/
def run (maxLevels : Nat) (m : Memory Cell) : Call → Memory Cell
  | update u => ((updateLevel maxLevels u).run m).2
  | clear => ((OrderBook.clear maxLevels).run m).2

/-- What the call writes to the map of a side. -/
def write (side : Side) (map : LastWrite UInt64 LevelValue) : Call → LastWrite UInt64 LevelValue
  | update u => if u.side = side then map.write u.priceFixed u.value else map
  | clear => empty

end Call

/-- The words of a book after a sequence of calls. -/
def bookAfter (maxLevels : Nat) (calls : List Call) : Memory Cell :=
  calls.foldl (Call.run maxLevels) construct

/-- The last write to each price of a side since the last `clear`. -/
def lastWrites (side : Side) (calls : List Call) : LastWrite UInt64 LevelValue :=
  calls.foldl (Call.write side) empty

/-- `get_snapshot` shows the last writes of both sides, at every depth. -/
def Refines (std : StdChoices) (maxLevels : Nat) (calls : List Call) : Prop :=
  ∀ depth timestamp, ∃ snapshot,
    ((snapshotRound std maxLevels depth timestamp).run (bookAfter maxLevels calls)).1 =
      some snapshot ∧
    Shows .bid depth snapshot.bids (lastWrites .bid calls) ∧
    Shows .ask depth snapshot.asks (lastWrites .ask calls)

variable {std : StdChoices} {maxLevels depth : Nat} {m : Memory Cell} {side : Side}
  {map : LastWrite UInt64 LevelValue}

section Snapshot

/-- A slot as `get_snapshot` reads it. -/
def snapshotAt (m : Memory Cell) (side : Side) (i : Nat) : PriceLevelSnapshot UInt64 :=
  ⟨m (.level side i .price), m (.level side i .quantity),
    (m (.level side i .orderCount)).toUInt32⟩

/-- The prices of the slots in use, with their slots. -/
def pricesOf (m : Memory Cell) (side : Side) (slots : List Nat) : List (UInt64 × Nat) :=
  (slots.filter fun i => m (.level side i .price) ≠ 0).map fun i => (m (.level side i .price), i)

theorem run_collectPrices (side : Side) (n start : Nat) (m : Memory Cell) :
    (collectPrices side n start).run m = (pricesOf m side (List.range' start n), m) := by
  induction n generalizing start with
  | zero => rfl
  | succ n ih =>
    simp only [collectPrices, run_bind, run_load, ih, List.range'_succ]
    by_cases h : m (.level side start .price) = 0
    · simp [h, pricesOf]
    · have hpos : m (.level side start .price) > 0 := by
        rw [gt_iff_lt, UInt64.lt_iff_toNat_lt]
        exact Nat.pos_of_ne_zero fun h0 => h (UInt64.toNat_inj.mp h0)
      simp [h, hpos, pricesOf]

theorem run_readLevels (side : Side) (prices : List (UInt64 × Nat)) (m : Memory Cell) :
    (readLevels side prices).run m = (prices.map fun x => snapshotAt m side x.2, m) := by
  induction prices with
  | nil => rfl
  | cons x prices ih => simp [readLevels, ih, snapshotAt]

/-- All levels of a side in the order of its comparator. -/
def sortedLevels (std : StdChoices) (maxLevels : Nat) (m : Memory Cell) (side : Side) :
    List (PriceLevelSnapshot UInt64) :=
  (std.sort (priceLess side) (pricesOf m side (List.range maxLevels))).map
    fun x => snapshotAt m side x.2

theorem run_readSide (std : StdChoices) (maxLevels depth : Nat) (side : Side) (m : Memory Cell) :
    (readSide std maxLevels depth side).run m =
      ((sortedLevels std maxLevels m side).take depth, m) := by
  simp only [readSide, run_bind, run_collectPrices, run_readLevels, sortedLevels, List.map_take,
    List.range_eq_range']

/-- The snapshot that `get_snapshot` reads when nothing else runs. -/
def snapshotOf (std : StdChoices) (maxLevels depth : Nat) (timestamp : UInt64)
    (m : Memory Cell) : OrderBookSnapshot where
  symbol := []
  exchange := .unknown
  timestamp := timestamp
  sequenceNumber := m .sequenceNumber
  bids := (sortedLevels std maxLevels m .bid).take depth
  asks := (sortedLevels std maxLevels m .ask).take depth

theorem run_readBook (std : StdChoices) (maxLevels depth : Nat) (timestamp : UInt64)
    (m : Memory Cell) : (readBook std maxLevels depth timestamp).run m =
      (snapshotOf std maxLevels depth timestamp m, m) := by
  simp only [readBook, run_bind, run_readSide, run_load, run_pure, snapshotOf]

/-- With an even sequence, a round that runs alone returns its snapshot. -/
theorem run_snapshotRound (std : StdChoices) (maxLevels depth : Nat) (timestamp : UInt64)
    (heven : m .sequence &&& 1 = 0) : (snapshotRound std maxLevels depth timestamp).run m =
      (some (snapshotOf std maxLevels depth timestamp m), m) := by
  simp [snapshotRound, heven, run_readBook]

theorem levelEntry_sortedLevels_perm (std : StdChoices) (maxLevels : Nat) (m : Memory Cell)
    (side : Side) :
    ((sortedLevels std maxLevels m side).map levelEntry).Perm (liveLevels maxLevels m side) := by
  have h := (std.sort_perm (priceLess side) (pricesOf m side (List.range maxLevels))).map
    fun x => levelEntry (snapshotAt m side x.2)
  rw [sortedLevels, List.map_map]
  refine h.trans (List.Perm.of_eq ?_)
  rw [pricesOf, List.map_map]
  rfl

theorem strictWeak_priceLess : ∀ side, StrictWeak (priceLess side)
  | .bid => by
    have h := strictWeak_gt fun x : UInt64 × Nat => x.1.toNat
    simpa only [priceLess, gt_iff_lt, UInt64.lt_iff_toNat_lt] using h
  | .ask => by
    have h := strictWeak_lt fun x : UInt64 × Nat => x.1.toNat
    simpa only [priceLess, UInt64.lt_iff_toNat_lt] using h

/-- Of two different prices, one that does not follow comes first. -/
theorem better_of_not_less {a b : UInt64 × Nat} (h : priceLess side b a = false)
    (hne : a.1 ≠ b.1) : Better side a.1 b.1 := by
  have hne' : a.1.toNat ≠ b.1.toNat := fun he => hne (UInt64.toNat_inj.mp he)
  cases side <;> simp only [priceLess, Better, gt_iff_lt, decide_eq_false_iff_not,
    UInt64.lt_iff_toNat_lt] at h ⊢ <;> omega

/-- Without a price in two slots, the sorted levels are in strict order. -/
theorem pairwise_sortedLevels (hnd : ((liveLevels maxLevels m side).map Prod.fst).Nodup) :
    (sortedLevels std maxLevels m side).Pairwise fun a b => Better side a.price b.price := by
  have hlive : ∀ x ∈ std.sort (priceLess side) (pricesOf m side (List.range maxLevels)),
      x.1 = (snapshotAt m side x.2).price := by
    intro x hx
    rw [std.mem_sort, pricesOf, List.mem_map] at hx
    obtain ⟨i, -, rfl⟩ := hx
    rfl
  have hsorted := std.sort_sorted (strictWeak_priceLess side)
    (pricesOf m side (List.range maxLevels))
  have hperm := (levelEntry_sortedLevels_perm std maxLevels m side).map Prod.fst
  have hdistinct := hperm.nodup_iff.mpr hnd
  rw [sortedLevels, List.map_map, List.map_map, List.Nodup, List.pairwise_map] at hdistinct
  rw [sortedLevels, List.pairwise_map]
  refine (hsorted.and hdistinct).imp_of_mem fun {a b} ha hb hab => ?_
  rw [← hlive a ha, ← hlive b hb]
  apply better_of_not_less hab.1
  rw [hlive a ha, hlive b hb]
  exact hab.2

/-- Slots that list the map are shown as it. -/
theorem shows_of_lists (std : StdChoices) (h : Lists (liveLevels maxLevels m side) map)
    (depth : Nat) : Shows side depth ((sortedLevels std maxLevels m side).take depth) map :=
  ⟨_, pairwise_sortedLevels h.nodup, h.perm (levelEntry_sortedLevels_perm ..), rfl⟩

/-- A snapshot of full depth shows the map only if the slots list it. -/
theorem lists_of_shows (hroom : AtMost maxLevels map)
    (h : Shows side maxLevels ((sortedLevels std maxLevels m side).take maxLevels) map) :
    Lists (liveLevels maxLevels m side) map := by
  obtain ⟨full, -, hlists, htake⟩ := h
  have hfull : full.length ≤ maxLevels := by
    have hlen := hroom.length_le hlists.nodup fun price hprice => by
      obtain ⟨x, hx, rfl⟩ := List.mem_map.mp hprice
      exact ⟨x.2, (hlists.mem_iff x.1 x.2).mp hx⟩
    simpa using hlen
  have hperm := levelEntry_sortedLevels_perm std maxLevels m side
  have hsorted : (sortedLevels std maxLevels m side).length ≤ maxLevels := by
    have hlen := hperm.length_eq
    rw [List.length_map] at hlen
    exact hlen ▸ length_liveLevels_le m side
  rw [List.take_of_length_le hsorted, List.take_of_length_le hfull] at htake
  rw [← htake] at hlists
  exact hlists.perm hperm.symm

end Snapshot

section Runs

/-- Between calls the sequence is even and each side keeps its invariant. -/
structure BookInv (maxLevels : Nat) (calls : List Call) : Prop where
  even : bookAfter maxLevels calls .sequence &&& 1 = 0
  side : ∀ side, SideInv maxLevels (bookAfter maxLevels calls) side (lastWrites side calls)

@[simp] theorem bookAfter_append (maxLevels : Nat) (calls : List Call) (c : Call) :
    bookAfter maxLevels (calls ++ [c]) = c.run maxLevels (bookAfter maxLevels calls) := by
  simp [bookAfter]

@[simp] theorem lastWrites_append (side : Side) (calls : List Call) (c : Call) :
    lastWrites side (calls ++ [c]) = c.write side (lastWrites side calls) := by
  simp [lastWrites]

/-- A price that no update of the side writes is unbound. -/
theorem lastWrites_eq_none {calls : List Call} {price : UInt64}
    (h : ∀ u, .update u ∈ calls → u.side = side → u.priceFixed ≠ price) :
    lastWrites side calls price = none := by
  induction calls using List.reverseRecOn with
  | nil => rfl
  | append_singleton calls c ih =>
    have hpre := ih fun u hu => h u (List.mem_append_left _ hu)
    rw [lastWrites_append]
    cases c with
    | clear => rfl
    | update u =>
      by_cases hside : u.side = side
      · rw [Call.write, if_pos hside, LastWrite.write_of_ne _ _ (Ne.symm (h u (by simp) hside)),
          hpre]
      · rw [Call.write, if_neg hside, hpre]

/-- Histories that write few prices bind few. -/
theorem atMost_lastWrites {calls : List Call} (prices : List UInt64)
    (hlen : prices.length ≤ maxLevels)
    (h : ∀ u, .update u ∈ calls → u.side = side → u.priceFixed ∈ prices) :
    AtMost maxLevels (lastWrites side calls) := by
  refine ⟨prices, hlen, fun price value hvalue => by_contra fun hnot => ?_⟩
  have hnone : lastWrites side calls price = none :=
    lastWrites_eq_none fun u hu hside he => hnot (he ▸ h u hu hside)
  rw [hnone] at hvalue
  cases hvalue

theorem even_add_two {x : UInt64} (h : x &&& 1 = 0) : (x + 1 + 1) &&& 1 = 0 := by
  rw [← UInt64.toNat_inj] at h ⊢
  simp only [UInt64.toNat_and, UInt64.toNat_add, UInt64.toNat_one, UInt64.toNat_zero,
    Nat.and_one_is_mod] at h ⊢
  omega

theorem bookInv_nil (maxLevels : Nat) : BookInv maxLevels [] := by
  refine ⟨by simp [bookAfter, construct], fun side => ⟨?_, fun k hk => absurd rfl hk,
    fun k k' hk _ => absurd rfl hk, fun k hk => absurd rfl hk⟩⟩
  have hnil : liveLevels maxLevels construct side = [] :=
    List.eq_nil_iff_forall_not_mem.mpr fun x hx => by
      obtain ⟨i, -, hlive, -⟩ := mem_liveLevels.mp hx
      exact hlive rfl
  rw [bookAfter, List.foldl_nil, hnil]
  exact lists_nil

/-- A book that keeps the invariant shows its last writes. -/
theorem BookInv.refines {calls : List Call} (h : BookInv maxLevels calls) (std : StdChoices) :
    Refines std maxLevels calls := fun depth timestamp =>
  ⟨_, congrArg Prod.fst (run_snapshotRound std maxLevels depth timestamp h.even),
    shows_of_lists std (h.side .bid).lists depth, shows_of_lists std (h.side .ask).lists depth⟩

theorem BookInv.clear {calls : List Call} (h : BookInv maxLevels calls) :
    BookInv maxLevels (calls ++ [.clear]) := by
  constructor
  · rw [bookAfter_append, Call.run, run_clear_sequence]
    exact even_add_two h.even
  · intro side
    rw [bookAfter_append, lastWrites_append]
    exact (h.side side).clear

theorem even_bookAfter_update {calls : List Call} (h : BookInv maxLevels calls)
    (u : LevelUpdate) : bookAfter maxLevels (calls ++ [.update u]) .sequence &&& 1 = 0 := by
  rw [bookAfter_append, Call.run, run_updateLevel_sequence]
  exact even_add_two h.even

theorem lastWrites_update (calls : List Call) (u : LevelUpdate) :
    lastWrites u.side (calls ++ [.update u]) =
      (lastWrites u.side calls).write u.priceFixed u.value := by
  rw [lastWrites_append, Call.write, if_pos rfl]

/-- An update that finds its level keeps the invariant. -/
theorem BookInv.update {calls : List Call} {u : LevelUpdate} (h : BookInv maxLevels calls)
    (hN : maxLevels < 2 ^ 64) (hp : u.priceFixed ≠ 0)
    (hroom : AtMost maxLevels (lastWrites u.side (calls ++ [.update u])))
    (hfinds : Finds maxLevels (bookAfter maxLevels calls) (lastWrites u.side calls) u) :
    BookInv maxLevels (calls ++ [.update u]) := by
  refine ⟨even_bookAfter_update h u, fun side => ?_⟩
  rw [bookAfter_append]
  by_cases hside : side = u.side
  · subst hside
    rw [lastWrites_update] at hroom ⊢
    exact ((h.side u.side).placeLevel hN hp hroom hfinds).congr fun c hc =>
      run_updateLevel_onSide maxLevels u _ hc
  · rw [lastWrites_append, Call.write, if_neg (Ne.symm hside)]
    exact (h.side side).congr fun c hc => run_updateLevel_other hside hc

/-- A book on which every update finds its level keeps the invariant. -/
theorem bookInv_of_finds {calls : List Call} (hN : maxLevels < 2 ^ 64)
    (hprices : ∀ u, .update u ∈ calls → u.priceFixed ≠ 0)
    (hroom : ∀ pre, pre <+: calls → ∀ side, AtMost maxLevels (lastWrites side pre))
    (hfinds : ∀ pre u, pre ++ [.update u] <+: calls →
      Finds maxLevels (bookAfter maxLevels pre) (lastWrites u.side pre) u) :
    BookInv maxLevels calls := by
  induction calls using List.reverseRecOn with
  | nil => exact bookInv_nil maxLevels
  | append_singleton calls c ih =>
    have hp := List.prefix_append calls [c]
    have hinv := ih (fun u hu => hprices u (List.mem_append_left _ hu))
      (fun pre h => hroom pre (h.trans hp)) (fun pre u h => hfinds pre u (h.trans hp))
    cases c with
    | clear => exact hinv.clear
    | update u =>
      exact hinv.update hN (hprices u (by simp)) (hroom _ List.prefix_rfl _)
        (hfinds calls u List.prefix_rfl)

/-- An update that misses its level is not shown. -/
theorem BookInv.not_refines {calls : List Call} {u : LevelUpdate} (h : BookInv maxLevels calls)
    (hN : maxLevels < 2 ^ 64) (hp : u.priceFixed ≠ 0)
    (hroom : AtMost maxLevels (lastWrites u.side (calls ++ [.update u])))
    (hmisses : ¬ Finds maxLevels (bookAfter maxLevels calls) (lastWrites u.side calls) u) :
    ¬ Refines std maxLevels (calls ++ [.update u]) := by
  intro hrefines
  obtain ⟨snapshot, hsnapshot, hbids, hasks⟩ := hrefines maxLevels 0
  rw [run_snapshotRound std maxLevels maxLevels 0 (even_bookAfter_update h u)] at hsnapshot
  cases hsnapshot
  apply (h.side u.side).not_lists hN hp hmisses
  have hshows : Shows u.side maxLevels
      ((sortedLevels std maxLevels (bookAfter maxLevels (calls ++ [.update u])) u.side).take
        maxLevels) (lastWrites u.side (calls ++ [.update u])) := by
    cases u.side with
    | bid => exact hbids
    | ask => exact hasks
  have hlists := lists_of_shows hroom hshows
  rw [lastWrites_update, bookAfter_append] at hlists
  have hsame : liveLevels maxLevels (Call.run maxLevels (bookAfter maxLevels calls) (.update u))
      u.side = liveLevels maxLevels
        ((placeLevel maxLevels u).run (bookAfter maxLevels calls)).2 u.side :=
    levelsOf_congr fun i _ field hf => run_updateLevel_onSide maxLevels u _ ⟨rfl, hf⟩
  rwa [hsame] at hlists

/-- Snapshots show the last writes after every call exactly when every update
finds the level of its price. -/
theorem refines_iff_finds (std : StdChoices) {maxLevels : Nat} (hN : maxLevels ≤ 1000)
    {calls : List Call} (hprices : ∀ u, .update u ∈ calls → u.priceFixed ≥ 1)
    (hroom : ∀ pre, pre <+: calls → ∀ side, AtMost maxLevels (lastWrites side pre)) :
    (∀ pre, pre <+: calls → Refines std maxLevels pre) ↔
      ∀ pre u, pre ++ [.update u] <+: calls →
        Finds maxLevels (bookAfter maxLevels pre) (lastWrites u.side pre) u := by
  have hN' : maxLevels < 2 ^ 64 := hN.trans_lt (by decide)
  have hprice : ∀ pre u, pre ++ [.update u] <+: calls → u.priceFixed ≠ 0 := by
    intro pre u hp h0
    have hone := hprices u (hp.subset (by simp))
    rw [h0] at hone
    exact absurd hone (by decide)
  have hgood : ∀ pre c, pre ++ [c] <+: calls → BookInv maxLevels pre →
      (∀ u, c = .update u → Finds maxLevels (bookAfter maxLevels pre) (lastWrites u.side pre) u) →
      BookInv maxLevels (pre ++ [c]) := by
    intro pre c hp hinv hfinds
    cases c with
    | clear => exact hinv.clear
    | update u => exact hinv.update hN' (hprice pre u hp) (hroom _ hp _) (hfinds u rfl)
  have hbad : ∀ pre c, pre ++ [c] <+: calls → BookInv maxLevels pre →
      ¬ (∀ u, c = .update u →
        Finds maxLevels (bookAfter maxLevels pre) (lastWrites u.side pre) u) →
      ¬ Refines std maxLevels (pre ++ [c]) := by
    intro pre c hp hinv hmisses
    cases c with
    | clear => exact absurd (fun u hu => nomatch hu) hmisses
    | update u =>
      apply hinv.not_refines hN' (hprice pre u hp) (hroom _ hp _)
      intro hfinds
      apply hmisses
      rintro u' ⟨⟩
      exact hfinds
  rw [prefixes_iff_guarded (BookInv maxLevels) (bookInv_nil maxLevels)
    (fun pre hinv => hinv.refines std) hgood hbad]
  exact ⟨fun h pre u hp => h pre _ hp u rfl, fun h pre c hp u hu => h pre u (hu ▸ hp)⟩

/-- One bid is shown. -/
theorem refines_iff_finds_oneBid :
    Refines .stable 2 [.update ⟨.bid, 1, 5, 1, 0⟩] := by
  refine (refines_iff_finds .stable (by decide) ?_ ?_).mpr ?_ _ List.prefix_rfl
  · simp
  · intro pre hp side
    apply atMost_lastWrites [1] (by decide)
    intro u hu _
    have hmem := hp.subset hu
    simp only [List.mem_singleton, Call.update.injEq] at hmem
    simp [hmem]
  · intro pre u hp
    have hlen := hp.length_le
    rw [List.length_append, List.length_singleton, List.length_singleton] at hlen
    rw [List.eq_nil_of_length_eq_zero (by omega : pre.length = 0)]
    exact Or.inr (Or.inl rfl)

end Runs

/-- Bids at two prices with one hash, the first of which is removed: the next
update of the second misses its level and takes another slot. -/
def collidingBids : List Call :=
  [.update ⟨.bid, 1, 5, 1, 0⟩, .update ⟨.bid, 4097, 7, 1, 0⟩, .update ⟨.bid, 1, 0, 1, 0⟩,
    .update ⟨.bid, 4097, 7, 1, 0⟩]

/-- A price is listed twice after its probe chain was broken. -/
theorem refines_fails :
    ¬ ∀ (std : StdChoices) (maxLevels : Nat) (calls : List Call), maxLevels ≤ 1000 →
      (∀ u, .update u ∈ calls → u.priceFixed ≥ 1) →
      (∀ pre, pre <+: calls → ∀ side, AtMost maxLevels (lastWrites side pre)) →
      Refines std maxLevels calls := by
  intro h
  have hroom : ∀ pre, pre <+: collidingBids → ∀ side, AtMost 2 (lastWrites side pre) := by
    intro pre hp side
    apply atMost_lastWrites [1, 4097] (by decide)
    intro u hu _
    have hmem := hp.subset hu
    simp only [collidingBids, List.mem_cons, Call.update.injEq, List.not_mem_nil, or_false]
      at hmem
    rcases hmem with rfl | rfl | rfl | rfl <;> decide
  have hrefines := h .stable 2 collidingBids (by decide) (by simp [collidingBids]) hroom
  obtain ⟨snapshot, hsnapshot, ⟨full, hstrict, -, htake⟩, -⟩ := hrefines 2 0
  have hbids : (((snapshotRound .stable 2 2 0).run (bookAfter 2 collidingBids)).1.map
      fun s => s.bids.map fun l => l.price) = some [4097, 4097] := by
    decide +kernel
  rw [hsnapshot, Option.map_some, Option.some.injEq, htake, List.map_take] at hbids
  have hpair := (List.pairwise_map.mpr hstrict).sublist (List.take_sublist 2 _)
  rw [hbids] at hpair
  simp [Better] at hpair

end OrderbookEngine.OrderBook
