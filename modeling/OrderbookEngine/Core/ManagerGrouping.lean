import OrderbookEngine.Core.ManagerAggregate
import OrderbookEngine.Library.BestOf
import OrderbookEngine.Library.Grouping

/-!
# Grouping in the aggregated book of the order book manager

A snapshot groups the stored levels by price through an unordered map, sorts
the groups and cuts them; the best quotes are the fronts of the stored vectors.
Both views agree because every history of updates keeps the vectors sorted.
-/

namespace OrderbookEngine.Manager.AggregatedOrderBook

/-- `get_best_bid`. -/
def getBestBid (book : AggregatedOrderBook) : Option ExchangeLevel := book.aggregatedBids.head?

/-- `get_best_ask`. -/
def getBestAsk (book : AggregatedOrderBook) : Option ExchangeLevel := book.aggregatedAsks.head?

/-- The best quote of a side. -/
def bestQuote (book : AggregatedOrderBook) : Side → Option ExchangeLevel
  | .bid => book.getBestBid
  | .ask => book.getBestAsk

/-- The price of a stored level as an exact number. -/
def exactPrice (l : ExchangeLevel) : ℚ := fixedToDouble l.price

/-- The first price stands before the second: bids descend, asks ascend. -/
def Before : Side → ℚ → ℚ → Prop
  | .bid => fun p q => q < p
  | .ask => fun p q => p < q

/-- The first price may stand before the second: equal, or nearer the front. -/
def NotAfter : Side → ℚ → ℚ → Prop
  | .bid => fun p q => q ≤ p
  | .ask => fun p q => p ≤ q

/-- The vector of a side is sorted from the best price on. -/
def Sorted (side : Side) (stored : List ExchangeLevel) : Prop :=
  stored.Pairwise fun l l' => NotAfter side (exactPrice l) (exactPrice l')

/-- The distinct prices of a vector. -/
def distinctPrices (stored : List ExchangeLevel) : List ℚ := (stored.map exactPrice).dedup

/-- The groups that a snapshot of some depth shows of a stored vector. -/
structure Grouped (side : Side) (stored : List ExchangeLevel) (depth : Nat)
    (groups : List AggregatedLevel) : Prop where
  strict : groups.Pairwise fun a b => Before side a.price b.price
  quantity : ∀ a ∈ groups,
    a.quantity = (a.exchangeLevels.map fun l => fixedToDouble l.quantity).sum
  price : ∀ a ∈ groups, a.exchangeLevels ≠ [] ∧ ∀ l ∈ a.exchangeLevels, exactPrice l = a.price
  /-- A shown price is shown with every level stored at it. -/
  whole : ∀ a ∈ groups, a.exchangeLevels = stored.filter fun l => exactPrice l = a.price
  /-- The shown prices are the best ones, as many as the depth allows. -/
  best : groups.map (·.price) = (distinctPrices stored).take depth
  all : (distinctPrices stored).length ≤ depth →
    (groups.flatMap (·.exchangeLevels)).Perm stored

/-- The best quote is a stored level at the price of the front group, and missing
exactly when no snapshot has a group. -/
structure FrontAgrees (std : StdChoices) (book : AggregatedOrderBook) (side : Side) : Prop where
  stored : ∀ l, book.bestQuote side = some l → l ∈ book.levels side
  front : ∀ depth now, (book.bestQuote side).map exactPrice =
    (snapshotSide (book.getSnapshot std (depth + 1) now) side).head?.map (·.price)

section Prices

theorem fixedToDouble_lt {a b : UInt64} : fixedToDouble a < fixedToDouble b ↔ a < b := by
  rw [fixedToDouble, fixedToDouble, div_lt_div_iff_of_pos_right (by norm_num), Nat.cast_lt,
    UInt64.lt_iff_toNat_lt]

theorem fixedToDouble_inj {a b : UInt64} : fixedToDouble a = fixedToDouble b ↔ a = b := by
  rw [fixedToDouble, fixedToDouble, div_left_inj' (by norm_num), Nat.cast_inj,
    UInt64.toNat_inj]

variable {side : Side} {p q : ℚ}

theorem notAfter_of_not_before (h : ¬ Before side q p) : NotAfter side p q := by
  cases side <;> exact not_lt.mp h

theorem before_of_notAfter_of_ne (h : NotAfter side p q) (hne : p ≠ q) : Before side p q := by
  cases side with
  | bid => exact lt_of_le_of_ne h hne.symm
  | ask => exact lt_of_le_of_ne h hne

theorem notAfter_antisymm (h : NotAfter side p q) (h' : NotAfter side q p) : p = q := by
  cases side with
  | bid => exact le_antisymm h' h
  | ask => exact le_antisymm h h'

/-- The comparators of the source compare the exact prices. -/
theorem levelLess_iff {l l' : ExchangeLevel} :
    levelLess side l l' = true ↔ Before side (exactPrice l) (exactPrice l') := by
  cases side with
  | bid => simp [levelLess, Before, exactPrice, fixedToDouble_lt]
  | ask => simp [levelLess, Before, exactPrice, fixedToDouble_lt]

theorem strictWeak_levelLess (side : Side) : StrictWeak (levelLess side) := by
  cases side with
  | bid =>
    have heq : levelLess .bid = fun a b => decide (exactPrice b < exactPrice a) := by
      funext a b
      simp [levelLess, exactPrice, fixedToDouble_lt]
    rw [heq]
    exact strictWeak_gt exactPrice
  | ask =>
    have heq : levelLess .ask = fun a b => decide (exactPrice a < exactPrice b) := by
      funext a b
      simp [levelLess, exactPrice, fixedToDouble_lt]
    rw [heq]
    exact strictWeak_lt exactPrice

end Prices

section Sorted

variable (std : StdChoices) {side : Side} {levels : List ExchangeLevel}

theorem sorted_sort (side : Side) (levels : List ExchangeLevel) :
    Sorted side (std.sort (levelLess side) levels) := by
  refine (std.sort_sorted (strictWeak_levelLess side) levels).imp fun {l l'} h => ?_
  apply notAfter_of_not_before
  rw [← levelLess_iff, h]
  exact Bool.false_ne_true

/-- An update keeps the vector sorted: it erases a level, keeps its price, or sorts. -/
theorem Sorted.updateLevels (h : Sorted side levels) (level : ExchangeLevel) :
    Sorted side (updateLevels std side level levels) := by
  by_cases hown : OwnFirst levels level.exchange level.price
  · obtain ⟨before, found, after, rfl, -, -, heq⟩ := updateLevels_own std side level hown
    rw [heq]
    split
    · exact h.sublist ((List.sublist_cons_self found after).append_left before)
    · unfold Sorted at h ⊢
      rw [← List.pairwise_map (f := exactPrice) (R := NotAfter side)] at h ⊢
      simpa [exactPrice] using h
  · rw [updateLevels_other std side level hown]
    split
    · exact h
    · exact sorted_sort std side _

/-- Both vectors are sorted after any calls. -/
theorem sorted_run (calls : List Call) (side : Side) :
    Sorted side ((run std calls).levels side) := by
  induction calls using List.reverseRecOn with
  | nil => cases side <;> exact List.Pairwise.nil
  | append_singleton calls call ih =>
    rw [run_append]
    cases call with
    | clear => cases side <;> exact List.Pairwise.nil
    | updateLevel ex side' p q ts =>
      rw [step, levels_updateLevel]
      split
      · rename_i heq
        subst heq
        exact ih.updateLevels std _
      · exact ih

end Sorted

section Groups

/-- Adding a level to its group: the group with its price gains it at the end, or a
new group comes last. -/
theorem pushLevel_eq {groups : List (UInt64 × List ExchangeLevel)} {level : ExchangeLevel}
    (hnd : (groups.map Prod.fst).Nodup) :
    pushLevel groups level =
      if level.price ∈ groups.map Prod.fst then
        groups.map fun g => if g.1 = level.price then (g.1, g.2 ++ [level]) else g
      else groups ++ [(level.price, [level])] := by
  induction groups with
  | nil => rfl
  | cons g rest ih =>
    obtain ⟨price, levels⟩ := g
    rw [List.map_cons, List.nodup_cons] at hnd
    by_cases hp : price = level.price
    · subst hp
      -- the other groups have other prices
      have hrest : rest.map (fun g => if g.1 = level.price then (g.1, g.2 ++ [level]) else g) =
          rest := by
        refine (List.map_congr_left fun g hg => ?_).trans (List.map_id rest)
        have hne : g.1 ≠ level.price := by
          intro he
          have hmem : g.1 ∈ rest.map Prod.fst := List.mem_map_of_mem hg
          rw [he] at hmem
          exact hnd.1 hmem
        exact if_neg hne
      simp [pushLevel, hrest]
    · rw [pushLevel, if_neg hp, ih hnd.2]
      by_cases hmem : level.price ∈ rest.map Prod.fst
      · simp [hmem, hp]
      · simp [hmem, Ne.symm hp]

/-- The loop over the vector groups it by price. -/
theorem groups_foldl (levels : List ExchangeLevel) :
    Groups ExchangeLevel.price levels (levels.foldl pushLevel []) := by
  induction levels using List.reverseRecOn with
  | nil => exact Groups.nil _
  | append_singleton levels level ih =>
    rw [List.foldl_append, List.foldl_cons, List.foldl_nil, pushLevel_eq ih.nodup]
    split
    · rename_i hmem
      exact ih.snoc_of_mem hmem
    · rename_i hmem
      exact ih.snoc_of_not_mem hmem

/-- The aggregated level of a group. -/
def levelOfGroup (g : UInt64 × List ExchangeLevel) : AggregatedLevel where
  price := fixedToDouble g.1
  quantity := (g.2.map fun l => fixedToDouble l.quantity).sum
  exchangeLevels := g.2

/-- The comparator of the groups of a side. -/
def groupLess : Side → AggregatedLevel → AggregatedLevel → Bool
  | .bid => fun a b => decide (a.price > b.price)
  | .ask => fun a b => decide (a.price < b.price)

theorem strictWeak_groupLess (side : Side) : StrictWeak (groupLess side) := by
  cases side with
  | bid => exact strictWeak_gt AggregatedLevel.price
  | ask => exact strictWeak_lt AggregatedLevel.price

theorem groupLess_iff {side : Side} {a b : AggregatedLevel} :
    groupLess side a b = true ↔ Before side a.price b.price := by
  cases side <;> exact decide_eq_true_iff

variable (std : StdChoices)

/-- The groups of a vector in the order in which a snapshot shows them. -/
def sortedGroups (side : Side) (levels : List ExchangeLevel) : List AggregatedLevel :=
  std.sort (groupLess side) ((std.iterate (levels.foldl pushLevel [])).map levelOfGroup)

/-- A snapshot shows the front of the sorted groups. -/
theorem snapshotSide_getSnapshot (book : AggregatedOrderBook) (depth : Nat) (now : UInt64)
    (side : Side) : snapshotSide (book.getSnapshot std depth now) side =
      (sortedGroups std side (book.levels side)).take depth := by
  cases side <;> rfl

variable {side : Side} {levels : List ExchangeLevel}

/-- Before sorting, the groups are those of the vector in some order. -/
theorem sortedGroups_perm (side : Side) (levels : List ExchangeLevel) :
    ∃ groups, Groups ExchangeLevel.price levels groups ∧
      (sortedGroups std side levels).Perm (groups.map levelOfGroup) :=
  ⟨_, (groups_foldl levels).perm (std.iterate_perm _).symm, std.sort_perm _ _⟩

/-- A group shows the levels stored at its price. -/
theorem exchangeLevels_sortedGroups {a : AggregatedLevel}
    (ha : a ∈ sortedGroups std side levels) :
    a.exchangeLevels = levels.filter (fun l => exactPrice l = a.price) ∧
      a.exchangeLevels ≠ [] ∧
      a.quantity = (a.exchangeLevels.map fun l => fixedToDouble l.quantity).sum := by
  obtain ⟨groups, hgroups, hperm⟩ := sortedGroups_perm std side levels
  obtain ⟨g, hg, rfl⟩ := List.mem_map.mp (hperm.mem_iff.mp ha)
  refine ⟨?_, hgroups.ne_nil hg, rfl⟩
  rw [levelOfGroup, hgroups.elements g hg]
  apply List.filter_congr
  intro l _
  rw [exactPrice, decide_eq_decide, fixedToDouble_inj]

/-- The prices of the groups are the distinct prices of the vector. -/
theorem prices_sortedGroups_perm (side : Side) (levels : List ExchangeLevel) :
    ((sortedGroups std side levels).map (·.price)).Perm (distinctPrices levels) := by
  obtain ⟨groups, hgroups, hperm⟩ := sortedGroups_perm std side levels
  have hinj : Function.Injective fixedToDouble := fun _ _ h => fixedToDouble_inj.mp h
  have hmap : (groups.map levelOfGroup).map (·.price) =
      (groups.map Prod.fst).map fixedToDouble := by
    rw [List.map_map, List.map_map]
    rfl
  refine (hperm.map _).trans ?_
  rw [hmap, distinctPrices,
    List.perm_ext_iff_of_nodup (hgroups.nodup.map hinj) (List.nodup_dedup _)]
  intro p
  rw [List.mem_dedup]
  constructor
  · intro hp
    obtain ⟨k, hk, rfl⟩ := List.mem_map.mp hp
    obtain ⟨l, hl, rfl⟩ := List.mem_map.mp ((hgroups.mem_keys k).mp hk)
    exact List.mem_map_of_mem (f := exactPrice) hl
  · intro hp
    obtain ⟨l, hl, rfl⟩ := List.mem_map.mp hp
    exact List.mem_map_of_mem ((hgroups.mem_keys _).mpr (List.mem_map_of_mem hl))

/-- The groups stand in strict order of their prices. -/
theorem strict_sortedGroups (side : Side) (levels : List ExchangeLevel) :
    (sortedGroups std side levels).Pairwise fun a b => Before side a.price b.price := by
  have hnd : ((sortedGroups std side levels).map (·.price)).Nodup :=
    ((prices_sortedGroups_perm std side levels).nodup_iff).mpr (List.nodup_dedup _)
  have hsorted : (sortedGroups std side levels).Pairwise fun a b => groupLess side b a = false :=
    std.sort_sorted (strictWeak_groupLess side) _
  refine hsorted.imp₂ (fun a b hle hne => ?_) (List.pairwise_map.mp hnd)
  refine before_of_notAfter_of_ne (notAfter_of_not_before ?_) hne
  rw [← groupLess_iff, hle]
  exact Bool.false_ne_true

/-- On a sorted vector the groups list the distinct prices in the vector's order. -/
theorem prices_sortedGroups (h : Sorted side levels) :
    (sortedGroups std side levels).map (·.price) = distinctPrices levels := by
  have hgroups : ((sortedGroups std side levels).map (·.price)).Pairwise (NotAfter side) :=
    List.pairwise_map.mpr ((strict_sortedGroups std side levels).imp fun {a b} hlt => by
      cases side <;> exact le_of_lt hlt)
  have hprices : (distinctPrices levels).Pairwise (NotAfter side) :=
    List.Pairwise.sublist (List.dedup_sublist _) (List.pairwise_map.mpr h)
  exact List.Perm.eq_of_pairwise (fun _ _ _ _ hab hba => notAfter_antisymm hab hba) hgroups
    hprices (prices_sortedGroups_perm std side levels)

/-- Together the groups show every stored level once. -/
theorem flatMap_sortedGroups (side : Side) (levels : List ExchangeLevel) :
    ((sortedGroups std side levels).flatMap (·.exchangeLevels)).Perm levels := by
  obtain ⟨groups, hgroups, hperm⟩ := sortedGroups_perm std side levels
  refine (hperm.flatMap_right _).trans ?_
  rw [List.flatMap_map]
  exact hgroups.flatMap_perm

/-- A snapshot of a sorted vector groups it. -/
theorem Sorted.grouped (h : Sorted side levels) (depth : Nat) :
    Grouped side levels depth ((sortedGroups std side levels).take depth) where
  strict := (strict_sortedGroups std side levels).sublist (List.take_sublist _ _)
  quantity a ha := (exchangeLevels_sortedGroups std (List.mem_of_mem_take ha)).2.2
  price a ha := by
    obtain ⟨hfilter, hne, -⟩ := exchangeLevels_sortedGroups std (List.mem_of_mem_take ha)
    refine ⟨hne, fun l hl => ?_⟩
    rw [hfilter, List.mem_filter, decide_eq_true_iff] at hl
    exact hl.2
  whole a ha := (exchangeLevels_sortedGroups std (List.mem_of_mem_take ha)).1
  best := by rw [List.map_take, prices_sortedGroups std h]
  all hdepth := by
    have hlength : (sortedGroups std side levels).length ≤ depth := by
      rwa [← List.length_map (f := fun a : AggregatedLevel => a.price),
        prices_sortedGroups std h]
    rw [List.take_of_length_le hlength]
    exact flatMap_sortedGroups std side levels

end Groups

section Best

variable (std : StdChoices)

/-- A best quote is the front of its vector. -/
theorem bestQuote_eq_head? (book : AggregatedOrderBook) (side : Side) :
    book.bestQuote side = (book.levels side).head? := by
  cases side <;> rfl

/-- The front of a sorted vector has the first of the distinct prices. -/
theorem Sorted.head?_distinctPrices {side : Side} {levels : List ExchangeLevel}
    (h : Sorted side levels) : (distinctPrices levels).head? = levels.head?.map exactPrice := by
  cases levels with
  | nil => rfl
  | cons l rest =>
    have hmem : exactPrice l ∈ distinctPrices (l :: rest) :=
      List.mem_dedup.mpr List.mem_cons_self
    have hsorted : (distinctPrices (l :: rest)).Pairwise (NotAfter side) :=
      List.Pairwise.sublist (List.dedup_sublist _) (List.pairwise_map.mpr h)
    cases hd : distinctPrices (l :: rest) with
    | nil =>
      rw [hd] at hmem
      cases hmem
    | cons p prices =>
      rw [hd] at hmem hsorted
      refine congrArg some ?_
      rcases List.mem_cons.mp hmem with heq | hlater
      · exact heq.symm
      · -- both stand before each other
        have hp : p ∈ distinctPrices (l :: rest) := hd ▸ List.mem_cons_self
        obtain ⟨l', hl', rfl⟩ := List.mem_map.mp (List.mem_dedup.mp hp)
        rcases List.mem_cons.mp hl' with rfl | hl'
        · rfl
        · exact notAfter_antisymm (List.rel_of_pairwise_cons hsorted hlater)
            (List.rel_of_pairwise_cons h hl')

theorem frontAgrees_of_sorted {book : AggregatedOrderBook} {side : Side}
    (h : Sorted side (book.levels side)) : FrontAgrees std book side where
  stored l hl := by
    rw [bestQuote_eq_head?] at hl
    exact List.mem_of_head? hl
  front depth now := by
    rw [bestQuote_eq_head?, ← h.head?_distinctPrices, snapshotSide_getSnapshot,
      ← List.head?_map, (h.grouped std (depth + 1)).best]
    cases distinctPrices (book.levels side) <;> rfl

/-- After any updates and clears the stored vectors are sorted, snapshots of every
depth group them, and the best quotes agree with the front groups. -/
theorem grouping_run (calls : List Call) (side : Side) :
    Sorted side ((run std calls).levels side) ∧
      (∀ depth now, Grouped side ((run std calls).levels side) depth
        (snapshotSide ((run std calls).getSnapshot std depth now) side)) ∧
      FrontAgrees std (run std calls) side := by
  have hsorted := sorted_run std calls side
  refine ⟨hsorted, fun depth now => ?_, frontAgrees_of_sorted std hsorted⟩
  rw [snapshotSide_getSnapshot]
  exact hsorted.grouped std depth

end Best

end OrderbookEngine.Manager.AggregatedOrderBook
