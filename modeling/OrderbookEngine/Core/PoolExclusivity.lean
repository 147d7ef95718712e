import OrderbookEngine.Core.LockFreePool

/-!
# Slots have one holder

A slot in use belongs to the pointer that was handed out for it, or to the one thread that
is between claiming it and handing it out, or between destroying its object and giving it
back. Threads pass it on through the flag only.
-/

namespace OrderbookEngine.LockFreePool

open Transition

variable {ι : Type}

/-- No slot is owned by two live allocations, a thread constructs in raw storage only, and
the flags that are set count the live allocations and the calls between claiming or
destroying and finishing. -/
structure Exclusive (layout : Layout) (s : State ι) : Prop where
  owners : s.live.Nodup
  constructs : ∀ i idx, s.threads i = .construct idx → s.storage idx = .raw
  flags : allocated layout s = s.live.length + {i | (s.threads i).slot ≠ none}.ncard

/-- Who holds a slot. -/
inductive Holder (ι : Type) where
  | owner
  | thread (i : ι)

/-- What the storage of a slot holds, by who holds the slot. -/
def lifetimeOf (threads : ι → Pc) : Option (Holder ι) → Lifetime
  | none => .raw
  | some .owner => .live
  | some (.thread i) => (threads i).lifetime

/-- The slots in use are the ones that somebody holds, and everybody holds what they should. -/
structure Held (layout : Layout) (s : State ι) (holder : Nat → Option (Holder ι)) : Prop where
  inUse : ∀ idx, s.inUse idx = (holder idx).isSome
  inside : ∀ idx, holder idx ≠ none → idx < layout.poolSize
  threads : ∀ i idx, (s.threads i).slot = some idx ↔ holder idx = some (.thread i)
  live : ∀ idx, idx ∈ s.live ↔ holder idx = some .owner
  nodup : s.live.Nodup
  storage : ∀ idx, s.storage idx = lifetimeOf s.threads (holder idx)

/-- The invariant: every slot in use has one holder. -/
def Inv (layout : Layout) (s : State ι) : Prop := ∃ holder, Held layout s holder

variable {layout : Layout} {s : State ι} {holder : Nat → Option (Holder ι)}

section Counting

/-- As many threads hold a slot as slots are held by threads. -/
theorem Held.ncard_threads (h : Held layout s holder) :
    {i | (s.threads i).slot ≠ none}.ncard = {idx | ∃ i, holder idx = some (.thread i)}.ncard := by
  apply Set.BijOn.ncard_eq (f := fun i => (s.threads i).slot.getD 0)
  have hslot : ∀ i, (s.threads i).slot ≠ none →
      holder ((s.threads i).slot.getD 0) = some (.thread i) := by
    intro i hi
    obtain ⟨idx, hidx⟩ := Option.ne_none_iff_exists'.mp hi
    rw [hidx]
    exact (h.threads i idx).mp hidx
  refine ⟨fun i hi => ⟨i, hslot i hi⟩, fun i hi j hj he => ?_, fun idx ⟨i, hi⟩ => ?_⟩
  · have hsame := (hslot i hi).symm.trans ((congrArg holder he).trans (hslot j hj))
    cases hsame
    rfl
  · have hidx := (h.threads i idx).mpr hi
    exact ⟨i, by simp [hidx], by simp [hidx]⟩

/-- As many pointers are live as slots are held by their owners. -/
theorem Held.ncard_owned (h : Held layout s holder) :
    {idx | holder idx = some .owner}.ncard = s.live.length := by
  have hset : {idx | holder idx = some .owner} = ↑s.live.toFinset := by
    ext idx
    simp [h.live]
  rw [hset, Set.ncard_coe_finset, List.toFinset_card_of_nodup h.nodup]

/-- As many flags are set as slots are held. -/
theorem Held.ncard_held (h : Held layout s holder) :
    {idx | holder idx ≠ none}.ncard = allocated layout s := by
  have hset : {idx | holder idx ≠ none} =
      ↑((List.range layout.poolSize).filter s.inUse).toFinset := by
    ext idx
    have hinside := h.inside idx
    simp only [List.coe_toFinset, Set.mem_ofPred_eq, List.mem_filter, List.mem_range, h.inUse,
      Option.isSome_iff_ne_none]
    exact ⟨fun hne => ⟨hinside hne, hne⟩, And.right⟩
  rw [hset, Set.ncard_coe_finset,
    List.toFinset_card_of_nodup (List.nodup_range.filter _), allocated,
    List.countP_eq_length_filter]

/-- Slots in use have one holder, so that their number is the number of holders. -/
theorem Held.allocated_eq (h : Held layout s holder) :
    allocated layout s = s.live.length + {i | (s.threads i).slot ≠ none}.ncard := by
  have hsplit : {idx | holder idx ≠ none} = {idx | holder idx = some .owner} ∪
      {idx | ∃ i, holder idx = some (.thread i)} := by
    ext idx
    simp only [Set.mem_ofPred_eq, Set.mem_union]
    cases hholder : holder idx with
    | none => simp
    | some x => cases x <;> simp
  have hdisjoint : Disjoint {idx | holder idx = some .owner}
      {idx | ∃ i, holder idx = some (.thread i)} := by
    rw [Set.disjoint_left]
    rintro idx howner ⟨i, hi⟩
    cases howner.symm.trans hi
  have hfinite : {idx | holder idx ≠ none}.Finite :=
    (Set.finite_Iio layout.poolSize).subset fun idx hidx => h.inside idx hidx
  rw [← h.ncard_held, h.ncard_threads, ← h.ncard_owned, hsplit,
    Set.ncard_union_eq hdisjoint (hfinite.subset (hsplit ▸ Set.subset_union_left))
      (hfinite.subset (hsplit ▸ Set.subset_union_right))]

theorem Held.exclusive (h : Held layout s holder) : Exclusive layout s := by
  refine ⟨h.nodup, fun i idx hpc => ?_, h.allocated_eq⟩
  have hslot : (s.threads i).slot = some idx := by rw [hpc]; rfl
  rw [h.storage, (h.threads i idx).mp hslot, lifetimeOf, hpc]
  rfl

end Counting

section Steps

variable {idx : Nat}

/-- Who does not own a slot does not come to own it by passing it on to a thread, or giving
it back. -/
theorem Held.mem_live_update (h : Held layout s holder) {y : Option (Holder ι)}
    (hholder : holder idx ≠ some .owner) (hy : y ≠ some .owner) (k : Nat) :
    k ∈ s.live ↔ Function.update holder idx y k = some .owner := by
  rw [h.live]
  by_cases hk : k = idx
  · rw [hk, Function.update_self]
    exact iff_of_false hholder hy
  · rw [Function.update_of_ne hk]

variable [DecidableEq ι] {t : State ι} {thread : ι} {pc : Pc}

/-- What a slot holds depends on its holder's thread only. -/
theorem lifetimeOf_update {threads : ι → Pc} {y : Option (Holder ι)}
    (hy : y ≠ some (.thread thread)) :
    lifetimeOf (Function.update threads thread pc) y = lifetimeOf threads y := by
  cases y with
  | none => rfl
  | some x =>
    cases x with
    | owner => rfl
    | thread i =>
      have hi : i ≠ thread := by
        rintro rfl
        exact hy rfl
      simp only [lifetimeOf, Function.update_of_ne hi]

/-- A step of a thread that holds no slot and takes none. -/
theorem Held.move (h : Held layout s holder) (hold : (s.threads thread).slot = none)
    (hnew : pc.slot = none) : Held layout (s.goto thread pc) holder := by
  have hother : ∀ idx, holder idx ≠ some (.thread thread) := by
    intro idx hholder
    rw [← h.threads, hold] at hholder
    cases hholder
  refine ⟨h.inUse, h.inside, fun i idx => ?_, h.live, h.nodup, fun idx => ?_⟩
  · by_cases hi : i = thread
    · subst hi
      simp only [State.goto, Function.update_self, hnew, reduceCtorEq, false_iff]
      exact hother idx
    · simp only [State.goto, Function.update_of_ne hi]
      exact h.threads i idx
  · rw [State.goto, h.storage idx, lifetimeOf_update (hother idx)]

/-- A step of a thread on the one slot that it holds or comes to hold, which passes the
slot on. -/
theorem Held.pass (h : Held layout s holder) {y : Option (Holder ι)}
    (hthreads : t.threads = Function.update s.threads thread pc)
    (hold : ∀ k, (s.threads thread).slot = some k → k = idx)
    (hfrom : ∀ i, holder idx = some (.thread i) → i = thread)
    (hnew : ∀ k, pc.slot = some k ↔ k = idx ∧ y = some (.thread thread))
    (hto : ∀ i, y = some (.thread i) → i = thread)
    (hinUse : t.inUse = Function.update s.inUse idx y.isSome) (hinside : idx < layout.poolSize)
    (hlive : ∀ k, k ∈ t.live ↔ Function.update holder idx y k = some .owner)
    (hnodup : t.live.Nodup)
    (hstorage : t.storage = Function.update s.storage idx (lifetimeOf t.threads y)) :
    Held layout t (Function.update holder idx y) := by
  refine ⟨fun k => ?_, fun k hk => ?_, fun i k => ?_, hlive, hnodup, fun k => ?_⟩
  · rw [hinUse]
    by_cases hk : k = idx
    · rw [hk, Function.update_self, Function.update_self]
    · rw [Function.update_of_ne hk, Function.update_of_ne hk, h.inUse]
  · by_cases he : k = idx
    · exact he ▸ hinside
    · rw [Function.update_of_ne he] at hk
      exact h.inside k hk
  · rw [hthreads]
    by_cases hi : i = thread <;> by_cases hk : k = idx
    · subst hi hk
      rw [Function.update_self, Function.update_self, hnew, and_iff_right rfl]
    · subst hi
      rw [Function.update_self, Function.update_of_ne hk, hnew, ← h.threads]
      exact iff_of_false (fun hc => hk hc.1) fun hc => hk (hold k hc)
    · subst hk
      rw [Function.update_of_ne hi, Function.update_self, h.threads]
      exact iff_of_false (fun hc => hi (hfrom i hc)) fun hc => hi (hto i hc)
    · rw [Function.update_of_ne hi, Function.update_of_ne hk, h.threads]
  · rw [hstorage]
    by_cases hk : k = idx
    · rw [hk, Function.update_self, Function.update_self]
    · have hother : holder k ≠ some (.thread thread) :=
        fun hholder => hk (hold k ((h.threads thread k).mpr hholder))
      rw [Function.update_of_ne hk, Function.update_of_ne hk, h.storage, hthreads,
        lifetimeOf_update hother]

/-- A thread works on the storage of the slot that it holds. -/
theorem Held.keep (h : Held layout s holder) (hold : (s.threads thread).slot = some idx) (pc : Pc)
    (hnew : pc.slot = some idx) :
    Held layout ({ s with storage := Function.update s.storage idx pc.lifetime }.goto thread pc)
      holder := by
  have hholder := (h.threads thread idx).mp hold
  have hsame : Function.update holder idx (some (.thread thread)) = holder :=
    Function.update_eq_self_iff.mpr hholder.symm
  rw [← hsame]
  apply h.pass rfl
  · intro k hk
    exact Option.some.inj (hk.symm.trans hold)
  · intro i hi
    rw [hholder] at hi
    cases hi
    rfl
  · intro k
    rw [hnew, Option.some.injEq, and_iff_left rfl, eq_comm]
  · intro i hi
    cases hi
    rfl
  · have hused : s.inUse idx = true := by rw [h.inUse, hholder]; rfl
    exact (Function.update_eq_self_iff.mpr hused.symm).symm
  · exact h.inside idx (by simp [hholder])
  · exact h.mem_live_update (by simp [hholder]) (by simp)
  · exact h.nodup
  · simp [State.goto, lifetimeOf]

/-- Claiming a free slot takes it from nobody. -/
theorem Held.claim (h : Held layout s holder) (hold : (s.threads thread).slot = none)
    (hinside : idx < layout.poolSize) (hfree : s.inUse idx = false) :
    Inv layout ({ s with inUse := Function.update s.inUse idx true }.goto thread
      (.construct idx)) := by
  have hholder : holder idx = none := by
    rw [h.inUse] at hfree
    simpa using hfree
  refine ⟨Function.update holder idx (some (.thread thread)), ?_⟩
  apply h.pass rfl
  · simp [hold]
  · simp [hholder]
  · intro k
    rw [Pc.slot, Option.some.injEq, and_iff_left rfl, eq_comm]
  · intro i hi
    cases hi
    rfl
  · rfl
  · exact hinside
  · exact h.mem_live_update (by simp [hholder]) (by simp)
  · exact h.nodup
  · have hraw : s.storage idx = .raw := by rw [h.storage, hholder]; rfl
    refine (Function.update_eq_self_iff.mpr ?_).symm
    simp [State.goto, lifetimeOf, Pc.lifetime, hraw]

/-- Handing out a slot passes it to its owner. -/
theorem Held.handOut (h : Held layout s holder) (hold : (s.threads thread).slot = some idx) :
    Inv layout ({ s with
      storage := Function.update s.storage idx .live
      live := idx :: s.live }.goto thread .idle) := by
  have hholder := (h.threads thread idx).mp hold
  refine ⟨Function.update holder idx (some .owner), ?_⟩
  apply h.pass rfl
  · intro k hk
    exact Option.some.inj (hk.symm.trans hold)
  · intro i hi
    rw [hholder] at hi
    cases hi
    rfl
  · simp [Pc.slot]
  · simp
  · have hused : s.inUse idx = true := by rw [h.inUse, hholder]; rfl
    exact (Function.update_eq_self_iff.mpr hused.symm).symm
  · exact h.inside idx (by simp [hholder])
  · intro k
    simp only [State.goto, List.mem_cons, h.live]
    by_cases hk : k = idx
    · simp [hk]
    · simp [hk]
  · refine List.nodup_cons.mpr ⟨fun hmem => ?_, h.nodup⟩
    rw [h.live, hholder] at hmem
    cases hmem
  · rfl

/-- Deallocating a pointer takes its slot from its owner. -/
theorem Held.takeBack (h : Held layout s holder) (hold : (s.threads thread).slot = none)
    (hlive : idx ∈ s.live) :
    Inv layout ({ s with live := s.live.erase idx }.goto thread (.destroy idx)) := by
  have hholder := (h.live idx).mp hlive
  refine ⟨Function.update holder idx (some (.thread thread)), ?_⟩
  apply h.pass rfl
  · simp [hold]
  · simp [hholder]
  · intro k
    rw [Pc.slot, Option.some.injEq, and_iff_left rfl, eq_comm]
  · intro i hi
    cases hi
    rfl
  · have hused : s.inUse idx = true := by rw [h.inUse, hholder]; rfl
    exact (Function.update_eq_self_iff.mpr hused.symm).symm
  · exact h.inside idx (by simp [hholder])
  · intro k
    simp only [State.goto, h.nodup.mem_erase_iff, h.live]
    by_cases hk : k = idx
    · simp [hk]
    · simp [hk]
  · exact h.nodup.erase idx
  · have hobject : s.storage idx = .live := by rw [h.storage, hholder]; rfl
    refine (Function.update_eq_self_iff.mpr ?_).symm
    simp [State.goto, lifetimeOf, Pc.lifetime, hobject]

/-- Storing the flag gives a slot back whose object is gone. -/
theorem Held.giveBack (h : Held layout s holder) (hpc : s.threads thread = .storeFlag idx) :
    Inv layout ({ s with inUse := Function.update s.inUse idx false }.goto thread .idle) := by
  have hold : (s.threads thread).slot = some idx := by rw [hpc]; rfl
  have hholder := (h.threads thread idx).mp hold
  refine ⟨Function.update holder idx none, ?_⟩
  apply h.pass rfl
  · intro k hk
    exact Option.some.inj (hk.symm.trans hold)
  · intro i hi
    rw [hholder] at hi
    cases hi
    rfl
  · simp [Pc.slot]
  · simp
  · rfl
  · exact h.inside idx (by simp [hholder])
  · exact h.mem_live_update (by simp [hholder]) (by simp)
  · exact h.nodup
  · have hraw : s.storage idx = .raw := by rw [h.storage, hholder, lifetimeOf, hpc]; rfl
    exact (Function.update_eq_self_iff.mpr hraw.symm).symm

/-- Every step of a thread leaves every slot to one holder. -/
theorem Held.pcNext (h : Held layout s holder) (thread : ι) :
    Inv layout (s.pcNext layout thread (s.threads thread)) := by
  cases hpc : s.threads thread with
  | idle => exact ⟨holder, h⟩
  | fetchHead =>
    have hmoved : Held layout { s with head := s.head + 1 } holder :=
      ⟨h.inUse, h.inside, h.threads, h.live, h.nodup, h.storage⟩
    exact ⟨holder, hmoved.move (by simp [hpc, Pc.slot]) rfl⟩
  | claim startIdx attempts =>
    have hnone : (s.threads thread).slot = none := by rw [hpc]; rfl
    simp only [State.pcNext]
    split
    · split
      · rename_i hfree
        exact h.claim hnone (Nat.mod_lt _ layout.poolSize_pos) hfree
      · exact ⟨holder, h.move hnone rfl⟩
    · exact ⟨holder, h.move hnone rfl⟩
  | construct idx => exact ⟨holder, h.keep (by rw [hpc]; rfl) (.finishConstruct idx) rfl⟩
  | finishConstruct idx => exact h.handOut (by rw [hpc]; rfl)
  | destroy idx => exact ⟨holder, h.keep (by rw [hpc]; rfl) (.finishDestroy idx) rfl⟩
  | finishDestroy idx => exact ⟨holder, h.keep (by rw [hpc]; rfl) (.storeFlag idx) rfl⟩
  | storeFlag idx => exact h.giveBack hpc

theorem Inv.step (h : Inv layout s) {e : Event ι} (henabled : s.Enabled layout e) :
    Inv layout (s.next layout e) := by
  obtain ⟨holder, h⟩ := h
  cases e with
  | allocate thread =>
    have hidle : s.threads thread = .idle := henabled
    exact ⟨holder, h.move (by rw [hidle]; rfl) rfl⟩
  | deallocate thread ptr =>
    obtain ⟨hidle, hptr⟩ := henabled
    cases ptr with
    | none => exact ⟨holder, h⟩
    | some p =>
      obtain ⟨idx, hlive, rfl⟩ := hptr p rfl
      have hinside := h.inside idx (by simp [(h.live idx).mp hlive])
      rw [State.next, Option.bind_some, layout.indexOf_address hinside]
      exact h.takeBack (by rw [hidle]; rfl) hlive
  | step thread => exact h.pcNext thread

end Steps

/-- Every interleaving of allocations and deallocations leaves every slot to one holder. -/
theorem exclusive_throughout [DecidableEq ι] (layout : Layout)
    {tr : List (Event ι × State ι)} (hrun : IsRun (State.Step layout) (construct ι) tr) :
    Throughout (Exclusive layout) (construct ι) tr := by
  have hinv : Throughout (Inv layout) (construct ι) tr := by
    apply hrun.throughout (Inv layout)
    · rintro s e t hs ⟨henabled, rfl⟩
      exact hs.step henabled
    · refine ⟨fun _ => none, fun _ => rfl, fun _ hne => absurd rfl hne, ?_, ?_, List.nodup_nil,
        fun _ => rfl⟩
      · simp [construct, Pc.slot]
      · simp [construct]
  exact hinv.mono fun t ⟨holder, ht⟩ => ht.exclusive

/-- A pool with one slot. -/
def oneSlot : Layout := ⟨1, 4096, 64, by decide, by decide⟩

/-- Two threads allocate, one in vain, and the other deallocates what the first was given. -/
theorem exclusive_throughout_oneSlot :
    Throughout (Exclusive oneSlot) (construct Bool) (runOf (State.next oneSlot) (construct Bool)
      [.allocate true, .allocate false, .step true, .step true, .step false, .step false,
        .step true, .step false, .step true, .deallocate false (some 4096), .step false,
        .step false, .step false]) := by
  refine exclusive_throughout oneSlot (isRun_runOf_of_enabled ?_)
  decide

end OrderbookEngine.LockFreePool
