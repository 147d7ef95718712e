import OrderbookEngine.Core.PoolObjects

/-!
# Constructors that throw and pointers that are freed again

Both break the pool for the same reason: a flag no longer says whether a constructed object
lies in its slot. The runs in which all is well are those in which no claimed slot is left by
a constructor that throws, or no pointer is deallocated again.
-/

namespace OrderbookEngine.PoolObjects

open LockFreePool Transition

variable {layout : Layout} {p t : PoolObjects} {k idx : Nat} {call : Call}

section Steps

theorem remaining_allocate (h : Tidy layout p) (hfree : p.freeSlot layout = some idx) :
    (p.allocate layout false).1.remaining = p.remaining ++ [p.slots.length] := by
  have hfresh : some p.slots.length ∉ p.destroyed := by
    intro hmem
    obtain ⟨k, hk, heq⟩ := h.objects _ hmem
    exact hk.ne (Option.some.inj heq).symm
  rw [allocate_of_some hfree, remaining, List.length_append, List.length_singleton,
    List.range_succ, List.filter_append, List.filter_singleton]
  simp [hfresh, remaining]

/-- An object that is constructed in a free slot. -/
theorem Tidy.allocate (h : Tidy layout p) (hfree : p.freeSlot layout = some idx) :
    Tidy layout (p.allocate layout false).1 := by
  have hremaining := remaining_allocate h hfree
  have hold : ∀ k ∈ p.remaining, (p.slots ++ [idx])[k]? = p.slots[k]? := fun k hk =>
    List.getElem?_append_left (mem_remaining.mp hk).1
  have hnew : (p.slots ++ [idx])[p.slots.length]? = some idx := by simp
  rw [allocate_of_some hfree] at hremaining ⊢
  refine ⟨?_, ?_, ?_, ?_, h.once, ?_⟩
  · intro i hi
    rcases List.mem_append.mp hi with hi | hi
    · exact h.inside i hi
    · rw [List.mem_singleton.mp hi]
      exact freeSlot_lt hfree
  · intro i
    show Function.update p.inUse idx true i = true ↔ ∃ k ∈ _, (p.slots ++ [idx])[k]? = some i
    rw [hremaining]
    constructor
    · intro hi
      by_cases heq : i = idx
      · exact ⟨p.slots.length, by simp, heq ▸ hnew⟩
      · rw [Function.update_of_ne heq] at hi
        obtain ⟨k, hk, hslot⟩ := (h.inUse i).mp hi
        exact ⟨k, List.mem_append_left _ hk, (hold k hk).trans hslot⟩
    · rintro ⟨k, hk, hslot⟩
      rcases List.mem_append.mp hk with hk | hk
      · rw [hold k hk] at hslot
        have hne : i ≠ idx := fun heq => h.not_remaining_of_freeSlot hfree hk (heq ▸ hslot)
        rw [Function.update_of_ne hne]
        exact (h.inUse i).mpr ⟨k, hk, hslot⟩
      · rw [List.mem_singleton.mp hk, hnew, Option.some.injEq] at hslot
        rw [← hslot, Function.update_self]
  · intro k hk i hslot
    rw [hremaining] at hk
    rcases List.mem_append.mp hk with hk | hk
    · have hslot : p.slots[k]? = some i := (hold k hk).symm.trans hslot
      have hne : i ≠ idx := fun heq => h.not_remaining_of_freeSlot hfree hk (heq ▸ hslot)
      show Function.update p.storage idx _ i = _
      rw [Function.update_of_ne hne, h.storage k hk i hslot]
    · obtain rfl : k = p.slots.length := List.mem_singleton.mp hk
      obtain rfl : idx = i := Option.some.inj (hnew.symm.trans hslot)
      exact Function.update_self ..
  · intro i hi
    by_cases heq : i = idx
    · exact ⟨p.slots.length, heq ▸ hnew, heq ▸ Function.update_self ..⟩
    · have hi : i ∈ p.slots := by simpa [heq] using hi
      obtain ⟨k, hslot, hstorage⟩ := h.placed i hi
      have hlt : k < p.slots.length := (List.getElem?_eq_some_iff.mp hslot).1
      exact ⟨k, (List.getElem?_append_left hlt).trans hslot,
        (Function.update_of_ne heq ..).trans hstorage⟩
  · intro o ho
    obtain ⟨k, hk, rfl⟩ := h.objects o ho
    exact ⟨k, by simpa using Nat.lt_succ_of_lt hk, rfl⟩

theorem mem_remaining_deallocate {o : Option Nat} (inUse : Nat → Bool) :
    k ∈ { p with destroyed := p.destroyed ++ [o], inUse := inUse }.remaining ↔
      k ∈ p.remaining ∧ some k ≠ o := by
  simp only [mem_remaining, List.mem_append, List.mem_singleton, not_or, and_assoc, ne_eq]

/-- The first deallocation of a pointer. -/
theorem Tidy.deallocate (h : Tidy layout p) (hk : k ∈ p.remaining) :
    Tidy layout (p.deallocate layout (p.pointer layout k)) := by
  obtain ⟨hlt, hdestroyed⟩ := mem_remaining.mp hk
  have hslot := List.getElem?_eq_getElem hlt
  rw [deallocate_pointer h.inside hslot, h.storage k hk _ hslot]
  refine ⟨h.inside, ?_, ?_, h.placed, ?_, ?_⟩
  · intro i
    simp only [mem_remaining_deallocate]
    constructor
    · intro hi
      by_cases heq : i = p.slots[k]
      · rw [heq, Function.update_self] at hi
        cases hi
      · rw [Function.update_of_ne heq] at hi
        obtain ⟨j, hj, hjslot⟩ := (h.inUse i).mp hi
        refine ⟨j, ⟨hj, fun hjk => heq ?_⟩, hjslot⟩
        rw [Option.some.inj hjk, hslot] at hjslot
        exact (Option.some.inj hjslot).symm
    · rintro ⟨j, ⟨hj, hne⟩, hjslot⟩
      have hi : i ≠ p.slots[k] := by
        intro heq
        have hstorage := h.storage j hj i hjslot
        rw [heq, h.storage k hk _ hslot] at hstorage
        exact hne hstorage.symm
      rw [Function.update_of_ne hi]
      exact (h.inUse i).mpr ⟨j, hj, hjslot⟩
  · intro j hj i hjslot
    exact h.storage j ((mem_remaining_deallocate _).mp hj).1 i hjslot
  · exact List.nodup_append.mpr ⟨h.once, List.nodup_singleton _, fun o ho o' ho' heq => by
      rw [List.mem_singleton.mp ho'] at heq
      exact hdestroyed (heq ▸ ho)⟩
  · intro o ho
    rcases List.mem_append.mp ho with ho | ho
    · exact h.objects o ho
    · exact ⟨k, hlt, List.mem_singleton.mp ho⟩

/-- A call in which no constructor leaves its slot and no pointer is freed again. -/
theorem Tidy.next (h : Tidy layout p)
    (hthrows : call = .allocate true → p.freeSlot layout = none)
    (honce : ∀ k, call = .deallocate (some k) → k ∈ p.remaining) :
    Tidy layout (p.next layout call) := by
  cases call with
  | allocate throws =>
    cases hfree : p.freeSlot layout with
    | none =>
      rw [PoolObjects.next, allocate_of_none hfree]
      exact h.head _
    | some idx =>
      cases throws with
      | true => exact absurd (hthrows rfl) (by rw [hfree]; exact Option.some_ne_none idx)
      | false => exact h.allocate hfree
  | deallocate object =>
    cases object with
    | none => exact h
    | some k => exact h.deallocate (honce k rfl)

end Steps

/-! ## Constructors that throw -/

/-- A call that the state allows, and the pool after it; a pointer is freed at most once. -/
def FreedOnce (layout : Layout) (p : PoolObjects) (call : Call) (t : PoolObjects) : Prop :=
  (∀ k, call = .deallocate (some k) → k ∈ p.remaining) ∧ t = p.next layout call

/-- `allocated` counts the remaining objects, and the destructor of the pool would run on
them, once on each, and on nothing else. -/
structure Accounts (layout : Layout) (p : PoolObjects) : Prop where
  allocated : p.allocated layout = p.remaining.length
  finalize : (p.finalize layout).Perm (p.remaining.map some)

/-- A constructor that throws leaves the free slots as they were, and the accounts are right. -/
def LeaksNothing (layout : Layout) (p : PoolObjects) (call : Call) (t : PoolObjects) : Prop :=
  (∀ throws, call = .allocate throws → (p.allocate layout throws).2 = .threw →
    t.inUse = p.inUse) ∧ Accounts layout t

/-- No constructor that is called throws: with no free slot none is called. -/
def NoThrow (layout : Layout) (p : PoolObjects) (call : Call) : Prop :=
  call = .allocate true → p.freeSlot layout = none

theorem Tidy.accounts (h : Tidy layout p) : Accounts layout p := ⟨h.allocated_eq, h.finalize_perm⟩

theorem threw_of_allocate {throws : Bool} (h : (p.allocate layout throws).2 = .threw) :
    throws = true ∧ ∃ idx, p.freeSlot layout = some idx := by
  cases hfree : p.freeSlot layout with
  | none =>
    rw [allocate_of_none hfree] at h
    cases h
  | some idx =>
    cases throws with
    | true => exact ⟨rfl, idx, rfl⟩
    | false =>
      rw [allocate_of_some hfree] at h
      cases h

/-- A call whose constructor throws leaves a slot in use. -/
theorem not_leaksNothing (h : ¬ NoThrow layout p call) (hstep : FreedOnce layout p call t) :
    ¬ LeaksNothing layout p call t := by
  obtain ⟨-, rfl⟩ := hstep
  obtain ⟨rfl, hfull⟩ := Classical.not_imp.mp h
  obtain ⟨idx, hfree⟩ := Option.ne_none_iff_exists'.mp hfull
  intro hleaks
  have hsame := hleaks.1 true rfl (by rw [allocate_throwing hfree])
  rw [next, allocate_throwing hfree] at hsame
  have hflag : Function.update p.inUse idx true idx = p.inUse idx := congrFun hsame idx
  rw [Function.update_self, freeSlot_free hfree] at hflag
  cases hflag

/-- In runs that free each pointer at most once nothing leaks exactly as long as no constructor
throws. -/
theorem leaksNothing_iff_noThrow (layout : Layout) (tr : List (Call × PoolObjects))
    (hrun : IsRun (FreedOnce layout) construct tr) :
    Always (LeaksNothing layout) construct tr ↔ Guarded (NoThrow layout) construct tr := by
  refine hrun.always_iff_guarded (Tidy layout) ?_ ?_ Tidy.construct
  swap
  · exact fun _ _ _ _ h hstep => not_leaksNothing h hstep
  rintro p call t h hthrows ⟨honce, rfl⟩
  have ht := h.next hthrows honce
  refine ⟨ht, fun throws hcall hthrew => ?_, ht.accounts⟩
  obtain ⟨rfl, idx, hfree⟩ := threw_of_allocate hthrew
  rw [hthrows hcall] at hfree
  cases hfree

/-- A pool with one slot. -/
def oneSlot : Layout where
  poolSize := 1
  poolStart := 0
  slotSize := 8
  poolSize_pos := Nat.succ_pos _
  slotSize_pos := Nat.succ_pos _

theorem leaksNothing_iff_noThrow_reused :
    Always (LeaksNothing oneSlot) construct
        (runOf (PoolObjects.next oneSlot) construct
          [.allocate false, .allocate true, .deallocate (some 0), .allocate false]) ↔
      Guarded (NoThrow oneSlot) construct
        (runOf (PoolObjects.next oneSlot) construct
          [.allocate false, .allocate true, .deallocate (some 0), .allocate false]) :=
  leaksNothing_iff_noThrow oneSlot _
    ⟨⟨nofun, rfl⟩, ⟨nofun, rfl⟩, ⟨by rintro k ⟨⟩; decide +kernel, rfl⟩, ⟨nofun, rfl⟩, trivial⟩

/-- The slot of a constructor that threw is counted and never free again. -/
theorem leaksNothing_fails :
    ¬ ∀ tr : List (Call × PoolObjects), IsRun (FreedOnce oneSlot) construct tr →
      Always (LeaksNothing oneSlot) construct tr := by
  intro h
  have hrun := h (runOf (PoolObjects.next oneSlot) construct [.allocate true])
    ⟨⟨nofun, rfl⟩, trivial⟩
  have hcount := hrun.1.2.allocated
  revert hcount
  decide +kernel

/-! ## Pointers that are freed again -/

/-- A call and the pool after it; constructors return, and any pointer that was returned may be
deallocated. -/
def FreedAgain (layout : Layout) (p : PoolObjects) (call : Call) (t : PoolObjects) : Prop :=
  call ≠ .allocate true ∧ (∀ k, call = .deallocate (some k) → k < p.slots.length) ∧
    t = p.next layout call

/-- With the destructor of the pool, that of each object runs exactly once, and a pointer to a
destroyed object destroys and frees no object that was placed in its slot. -/
def Harmless (layout : Layout) (p : PoolObjects) (call : Call) (t : PoolObjects) : Prop :=
  (∀ k < t.slots.length, (t.destroyed ++ t.finalize layout).count (some k) = 1) ∧
    ∀ k, call = .deallocate (some k) → k ∉ p.remaining →
      ∀ j ∈ p.remaining, p.slots[j]? = p.slots[k]? →
        j ∈ t.remaining ∧ ∀ idx, t.slots[j]? = some idx → t.inUse idx = true

/-- A pointer is deallocated while its object remains. -/
def FreesRemaining (p : PoolObjects) (call : Call) : Prop :=
  ∀ k, call = .deallocate (some k) → k ∈ p.remaining

/-- The destructor has run on an object or will run when the pool ends. -/
theorem Tidy.count_eq_one (h : Tidy layout p) (hk : k < p.slots.length) :
    (p.destroyed ++ p.finalize layout).count (some k) = 1 := by
  rw [List.count_append, h.finalize_perm.count_eq]
  have hnodup : (p.remaining.map some).Nodup :=
    (nodup_remaining p).map (Option.some_injective _)
  have hmem : some k ∈ p.remaining.map some ↔ some k ∉ p.destroyed := by
    rw [List.mem_map_of_injective (Option.some_injective _), mem_remaining]
    exact and_iff_right hk
  by_cases hdestroyed : some k ∈ p.destroyed
  · rw [List.count_eq_one_of_mem h.once hdestroyed,
      List.count_eq_zero_of_not_mem fun hin => hmem.mp hin hdestroyed]
  · rw [List.count_eq_zero_of_not_mem hdestroyed,
      List.count_eq_one_of_mem hnodup (hmem.mpr hdestroyed)]

/-- A pointer to a destroyed object runs the destructor on an object again, or on one that was
placed in its slot. -/
theorem Tidy.not_harmless (h : Tidy layout p) (hagain : ¬ FreesRemaining p call)
    (hstep : FreedAgain layout p call t) : ¬ Harmless layout p call t := by
  obtain ⟨-, hreturned, rfl⟩ := hstep
  simp only [FreesRemaining, not_forall] at hagain
  obtain ⟨k, rfl, hk⟩ := hagain
  have hlt : k < p.slots.length := hreturned k rfl
  have hslot := List.getElem?_eq_getElem hlt
  obtain ⟨x, hxslot, hx⟩ := h.placed _ (List.mem_of_getElem? hslot)
  have hxlt : x < p.slots.length := (List.getElem?_eq_some_iff.mp hxslot).1
  have hnext : p.next layout (.deallocate (some k)) =
      { p with
        destroyed := p.destroyed ++ [some x]
        inUse := Function.update p.inUse p.slots[k] false } := by
    rw [← hx]
    exact deallocate_pointer h.inside hslot
  rw [hnext]
  rintro ⟨hcount, hother⟩
  by_cases hdestroyed : some x ∈ p.destroyed
  · have hpos := List.count_pos_iff.mpr hdestroyed
    have hx := hcount x hxlt
    simp only [List.count_append, List.count_singleton_self] at hx
    omega
  · have hremaining : x ∈ p.remaining := mem_remaining.mpr ⟨hxlt, hdestroyed⟩
    have hstays := (hother k rfl hk x hremaining (hxslot.trans hslot.symm)).1
    exact ((mem_remaining_deallocate _).mp hstays).2 rfl

/-- Repeated deallocation is harmless exactly in the runs that have none. -/
theorem harmless_iff_freesRemaining (layout : Layout) (tr : List (Call × PoolObjects))
    (hrun : IsRun (FreedAgain layout) construct tr) :
    Always (Harmless layout) construct tr ↔ Guarded FreesRemaining construct tr := by
  refine hrun.always_iff_guarded (Tidy layout) ?_ (fun _ _ _ h => h.not_harmless) Tidy.construct
  rintro p call t h honce ⟨hthrows, -, rfl⟩
  have ht := h.next (fun hcall => absurd hcall hthrows) honce
  exact ⟨ht, fun k hk => ht.count_eq_one hk, fun k hcall hgone => absurd (honce k hcall) hgone⟩

theorem harmless_iff_freesRemaining_reused :
    Always (Harmless oneSlot) construct
        (runOf (PoolObjects.next oneSlot) construct
          [.allocate false, .deallocate (some 0), .allocate false]) ↔
      Guarded FreesRemaining construct
        (runOf (PoolObjects.next oneSlot) construct
          [.allocate false, .deallocate (some 0), .allocate false]) :=
  harmless_iff_freesRemaining oneSlot _
    ⟨⟨nofun, nofun, rfl⟩, ⟨nofun, by rintro k ⟨⟩; decide +kernel, rfl⟩, ⟨nofun, nofun, rfl⟩,
      trivial⟩

/-- The pointer to the first object, freed again, destroys the second one. -/
theorem harmless_fails :
    ¬ ∀ tr : List (Call × PoolObjects), IsRun (FreedAgain oneSlot) construct tr →
      Always (Harmless oneSlot) construct tr := by
  intro h
  have hrun := h (runOf (PoolObjects.next oneSlot) construct
    [.allocate false, .deallocate (some 0), .allocate false, .deallocate (some 0)])
    ⟨⟨nofun, nofun, rfl⟩, ⟨nofun, by rintro k ⟨⟩; decide +kernel, rfl⟩, ⟨nofun, nofun, rfl⟩,
      ⟨nofun, by rintro k ⟨⟩; decide +kernel, rfl⟩, trivial⟩
  have hstays := (hrun.2.2.2.1.2 0 rfl (by decide +kernel) 1 (by decide +kernel)
    (by decide +kernel)).1
  revert hstays
  decide +kernel

end OrderbookEngine.PoolObjects
