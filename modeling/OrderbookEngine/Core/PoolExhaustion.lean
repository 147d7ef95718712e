import OrderbookEngine.Core.PoolExclusivity

/-!
# Exhaustion of the pool

`allocate` looks at each slot once, and returns no pointer when it has seen all of them in
use. It has seen them at different moments: a slot that is freed behind the scan while
another one is taken before it leaves the pool with a free slot all the time.
-/

namespace OrderbookEngine.LockFreePool

open Transition

variable {ι : Type}

/-- All slots are in use. -/
def Full (layout : Layout) (s : State ι) : Prop := ∀ idx < layout.poolSize, s.inUse idx = true

instance (layout : Layout) (s : State ι) : Decidable (Full layout s) :=
  inferInstanceAs (Decidable (∀ idx < layout.poolSize, s.inUse idx = true))

/-- The next step of the thread returns a null pointer. -/
def ReturnsNull (layout : Layout) (s : State ι) (i : ι) : Prop :=
  ∃ startIdx attempts, s.threads i = .claim startIdx attempts ∧ layout.poolSize ≤ attempts

/-- The scan of the thread goes on, and has passed the slot. -/
def HasPassed (layout : Layout) (s : State ι) (i : ι) (idx : Nat) : Prop :=
  ∃ startIdx attempts, s.threads i = .claim startIdx attempts ∧ attempts < layout.poolSize ∧
    ∃ k < attempts, (startIdx + k) % layout.poolSize = idx

instance (layout : Layout) (s : State ι) (i : ι) (idx : Nat) :
    Decidable (HasPassed layout s i idx) :=
  match h : s.threads i with
  | .claim startIdx attempts =>
    decidable_of_iff (attempts < layout.poolSize ∧
        ∃ k < attempts, (startIdx + k) % layout.poolSize = idx)
      ⟨fun hpassed => ⟨startIdx, attempts, h, hpassed⟩, fun ⟨_, _, hat, hpassed⟩ => by
        cases h.symm.trans hat
        exact hpassed⟩
  | .idle | .fetchHead | .construct _ | .finishConstruct _ | .destroy _ | .finishDestroy _
  | .storeFlag _ => isFalse fun ⟨_, _, hat, _⟩ => by cases h.symm.trans hat

/-- A part of a run: a call of `allocate` that begins with the state `s`, and the steps
since then, in which its thread begins no other one. -/
structure InCall (tr : List (Event ι × State ι)) (i : ι) (s : State ι)
    (during rest : List (Event ι × State ι)) : Prop where
  split : ∃ before, tr = before ++ (.allocate i, s) :: (during ++ rest)
  once : ∀ x ∈ during, x.1 ≠ .allocate i

/-- A call that returns a null pointer has seen the pool full: there is such a state
between its start and its return. -/
def ReportsTruly (layout : Layout) (tr : List (Event ι × State ι)) : Prop :=
  ∀ i s during t rest, InCall tr i s during ((.step i, t) :: rest) →
    ReturnsNull layout (lastState s during) i → ∃ u ∈ s :: during.map Prod.snd, Full layout u

/-- No slot is freed behind a scan that goes on and will end in a null pointer, unless the
pool was full since the scan's call has started. -/
def FreesNoneBehind (layout : Layout) (tr : List (Event ι × State ι)) : Prop :=
  ∀ i j s during t between v rest idx,
    InCall tr i s (during ++ (.step j, t) :: between) ((.step i, v) :: rest) →
      ReturnsNull layout (lastState t between) i →
        (lastState s during).threads j = .storeFlag idx →
          HasPassed layout (lastState s during) i idx →
            ∃ u ∈ s :: during.map Prod.snd, Full layout u

/-- The slots that the scan of a thread has passed are in use. -/
def PassedInUse (layout : Layout) (i : ι) (s : State ι) : Prop :=
  ∀ startIdx attempts, s.threads i = .claim startIdx attempts → attempts ≤ layout.poolSize ∧
    ∀ k < attempts, s.inUse ((startIdx + k) % layout.poolSize) = true

variable {layout : Layout} {s t : State ι} {i : ι} {e : Event ι}

/-- When the scan has passed all slots, all are in use. -/
theorem PassedInUse.full (h : PassedInUse layout i s) (hnull : ReturnsNull layout s i) :
    Full layout s := by
  obtain ⟨startIdx, attempts, hpc, hall⟩ := hnull
  intro idx hidx
  have hpos := layout.poolSize_pos
  -- the attempt that looks at the slot
  have hlt : (idx + layout.poolSize - startIdx % layout.poolSize) % layout.poolSize <
      layout.poolSize := Nat.mod_lt _ hpos
  have hseen := (h startIdx attempts hpc).2 _ (hlt.trans_le hall)
  have hslot : (startIdx + (idx + layout.poolSize - startIdx % layout.poolSize) %
      layout.poolSize) % layout.poolSize = idx := by
    have hstart := Nat.mod_lt startIdx hpos
    rw [Nat.add_mod_mod, ← Nat.mod_add_mod, Nat.add_sub_cancel' (by omega),
      Nat.add_mod_right, Nat.mod_eq_of_lt hidx]
  rwa [hslot] at hseen

section Steps

variable [DecidableEq ι]

/-- A step of the scanning thread passes a slot only when it is in use. -/
theorem PassedInUse.own (h : PassedInUse layout i s) :
    PassedInUse layout i (s.pcNext layout i (s.threads i)) := by
  intro startIdx attempts hpc
  cases hat : s.threads i with
  | claim startIdx₀ attempts₀ =>
    obtain ⟨hle, hpassed⟩ := h startIdx₀ attempts₀ hat
    simp only [hat, State.pcNext] at hpc ⊢
    split at hpc
    · next hlt =>
      rw [if_pos hlt]
      split at hpc
      · simp [State.goto] at hpc
      · next hused =>
        simp only [State.goto, Function.update_self, Pc.claim.injEq] at hpc
        obtain ⟨rfl, rfl⟩ := hpc
        rw [if_neg hused]
        refine ⟨hlt, fun k hk => ?_⟩
        rcases Nat.lt_succ_iff_lt_or_eq.mp hk with hk | rfl
        · exact hpassed k hk
        · simpa [State.goto] using hused
    · simp [State.goto] at hpc
  | fetchHead =>
    simp only [hat, State.pcNext, State.goto, Function.update_self, Pc.claim.injEq] at hpc
    obtain ⟨rfl, rfl⟩ := hpc
    exact ⟨Nat.zero_le _, fun k hk => absurd hk (Nat.not_lt_zero k)⟩
  | idle => simp [hat, State.pcNext] at hpc
  | construct | finishConstruct | destroy | finishDestroy | storeFlag =>
    simp [hat, State.pcNext, State.goto] at hpc

/-- A step of another thread that frees none of the passed slots leaves them in use. -/
theorem PassedInUse.other (h : PassedInUse layout i s) {j : ι} (hji : j ≠ i)
    (hfrees : ∀ idx startIdx attempts, s.threads j = .storeFlag idx →
      s.threads i = .claim startIdx attempts →
        ∀ k < attempts, (startIdx + k) % layout.poolSize ≠ idx) :
    PassedInUse layout i (s.pcNext layout j (s.threads j)) := by
  have hthread : (s.pcNext layout j (s.threads j)).threads i = s.threads i := by
    cases s.threads j with
    | claim =>
      simp only [State.pcNext]
      split_ifs <;> exact Function.update_of_ne hji.symm ..
    | idle => rfl
    | _ => exact Function.update_of_ne hji.symm ..
  have hinUse : ∀ slot, s.inUse slot = true → s.threads j ≠ .storeFlag slot →
      (s.pcNext layout j (s.threads j)).inUse slot = true := by
    intro slot hslot hstore
    cases hat : s.threads j with
    | claim startIdx attempts =>
      simp only [State.pcNext]
      split_ifs
      · by_cases he : slot = (startIdx + attempts) % layout.poolSize
        · exact he ▸ Function.update_self ..
        · exact (Function.update_of_ne he ..).trans hslot
      · exact hslot
      · exact hslot
    | storeFlag idx =>
      have hne : slot ≠ idx := by
        rintro rfl
        exact hstore hat
      exact (Function.update_of_ne hne ..).trans hslot
    | _ => exact hslot
  intro startIdx attempts hpc
  rw [hthread] at hpc
  obtain ⟨hle, hpassed⟩ := h startIdx attempts hpc
  exact ⟨hle, fun k hk => hinUse _ (hpassed k hk) fun hstore =>
    hfrees _ startIdx attempts hstore hpc k hk rfl⟩

/-- The passed slots stay in use while the pool is not full and none is freed behind the
scan. -/
theorem PassedInUse.step (h : PassedInUse layout i s) (hstep : State.Step layout s e t)
    (hstart : e ≠ .allocate i) (hnotFull : ¬ Full layout s)
    (hfrees : ∀ j idx, e = .step j → s.threads j = .storeFlag idx → ¬ HasPassed layout s i idx) :
    PassedInUse layout i t := by
  obtain ⟨henabled, rfl⟩ := hstep
  cases e with
  | allocate j =>
    have hji : i ≠ j := by
      rintro rfl
      exact hstart rfl
    intro startIdx attempts hpc
    refine h startIdx attempts ?_
    simpa only [State.next, State.goto, Function.update_of_ne hji] using hpc
  | deallocate j ptr =>
    have hidle : s.threads j = .idle := henabled.1
    simp only [State.next]
    split
    · exact h
    · intro startIdx attempts hpc
      refine h startIdx attempts ?_
      by_cases hji : i = j
      · simp [State.goto, hji] at hpc
      · simpa only [State.goto, Function.update_of_ne hji] using hpc
  | step j =>
    by_cases hji : j = i
    · rw [hji]
      exact h.own
    · refine h.other hji fun idx startIdx attempts hstore hpc k hk hslot => ?_
      have hle := (h startIdx attempts hpc).1
      rcases hle.lt_or_eq with hlt | heq
      · exact hfrees j idx rfl hstore ⟨startIdx, attempts, hpc, hlt, k, hk, hslot⟩
      · exact hnotFull (h.full ⟨startIdx, attempts, hpc, heq.ge⟩)

end Steps

section Run

variable [DecidableEq ι] {tr during rest : List (Event ι × State ι)}

/-- While the pool is never full and no slot is freed behind its scan, a call that will
return a null pointer keeps the slots that it has passed in use. -/
theorem passedInUse_during (hrun : IsRun (State.Step layout) (construct ι) tr)
    (hfrees : FreesNoneBehind layout tr) {between : List (Event ι × State ι)} {v : State ι}
    (hcall : InCall tr i s (during ++ between) ((.step i, v) :: rest))
    (hnull : ReturnsNull layout (lastState s (during ++ between)) i)
    (hnever : ∀ u ∈ s :: during.map Prod.snd, ¬ Full layout u) :
    PassedInUse layout i (lastState s during) := by
  induction during using List.reverseRecOn generalizing between with
  | nil =>
    -- the call has not begun its scan
    obtain ⟨before, rfl⟩ := hcall.split
    obtain ⟨-, ⟨-, rfl⟩, -⟩ := isRun_append.mp hrun
    intro startIdx attempts hpc
    simp [State.next, State.goto] at hpc
  | append_singleton during x ih =>
    obtain ⟨e, t⟩ := x
    rw [List.append_assoc, List.singleton_append] at hcall hnull
    have hpast : ∀ u ∈ s :: during.map Prod.snd, ¬ Full layout u := by
      intro u hu
      refine hnever u ?_
      rw [List.map_append, ← List.cons_append]
      exact List.mem_append_left _ hu
    have hstep : State.Step layout (lastState s during) e t := by
      obtain ⟨before, rfl⟩ := hcall.split
      have hcalled := (isRun_append.mp hrun).2.2
      rw [List.append_assoc] at hcalled
      exact (isRun_append.mp hcalled).2.1
    rw [lastState_append]
    refine (ih hcall hnull hpast).step hstep (hcall.once (e, t) (by simp)) ?_ ?_
    · exact hpast _ (lastState_mem s during)
    · rintro j idx rfl hstore hpassed
      rw [lastState_append] at hnull
      obtain ⟨u, hu, hfull⟩ :=
        hfrees i j s during t between v rest idx hcall hnull hstore hpassed
      exact hpast u hu hfull

/-- A call in a computed run. -/
theorem inCall_runOf (layout : Layout) (s : State ι) (before : List (Event ι))
    {events : List (Event ι)} (honce : ∀ e ∈ events, e ≠ .allocate i) (after : List (Event ι)) :
    let start := (before.foldl (State.next layout) s).next layout (.allocate i)
    InCall (runOf (State.next layout) s (before ++ .allocate i :: (events ++ after))) i start
      (runOf (State.next layout) start events)
      (runOf (State.next layout) (events.foldl (State.next layout) start) after) := by
  refine ⟨⟨runOf (State.next layout) s before, ?_⟩, fun x hx => honce x.1 ?_⟩
  · rw [runOf_append, runOf, runOf_append]
  · rw [← map_fst_runOf (State.next layout) _ events]
    exact List.mem_map_of_mem hx

omit [DecidableEq ι] in
/-- It is enough that no thread ever stands before freeing a slot that a scan has passed. -/
theorem freesNoneBehind_of_forall
    (h : ∀ u ∈ tr.map Prod.snd, ∀ i j, ∀ idx < layout.poolSize,
      u.threads j = .storeFlag idx → ¬ HasPassed layout u i idx) :
    FreesNoneBehind layout tr := by
  intro i j s during t between v rest idx hcall _ hstore hpassed
  have hmem : lastState s during ∈ tr.map Prod.snd := by
    obtain ⟨before, rfl⟩ := hcall.split
    have hlast := lastState_mem s during
    simp only [List.map_append, List.map_cons, List.mem_append, List.mem_cons] at hlast ⊢
    tauto
  have hidx : idx < layout.poolSize := by
    obtain ⟨startIdx, attempts, -, -, k, -, rfl⟩ := hpassed
    exact Nat.mod_lt _ layout.poolSize_pos
  exact absurd hpassed (h _ hmem i j idx hidx hstore)

end Run

/-- In every run in which no slot is freed behind a scan that ends in a null pointer, unless
the pool was full since the scan's call has started, a call that returns a null pointer has
seen the pool full. -/
theorem reportsTruly_of_freesNoneBehind [DecidableEq ι] (layout : Layout)
    {tr : List (Event ι × State ι)} (hrun : IsRun (State.Step layout) (construct ι) tr)
    (hfrees : FreesNoneBehind layout tr) : ReportsTruly layout tr := by
  intro i s during t rest hcall hnull
  by_contra hnever
  push Not at hnever
  have hcall' : InCall tr i s (during ++ []) ((.step i, t) :: rest) := by
    rwa [List.append_nil]
  have hpassed := passedInUse_during hrun hfrees hcall' (by rwa [List.append_nil]) hnever
  exact hnever _ (lastState_mem s during) (hpassed.full hnull)

/-- A pool with two slots. -/
def twoSlots : Layout := ⟨2, 4096, 64, Nat.succ_pos _, Nat.succ_pos _⟩

/-- One thread takes both slots. -/
def bothSlotsUsed : List (Event Bool) :=
  Event.allocate false :: List.replicate 4 (Event.step false) ++
    Event.allocate false :: List.replicate 4 (Event.step false)

/-- The other one looks at the first slot while the second is freed and taken again. -/
def freedAhead : List (Event Bool) :=
  bothSlotsUsed ++ [Event.allocate true, Event.step true, Event.step true] ++
    Event.deallocate false (some 4160) :: List.replicate 3 (Event.step false) ++
    Event.allocate false :: List.replicate 4 (Event.step false) ++
    [Event.step true, Event.step true]

theorem reportsTruly_freedAhead :
    ReportsTruly twoSlots (runOf (State.next twoSlots) (construct Bool) freedAhead) :=
  reportsTruly_of_freesNoneBehind twoSlots (isRun_runOf_of_enabled (by decide +kernel))
    (freesNoneBehind_of_forall (by decide +kernel))

/-- The thread gives the second slot back. -/
def firstSlotUsed : List (Event Bool) :=
  bothSlotsUsed ++ Event.deallocate false (some 4160) :: List.replicate 3 (Event.step false)

/-- The other one looks at the first slot; then the first is freed and the second taken. -/
def holeMoves : List (Event Bool) :=
  [Event.step true, Event.step true] ++
    Event.deallocate false (some 4096) :: List.replicate 3 (Event.step false) ++
    Event.allocate false :: List.replicate 4 (Event.step false) ++ [Event.step true]

/-- The scan misses the free slot that there always was. -/
theorem reportsTruly_fails : ¬ ∀ tr, IsRun (State.Step twoSlots) (construct Bool) tr →
    ReportsTruly twoSlots tr := by
  intro h
  have hrun : IsRun (State.Step twoSlots) (construct Bool) (runOf (State.next twoSlots)
      (construct Bool) (firstSlotUsed ++ .allocate true :: (holeMoves ++ [.step true]))) :=
    isRun_runOf_of_enabled (by decide +kernel)
  have hcall := inCall_runOf twoSlots (construct Bool) firstSlotUsed
    (show ∀ e ∈ holeMoves, e ≠ .allocate true by simp [holeMoves]) [.step true]
  have hfull := h _ hrun true _ _ _ _ hcall ⟨0, 2, by decide +kernel, by decide⟩
  revert hfull
  decide +kernel

end OrderbookEngine.LockFreePool
