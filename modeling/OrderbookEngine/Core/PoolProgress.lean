import OrderbookEngine.Core.PoolExhaustion

/-!
# The pool is wait-free

`allocate` tries each slot once, and `deallocate` does not loop: a call returns after a
bounded number of its own steps, whatever the other threads do in between.
-/

namespace OrderbookEngine.LockFreePool

open Transition

variable {ι : Type} {layout : Layout}

/-- How many steps a thread takes at most up to its return. -/
def Pc.stepsLeft (layout : Layout) : Pc → Nat
  | .idle => 0
  | .fetchHead => layout.poolSize + 3
  | .claim _ attempts => layout.poolSize - attempts + 2
  | .construct _ => 2
  | .finishConstruct _ => 1
  | .destroy _ => 3
  | .finishDestroy _ => 2
  | .storeFlag _ => 1

/-- The step of the thread. -/
def Event.stepOf [DecidableEq ι] (i : ι) : Event ι → Nat
  | .step thread => if thread = i then 1 else 0
  | _ => 0

/-- The steps that a call of the thread may take. -/
def Event.stepsGranted [DecidableEq ι] (layout : Layout) (i : ι) : Event ι → Nat
  | .allocate thread => if thread = i then layout.poolSize + 3 else 0
  | .deallocate thread _ => if thread = i then 3 else 0
  | .step _ => 0

section Steps

variable [DecidableEq ι] {s t : State ι} {i j : ι} {e : Event ι}

/-- A step of another thread does not move the thread. -/
theorem pcNext_threads_of_ne (s : State ι) (hij : i ≠ j) (pc : Pc) :
    (s.pcNext layout j pc).threads i = s.threads i := by
  cases pc with
  | idle => rfl
  | claim startIdx attempts =>
    simp only [State.pcNext]
    split
    · split
      · exact Function.update_of_ne hij ..
      · exact Function.update_of_ne hij ..
    · exact Function.update_of_ne hij ..
  | _ => exact Function.update_of_ne hij ..

/-- Each step takes one off the thread's number. -/
theorem stepsLeft_pcNext (hpc : s.threads i ≠ .idle) :
    1 + Pc.stepsLeft layout ((s.pcNext layout i (s.threads i)).threads i) ≤
      Pc.stepsLeft layout (s.threads i) := by
  cases hi : s.threads i with
  | idle => exact absurd hi hpc
  | claim startIdx attempts =>
    simp only [State.pcNext]
    split
    · split
      · simp only [State.goto, Function.update_self, Pc.stepsLeft]
        omega
      · simp only [State.goto, Function.update_self, Pc.stepsLeft]
        omega
    · simp [State.goto, Pc.stepsLeft]
  | _ => simp [State.pcNext, State.goto, Pc.stepsLeft] <;> omega

/-- The steps of a thread are granted by its calls. -/
theorem stepsLeft_step (hstep : State.Step layout s e t) :
    e.stepOf i + Pc.stepsLeft layout (t.threads i) ≤
      Pc.stepsLeft layout (s.threads i) + e.stepsGranted layout i := by
  obtain ⟨henabled, rfl⟩ := hstep
  cases e with
  | allocate j =>
    by_cases hj : j = i
    · subst hj
      simp [State.next, State.goto, Event.stepOf, Event.stepsGranted, Pc.stepsLeft]
    · simp [State.next, State.goto, Event.stepOf, Event.stepsGranted,
        Function.update_of_ne (Ne.symm hj)]
  | deallocate j ptr =>
    simp only [State.next, Event.stepOf, Event.stepsGranted]
    split
    · omega
    · by_cases hj : j = i
      · subst hj
        simp [State.goto, Pc.stepsLeft]
      · simp [State.goto, Function.update_of_ne (Ne.symm hj)]
  | step j =>
    by_cases hj : j = i
    · subst hj
      simpa [Event.stepOf, Event.stepsGranted, State.next] using stepsLeft_pcNext henabled
    · simp only [Event.stepOf, Event.stepsGranted, State.next, if_neg hj,
        pcNext_threads_of_ne s (Ne.symm hj)]
      omega

end Steps

/-- In every run, a thread takes at most `poolSize + 3` steps for each of its calls of `allocate`
and three for each of `deallocate`, however the others are scheduled. -/
theorem ownSteps_le [DecidableEq ι] (layout : Layout) {tr : List (Event ι × State ι)}
    (hrun : IsRun (State.Step layout) (construct ι) tr) (i : ι) :
    (tr.map fun x => x.1.stepOf i).sum ≤ (tr.map fun x => x.1.stepsGranted layout i).sum := by
  have hstep : ∀ s e t, True → State.Step layout s e t → True ∧
      Event.stepOf i e + Pc.stepsLeft layout (t.threads i) ≤
        Pc.stepsLeft layout (s.threads i) + Event.stepsGranted layout i e :=
    fun _ _ _ _ hstep => ⟨trivial, stepsLeft_step hstep⟩
  have hpaid := hrun.sum_cost_le (fun _ => True) hstep trivial
  simp only [construct, Pc.stepsLeft] at hpaid
  omega

/-- A thread that finds no slot, in a pool with two. -/
theorem ownSteps_le_twoSlots :
    ((runOf (State.next twoSlots) (construct Bool) (firstSlotUsed ++ .allocate true ::
        (holeMoves ++ [.step true]))).map fun x => x.1.stepOf true).sum ≤
      ((runOf (State.next twoSlots) (construct Bool) (firstSlotUsed ++ .allocate true ::
        (holeMoves ++ [.step true]))).map fun x => x.1.stepsGranted twoSlots true).sum :=
  ownSteps_le twoSlots (isRun_runOf_of_enabled (by decide +kernel)) true

end OrderbookEngine.LockFreePool
