import OrderbookEngine.Utils.QueueChain

/-!
# Reclaiming retired nodes

`try_reclaim` deletes every retired node once a hundred are retired, on the
assumption that the threads that could have seen them have completed. No access
touches a deleted node as long as the assumption holds of the threads that are
about to access the node without checking the queue again.
-/

namespace OrderbookEngine.LockFreeQueue

open Transition

variable {ι V : Type}

/-- The node whose field the access at a place reads or exchanges. -/
def Pc.accesses : Pc V → Option Nat
  | .pushLoadNext _ tail | .pushLink _ tail => some tail
  | .popLoadNext head _ => some head
  | .popReadData _ next => some next
  | _ => none

/-- The node that a thread will access before it checks the queue again. -/
def Pc.held : Pc V → Option Nat
  | .popLoadTail head => some head
  | pc => pc.accesses

/-- The node whose field an event touches. -/
def State.touches (s : State ι V) : Event ι V → Option Nat
  | .push _ _ | .pop _ => none
  | .step thread _ => (s.threads thread).bind fun inCall => inCall.2.accesses

/-- The event touches no deleted node. -/
def State.TouchesLive (s : State ι V) (e : Event ι V) : Prop :=
  ∀ n, s.touches e = some n → s.deleted n = false

/-- A node is deleted only when no other thread holds it. -/
def State.DeletesUnheld (s : State ι V) : Event ι V → Prop
  | .push _ _ | .pop _ => True
  | .step thread _ => ∀ call node rest data,
      s.threads thread = some (call, .reclaimDelete node rest data) →
        ∀ other call' pc, other ≠ thread → s.threads other = some (call', pc) →
          pc.held ≠ some node

/-- No thread holds a deleted node. -/
def State.HeldLive (s : State ι V) : Prop :=
  ∀ i call pc n, s.threads i = some (call, pc) → pc.held = some n → s.deleted n = false

section Live

variable {s : State ι V} {t k n : Nat}

/-- Nodes that the head has not passed are not deleted. -/
theorem Shared.live (h : Shared s t) (hk : s.chain[k]? = some n) (hle : s.removed ≤ k) :
    s.deleted n = false := by
  by_contra hdeleted
  obtain ⟨j, hj, hat⟩ := h.deleted n (by simpa using hdeleted)
  have hplace : k = j := h.at_inj hk hat
  omega

theorem Shared.live_head (h : Shared s t) : s.deleted s.head = false :=
  h.live h.head_at le_rfl

theorem Shared.live_tail (h : Shared s t) : s.deleted s.tail = false :=
  h.live h.tail_at h.le_tail

end Live

section Step

variable [DecidableEq ι] {s : State ι V} {t : Nat} {i : ι} {call : Nat} {pc : Pc V}

/-- What a step of one thread does to its own place and to the marks: it comes to
hold live nodes only, and marks the node it stands at deleting. -/
structure Holds (s u : State ι V) (i : ι) (pc : Pc V) : Prop where
  threads : ∃ x, u.threads = Function.update s.threads i x ∧
    ∀ call pc' n, x = some (call, pc') → pc'.held = some n → u.deleted n = false
  deleted : ∀ n, u.deleted n = true →
    s.deleted n = true ∨ ∃ rest data, pc = .reclaimDelete n rest data

/-- A step to a place whose node is live. -/
theorem Holds.goto {m : State ι V} (hthreads : m.threads = s.threads)
    (hdeleted : ∀ n, m.deleted n = true →
      s.deleted n = true ∨ ∃ rest data, pc = .reclaimDelete n rest data) {pc' : Pc V}
    (hpc : ∀ n, pc'.held = some n → m.deleted n = false) :
    Holds s (m.goto i call pc') i pc where
  threads := by
    refine ⟨some (call, pc'), by rw [State.goto, hthreads], ?_⟩
    rintro _ _ n ⟨⟩ hn
    exact hpc n hn
  deleted := hdeleted

/-- A step to a place without a node. -/
theorem Holds.goto_free {m : State ι V} (hthreads : m.threads = s.threads)
    (hdeleted : ∀ n, m.deleted n = true →
      s.deleted n = true ∨ ∃ rest data, pc = .reclaimDelete n rest data) {pc' : Pc V}
    (hpc : pc'.held = none) : Holds s (m.goto i call pc') i pc := by
  refine Holds.goto hthreads hdeleted fun n hn => ?_
  rw [hpc] at hn
  cases hn

theorem Holds.finish {m : State ι V} (hthreads : m.threads = s.threads)
    (hdeleted : ∀ n, m.deleted n = true →
      s.deleted n = true ∨ ∃ rest data, pc = .reclaimDelete n rest data) (res : Res V) :
    Holds s (m.finish i call res) i pc where
  threads := ⟨none, by rw [State.finish, hthreads], nofun⟩
  deleted := hdeleted

theorem Holds.finishPop {m : State ι V} (hthreads : m.threads = s.threads)
    (hdeleted : ∀ n, m.deleted n = true →
      s.deleted n = true ∨ ∃ rest data, pc = .reclaimDelete n rest data) (data : Option V) :
    Holds s (m.finishPop i call data) i pc := by
  cases data with
  | none => exact Holds.goto_free hthreads hdeleted rfl
  | some value => exact Holds.finish hthreads hdeleted _

theorem Holds.reclaimLoop {m : State ι V} (hthreads : m.threads = s.threads)
    (hdeleted : ∀ n, m.deleted n = true →
      s.deleted n = true ∨ ∃ rest data, pc = .reclaimDelete n rest data) (retired : List Nat)
    (data : Option V) : Holds s (m.reclaimLoop i call retired data) i pc := by
  cases retired with
  | nil => exact Holds.finishPop hthreads hdeleted data
  | cons node rest => exact Holds.goto_free hthreads hdeleted rfl

/-- The exchange of the tail holds nothing. -/
theorem Holds.helpTail (tail next : Nat) (spurious : Bool) {pc' : Pc V} (hpc : pc'.held = none) :
    Holds s (if s.tail = tail ∧ spurious = false then
      { s with tail := next }.goto i call pc' else s.goto i call pc') i pc := by
  split
  · exact Holds.goto_free (s := s) (m := { s with tail := next }) rfl (fun _ => Or.inl) hpc
  · exact Holds.goto_free rfl (fun _ => Or.inl) hpc

variable (h : InvAt s t) (hi : s.threads i = some (call, pc)) (hlive : s.HeldLive)

include h hi hlive

/-- Every step of a thread comes to hold live nodes only. -/
theorem holds_pcNext (spurious : Bool) : Holds s (s.pcNext i call spurious pc) i pc := by
  obtain ⟨hlocals, -⟩ := h.locals i call pc hi
  have hold : ∀ n, s.deleted n = true → s.deleted n = true ∨
      ∃ rest data, pc = .reclaimDelete n rest data := fun _ => Or.inl
  have hheld : ∀ n, pc.held = some n → s.deleted n = false := fun n => hlive i call pc n hi
  cases pc with
  | pushLoadTail node =>
    refine Holds.goto (by rfl) hold fun n hn => ?_
    cases hn
    exact h.live_tail
  | pushLoadNext node tail => exact Holds.goto_free (by rfl) hold rfl
  | pushCheckTail node tail next =>
    simp only [State.pcNext]
    split
    · rename_i htail
      cases next with
      | none =>
        refine Holds.goto (by rfl) hold fun n hn => ?_
        cases hn
        exact htail ▸ h.live_tail
      | some next => exact Holds.goto_free (by rfl) hold rfl
    · exact Holds.goto_free (by rfl) hold rfl
  | pushLink node tail =>
    simp only [State.pcNext]
    split
    · exact Holds.goto_free (m := { s with
        next := Function.update s.next tail (some node)
        links := s.links ++ [(call, node)] }) (by rfl) hold rfl
    · exact Holds.goto_free (by rfl) hold rfl
  | pushSwing node tail => exact Holds.helpTail tail node spurious rfl
  | pushHelp node tail next => exact Holds.helpTail tail next spurious rfl
  | pushCount => exact Holds.finish (m := { s with size := s.size + 1 }) (by rfl) hold _
  | popLoadHead =>
    refine Holds.goto (by rfl) hold fun n hn => ?_
    cases hn
    exact h.live_head
  | popLoadTail head => exact Holds.goto (by rfl) hold hheld
  | popLoadNext head tail => exact Holds.goto_free (by rfl) hold rfl
  | popCheckHead head tail next =>
    simp only [State.pcNext]
    split
    · rename_i hhead
      split
      · cases next with
        | none => exact Holds.finish (by rfl) hold _
        | some next => exact Holds.goto_free (by rfl) hold rfl
      · cases next with
        | none => exact Holds.goto_free (by rfl) hold rfl
        | some next =>
          refine Holds.goto (by rfl) hold fun n hn => ?_
          cases hn
          have hnext := hlocals.2 next rfl
          rw [hhead, h.next_at _ _ h.head_at] at hnext
          exact h.live hnext (Nat.le_succ _)
    · exact Holds.goto_free (by rfl) hold rfl
  | popHelp tail next => exact Holds.helpTail tail next spurious rfl
  | popReadData head next => exact Holds.goto_free (by rfl) hold rfl
  | popSwing head next data =>
    simp only [State.pcNext]
    split
    · exact Holds.goto_free (m := { s with head := next, pops := s.pops ++ [call] })
        (by rfl) hold rfl
    · exact Holds.goto_free (by rfl) hold rfl
  | popCount head data =>
    exact Holds.goto_free (m := { s with size := s.size - 1 }) (by rfl) hold rfl
  | retireLoad head data => exact Holds.goto_free (by rfl) hold rfl
  | retireLink head oldHead data =>
    simp only [State.pcNext]
    split
    · exact Holds.goto_free (m := { s with retiredHead := head :: oldHead }) (by rfl) hold rfl
    · exact Holds.goto_free (by rfl) hold rfl
  | retireCount data =>
    exact Holds.goto_free (m := { s with retiredCount := s.retiredCount + 1 }) (by rfl) hold rfl
  | reclaimTest data =>
    simp only [State.pcNext]
    split
    · exact Holds.finishPop (by rfl) hold data
    · exact Holds.goto_free (by rfl) hold rfl
  | reclaimTake data =>
    simp only [State.pcNext]
    split
    · exact Holds.finishPop (by rfl) hold data
    · exact Holds.goto_free (m := { s with retiredHead := [] }) (by rfl) hold rfl
  | reclaimReset retired data =>
    exact Holds.reclaimLoop (m := { s with retiredCount := 0 }) (by rfl) hold retired data
  | reclaimDelete node rest data =>
    refine Holds.reclaimLoop (m := { s with deleted := Function.update s.deleted node true })
      (by rfl) (fun n hn => ?_) rest data
    by_cases hne : n = node
    · exact Or.inr ⟨rest, data, by rw [hne]⟩
    · exact Or.inl ((Function.update_of_ne hne ..).symm.trans hn)

end Step

section Run

variable [DecidableEq ι] {s u : State ι V}

omit [DecidableEq ι] in
theorem not_touchesLive {i : ι} {call n : Nat} {pc : Pc V} (hi : s.threads i = some (call, pc))
    (hpc : pc.accesses = some n) (hdeleted : s.deleted n = true) {spurious : Bool} :
    ¬ s.TouchesLive (.step i spurious) := by
  intro hlive
  have htouches : s.touches (.step i spurious) = some n := by
    rw [State.touches, hi]
    exact hpc
  rw [hlive n htouches] at hdeleted
  cases hdeleted

theorem reclaimLoop_deleted {i : ι} {call : Nat} {retired : List Nat}
    {data : Option V} : (s.reclaimLoop i call retired data).deleted = s.deleted := by
  cases retired <;> cases data <;> rfl

theorem reclaimLoop_threads {i j : ι} {call : Nat} {retired : List Nat} {data : Option V}
    (hj : j ≠ i) : (s.reclaimLoop i call retired data).threads j = s.threads j := by
  cases retired <;> cases data <;> exact Function.update_of_ne hj ..

/-- What every run keeps whose deletions meet the assumption. -/
structure Reclaims (s : State ι V) : Prop where
  chain : ∃ t, InvAt s t
  heldLive : s.HeldLive

/-- A call that begins holds nothing and deletes nothing. -/
theorem State.HeldLive.begin {i : ι} (h : s.HeldLive) {m : State ι V}
    (hthreads : m.threads = s.threads) (hdeleted : m.deleted = s.deleted) (op : Op V)
    {pc : Pc V} (hpc : pc.held = none) : (m.begin i op pc).HeldLive := by
  intro j call pc' n hj hn
  show m.deleted n = false
  rw [hdeleted]
  have hj : Function.update m.threads i (some (m.calls, pc)) j = some (call, pc') := hj
  rw [hthreads] at hj
  by_cases hji : j = i
  · rw [hji, Function.update_self] at hj
    cases hj
    rw [hpc] at hn
    cases hn
  · exact h j call pc' n ((Function.update_of_ne hji ..).symm.trans hj) hn

/-- A step that deletes only what no other thread holds keeps every held node. -/
theorem Reclaims.step (h : Reclaims s) {e : Event ι V} (hcond : s.DeletesUnheld e)
    (hstep : State.Step s e u) : Reclaims u := by
  obtain ⟨⟨t, hinv⟩, hlive⟩ := h
  obtain ⟨-, rfl⟩ := hstep
  refine ⟨hinv.step e, ?_⟩
  cases e with
  | push i value => exact hlive.begin rfl rfl (.push value) rfl
  | pop i => exact hlive.begin rfl rfl .pop rfl
  | step i spurious =>
    simp only [State.step]
    cases hi : s.threads i with
    | none => exact hlive
    | some inCall =>
      obtain ⟨call, pc⟩ := inCall
      obtain ⟨⟨x, hthreads, hx⟩, hdeleted⟩ := holds_pcNext hinv hi hlive spurious
      intro j call' pc' n hj hn
      rw [hthreads] at hj
      by_cases hji : j = i
      · rw [hji, Function.update_self] at hj
        exact hx call' pc' n hj hn
      · rw [Function.update_of_ne hji] at hj
        by_contra hmarked
        rcases hdeleted n (by simpa using hmarked) with hold | ⟨rest, data, rfl⟩
        · rw [hlive j call' pc' n hj hn] at hold
          cases hold
        · exact hcond call n rest data hi j call' pc' hji hj hn

/-- The condition is exact: where another thread holds the node that a step
deletes, that thread may touch the deleted node with its first or second step. -/
theorem exists_touches_deleted {e : Event ι V} (h : ¬ s.DeletesUnheld e) :
    ∃ other, ¬ (s.step e).TouchesLive (.step other false) ∨
      ¬ ((s.step e).step (.step other false)).TouchesLive (.step other false) := by
  cases e with
  | push | pop => exact absurd trivial h
  | step i spurious =>
    simp only [State.DeletesUnheld, not_forall, not_not] at h
    obtain ⟨call, node, rest, data, hi, other, call', pc, hne, hother, hheld⟩ := h
    let u := s.step (.step i spurious)
    have hu : u = { s with deleted := Function.update s.deleted node true }.reclaimLoop i call rest
        data := by
      simp only [u, State.step, hi]
      rfl
    have hdeleted : u.deleted node = true := by
      rw [hu, reclaimLoop_deleted]
      exact Function.update_self ..
    have hthread : u.threads other = some (call', pc) := by
      rw [hu, reclaimLoop_threads hne]
      exact hother
    refine ⟨other, ?_⟩
    by_cases haccess : pc.accesses = some node
    · exact Or.inl (not_touchesLive hthread haccess hdeleted)
    · -- the head was loaded and is accessed after the tail
      obtain rfl : pc = .popLoadTail node := by
        cases pc with
        | popLoadTail head =>
          cases hheld
          rfl
        | _ => exact absurd hheld haccess
      have hnext : u.step (.step other false) = u.goto other call' (.popLoadNext node u.tail) := by
        simp only [State.step, hthread]
        rfl
      right
      show ¬ (u.step (.step other false)).TouchesLive _
      rw [hnext]
      have hmoved : (u.goto other call' (.popLoadNext node u.tail)).threads other =
          some (call', .popLoadNext node u.tail) := Function.update_self ..
      exact not_touchesLive hmoved rfl hdeleted

end Run

end OrderbookEngine.LockFreeQueue
