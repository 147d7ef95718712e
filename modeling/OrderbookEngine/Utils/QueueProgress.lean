import OrderbookEngine.Utils.QueueChain

/-!
# The queue is lock-free

A compare-exchange of `push` or `pop` fails only when another call has moved the tail, the
head or the retired list since the pointer was loaded, or spuriously. Each call moves them a
bounded number of times, so that calls which contend cannot keep each other from returning.
-/

namespace OrderbookEngine.LockFreeQueue

open Transition

variable {ι V : Type}

/-- How many steps a call has before it when no exchange fails and no other call has to be
helped; what it has taken from the retired list is deleted node by node. -/
def Pc.stepsLeft : Pc V → Nat
  | .pushLoadTail _ => 6
  | .pushLoadNext _ _ => 5
  | .pushCheckTail _ _ _ => 4
  | .pushLink _ _ | .pushHelp _ _ _ => 3
  | .pushSwing _ _ => 2
  | .pushCount => 1
  | .popLoadHead => 13
  | .popLoadTail _ => 12
  | .popLoadNext _ _ => 11
  | .popCheckHead _ _ _ => 10
  | .popHelp _ _ | .popReadData _ _ => 9
  | .popSwing _ _ _ => 8
  | .popCount _ _ => 7
  | .retireLoad _ _ => 6
  | .retireLink _ _ _ => 5
  | .retireCount _ => 4
  | .reclaimTest _ => 3
  | .reclaimTake _ => 2
  | .reclaimReset retired _ => retired.length + 1
  | .reclaimDelete _ rest _ => rest.length + 1

/-- How often a call is still going to link a node, swing the tail over it, swing the head,
or change the retired list. -/
def Pc.changesLeft : Pc V → Nat
  | .pushLoadTail _ | .pushLoadNext _ _ | .pushCheckTail _ _ _ | .pushLink _ _
  | .pushHelp _ _ _ => 2
  | .pushSwing _ _ | .pushCount => 0
  | .popLoadHead | .popLoadTail _ | .popLoadNext _ _ | .popCheckHead _ _ _ | .popHelp _ _
  | .popReadData _ _ | .popSwing _ _ _ => 3
  | .popCount _ _ | .retireLoad _ _ | .retireLink _ _ _ => 2
  | .retireCount _ | .reclaimTest _ | .reclaimTake _ => 1
  | .reclaimReset _ _ | .reclaimDelete _ _ _ => 0

/-- What a call has loaded in this round is still so. -/
def Pc.Current (s : State ι V) : Pc V → Prop
  | .pushLoadNext _ tail | .pushHelp _ tail _ | .popHelp tail _ => tail = s.tail
  | .pushCheckTail _ tail next => tail = s.tail ∧ next = s.next tail
  | .pushLink _ tail => s.next tail = none
  | .popLoadTail head | .popReadData head _ | .popSwing head _ _ => head = s.head
  | .popLoadNext head tail => head = s.head ∧ tail = s.tail
  | .popCheckHead head tail next => head = s.head ∧ tail = s.tail ∧ next = s.next head
  | .retireLink _ oldHead _ => oldHead = s.retiredHead
  | _ => True

instance Pc.decidableCurrent (s : State ι V) : ∀ pc : Pc V, Decidable (pc.Current s)
  | .pushLoadNext _ tail | .pushHelp _ tail _ | .popHelp tail _ =>
    inferInstanceAs (Decidable (tail = s.tail))
  | .pushCheckTail _ tail next => inferInstanceAs (Decidable (tail = s.tail ∧ next = s.next tail))
  | .pushLink _ tail => inferInstanceAs (Decidable (s.next tail = none))
  | .popLoadTail head | .popReadData head _ | .popSwing head _ _ =>
    inferInstanceAs (Decidable (head = s.head))
  | .popLoadNext head tail => inferInstanceAs (Decidable (head = s.head ∧ tail = s.tail))
  | .popCheckHead head tail next =>
    inferInstanceAs (Decidable (head = s.head ∧ tail = s.tail ∧ next = s.next head))
  | .retireLink _ oldHead _ => inferInstanceAs (Decidable (oldHead = s.retiredHead))
  | .pushLoadTail _ | .pushSwing _ _ | .pushCount | .popLoadHead | .popCount _ _
  | .retireLoad _ _ | .retireCount _ | .reclaimTest _ | .reclaimTake _ | .reclaimReset _ _
  | .reclaimDelete _ _ _ => inferInstanceAs (Decidable True)

/-- The steps of a call up to the end of the round; a round that is going to fail is run again. -/
def Pc.effort (s : State ι V) (pc : Pc V) : Nat :=
  pc.stepsLeft + if pc.Current s then 0 else 6

/-- What a thread that may be idle adds. -/
def ofCall (f : Pc V → Nat) : Option (Nat × Pc V) → Nat
  | none => 0
  | some (_, pc) => f pc

@[simp] theorem ofCall_none (f : Pc V → Nat) : ofCall f none = 0 := rfl

@[simp] theorem ofCall_some (f : Pc V → Nat) (call : Nat) (pc : Pc V) :
    ofCall f (some (call, pc)) = f pc := rfl

theorem ofCall_one_le (x : Option (Nat × Pc V)) : ofCall (fun _ => 1) x ≤ 1 := by
  cases x with
  | none => exact Nat.zero_le 1
  | some x => exact le_rfl

/-- How many linked nodes are behind the tail. -/
def State.lag (s : State ι V) : Nat := s.links.length - s.chain.idxOf s.tail

/-- What the threads add up to. -/
def State.total (s : State ι V) (threads : Finset ι) (f : Pc V → Nat) : Nat :=
  ∑ i ∈ threads, ofCall f (s.threads i)

/-- How often the shared pointers are still going to change. -/
def State.changesLeft (s : State ι V) (threads : Finset ι) : Nat :=
  s.total threads Pc.changesLeft + s.lag

/-- The steps of all calls; each change that is left can make every call in progress run a
round again. -/
def State.effort (s : State ι V) (threads : Finset ι) : Nat :=
  6 * (s.changesLeft threads * s.total threads fun _ => 1) +
    s.total threads (Pc.effort s) + s.retiredHead.length

/-- The thread of an event. -/
def Event.thread : Event ι V → ι
  | .push thread _ | .pop thread | .step thread _ => thread

/-- A step in which no exchange fails spuriously. -/
def Event.works : Event ι V → Bool
  | .step _ spurious => !spurious
  | _ => false

/-- A step in which an exchange may fail spuriously. -/
def Event.fails : Event ι V → Bool
  | .step _ spurious => spurious
  | _ => false

/-- The start of a call. -/
def Event.begins : Event ι V → Bool
  | .step _ _ => false
  | _ => true

section Sums

variable [DecidableEq ι] {s u : State ι V} {threads : Finset ι} {i : ι}

/-- One thread's part of a sum. -/
theorem total_split (hi : i ∈ threads) (f : Pc V → Nat) :
    s.total threads f = ofCall f (s.threads i) + s.total (threads.erase i) f :=
  (Finset.add_sum_erase threads (fun j => ofCall f (s.threads j)) hi).symm

/-- The parts of the other threads, when one thread moves. -/
theorem total_erase {x : Option (Nat × Pc V)}
    (hthreads : u.threads = Function.update s.threads i x) (f : Pc V → Nat) :
    u.total (threads.erase i) f = s.total (threads.erase i) f := by
  refine Finset.sum_congr rfl fun j hj => ?_
  rw [hthreads, Function.update_of_ne (Finset.ne_of_mem_erase hj)]

omit [DecidableEq ι] in
theorem total_le_total {f g : Pc V → Nat} (hle : ∀ pc, f pc ≤ g pc + 6) :
    s.total threads f ≤ s.total threads g + 6 * s.total threads fun _ => 1 := by
  rw [State.total, State.total, State.total, Finset.mul_sum, ← Finset.sum_add_distrib]
  refine Finset.sum_le_sum fun i _ => ?_
  cases s.threads i with
  | none => exact Nat.zero_le _
  | some x => exact hle x.2

omit [DecidableEq ι] in
theorem effort_le_effort (s u : State ι V) (pc : Pc V) : pc.effort u ≤ pc.effort s + 6 := by
  unfold Pc.effort
  split <;> omega

end Sums

/-- A step leaves the shared pointers alone. -/
structure SamePointers (s u : State ι V) : Prop where
  head : u.head = s.head
  tail : u.tail = s.tail
  next : u.next = s.next
  links : u.links = s.links
  retired : u.retiredHead = s.retiredHead

theorem SamePointers.refl (s : State ι V) : SamePointers s s := ⟨rfl, rfl, rfl, rfl, rfl⟩

/-- Then it makes no round fail. -/
theorem SamePointers.effort_eq {s u : State ι V} (h : SamePointers s u) :
    Pc.effort u = Pc.effort s := by
  funext pc
  have hcurrent : pc.Current u ↔ pc.Current s := by
    cases pc <;> simp only [Pc.Current, h.head, h.tail, h.next, h.retired]
  simp only [Pc.effort, hcurrent]

theorem SamePointers.lag_eq {s u : State ι V} (h : SamePointers s u) : u.lag = s.lag := by
  simp only [State.lag, State.chain, h.links, h.tail]

/-- A step that takes `works` from the effort, but for `fails`. -/
structure Paid (s u : State ι V) (threads : Finset ι) (works fails : Nat) : Prop where
  effort : u.effort threads + works ≤ s.effort threads + fails
  changes : u.changesLeft threads ≤ s.changesLeft threads
  running : (u.total threads fun _ => 1) ≤ s.total threads fun _ => 1

section Moves

variable [DecidableEq ι] {s u : State ι V} {threads : Finset ι} {i : ι} {call : Nat} {pc : Pc V}
  {x : Option (Nat × Pc V)} {works fails : Nat}

/-- A thread in a call may return from it. -/
theorem running_le (hi : i ∈ threads) (hpc : s.threads i = some (call, pc))
    (hthreads : u.threads = Function.update s.threads i x) :
    (u.total threads fun _ => 1) ≤ s.total threads fun _ => 1 := by
  have hone := ofCall_one_le x
  rw [total_split hi, total_split (s := s) hi, total_erase hthreads, hthreads,
    Function.update_self, hpc, ofCall_some]
  omega

/-- A step that leaves the shared pointers alone. -/
theorem effort_of_quiet (hi : i ∈ threads) (hpc : s.threads i = some (call, pc))
    (hthreads : u.threads = Function.update s.threads i x) (hsame : SamePointers s u)
    (hchanges : ofCall Pc.changesLeft x ≤ pc.changesLeft)
    (hless : ofCall (Pc.effort s) x + works ≤ pc.effort s + fails) :
    Paid s u threads works fails := by
  have hself : u.threads i = x := by rw [hthreads, Function.update_self]
  have hother : ∀ f, u.total (threads.erase i) f = s.total (threads.erase i) f :=
    total_erase hthreads
  have hrunning := running_le hi hpc hthreads
  have hleft : u.changesLeft threads ≤ s.changesLeft threads := by
    rw [State.changesLeft, State.changesLeft, total_split hi, total_split (s := s) hi, hself,
      hother, hpc, hsame.lag_eq, ofCall_some]
    omega
  refine ⟨?_, hleft, hrunning⟩
  have hproduct : u.changesLeft threads * u.total threads (fun _ => 1) ≤
      s.changesLeft threads * s.total threads fun _ => 1 := Nat.mul_le_mul hleft hrunning
  have hu := total_split (s := u) hi (Pc.effort s)
  have hs := total_split (s := s) hi (Pc.effort s)
  rw [hself, hother] at hu
  rw [hpc, ofCall_some] at hs
  rw [State.effort, State.effort, hsame.effort_eq, hsame.retired]
  omega

/-- A step that changes a shared pointer may make the others run their rounds again. -/
theorem effort_of_change (hi : i ∈ threads) (hpc : s.threads i = some (call, pc))
    (hthreads : u.threads = Function.update s.threads i x)
    (hchanges : ofCall Pc.changesLeft x + u.lag + 1 ≤ pc.changesLeft + s.lag)
    (hless : ofCall (Pc.effort u) x + u.retiredHead.length + works ≤
      pc.effort s + s.retiredHead.length + 6) :
    Paid s u threads works fails := by
  have hself : u.threads i = x := by rw [hthreads, Function.update_self]
  have hother : ∀ f, u.total (threads.erase i) f = s.total (threads.erase i) f :=
    total_erase hthreads
  have hrunning := running_le hi hpc hthreads
  have hleft : u.changesLeft threads + 1 ≤ s.changesLeft threads := by
    rw [State.changesLeft, State.changesLeft, total_split hi, total_split (s := s) hi, hself,
      hother, hpc, ofCall_some]
    omega
  refine ⟨?_, (Nat.le_succ _).trans hleft, hrunning⟩
  have hproduct : (u.changesLeft threads + 1) * s.total threads (fun _ => 1) ≤
      s.changesLeft threads * s.total threads fun _ => 1 := Nat.mul_le_mul_right _ hleft
  have hrest : u.changesLeft threads * u.total threads (fun _ => 1) ≤
      u.changesLeft threads * s.total threads fun _ => 1 := Nat.mul_le_mul_left _ hrunning
  have hsplit := total_split (s := s) hi fun _ => 1
  have hrounds : s.total (threads.erase i) (Pc.effort u) ≤
      s.total (threads.erase i) (Pc.effort s) + 6 * s.total (threads.erase i) fun _ => 1 :=
    total_le_total (effort_le_effort s u)
  have hu := total_split (s := u) hi (Pc.effort u)
  have hs := total_split (s := s) hi (Pc.effort s)
  rw [hself, hother] at hu
  rw [hpc, ofCall_some] at hs hsplit
  rw [State.effort, State.effort]
  rw [Nat.add_one_mul] at hproduct
  omega

end Moves

section Steps

variable [DecidableEq ι] {s u : State ι V} {threads : Finset ι} {i : ι} {call t : Nat} {pc : Pc V}
  {spurious : Bool} {works fails : Nat}

omit [DecidableEq ι] in
/-- How far the tail lags behind, by its place in the chain. -/
theorem Shared.lag_eq (h : Shared s t) : s.lag = s.links.length - t := by
  have hlt := (List.getElem?_eq_some_iff.mp h.tail_at).1
  rw [State.lag, ← (List.getElem?_eq_some_iff.mp h.tail_at).2, h.nodup.idxOf_getElem]

omit [DecidableEq ι] in
theorem le_links {n : Nat} (hn : s.chain[t]? = some n) :
    t ≤ s.links.length := by
  have hlt := (List.getElem?_eq_some_iff.mp hn).1
  rw [State.chain, List.length_cons, List.length_map] at hlt
  exact Nat.le_of_lt_succ hlt

omit [DecidableEq ι] in
/-- The exchange of the tail for its successor. -/
theorem Shared.lag_swingTail (h : Shared s t) {next : Nat} (hnext : s.next s.tail = some next) :
    State.lag { s with tail := next } + 1 = s.lag := by
  have hswung := h.swingTail hnext
  have hle := le_links hswung.tail_at
  rw [hswung.lag_eq, h.lag_eq]
  exact (Nat.succ_pred_eq_of_pos (Nat.sub_pos_of_lt hle))

omit [DecidableEq ι] in
/-- A round is run again when an exchange fails, spuriously or because a pointer has changed. -/
theorem effort_again {pc' : Pc V} (hfails : ¬ (pc.Current s ∧ spurious = false))
    (hstart : pc'.effort s ≤ pc.stepsLeft + 5) :
    pc'.effort s + (!spurious).toNat ≤ pc.effort s + 5 * spurious.toNat := by
  cases spurious with
  | true =>
    simp only [Pc.effort, Bool.not_true, Bool.toNat_false, Bool.toNat_true] at hstart ⊢
    omega
  | false =>
    have hstale : ¬ pc.Current s := fun hcurrent => hfails ⟨hcurrent, rfl⟩
    simp only [Pc.effort, if_neg hstale, Bool.not_false, Bool.toNat_false, Bool.toNat_true]
      at hstart ⊢
    omega

omit [DecidableEq ι] in
/-- A step that goes on in a round. -/
theorem effort_on {pc' : Pc V} (hsteps : pc'.stepsLeft + 1 ≤ pc.stepsLeft)
    (hcurrent : pc.Current s → pc'.Current s) :
    pc'.effort s + (!spurious).toNat ≤ pc.effort s + 5 * spurious.toNat := by
  have hone : (!spurious).toNat ≤ 1 := Bool.toNat_le _
  by_cases hpc : pc.Current s
  · rw [Pc.effort, Pc.effort, if_pos hpc, if_pos (hcurrent hpc)]
    omega
  · rw [Pc.effort, Pc.effort, if_neg hpc]
    split <;> omega

/-- The end of a call. -/
theorem effort_finish (hi : i ∈ threads) (hpc : s.threads i = some (call, pc)) {m : State ι V}
    (hthreads : m.threads = s.threads) (hsame : SamePointers s m) (hsteps : 1 ≤ pc.stepsLeft)
    (res : Res V) :
    Paid s (m.finish i call res) threads (!spurious).toNat (5 * spurious.toNat) := by
  refine effort_of_quiet (x := none) hi hpc ?_ ⟨hsame.1, hsame.2, hsame.3, hsame.4, hsame.5⟩
    (Nat.zero_le _) ?_
  · rw [State.finish, hthreads]
  · have hone : (!spurious).toNat ≤ 1 := Bool.toNat_le _
    rw [ofCall_none, Pc.effort]
    omega

/-- A step that goes on in a round, and may count. -/
theorem effort_goto (hi : i ∈ threads) (hpc : s.threads i = some (call, pc)) {m : State ι V}
    (hthreads : m.threads = s.threads) (hsame : SamePointers s m) {pc' : Pc V}
    (hchanges : pc'.changesLeft ≤ pc.changesLeft)
    (hless : pc'.effort s + works ≤ pc.effort s + fails) :
    Paid s (m.goto i call pc') threads works fails := by
  refine effort_of_quiet (x := some (call, pc')) hi hpc ?_
    ⟨hsame.1, hsame.2, hsame.3, hsame.4, hsame.5⟩ hchanges hless
  rw [State.goto, hthreads]

/-- A step that changes a shared pointer and goes on. -/
theorem effort_change (hi : i ∈ threads) (hpc : s.threads i = some (call, pc)) {m : State ι V}
    (hthreads : m.threads = s.threads) {pc' : Pc V}
    (hchanges : pc'.changesLeft + m.lag + 1 ≤ pc.changesLeft + s.lag)
    (hcurrent : ∀ u : State ι V, pc'.Current u)
    (hsteps : pc'.stepsLeft + m.retiredHead.length ≤
      pc.stepsLeft + s.retiredHead.length + 5) :
    Paid s (m.goto i call pc') threads (!spurious).toNat (5 * spurious.toNat) := by
  have hone : (!spurious).toNat ≤ 1 := Bool.toNat_le _
  refine effort_of_change (x := some (call, pc')) hi hpc (by rw [State.goto, hthreads]) hchanges ?_
  change pc'.effort _ + m.retiredHead.length + _ ≤ _
  rw [Pc.effort, if_pos (hcurrent _), Pc.effort]
  omega

/-- The exchange of the tail for its successor changes a shared pointer. -/
theorem effort_swingTail (h : InvAt s t) (hi : i ∈ threads) (hpc : s.threads i = some (call, pc))
    {tail next : Nat} (hnext : s.next tail = some next) {pc' : Pc V}
    (hchanges : pc'.changesLeft ≤ pc.changesLeft) (hcurrent : ∀ u : State ι V, pc'.Current u)
    (hsteps : pc'.stepsLeft ≤ pc.stepsLeft + 5)
    (hfails : ¬ (s.tail = tail ∧ spurious = false) →
      pc'.effort s + (!spurious).toNat ≤ pc.effort s + 5 * spurious.toNat) :
    Paid s (if s.tail = tail ∧ spurious = false then { s with tail := next }.goto i call pc'
      else s.goto i call pc') threads (!spurious).toNat (5 * spurious.toNat) := by
  split
  · rename_i hexchange
    obtain ⟨rfl, -⟩ := hexchange
    have hlag := h.lag_swingTail hnext
    apply effort_change hi hpc
    · rfl
    · omega
    · exact hcurrent
    · change _ + s.retiredHead.length ≤ _
      omega
  · rename_i hexchange
    exact effort_goto hi hpc rfl (.refl s) hchanges (hfails hexchange)

/-- Nodes with a value are taken, so that `pop` does not go round after its exchange. -/
theorem effort_finishPop (hi : i ∈ threads) (hpc : s.threads i = some (call, pc)) {m : State ι V}
    (hthreads : m.threads = s.threads) (hsame : SamePointers s m) (hsteps : 1 ≤ pc.stepsLeft)
    {data : Option V} (hdata : data.isSome) :
    Paid s (m.finishPop i call data) threads (!spurious).toNat (5 * spurious.toNat) := by
  obtain ⟨value, rfl⟩ := Option.isSome_iff_exists.mp hdata
  exact effort_finish hi hpc hthreads hsame hsteps _

/-- The loop that deletes takes a step for each node. -/
theorem effort_reclaimLoop (hi : i ∈ threads) (hpc : s.threads i = some (call, pc))
    {m : State ι V} (hthreads : m.threads = s.threads) (hsame : SamePointers s m)
    {retired : List Nat} (hsteps : retired.length + 1 ≤ pc.stepsLeft) {data : Option V}
    (hdata : data.isSome) :
    Paid s (m.reclaimLoop i call retired data) threads (!spurious).toNat (5 * spurious.toNat) := by
  cases retired with
  | nil => exact effort_finishPop hi hpc hthreads hsame hsteps hdata
  | cons node rest =>
    exact effort_goto hi hpc hthreads hsame (Nat.zero_le _) (effort_on hsteps fun _ => trivial)

/-- Every step that does not fail spuriously takes from the effort, and one that does adds no
more than a round. -/
theorem effort_pcNext (h : InvAt s t) (hi : i ∈ threads) (hpc : s.threads i = some (call, pc)) :
    Paid s (s.pcNext i call spurious pc) threads (!spurious).toNat (5 * spurious.toNat) := by
  have hlocals := (h.locals i call pc hpc).1
  have hone : (!spurious).toNat ≤ 1 := Bool.toNat_le _
  cases pc with
  | pushLoadTail node =>
    exact effort_goto hi hpc rfl (.refl s) le_rfl (effort_on le_rfl fun _ => rfl)
  | pushLoadNext node tail =>
    exact effort_goto hi hpc rfl (.refl s) le_rfl (effort_on le_rfl fun htail => ⟨htail, rfl⟩)
  | pushCheckTail node tail next =>
    simp only [State.pcNext]
    split
    · cases next with
      | none =>
        exact effort_goto hi hpc rfl (.refl s) le_rfl (effort_on le_rfl fun hc => hc.2.symm)
      | some next =>
        exact effort_goto hi hpc rfl (.refl s) le_rfl (effort_on le_rfl fun hc => hc.1)
    · rename_i hne
      exact effort_goto hi hpc rfl (.refl s) le_rfl
        (effort_again (fun hc => hne hc.1.1) (Nat.le_add_right 6 3))
  | pushLink node tail =>
    simp only [State.pcNext]
    split
    · rename_i hexchange
      have hnode := (h.locals i call _ hpc).2 node rfl
      have hlinked := h.toShared.link call hlocals hexchange.1 hnode
      have hle := le_links h.tail_at
      apply effort_change hi hpc
      · rfl
      · rw [hlinked.lag_eq, h.lag_eq, List.length_append, List.length_singleton]
        simp only [Pc.changesLeft]
        omega
      · exact fun _ => trivial
      · change 2 + s.retiredHead.length ≤ _
        omega
    · rename_i hfails
      exact effort_goto hi hpc rfl (.refl s) le_rfl (effort_again hfails (Nat.le_add_right 6 2))
  | pushSwing node tail =>
    exact effort_swingTail h hi hpc hlocals.2 le_rfl (fun _ => trivial) (Nat.le_add_left 1 6)
      fun _ => effort_on le_rfl fun _ => trivial
  | pushHelp node tail next =>
    exact effort_swingTail h hi hpc hlocals.2 le_rfl (fun _ => trivial) (Nat.le_add_right 6 2)
      fun hfails => effort_again (fun hc => hfails ⟨hc.1.symm, hc.2⟩) (Nat.le_add_right 6 2)
  | pushCount =>
    apply effort_finish hi hpc
    · rfl
    · exact ⟨rfl, rfl, rfl, rfl, rfl⟩
    · exact le_rfl
  | popLoadHead => exact effort_goto hi hpc rfl (.refl s) le_rfl (effort_on le_rfl fun _ => rfl)
  | popLoadTail head =>
    exact effort_goto hi hpc rfl (.refl s) le_rfl (effort_on le_rfl fun hc => ⟨hc, rfl⟩)
  | popLoadNext head tail =>
    exact effort_goto hi hpc rfl (.refl s) le_rfl (effort_on le_rfl fun hc => ⟨hc.1, hc.2, rfl⟩)
  | popCheckHead head tail next =>
    obtain ⟨⟨k, hk, j, hj, hkj, hat, hat'⟩, -⟩ := hlocals
    simp only [State.pcNext]
    split
    · split
      · cases next with
        | none => exact effort_finish hi hpc rfl (.refl s) (Nat.le_add_left 1 9) _
        | some next =>
          exact effort_goto hi hpc rfl (.refl s) le_rfl (effort_on le_rfl fun hc => hc.2.1)
      · cases next with
        | none =>
          rename_i hne
          refine effort_goto hi hpc rfl (.refl s) le_rfl
            (effort_again (fun hc => ?_) (Nat.le_add_right 13 2))
          -- the head that was loaded is before the tail, and so has a successor
          have hlt : k < j := by
            refine lt_of_le_of_ne hkj fun he => hne ?_
            exact Option.some.inj (hat.symm.trans (he ▸ hat'))
          have hend := (h.next_at k head hat).symm.trans hc.1.2.2.symm
          have hlength := (List.getElem?_eq_some_iff.mp hat').1
          exact absurd (List.getElem?_eq_none_iff.mp hend) (by omega)
        | some next =>
          exact effort_goto hi hpc rfl (.refl s) le_rfl (effort_on le_rfl fun hc => hc.1)
    · rename_i hne
      exact effort_goto hi hpc rfl (.refl s) le_rfl
        (effort_again (fun hc => hne hc.1.1) (Nat.le_add_right 13 2))
  | popHelp tail next =>
    exact effort_swingTail h hi hpc hlocals.2 le_rfl (fun _ => trivial) (Nat.le_add_right 13 1)
      fun hfails => effort_again (fun hc => hfails ⟨hc.1.symm, hc.2⟩) (Nat.le_add_right 13 1)
  | popReadData head next =>
    exact effort_goto hi hpc rfl (.refl s) le_rfl (effort_on le_rfl id)
  | popSwing head next data =>
    simp only [State.pcNext]
    split
    · apply effort_change hi hpc
      · rfl
      · change 2 + s.lag + 1 ≤ 3 + s.lag
        omega
      · exact fun _ => trivial
      · change 7 + s.retiredHead.length ≤ 8 + s.retiredHead.length + 5
        omega
    · rename_i hfails
      exact effort_goto hi hpc rfl (.refl s) le_rfl
        (effort_again (fun hc => hfails ⟨hc.1.symm, hc.2⟩) le_rfl)
  | popCount head data =>
    apply effort_goto hi hpc
    · rfl
    · exact ⟨rfl, rfl, rfl, rfl, rfl⟩
    · exact le_rfl
    · exact effort_on le_rfl fun _ => trivial
  | retireLoad head data =>
    exact effort_goto hi hpc rfl (.refl s) le_rfl (effort_on le_rfl fun _ => rfl)
  | retireLink head oldHead data =>
    simp only [State.pcNext]
    split
    · rename_i hexchange
      have hlength := congrArg List.length hexchange.1
      apply effort_change hi hpc
      · rfl
      · change 1 + s.lag + 1 ≤ 2 + s.lag
        omega
      · exact fun _ => trivial
      · change 4 + (oldHead.length + 1) ≤ 5 + s.retiredHead.length + 5
        omega
    · rename_i hfails
      refine effort_goto hi hpc rfl (.refl s) le_rfl
        (effort_again (fun hc => hfails ⟨hc.1.symm, hc.2⟩) ?_)
      rw [Pc.effort, if_pos (by rfl)]
      exact Nat.le_add_right ..
  | retireCount data =>
    apply effort_goto hi hpc
    · rfl
    · exact ⟨rfl, rfl, rfl, rfl, rfl⟩
    · exact le_rfl
    · exact effort_on le_rfl fun _ => trivial
  | reclaimTest data =>
    simp only [State.pcNext]
    split
    · exact effort_finishPop hi hpc rfl (.refl s) (Nat.le_add_left 1 2) hlocals
    · exact effort_goto hi hpc rfl (.refl s) le_rfl (effort_on le_rfl fun _ => trivial)
  | reclaimTake data =>
    simp only [State.pcNext]
    split
    · exact effort_finishPop hi hpc rfl (.refl s) (Nat.le_add_left 1 1) hlocals
    · apply effort_change hi hpc
      · rfl
      · change 0 + s.lag + 1 ≤ 1 + s.lag
        omega
      · exact fun _ => trivial
      · change s.retiredHead.length + 1 + 0 ≤ 2 + s.retiredHead.length + 5
        omega
  | reclaimReset retired data =>
    simp only [State.pcNext]
    apply effort_reclaimLoop hi hpc
    · rfl
    · exact ⟨rfl, rfl, rfl, rfl, rfl⟩
    · exact le_rfl
    · exact hlocals.2
  | reclaimDelete node rest data =>
    simp only [State.pcNext]
    apply effort_reclaimLoop hi hpc
    · rfl
    · exact ⟨rfl, rfl, rfl, rfl, rfl⟩
    · exact le_rfl
    · exact hlocals.2

end Steps

section Run

variable [DecidableEq ι] {s u : State ι V} {threads : Finset ι} {i : ι} {t calls : Nat}

/-- How many calls are in progress, and what they still change, by the calls begun. -/
structure Begun (s : State ι V) (threads : Finset ι) (calls : Nat) : Prop where
  running : (s.total threads fun _ => 1) ≤ calls
  changes : s.changesLeft threads ≤ 3 * calls

/-- A call that begins adds its own steps, and rounds of the others. -/
theorem effort_begin (hi : i ∈ threads) (hidle : s.threads i = none) {call : Nat} {pc : Pc V}
    (hthreads : u.threads = Function.update s.threads i (some (call, pc)))
    (hsame : ∀ j call pc, s.threads j = some (call, pc) → pc.effort u = pc.effort s)
    (hlag : u.lag = s.lag) (hretired : u.retiredHead = s.retiredHead)
    (hchanges : pc.changesLeft ≤ 3) (hsteps : pc.effort u ≤ 13) (hs : Begun s threads calls) :
    u.effort threads + 18 * calls ^ 2 + 13 * calls ≤
        s.effort threads + 18 * (calls + 1) ^ 2 + 13 * (calls + 1) ∧
      Begun u threads (calls + 1) := by
  have hself : u.threads i = some (call, pc) := by rw [hthreads, Function.update_self]
  have hsplit (f : Pc V → Nat) : u.total threads f = f pc + s.total threads f := by
    rw [total_split hi, total_split (s := s) hi, total_erase hthreads, hself, hidle, ofCall_some,
      ofCall_none, Nat.zero_add]
  have hother : s.total threads (Pc.effort u) = s.total threads (Pc.effort s) := by
    refine Finset.sum_congr rfl fun j _ => ?_
    cases hj : s.threads j with
    | none => rfl
    | some x => exact hsame j x.1 x.2 hj
  have hrunning := hs.running
  have hleft := hs.changes
  rw [State.changesLeft] at hleft
  refine ⟨?_, ?_, ?_⟩
  · rw [State.effort, State.effort, hretired, hsplit, hsplit, hother, State.changesLeft,
      State.changesLeft, hsplit, hlag]
    generalize s.total threads (fun _ => 1) = running at *
    generalize s.total threads Pc.changesLeft = left at *
    nlinarith only [hrunning, hleft, hchanges, hsteps, Nat.mul_le_mul hchanges hrunning]
  · rw [hsplit]
    omega
  · rw [State.changesLeft, hsplit, hlag]
    omega

/-- A new node is none that a call looks at. -/
theorem InvAt.effort_push (h : InvAt s t) (i : ι) (value : V) {j : ι} {call : Nat} {pc : Pc V}
    (hj : s.threads j = some (call, pc)) : pc.effort (s.step (.push i value)) = pc.effort s := by
  have hlocals := (h.locals j call pc hj).1
  have hnext : ∀ n ∈ s.chain, (s.step (.push i value)).next n = s.next n :=
    fun n hn => Function.update_of_ne (h.allocated n hn).ne ..
  have hcurrent : pc.Current (s.step (.push i value)) ↔ pc.Current s := by
    cases pc with
    | pushCheckTail node tail next =>
      simp only [Pc.Current, hnext tail hlocals.1]
      rfl
    | pushLink node tail => simp only [Pc.Current, hnext tail hlocals]
    | popCheckHead head tail next =>
      obtain ⟨⟨k, -, j, -, -, hat, -⟩, -⟩ := hlocals
      simp only [Pc.Current, hnext head (List.mem_of_getElem? hat)]
      rfl
    | _ => rfl
  simp only [Pc.effort, hcurrent]

/-- A call that begins, or an atomic step of one. -/
theorem effort_step {e : Event ι V} (h : InvAt s t) (hi : e.thread ∈ threads)
    (hs : Begun s threads calls) (hstep : State.Step s e u) :
    u.effort threads + e.works.toNat + 18 * calls ^ 2 + 13 * calls ≤
        s.effort threads + 5 * e.fails.toNat + 18 * (calls + e.begins.toNat) ^ 2 +
          13 * (calls + e.begins.toNat) ∧
      Begun u threads (calls + e.begins.toNat) := by
  obtain ⟨henabled, rfl⟩ := hstep
  cases e with
  | push i value =>
    exact effort_begin hi henabled rfl (fun j _ _ => h.effort_push i value) rfl rfl
      (Nat.le_succ 2) (Nat.le_add_right 6 7) hs
  | pop i =>
    exact effort_begin hi henabled rfl (fun j _ _ _ => rfl) rfl rfl le_rfl le_rfl hs
  | step i spurious =>
    obtain ⟨x, hpc⟩ := Option.ne_none_iff_exists'.mp henabled
    have hpaid : Paid s (s.pcNext i x.1 spurious x.2) threads (!spurious).toNat
        (5 * spurious.toNat) := effort_pcNext h hi hpc
    have hu : s.step (.step i spurious) = s.pcNext i x.1 spurious x.2 := by
      rw [State.step, hpc]
    rw [hu]
    refine ⟨?_, hpaid.running.trans hs.running, hpaid.changes.trans hs.changes⟩
    exact Nat.add_le_add_right (Nat.add_le_add_right hpaid.effort _) _

/-- What the steps of a run take from the effort. -/
theorem works_paid {tr : List (Event ι V × State ι V)} (h : InvAt s t)
    (hs : Begun s threads calls) (hrun : IsRun State.Step s tr)
    (hthreads : ∀ x ∈ tr, x.1.thread ∈ threads) :
    tr.countP (fun x => x.1.works) + 18 * calls ^ 2 + 13 * calls ≤
      s.effort threads + 5 * tr.countP (fun x => x.1.fails) +
        18 * (calls + tr.countP fun x => x.1.begins) ^ 2 +
          13 * (calls + tr.countP fun x => x.1.begins) := by
  induction tr generalizing s t calls with
  | nil => simp
  | cons x tr ih =>
    obtain ⟨⟨hstep, hrun⟩, hx, hthreads⟩ := And.intro hrun (List.forall_mem_cons.mp hthreads)
    obtain ⟨hpaid, hbegun⟩ := effort_step h hx hs hstep
    obtain ⟨t', h'⟩ := h.step x.1
    rw [← hstep.2] at h'
    have hrest := ih h' hbegun hrun hthreads
    have hcount (p : Event ι V → Bool) : (x :: tr).countP (fun x => p x.1) =
        (p x.1).toNat + tr.countP fun x => p x.1 := by
      rw [List.countP_cons, Nat.add_comm]
      cases p x.1 <;> rfl
    rw [hcount Event.works, hcount Event.fails, hcount Event.begins, ← Nat.add_assoc calls]
    omega

/-- In every run, however the calls interleave, `n` calls take at most `18 * n ^ 2 + 13 * n`
steps, and five more for each exchange that fails spuriously: no call can keep the others from
returning for ever, or be kept by them. -/
theorem contended_steps_le {tr : List (Event ι V × State ι V)}
    (hrun : IsRun State.Step (construct ι V) tr) :
    tr.countP (fun x => x.1.works) ≤ 18 * (tr.countP fun x => x.1.begins) ^ 2 +
      13 * (tr.countP fun x => x.1.begins) + 5 * tr.countP fun x => x.1.fails := by
  have hbegun : Begun (construct ι V) (tr.map fun x => x.1.thread).toFinset 0 := by
    constructor <;> simp [State.total, State.changesLeft, State.lag, construct]
  have heffort : (construct ι V).effort (tr.map fun x => x.1.thread).toFinset = 0 := by
    simp [State.effort, State.total, construct]
  have hpaid := works_paid invAt_construct hbegun hrun fun x hx =>
    List.mem_toFinset.mpr (List.mem_map_of_mem hx)
  rw [heffort] at hpaid
  simp only [Nat.zero_add] at hpaid
  omega

/-- Two threads push at once. The second one's first link exchange fails as the first one has
linked its node, and the next one spuriously. -/
def contendedPushes : List (Event Bool Nat) :=
  [.push false 7, .push true 8] ++
    (List.replicate 4 [Event.step false false, Event.step true false]).flatten ++
    List.replicate 2 (.step false false) ++ List.replicate 3 (.step true false) ++
    [.step true true] ++ List.replicate 6 (.step true false)

theorem contended_steps_le_pushes :
    (runOf State.step (construct Bool Nat) contendedPushes).countP (fun x => x.1.works) ≤
      18 * ((runOf State.step (construct Bool Nat) contendedPushes).countP
          fun x => x.1.begins) ^ 2 +
        13 * ((runOf State.step (construct Bool Nat) contendedPushes).countP
          fun x => x.1.begins) +
        5 * (runOf State.step (construct Bool Nat) contendedPushes).countP fun x => x.1.fails :=
  contended_steps_le (isRun_runOf_of_enabled (by decide +kernel))

end Run

end OrderbookEngine.LockFreeQueue
