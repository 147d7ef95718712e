import OrderbookEngine.Utils.QueueLinearizability

/-!
# The size counter of the queue

`push` counts its element after it has linked it, and `pop` takes one off after it has
exchanged the head. A pop that is faster than the push of its element therefore takes one
off a counter that does not have it yet. Apart from the calls between their exchange and
their count, the counter is the number of elements.
-/

namespace OrderbookEngine.LockFreeQueue

open Linearizability Transition

variable {ι V : Type}

/-- The start of a push. -/
def isPushStart : HistoryEvent (Op V) (Res V) → Bool
  | .invoke _ (.push _) => true
  | _ => false

/-- How many calls of `push` have been started. -/
def State.pushCalls (s : State ι V) : Nat := s.history.countP isPushStart

/-- The node of a push is linked, and its element not counted yet. -/
def Pc.linkedOnly : Pc V → Bool
  | .pushSwing _ _ | .pushCount => true
  | _ => false

/-- A pop has exchanged the head, and not taken its element off the count. -/
def Pc.exchangedOnly : Pc V → Bool
  | .popCount _ _ => true
  | _ => false

/-- Whether a thread stands in a call at such a place. -/
def standsAt (place : Pc V → Bool) (x : Option (Nat × Pc V)) : Bool := x.any fun y => place y.2

/-- How many threads stand in a call at such a place. -/
noncomputable def State.standing (s : State ι V) (place : Pc V → Bool) : Nat :=
  {i | standsAt place (s.threads i) = true}.ncard

/-- The step of a pop that takes its element off the count. -/
def State.takesOff (s : State ι V) : Event ι V → Bool
  | .step i _ => standsAt Pc.exchangedOnly (s.threads i)
  | _ => false

/-- A pop takes its element off the count while fewer linked pushes are not counted than
there are elements and exchanged pops that are still counted; or so many pushes have been
started that every word is at most their number. -/
def CountsInTime (s : State ι V) (e : Event ι V) : Prop :=
  s.takesOff e = true →
    s.standing Pc.linkedOnly < s.contents.length + s.standing Pc.exchangedOnly ∨
      2 ^ 64 - 1 ≤ s.pushCalls

section Standing

variable [DecidableEq ι] {threads : ι → Option (Nat × Pc V)} {i : ι} {x : Option (Nat × Pc V)}

omit [DecidableEq ι] in
theorem ncard_eq_sdiff_add {p : ι → Bool} (hfin : {j | p j = true}.Finite) (i : ι) :
    {j | p j = true}.ncard = ({j | p j = true} \ {i}).ncard + (p i).toNat := by
  cases hi : p i with
  | true =>
    have hmem : i ∈ {j | p j = true} := hi
    exact (Set.ncard_sdiff_singleton_add_one hmem hfin).symm
  | false =>
    rw [Set.sdiff_singleton_eq_self (by simp [hi])]
    rfl

/-- Moving one thread changes how many stand at a place by that thread. -/
theorem ncard_standsAt_update (hfin : {j | threads j ≠ none}.Finite) (place : Pc V → Bool) :
    {j | standsAt place (Function.update threads i x j) = true}.ncard +
        (standsAt place (threads i)).toNat =
      {j | standsAt place (threads j) = true}.ncard + (standsAt place x).toNat := by
  have hold : {j | standsAt place (threads j) = true}.Finite := by
    refine hfin.subset fun j hj hnone => ?_
    rw [Set.mem_ofPred_eq, hnone] at hj
    cases hj
  have hnew : {j | standsAt place (Function.update threads i x j) = true}.Finite := by
    refine (hold.insert i).subset fun j hj => ?_
    by_cases hji : j = i
    · exact Or.inl hji
    · rw [Set.mem_ofPred_eq, Function.update_of_ne hji] at hj
      exact Or.inr hj
  have hrest : {j | standsAt place (Function.update threads i x j) = true} \ {i} =
      {j | standsAt place (threads j) = true} \ {i} := by
    ext j
    simp only [Set.mem_sdiff, Set.mem_singleton_iff, Set.mem_ofPred_eq, and_congr_left_iff]
    intro hji
    rw [Function.update_of_ne hji]
  have hcount := ncard_eq_sdiff_add hold i
  have hcount' := ncard_eq_sdiff_add hnew i
  rw [hrest, Function.update_self] at hcount'
  omega

end Standing

section Balance

/-- The elements that are counted, less those that are taken off the count. -/
noncomputable def State.balance (s : State ι V) : Int :=
  (s.links.length + s.standing Pc.exchangedOnly : Nat) -
    (s.pops.length + s.standing Pc.linkedOnly : Nat)

/-- The counter is the balance, and what has been started bounds what has been exchanged. -/
structure Balanced (s : State ι V) : Prop where
  finite : {i | s.threads i ≠ none}.Finite
  allocated : s.allocated = s.pushCalls + 1
  exchanged : s.standing Pc.exchangedOnly ≤ s.pops.length
  size : (s.size.toNat : Int) = s.balance % 2 ^ 64

/-- What a step of a thread from the place `old` to the place `new` does to the counts, and
by how much it changes the counter. -/
structure Tallies [DecidableEq ι] (s u : State ι V) (i : ι) (old new : Option (Nat × Pc V))
    (d : Int) : Prop where
  threads : u.threads = Function.update s.threads i new
  exchanged : s.pops.length + (standsAt Pc.exchangedOnly new).toNat ≤
    u.pops.length + (standsAt Pc.exchangedOnly old).toNat
  balance : (u.links.length : Int) - u.pops.length + (standsAt Pc.exchangedOnly new).toNat -
      (standsAt Pc.exchangedOnly old).toNat - (standsAt Pc.linkedOnly new).toNat +
      (standsAt Pc.linkedOnly old).toNat = s.links.length - s.pops.length + d
  size : (u.size.toNat : Int) = (s.size.toNat + d) % 2 ^ 64
  /-- Only a pop that has exchanged the head takes one off. -/
  takes : d < 0 → standsAt Pc.exchangedOnly old = true

variable {s u : State ι V} {i : ι} {call : Nat} {old new : Option (Nat × Pc V)} {d : Int}

theorem toNat_emod_self (w : UInt64) : (w.toNat : Int) = (w.toNat + 0) % 2 ^ 64 := by
  have := w.toNat_lt
  omega

variable [DecidableEq ι]

theorem Tallies.balance_eq (h : Tallies s u i old new d) (hs : Balanced s)
    (hold : s.threads i = old) : u.balance = s.balance + d := by
  have hexchanged := ncard_standsAt_update (i := i) (x := new) hs.finite Pc.exchangedOnly
  have hlinked := ncard_standsAt_update (i := i) (x := new) hs.finite Pc.linkedOnly
  have hbalance := h.balance
  rw [← h.threads, hold] at hexchanged hlinked
  simp only [State.balance, State.standing]
  omega

/-- Such a step keeps the counter balanced. -/
theorem Balanced.tally (hs : Balanced s) (h : Tallies s u i old new d) (hold : s.threads i = old)
    (hallocated : u.allocated = u.pushCalls + 1) : Balanced u where
  finite := by
    refine (hs.finite.insert i).subset fun j hj => ?_
    by_cases hji : j = i
    · exact Or.inl hji
    · rw [Set.mem_ofPred_eq, h.threads, Function.update_of_ne hji] at hj
      exact Or.inr hj
  allocated := hallocated
  exchanged := by
    have hcount := ncard_standsAt_update (i := i) (x := new) hs.finite Pc.exchangedOnly
    have hpops := h.exchanged
    have hle := hs.exchanged
    rw [← h.threads, hold] at hcount
    simp only [State.standing] at hle ⊢
    omega
  size := by
    rw [h.size, hs.size, Int.emod_add_emod, h.balance_eq hs hold]

end Balance

section Steps

variable [DecidableEq ι] {s m : State ι V} {i : ι} {call : Nat} {pc pc' : Pc V}

/-- A step of a thread from a place changes the counter as it changes the balance, and only
a pop that has exchanged the head takes one off. -/
structure Tallied (s u : State ι V) (i : ι) (call : Nat) (pc : Pc V) : Prop where
  tallies : ∃ new d, Tallies s u i (some (call, pc)) new d ∧ -1 ≤ d ∧
    (pc.exchangedOnly = true → d = -1)
  pushCalls : u.pushCalls = s.pushCalls
  allocated : u.allocated = s.allocated

/-- Nothing is counted, and no node or value moved. -/
structure Uncounted (s m : State ι V) : Prop where
  threads : m.threads = s.threads
  history : m.history = s.history
  allocated : m.allocated = s.allocated
  links : m.links = s.links
  pops : m.pops = s.pops
  size : m.size = s.size

/-- The counts stay between two places of one kind. -/
theorem tallied_goto (hm : Uncounted s m) (hlinked : pc'.linkedOnly = pc.linkedOnly)
    (hpc : pc.exchangedOnly = false) (hpc' : pc'.exchangedOnly = false) :
    Tallied s (m.goto i call pc') i call pc where
  tallies := by
    refine ⟨some (call, pc'), 0, ⟨?_, ?_, ?_, ?_, fun h => absurd h (lt_irrefl 0)⟩, by decide,
      by simp [hpc]⟩
    · rw [State.goto, hm.threads]
    · simp [State.goto, standsAt, hm.pops, hpc, hpc']
    · simp [State.goto, standsAt, hm.links, hm.pops, hlinked, hpc, hpc']
    · rw [State.goto, hm.size]
      exact toNat_emod_self s.size
  pushCalls := by rw [State.pushCalls, State.goto, hm.history, State.pushCalls]
  allocated := hm.allocated

/-- They stay when a call returns that has no count before it. -/
theorem tallied_finish (hm : Uncounted s m) (hlinked : pc.linkedOnly = false)
    (hpc : pc.exchangedOnly = false) (res : Res V) :
    Tallied s (m.finish i call res) i call pc where
  tallies := by
    refine ⟨none, 0, ⟨?_, ?_, ?_, ?_, fun h => absurd h (lt_irrefl 0)⟩, by decide, by simp [hpc]⟩
    · rw [State.finish, hm.threads]
    · simp [State.finish, standsAt, hm.pops, hpc]
    · simp [State.finish, standsAt, hm.links, hm.pops, hlinked, hpc]
    · rw [State.finish, hm.size]
      exact toNat_emod_self s.size
  pushCalls := by simp [State.pushCalls, State.finish, hm.history, isPushStart]
  allocated := hm.allocated

theorem tallied_finishPop (hm : Uncounted s m) (hlinked : pc.linkedOnly = false)
    (hpc : pc.exchangedOnly = false) (data : Option V) :
    Tallied s (m.finishPop i call data) i call pc := by
  cases data with
  | some value => exact tallied_finish hm hlinked hpc _
  | none => exact tallied_goto hm hlinked.symm hpc rfl

theorem tallied_reclaimLoop (hm : Uncounted s m) (hlinked : pc.linkedOnly = false)
    (hpc : pc.exchangedOnly = false) (retired : List Nat) (data : Option V) :
    Tallied s (m.reclaimLoop i call retired data) i call pc := by
  cases retired with
  | nil => exact tallied_finishPop hm hlinked hpc data
  | cons node rest => exact tallied_goto hm hlinked.symm hpc rfl

/-- Swinging the tail counts nothing. -/
theorem tallied_tail (tail next : Nat) (spurious : Bool)
    (hlinked : pc'.linkedOnly = pc.linkedOnly) (hpc : pc.exchangedOnly = false)
    (hpc' : pc'.exchangedOnly = false) :
    Tallied s (if s.tail = tail ∧ spurious = false then { s with tail := next }.goto i call pc'
      else s.goto i call pc') i call pc := by
  split
  · exact tallied_goto ⟨rfl, rfl, rfl, rfl, rfl, rfl⟩ hlinked hpc hpc'
  · exact tallied_goto ⟨rfl, rfl, rfl, rfl, rfl, rfl⟩ hlinked hpc hpc'

/-- A linked node is one more element, not counted yet. -/
theorem tallied_link (node tail : Nat) : Tallied s ({ s with
      next := Function.update s.next tail (some node)
      links := s.links ++ [(call, node)] }.goto i call (.pushSwing node tail)) i call
    (.pushLink node tail) := by
  refine ⟨⟨some (call, .pushSwing node tail), 0, ⟨rfl, ?_, ?_, toNat_emod_self _,
    fun h => absurd h (lt_irrefl 0)⟩, by decide, nofun⟩, rfl, rfl⟩
  · simp [State.goto, standsAt, Pc.exchangedOnly]
  · simp [State.goto, standsAt, Pc.linkedOnly, Pc.exchangedOnly]
    omega

/-- An exchanged head is one element less, still counted. -/
theorem tallied_swing (head next : Nat) (data : Option V) : Tallied s
    ({ s with head := next, pops := s.pops ++ [call] }.goto i call (.popCount head data)) i call
    (.popSwing head next data) := by
  refine ⟨⟨some (call, .popCount head data), 0, ⟨rfl, ?_, ?_, toNat_emod_self _,
    fun h => absurd h (lt_irrefl 0)⟩, by decide, nofun⟩, rfl, rfl⟩
  · simp [State.goto, standsAt, Pc.exchangedOnly]
  · simp [State.goto, standsAt, Pc.linkedOnly, Pc.exchangedOnly]
    omega

/-- The count of a push. -/
theorem tallied_pushCount :
    Tallied s ({ s with size := s.size + 1 }.finish i call .pushed) i call .pushCount := by
  refine ⟨⟨none, 1, ⟨rfl, ?_, ?_, ?_, fun h => absurd h (by decide)⟩, by decide, nofun⟩, ?_, rfl⟩
  · simp [State.finish, standsAt, Pc.exchangedOnly]
  · simp [State.finish, standsAt, Pc.linkedOnly, Pc.exchangedOnly]
  · simp only [State.finish, UInt64.toNat_add, UInt64.toNat_one]
    norm_cast
  · simp [State.pushCalls, State.finish, isPushStart]

/-- The count of a pop. -/
theorem tallied_popCount (head : Nat) (data : Option V) :
    Tallied s ({ s with size := s.size - 1 }.goto i call (.retireLoad head data)) i call
      (.popCount head data) := by
  refine ⟨⟨some (call, .retireLoad head data), -1, ⟨rfl, ?_, ?_, ?_, fun _ => rfl⟩, le_rfl,
    fun _ => rfl⟩, rfl, rfl⟩
  · simp [State.goto, standsAt, Pc.exchangedOnly]
  · simp [State.goto, standsAt, Pc.linkedOnly, Pc.exchangedOnly]
    omega
  · have hlt := s.size.toNat_lt
    simp only [State.goto, UInt64.toNat_sub, UInt64.toNat_one]
    omega

/-- Every step of a thread changes the counter as it changes the balance. -/
theorem tallied_pcNext (s : State ι V) (i : ι) (call : Nat) (spurious : Bool) (pc : Pc V) :
    Tallied s (s.pcNext i call spurious pc) i call pc := by
  have hsame : Uncounted s s := ⟨rfl, rfl, rfl, rfl, rfl, rfl⟩
  cases pc with
  | pushLoadTail | pushLoadNext | popLoadHead | popLoadTail | popLoadNext | popReadData
  | retireLoad => exact tallied_goto hsame rfl rfl rfl
  | pushCheckTail node tail next =>
    simp only [State.pcNext]
    split
    · cases next with
      | none => exact tallied_goto hsame rfl rfl rfl
      | some next => exact tallied_goto hsame rfl rfl rfl
    · exact tallied_goto hsame rfl rfl rfl
  | pushLink node tail =>
    simp only [State.pcNext]
    split
    · exact tallied_link node tail
    · exact tallied_goto hsame rfl rfl rfl
  | pushSwing | pushHelp | popHelp => exact tallied_tail _ _ spurious rfl rfl rfl
  | pushCount => exact tallied_pushCount
  | popCheckHead head tail next =>
    simp only [State.pcNext]
    split
    · split
      · cases next with
        | none => exact tallied_finish hsame rfl rfl _
        | some next => exact tallied_goto hsame rfl rfl rfl
      · cases next with
        | none => exact tallied_goto hsame rfl rfl rfl
        | some next => exact tallied_goto hsame rfl rfl rfl
    · exact tallied_goto hsame rfl rfl rfl
  | popSwing head next data =>
    simp only [State.pcNext]
    split
    · exact tallied_swing head next data
    · exact tallied_goto hsame rfl rfl rfl
  | popCount head data => exact tallied_popCount head data
  | retireLink head oldHead data =>
    simp only [State.pcNext]
    split
    · exact tallied_goto ⟨rfl, rfl, rfl, rfl, rfl, rfl⟩ rfl rfl rfl
    · exact tallied_goto hsame rfl rfl rfl
  | retireCount data => exact tallied_goto ⟨rfl, rfl, rfl, rfl, rfl, rfl⟩ rfl rfl rfl
  | reclaimTest data =>
    simp only [State.pcNext]
    split
    · exact tallied_finishPop hsame rfl rfl data
    · exact tallied_goto hsame rfl rfl rfl
  | reclaimTake data =>
    simp only [State.pcNext]
    split
    · exact tallied_finishPop hsame rfl rfl data
    · exact tallied_goto ⟨rfl, rfl, rfl, rfl, rfl, rfl⟩ rfl rfl rfl
  | reclaimReset retired data =>
    apply tallied_reclaimLoop
    · exact ⟨rfl, rfl, rfl, rfl, rfl, rfl⟩
    · rfl
    · rfl
  | reclaimDelete node rest data =>
    apply tallied_reclaimLoop
    · exact ⟨rfl, rfl, rfl, rfl, rfl, rfl⟩
    · rfl
    · rfl

end Steps

section Run

variable [DecidableEq ι] {s t : State ι V}

omit [DecidableEq ι] in
/-- The elements are the nodes that are linked and not passed by the head. -/
theorem InvAt.length_contents {k : Nat} (h : InvAt s k) :
    s.contents.length + s.pops.length = s.links.length := by
  have hvalued : ∀ n ∈ s.chain.drop (s.removed + 1), (s.data n).isSome := by
    intro n hn
    obtain ⟨j, hj⟩ := List.mem_iff_getElem?.mp hn
    refine h.valued (s.removed + j) n ?_
    rw [List.getElem?_drop] at hj
    rw [← hj]
    congr 1
    omega
  have hle : s.removed < s.chain.length :=
    h.le_tail.trans_lt (List.getElem?_eq_some_iff.mp h.tail_at).1
  rw [h.contents_eq, State.values, List.filterMap_length_eq_length.mpr hvalued, List.length_drop]
  simp only [State.chain, State.removed, List.length_cons, List.length_map] at hle ⊢
  omega

/-- A call that begins counts nothing. -/
theorem tallies_begin (m : State ι V) (i : ι) (op : Op V) (pc : Pc V)
    (hlinked : pc.linkedOnly = false) (hpc : pc.exchangedOnly = false) :
    Tallies m (m.begin i op pc) i none (some (m.calls, pc)) 0 where
  threads := rfl
  exchanged := by simp [State.begin, standsAt, hpc]
  balance := by simp [State.begin, standsAt, hlinked, hpc]
  size := toNat_emod_self m.size
  takes h := absurd h (lt_irrefl 0)

/-- What a step does to the balance: only a pop that has exchanged the head takes one off. -/
theorem Balanced.step (h : Balanced s) {e : Event ι V} (henabled : s.Enabled e) :
    Balanced (s.step e) ∧
      (s.takesOff e = false ∧ s.balance ≤ (s.step e).balance ∧
          s.pushCalls ≤ (s.step e).pushCalls ∨
        s.takesOff e = true ∧ (s.step e).balance = s.balance - 1 ∧
          (s.step e).pushCalls = s.pushCalls) := by
  cases e with
  | push i value =>
    have hidle : s.threads i = none := henabled
    have htallies : Tallies s (s.step (.push i value)) i none
        (some (s.calls, .pushLoadTail s.allocated)) 0 :=
      let ⟨hthreads, hexchanged, hbalance, hsize, htakes⟩ :=
        tallies_begin s i (.push value) (.pushLoadTail s.allocated) rfl rfl
      ⟨hthreads, hexchanged, hbalance, hsize, htakes⟩
    have hcalls : (s.step (.push i value)).pushCalls = s.pushCalls + 1 := by
      simp [State.pushCalls, State.step, State.begin, isPushStart]
    refine ⟨h.tally htallies hidle ?_, Or.inl ⟨rfl, ?_, by omega⟩⟩
    · rw [hcalls, ← h.allocated]
      rfl
    · rw [htallies.balance_eq h hidle, add_zero]
  | pop i =>
    have hidle : s.threads i = none := henabled
    have htallies := tallies_begin s i .pop .popLoadHead rfl rfl
    have hcalls : (s.step (.pop i)).pushCalls = s.pushCalls := by
      simp [State.pushCalls, State.step, State.begin, isPushStart]
    refine ⟨h.tally htallies hidle ?_, Or.inl ⟨rfl, ?_, hcalls.ge⟩⟩
    · exact h.allocated.trans (congrArg (· + 1) hcalls.symm)
    · exact (htallies.balance_eq h hidle).trans (add_zero _) |>.ge
  | step i spurious =>
    obtain ⟨⟨call, pc⟩, hi⟩ := Option.ne_none_iff_exists'.mp henabled
    have hstep : s.step (.step i spurious) = s.pcNext i call spurious pc := by
      simp only [State.step, hi]
    obtain ⟨⟨new, d, htallies, hd, hone⟩, hcalls, hallocated⟩ :=
      tallied_pcNext s i call spurious pc
    have hbalance := htallies.balance_eq h hi
    have htakes : s.takesOff (.step i spurious) = pc.exchangedOnly := by
      rw [State.takesOff, hi]
      rfl
    rw [hstep, htakes]
    refine ⟨h.tally htallies hi (by rw [hallocated, hcalls, h.allocated]), ?_⟩
    cases hpc : pc.exchangedOnly with
    | true =>
      rw [hone hpc] at hbalance
      exact Or.inr ⟨rfl, hbalance, hcalls⟩
    | false =>
      have hnonneg : 0 ≤ d := by
        by_contra hneg
        have hat : pc.exchangedOnly = true := htallies.takes (not_le.mp hneg)
        rw [hpc] at hat
        cases hat
      exact Or.inl ⟨rfl, by omega, hcalls.ge⟩

/-- The queue is well formed, its counter balanced, and no element taken off too early. -/
structure SizeInv (s : State ι V) : Prop where
  chain : ∃ k, InvAt s k
  balanced : Balanced s
  inTime : 0 ≤ s.balance ∨ 2 ^ 64 - 1 ≤ s.pushCalls

omit [DecidableEq ι] in
/-- A pop is in time when it leaves a balance. -/
theorem SizeInv.countsInTime_iff (h : SizeInv s) (e : Event ι V) : CountsInTime s e ↔
    (s.takesOff e = true → 0 < s.balance ∨ 2 ^ 64 - 1 ≤ s.pushCalls) := by
  obtain ⟨k, hk⟩ := h.chain
  have hlength := hk.length_contents
  rw [CountsInTime, State.balance]
  refine imp_congr_right fun _ => or_congr_left ?_
  omega

/-- A step in time keeps the invariant. -/
theorem SizeInv.step (h : SizeInv s) {e : Event ι V} (hstep : State.Step s e t)
    (htime : CountsInTime s e) : SizeInv t := by
  obtain ⟨henabled, rfl⟩ := hstep
  obtain ⟨k, hk⟩ := h.chain
  obtain ⟨hbalanced, hcount⟩ := h.balanced.step henabled
  refine ⟨hk.step e, hbalanced, ?_⟩
  rcases hcount with ⟨-, hbalance, hcalls⟩ | ⟨htakes, hbalance, hcalls⟩
  · exact h.inTime.imp (le_trans · hbalance) (le_trans · hcalls)
  · rw [hcalls]
    exact ((h.countsInTime_iff e).mp htime htakes).imp_left fun hpos => by omega

end Run

end OrderbookEngine.LockFreeQueue
