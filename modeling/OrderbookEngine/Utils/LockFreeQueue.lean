import OrderbookEngine.Library.Linearizability
import OrderbookEngine.Library.Transition

/-!
# The lock-free queue

`push`, `pop`, `retire_node` and `try_reclaim`, each atomic access being one
step of a thread. Nodes are numbered in the order of their allocation and no
number is used again; a deleted node keeps what it held, and only its mark says
that it must not be read any more.
-/

namespace OrderbookEngine.LockFreeQueue

open Linearizability Transition

/-- The calls of the queue. -/
inductive Op (V : Type) where
  | push (value : V)
  | pop
  deriving DecidableEq, Repr

/-- What a call returns. -/
inductive Res (V : Type) where
  | pushed
  | popped (value : Option V)
  deriving DecidableEq, Repr

/-- A first-in first-out queue. -/
def fifo {V : Type} : List V → Op V → List V × Res V
  | q, .push value => (q ++ [value], .pushed)
  | [], .pop => ([], .popped none)
  | value :: q, .pop => (q, .popped (some value))

/-- Where a thread stands in a call: before an access named by the place, with
the locals that the code holds there. A pointer into the retired list is the
list of the nodes from it on. -/
inductive Pc (V : Type) where
  | pushLoadTail (node : Nat)
  | pushLoadNext (node tail : Nat)
  | pushCheckTail (node tail : Nat) (next : Option Nat)
  | pushLink (node tail : Nat)
  | pushSwing (node tail : Nat)
  | pushHelp (node tail next : Nat)
  | pushCount
  | popLoadHead
  | popLoadTail (head : Nat)
  | popLoadNext (head tail : Nat)
  | popCheckHead (head tail : Nat) (next : Option Nat)
  | popHelp (tail next : Nat)
  | popReadData (head next : Nat)
  | popSwing (head next : Nat) (data : Option V)
  | popCount (head : Nat) (data : Option V)
  | retireLoad (head : Nat) (data : Option V)
  | retireLink (head : Nat) (oldHead : List Nat) (data : Option V)
  | retireCount (data : Option V)
  | reclaimTest (data : Option V)
  | reclaimTake (data : Option V)
  | reclaimReset (retired : List Nat) (data : Option V)
  | reclaimDelete (node : Nat) (rest : List Nat) (data : Option V)
  deriving DecidableEq, Repr

/-- The nodes, the members of the queue, and for each thread its call in
progress. The last four fields observe the run: how many calls began, the
history of calls, the successful link exchanges with their calls and nodes, and
the calls whose exchange of the head succeeded. -/
structure State (ι V : Type) where
  next : Nat → Option Nat
  data : Nat → Option V
  deleted : Nat → Bool
  allocated : Nat
  head : Nat
  tail : Nat
  size : UInt64
  retiredHead : List Nat
  retiredCount : UInt64
  threads : ι → Option (Nat × Pc V)
  calls : Nat
  history : List (HistoryEvent (Op V) (Res V))
  links : List (Nat × Nat)
  pops : List Nat

/-- `LockFreeQueue::LockFreeQueue`: one dummy node, which head and tail point to. -/
def construct (ι V : Type) : State ι V where
  next := fun _ => none
  data := fun _ => none
  deleted := fun _ => false
  allocated := 1
  head := 0
  tail := 0
  size := 0
  retiredHead := []
  retiredCount := 0
  threads := fun _ => none
  calls := 0
  history := []
  links := []
  pops := []

/-- The start of a call, and a step of a thread; a weak compare-exchange may
fail spuriously. -/
inductive Event (ι V : Type) where
  | push (thread : ι) (value : V)
  | pop (thread : ι)
  | step (thread : ι) (spurious : Bool)

/-- The number of retired nodes from which on they are reclaimed. -/
def threshold : UInt64 := 100

namespace State

variable {ι V : Type}

/-- A thread makes one call at a time, and only a thread in a call takes steps. -/
def Enabled (s : State ι V) : Event ι V → Prop
  | .push thread _ => s.threads thread = none
  | .pop thread => s.threads thread = none
  | .step thread _ => s.threads thread ≠ none

instance decidableEnabled [DecidableEq V] (s : State ι V) : ∀ e, Decidable (s.Enabled e)
  | .push thread _ => inferInstanceAs (Decidable (s.threads thread = none))
  | .pop thread => inferInstanceAs (Decidable (s.threads thread = none))
  | .step thread _ => inferInstanceAs (Decidable (s.threads thread ≠ none))

variable [DecidableEq ι]

/-- Move one thread within its call. -/
def goto (s : State ι V) (thread : ι) (call : Nat) (pc : Pc V) : State ι V :=
  { s with threads := Function.update s.threads thread (some (call, pc)) }

/-- A thread returns from its call. -/
def finish (s : State ι V) (thread : ι) (call : Nat) (res : Res V) : State ι V :=
  { s with
    threads := Function.update s.threads thread none
    history := s.history ++ [.respond call res] }

/-- A thread begins a call. -/
def begin (s : State ι V) (thread : ι) (op : Op V) (pc : Pc V) : State ι V :=
  { s with
    threads := Function.update s.threads thread (some (s.calls, pc))
    calls := s.calls + 1
    history := s.history ++ [.invoke s.calls op] }

/-- The end of a round of `pop`: a value is returned, and without one the loop
goes round. -/
def finishPop (s : State ι V) (thread : ι) (call : Nat) (data : Option V) : State ι V :=
  match data with
  | some value => s.finish thread call (.popped (some value))
  | none => s.goto thread call .popLoadHead

/-- The loop of `try_reclaim` over the nodes that are left to delete. -/
def reclaimLoop (s : State ι V) (thread : ι) (call : Nat) (retired : List Nat)
    (data : Option V) : State ι V :=
  match retired with
  | [] => s.finishPop thread call data
  | node :: rest => s.goto thread call (.reclaimDelete node rest data)

/-- One step of `push` or of `pop`, in `retire_node` and `try_reclaim` from
`retireLoad` on. -/
def pcNext (s : State ι V) (thread : ι) (call : Nat) (spurious : Bool) : Pc V → State ι V
  | .pushLoadTail node => s.goto thread call (.pushLoadNext node s.tail)
  | .pushLoadNext node tail => s.goto thread call (.pushCheckTail node tail (s.next tail))
  | .pushCheckTail node tail next =>
    if tail = s.tail then
      match next with
      | none => s.goto thread call (.pushLink node tail)
      | some next => s.goto thread call (.pushHelp node tail next)
    else s.goto thread call (.pushLoadTail node)
  | .pushLink node tail =>
    if s.next tail = none ∧ spurious = false then
      { s with
        next := Function.update s.next tail (some node)
        links := s.links ++ [(call, node)] }.goto thread call (.pushSwing node tail)
    else s.goto thread call (.pushLoadTail node)
  | .pushSwing node tail =>
    if s.tail = tail ∧ spurious = false then
      { s with tail := node }.goto thread call .pushCount
    else s.goto thread call .pushCount
  | .pushHelp node tail next =>
    if s.tail = tail ∧ spurious = false then
      { s with tail := next }.goto thread call (.pushLoadTail node)
    else s.goto thread call (.pushLoadTail node)
  | .pushCount => { s with size := s.size + 1 }.finish thread call .pushed
  | .popLoadHead => s.goto thread call (.popLoadTail s.head)
  | .popLoadTail head => s.goto thread call (.popLoadNext head s.tail)
  | .popLoadNext head tail => s.goto thread call (.popCheckHead head tail (s.next head))
  | .popCheckHead head tail next =>
    if head = s.head then
      if head = tail then
        match next with
        | none => s.finish thread call (.popped none)
        | some next => s.goto thread call (.popHelp tail next)
      else
        match next with
        | none => s.goto thread call .popLoadHead
        | some next => s.goto thread call (.popReadData head next)
    else s.goto thread call .popLoadHead
  | .popHelp tail next =>
    if s.tail = tail ∧ spurious = false then
      { s with tail := next }.goto thread call .popLoadHead
    else s.goto thread call .popLoadHead
  | .popReadData head next => s.goto thread call (.popSwing head next (s.data next))
  | .popSwing head next data =>
    if s.head = head ∧ spurious = false then
      { s with head := next, pops := s.pops ++ [call] }.goto thread call (.popCount head data)
    else s.goto thread call .popLoadHead
  | .popCount head data => { s with size := s.size - 1 }.goto thread call (.retireLoad head data)
  | .retireLoad head data => s.goto thread call (.retireLink head s.retiredHead data)
  | .retireLink head oldHead data =>
    if s.retiredHead = oldHead ∧ spurious = false then
      { s with retiredHead := head :: oldHead }.goto thread call (.retireCount data)
    else s.goto thread call (.retireLink head s.retiredHead data)
  | .retireCount data =>
    { s with retiredCount := s.retiredCount + 1 }.goto thread call (.reclaimTest data)
  | .reclaimTest data =>
    if s.retiredCount < threshold then s.finishPop thread call data
    else s.goto thread call (.reclaimTake data)
  | .reclaimTake data =>
    match s.retiredHead with
    | [] => s.finishPop thread call data
    | retired => { s with retiredHead := [] }.goto thread call (.reclaimReset retired data)
  | .reclaimReset retired data =>
    { s with retiredCount := 0 }.reclaimLoop thread call retired data
  | .reclaimDelete node rest data =>
    { s with deleted := Function.update s.deleted node true }.reclaimLoop thread call rest data

/-- The state that an event leaves. -/
def step (s : State ι V) : Event ι V → State ι V
  | .push thread value =>
    { s with
      next := Function.update s.next s.allocated none
      data := Function.update s.data s.allocated (some value)
      allocated := s.allocated + 1 }.begin thread (.push value) (.pushLoadTail s.allocated)
  | .pop thread => s.begin thread .pop .popLoadHead
  | .step thread spurious =>
    match s.threads thread with
    | none => s
    | some (call, pc) => s.pcNext thread call spurious pc

/-- One atomic step. -/
def Step (s : State ι V) (e : Event ι V) (t : State ι V) : Prop := s.Enabled e ∧ t = s.step e

end State

end OrderbookEngine.LockFreeQueue
