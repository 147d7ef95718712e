import OrderbookEngine.Library.Transition

/-!
# The lock-free memory pool

`LockFreePool<T, POOL_SIZE>` hands out slots of its storage. A flag says whether a slot is
in use; the objects are constructed and destroyed outside the accesses to the flag, so
each of these is a step of its own, and a construction or destruction has a beginning and
an end. Constructors do not throw.
-/

namespace OrderbookEngine.LockFreePool

open Transition

/-- The storage of a pool: the number of its slots, where it starts, and the size of a slot. -/
structure Layout where
  poolSize : Nat
  poolStart : Nat
  slotSize : Nat
  poolSize_pos : 0 < poolSize
  slotSize_pos : 0 < slotSize

namespace Layout

/-- The address of a slot. -/
def address (layout : Layout) (idx : Nat) : Nat := layout.poolStart + idx * layout.slotSize

/-- The slot that `deallocate` computes from a pointer, unless it ignores the pointer. -/
def indexOf (layout : Layout) (ptr : Nat) : Option Nat :=
  if ptr < layout.poolStart ∨ ptr ≥ layout.address layout.poolSize then none
  else
    let idx := (ptr - layout.poolStart) / layout.slotSize
    if idx ≥ layout.poolSize then none else some idx

/-- The pointer to a slot leads back to the slot. -/
theorem indexOf_address (layout : Layout) {idx : Nat} (h : idx < layout.poolSize) :
    layout.indexOf (layout.address idx) = some idx := by
  have hend : layout.address idx < layout.address layout.poolSize := by
    unfold address
    have hmul := Nat.mul_lt_mul_of_pos_right h layout.slotSize_pos
    omega
  have hdiv : (layout.address idx - layout.poolStart) / layout.slotSize = idx := by
    rw [address, Nat.add_sub_cancel_left, Nat.mul_div_cancel _ layout.slotSize_pos]
  have hstart : layout.poolStart ≤ layout.address idx := Nat.le_add_right ..
  rw [indexOf, if_neg (by omega), hdiv, if_neg (by omega)]

end Layout

/-- What the storage of a slot holds. -/
inductive Lifetime where
  | raw
  | constructing
  | live
  | destroying
  deriving DecidableEq, Repr

/-- Where a thread stands: before a step of `allocate` or `deallocate`, with the locals that
the code holds there. -/
inductive Pc where
  | idle
  | fetchHead
  | claim (startIdx attempts : Nat)
  | construct (idx : Nat)
  | finishConstruct (idx : Nat)
  | destroy (idx : Nat)
  | finishDestroy (idx : Nat)
  | storeFlag (idx : Nat)
  deriving DecidableEq, Repr

/-- The slot that a thread has claimed and not yet handed out, or is giving back. -/
def Pc.slot : Pc → Option Nat
  | .construct idx | .finishConstruct idx | .destroy idx | .finishDestroy idx | .storeFlag idx =>
    some idx
  | _ => none

/-- What the storage of the slot holds where a thread stands. -/
def Pc.lifetime : Pc → Lifetime
  | .finishConstruct _ => .constructing
  | .destroy _ => .live
  | .finishDestroy _ => .destroying
  | _ => .raw

/-- The pool and the threads that use it; the last field lists the slots of the pointers
that `allocate` has returned and `deallocate` has not been called with. -/
structure State (ι : Type) where
  head : UInt64
  inUse : Nat → Bool
  storage : Nat → Lifetime
  threads : ι → Pc
  live : List Nat

/-- `LockFreePool::LockFreePool`. -/
def construct (ι : Type) : State ι where
  head := 0
  inUse := fun _ => false
  storage := fun _ => .raw
  threads := fun _ => .idle
  live := []

/-- The start of a call, and a step of a thread. -/
inductive Event (ι : Type) where
  | allocate (thread : ι)
  | deallocate (thread : ι) (ptr : Option Nat)
  | step (thread : ι)

namespace State

variable {ι : Type}

/-- A thread makes one call at a time, and a pointer is deallocated once: by then it is
live, and the call takes it from the live ones. -/
def Enabled (layout : Layout) (s : State ι) : Event ι → Prop
  | .allocate thread => s.threads thread = .idle
  | .deallocate thread ptr =>
    s.threads thread = .idle ∧ ∀ p, ptr = some p → ∃ idx ∈ s.live, p = layout.address idx
  | .step thread => s.threads thread ≠ .idle

instance (layout : Layout) (s : State ι) : ∀ e, Decidable (s.Enabled layout e)
  | .allocate thread => inferInstanceAs (Decidable (s.threads thread = .idle))
  | .deallocate thread ptr => inferInstanceAs (Decidable (s.threads thread = .idle ∧
      ∀ p ∈ ptr, ∃ idx ∈ s.live, p = layout.address idx))
  | .step thread => inferInstanceAs (Decidable (s.threads thread ≠ .idle))

variable [DecidableEq ι]

/-- Move one thread within its call, or out of it. -/
def goto (s : State ι) (thread : ι) (pc : Pc) : State ι :=
  { s with threads := Function.update s.threads thread pc }

/-- The step of a thread from where it stands. -/
def pcNext (layout : Layout) (s : State ι) (thread : ι) : Pc → State ι
  | .idle => s
  | .fetchHead =>
    { s with head := s.head + 1 }.goto thread (.claim (s.head.toNat % layout.poolSize) 0)
  | .claim startIdx attempts =>
    if attempts < layout.poolSize then
      let idx := (startIdx + attempts) % layout.poolSize
      if s.inUse idx = false then
        { s with inUse := Function.update s.inUse idx true }.goto thread (.construct idx)
      else s.goto thread (.claim startIdx (attempts + 1))
    else s.goto thread .idle
  | .construct idx =>
    { s with storage := Function.update s.storage idx .constructing }.goto thread
      (.finishConstruct idx)
  | .finishConstruct idx =>
    { s with storage := Function.update s.storage idx .live, live := idx :: s.live }.goto thread
      .idle
  | .destroy idx =>
    { s with storage := Function.update s.storage idx .destroying }.goto thread
      (.finishDestroy idx)
  | .finishDestroy idx =>
    { s with storage := Function.update s.storage idx .raw }.goto thread (.storeFlag idx)
  | .storeFlag idx =>
    { s with inUse := Function.update s.inUse idx false }.goto thread .idle

/-- The state after an event. -/
def next (layout : Layout) (s : State ι) : Event ι → State ι
  | .allocate thread => s.goto thread .fetchHead
  | .deallocate thread ptr =>
    match ptr.bind layout.indexOf with
    | none => s
    | some idx => { s with live := s.live.erase idx }.goto thread (.destroy idx)
  | .step thread => s.pcNext layout thread (s.threads thread)

/-- An event that the state allows, and the state after it. -/
def Step (layout : Layout) (s : State ι) (e : Event ι) (t : State ι) : Prop :=
  s.Enabled layout e ∧ t = s.next layout e

end State

/-- `allocated`, in a state in which no flag changes. -/
def allocated {ι : Type} (layout : Layout) (s : State ι) : Nat :=
  (List.range layout.poolSize).countP s.inUse

end OrderbookEngine.LockFreePool
