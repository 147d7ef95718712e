import OrderbookEngine.Library.BoundedFifo

/-!
# The ring buffer

`RingBuffer<T, CAPACITY>` with one producer and one consumer, each load, each store and
each access to a slot being one step. The indices stay below the capacity, so that their
increments do not wrap as words.
-/

namespace OrderbookEngine.RingBuffer

open BoundedFifo

/-- Where the producer stands in `push`: before a step, with the locals that the code
holds there. Both overloads of `push` take the same steps. -/
inductive ProducerPc (V : Type) where
  | idle
  | loadHead (value : V)
  | loadTail (value : V) (head : Nat)
  | writeSlot (value : V) (head : Nat)
  | storeHead (value : V) (head : Nat)
  deriving DecidableEq, Repr

/-- Where the consumer stands in `pop` or `peek`. -/
inductive ConsumerPc (V : Type) where
  | idle
  | popLoadTail
  | popLoadHead (tail : Nat)
  | popReadSlot (tail : Nat)
  | popStoreTail (tail : Nat) (value : V)
  | peekLoadTail
  | peekLoadHead (tail : Nat)
  | peekReadSlot (tail : Nat)
  deriving DecidableEq, Repr

/-- The ring buffer and its two parties. -/
structure State (V : Type) where
  buffer : Nat → V
  head : Nat
  tail : Nat
  producer : ProducerPc V
  consumer : ConsumerPc V

/-- `RingBuffer::RingBuffer`. -/
def construct {V : Type} (buffer : Nat → V) : State V := ⟨buffer, 0, 0, .idle, .idle⟩

/-- The start of a call, and a step of a party. -/
inductive Event (V : Type) where
  | push (value : V)
  | pop
  | peek
  | produce
  | consume
  deriving DecidableEq, Repr

/-- The index after another: `(index + 1) & MASK`. -/
def nextIndex (capacity index : Nat) : Nat := (index + 1) &&& (capacity - 1)

namespace State

variable {V : Type}

/-- A party makes one call at a time, and takes steps only in a call. -/
def Enabled (s : State V) : Event V → Prop
  | .push _ => s.producer = .idle
  | .pop => s.consumer = .idle
  | .peek => s.consumer = .idle
  | .produce => s.producer ≠ .idle
  | .consume => s.consumer ≠ .idle

instance [DecidableEq V] (s : State V) : ∀ e, Decidable (s.Enabled e)
  | .push _ => inferInstanceAs (Decidable (s.producer = .idle))
  | .pop => inferInstanceAs (Decidable (s.consumer = .idle))
  | .peek => inferInstanceAs (Decidable (s.consumer = .idle))
  | .produce => inferInstanceAs (Decidable (s.producer ≠ .idle))
  | .consume => inferInstanceAs (Decidable (s.consumer ≠ .idle))

/-- A step of `push`. -/
def produce (capacity : Nat) (s : State V) : State V :=
  match s.producer with
  | .idle => s
  | .loadHead value => { s with producer := .loadTail value s.head }
  | .loadTail value head =>
    if nextIndex capacity head = s.tail then { s with producer := .idle }
    else { s with producer := .writeSlot value head }
  | .writeSlot value head =>
    { s with buffer := Function.update s.buffer head value, producer := .storeHead value head }
  | .storeHead _ head => { s with head := nextIndex capacity head, producer := .idle }

/-- A step of `pop` or `peek`. What a value leaves behind when it is moved out of its slot
is up to its type. -/
def consume (capacity : Nat) (moved : V → V) (s : State V) : State V :=
  match s.consumer with
  | .idle => s
  | .popLoadTail => { s with consumer := .popLoadHead s.tail }
  | .popLoadHead tail =>
    if tail = s.head then { s with consumer := .idle }
    else { s with consumer := .popReadSlot tail }
  | .popReadSlot tail =>
    { s with
      buffer := Function.update s.buffer tail (moved (s.buffer tail))
      consumer := .popStoreTail tail (s.buffer tail) }
  | .popStoreTail tail _ => { s with tail := nextIndex capacity tail, consumer := .idle }
  | .peekLoadTail => { s with consumer := .peekLoadHead s.tail }
  | .peekLoadHead tail =>
    if tail = s.head then { s with consumer := .idle }
    else { s with consumer := .peekReadSlot tail }
  | .peekReadSlot _ => { s with consumer := .idle }

/-- The state after an event. -/
def next (capacity : Nat) (moved : V → V) (s : State V) : Event V → State V
  | .push value => { s with producer := .loadHead value }
  | .pop => { s with consumer := .popLoadTail }
  | .peek => { s with consumer := .peekLoadTail }
  | .produce => s.produce capacity
  | .consume => s.consume capacity moved

/-- How the call of the step returns, if it does. -/
def returned (capacity : Nat) (s : State V) : Event V → Option (Return V)
  | .produce =>
    match s.producer with
    | .loadTail _ head => if nextIndex capacity head = s.tail then some .full else none
    | .storeHead value _ => some (.pushed value)
    | _ => none
  | .consume =>
    match s.consumer with
    | .popLoadHead tail => if tail = s.head then some (.popped none) else none
    | .popStoreTail _ value => some (.popped (some value))
    | .peekLoadHead tail => if tail = s.head then some (.peeked none) else none
    | .peekReadSlot tail => some (.peeked (some (s.buffer tail)))
    | _ => none
  | _ => none

/-- An event that the state allows, and the state after it. -/
def Step (capacity : Nat) (moved : V → V) (s : State V) (e : Event V) (t : State V) : Prop :=
  s.Enabled e ∧ t = s.next capacity moved e

/-- The slot that the producer writes in this state. -/
def writing (s : State V) : Option Nat :=
  match s.producer with
  | .writeSlot _ head => some head
  | _ => none

/-- The slot that the consumer reads in this state. -/
def reading (s : State V) : Option Nat :=
  match s.consumer with
  | .popReadSlot tail => some tail
  | .peekReadSlot tail => some tail
  | _ => none

end State

end OrderbookEngine.RingBuffer
