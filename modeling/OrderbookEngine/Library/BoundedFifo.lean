import OrderbookEngine.Library.Transition

/-!
# Bounded first-in first-out queues

What a bounded queue does at the moment a call returns, as steps on the list of its
values. A system refines it when every step of the system is such a step of its
contents; then what was popped, followed by what is left, is what was pushed.
-/

namespace OrderbookEngine.BoundedFifo

open Transition

variable {σ ℓ V : Type*}

/-- How a call returns: a push with its value or refused, a pop and a peek with what they
return. -/
inductive Return (V : Type*) where
  | pushed (value : V)
  | full
  | popped (value : Option V)
  | peeked (value : Option V)

/-- A queue of at most `bound` values: nothing happens, or a call returns. -/
inductive Step (bound : Nat) : List V → Option (Return V) → List V → Prop
  | silent (q : List V) : Step bound q none q
  | pushed (q : List V) (value : V) (h : q.length < bound) :
      Step bound q (some (.pushed value)) (q ++ [value])
  | full (q : List V) (h : q.length = bound) : Step bound q (some .full) q
  | popped (value : V) (q : List V) : Step bound (value :: q) (some (.popped (some value))) q
  | empty : Step bound [] (some (.popped none)) []
  | peeked (value : V) (q : List V) :
      Step bound (value :: q) (some (.peeked (some value))) (value :: q)
  | peekedEmpty : Step bound [] (some (.peeked none)) []

variable {bound : Nat} {contents : σ → List V} {returned : σ → ℓ → Option (Return V)}

end OrderbookEngine.BoundedFifo
