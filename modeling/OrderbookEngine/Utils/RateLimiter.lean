import OrderbookEngine.Library.Transition

/-!
# The token bucket

`try_acquire` first refills the bucket for the time that passed and then takes
its tokens, each atomic access being one step. Tokens are exact rationals, and
the time since the last refill is the difference of two unsigned words, as the
source computes it.
-/

namespace OrderbookEngine.RateLimiter

open Transition

/-- Where a thread stands in `try_acquire(needed)`: before an access named by the
place, with the locals that the code holds there. -/
inductive ThreadPc where
  | idle
  | readClock (needed : Nat)
  | loadLast (needed : Nat) (now : UInt64)
  | casLast (needed : Nat) (now last : UInt64)
  | refillLoad (needed : Nat) (tokensToAdd : ℚ)
  | refillCas (needed : Nat) (tokensToAdd current : ℚ)
  | acquireLoad (needed : Nat)
  | acquireCas (needed : Nat) (current : ℚ)
  deriving DecidableEq

/-- The limiter, the steady clock, the threads, and the log of the successful
acquisitions, latest first, with the time of each. -/
structure State (ι : Type) where
  ratePerSecond : ℚ
  capacity : Nat
  tokens : ℚ
  lastRefillNs : UInt64
  clock : UInt64
  threads : ι → ThreadPc
  grants : List (UInt64 × Nat)

/-- `RateLimiter::RateLimiter` at the clock reading `now`: the bucket holds the
capacity that was asked for, also when that is corrected. -/
def construct (ι : Type) (ratePerSecond : ℚ) (capacity : Nat) (now : UInt64) : State ι where
  ratePerSecond := if ratePerSecond ≤ 0 then 1 else ratePerSecond
  capacity := if capacity = 0 then 1 else capacity
  tokens := capacity
  lastRefillNs := now
  clock := now
  threads := fun _ => .idle
  grants := []

/-- The passing of time, the start of a call, and a step of a thread; a weak
compare-exchange may fail spuriously. -/
inductive Event (ι : Type) where
  | tick (clock : UInt64)
  | call (thread : ι) (tokens : Nat)
  | step (thread : ι) (spurious : Bool)

/-- The tokens that a refill adds for the time from `last` to `now`. -/
def tokensToAdd (ratePerSecond : ℚ) (now last : UInt64) : ℚ :=
  (now - last).toNat / 1000000000 * ratePerSecond

namespace State

variable {ι : Type}

/-- Time does not go back, a thread makes one call at a time, and only a thread
in a call takes steps. -/
def Enabled (s : State ι) : Event ι → Prop
  | .tick clock => s.clock ≤ clock
  | .call thread _ => s.threads thread = .idle
  | .step thread _ => s.threads thread ≠ .idle

instance (s : State ι) : (e : Event ι) → Decidable (s.Enabled e)
  | .tick clock => inferInstanceAs (Decidable (s.clock ≤ clock))
  | .call thread _ => inferInstanceAs (Decidable (s.threads thread = .idle))
  | .step thread _ => inferInstanceAs (Decidable (s.threads thread ≠ .idle))

variable [DecidableEq ι]

/-- Move one thread. -/
def goto (s : State ι) (thread : ι) (pc : ThreadPc) : State ι :=
  { s with threads := Function.update s.threads thread pc }

/-- The test of the loop that adds tokens, after a load or a failed exchange. -/
def refillTest (s : State ι) (needed : Nat) (tokensToAdd current : ℚ) : ThreadPc :=
  if current < s.capacity then .refillCas needed tokensToAdd current else .acquireLoad needed

/-- The test of the loop that takes tokens; when it fails the call returns false. -/
def acquireTest (needed : Nat) (current : ℚ) : ThreadPc :=
  if current ≥ needed then .acquireCas needed current else .idle

/-- One step of `try_acquire`, in `refill` up to `refillCas`. -/
def threadNext (s : State ι) (thread : ι) (spurious : Bool) : State ι :=
  match s.threads thread with
  | .idle => s
  | .readClock needed => s.goto thread (.loadLast needed s.clock)
  | .loadLast needed now =>
    if tokensToAdd s.ratePerSecond now s.lastRefillNs < 1 / 1000 then
      s.goto thread (.acquireLoad needed)
    else s.goto thread (.casLast needed now s.lastRefillNs)
  | .casLast needed now last =>
    if s.lastRefillNs = last then
      { s with lastRefillNs := now }.goto thread
        (.refillLoad needed (tokensToAdd s.ratePerSecond now last))
    else s.goto thread (.acquireLoad needed)
  | .refillLoad needed toAdd => s.goto thread (s.refillTest needed toAdd s.tokens)
  | .refillCas needed toAdd current =>
    if s.tokens = current ∧ spurious = false then
      { s with tokens := min (current + toAdd) s.capacity }.goto thread (.acquireLoad needed)
    else s.goto thread (s.refillTest needed toAdd s.tokens)
  | .acquireLoad needed => s.goto thread (acquireTest needed s.tokens)
  | .acquireCas needed current =>
    if s.tokens = current ∧ spurious = false then
      { s with tokens := current - needed, grants := (s.clock, needed) :: s.grants }.goto thread
        .idle
    else s.goto thread (acquireTest needed s.tokens)

/-- The state that an event leaves. -/
def next (s : State ι) : Event ι → State ι
  | .tick clock => { s with clock := clock }
  | .call thread tokens => s.goto thread (.readClock tokens)
  | .step thread spurious => s.threadNext thread spurious

/-- One atomic step. -/
def Step (s : State ι) (e : Event ι) (t : State ι) : Prop := s.Enabled e ∧ t = s.next e

end State

/-- The tokens granted from one moment to another. -/
def grantedIn (grants : List (UInt64 × Nat)) (s t : UInt64) : Nat :=
  ((grants.filter fun grant => s ≤ grant.1 ∧ grant.1 ≤ t).map Prod.snd).sum

/-- The tokens that the rate earns from one moment to another. -/
def earned (ratePerSecond : ℚ) (s t : UInt64) : ℚ :=
  ratePerSecond * ((t.toNat - s.toNat : ℚ) / 1000000000)

/-- In every span of time no more is granted than the capacity and what the rate
earns in it. -/
def RateBounded (ratePerSecond : ℚ) (capacity : Nat) {ι : Type} (s : State ι) : Prop :=
  ∀ start finish, start ≤ finish →
    (grantedIn s.grants start finish : ℚ) ≤ capacity + earned ratePerSecond start finish

end OrderbookEngine.RateLimiter
