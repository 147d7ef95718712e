import OrderbookEngine.Library.Timeline
import OrderbookEngine.Utils.RateBound

/-!
# The token bucket under reconfiguration

One caller at a time acquires, looks at the tokens and changes the rate and the
capacity. A refill multiplies all the time since the last one by the rate of the
moment, whatever rates were in force in between, and it is skipped while it would add
less than a thousandth. The tokens at hand and what the rates in force have earned
since the last refill are what can still be granted, unless a refill adds more.
-/

namespace OrderbookEngine.RateLimiter

open Transition Timeline

/-- The fields of a limiter that one caller at a time uses. -/
structure Limiter where
  ratePerSecond : ℚ
  capacity : Nat
  tokens : ℚ
  lastRefillNs : UInt64

namespace Limiter

/-- `RateLimiter::RateLimiter` at the clock reading `now`. -/
def construct (ratePerSecond : ℚ) (capacity : Nat) (now : UInt64) : Limiter where
  ratePerSecond := if ratePerSecond ≤ 0 then 1 else ratePerSecond
  capacity := if capacity = 0 then 1 else capacity
  tokens := capacity
  lastRefillNs := now

/-- The tokens that a refill at `now` adds to a bucket with room. -/
def toAdd (l : Limiter) (now : UInt64) : ℚ := tokensToAdd l.ratePerSecond now l.lastRefillNs

/-- `RateLimiter::refill`. -/
def refill (l : Limiter) (now : UInt64) : Limiter :=
  if l.toAdd now < 1 / 1000 then l
  else { l with
    lastRefillNs := now
    tokens := if l.tokens < l.capacity then min (l.tokens + l.toAdd now) l.capacity else l.tokens }

/-- `RateLimiter::try_acquire`. -/
def tryAcquire (l : Limiter) (now : UInt64) (needed : Nat) : Limiter × Bool :=
  if (l.refill now).tokens ≥ needed then
    ({ l.refill now with tokens := (l.refill now).tokens - needed }, true)
  else (l.refill now, false)

/-- `RateLimiter::get_current_tokens`. -/
def getCurrentTokens (l : Limiter) (now : UInt64) : Limiter × ℚ :=
  (l.refill now, (l.refill now).tokens)

/-- `RateLimiter::set_rate`. -/
def setRate (l : Limiter) (ratePerSecond : ℚ) : Limiter :=
  if ratePerSecond ≤ 0 then l else { l with ratePerSecond := ratePerSecond }

/-- `RateLimiter::set_capacity`. -/
def setCapacity (l : Limiter) (capacity : Nat) : Limiter :=
  if capacity = 0 then l
  else { l with
    capacity := capacity
    tokens := if l.tokens > capacity then capacity else l.tokens }

end Limiter

section Alone

variable {ι : Type} [DecidableEq ι]

namespace State

/-- The fields of a limiter that threads share. -/
def limiter (s : State ι) : Limiter := ⟨s.ratePerSecond, s.capacity, s.tokens, s.lastRefillNs⟩

/-- The steps of a call in which no other thread takes one and no exchange fails
spuriously. -/
def callAlone (s : State ι) (thread : ι) (needed : Nat) : State ι :=
  (fun t => t.threadNext thread false)^[7] (s.goto thread (.readClock needed))

variable (s : State ι) (i : ι) (needed : Nat)

@[simp] theorem goto_goto (pc pc' : ThreadPc) : (s.goto i pc).goto i pc' = s.goto i pc' := by
  simp only [goto, Function.update_idem]

@[simp] theorem threads_goto (pc : ThreadPc) : (s.goto i pc).threads i = pc := by
  simp [goto]

theorem threadNext_idle : (s.goto i .idle).threadNext i false = s.goto i .idle := by
  simp only [threadNext, threads_goto]

theorem threadNext_readClock : (s.goto i (.readClock needed)).threadNext i false =
    s.goto i (.loadLast needed s.clock) := by
  simp only [threadNext, threads_goto, goto_goto]
  rfl

theorem threadNext_loadLast (now : UInt64) : (s.goto i (.loadLast needed now)).threadNext i false =
    if s.limiter.toAdd now < 1 / 1000 then s.goto i (.acquireLoad needed)
    else s.goto i (.casLast needed now s.lastRefillNs) := by
  simp only [threadNext, threads_goto, goto_goto]
  rfl

theorem threadNext_casLast (now : UInt64) :
    (s.goto i (.casLast needed now s.lastRefillNs)).threadNext i false =
      { s with lastRefillNs := now }.goto i (.refillLoad needed (s.limiter.toAdd now)) := by
  simp [threadNext, goto]
  rfl

theorem threadNext_refillLoad (toAdd : ℚ) :
    (s.goto i (.refillLoad needed toAdd)).threadNext i false =
      s.goto i (s.refillTest needed toAdd s.tokens) := by
  simp only [threadNext, threads_goto, goto_goto]
  rfl

theorem threadNext_refillCas (toAdd : ℚ) :
    (s.goto i (.refillCas needed toAdd s.tokens)).threadNext i false =
      { s with tokens := min (s.tokens + toAdd) s.capacity }.goto i (.acquireLoad needed) := by
  simp [threadNext, goto]

theorem threadNext_acquireLoad : (s.goto i (.acquireLoad needed)).threadNext i false =
    s.goto i (acquireTest needed s.tokens) := by
  simp only [threadNext, threads_goto, goto_goto]
  rfl

theorem threadNext_acquireCas :
    (s.goto i (.acquireCas needed s.tokens)).threadNext i false =
      { s with tokens := s.tokens - needed, grants := (s.clock, needed) :: s.grants }.goto i
        .idle := by
  simp [threadNext, goto]

/-- From its second load on a call takes the tokens or returns false, and is over. -/
theorem iterate_acquireLoad (k : Nat) :
    (fun t => t.threadNext i false)^[k + 2] (s.goto i (.acquireLoad needed)) =
      if s.tokens ≥ needed then
        { s with tokens := s.tokens - needed, grants := (s.clock, needed) :: s.grants }.goto i .idle
      else s.goto i .idle := by
  have hfix : ∀ t : State ι,
      (fun t => t.threadNext i false)^[k] (t.goto i .idle) = t.goto i .idle :=
    fun t => Function.iterate_fixed (threadNext_idle t i) k
  rw [Function.iterate_succ_apply, threadNext_acquireLoad, Function.iterate_succ_apply, acquireTest]
  split
  · rw [threadNext_acquireCas, hfix]
  · rw [threadNext_idle, hfix]

variable {s i needed}

/-- After the refill a call ends as one caller at a time would leave the limiter. -/
theorem iterate_of_refill {t : State ι} (k : Nat)
    (hlimiter : t.limiter = s.limiter.refill s.clock) (hclock : t.clock = s.clock)
    (hgrants : t.grants = s.grants) :
    ((fun t => t.threadNext i false)^[k + 2] (t.goto i (.acquireLoad needed))).limiter =
        (s.limiter.tryAcquire s.clock needed).1 ∧
      ((fun t => t.threadNext i false)^[k + 2] (t.goto i (.acquireLoad needed))).grants =
        if (s.limiter.tryAcquire s.clock needed).2 then (s.clock, needed) :: s.grants
        else s.grants := by
  rw [iterate_acquireLoad, Limiter.tryAcquire, ← hlimiter, ← hclock, ← hgrants]
  by_cases hneeded : t.tokens ≥ needed
  · rw [if_pos hneeded, if_pos (show t.limiter.tokens ≥ needed from hneeded)]
    exact ⟨rfl, rfl⟩
  · rw [if_neg hneeded, if_neg (show ¬ t.limiter.tokens ≥ needed from hneeded)]
    exact ⟨rfl, rfl⟩

/-- A call without interference does what `Limiter.tryAcquire` says. -/
theorem callAlone_eq (s : State ι) (i : ι) (needed : Nat) :
    (s.callAlone i needed).limiter = (s.limiter.tryAcquire s.clock needed).1 ∧
      (s.callAlone i needed).grants =
        if (s.limiter.tryAcquire s.clock needed).2 then (s.clock, needed) :: s.grants
        else s.grants := by
  rw [callAlone, Function.iterate_succ_apply, threadNext_readClock, Function.iterate_succ_apply,
    threadNext_loadLast]
  by_cases hskip : s.limiter.toAdd s.clock < 1 / 1000
  · rw [if_pos hskip]
    exact iterate_of_refill 3 (if_pos hskip).symm rfl rfl
  · rw [if_neg hskip, Function.iterate_succ_apply, threadNext_casLast, Function.iterate_succ_apply,
      threadNext_refillLoad, refillTest]
    split
    · rename_i hroom
      have hroom : s.limiter.tokens < s.limiter.capacity := hroom
      rw [Function.iterate_succ_apply, threadNext_refillCas]
      refine iterate_of_refill 0 ?_ rfl rfl
      rw [Limiter.refill, if_neg hskip, if_pos hroom]
      rfl
    · rename_i hfull
      have hfull : ¬ s.limiter.tokens < s.limiter.capacity := hfull
      refine iterate_of_refill 1 ?_ rfl rfl
      rw [Limiter.refill, if_neg hskip, if_neg hfull]
      rfl

end State

end Alone

/-- The limiter, the steady clock, the log of the successful acquisitions, and since when
the rate and the capacity are in force, with those that were before, latest first. -/
structure Tuned where
  limiter : Limiter
  clock : UInt64
  grants : List (UInt64 × Nat)
  since : Nat
  former : List (Nat × ℚ × Nat)

/-- The passing of time and the calls. -/
inductive Use where
  | tick (clock : UInt64)
  | tryAcquire (tokens : Nat)
  | getCurrentTokens
  | setRate (ratePerSecond : ℚ)
  | setCapacity (capacity : Nat)

namespace Tuned

/-- A limiter that was just constructed. -/
def construct (ratePerSecond : ℚ) (capacity : Nat) (now : UInt64) : Tuned where
  limiter := .construct ratePerSecond capacity now
  clock := now
  grants := []
  since := now.toNat
  former := []

/-- The rates and capacities that were ever in force. -/
def settings (s : Tuned) : List (Nat × ℚ × Nat) :=
  (s.since, s.limiter.ratePerSecond, s.limiter.capacity) :: s.former

/-- Time does not go back. -/
def Enabled (s : Tuned) : Use → Prop
  | .tick clock => s.clock ≤ clock
  | _ => True

instance (s : Tuned) : (e : Use) → Decidable (s.Enabled e)
  | .tick clock => inferInstanceAs (Decidable (s.clock ≤ clock))
  | .tryAcquire _ | .getCurrentTokens | .setRate _ | .setCapacity _ => isTrue trivial

/-- Put a limiter with new settings in force. -/
def retune (s : Tuned) (limiter : Limiter) : Tuned :=
  { s with limiter := limiter, since := s.clock.toNat, former := s.settings }

/-- The state that a call leaves. -/
def next (s : Tuned) : Use → Tuned
  | .tick clock => { s with clock := clock }
  | .tryAcquire tokens =>
    { s with
      limiter := (s.limiter.tryAcquire s.clock tokens).1
      grants := if (s.limiter.tryAcquire s.clock tokens).2 then (s.clock, tokens) :: s.grants
        else s.grants }
  | .getCurrentTokens => { s with limiter := (s.limiter.getCurrentTokens s.clock).1 }
  | .setRate ratePerSecond => s.retune (s.limiter.setRate ratePerSecond)
  | .setCapacity capacity => s.retune (s.limiter.setCapacity capacity)

/-- One call, or the passing of time. -/
def Step (s : Tuned) (e : Use) (t : Tuned) : Prop := s.Enabled e ∧ t = s.next e

/-- The tokens that a rate earns in a nanosecond. -/
def perNanosecond (setting : ℚ × Nat) : ℚ := setting.1 / 1000000000

/-- What the rates in force earned from one moment to another. -/
def earnings (s : Tuned) (start finish : UInt64) : ℚ :=
  integral perNanosecond s.settings start.toNat finish.toNat

/-- The largest capacity in force at some moment from one to another. -/
def largestCapacity (s : Tuned) (start finish : UInt64) : Nat :=
  largest Prod.snd s.settings start.toNat finish.toNat

/-- The bucket holds no more than its capacity. -/
def TokensWithin (s : Tuned) : Prop := s.limiter.tokens ≤ s.limiter.capacity

/-- The grants of a span of time are within the largest capacity in force and what the
rates in force earned. -/
def Within (s : Tuned) (start finish : UInt64) : Prop :=
  (grantedIn s.grants start finish : ℚ) ≤
    s.largestCapacity start finish + s.earnings start finish

/-- So they are in every span of time. -/
def Bounded (s : Tuned) : Prop := ∀ start finish, start ≤ finish → s.Within start finish

/-- What the rates in force earned since the last refill. -/
def pending (s : Tuned) : ℚ := s.earnings s.limiter.lastRefillNs s.clock

/-- A refill that is carried out leaves no more tokens than those at hand and those that
the rates in force earned since the last one. -/
def RefillEarned (s : Tuned) : Prop :=
  1 / 1000 ≤ s.limiter.toAdd s.clock →
    min (s.limiter.tokens + s.limiter.toAdd s.clock) s.limiter.capacity ≤
      s.limiter.tokens + s.pending

/-- When the refill is skipped, tokens are granted only while those at hand and those
earned since the last refill fit the capacity. -/
def GrantFits (s : Tuned) (needed : Nat) : Prop :=
  s.limiter.toAdd s.clock < 1 / 1000 → 0 < needed → (needed : ℚ) ≤ s.limiter.tokens →
    s.limiter.tokens + s.pending ≤ s.limiter.capacity

/-- Refills add what was earned, and grants between them fit the capacity. -/
def KeepsEarned (s : Tuned) : Use → Prop
  | .tryAcquire tokens => s.RefillEarned ∧ s.GrantFits tokens
  | .getCurrentTokens => s.RefillEarned
  | _ => True

instance (s : Tuned) (start finish : UInt64) : Decidable (s.Within start finish) :=
  inferInstanceAs (Decidable (_ ≤ _))

instance (s : Tuned) : Decidable s.RefillEarned :=
  inferInstanceAs (Decidable (_ ≤ _ → _ ≤ _))

instance (s : Tuned) (needed : Nat) : Decidable (s.GrantFits needed) :=
  inferInstanceAs (Decidable (_ < _ → _ < _ → _ ≤ _ → _ ≤ _))

instance (s : Tuned) : (e : Use) → Decidable (s.KeepsEarned e)
  | .tryAcquire tokens => inferInstanceAs (Decidable (s.RefillEarned ∧ s.GrantFits tokens))
  | .getCurrentTokens => inferInstanceAs (Decidable s.RefillEarned)
  | .tick _ | .setRate _ | .setCapacity _ => isTrue trivial

theorem rate_construct_pos (rate : ℚ) (capacity : Nat) (now : UInt64) :
    0 < (construct rate capacity now).limiter.ratePerSecond := by
  simp only [construct, Limiter.construct]
  split
  · exact zero_lt_one
  · rename_i hpos
    exact not_le.mp hpos

theorem tokensWithin_construct (rate : ℚ) (capacity : Nat) (now : UInt64) :
    (construct rate capacity now).TokensWithin := by
  simp only [TokensWithin, construct, Limiter.construct]
  split
  · rename_i hzero
    rw [hzero]
    norm_num
  · exact le_refl _

/-- No call leaves more tokens than the capacity. -/
theorem TokensWithin.step {s : Tuned} (h : s.TokensWithin) {e : Use} {t : Tuned}
    (hstep : Step s e t) : t.TokensWithin := by
  obtain ⟨-, rfl⟩ := hstep
  have hrefill : { s with limiter := s.limiter.refill s.clock }.TokensWithin := by
    unfold TokensWithin Limiter.refill
    split_ifs
    · exact h
    · exact min_le_right _ _
    · exact h
  cases e with
  | tick clock => exact h
  | tryAcquire needed =>
    simp only [next, Limiter.tryAcquire]
    split
    · exact (sub_le_self _ (Nat.cast_nonneg needed)).trans hrefill
    · exact hrefill
  | getCurrentTokens => exact hrefill
  | setRate rate =>
    simp only [next, Limiter.setRate]
    split <;> exact h
  | setCapacity capacity =>
    simp only [next, Limiter.setCapacity, TokensWithin, retune]
    split_ifs with hz hlt
    · exact h
    · exact le_refl _
    · exact not_lt.mp hlt

/-- No rate that was ever in force takes tokens away. -/
def RatesNonneg (s : Tuned) : Prop := ∀ setting ∈ s.settings, 0 ≤ perNanosecond setting.2

/-- What calls that keep the earnings preserve. -/
structure Inv (s : Tuned) : Prop where
  tokens_nonneg : 0 ≤ s.limiter.tokens
  tokens_le : s.TokensWithin
  last_le : s.limiter.lastRefillNs ≤ s.clock
  since_le : s.since ≤ s.clock.toNat
  rates : s.RatesNonneg
  times : ∀ grant ∈ s.grants, grant.1 ≤ s.clock
  past : ∀ start finish, start ≤ finish → finish ≤ s.clock → s.Within start finish
  /-- What was granted since a moment and what can still be granted. -/
  spent : ∀ start ≤ s.clock, grantedIn s.grants start s.clock = 0 ∨
    grantedIn s.grants start s.clock + (s.limiter.tokens + s.pending) ≤
      s.largestCapacity start s.clock + s.earnings start s.clock

section Earnings

variable {s : Tuned} {start finish clock : UInt64}

theorem earnings_nonneg (h : s.RatesNonneg) (start finish : UInt64) :
    0 ≤ s.earnings start finish :=
  integral_nonneg h _ _

theorem earnings_mono (h : s.RatesNonneg) (start : UInt64)
    (hle : clock ≤ finish) : s.earnings start clock ≤ s.earnings start finish :=
  integral_mono h _ (UInt64.le_iff_toNat_le.mp hle)

theorem largestCapacity_mono (s : Tuned) (start : UInt64) (hle : clock ≤ finish) :
    s.largestCapacity start clock ≤ s.largestCapacity start finish :=
  largest_mono _ (UInt64.le_iff_toNat_le.mp hle)

/-- The capacity in force counts at the present. -/
theorem capacity_le_largestCapacity (h : s.since ≤ clock.toNat) (start : UInt64) :
    s.limiter.capacity ≤ s.largestCapacity start clock :=
  le_largest (g := Prod.snd) (v := (s.limiter.ratePerSecond, s.limiter.capacity)) h

/-- Nothing is earned over no time. -/
theorem earnings_self (s : Tuned) (now : UInt64) : s.earnings now now = 0 :=
  integral_of_le (le_refl _)

/-- From now on the rate in force earns. -/
theorem earnings_extend (hsince : s.since ≤ s.clock.toNat) (hstart : start ≤ s.clock)
    (hle : s.clock ≤ finish) :
    s.earnings start finish = s.earnings start s.clock +
      ((finish.toNat : ℚ) - s.clock.toNat) *
        perNanosecond (s.limiter.ratePerSecond, s.limiter.capacity) :=
  integral_extend (UInt64.le_iff_toNat_le.mp hstart) hsince (UInt64.le_iff_toNat_le.mp hle)

end Earnings

section Bounds

variable {s : Tuned}

/-- The bound on a span up to the present bounds every longer span. -/
theorem within_of_le (hrates : s.RatesNonneg)
    (htimes : ∀ grant ∈ s.grants, grant.1 ≤ s.clock) {start finish : UInt64}
    (h : s.Within start s.clock) (hle : s.clock ≤ finish) : s.Within start finish := by
  have hcap : (s.largestCapacity start s.clock : ℚ) ≤ s.largestCapacity start finish :=
    Nat.cast_le.mpr (largestCapacity_mono s start hle)
  have hearn := earnings_mono hrates start hle
  rw [Within, grantedIn_of_le start htimes hle]
  exact h.trans (add_le_add hcap hearn)

/-- A span in which nothing is granted is within every bound. -/
theorem within_of_zero (hrates : s.RatesNonneg) {start finish : UInt64}
    (h : grantedIn s.grants start finish = 0) : s.Within start finish := by
  rw [Within, h, Nat.cast_zero]
  exact add_nonneg (Nat.cast_nonneg _) (earnings_nonneg hrates _ _)

/-- The bounds on the spans of the past bound every span. -/
theorem Inv.bounded (h : s.Inv) : s.Bounded := by
  intro start finish hle
  rcases UInt64.le_or_lt finish s.clock with hpast | hfuture
  · exact h.past start finish hle hpast
  · rcases UInt64.le_or_lt start s.clock with hstart | hstart
    · exact within_of_le h.rates h.times (h.past start s.clock hstart (UInt64.le_refl _))
        (UInt64.le_of_lt hfuture)
    · exact within_of_zero h.rates (grantedIn_of_lt h.times hstart)

end Bounds

section Steps

variable {s : Tuned}

/-- A refill leaves the settings. -/
theorem settings_refill (s : Tuned) (now : UInt64) :
    { s with limiter := s.limiter.refill now }.settings = s.settings := by
  unfold settings Limiter.refill
  split <;> rfl

/-- What a refill that was carried out leaves. -/
theorem refill_of_le (h : 1 / 1000 ≤ s.limiter.toAdd s.clock) :
    s.limiter.refill s.clock = { s.limiter with
      lastRefillNs := s.clock
      tokens := if s.limiter.tokens < s.limiter.capacity then
        min (s.limiter.tokens + s.limiter.toAdd s.clock) s.limiter.capacity
        else s.limiter.tokens } := by
  rw [Limiter.refill, if_neg (not_lt.mpr h)]

/-- A call that adds nothing to the tokens at hand and those earned since the last refill, and
leaves the settings and the grants, keeps the invariant. -/
theorem Inv.of_limiter (h : s.Inv) {limiter : Limiter}
    (hsettings : { s with limiter := limiter }.settings = s.settings)
    (htokens : 0 ≤ limiter.tokens) (hcap : limiter.tokens ≤ limiter.capacity)
    (hlast : limiter.lastRefillNs ≤ s.clock)
    (hspent : limiter.tokens + { s with limiter := limiter }.pending ≤
      s.limiter.tokens + s.pending) : { s with limiter := limiter }.Inv where
  tokens_nonneg := htokens
  tokens_le := hcap
  last_le := hlast
  since_le := h.since_le
  rates := by rw [RatesNonneg, hsettings]; exact h.rates
  times := h.times
  past start finish hle hpast := by
    have hold := h.past start finish hle hpast
    rw [Within, largestCapacity, earnings] at hold ⊢
    rwa [hsettings]
  spent start hs := by
    rw [largestCapacity, earnings, hsettings]
    rcases h.spent start hs with hz | hsum
    · exact Or.inl hz
    · exact Or.inr ((add_le_add_right hspent _).trans hsum)

/-- A refill that adds no more than what was earned keeps the invariant. -/
theorem Inv.refill (h : s.Inv) (hearned : s.RefillEarned) :
    { s with limiter := s.limiter.refill s.clock }.Inv := by
  rcases lt_or_ge (s.limiter.toAdd s.clock) (1 / 1000) with hskip | hadd
  · have hsame : s.limiter.refill s.clock = s.limiter := if_pos hskip
    rw [hsame]
    exact h
  · have hpending : 0 ≤ s.pending := earnings_nonneg h.rates _ _
    have htokens := h.tokens_nonneg
    have hleft : (s.limiter.refill s.clock).tokens ≤ s.limiter.tokens + s.pending ∧
        0 ≤ (s.limiter.refill s.clock).tokens ∧
        (s.limiter.refill s.clock).tokens ≤ s.limiter.capacity := by
      rw [refill_of_le hadd]
      dsimp only
      split_ifs
      · refine ⟨hearned hadd, le_min ?_ (Nat.cast_nonneg _), min_le_right _ _⟩
        linarith
      · exact ⟨le_add_of_nonneg_right hpending, htokens, h.tokens_le⟩
    have hcapacity : (s.limiter.refill s.clock).capacity = s.limiter.capacity := by
      rw [refill_of_le hadd]
    have hlast : (s.limiter.refill s.clock).lastRefillNs = s.clock := by rw [refill_of_le hadd]
    have hzero : { s with limiter := s.limiter.refill s.clock }.pending = 0 := by
      rw [pending, hlast]
      exact earnings_self _ _
    apply h.of_limiter (settings_refill s s.clock) hleft.2.1
    · rw [hcapacity]
      exact hleft.2.2
    · rw [hlast]
      exact UInt64.le_refl _
    · rw [hzero, add_zero]
      exact hleft.1

/-- After the refill the tokens at hand and those earned since fit the capacity, if some are
granted. -/
theorem fits_refill (h : s.Inv) (hearned : s.RefillEarned) {needed : Nat}
    (hfits : s.GrantFits needed) (hpos : 0 < needed)
    (hneeded : (needed : ℚ) ≤ (s.limiter.refill s.clock).tokens) :
    (s.limiter.refill s.clock).tokens + { s with limiter := s.limiter.refill s.clock }.pending ≤
      (s.limiter.refill s.clock).capacity := by
  rcases lt_or_ge (s.limiter.toAdd s.clock) (1 / 1000) with hskip | hadd
  · have hsame : s.limiter.refill s.clock = s.limiter := if_pos hskip
    rw [hsame] at hneeded ⊢
    exact hfits hskip hpos hneeded
  · have hlast : (s.limiter.refill s.clock).lastRefillNs = s.clock := by rw [refill_of_le hadd]
    have hzero : { s with limiter := s.limiter.refill s.clock }.pending = 0 := by
      rw [pending, hlast]
      exact earnings_self _ _
    rw [hzero, add_zero]
    exact (h.refill hearned).tokens_le

/-- A grant while the tokens at hand and those earned since the last refill fit the capacity
keeps the invariant. -/
theorem Inv.grant (h : s.Inv) {needed : Nat} (hneeded : (needed : ℚ) ≤ s.limiter.tokens)
    (hfits : 0 < needed → s.limiter.tokens + s.pending ≤ s.limiter.capacity) :
    { s with
      limiter := { s.limiter with tokens := s.limiter.tokens - needed }
      grants := (s.clock, needed) :: s.grants }.Inv := by
  have htimes : ∀ grant ∈ (s.clock, needed) :: s.grants, grant.1 ≤ s.clock :=
    List.forall_mem_cons.mpr ⟨UInt64.le_refl _, h.times⟩
  have hspent : ∀ start ≤ s.clock, grantedIn ((s.clock, needed) :: s.grants) start s.clock = 0 ∨
      (grantedIn ((s.clock, needed) :: s.grants) start s.clock : ℚ) +
        (s.limiter.tokens - needed + s.pending) ≤
          s.largestCapacity start s.clock + s.earnings start s.clock := by
    intro start hs
    rcases Nat.eq_zero_or_pos needed with rfl | hpos
    · rw [grantedIn_cons_zero, Nat.cast_zero, sub_zero]
      exact h.spent start hs
    · right
      rw [grantedIn_cons_mem needed hs (UInt64.le_refl _)]
      push_cast
      rcases h.spent start hs with hz | hsum
      · have hcap : (s.limiter.capacity : ℚ) ≤ s.largestCapacity start s.clock :=
          Nat.cast_le.mpr (capacity_le_largestCapacity h.since_le start)
        have hearn := earnings_nonneg h.rates start s.clock
        have hfits := hfits hpos
        rw [hz, Nat.cast_zero]
        linarith
      · linarith
  have hpending : 0 ≤ s.pending := earnings_nonneg h.rates _ _
  refine ⟨sub_nonneg.mpr hneeded, ?_, h.last_le, h.since_le, h.rates, htimes, ?_, hspent⟩
  · exact (sub_le_self _ (Nat.cast_nonneg needed)).trans h.tokens_le
  · intro start finish hle hpast
    by_cases hnow : start ≤ s.clock ∧ s.clock ≤ finish
    · have hsame : finish = s.clock := UInt64.le_antisymm hpast hnow.2
      subst hsame
      rcases hspent start hnow.1 with hz | hsum
      · exact within_of_zero (s := { s with grants := (s.clock, needed) :: s.grants }) h.rates hz
      · have hleft : 0 ≤ s.limiter.tokens - needed + s.pending :=
          add_nonneg (sub_nonneg.mpr hneeded) hpending
        exact (le_add_of_nonneg_right hleft).trans hsum
    · rw [Within, grantedIn_cons_not_mem needed hnow]
      exact h.past start finish hle hpast

/-- The passing of time earns tokens and keeps the invariant. -/
theorem Inv.tick (h : s.Inv) {clock : UInt64} (hle : s.clock ≤ clock) :
    { s with clock := clock }.Inv := by
  refine ⟨h.tokens_nonneg, h.tokens_le, UInt64.le_trans h.last_le hle,
    h.since_le.trans (UInt64.le_iff_toNat_le.mp hle), h.rates,
    fun grant hg => UInt64.le_trans (h.times grant hg) hle,
    fun start finish hspan _ => h.bounded start finish hspan, fun start hs => ?_⟩
  rcases UInt64.le_or_lt start s.clock with hpast | hfuture
  · have hsame := grantedIn_of_le start h.times hle
    rcases h.spent start hpast with hz | hsum
    · exact Or.inl (hsame.trans hz)
    · right
      have hpending : { s with clock := clock }.pending = s.pending +
          ((clock.toNat : ℚ) - s.clock.toNat) *
            perNanosecond (s.limiter.ratePerSecond, s.limiter.capacity) :=
        earnings_extend h.since_le h.last_le hle
      have hearn : { s with clock := clock }.earnings start clock = s.earnings start s.clock +
          ((clock.toNat : ℚ) - s.clock.toNat) *
            perNanosecond (s.limiter.ratePerSecond, s.limiter.capacity) :=
        earnings_extend h.since_le hpast hle
      have hcap : (s.largestCapacity start s.clock : ℚ) ≤ s.largestCapacity start clock :=
        Nat.cast_le.mpr (largestCapacity_mono s start hle)
      have hlargest : { s with clock := clock }.largestCapacity start clock =
          s.largestCapacity start clock := rfl
      simp only [hsame, hpending, hearn, hlargest]
      linarith
  · exact Or.inl (grantedIn_of_lt h.times hfuture)

/-- New settings take nothing from the past and keep the invariant. -/
theorem Inv.retune (h : s.Inv) {limiter : Limiter} (hrate : 0 ≤ limiter.ratePerSecond)
    (htokens : 0 ≤ limiter.tokens) (hcap : limiter.tokens ≤ limiter.capacity)
    (hless : limiter.tokens ≤ s.limiter.tokens)
    (hlast : limiter.lastRefillNs = s.limiter.lastRefillNs) : (s.retune limiter).Inv := by
  have hearn : ∀ start finish, finish ≤ s.clock →
      (s.retune limiter).earnings start finish = s.earnings start finish :=
    fun start finish hle => integral_push (UInt64.le_iff_toNat_le.mp hle)
  have hlargest : ∀ start finish, start ≤ s.clock →
      (s.largestCapacity start finish : ℚ) ≤ (s.retune limiter).largestCapacity start finish :=
    fun start finish hle => Nat.cast_le.mpr (largest_le_push (UInt64.le_iff_toNat_le.mp hle))
  have hpending : (s.retune limiter).pending = s.pending := by
    have hsame := hearn s.limiter.lastRefillNs s.clock (UInt64.le_refl _)
    rw [pending, pending, ← hsame, ← hlast]
    rfl
  refine ⟨htokens, hcap, hlast ▸ h.last_le, le_refl _, ?_, h.times,
    fun start finish hle hpast => ?_, fun start hs => ?_⟩
  · exact List.forall_mem_cons.mpr ⟨div_nonneg hrate (by norm_num), h.rates⟩
  · have hold := h.past start finish hle hpast
    rw [Within, hearn start finish hpast]
    have hmore := hlargest start finish (UInt64.le_trans hle hpast)
    exact hold.trans (add_le_add_left hmore _)
  · rcases h.spent start hs with hz | hsum
    · exact Or.inl hz
    · right
      have hmore := hlargest start s.clock hs
      rw [hpending, show (s.retune limiter).clock = s.clock from rfl,
        hearn start s.clock (UInt64.le_refl _)]
      have hgrants : (s.retune limiter).grants = s.grants := rfl
      have hlimiter : (s.retune limiter).limiter = limiter := rfl
      rw [hgrants, hlimiter]
      linarith

theorem Inv.rate_nonneg (h : s.Inv) : 0 ≤ s.limiter.ratePerSecond := by
  have hhead : 0 ≤ s.limiter.ratePerSecond / 1000000000 := h.rates _ List.mem_cons_self
  linarith

/-- Every call that keeps the earnings keeps the invariant. -/
theorem Inv.step (h : s.Inv) {e : Use} {t : Tuned} (hkeeps : s.KeepsEarned e)
    (hstep : Step s e t) : t.Inv := by
  obtain ⟨henabled, rfl⟩ := hstep
  cases e with
  | tick clock => exact h.tick henabled
  | tryAcquire needed =>
    obtain ⟨hearned, hfits⟩ := hkeeps
    have hrefill := h.refill hearned
    simp only [next, Limiter.tryAcquire]
    split
    · rename_i hneeded
      exact hrefill.grant hneeded fun hpos => fits_refill h hearned hfits hpos hneeded
    · exact hrefill
  | getCurrentTokens => exact h.refill hkeeps
  | setRate rate =>
    simp only [next, Limiter.setRate]
    split
    · exact h.retune h.rate_nonneg h.tokens_nonneg h.tokens_le (le_refl _) rfl
    · rename_i hpos
      exact h.retune (not_le.mp hpos).le h.tokens_nonneg h.tokens_le (le_refl _) rfl
  | setCapacity capacity =>
    simp only [next, Limiter.setCapacity]
    split
    · exact h.retune h.rate_nonneg h.tokens_nonneg h.tokens_le (le_refl _) rfl
    · have hcapped : (if s.limiter.tokens > capacity then (capacity : ℚ) else s.limiter.tokens) =
          min s.limiter.tokens capacity := by
        split
        · rename_i hlt
          exact (min_eq_right hlt.le).symm
        · rename_i hle
          exact (min_eq_left (not_lt.mp hle)).symm
      rw [hcapped]
      exact h.retune h.rate_nonneg (le_min h.tokens_nonneg (Nat.cast_nonneg _)) (min_le_right _ _)
        (min_le_left _ _) rfl

end Steps

theorem inv_construct (rate : ℚ) (capacity : Nat) (now : UInt64) :
    (construct rate capacity now).Inv := by
  have hrates : (construct rate capacity now).RatesNonneg := by
    intro setting hs
    obtain rfl := List.mem_singleton.mp hs
    exact div_nonneg (rate_construct_pos rate capacity now).le (by norm_num)
  exact ⟨Nat.cast_nonneg _, tokensWithin_construct rate capacity now, UInt64.le_refl _, le_refl _,
    hrates, by simp [construct], fun _ _ _ _ => within_of_zero hrates rfl, fun _ _ => Or.inl rfl⟩

/-- In every run the bucket holds no more than its capacity; in a run whose refills add
what was earned and whose other grants fit the capacity, every span of time stays within the
largest capacity and what the rates in force earned in it. -/
theorem bounded_of_keepsEarned (rate : ℚ) (capacity : Nat) (now : UInt64)
    (tr : List (Use × Tuned)) (hrun : IsRun Step (construct rate capacity now) tr) :
    Throughout TokensWithin (construct rate capacity now) tr ∧
      (Guarded KeepsEarned (construct rate capacity now) tr →
        Throughout Bounded (construct rate capacity now) tr) := by
  constructor
  · exact hrun.throughout TokensWithin (fun _ _ _ hs hst => hs.step hst)
      (tokensWithin_construct rate capacity now)
  · intro hkeeps
    have hinv := hrun.invariant Inv (fun _ _ _ hs hk hst => hs.step hk hst) hkeeps
      (inv_construct rate capacity now)
    exact hinv.mono fun _ hs => hs.bounded

/-- All tokens are taken, a second later the refilled one, and half a second after that the
capacity grows and the rate falls. -/
def quietChanges : List Use :=
  [.tryAcquire 1, .tick 1000000000, .tryAcquire 1, .tick 1500000000, .setCapacity 3,
    .setRate (1 / 2), .tryAcquire 1, .tick 5000000000, .tryAcquire 2]

theorem bounded_quietChanges :
    Guarded KeepsEarned (construct 1 1 0) (runOf next (construct 1 1 0) quietChanges) ∧
      Throughout TokensWithin (construct 1 1 0) (runOf next (construct 1 1 0) quietChanges) ∧
      Throughout Bounded (construct 1 1 0) (runOf next (construct 1 1 0) quietChanges) := by
  have hkeeps : Guarded KeepsEarned (construct 1 1 0)
      (runOf next (construct 1 1 0) quietChanges) := by decide +kernel
  obtain ⟨htokens, hbounded⟩ := bounded_of_keepsEarned 1 1 0
    (runOf next (construct 1 1 0) quietChanges)
    (isRun_runOf_of_enabled (show Guarded Enabled (construct 1 1 0)
      (runOf next (construct 1 1 0) quietChanges) by decide +kernel))
  exact ⟨hkeeps, htokens, hbounded hkeeps⟩

/-- The bucket is emptied, and ten seconds later the rate is raised a hundredfold just before
the next call. -/
def raisedRate : List Use :=
  [.tryAcquire 100, .tick 10000000000, .setRate 100, .tryAcquire 100]

/-- The refill pays the ten seconds at the new rate: a hundred tokens, where ten were earned. -/
theorem bounded_fails :
    ¬ ∀ tr : List (Use × Tuned), IsRun Step (construct 1 100 0) tr →
      Throughout TokensWithin (construct 1 100 0) tr ∧
        Throughout Bounded (construct 1 100 0) tr := by
  intro h
  have hrun := h _ (isRun_runOf_of_enabled
    (show Guarded Enabled (construct 1 100 0)
      (runOf next (construct 1 100 0) raisedRate) by decide +kernel))
  have hlast := hrun.2.last (inv_construct 1 100 0).bounded
  have hspan := hlast 0 10000000000 (by decide)
  rw [lastState_runOf] at hspan
  revert hspan
  decide +kernel

end Tuned

end OrderbookEngine.RateLimiter
