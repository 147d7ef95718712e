import OrderbookEngine.Library.Participants
import OrderbookEngine.Library.Transition
import OrderbookEngine.Metrics.Histogram

/-!
# Values recorded by several threads at once

`record` counts a value, lowers the minimum and raises the maximum in loops around a weak
compare-exchange, and counts and sums, one atomic access after the other. Calls of any number of
threads interleave. Each word has had its part of some of the calls; when all have returned, the
histogram is that of the same values recorded one after another, in any order.
-/

namespace OrderbookEngine.LockFreeHistogram

open Transition

/-- Where a call of `record` stands: before an access, with the local that the code holds there. -/
inductive Pc where
  | countBucket
  | loadMin
  | exchangeMin (currentMin : UInt64)
  | loadMax
  | exchangeMax (currentMax : UInt64)
  | addCount
  | addSum
  | returned
  deriving DecidableEq, Repr

/-- A call of `record`. -/
structure Call where
  value : UInt64
  pc : Pc
  deriving DecidableEq, Repr

/-- The histogram and the calls that have begun, in the order in which they did. -/
structure Recording (numBuckets : Nat) where
  histogram : LockFreeHistogram numBuckets
  calls : List Call

/-- The start of a call, and a step of a call; a weak compare-exchange may fail spuriously. -/
inductive Event where
  | record (value : UInt64)
  | step (call : Nat) (spurious : Bool)

/-- The test of the loop that lowers the minimum. -/
def testMin (value currentMin : UInt64) : Pc :=
  if value < currentMin then .exchangeMin currentMin else .loadMax

/-- The test of the loop that raises the maximum. -/
def testMax (value currentMax : UInt64) : Pc :=
  if value > currentMax then .exchangeMax currentMax else .addCount

variable {numBuckets : Nat}

/-- The next access of a call: what it makes of the histogram, and where the call stands then. -/
def access (valueToBucket : UInt64 → Nat) (h : LockFreeHistogram numBuckets) (value : UInt64)
    (spurious : Bool) : Pc → LockFreeHistogram numBuckets × Pc
  | .countBucket => ({ h with buckets := h.count valueToBucket value }, .loadMin)
  | .loadMin => (h, testMin value h.minValue)
  | .exchangeMin currentMin =>
    if h.minValue = currentMin ∧ spurious = false then ({ h with minValue := value }, .loadMax)
    else (h, testMin value h.minValue)
  | .loadMax => (h, testMax value h.maxValue)
  | .exchangeMax currentMax =>
    if h.maxValue = currentMax ∧ spurious = false then ({ h with maxValue := value }, .addCount)
    else (h, testMax value h.maxValue)
  | .addCount => ({ h with totalCount := h.totalCount + 1 }, .addSum)
  | .addSum => ({ h with totalSum := h.totalSum + value }, .returned)
  | .returned => (h, .returned)

namespace Recording

/-- A histogram that no call has used. -/
def start (numBuckets : Nat) : Recording numBuckets := ⟨.construct numBuckets, []⟩

/-- The state that an event leaves. -/
def next (valueToBucket : UInt64 → Nat) (s : Recording numBuckets) : Event → Recording numBuckets
  | .record value => { s with calls := s.calls ++ [⟨value, .countBucket⟩] }
  | .step c spurious =>
    match s.calls[c]? with
    | none => s
    | some call =>
      let (histogram, pc) := access valueToBucket s.histogram call.value spurious call.pc
      ⟨histogram, s.calls.set c { call with pc }⟩

/-- A call may begin at any time, and takes steps until it returns. -/
def Enabled (s : Recording numBuckets) : Event → Prop
  | .record _ => True
  | .step c _ => ∃ call ∈ s.calls[c]?, call.pc ≠ .returned

instance (s : Recording numBuckets) : ∀ e, Decidable (s.Enabled e)
  | .record _ => inferInstanceAs (Decidable True)
  | .step c _ => inferInstanceAs (Decidable (∃ call ∈ s.calls[c]?, call.pc ≠ .returned))

/-- One atomic step. -/
def Step (valueToBucket : UInt64 → Nat) (s : Recording numBuckets) (e : Event)
    (t : Recording numBuckets) : Prop := s.Enabled e ∧ t = s.next valueToBucket e

/-- The values of the calls whose place meets a condition. -/
def valuesAt (s : Recording numBuckets) (place : Pc → Bool) : List UInt64 :=
  (s.calls.filter fun call => place call.pc).map Call.value

/-- The values of all calls. -/
def begun (s : Recording numBuckets) : List UInt64 := s.calls.map Call.value

/-- The values of the calls that have returned. -/
def finished (s : Recording numBuckets) : List UInt64 := s.valuesAt (· = .returned)

/-- What the words say while calls are in progress and when none is: a call that has returned is
accounted for, none is accounted for twice or before it begins, and without a call in progress
the histogram is that of the values recorded one after another, in any order. -/
structure Accounts (valueToBucket : UInt64 → Nat) (s : Recording numBuckets) : Prop where
  extremes : ∀ v ∈ s.finished, s.histogram.minValue ≤ v ∧ v ≤ s.histogram.maxValue
  attained : s.histogram.minValue ∈ uint64Max :: s.begun ∧ s.histogram.maxValue ∈ 0 :: s.begun
  buckets : ∀ i (hi : i < numBuckets), ∃ n, s.histogram.buckets[i].toNat = n % 2 ^ 64 ∧
    s.finished.countP (valueToBucket · = i) ≤ n ∧ n ≤ s.begun.countP (valueToBucket · = i)
  count : ∃ n, s.histogram.totalCount.toNat = n % 2 ^ 64 ∧
    s.finished.length ≤ n ∧ n ≤ s.begun.length
  sum : ∃ n, s.histogram.totalSum.toNat = n % 2 ^ 64 ∧
    exactSum s.finished ≤ n ∧ n ≤ exactSum s.begun
  settled : (∀ call ∈ s.calls, call.pc = .returned) → ∀ values : List UInt64, values.Perm s.begun →
    s.histogram = values.foldl (record valueToBucket) (construct numBuckets)

end Recording

/-- A call has counted its value in its bucket. -/
def Pc.counted : Pc → Bool
  | .countBucket => false
  | _ => true

/-- A call is done with the minimum. -/
def Pc.minDone : Pc → Bool
  | .countBucket | .loadMin | .exchangeMin _ => false
  | _ => true

/-- A call is done with the maximum. -/
def Pc.maxDone : Pc → Bool
  | .addCount | .addSum | .returned => true
  | _ => false

/-- A call has added to the number of values. -/
def Pc.numbered : Pc → Bool
  | .addSum | .returned => true
  | _ => false

/-- A call has added to the sum, and returned. -/
def Pc.summed : Pc → Bool
  | .returned => true
  | _ => false

/-- A call exchanges only an extreme that its value passes. -/
def Call.Passes (call : Call) : Prop :=
  match call.pc with
  | .exchangeMin currentMin => call.value < currentMin
  | .exchangeMax currentMax => currentMax < call.value
  | _ => True

namespace Recording

variable {valueToBucket : UInt64 → Nat} {s : Recording numBuckets} {c : Nat} {call : Call} {pc : Pc}
  {place : Pc → Bool}

/-- The words that count have had the part of the calls that are past their access. -/
structure Counts (valueToBucket : UInt64 → Nat) (s : Recording numBuckets) : Prop where
  buckets : ∀ i (hi : i < numBuckets), s.histogram.buckets[i].toNat =
    (s.valuesAt Pc.counted).countP (valueToBucket · = i) % 2 ^ 64
  count : s.histogram.totalCount.toNat = (s.valuesAt Pc.numbered).length % 2 ^ 64
  sum : s.histogram.totalSum.toNat = exactSum (s.valuesAt Pc.summed) % 2 ^ 64

/-- The extremes have had the part of the calls that are past their loops. -/
structure Bounds (s : Recording numBuckets) : Prop where
  min_le : ∀ call ∈ s.calls, call.pc.minDone = true → s.histogram.minValue ≤ call.value
  min_mem : s.histogram.minValue ∈ uint64Max :: s.begun
  le_max : ∀ call ∈ s.calls, call.pc.maxDone = true → call.value ≤ s.histogram.maxValue
  max_mem : s.histogram.maxValue ∈ 0 :: s.begun
  passes : ∀ call ∈ s.calls, call.Passes

/-- The state in which one call stands elsewhere. -/
def moved (s : Recording numBuckets) (h : LockFreeHistogram numBuckets) (c : Nat) (call : Call)
    (pc : Pc) : Recording numBuckets := ⟨h, s.calls.set c { call with pc }⟩

section Moves

variable {h : LockFreeHistogram numBuckets}

theorem valuesAt_moved (hc : s.calls[c]? = some call) (hplace : place pc = place call.pc) :
    ((s.moved h c call pc).valuesAt place).Perm (s.valuesAt place) :=
  filter_set_perm_self hc hplace rfl

/-- A call that comes past an access brings its value. -/
theorem valuesAt_moved_cons (hc : s.calls[c]? = some call) (hold : place call.pc = false)
    (hnew : place pc = true) :
    ((s.moved h c call pc).valuesAt place).Perm (call.value :: s.valuesAt place) :=
  filter_set_perm hc hold hnew

theorem begun_moved (hc : s.calls[c]? = some call) : (s.moved h c call pc).begun = s.begun := by
  obtain ⟨hlt, rfl⟩ := List.getElem?_eq_some_iff.mp hc
  have hself : (s.calls.map Call.value).set c s.calls[c].value = s.calls.map Call.value := by
    rw [← List.getElem_map Call.value (h := by simpa using hlt), List.set_getElem_self]
  simp only [begun, moved, List.map_set, hself]

/-- What holds of the other calls and of the one that moved holds of all. -/
theorem forall_mem_moved {P : Call → Prop} (hs : ∀ other ∈ s.calls, P other)
    (hcall : P { call with pc }) : ∀ other ∈ (s.moved h c call pc).calls, P other := by
  intro other hother
  rcases List.mem_or_eq_of_mem_set hother with hother | rfl
  · exact hs other hother
  · exact hcall

/-- Each word that counts keeps its part of the calls: either the call passes its access now and
adds its value, or it does not and the word stays. -/
theorem Counts.moved (hs : Counts valueToBucket s) (hc : s.calls[c]? = some call)
    (hbuckets : pc.counted = call.pc.counted ∧ h.buckets = s.histogram.buckets ∨
      call.pc.counted = false ∧ pc.counted = true ∧
        h.buckets = s.histogram.count valueToBucket call.value)
    (hcount : pc.numbered = call.pc.numbered ∧ h.totalCount = s.histogram.totalCount ∨
      call.pc.numbered = false ∧ pc.numbered = true ∧ h.totalCount = s.histogram.totalCount + 1)
    (hsum : pc.summed = call.pc.summed ∧ h.totalSum = s.histogram.totalSum ∨
      call.pc.summed = false ∧ pc.summed = true ∧
        h.totalSum = s.histogram.totalSum + call.value) :
    Counts valueToBucket (s.moved h c call pc) where
  buckets i hi := by
    have hold := hs.buckets i hi
    show h.buckets[i].toNat = _
    rcases hbuckets with ⟨hplace, heq⟩ | ⟨hbefore, hafter, heq⟩
    · rw [(valuesAt_moved hc hplace).countP_eq, ← hold]
      simp only [heq]
    · rw [(valuesAt_moved_cons hc hbefore hafter).countP_eq, List.countP_cons]
      simp only [heq, getElem_count, decide_eq_true_eq]
      split
      · rw [UInt64.toNat_add, hold, UInt64.toNat_one, Nat.mod_add_mod]
      · exact hold
  count := by
    show h.totalCount.toNat = _
    rcases hcount with ⟨hplace, heq⟩ | ⟨hbefore, hafter, heq⟩
    · rw [(valuesAt_moved hc hplace).length_eq, heq, hs.count]
    · rw [(valuesAt_moved_cons hc hbefore hafter).length_eq, List.length_cons, heq,
        UInt64.toNat_add, hs.count, UInt64.toNat_one, Nat.mod_add_mod]
  sum := by
    show h.totalSum.toNat = _
    rcases hsum with ⟨hplace, heq⟩ | ⟨hbefore, hafter, heq⟩
    · rw [exactSum, ((valuesAt_moved hc hplace).map _).sum_eq, heq, hs.sum, exactSum]
    · rw [exactSum, ((valuesAt_moved_cons hc hbefore hafter).map _).sum_eq, List.map_cons,
        List.sum_cons, ← exactSum, heq, UInt64.toNat_add, hs.sum, Nat.mod_add_mod, Nat.add_comm]

/-- The minimum falls to values of calls only, and no call passes its loop below it. -/
theorem Bounds.moved (hs : Bounds s) (hc : s.calls[c]? = some call)
    (hmin : h.minValue ≤ s.histogram.minValue)
    (hmin_mem : h.minValue = s.histogram.minValue ∨ h.minValue = call.value)
    (hminDone : pc.minDone = true → call.pc.minDone = true ∨ h.minValue ≤ call.value)
    (hmax : s.histogram.maxValue ≤ h.maxValue)
    (hmax_mem : h.maxValue = s.histogram.maxValue ∨ h.maxValue = call.value)
    (hmaxDone : pc.maxDone = true → call.pc.maxDone = true ∨ call.value ≤ h.maxValue)
    (hpasses : Call.Passes { call with pc }) : Bounds (s.moved h c call pc) where
  min_le := by
    refine forall_mem_moved (fun other hother hdone => ?_) fun hdone => ?_
    · exact UInt64.le_trans hmin (hs.min_le other hother hdone)
    · rcases hminDone hdone with hold | hle
      · exact UInt64.le_trans hmin (hs.min_le call (List.mem_of_getElem? hc) hold)
      · exact hle
  min_mem := by
    rw [begun_moved hc]
    rcases hmin_mem with heq | heq
    · exact heq ▸ hs.min_mem
    · exact heq ▸ List.mem_cons_of_mem _ (List.mem_map_of_mem (List.mem_of_getElem? hc))
  le_max := by
    refine forall_mem_moved (fun other hother hdone => ?_) fun hdone => ?_
    · exact UInt64.le_trans (hs.le_max other hother hdone) hmax
    · rcases hmaxDone hdone with hold | hle
      · exact UInt64.le_trans (hs.le_max call (List.mem_of_getElem? hc) hold) hmax
      · exact hle
  max_mem := by
    rw [begun_moved hc]
    rcases hmax_mem with heq | heq
    · exact heq ▸ hs.max_mem
    · exact heq ▸ List.mem_cons_of_mem _ (List.mem_map_of_mem (List.mem_of_getElem? hc))
  passes := forall_mem_moved hs.passes hpasses

end Moves

end Recording

@[simp] theorem counted_testMin (value currentMin : UInt64) :
    (testMin value currentMin).counted = true := by
  unfold testMin
  split <;> rfl

@[simp] theorem counted_testMax (value currentMax : UInt64) :
    (testMax value currentMax).counted = true := by
  unfold testMax
  split <;> rfl

@[simp] theorem numbered_testMin (value currentMin : UInt64) :
    (testMin value currentMin).numbered = false := by
  unfold testMin
  split <;> rfl

@[simp] theorem numbered_testMax (value currentMax : UInt64) :
    (testMax value currentMax).numbered = false := by
  unfold testMax
  split <;> rfl

@[simp] theorem summed_testMin (value currentMin : UInt64) :
    (testMin value currentMin).summed = false := by
  unfold testMin
  split <;> rfl

@[simp] theorem summed_testMax (value currentMax : UInt64) :
    (testMax value currentMax).summed = false := by
  unfold testMax
  split <;> rfl

@[simp] theorem maxDone_testMin (value currentMin : UInt64) :
    (testMin value currentMin).maxDone = false := by
  unfold testMin
  split <;> rfl

@[simp] theorem minDone_testMax (value currentMax : UInt64) :
    (testMax value currentMax).minDone = true := by
  unfold testMax
  split <;> rfl

/-- A call leaves the loop of the minimum when its value is not below it. -/
theorem le_of_minDone_testMin {value currentMin : UInt64}
    (h : (testMin value currentMin).minDone = true) : currentMin ≤ value := by
  unfold testMin at h
  split at h
  · cases h
  · exact UInt64.not_lt.mp ‹_›

/-- A call leaves the loop of the maximum when its value is not above it. -/
theorem le_of_maxDone_testMax {value currentMax : UInt64}
    (h : (testMax value currentMax).maxDone = true) : value ≤ currentMax := by
  unfold testMax at h
  split at h
  · cases h
  · exact UInt64.not_lt.mp ‹_›

theorem passes_testMin (value currentMin : UInt64) :
    Call.Passes ⟨value, testMin value currentMin⟩ := by
  unfold testMin
  split
  · assumption
  · trivial

theorem passes_testMax (value currentMax : UInt64) :
    Call.Passes ⟨value, testMax value currentMax⟩ := by
  unfold testMax
  split
  · assumption
  · trivial

namespace Recording

variable {valueToBucket : UInt64 → Nat} {s t : Recording numBuckets} {c : Nat} {call : Call}
  {spurious : Bool} {e : Event}

/-- The state in which a call has taken its next step. -/
def stepped (valueToBucket : UInt64 → Nat) (s : Recording numBuckets) (c : Nat) (call : Call)
    (spurious : Bool) : Recording numBuckets :=
  let (histogram, pc) := access valueToBucket s.histogram call.value spurious call.pc
  s.moved histogram c call pc

theorem next_step (hc : s.calls[c]? = some call) :
    s.next valueToBucket (.step c spurious) = s.stepped valueToBucket c call spurious := by
  simp only [next, hc, stepped, moved]

/-- A step of a call brings its value to the word that it counts in. -/
theorem Counts.stepped (hs : Counts valueToBucket s) (hc : s.calls[c]? = some call) :
    Counts valueToBucket (s.stepped valueToBucket c call spurious) := by
  obtain ⟨value, pc⟩ := call
  have htestMin (hcounted : true = pc.counted) (hnumbered : false = pc.numbered)
      (hsummed : false = pc.summed) : Counts valueToBucket
        (s.moved s.histogram c ⟨value, pc⟩ (testMin value s.histogram.minValue)) :=
    hs.moved hc (.inl ⟨(counted_testMin ..).trans hcounted, rfl⟩)
      (.inl ⟨(numbered_testMin ..).trans hnumbered, rfl⟩)
      (.inl ⟨(summed_testMin ..).trans hsummed, rfl⟩)
  have htestMax (hcounted : true = pc.counted) (hnumbered : false = pc.numbered)
      (hsummed : false = pc.summed) : Counts valueToBucket
        (s.moved s.histogram c ⟨value, pc⟩ (testMax value s.histogram.maxValue)) :=
    hs.moved hc (.inl ⟨(counted_testMax ..).trans hcounted, rfl⟩)
      (.inl ⟨(numbered_testMax ..).trans hnumbered, rfl⟩)
      (.inl ⟨(summed_testMax ..).trans hsummed, rfl⟩)
  cases pc with
  | countBucket => exact hs.moved hc (.inr ⟨rfl, rfl, rfl⟩) (.inl ⟨rfl, rfl⟩) (.inl ⟨rfl, rfl⟩)
  | loadMin => exact htestMin rfl rfl rfl
  | exchangeMin currentMin =>
    simp only [Recording.stepped, access]
    split
    · exact hs.moved hc (.inl ⟨rfl, rfl⟩) (.inl ⟨rfl, rfl⟩) (.inl ⟨rfl, rfl⟩)
    · exact htestMin rfl rfl rfl
  | loadMax => exact htestMax rfl rfl rfl
  | exchangeMax currentMax =>
    simp only [Recording.stepped, access]
    split
    · exact hs.moved hc (.inl ⟨rfl, rfl⟩) (.inl ⟨rfl, rfl⟩) (.inl ⟨rfl, rfl⟩)
    · exact htestMax rfl rfl rfl
  | addCount => exact hs.moved hc (.inl ⟨rfl, rfl⟩) (.inr ⟨rfl, rfl, rfl⟩) (.inl ⟨rfl, rfl⟩)
  | addSum => exact hs.moved hc (.inl ⟨rfl, rfl⟩) (.inl ⟨rfl, rfl⟩) (.inr ⟨rfl, rfl, rfl⟩)
  | returned => exact hs.moved hc (.inl ⟨rfl, rfl⟩) (.inl ⟨rfl, rfl⟩) (.inl ⟨rfl, rfl⟩)

/-- A step of a call keeps the extremes beyond the values that have passed their loops. -/
theorem Bounds.stepped (hs : Bounds s) (hc : s.calls[c]? = some call) :
    Bounds (s.stepped valueToBucket c call spurious) := by
  have hpasses := hs.passes call (List.mem_of_getElem? hc)
  obtain ⟨value, pc⟩ := call
  have hmin := UInt64.le_refl s.histogram.minValue
  have hmax := UInt64.le_refl s.histogram.maxValue
  have htestMin : Bounds
      (s.moved s.histogram c ⟨value, pc⟩ (testMin value s.histogram.minValue)) :=
    hs.moved hc hmin (.inl rfl) (fun h => .inr (le_of_minDone_testMin h)) hmax (.inl rfl)
      (fun h => by simp at h) (passes_testMin ..)
  have htestMax (hdone : pc.minDone = true) : Bounds
      (s.moved s.histogram c ⟨value, pc⟩ (testMax value s.histogram.maxValue)) :=
    hs.moved hc hmin (.inl rfl) (fun _ => .inl hdone) hmax (.inl rfl)
      (fun h => .inr (le_of_maxDone_testMax h)) (passes_testMax ..)
  cases pc with
  | countBucket => exact hs.moved hc hmin (.inl rfl) nofun hmax (.inl rfl) nofun trivial
  | loadMin => exact htestMin
  | exchangeMin currentMin =>
    simp only [Recording.stepped, access]
    split
    · rename_i hexchange
      have hlt : value < s.histogram.minValue := hexchange.1 ▸ hpasses
      exact hs.moved hc (UInt64.le_of_lt hlt) (.inr rfl) (fun _ => .inr (UInt64.le_refl _)) hmax
        (.inl rfl) nofun trivial
    · exact htestMin
  | loadMax => exact htestMax rfl
  | exchangeMax currentMax =>
    simp only [Recording.stepped, access]
    split
    · rename_i hexchange
      have hlt : s.histogram.maxValue < value := hexchange.1 ▸ hpasses
      exact hs.moved hc hmin (.inl rfl) (fun _ => .inl rfl) (UInt64.le_of_lt hlt) (.inr rfl)
        (fun _ => .inr (UInt64.le_refl _)) trivial
    · exact htestMax rfl
  | addCount | addSum | returned =>
    exact hs.moved hc hmin (.inl rfl) (fun _ => .inl rfl) hmax (.inl rfl) (fun _ => .inl rfl)
      trivial

theorem Counts.record (hs : Counts valueToBucket s) (value : UInt64) :
    Counts valueToBucket (s.next valueToBucket (.record value)) := by
  have hvalues (place : Pc → Bool) (hplace : place .countBucket = false) :
      (s.next valueToBucket (.record value)).valuesAt place = s.valuesAt place := by
    simp [next, valuesAt, hplace]
  refine ⟨fun i hi => ?_, ?_, ?_⟩
  · rw [hvalues _ rfl]
    exact hs.buckets i hi
  · rw [hvalues _ rfl]
    exact hs.count
  · rw [hvalues _ rfl]
    exact hs.sum

theorem Bounds.record (hs : Bounds s) (value : UInt64) :
    Bounds (s.next valueToBucket (.record value)) := by
  have hcalls {P : Call → Prop} (hold : ∀ call ∈ s.calls, P call) (hnew : P ⟨value, .countBucket⟩) :
      ∀ call ∈ s.calls ++ [⟨value, .countBucket⟩], P call := by
    intro call hcall
    rcases List.mem_append.mp hcall with hcall | hcall
    · exact hold call hcall
    · exact List.mem_singleton.mp hcall ▸ hnew
  have hbegun (x : UInt64) (v : UInt64) (hx : x ∈ v :: s.begun) :
      x ∈ v :: (s.next valueToBucket (.record value)).begun := by
    simp only [begun, next, List.map_append] at hx ⊢
    exact List.mem_append_left _ hx
  exact ⟨hcalls hs.min_le nofun, hbegun _ _ hs.min_mem, hcalls hs.le_max nofun,
    hbegun _ _ hs.max_mem, hcalls hs.passes trivial⟩

/-- Each atomic step keeps the parts that the words have had. -/
theorem contributed_step (hs : Counts valueToBucket s ∧ Bounds s)
    (hstep : Step valueToBucket s e t) :
    Counts valueToBucket t ∧ Bounds t := by
  obtain ⟨henabled, rfl⟩ := hstep
  cases e with
  | record value => exact ⟨hs.1.record value, hs.2.record value⟩
  | step c spurious =>
    obtain ⟨call, hc, -⟩ := henabled
    rw [next_step hc]
    exact ⟨hs.1.stepped hc, hs.2.stepped hc⟩

theorem contributed_start :
    Counts valueToBucket (start numBuckets) ∧ Bounds (start numBuckets) := by
  refine ⟨⟨fun i hi => ?_, rfl, rfl⟩,
    ⟨nofun, List.mem_cons_self, nofun, List.mem_cons_self, nofun⟩⟩
  simp [start, construct, valuesAt]

end Recording

section Summaries

variable {valueToBucket : UInt64 → Nat} {h h' : LockFreeHistogram numBuckets}
  {values values' : List UInt64}

/-- The order of the values does not matter. -/
theorem Summarises.perm (hs : Summarises valueToBucket h values) (hp : values.Perm values') :
    Summarises valueToBucket h values' where
  buckets i hi := by rw [hs.buckets i hi, hp.countP_eq]
  count := by rw [hs.count, hp.length_eq]
  sum := by rw [hs.sum, exactSum, (hp.map _).sum_eq, exactSum]
  min_le v hv := hs.min_le v (hp.mem_iff.mpr hv)
  min_mem := hs.min_mem.imp_left hp.mem_iff.mp
  le_max v hv := hs.le_max v (hp.mem_iff.mpr hv)
  max_mem := hs.max_mem.imp_left hp.mem_iff.mp

/-- The words of the histogram are determined by the values. -/
theorem Summarises.eq (hs : Summarises valueToBucket h values)
    (hs' : Summarises valueToBucket h' values) : h = h' := by
  have hbuckets : h.buckets = h'.buckets := by
    ext i hi
    rw [hs.buckets i hi, hs'.buckets i hi]
  have hmin : h.minValue = h'.minValue := by
    refine UInt64.le_antisymm ?_ ?_
    · rcases hs'.min_mem with hmem | heq
      · exact hs.min_le _ hmem
      · exact heq ▸ le_uint64Max _
    · rcases hs.min_mem with hmem | heq
      · exact hs'.min_le _ hmem
      · exact heq ▸ le_uint64Max _
  have hmax : h.maxValue = h'.maxValue := by
    refine UInt64.le_antisymm ?_ ?_
    · rcases hs.max_mem with hmem | heq
      · exact hs'.le_max _ hmem
      · exact heq ▸ UInt64.zero_le
    · rcases hs'.max_mem with hmem | heq
      · exact hs.le_max _ hmem
      · exact heq ▸ UInt64.zero_le
  have hcount : h.totalCount = h'.totalCount := UInt64.toNat_inj.mp (hs.count.trans hs'.count.symm)
  have hsum : h.totalSum = h'.totalSum := UInt64.toNat_inj.mp (hs.sum.trans hs'.sum.symm)
  cases h
  cases h'
  simp_all

end Summaries

namespace Recording

variable {valueToBucket : UInt64 → Nat} {s : Recording numBuckets} {place : Pc → Bool}

theorem valuesAt_sublist (s : Recording numBuckets) (place : Pc → Bool) :
    (s.valuesAt place).Sublist s.begun := List.filter_sublist.map _

theorem finished_sublist (hplace : place .returned = true) :
    s.finished.Sublist (s.valuesAt place) := by
  refine List.Sublist.map _ (List.monotone_filter_right _ fun call hcall => ?_)
  rwa [of_decide_eq_true hcall]

theorem valuesAt_of_settled (hplace : place .returned = true)
    (hsettled : ∀ call ∈ s.calls, call.pc = .returned) : s.valuesAt place = s.begun := by
  have hall : ∀ call ∈ s.calls, place call.pc = true := by
    intro call hcall
    rw [hsettled call hcall, hplace]
  rw [valuesAt, List.filter_eq_self.mpr hall, begun]

theorem exactSum_le_of_sublist {values values' : List UInt64} (h : values.Sublist values') :
    exactSum values ≤ exactSum values' := (h.map _).sum_le_sum fun _ _ => Nat.zero_le _

/-- Without a call in progress the words summarise all values. -/
theorem summarises_of_settled (hs : Counts valueToBucket s ∧ Bounds s)
    (hsettled : ∀ call ∈ s.calls, call.pc = .returned) :
    Summarises valueToBucket s.histogram s.begun where
  buckets i hi := by rw [hs.1.buckets i hi, valuesAt_of_settled rfl hsettled]
  count := by rw [hs.1.count, valuesAt_of_settled rfl hsettled]
  sum := by rw [hs.1.sum, valuesAt_of_settled rfl hsettled]
  min_le := List.forall_mem_map.mpr fun call hcall =>
    hs.2.min_le call hcall (by rw [hsettled call hcall]; rfl)
  min_mem := (List.mem_cons.mp hs.2.min_mem).symm
  le_max := List.forall_mem_map.mpr fun call hcall =>
    hs.2.le_max call hcall (by rw [hsettled call hcall]; rfl)
  max_mem := (List.mem_cons.mp hs.2.max_mem).symm

theorem accounts_of_contributed (hs : Counts valueToBucket s ∧ Bounds s) :
    Accounts valueToBucket s where
  extremes := by
    refine List.forall_mem_map.mpr fun call hcall => ?_
    obtain ⟨hmem, hreturned⟩ := List.mem_filter.mp hcall
    have hpc : call.pc = .returned := of_decide_eq_true hreturned
    exact ⟨hs.2.min_le call hmem (by rw [hpc]; rfl), hs.2.le_max call hmem (by rw [hpc]; rfl)⟩
  attained := ⟨hs.2.min_mem, hs.2.max_mem⟩
  buckets i hi := ⟨_, hs.1.buckets i hi, (finished_sublist rfl).countP_le,
    (valuesAt_sublist s _).countP_le⟩
  count := ⟨_, hs.1.count, (finished_sublist rfl).length_le, (valuesAt_sublist s _).length_le⟩
  sum := ⟨_, hs.1.sum, exactSum_le_of_sublist (finished_sublist rfl),
    exactSum_le_of_sublist (valuesAt_sublist s _)⟩
  settled hsettled values hperm :=
    ((summarises_of_settled hs hsettled).perm hperm.symm).eq
      (summarises_foldl_record valueToBucket (construct numBuckets) values)

/-- In every interleaving of any number of calls, values are recorded as if one after another. -/
theorem accounts_throughout (valueToBucket : UInt64 → Nat)
    {tr : List (Event × Recording numBuckets)}
    (hrun : IsRun (Step valueToBucket) (start numBuckets) tr) :
    Throughout (Accounts valueToBucket) (start numBuckets) tr :=
  (hrun.throughout (fun s => Counts valueToBucket s ∧ Bounds s)
    (fun _ _ _ hs hstep => contributed_step hs hstep) contributed_start).mono
      fun _ => accounts_of_contributed

/-- Two calls, the second of which lowers the minimum between the load and the exchange of the
first. -/
theorem accounts_throughout_two :
    Throughout (Accounts fun v => v.toNat / 8) (start 2)
      (runOf (next fun v => v.toNat / 8) (start 2) ([.record 9, .record 3] ++
        [0, 0, 1, 1, 1, 0, 0, 0, 0, 0, 1, 1, 1].map (Event.step · false))) :=
  accounts_throughout _ (isRun_runOf_of_enabled (by decide +kernel))

end Recording

/-! ## The number of steps -/

/-- How many steps a call has before it when no exchange fails. -/
def Pc.stepsLeft : Pc → Nat
  | .countBucket => 7
  | .loadMin => 6
  | .exchangeMin _ => 5
  | .loadMax => 4
  | .exchangeMax _ => 3
  | .addCount => 2
  | .addSum => 1
  | .returned => 0

/-- An exchange is going to fail, as the word has changed since the call has seen it. -/
def Pc.stale (h : LockFreeHistogram numBuckets) : Pc → Nat
  | .exchangeMin currentMin => if h.minValue = currentMin then 0 else 1
  | .exchangeMax currentMax => if h.maxValue = currentMax then 0 else 1
  | _ => 0

/-- The steps of a call up to its next exchange that does not fail, and after it. -/
def Call.effort (h : LockFreeHistogram numBuckets) (call : Call) : Nat :=
  call.pc.stepsLeft + call.pc.stale h

/-- The steps of all calls; each call that is not done with an extreme can still make the exchanges
of all the others fail once. -/
def effort (h : LockFreeHistogram numBuckets) (calls : List Call) : Nat :=
  (calls.map (Call.effort h)).sum + (calls.countP fun call => !call.pc.minDone).choose 2 +
    (calls.countP fun call => !call.pc.maxDone).choose 2

/-- A step that does not fail spuriously. -/
def Event.works : Event → Bool
  | .record _ => false
  | .step _ spurious => !spurious

section Effort

variable {valueToBucket : UInt64 → Nat} {h h' : LockFreeHistogram numBuckets} {call : Call}
  {calls others : List Call} {value : UInt64} {pc : Pc} {spurious : Bool}

theorem effort_perm (hp : calls.Perm others) : effort h calls = effort h others := by
  rw [effort, effort, (hp.map _).sum_eq, hp.countP_eq, hp.countP_eq]

/-- A step of a call that leaves the extremes alone. -/
theorem effort_of_same (hmin : h'.minValue = h.minValue) (hmax : h'.maxValue = h.maxValue)
    (hminDone : call.pc.minDone = true → pc.minDone = true)
    (hmaxDone : call.pc.maxDone = true → pc.maxDone = true) {n : Nat}
    (hle : Call.effort h ⟨value, pc⟩ + n ≤ call.effort h) :
    effort h' (⟨value, pc⟩ :: others) + n ≤ effort h (call :: others) := by
  have hsame : Call.effort h' = Call.effort h := by
    ext other
    unfold Call.effort Pc.stale
    rw [hmin, hmax]
  have hmins : (⟨value, pc⟩ :: others : List Call).countP (fun call => !call.pc.minDone) ≤
      (call :: others).countP fun call => !call.pc.minDone := by
    simp only [List.countP_cons]
    cases hcall : call.pc.minDone with
    | true => simp [hminDone hcall]
    | false => simp; split <;> omega
  have hmaxs : (⟨value, pc⟩ :: others : List Call).countP (fun call => !call.pc.maxDone) ≤
      (call :: others).countP fun call => !call.pc.maxDone := by
    simp only [List.countP_cons]
    cases hcall : call.pc.maxDone with
    | true => simp [hmaxDone hcall]
    | false => simp; split <;> omega
  have hchooseMin := Nat.choose_le_choose 2 hmins
  have hchooseMax := Nat.choose_le_choose 2 hmaxs
  simp only [effort, hsame, List.map_cons, List.sum_cons]
  omega

theorem choose_two_succ (n : Nat) : (n + 1).choose 2 = n + n.choose 2 := by
  rw [Nat.choose_succ_succ', Nat.choose_one_right]

/-- An exchange that lowers the minimum makes those of the other calls in that loop fail. -/
theorem effort_of_lowered {currentMin : UInt64} (hcurrent : h.minValue = currentMin) :
    effort { h with minValue := value } (⟨value, .loadMax⟩ :: others) + 1 ≤
      effort h (⟨value, .exchangeMin currentMin⟩ :: others) := by
  have hothers : (others.map (Call.effort { h with minValue := value })).sum ≤
      (others.map (Call.effort h)).sum + others.countP fun call => !call.pc.minDone := by
    refine sum_map_le_add_countP fun ⟨v, pc⟩ _ => ?_
    cases pc with
    | exchangeMin current =>
      simp only [Call.effort, Pc.stale, Pc.minDone, Bool.not_false, Bool.toNat_true]
      split <;> omega
    | _ => exact Nat.le_add_right ..
  have hchoose := choose_two_succ (others.countP fun call => !call.pc.minDone)
  simp only [effort, List.map_cons, List.sum_cons, List.countP_cons, Call.effort, Pc.stepsLeft,
    Pc.stale, Pc.minDone, Pc.maxDone, hcurrent, Bool.not_true, Bool.not_false, if_true,
    Bool.false_eq_true, if_false, Nat.add_zero] at hchoose hothers ⊢
  omega

/-- An exchange that raises the maximum makes those of the other calls in that loop fail. -/
theorem effort_of_raised {currentMax : UInt64} (hcurrent : h.maxValue = currentMax) :
    effort { h with maxValue := value } (⟨value, .addCount⟩ :: others) + 1 ≤
      effort h (⟨value, .exchangeMax currentMax⟩ :: others) := by
  have hothers : (others.map (Call.effort { h with maxValue := value })).sum ≤
      (others.map (Call.effort h)).sum + others.countP fun call => !call.pc.maxDone := by
    refine sum_map_le_add_countP fun ⟨v, pc⟩ _ => ?_
    cases pc with
    | exchangeMax current =>
      simp only [Call.effort, Pc.stale, Pc.maxDone, Bool.not_false, Bool.toNat_true]
      split <;> omega
    | _ => exact Nat.le_add_right ..
  have hchoose := choose_two_succ (others.countP fun call => !call.pc.maxDone)
  simp only [effort, List.map_cons, List.sum_cons, List.countP_cons, Call.effort, Pc.stepsLeft,
    Pc.stale, Pc.minDone, Pc.maxDone, hcurrent, Bool.not_true, Bool.not_false, if_true,
    Bool.false_eq_true, if_false, Nat.add_zero] at hchoose hothers ⊢
  omega

/-- The test of the loop of the minimum leaves at most the exchange before the call. -/
theorem effort_testMin : Call.effort h ⟨value, testMin value h.minValue⟩ ≤ 5 := by
  unfold testMin
  split
  · simp [Call.effort, Pc.stepsLeft, Pc.stale]
  · simp [Call.effort, Pc.stepsLeft, Pc.stale]

theorem effort_testMax : Call.effort h ⟨value, testMax value h.maxValue⟩ ≤ 3 := by
  unfold testMax
  split
  · simp [Call.effort, Pc.stepsLeft, Pc.stale]
  · simp [Call.effort, Pc.stepsLeft, Pc.stale]

/-- An exchange that fails for a reason has been going to. -/
theorem effort_exchangeMin {currentMin : UInt64}
    (hfails : ¬ (h.minValue = currentMin ∧ spurious = false)) :
    5 + (!spurious).toNat ≤ Call.effort h ⟨value, .exchangeMin currentMin⟩ := by
  cases spurious with
  | true => exact Nat.le_add_right ..
  | false =>
    have hne : h.minValue ≠ currentMin := fun heq => hfails ⟨heq, rfl⟩
    simp [Call.effort, Pc.stepsLeft, Pc.stale, hne]

theorem effort_exchangeMax {currentMax : UInt64}
    (hfails : ¬ (h.maxValue = currentMax ∧ spurious = false)) :
    3 + (!spurious).toNat ≤ Call.effort h ⟨value, .exchangeMax currentMax⟩ := by
  cases spurious with
  | true => exact Nat.le_add_right ..
  | false =>
    have hne : h.maxValue ≠ currentMax := fun heq => hfails ⟨heq, rfl⟩
    simp [Call.effort, Pc.stepsLeft, Pc.stale, hne]

/-- A step that does not fail spuriously takes from the effort, and one that does adds nothing. -/
theorem effort_access (hpc : call.pc ≠ .returned) :
    effort (access valueToBucket h call.value spurious call.pc).1
        ({ call with pc := (access valueToBucket h call.value spurious call.pc).2 } :: others) +
      (!spurious).toNat ≤ effort h (call :: others) := by
  obtain ⟨value, pc⟩ := call
  have hone : (!spurious).toNat ≤ 1 := Bool.toNat_le _
  cases pc with
  | countBucket => exact effort_of_same rfl rfl (by nofun) (by nofun) (Nat.add_le_add_left hone 6)
  | loadMin =>
    refine effort_of_same rfl rfl (by nofun) (by nofun) ?_
    exact (Nat.add_le_add effort_testMin hone).trans (Nat.le_refl 6)
  | exchangeMin currentMin =>
    simp only [access]
    split
    · rename_i hexchange
      exact (Nat.add_le_add_left hone _).trans (effort_of_lowered hexchange.1)
    · rename_i hfails
      refine effort_of_same rfl rfl (by nofun) (by nofun) ?_
      exact (Nat.add_le_add_right effort_testMin _).trans (effort_exchangeMin hfails)
  | loadMax =>
    refine effort_of_same rfl rfl (fun _ => minDone_testMax ..) (by nofun) ?_
    exact (Nat.add_le_add effort_testMax hone).trans (Nat.le_refl 4)
  | exchangeMax currentMax =>
    simp only [access]
    split
    · rename_i hexchange
      exact (Nat.add_le_add_left hone _).trans (effort_of_raised hexchange.1)
    · rename_i hfails
      refine effort_of_same rfl rfl (fun _ => minDone_testMax ..) (by nofun) ?_
      exact (Nat.add_le_add_right effort_testMax _).trans (effort_exchangeMax hfails)
  | addCount =>
    exact effort_of_same rfl rfl (fun _ => rfl) (fun _ => rfl) (Nat.add_le_add_left hone 1)
  | addSum =>
    exact effort_of_same rfl rfl (fun _ => rfl) (fun _ => rfl) (Nat.add_le_add_left hone 0)
  | returned => exact absurd rfl hpc

end Effort

namespace Recording

variable {valueToBucket : UInt64 → Nat} {s t : Recording numBuckets} {e : Event}

/-- A call that begins adds its own steps, and two exchanges of each of the others. -/
theorem effort_record (s : Recording numBuckets) (value : UInt64) :
    effort s.histogram (s.calls ++ [⟨value, .countBucket⟩]) ≤
      effort s.histogram s.calls + 2 * s.calls.length + 7 := by
  have hmins := List.countP_le_length (p := fun call : Call => !call.pc.minDone) (l := s.calls)
  have hmaxs := List.countP_le_length (p := fun call : Call => !call.pc.maxDone) (l := s.calls)
  have hchooseMin := choose_two_succ (s.calls.countP fun call => !call.pc.minDone)
  have hchooseMax := choose_two_succ (s.calls.countP fun call => !call.pc.maxDone)
  simp only [effort, List.map_append, List.sum_append, List.countP_append, List.map_cons,
    List.map_nil, List.sum_singleton, List.countP_singleton, Call.effort, Pc.stepsLeft, Pc.stale,
    Pc.minDone, Pc.maxDone, Bool.not_false, if_true] at hmins hmaxs hchooseMin hchooseMax ⊢
  omega

/-- Each atomic step is paid for, by the effort or by the call that begins. -/
theorem effort_step (hstep : Step valueToBucket s e t) :
    e.works.toNat + effort t.histogram t.calls + s.calls.length ^ 2 + 6 * s.calls.length ≤
      effort s.histogram s.calls + t.calls.length ^ 2 + 6 * t.calls.length := by
  obtain ⟨henabled, rfl⟩ := hstep
  cases e with
  | record value =>
    have hbegin := effort_record s value
    simp only [next, Event.works, Bool.toNat_false, List.length_append, List.length_singleton]
    nlinarith only [hbegin]
  | step c spurious =>
    obtain ⟨call, hc, hpc⟩ := henabled
    obtain ⟨others, hcalls, hset⟩ := exists_perm_set hc
    have hless : effort (s.next valueToBucket (.step c spurious)).histogram
        (s.next valueToBucket (.step c spurious)).calls + (!spurious).toNat ≤
          effort s.histogram s.calls := by
      rw [next_step hc, effort_perm hcalls]
      exact (Nat.add_le_add_right (effort_perm (hset _)).le _).trans (effort_access hpc)
    have hlength : (s.next valueToBucket (.step c spurious)).calls.length = s.calls.length := by
      rw [next_step hc]
      exact List.length_set ..
    rw [hlength, Event.works]
    omega

/-- So is each run. -/
theorem works_paid {tr : List (Event × Recording numBuckets)}
    (hrun : IsRun (Step valueToBucket) s tr) :
    tr.countP (fun x => x.1.works) + s.calls.length ^ 2 + 6 * s.calls.length ≤
      effort s.histogram s.calls + (lastState s tr).calls.length ^ 2 +
        6 * (lastState s tr).calls.length := by
  induction tr generalizing s with
  | nil => simp
  | cons x tr ih =>
    have hstep := effort_step hrun.1
    have hrest := ih hrun.2
    rw [List.countP_cons, lastState]
    cases hworks : x.1.works with
    | true =>
      rw [hworks, Bool.toNat_true] at hstep
      rw [if_pos rfl]
      omega
    | false =>
      rw [hworks, Bool.toNat_false] at hstep
      rw [if_neg Bool.false_ne_true]
      omega

/-- In every run, however the calls interleave, at most `n ^ 2 + 6 * n` steps of `n` calls do not
fail spuriously: no call keeps the others from returning, or is kept by them. -/
theorem works_le (valueToBucket : UInt64 → Nat) {tr : List (Event × Recording numBuckets)}
    (hrun : IsRun (Step valueToBucket) (start numBuckets) tr) :
    tr.countP (fun x => x.1.works) ≤
      (lastState (start numBuckets) tr).calls.length ^ 2 +
        6 * (lastState (start numBuckets) tr).calls.length := by
  simpa [start, effort] using works_paid hrun

/-- The two calls from before, one of whose exchanges fails. -/
theorem works_le_two :
    (runOf (next fun v => v.toNat / 8) (start 2) ([.record 9, .record 3] ++
        [0, 0, 1, 1, 1, 0, 0, 0, 0, 0, 1, 1, 1].map (Event.step · false))).countP
        (fun x => x.1.works) ≤
      (lastState (start 2) (runOf (next fun v => v.toNat / 8) (start 2) ([.record 9, .record 3] ++
        [0, 0, 1, 1, 1, 0, 0, 0, 0, 0, 1, 1, 1].map (Event.step · false)))).calls.length ^ 2 +
        6 * (lastState (start 2) (runOf (next fun v => v.toNat / 8) (start 2)
          ([.record 9, .record 3] ++
            [0, 0, 1, 1, 1, 0, 0, 0, 0, 0, 1, 1, 1].map (Event.step · false)))).calls.length :=
  works_le _ (isRun_runOf_of_enabled (by decide +kernel))

end Recording

end LockFreeHistogram

end OrderbookEngine
