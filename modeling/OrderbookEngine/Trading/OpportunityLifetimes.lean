import OrderbookEngine.Library.Transition
import OrderbookEngine.Trading.ArbitrageMonitor

/-!
# Lifetimes of tracked opportunities

Detections run in two sections under the mutex, and between them the alert
callback runs without it: other detections come in there, on other threads or
from inside the callback, and a thread's calls form a stack. The second section
expires by the time of the first, which is sound exactly when it meets no younger
opportunity.
-/

namespace OrderbookEngine.Lifetimes

open ArbitrageMonitor Transition

/-- Where a call in progress stands: before a test or a section of
`on_arbitrage_detected`, in the alert callback before the second section, or
before the section of `stop`. -/
inductive Frame (D : Type) where
  | testRunning (opportunity : AggregatedOrderBook.ArbitrageOpportunity D)
  | testProfit (opportunity : AggregatedOrderBook.ArbitrageOpportunity D)
  | lock (opportunity : AggregatedOrderBook.ArbitrageOpportunity D)
  | alert (detectionTimeNs : UInt64)
  | stopping
  deriving DecidableEq, Repr

/-- The monitor, the clock, and the calls of each thread, innermost first. -/
structure State (ι β D : Type) where
  monitor : ArbitrageMonitor β D
  clock : UInt64
  calls : ι → List (Frame D)

/-- A call of a method, a step of a thread within its innermost call, and the
passing of time. -/
inductive Event (ι D : Type) where
  | detect (thread : ι) (opportunity : AggregatedOrderBook.ArbitrageOpportunity D)
  | stop (thread : ι)
  | start
  | setMinProfit (minProfitPercent : D)
  | setAlertCallback (callback : Bool)
  | clearHistory
  | step (thread : ι)
  | tick (clock : UInt64)

namespace State

variable {ι β D : Type}

/-- The thread is in no call or inside the alert callback of one. -/
def canCall (s : State ι β D) (thread : ι) : Bool :=
  match s.calls thread with
  | [] | .alert _ :: _ => true
  | _ => false

/-- Calls come from free threads, steps from threads in a call, and the clock never
goes back. -/
def Enabled (s : State ι β D) : Event ι D → Prop
  | .detect thread _ | .stop thread => s.canCall thread = true
  | .step thread => s.calls thread ≠ []
  | .tick clock => s.clock ≤ clock
  | _ => True

instance decidableEnabled (s : State ι β D) : ∀ e, Decidable (s.Enabled e)
  | .detect thread _ | .stop thread => inferInstanceAs (Decidable (s.canCall thread = true))
  | .step thread => decidable_of_iff ((s.calls thread).isEmpty = false) (by simp [Enabled])
  | .tick clock => inferInstanceAs (Decidable (s.clock ≤ clock))
  | .start | .setMinProfit _ | .setAlertCallback _ | .clearHistory => isTrue trivial

variable [DecidableEq ι] [Field D] [LinearOrder D]

/-- Put a thread's calls in place. -/
def setCalls (s : State ι β D) (thread : ι) (stack : List (Frame D)) : State ι β D :=
  { s with calls := Function.update s.calls thread stack }

/-- One step of the innermost call of a thread. -/
def frameNext (s : State ι β D) (thread : ι) (rest : List (Frame D)) : Frame D → State ι β D
  | .testRunning opportunity =>
    if s.monitor.running then s.setCalls thread (.testProfit opportunity :: rest)
    else s.setCalls thread rest
  | .testProfit opportunity =>
    if opportunity.profitPercentage < s.monitor.minProfitPercent then s.setCalls thread rest
    else s.setCalls thread (.lock opportunity :: rest)
  | .lock opportunity =>
    if s.monitor.alertCallback then
      { s with monitor := s.monitor.track opportunity s.clock }.setCalls thread
        (.alert s.clock :: rest)
    else
      { s with
        monitor := (s.monitor.track opportunity s.clock).updateActiveOpportunities
          s.clock }.setCalls thread rest
  | .alert detectionTimeNs =>
    { s with
      monitor := s.monitor.updateActiveOpportunities detectionTimeNs }.setCalls thread rest
  | .stopping => { s with monitor := s.monitor.expireAll s.clock }.setCalls thread rest

/-- The state that an event leaves. -/
def next (s : State ι β D) : Event ι D → State ι β D
  | .detect thread opportunity =>
    s.setCalls thread (.testRunning opportunity :: s.calls thread)
  | .stop thread =>
    if s.monitor.running then
      { s with monitor := { s.monitor with running := false } }.setCalls thread
        (.stopping :: s.calls thread)
    else s
  | .start => { s with monitor := s.monitor.start }
  | .setMinProfit minProfitPercent =>
    { s with monitor := s.monitor.setMinProfit minProfitPercent }
  | .setAlertCallback callback => { s with monitor := s.monitor.setAlertCallback callback }
  | .clearHistory => { s with monitor := s.monitor.clearHistory }
  | .step thread =>
    match s.calls thread with
    | [] => s
    | frame :: rest => s.frameNext thread rest frame
  | .tick clock => { s with clock := clock }

/-- One step of the system. -/
def Step (s : State ι β D) (e : Event ι D) (t : State ι β D) : Prop := s.Enabled e ∧ t = s.next e

end State

/-- A new monitor, with no call in progress, at any time. -/
def construct (ι β : Type) {D : Type} [Field D] (minProfitPercent : D) (historySize : Nat)
    (clock : UInt64) : State ι β D where
  monitor := ArbitrageMonitor.construct β minProfitPercent historySize
  clock := clock
  calls := fun _ => []

section Statement

variable {ι β D : Type} [LinearOrder D] [Field D]

/-- The call of `update_active_opportunities` that an event makes, with the monitor
that it finds. -/
def expiring (s : State ι β D) : Event ι D → Option (ArbitrageMonitor β D × UInt64)
  | .step thread =>
    match s.calls thread with
    | .lock opportunity :: _ =>
      if s.monitor.alertCallback then none
      else some (s.monitor.track opportunity s.clock, s.clock)
    | .alert detectionTimeNs :: _ => some (s.monitor, detectionTimeNs)
    | _ => none
  | _ => none

/-- An event expires only opportunities that are more than a second old, at a time
after their detection, and leaves a history in which every entry expired after its
detection. -/
def Sane (s : State ι β D) (e : Event ι D) (t : State ι β D) : Prop :=
  (∀ m now, expiring s e = some (m, now) → ∀ id ∈ m.toExpire now, ∀ arb,
    m.activeOpportunities[id]? = some arb →
      timeoutNs.toNat < s.clock.toNat - arb.detectionTimeNs.toNat ∧ arb.detectionTimeNs ≤ now) ∧
  ∀ entry ∈ t.monitor.history, entry.detectionTimeNs ≤ entry.expiryTimeNs

/-- The expiry meets no opportunity that was detected after its own time, unless
the wrapped age of it stays within the timeout. -/
def MeetsNoYounger (s : State ι β D) (e : Event ι D) : Prop :=
  ∀ m now, expiring s e = some (m, now) → ∀ (id : UInt64) arb,
    m.activeOpportunities[id]? = some arb → now < arb.detectionTimeNs →
      now - arb.detectionTimeNs ≤ timeoutNs

end Statement

/-- Opportunities are detected in the past, and those of the history before they
expired. -/
structure Sound {β D : Type} (m : ArbitrageMonitor β D) (clock : UInt64) : Prop where
  active : ∀ (id : UInt64) arb, m.activeOpportunities[id]? = some arb →
    arb.detectionTimeNs ≤ clock
  history : ∀ entry ∈ m.history, entry.detectionTimeNs ≤ entry.expiryTimeNs

/-- What every run keeps whose expiries meet nothing younger. -/
structure Inv {ι β D : Type} (s : State ι β D) : Prop where
  sound : Sound s.monitor s.clock
  alerts : ∀ thread detectionTimeNs, .alert detectionTimeNs ∈ s.calls thread →
    detectionTimeNs ≤ s.clock

section Monitor

variable {β D : Type} {m : ArbitrageMonitor β D} {clock now : UInt64}

theorem Sound.track [Field D] [LinearOrder D] (h : Sound m clock)
    (opportunity : AggregatedOrderBook.ArbitrageOpportunity D) :
    Sound (m.track opportunity clock) clock where
  active id arb hat := by
    have hat : (m.activeOpportunities.insert m.nextId (m.tracked opportunity clock))[id]? =
      some arb := hat
    rw [Std.TreeMap.getElem?_insert] at hat
    split at hat
    · cases hat
      exact UInt64.le_rfl
    · exact h.active id arb hat
  history := h.history

theorem Sound.expireAll (h : Sound m clock) : Sound (m.expireAll clock) clock where
  active id arb hat := by
    have hat : (∅ : Std.TreeMap UInt64 (TrackedArbitrage D))[id]? = some arb := hat
    simp at hat
  history entry hentry := by
    rcases mem_history_expireAll m clock hentry with hentry | ⟨id, arb, hat, rfl⟩
    · exact h.history entry hentry
    · exact h.active id arb hat

/-- An expiry at or before the present that meets nothing younger expires only what
is over a second old. -/
theorem age_of_mem_toExpire (hnow : now ≤ clock)
    (hyounger : ∀ (id : UInt64) arb, m.activeOpportunities[id]? = some arb →
      now < arb.detectionTimeNs → now - arb.detectionTimeNs ≤ timeoutNs)
    {id : UInt64} {arb : TrackedArbitrage D} (hid : id ∈ m.toExpire now)
    (hat : m.activeOpportunities[id]? = some arb) :
    timeoutNs.toNat < clock.toNat - arb.detectionTimeNs.toNat ∧ arb.detectionTimeNs ≤ now := by
  obtain ⟨arb', hat', hage⟩ := (mem_toExpire m now).mp hid
  obtain rfl : arb' = arb := Option.some.inj (hat'.symm.trans hat)
  have hdetected : arb'.detectionTimeNs ≤ now := by
    by_contra hlt
    exact absurd (hyounger id arb' hat (UInt64.not_le.mp hlt)) (UInt64.not_le.mpr hage)
  refine ⟨?_, hdetected⟩
  rw [UInt64.lt_iff_toNat_lt, UInt64.toNat_sub_of_le _ _ hdetected] at hage
  rw [UInt64.le_iff_toNat_le] at hnow
  omega

theorem Sound.updateActiveOpportunities [Field D] (h : Sound m clock)
    (hexpire : ∀ id ∈ m.toExpire now, ∀ arb, m.activeOpportunities[id]? = some arb →
      arb.detectionTimeNs ≤ now) : Sound (m.updateActiveOpportunities now) clock where
  active id arb hat := by
    rw [ArbitrageMonitor.updateActiveOpportunities, activeOpportunities_foldl_expire] at hat
    split at hat
    · cases hat
    · exact h.active id arb hat
  history entry hentry := by
    rcases mem_history_foldl_expire m now hentry with hentry | ⟨id, hid, arb, hat, rfl⟩
    · exact h.history entry hentry
    · exact hexpire id hid arb hat

end Monitor

section Run

variable {ι β D : Type} [DecidableEq ι] [Field D] [LinearOrder D] {s : State ι β D}
  {e : Event ι D}

omit [DecidableEq ι] in
/-- The expiry of an event finds a sound monitor and a time that has passed. -/
theorem Inv.expiring (h : Inv s) {m : ArbitrageMonitor β D} {now : UInt64}
    (he : expiring s e = some (m, now)) : Sound m s.clock ∧ now ≤ s.clock := by
  cases e with
  | step thread =>
    simp only [Lifetimes.expiring] at he
    split at he
    · split at he
      · cases he
      · cases he
        exact ⟨h.sound.track _, UInt64.le_rfl⟩
    · rename_i hcalls
      cases he
      exact ⟨h.sound, h.alerts thread now (hcalls ▸ List.mem_cons_self)⟩
    · cases he
  | _ => cases he

omit [Field D] [LinearOrder D] in
/-- Changes to the monitor and to one thread's calls. -/
theorem Inv.setCalls (h : Inv s) {m : ArbitrageMonitor β D} (hsound : Sound m s.clock)
    (thread : ι) {stack : List (Frame D)} (hstack : ∀ detectionTimeNs,
      .alert detectionTimeNs ∈ stack →
        .alert detectionTimeNs ∈ s.calls thread ∨ detectionTimeNs = s.clock) :
    Inv ({ s with monitor := m }.setCalls thread stack) where
  sound := hsound
  alerts other detectionTimeNs hmem := by
    show detectionTimeNs ≤ s.clock
    have hmem : .alert detectionTimeNs ∈ Function.update s.calls thread stack other := hmem
    by_cases hother : other = thread
    · rw [hother, Function.update_self] at hmem
      rcases hstack detectionTimeNs hmem with hmem | rfl
      · exact h.alerts thread detectionTimeNs hmem
      · exact UInt64.le_rfl
    · rw [Function.update_of_ne hother] at hmem
      exact h.alerts other detectionTimeNs hmem

omit [Field D] [LinearOrder D] [DecidableEq ι] in
/-- Changes that leave the opportunities and the calls alone. -/
theorem Inv.of_same {t : State ι β D} (h : Inv s) (hclock : t.clock = s.clock)
    (hactive : t.monitor.activeOpportunities = s.monitor.activeOpportunities)
    (hhistory : ∀ entry ∈ t.monitor.history, entry ∈ s.monitor.history)
    (hcalls : t.calls = s.calls) : Inv t where
  sound := ⟨fun id arb hat => hclock ▸ h.sound.active id arb (hactive ▸ hat),
    fun entry hentry => h.sound.history entry (hhistory entry hentry)⟩
  alerts thread detectionTimeNs hmem := hclock ▸ h.alerts thread detectionTimeNs (hcalls ▸ hmem)

/-- A step within a call keeps the invariant when its expiry is sound. -/
theorem Inv.frameNext (h : Inv s) {thread : ι} {frame : Frame D} {rest : List (Frame D)}
    (hcalls : s.calls thread = frame :: rest)
    (hexpire : ∀ m now, Lifetimes.expiring s (.step thread) = some (m, now) →
      ∀ id ∈ m.toExpire now, ∀ arb, m.activeOpportunities[id]? = some arb →
        arb.detectionTimeNs ≤ now) : Inv (s.frameNext thread rest frame) := by
  have hrest : ∀ detectionTimeNs, .alert detectionTimeNs ∈ rest →
      .alert detectionTimeNs ∈ s.calls thread ∨ detectionTimeNs = s.clock :=
    fun detectionTimeNs hmem => Or.inl (hcalls ▸ List.mem_cons_of_mem _ hmem)
  have hcons : ∀ frame' : Frame D, (∀ detectionTimeNs, frame' ≠ .alert detectionTimeNs) →
      ∀ detectionTimeNs, .alert detectionTimeNs ∈ frame' :: rest →
        .alert detectionTimeNs ∈ s.calls thread ∨ detectionTimeNs = s.clock := by
    intro frame' hne detectionTimeNs hmem
    rcases List.mem_cons.mp hmem with heq | hmem
    · exact absurd heq.symm (hne detectionTimeNs)
    · exact hrest detectionTimeNs hmem
  simp only [Lifetimes.expiring, hcalls] at hexpire
  cases frame with
  | testRunning opportunity =>
    simp only [State.frameNext]
    split
    · exact h.setCalls h.sound thread (hcons _ nofun)
    · exact h.setCalls h.sound thread hrest
  | testProfit opportunity =>
    simp only [State.frameNext]
    split
    · exact h.setCalls h.sound thread hrest
    · exact h.setCalls h.sound thread (hcons _ nofun)
  | lock opportunity =>
    have htrack := h.sound.track opportunity
    simp only [State.frameNext]
    split
    · refine h.setCalls htrack thread fun detectionTimeNs hmem => ?_
      rcases List.mem_cons.mp hmem with heq | hmem
      · exact Or.inr (Frame.alert.inj heq)
      · exact hrest detectionTimeNs hmem
    · rename_i hcallback
      simp only [hcallback] at hexpire
      exact h.setCalls (htrack.updateActiveOpportunities (hexpire _ _ rfl)) thread hrest
  | alert detectionTimeNs =>
    exact h.setCalls (h.sound.updateActiveOpportunities (hexpire _ _ rfl)) thread hrest
  | stopping => exact h.setCalls h.sound.expireAll thread hrest

/-- A step whose expiry meets nothing younger is sane. -/
theorem Inv.step (h : Inv s) (hcond : MeetsNoYounger s e) {t : State ι β D}
    (hstep : State.Step s e t) : Inv t ∧ Sane s e t := by
  obtain ⟨henabled, rfl⟩ := hstep
  have hage : ∀ m now, Lifetimes.expiring s e = some (m, now) → ∀ id ∈ m.toExpire now, ∀ arb,
      m.activeOpportunities[id]? = some arb →
        timeoutNs.toNat < s.clock.toNat - arb.detectionTimeNs.toNat ∧
          arb.detectionTimeNs ≤ now := by
    intro m now he id hid arb hat
    exact age_of_mem_toExpire (h.expiring he).2 (hcond m now he) hid hat
  have hinv : Inv (s.next e) := by
    cases e with
    | detect thread opportunity =>
      refine h.setCalls h.sound thread fun detectionTimeNs hmem => ?_
      exact Or.inl ((List.mem_cons.mp hmem).resolve_left nofun)
    | stop thread =>
      simp only [State.next]
      split
      · refine h.setCalls (m := { s.monitor with running := false })
          ⟨h.sound.active, h.sound.history⟩ thread fun time hmem => ?_
        exact Or.inl ((List.mem_cons.mp hmem).resolve_left nofun)
      · exact h
    | start | setMinProfit | setAlertCallback => exact h.of_same rfl rfl (fun _ => id) rfl
    | clearHistory => exact h.of_same rfl rfl nofun rfl
    | step thread =>
      simp only [State.next]
      cases hcalls : s.calls thread with
      | nil => exact h
      | cons frame rest =>
        exact h.frameNext hcalls fun m now he id hid arb hat => (hage m now he id hid arb hat).2
    | tick clock =>
      have henabled : s.clock ≤ clock := henabled
      exact ⟨⟨fun id arb hat => UInt64.le_trans (h.sound.active id arb hat) henabled,
        h.sound.history⟩, fun thread time hmem =>
          UInt64.le_trans (h.alerts thread time hmem) henabled⟩
  exact ⟨hinv, hage, hinv.sound.history⟩

omit [DecidableEq ι] in
/-- An expiry that meets something younger moves it to the history before its
detection. -/
theorem not_sane (hcond : ¬ MeetsNoYounger s e) (t : State ι β D) : ¬ Sane s e t := by
  intro hsane
  refine hcond fun m now he id arb hat hlt => ?_
  by_contra hage
  have hid : id ∈ m.toExpire now := (mem_toExpire m now).mpr ⟨arb, hat, UInt64.not_le.mp hage⟩
  exact absurd (hsane.1 m now he id hid arb hat).2 (UInt64.not_le.mpr hlt)

omit [DecidableEq ι] [LinearOrder D] in
theorem inv_construct (minProfitPercent : D) (historySize : Nat) (clock : UInt64) :
    Inv (construct ι β minProfitPercent historySize clock) where
  sound := ⟨fun id arb hat => by simp [construct, ArbitrageMonitor.construct] at hat, nofun⟩
  alerts := nofun

/-- In every run, lifetimes are sane exactly as long as no expiry meets an
opportunity younger than its own time. -/
theorem sane_iff_meetsNoYounger {minProfitPercent : D} {historySize : Nat} {clock : UInt64}
    {tr : List (Event ι D × State ι β D)}
    (h : IsRun State.Step (construct ι β minProfitPercent historySize clock) tr) :
    Always Sane (construct ι β minProfitPercent historySize clock) tr ↔
      Guarded MeetsNoYounger (construct ι β minProfitPercent historySize clock) tr :=
  h.always_iff_guarded Inv (fun _ _ _ hs hcond hstep => hs.step hcond hstep)
    (fun _ _ t _ hcond _ => not_sane hcond t) (inv_construct minProfitPercent historySize clock)

end Run

/-- A profit of one percent between two exchanges. -/
def onePercent : AggregatedOrderBook.ArbitrageOpportunity ℚ where
  symbol := lit "BTC-USD"
  buyExchange := .binance
  sellExchange := .kraken
  buyPrice := 100
  sellPrice := 101
  maxQuantity := 1
  profitPerUnit := 1
  profitPercentage := ((1 : ℚ) : WithTop ℚ)
  timestampNs := 1000

/-- A second detection falls into the alert callback of a first. -/
def overtaken : List (Event Bool ℚ) :=
  [.start, .setAlertCallback true, .detect false onePercent, .step false, .step false, .step false,
    .tick 1500, .detect true onePercent, .step true, .step true, .step true, .step false]

theorem sane_iff_meetsNoYounger_overtaken :
    Always Sane (construct Bool Unit (1 / 10 : ℚ) 1000 1000)
        (runOf State.next (construct Bool Unit (1 / 10 : ℚ) 1000 1000) overtaken) ↔
      Guarded MeetsNoYounger (construct Bool Unit (1 / 10 : ℚ) 1000 1000)
        (runOf State.next (construct Bool Unit (1 / 10 : ℚ) 1000 1000) overtaken) :=
  sane_iff_meetsNoYounger (isRun_runOf_of_enabled (by decide +kernel))

/-- The second opportunity moves to the history 500 nanoseconds before its detection. -/
theorem overtaken_not_sane :
    IsRun State.Step (construct Bool Unit (1 / 10 : ℚ) 1000 1000)
        (runOf State.next (construct Bool Unit (1 / 10 : ℚ) 1000 1000) overtaken) ∧
      ¬ Always Sane (construct Bool Unit (1 / 10 : ℚ) 1000 1000)
        (runOf State.next (construct Bool Unit (1 / 10 : ℚ) 1000 1000) overtaken) := by
  refine ⟨isRun_runOf_of_enabled (by decide +kernel), fun h => ?_⟩
  have hhistory : Throughout (fun t : State Bool Unit ℚ => ∀ entry ∈ t.monitor.history,
      entry.detectionTimeNs ≤ entry.expiryTimeNs) _ _ := Always.mono h fun _ _ _ hsane => hsane.2
  have hlast := hhistory.last nofun
  rw [lastState_runOf] at hlast
  revert hlast
  decide +kernel

end OrderbookEngine.Lifetimes
