import OrderbookEngine.Utils.RateLimiter

/-!
# When the token bucket keeps its rate

The tokens at hand, those of refills in progress and those that the rate has
earned since the last refill are the credit of the bucket. Time earns credit,
grants spend it, and nothing else adds to it as long as no refill claims the time
since a last refill later than its own clock reading. A grant made while the
credit is at most the capacity starts a span in which the rate is kept.
-/

namespace OrderbookEngine.RateLimiter

open Transition

/-- The tokens that a refill in progress has claimed and not yet added. -/
def claimed : ThreadPc → ℚ
  | .refillLoad _ toAdd | .refillCas _ toAdd _ => toAdd
  | _ => 0

variable {ι : Type} [Fintype ι]

/-- The tokens at hand, claimed by refills, and earned since the last refill. -/
def credit (s : State ι) : ℚ :=
  s.tokens + ∑ i, claimed (s.threads i) + earned s.ratePerSecond s.lastRefillNs s.clock

/-- A refill claims the time since a last refill no later than its own clock
reading, and a grant of some tokens finds a credit of at most the capacity. -/
def ThreadKeepsCredit (s : State ι) (spurious : Bool) : ThreadPc → Prop
  | .casLast _ now last => s.lastRefillNs = last → last ≤ now
  | .acquireCas needed current =>
    s.tokens = current ∧ spurious = false → 0 < needed → credit s ≤ s.capacity
  | _ => True

instance (s : State ι) (spurious : Bool) : (pc : ThreadPc) →
    Decidable (ThreadKeepsCredit s spurious pc)
  | .casLast _ now last => inferInstanceAs (Decidable (s.lastRefillNs = last → last ≤ now))
  | .acquireCas needed current => inferInstanceAs
      (Decidable (s.tokens = current ∧ spurious = false → 0 < needed → credit s ≤ s.capacity))
  | .idle | .readClock _ | .loadLast .. | .refillLoad .. | .refillCas .. | .acquireLoad _ =>
    isTrue trivial

/-- The step keeps the credit that its thread's place asks for. -/
def KeepsCredit (s : State ι) : Event ι → Prop
  | .step thread spurious => ThreadKeepsCredit s spurious (s.threads thread)
  | _ => True

instance (s : State ι) : (e : Event ι) → Decidable (KeepsCredit s e)
  | .step thread spurious =>
    inferInstanceAs (Decidable (ThreadKeepsCredit s spurious (s.threads thread)))
  | .tick _ | .call _ _ => isTrue trivial

/-- The locals of a thread make sense. -/
def LocalsOk (clock : UInt64) : ThreadPc → Prop
  | .loadLast _ now => now ≤ clock
  | .casLast _ now _ => now ≤ clock
  | .refillLoad _ toAdd | .refillCas _ toAdd _ => 0 ≤ toAdd
  | .acquireCas needed current => needed ≤ current
  | _ => True

/-- What steps that keep the credit preserve. -/
structure Inv (rate : ℚ) (cap : Nat) (s : State ι) : Prop where
  rate_eq : s.ratePerSecond = rate
  capacity_eq : s.capacity = cap
  tokens_nonneg : 0 ≤ s.tokens
  last_le : s.lastRefillNs ≤ s.clock
  locals : ∀ i, LocalsOk s.clock (s.threads i)
  times : ∀ grant ∈ s.grants, grant.1 ≤ s.clock
  bounded : RateBounded rate cap s
  /-- What was granted since a moment and what can still be granted. -/
  spent : ∀ start ≤ s.clock, grantedIn s.grants start s.clock = 0 ∨
    grantedIn s.grants start s.clock + credit s ≤ cap + earned rate start s.clock

section Earned

variable {rate : ℚ} {a b c : UInt64}

theorem earned_add : earned rate a b + earned rate b c = earned rate a c := by
  simp only [earned]
  ring

theorem earned_nonneg (hr : 0 ≤ rate) (h : a ≤ b) : 0 ≤ earned rate a b := by
  have hab : (a.toNat : ℚ) ≤ b.toNat := by exact_mod_cast UInt64.le_iff_toNat_le.mp h
  exact mul_nonneg hr (div_nonneg (sub_nonneg.mpr hab) (by norm_num))

/-- Without wrapping, a refill claims what the rate has earned. -/
theorem tokensToAdd_eq_earned (rate : ℚ) (h : a ≤ b) : tokensToAdd rate b a = earned rate a b := by
  have hsub : (b - a).toNat = b.toNat - a.toNat := UInt64.toNat_sub_of_le _ _ h
  have hab := UInt64.le_iff_toNat_le.mp h
  rw [tokensToAdd, hsub, Nat.cast_sub hab, earned, mul_comm]

end Earned

section Grants

variable {grants : List (UInt64 × Nat)} {start finish clock : UInt64}

/-- Nothing is granted after the present. -/
theorem grantedIn_of_le (start : UInt64) (h : ∀ grant ∈ grants, grant.1 ≤ clock)
    (hle : clock ≤ finish) :
    grantedIn grants start finish = grantedIn grants start clock := by
  have hfilter : grants.filter (fun grant => start ≤ grant.1 ∧ grant.1 ≤ finish) =
      grants.filter fun grant => start ≤ grant.1 ∧ grant.1 ≤ clock := by
    apply List.filter_congr
    intro grant hmem
    have hc := h grant hmem
    simp [hc, UInt64.le_trans hc hle]
  rw [grantedIn, grantedIn, hfilter]

/-- Nothing was granted from a moment that is still to come. -/
theorem grantedIn_of_lt (h : ∀ grant ∈ grants, grant.1 ≤ clock) (hlt : clock < start) :
    grantedIn grants start finish = 0 := by
  have hnil : grants.filter (fun grant => start ≤ grant.1 ∧ grant.1 ≤ finish) = [] := by
    apply List.filter_eq_nil_iff.mpr
    intro grant hmem
    have hnot : ¬ start ≤ grant.1 := UInt64.not_le.mpr (UInt64.lt_of_le_of_lt (h grant hmem) hlt)
    simp [hnot]
  rw [grantedIn, hnil]
  rfl

theorem grantedIn_cons_mem (needed : Nat) (hs : start ≤ clock) (hf : clock ≤ finish) :
    grantedIn ((clock, needed) :: grants) start finish =
      needed + grantedIn grants start finish := by
  simp [grantedIn, hs, hf]

theorem grantedIn_cons_not_mem (needed : Nat) (h : ¬ (start ≤ clock ∧ clock ≤ finish)) :
    grantedIn ((clock, needed) :: grants) start finish = grantedIn grants start finish := by
  simp [grantedIn, h]

theorem grantedIn_cons_zero (clock : UInt64) (grants : List (UInt64 × Nat))
    (start finish : UInt64) :
    grantedIn ((clock, 0) :: grants) start finish = grantedIn grants start finish := by
  by_cases hin : start ≤ clock ∧ clock ≤ finish
  · rw [grantedIn_cons_mem 0 hin.1 hin.2, Nat.zero_add]
  · exact grantedIn_cons_not_mem 0 hin

end Grants

section Steps

variable [DecidableEq ι] {rate : ℚ} {cap : Nat} {s : State ι}

/-- Moving one thread replaces what it claims. -/
theorem sum_claimed_update (threads : ι → ThreadPc) (i : ι) (pc : ThreadPc) :
    ∑ j, claimed (Function.update threads i pc j) =
      ∑ j, claimed (threads j) - claimed (threads i) + claimed pc := by
  have hold := Finset.sum_erase_add Finset.univ (fun j => claimed (threads j)) (Finset.mem_univ i)
  have hnew := Finset.sum_erase_add Finset.univ
    (fun j => claimed (Function.update threads i pc j)) (Finset.mem_univ i)
  have hrest : ∑ j ∈ Finset.univ.erase i, claimed (Function.update threads i pc j) =
      ∑ j ∈ Finset.univ.erase i, claimed (threads j) :=
    Finset.sum_congr rfl fun j hj => by rw [Function.update_of_ne (Finset.ne_of_mem_erase hj)]
  rw [hrest, Function.update_self] at hnew
  linarith

omit [DecidableEq ι] in
theorem sum_claimed_nonneg (h : Inv rate cap s) : 0 ≤ ∑ i, claimed (s.threads i) := by
  apply Finset.sum_nonneg
  intro i _
  have hlocals := h.locals i
  cases hpc : s.threads i <;> simp_all [claimed, LocalsOk]

omit [DecidableEq ι] in
/-- The tokens at hand are part of the credit. -/
theorem tokens_le_credit (hr : 0 ≤ rate) (h : Inv rate cap s) : s.tokens ≤ credit s := by
  have hclaimed := sum_claimed_nonneg h
  have hearned : 0 ≤ earned s.ratePerSecond s.lastRefillNs s.clock :=
    earned_nonneg (h.rate_eq ▸ hr) h.last_le
  unfold credit
  linarith

/-- The credit after one thread moved and the two words changed. -/
theorem credit_goto (i : ι) (pc : ThreadPc) (tokens : ℚ) (last : UInt64)
    (grants : List (UInt64 × Nat)) :
    credit ({ s with tokens := tokens, lastRefillNs := last, grants := grants }.goto i pc) =
      tokens + (∑ j, claimed (s.threads j) - claimed (s.threads i) + claimed pc) +
        earned s.ratePerSecond last s.clock := by
  rw [← sum_claimed_update]
  rfl

/-- A step that adds no credit and grants nothing keeps the invariant. -/
theorem Inv.move (h : Inv rate cap s) (i : ι) {pc : ThreadPc} {tokens : ℚ} {last : UInt64}
    (ht : 0 ≤ tokens) (hl : last ≤ s.clock) (hpc : LocalsOk s.clock pc)
    (hcredit : tokens + claimed pc + earned rate last s.clock ≤
      s.tokens + claimed (s.threads i) + earned rate s.lastRefillNs s.clock) :
    Inv rate cap ({ s with tokens := tokens, lastRefillNs := last }.goto i pc) := by
  have hle : credit ({ s with tokens := tokens, lastRefillNs := last }.goto i pc) ≤ credit s := by
    have hgoto := credit_goto (s := s) i pc tokens last s.grants
    rw [hgoto, credit, h.rate_eq]
    linarith
  refine ⟨h.rate_eq, h.capacity_eq, ht, hl, fun j => ?_, h.times, h.bounded, fun start hs => ?_⟩
  · by_cases hj : j = i
    · subst hj
      simpa [State.goto] using hpc
    · simpa [State.goto, hj] using h.locals j
  · rcases h.spent start hs with hz | hsum
    · exact Or.inl hz
    · exact Or.inr (le_trans (by simpa [State.goto] using hle) hsum)

/-- A step that only moves a thread keeps the invariant. -/
theorem Inv.goto (h : Inv rate cap s) (i : ι) {pc : ThreadPc} (hpc : LocalsOk s.clock pc)
    (hclaimed : claimed pc ≤ claimed (s.threads i)) : Inv rate cap (s.goto i pc) :=
  h.move i h.tokens_nonneg h.last_le hpc (by linarith)

/-- A grant that finds a credit of at most the capacity keeps the invariant. -/
theorem Inv.grant (hr : 0 ≤ rate) (h : Inv rate cap s) (i : ι) (needed : Nat)
    (hpc : claimed (s.threads i) = 0) (hneeded : needed ≤ s.tokens) (hcredit : credit s ≤ cap) :
    Inv rate cap ({ s with
      tokens := s.tokens - needed, grants := (s.clock, needed) :: s.grants }.goto i .idle) := by
  have hspend : credit ({ s with
      tokens := s.tokens - needed, grants := (s.clock, needed) :: s.grants }.goto i .idle) =
      credit s - needed := by
    have hgoto := credit_goto (s := s) i .idle (s.tokens - needed) s.lastRefillNs
      ((s.clock, needed) :: s.grants)
    rw [hgoto, credit, hpc]
    simp only [claimed]
    ring
  have hspent : ∀ start ≤ s.clock,
      (grantedIn ((s.clock, needed) :: s.grants) start s.clock : ℚ) + (credit s - needed) ≤
        cap + earned rate start s.clock := by
    intro start hs
    rw [grantedIn_cons_mem needed hs (UInt64.le_refl _)]
    rcases h.spent start hs with hz | hsum
    · have hearned := earned_nonneg hr hs
      rw [hz]
      push_cast
      linarith
    · push_cast
      linarith
  have hleft : 0 ≤ credit s - needed :=
    sub_nonneg.mpr (hneeded.trans (tokens_le_credit hr h))
  have htimes : ∀ grant ∈ (s.clock, needed) :: s.grants, grant.1 ≤ s.clock :=
    List.forall_mem_cons.mpr ⟨UInt64.le_refl _, h.times⟩
  refine ⟨h.rate_eq, h.capacity_eq, sub_nonneg.mpr hneeded, h.last_le, fun j => ?_, ?_, ?_, ?_⟩
  · by_cases hj : j = i
    · subst hj
      simp [State.goto, LocalsOk]
    · simpa [State.goto, hj] using h.locals j
  · exact htimes
  · intro start finish hle
    by_cases hnow : start ≤ s.clock ∧ s.clock ≤ finish
    · have hsame := grantedIn_of_le start htimes hnow.2
      have hearned := earned_nonneg hr hnow.2
      have hadd : earned rate start s.clock + earned rate s.clock finish =
          earned rate start finish := earned_add
      have hspent := hspent start hnow.1
      simp only [State.goto, hsame]
      linarith
    · simpa only [State.goto, grantedIn_cons_not_mem needed hnow] using h.bounded start finish hle
  · intro start hs
    right
    rw [hspend]
    exact hspent start hs

/-- A grant of no tokens keeps the invariant. -/
theorem Inv.grant_zero (h : Inv rate cap s) (i : ι) (hpc : claimed (s.threads i) = 0) :
    Inv rate cap ({ s with grants := (s.clock, 0) :: s.grants }.goto i .idle) := by
  have hidle : Inv rate cap (s.goto i .idle) := h.goto i trivial (le_of_eq hpc.symm)
  refine ⟨hidle.rate_eq, hidle.capacity_eq, hidle.tokens_nonneg, hidle.last_le, hidle.locals,
    List.forall_mem_cons.mpr ⟨UInt64.le_refl _, h.times⟩, fun start finish hle => ?_,
    fun start hs => ?_⟩
  · simp only [State.goto, grantedIn_cons_zero]
    exact h.bounded start finish hle
  · simp only [State.goto, grantedIn_cons_zero]
    exact hidle.spent start hs

omit [DecidableEq ι] in
/-- The passing of time earns credit and keeps the invariant. -/
theorem Inv.tick (h : Inv rate cap s) {clock : UInt64} (hle : s.clock ≤ clock) :
    Inv rate cap { s with clock := clock } := by
  have hcredit : credit { s with clock := clock } = credit s + earned rate s.clock clock := by
    have hadd : earned rate s.lastRefillNs s.clock + earned rate s.clock clock =
        earned rate s.lastRefillNs clock := earned_add
    simp only [credit, h.rate_eq, ← hadd]
    ring
  refine ⟨h.rate_eq, h.capacity_eq, h.tokens_nonneg, UInt64.le_trans h.last_le hle, fun i => ?_,
    fun grant hg => UInt64.le_trans (h.times grant hg) hle, h.bounded, fun start hs => ?_⟩
  · have hlocals := h.locals i
    cases hpc : s.threads i <;> simp only [hpc, LocalsOk] at hlocals ⊢
    · exact UInt64.le_trans hlocals hle
    · exact UInt64.le_trans hlocals hle
    · exact hlocals
    · exact hlocals
    · exact hlocals
  · rcases UInt64.le_or_lt start s.clock with hpast | hfuture
    · have hsame := grantedIn_of_le start h.times hle
      have hadd : earned rate start s.clock + earned rate s.clock clock =
          earned rate start clock := earned_add
      rcases h.spent start hpast with hz | hsum
      · exact Or.inl (hsame.trans hz)
      · right
        simp only [hsame]
        rw [hcredit]
        linarith
    · exact Or.inl (grantedIn_of_lt h.times hfuture)

omit [Fintype ι] [DecidableEq ι] in
/-- After a load or a failed exchange a refill claims no more than before. -/
theorem refillTest_ok (needed : Nat) {toAdd : ℚ} (current : ℚ) (hadd : 0 ≤ toAdd) :
    LocalsOk s.clock (s.refillTest needed toAdd current) ∧
      claimed (s.refillTest needed toAdd current) ≤ toAdd := by
  unfold State.refillTest
  split
  · exact ⟨hadd, le_refl _⟩
  · exact ⟨trivial, hadd⟩

theorem acquireTest_ok (clock : UInt64) (needed : Nat) (current : ℚ) :
    LocalsOk clock (State.acquireTest needed current) ∧
      claimed (State.acquireTest needed current) = 0 := by
  unfold State.acquireTest
  split
  · rename_i hge
    exact ⟨hge, rfl⟩
  · exact ⟨trivial, rfl⟩

/-- A step of a thread keeps the invariant when it keeps the credit. -/
theorem Inv.threadNext (hr : 0 ≤ rate) (h : Inv rate cap s) (i : ι) (spurious : Bool)
    (hkeeps : KeepsCredit s (.step i spurious)) : Inv rate cap (s.threadNext i spurious) := by
  have hlocals := h.locals i
  unfold State.threadNext
  simp only [KeepsCredit] at hkeeps
  cases hpc : s.threads i with
  | idle => exact h
  | readClock needed => exact h.goto i (UInt64.le_refl _) (by simp [hpc, claimed])
  | loadLast needed now =>
    simp only [hpc] at hlocals ⊢
    split
    · exact h.goto i trivial (by simp [hpc, claimed])
    · exact h.goto i hlocals (by simp [hpc, claimed])
  | casLast needed now last =>
    simp only [hpc] at hkeeps hlocals ⊢
    split
    · rename_i hsame
      have hle : last ≤ now := hkeeps hsame
      have hclaim := tokensToAdd_eq_earned s.ratePerSecond hle
      have hnonneg : 0 ≤ earned s.ratePerSecond last now := earned_nonneg (h.rate_eq ▸ hr) hle
      have hadd : earned rate last now + earned rate now s.clock = earned rate last s.clock :=
        earned_add
      apply h.move i h.tokens_nonneg hlocals (by simpa [LocalsOk, hclaim] using hnonneg)
      rw [hclaim, hsame, hpc, h.rate_eq]
      simp only [claimed]
      linarith
    · exact h.goto i trivial (by simp [hpc, claimed])
  | refillLoad needed toAdd =>
    simp only [hpc] at hlocals ⊢
    obtain ⟨hok, hle⟩ := refillTest_ok (s := s) needed s.tokens hlocals
    exact h.goto i hok (by rw [hpc]; exact hle)
  | refillCas needed toAdd current =>
    simp only [hpc] at hlocals ⊢
    have hadd : 0 ≤ toAdd := hlocals
    split
    · rename_i hcas
      have htokens := h.tokens_nonneg
      refine h.move i ?_ h.last_le trivial ?_
      · refine le_min (by rw [← hcas.1]; linarith) (by positivity)
      · have hmin := min_le_left (current + toAdd) (s.capacity : ℚ)
        rw [hpc]
        simp only [claimed]
        rw [hcas.1]
        linarith
    · obtain ⟨hok, hle⟩ := refillTest_ok (s := s) needed s.tokens hadd
      exact h.goto i hok (by rw [hpc]; exact hle)
  | acquireLoad needed =>
    obtain ⟨hok, hz⟩ := acquireTest_ok s.clock needed s.tokens
    exact h.goto i hok (by rw [hpc, hz]; exact le_refl _)
  | acquireCas needed current =>
    simp only [hpc] at hkeeps hlocals ⊢
    split
    · rename_i hcas
      have hclaimed : claimed (s.threads i) = 0 := by rw [hpc]; rfl
      rw [← hcas.1] at hlocals ⊢
      rcases Nat.eq_zero_or_pos needed with rfl | hpos
      · rw [Nat.cast_zero, sub_zero]
        exact h.grant_zero i hclaimed
      · have hcredit := hkeeps hcas hpos
        rw [h.capacity_eq] at hcredit
        exact h.grant hr i needed hclaimed hlocals hcredit
    · obtain ⟨hok, hz⟩ := acquireTest_ok s.clock needed s.tokens
      exact h.goto i hok (by rw [hpc, hz]; exact le_refl _)

/-- Every step that keeps the credit keeps the invariant. -/
theorem Inv.step (hr : 0 ≤ rate) (h : Inv rate cap s) {e : Event ι} {t : State ι}
    (hkeeps : KeepsCredit s e) (hstep : State.Step s e t) : Inv rate cap t := by
  obtain ⟨henabled, rfl⟩ := hstep
  cases e with
  | tick clock => exact h.tick henabled
  | call i needed =>
    have hidle : s.threads i = .idle := henabled
    exact h.goto i trivial (by simp [hidle, claimed])
  | step i spurious => exact h.threadNext hr i spurious hkeeps

end Steps

theorem inv_construct {rate : ℚ} {cap : Nat} (hr : 0 < rate) (hc : 1 ≤ cap) (now : UInt64) :
    Inv rate cap (construct ι rate cap now) where
  rate_eq := if_neg (not_le.mpr hr)
  capacity_eq := if_neg (Nat.one_le_iff_ne_zero.mp hc)
  tokens_nonneg := Nat.cast_nonneg cap
  last_le := UInt64.le_refl _
  locals _ := trivial
  times := by simp [construct]
  bounded start finish hle := by
    have hearned := earned_nonneg hr.le hle
    simp only [construct, grantedIn, List.filter_nil, List.map_nil, List.sum_nil, Nat.cast_zero]
    positivity
  spent _ _ := Or.inl rfl

/-- In a run that keeps the credit, every span of time stays within the capacity
and what the rate earns in it. -/
theorem rateBounded_of_keepsCredit [DecidableEq ι] (rate : ℚ) (cap : Nat) (hr : 0 < rate)
    (hc : 1 ≤ cap) (now : UInt64) (tr : List (Event ι × State ι))
    (hrun : IsRun State.Step (construct ι rate cap now) tr)
    (hkeeps : Guarded KeepsCredit (construct ι rate cap now) tr) :
    Throughout (RateBounded rate cap) (construct ι rate cap now) tr :=
  (hrun.invariant (Inv rate cap) (fun _ _ _ hs hk hst => hs.step hr.le hk hst) hkeeps
    (inv_construct hr hc now)).mono fun _ hs => hs.bounded

/-- The first thread takes the only token; a second later the other refills the
bucket and takes the new one. -/
def twoCalls : List (Event Bool) :=
  .call false 1 :: List.replicate 4 (.step false false) ++
    [.tick 1000000000, .call true 1] ++ List.replicate 7 (.step true false)

theorem rateBounded_twoCalls :
    Throughout (RateBounded 1 1) (construct Bool 1 1 0)
      (runOf State.next (construct Bool 1 1 0) twoCalls) := by
  refine rateBounded_of_keepsCredit 1 1 (by norm_num) (by norm_num) 0
    (runOf State.next (construct Bool 1 1 0) twoCalls)
    (isRun_runOf_of_enabled (by decide +kernel)) ?_
  decide +kernel

/-- The first thread reads the clock; the second refills and takes the token two
seconds later; the first then loads the second's refill time. -/
def lateLoad : List (Event Bool) :=
  [.call false 1, .step false false, .tick 2000000000] ++
    .call true 1 :: List.replicate 6 (.step true false) ++
    List.replicate 6 (.step false false)

/-- The difference of the times wraps, and the bucket grants two tokens at once. -/
theorem rateBounded_fails :
    ¬ ∀ tr : List (Event Bool × State Bool), IsRun State.Step (construct Bool 1 1 0) tr →
      Throughout (RateBounded 1 1) (construct Bool 1 1 0) tr := by
  intro h
  have hrun := h _ (isRun_runOf_of_enabled
    (show Guarded State.Enabled (construct Bool 1 1 0)
      (runOf State.next (construct Bool 1 1 0) lateLoad) by decide +kernel))
  have hlast := hrun.last (inv_construct (by norm_num) (by norm_num) 0).bounded
  have hspan := hlast 2000000000 2000000000 (by decide)
  rw [lastState_runOf] at hspan
  revert hspan
  decide +kernel

end OrderbookEngine.RateLimiter
