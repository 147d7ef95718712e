import OrderbookEngine.Core.SharedBook

/-!
# Snapshots under concurrency

The sequence has the parity of the number of writers at work. A round of
`get_snapshot` that returns is consistent exactly when no two writers were at
work as it began and the sequence did not wrap around while it read.
-/

namespace OrderbookEngine.OrderBook.Shared

open Prog Threads

variable {ι : Type} [DecidableEq ι]

/-- The schedule `before ++ r :: mid ++ [r]` ends with a round of the reader `r`:
the round's first turn is the load of `read_begin`, its last turn is the load of
`read_retry`, and it returns the snapshot. -/
structure Round (std : StdChoices) (maxLevels : Nat) (callers : ι → Caller) (before : List ι)
    (r : ι) (mid : List ι) (snapshot : OrderBookSnapshot) : Prop where
  begins : ((after std maxLevels callers before).prog r).resume
    ((callers r).again std maxLevels) = (callers r).prog std maxLevels
  goesOn : ∀ mid', mid' <+: mid →
    ((after std maxLevels callers (before ++ r :: mid')).prog r).isDone = false
  returns : (after std maxLevels callers (before ++ r :: mid ++ [r])).prog r =
    .done (.round (some snapshot))

/-- No writer is at work from `read_begin` to `read_retry`, and the snapshot is
what the book holds then. -/
def Consistent (std : StdChoices) (maxLevels : Nat) (callers : ι → Caller) (before : List ι)
    (r : ι) (mid : List ι) (depth : Nat) (timestamp : UInt64) (snapshot : OrderBookSnapshot) :
    Prop :=
  (∀ mid', mid' <+: mid → ∀ i, ¬ Writing std maxLevels callers (before ++ r :: mid') i) ∧
    snapshot =
      snapshotOf std maxLevels depth timestamp (after std maxLevels callers before).mem

/-- How often the sequence is added to in the turns of `sched` that follow `before`. -/
def increments (std : StdChoices) (maxLevels : Nat) (callers : ι → Caller) :
    List ι → List ι → Nat
  | _, [] => 0
  | before, i :: sched =>
    (if addsSequence (((after std maxLevels callers before).prog i).resume
        ((callers i).again std maxLevels)) then 1 else 0) +
      increments std maxLevels callers (before ++ [i]) sched

variable {std : StdChoices} {maxLevels : Nat} {callers : ι → Caller} {sched before mid : List ι}
  {i j r : ι}

section Windows

theorem increments_cons (std : StdChoices) (maxLevels : Nat) (callers : ι → Caller)
    (before : List ι) (i : ι) (mid : List ι) :
    increments std maxLevels callers before (i :: mid) =
      (if addsSequence (nextProg std maxLevels callers before i) then 1 else 0) +
        increments std maxLevels callers (before ++ [i]) mid := rfl

/-- The sequence counts what is added to it, modulo `2 ^ 64`. -/
theorem sequence_after_append (std : StdChoices) (maxLevels : Nat) (callers : ι → Caller)
    (before mid : List ι) :
    (after std maxLevels callers (before ++ mid)).mem .sequence =
      (after std maxLevels callers before).mem .sequence +
        UInt64.ofNat (increments std maxLevels callers before mid) := by
  induction mid generalizing before with
  | nil => simp [increments]
  | cons i mid ih =>
    rw [List.append_cons, ih, increments_cons]
    rcases turn_cases std maxLevels callers before i with hquiet | htoggles
    · rw [hquiet.sequence, hquiet.adds, if_neg (by decide), Nat.zero_add]
    · rw [htoggles.sequence, htoggles.adds, if_pos rfl, UInt64.ofNat_add, UInt64.add_assoc]
      rfl

/-- The sequence is odd exactly when the number of writers at work is. -/
theorem sequence_parity (std : StdChoices) (maxLevels : Nat) (callers : ι → Caller)
    (sched : List ι) : ∃ writers : Finset ι,
      (∀ i, i ∈ writers ↔ Writing std maxLevels callers sched i) ∧
      ((after std maxLevels callers sched).mem .sequence).toNat % 2 = writers.card % 2 := by
  induction sched using List.reverseRecOn with
  | nil => exact ⟨∅, fun i => iff_of_false (by simp) fun h => absurd h.2.1 (by simp), rfl⟩
  | append_singleton sched j ih =>
    obtain ⟨writers, hmem, hparity⟩ := ih
    rcases turn_cases std maxLevels callers sched j with ⟨-, hseq, hj, -⟩ | ⟨-, hseq, hj⟩
    · refine ⟨writers, fun i => ?_, hseq ▸ hparity⟩
      by_cases hij : i = j
      · rw [hij, hj, hmem]
      · rw [writing_snoc_of_ne hij, hmem]
    · have hodd : ((after std maxLevels callers (sched ++ [j])).mem .sequence).toNat % 2 =
          (writers.card + 1) % 2 := by
        rw [hseq, UInt64.toNat_add, UInt64.toNat_one]
        omega
      by_cases hwriting : Writing std maxLevels callers sched j
      · have hin := (hmem j).mpr hwriting
        refine ⟨writers.erase j, fun i => ?_, ?_⟩
        · by_cases hij : i = j
          · subst hij
            exact iff_of_false (Finset.notMem_erase i writers) fun h => hj.mp h hwriting
          · rw [writing_snoc_of_ne hij, Finset.mem_erase, hmem]
            exact and_iff_right hij
        · have hcard := Finset.card_erase_add_one hin
          omega
      · have hnot : j ∉ writers := fun h => hwriting ((hmem j).mp h)
        refine ⟨insert j writers, fun i => ?_, ?_⟩
        · by_cases hij : i = j
          · subst hij
            exact iff_of_true (Finset.mem_insert_self i writers) (hj.mpr hwriting)
          · rw [writing_snoc_of_ne hij, Finset.mem_insert, hmem]
            exact or_iff_right hij
        · rw [Finset.card_insert_of_notMem hnot]
          exact hodd

/-- With an even sequence the number of writers at work is even: when it is at most
one, it is zero. -/
theorem not_writing_of_even
    (heven : (after std maxLevels callers sched).mem .sequence &&& 1 = 0)
    (hone : ∀ i j, Writing std maxLevels callers sched i →
      Writing std maxLevels callers sched j → i = j) (i : ι) :
    ¬ Writing std maxLevels callers sched i := by
  intro hi
  obtain ⟨writers, hmem, hparity⟩ := sequence_parity std maxLevels callers sched
  have hsingle : writers = {i} :=
    Finset.eq_singleton_iff_unique_mem.mpr
      ⟨(hmem i).mpr hi, fun j hj => hone j i ((hmem j).mp hj) hi⟩
  rw [← UInt64.toNat_inj, UInt64.toNat_and, UInt64.toNat_one, Nat.and_one_is_mod] at heven
  rw [hsingle, Finset.card_singleton, heven] at hparity
  cases hparity

/-- While the sequence is left alone and no writer is at work, none begins and the
book does not change. -/
theorem quiet_of_increments (hnone : ∀ i, ¬ Writing std maxLevels callers before i)
    (hzero : increments std maxLevels callers before mid = 0) :
    ∀ mid', mid' <+: mid → (∀ i, ¬ Writing std maxLevels callers (before ++ mid') i) ∧
      (after std maxLevels callers (before ++ mid')).mem =
        (after std maxLevels callers before).mem := by
  induction mid generalizing before with
  | nil =>
    intro mid' hp
    rw [List.prefix_nil.mp hp, List.append_nil]
    exact ⟨hnone, rfl⟩
  | cons i mid ih =>
    intro mid' hp
    rw [increments_cons, Nat.add_eq_zero_iff] at hzero
    rcases turn_cases std maxLevels callers before i with ⟨-, -, hi, hmem⟩ | htoggles
    · have hnone' : ∀ j, ¬ Writing std maxLevels callers (before ++ [i]) j := by
        intro j
        by_cases hj : j = i
        · rw [hj, hi]
          exact hnone i
        · rw [writing_snoc_of_ne hj]
          exact hnone j
      cases mid' with
      | nil => exact ⟨by simpa using hnone, by simp⟩
      | cons i' mid' =>
        obtain ⟨rfl, hp'⟩ := List.cons_prefix_cons.mp hp
        have hrest := ih hnone' hzero.2 mid' hp'
        rw [List.append_cons]
        exact ⟨hrest.1, hrest.2.trans (hmem.resolve_left (hnone i'))⟩
    · rw [htoggles.adds] at hzero
      exact absurd hzero.1 (by decide)

/-- While no writer is at work, nothing is added to the sequence. -/
theorem increments_of_quiet
    (hquiet : ∀ mid', mid' <+: mid → ∀ i, ¬ Writing std maxLevels callers (before ++ mid') i) :
    increments std maxLevels callers before mid = 0 := by
  induction mid generalizing before with
  | nil => rfl
  | cons i mid ih =>
    have hrest := @ih (before ++ [i]) fun mid' hp j => by
      have h := hquiet (i :: mid') (List.cons_prefix_cons.mpr ⟨rfl, hp⟩) j
      rwa [List.append_cons] at h
    have hnow := hquiet [] (List.nil_prefix) i
    have hthen := hquiet [i] (List.cons_prefix_cons.mpr ⟨rfl, List.nil_prefix⟩) i
    rw [List.append_nil] at hnow
    rcases turn_cases std maxLevels callers before i with hquiet | htoggles
    · rw [increments_cons, hquiet.adds, hrest]
      rfl
    · exact absurd (htoggles.writing.mpr hnow) hthen

/-- A snapshot is returned only by a load that finds the sequence as it was. -/
def ReturnsAt (seq : UInt64) : Prog Cell Outcome → Prop
  | .done _ => True
  | .access c op k =>
    (∀ v snapshot, k v = .done (.round (some snapshot)) →
      c = .sequence ∧ op = .load ∧ v = seq) ∧ ∀ v, ReturnsAt seq (k v)

theorem isDone_bind_retry (seq : UInt64) (p : Prog Cell OrderBookSnapshot) :
    (p >>= retry seq).isDone = false := by
  cases p <;> rfl

theorem returnsAt_bind_retry (seq : UInt64) (p : Prog Cell OrderBookSnapshot) :
    ReturnsAt seq (p >>= retry seq) := by
  induction p with
  | done snapshot =>
    refine ⟨fun now snapshot' h => ⟨rfl, rfl, by_contra fun hne => ?_⟩, fun _ => trivial⟩
    dsimp only at h
    rw [if_pos hne] at h
    cases h
  | access c op k ih =>
    refine ⟨fun v snapshot h => ?_, ih⟩
    have hdone : (k v >>= retry seq).isDone = true := congrArg isDone h
    rw [isDone_bind_retry] at hdone
    cases hdone

variable {depth : Nat} {timestamp : UInt64} {snapshot : OrderBookSnapshot}

/-- The first turn of a round that goes on loads an even sequence. -/
theorem Round.first (hr : callers r = .reader depth timestamp)
    (h : Round std maxLevels callers before r mid snapshot) :
    (after std maxLevels callers before).mem .sequence &&& 1 = 0 ∧
      (after std maxLevels callers (before ++ [r])).mem =
        (after std maxLevels callers before).mem ∧
      (after std maxLevels callers (before ++ [r])).prog r =
        readBook std maxLevels depth timestamp >>=
          retry ((after std maxLevels callers before).mem .sequence) := by
  have hnext : nextProg std maxLevels callers before r = _ := h.begins
  rw [hr, reader_prog] at hnext
  have hgoes := h.goesOn [] List.nil_prefix
  have hprog : (after std maxLevels callers (before ++ [r])).prog r =
      if (after std maxLevels callers before).mem .sequence &&& 1 ≠ 0 then .done (.round none)
      else readBook std maxLevels depth timestamp >>=
        retry ((after std maxLevels callers before).mem .sequence) := by
    rw [after_snoc_of_access hnext]
    simp only [Function.update_self]
    rfl
  rw [hprog] at hgoes ⊢
  by_cases hodd : (after std maxLevels callers before).mem .sequence &&& 1 ≠ 0
  · rw [if_pos hodd] at hgoes
    cases hgoes
  · rw [if_neg hodd, after_snoc_of_access hnext]
    exact ⟨not_not.mp hodd, rfl, rfl⟩

/-- The last turn of a round is an access that returns the snapshot. -/
theorem Round.last (h : Round std maxLevels callers before r mid snapshot) :
    ∃ c op k, (after std maxLevels callers (before ++ r :: mid)).prog r = .access c op k ∧
      nextProg std maxLevels callers (before ++ r :: mid) r = .access c op k ∧
      k (op.result ((after std maxLevels callers (before ++ r :: mid)).mem c)) =
        .done (.round (some snapshot)) := by
  have hgoes := h.goesOn mid List.prefix_rfl
  have hreturns := h.returns
  cases hprog : (after std maxLevels callers (before ++ r :: mid)).prog r with
  | done a =>
    rw [hprog] at hgoes
    cases hgoes
  | access c op k =>
    have hnext : nextProg std maxLevels callers (before ++ r :: mid) r = .access c op k := by
      rw [nextProg, hprog, resume_access]
    rw [after_snoc_of_access hnext] at hreturns
    simp only [Function.update_self] at hreturns
    exact ⟨c, op, k, rfl, hnext, hreturns⟩

/-- Through a round, the reader's program is one access on at each of its turns. -/
theorem Round.prog_inv (h : Round std maxLevels callers before r mid snapshot)
    {P : List ι → Prog Cell Outcome → Prop}
    (hfirst : P [] ((after std maxLevels callers (before ++ [r])).prog r))
    (hother : ∀ mid' i p, mid' ++ [i] <+: mid → i ≠ r → P mid' p → P (mid' ++ [i]) p)
    (hturn : ∀ mid' c op k, mid' ++ [r] <+: mid →
      nextProg std maxLevels callers (before ++ r :: mid') r = .access c op k →
      P mid' (.access c op k) → P (mid' ++ [r])
        (k (op.result ((after std maxLevels callers (before ++ r :: mid')).mem c)))) :
    ∀ mid', mid' <+: mid → P mid' ((after std maxLevels callers (before ++ r :: mid')).prog r) := by
  intro mid'
  induction mid' using List.reverseRecOn with
  | nil => exact fun _ => hfirst
  | append_singleton mid' i ih =>
    intro hp
    have hpre := (List.prefix_append mid' [i]).trans hp
    have hnow := ih hpre
    have hsplit : before ++ r :: (mid' ++ [i]) = before ++ r :: mid' ++ [i] := by simp
    rw [hsplit]
    by_cases hi : i = r
    · subst hi
      have hgoes := h.goesOn mid' hpre
      cases hprog : (after std maxLevels callers (before ++ i :: mid')).prog i with
      | done a =>
        rw [hprog] at hgoes
        cases hgoes
      | access c op k =>
        have hnext : nextProg std maxLevels callers (before ++ i :: mid') i = .access c op k := by
          rw [nextProg, hprog, resume_access]
        rw [after_snoc_of_access hnext]
        simp only [Function.update_self]
        exact hturn mid' c op k hp hnext (hprog ▸ hnow)
    · rw [prog_after_snoc_of_ne (Ne.symm hi)]
      exact hother mid' i _ hp hi hnow

/-- The last turn of a round finds the sequence as the first turn did. -/
theorem Round.sequence_eq (hr : callers r = .reader depth timestamp)
    (h : Round std maxLevels callers before r mid snapshot) :
    (after std maxLevels callers (before ++ r :: mid)).mem .sequence =
      (after std maxLevels callers before).mem .sequence := by
  obtain ⟨-, -, hfirst⟩ := h.first hr
  have hinv := h.prog_inv
    (P := fun _ => ReturnsAt ((after std maxLevels callers before).mem .sequence))
    (hfirst ▸ returnsAt_bind_retry _ _) (fun _ _ _ _ _ hp => hp) (fun _ _ _ _ _ _ hp => hp.2 _)
    mid List.prefix_rfl
  obtain ⟨c, op, k, hprog, -, hreturns⟩ := h.last
  rw [hprog] at hinv
  obtain ⟨rfl, rfl, hv⟩ := hinv.1 _ _ hreturns
  exact hv

/-- When the book does not change during a round, the round returns what it holds. -/
theorem Round.snapshot_eq (hr : callers r = .reader depth timestamp)
    (h : Round std maxLevels callers before r mid snapshot)
    (hmem : ∀ mid', mid' <+: mid → (after std maxLevels callers (before ++ r :: mid')).mem =
      (after std maxLevels callers before).mem) :
    snapshot =
      snapshotOf std maxLevels depth timestamp (after std maxLevels callers before).mem := by
  obtain ⟨-, -, hfirst⟩ := h.first hr
  have hstep : ∀ mid' c op k, mid' <+: mid →
      nextProg std maxLevels callers (before ++ r :: mid') r = .access c op k →
      ((Prog.access c op k).run (after std maxLevels callers before).mem).1 =
        ((k (op.result ((after std maxLevels callers (before ++ r :: mid')).mem c))).run
          (after std maxLevels callers before).mem).1 := by
    intro mid' c op k hp hnext
    have hloads := reader_inv std maxLevels hr (before ++ r :: mid')
    rw [hnext] at hloads
    obtain rfl : op = .load := hloads.1
    rw [hmem mid' hp, run_access, write_load]
  have hinv := h.prog_inv (P := fun _ p => (p.run (after std maxLevels callers before).mem).1 =
      .round (some (snapshotOf std maxLevels depth timestamp
        (after std maxLevels callers before).mem)))
    (by rw [hfirst, run_bind, run_readBook, retry, run_access]; simp [Op.result])
    (fun _ _ _ _ _ hp => hp)
    (fun mid' c op k hp hnext hrun =>
      (hstep mid' c op k ((List.prefix_append mid' [r]).trans hp) hnext).symm.trans hrun)
    mid List.prefix_rfl
  obtain ⟨c, op, k, hprog, hnext, hreturns⟩ := h.last
  rw [hprog, hstep mid c op k List.prefix_rfl hnext, hreturns] at hinv
  simpa using hinv

/-- A round that returns is consistent exactly when at most one writer was at work
as it began and the sequence did not wrap around during it. -/
theorem consistent_iff (hr : callers r = .reader depth timestamp)
    (hround : Round std maxLevels callers before r mid snapshot) :
    Consistent std maxLevels callers before r mid depth timestamp snapshot ↔
      (∀ i j, Writing std maxLevels callers before i →
        Writing std maxLevels callers before j → i = j) ∧
      increments std maxLevels callers (before ++ [r]) mid < 2 ^ 64 := by
  obtain ⟨heven, hmem, -⟩ := hround.first hr
  have hsame : ∀ i, Writing std maxLevels callers (before ++ [r]) i ↔
      Writing std maxLevels callers before i := by
    intro i
    by_cases hi : i = r
    · subst hi
      exact iff_of_false (not_writing_of_reader std maxLevels hr _)
        (not_writing_of_reader std maxLevels hr _)
    · exact writing_snoc_of_ne hi
  constructor
  · rintro ⟨hquiet, -⟩
    have hzero : increments std maxLevels callers (before ++ [r]) mid = 0 :=
      increments_of_quiet fun mid' hp i => by
        have h := hquiet mid' hp i
        rwa [List.append_cons] at h
    rw [hzero]
    exact ⟨fun i j hi => absurd ((hsame i).mpr hi) (hquiet [] List.nil_prefix i), by decide⟩
  · rintro ⟨hone, hbound⟩
    have hnone := not_writing_of_even heven hone
    have hzero : increments std maxLevels callers (before ++ [r]) mid = 0 := by
      have hseq := sequence_after_append std maxLevels callers (before ++ [r]) mid
      rw [← List.append_cons, hround.sequence_eq hr, hmem, eq_comm, UInt64.add_eq_left] at hseq
      have hmod := congrArg UInt64.toNat hseq
      rw [UInt64.toNat_ofNat_of_lt' hbound] at hmod
      exact hmod
    have hquiet := quiet_of_increments (fun i => (hsame i).not.mpr (hnone i)) hzero
    refine ⟨fun mid' hp i => ?_, hround.snapshot_eq hr fun mid' hp => ?_⟩
    · rw [List.append_cons]
      exact (hquiet mid' hp).1 i
    · rw [List.append_cons, (hquiet mid' hp).2, hmem]

end Windows

/-- A thread without a turn has its whole program. -/
theorem prog_of_not_mem (h : i ∉ sched) :
    (after std maxLevels callers sched).prog i = (callers i).prog std maxLevels := by
  induction sched using List.reverseRecOn with
  | nil => rfl
  | append_singleton sched j ih =>
    rw [List.mem_append, not_or] at h
    rw [prog_after_snoc_of_ne fun hij => h.2 (by simp [hij])]
    exact ih h.1

/-- A round, from what can be computed of it. -/
theorem round_of_returned {snapshot : OrderBookSnapshot} (hnew : r ∉ before)
    (hgoes : ∀ mid' ∈ mid.inits,
      ((after std maxLevels callers (before ++ r :: mid')).prog r).isDone = false)
    (hreturns : ((after std maxLevels callers (before ++ r :: mid ++ [r])).prog r).returned =
      some (.round (some snapshot)))
    {depth : Nat} {timestamp : UInt64} (hr : callers r = .reader depth timestamp) :
    Round std maxLevels callers before r mid snapshot where
  begins := by
    rw [prog_of_not_mem hnew, hr, reader_prog, resume_access]
  goesOn mid' hp := hgoes mid' ((List.mem_inits mid' mid).mpr hp)
  returns := eq_done_of_returned hreturns

/-- A writer and a reader. -/
def writerAndReader : Fin 2 → Caller
  | 0 => .writer ⟨.bid, 1, 5, 1, 0⟩
  | 1 => .reader 1 0

/-- A round after a complete update is consistent. -/
theorem consistent_iff_afterUpdate :
    Consistent .stable 1 writerAndReader (List.replicate 14 0) 1 (List.replicate 6 1) 1 0
      ⟨[], .unknown, 0, 1, [⟨1, 5, 1⟩], []⟩ := by
  have hround : Round .stable 1 writerAndReader (List.replicate 14 0) 1 (List.replicate 6 1)
      ⟨[], .unknown, 0, 1, [⟨1, 5, 1⟩], []⟩ :=
    round_of_returned (by decide) (by decide +kernel) (by decide +kernel) rfl
  have hreader : writerAndReader 1 = .reader 1 0 := rfl
  refine (consistent_iff hreader hround).mpr ⟨fun i j hi hj => ?_, by decide +kernel⟩
  have hzero : ∀ i, Writing .stable 1 writerAndReader (List.replicate 14 0) i → i = 0 :=
    fun i h => List.eq_of_mem_replicate h.2.1
  rw [hzero i hi, hzero j hj]

/-- Two writers of bids and a reader. -/
def writersAndReader : Fin 3 → Caller
  | 0 => .writer ⟨.bid, 1, 5, 1, 0⟩
  | 1 => .writer ⟨.bid, 2, 7, 1, 0⟩
  | 2 => .reader 1 0

/-- With two writers at work the sequence is even, and a round returns a level whose
price is stored and whose quantity is not. -/
theorem consistent_fails :
    ¬ ∀ (ι : Type) [DecidableEq ι] (std : StdChoices) (maxLevels : Nat) (callers : ι → Caller)
      (before : List ι) (r : ι) (mid : List ι) (depth : Nat) (timestamp : UInt64)
      (snapshot : OrderBookSnapshot), callers r = .reader depth timestamp →
      Round std maxLevels callers before r mid snapshot →
      Consistent std maxLevels callers before r mid depth timestamp snapshot := by
  intro h
  have hround : Round .stable 1 writersAndReader (1 :: List.replicate 7 0) 2 (List.replicate 6 2)
      ⟨[], .unknown, 0, 0, [⟨1, 0, 0⟩], []⟩ :=
    round_of_returned (by decide) (by decide +kernel) (by decide +kernel) rfl
  have hwriting : Writing .stable 1 writersAndReader (1 :: List.replicate 7 0 ++ [2]) 0 :=
    ⟨⟨_, rfl⟩, by decide, by decide +kernel⟩
  have hreader : writersAndReader 2 = .reader 1 0 := rfl
  exact (h _ _ _ _ _ _ _ _ _ _ hreader hround).1 [] List.nil_prefix 0 hwriting

end OrderbookEngine.OrderBook.Shared
