import OrderbookEngine.Core.OrderBookBest

/-!
# Sequence numbers of snapshots

The sequence number counts the updates that returned true. An update that is refused
changes no level, but `clear` empties the book and does not count. Two snapshots with the
same number therefore agree exactly when every `clear` meets an empty book, as long as
the number does not come round.
-/

namespace OrderbookEngine.OrderBook

open Prog LastWrite

/-- Whether the call counts as an update. -/
def Call.counts (maxLevels : Nat) (m : Memory Cell) : Call → Bool
  | update u => ((updateLevel maxLevels u).run m).1
  | clear => false

/-- How many of the calls, made in turn, count as updates. -/
def countFrom (maxLevels : Nat) (m : Memory Cell) : List Call → Nat
  | [] => 0
  | c :: calls =>
    (if c.counts maxLevels m then 1 else 0) + countFrom maxLevels (c.run maxLevels m) calls

/-- How many updates a new book counts. -/
def countOf (maxLevels : Nat) (calls : List Call) : Nat := countFrom maxLevels construct calls

/-- Of any two snapshots that the run of the calls can take at one depth, those with equal
sequence numbers have equal bids and asks. -/
def NumbersIdentify (std : StdChoices) (maxLevels : Nat) (calls : List Call) : Prop :=
  ∀ before later, before <+: calls → later <+: calls →
    ∀ depth timestamp timestamp' snapshot snapshot',
      ((snapshotRound std maxLevels depth timestamp).run (bookAfter maxLevels before)).1 =
        some snapshot →
      ((snapshotRound std maxLevels depth timestamp').run (bookAfter maxLevels later)).1 =
        some snapshot' →
      snapshot.sequenceNumber = snapshot'.sequenceNumber →
      snapshot.bids = snapshot'.bids ∧ snapshot.asks = snapshot'.asks

/-- Every `clear` meets a book without levels. -/
def ClearsEmpty (maxLevels : Nat) (calls : List Call) : Prop :=
  ∀ before, before ++ [.clear] <+: calls →
    ∀ side, liveLevels maxLevels (bookAfter maxLevels before) side = []

/-- When the number has come round, the book holds again what it held. -/
def ComesRound (std : StdChoices) (maxLevels : Nat) (calls : List Call) : Prop :=
  ∀ before rest, before ++ rest <+: calls →
    countOf maxLevels before < countOf maxLevels (before ++ rest) →
    2 ^ 64 ∣ countOf maxLevels (before ++ rest) - countOf maxLevels before →
    ∀ side, sortedLevels std maxLevels (bookAfter maxLevels (before ++ rest)) side =
      sortedLevels std maxLevels (bookAfter maxLevels before) side

variable {std : StdChoices} {maxLevels : Nat} {m : Memory Cell} {side : Side}
  {calls before rest : List Call}

section Counting

theorem countFrom_append (maxLevels : Nat) (m : Memory Cell) (calls rest : List Call) :
    countFrom maxLevels m (calls ++ rest) = countFrom maxLevels m calls +
      countFrom maxLevels (calls.foldl (Call.run maxLevels) m) rest := by
  induction calls generalizing m with
  | nil => simp [countFrom]
  | cons c calls ih =>
    rw [List.cons_append, countFrom, countFrom, ih, List.foldl_cons, Nat.add_assoc]

theorem countOf_append (maxLevels : Nat) (calls rest : List Call) :
    countOf maxLevels (calls ++ rest) =
      countOf maxLevels calls + countFrom maxLevels (bookAfter maxLevels calls) rest :=
  countFrom_append ..

theorem countOf_append_singleton (maxLevels : Nat) (calls : List Call) (c : Call) :
    countOf maxLevels (calls ++ [c]) = countOf maxLevels calls +
      if c.counts maxLevels (bookAfter maxLevels calls) then 1 else 0 := by
  rw [countOf_append, countFrom, countFrom, Nat.add_zero]

theorem run_clear_sequenceNumber (maxLevels : Nat) (m : Memory Cell) :
    ((clear maxLevels).run m).2 .sequenceNumber = m .sequenceNumber := by
  have hlevels : ∀ m', ((clearLevels maxLevels 0).run m').2 .sequenceNumber =
      m' .sequenceNumber := fun m' =>
    Every.run_frame (T := (· = .sequenceNumber))
      ((clearLevels_frame maxLevels 0).mono (fun c op ⟨_, _, _, hl⟩ hc => by simp [hl] at hc)
        fun _ h => h) m' _ rfl
  have hindex : ∀ s m', ((PriceIndexMap.clear s).run m').2 .sequenceNumber =
      m' .sequenceNumber := fun s m' =>
    Every.run_frame (T := (· = .sequenceNumber))
      ((clearIndex_frame s).mono (fun c op ⟨_, _, hl⟩ hc => by simp [hl] at hc) fun _ h => h)
      m' _ rfl
  simp [clear, run_bind, run_store, writeUnlock, hlevels, hindex, writeLock]

/-- A call that counts, and no other, adds one to the sequence number. -/
theorem Call.run_sequenceNumber (maxLevels : Nat) (c : Call) (m : Memory Cell) :
    c.run maxLevels m .sequenceNumber =
      m .sequenceNumber + if c.counts maxLevels m then 1 else 0 := by
  cases c with
  | clear =>
    rw [Call.run, run_clear_sequenceNumber, Call.counts, if_neg (by decide), UInt64.add_zero]
  | update u =>
    have hframe : ((placeLevel maxLevels u).run m).2 .sequenceNumber = m .sequenceNumber :=
      placeLevel_frame maxLevels u m id
    rw [Call.run, Call.counts, run_updateLevel]
    cases ((placeLevel maxLevels u).run m).1 with
    | false => simp [hframe]
    | true => simp [committed, hframe]

/-- The sequence number is the count, modulo `2 ^ 64`. -/
theorem bookAfter_sequenceNumber (maxLevels : Nat) (calls : List Call) :
    bookAfter maxLevels calls .sequenceNumber = UInt64.ofNat (countOf maxLevels calls) := by
  induction calls using List.reverseRecOn with
  | nil => rfl
  | append_singleton calls c ih =>
    rw [bookAfter_append, Call.run_sequenceNumber, ih, countOf_append_singleton, UInt64.ofNat_add]
    split <;> rfl

theorem ofNat_eq_ofNat_iff {a b : Nat} (h : a ≤ b) :
    UInt64.ofNat a = UInt64.ofNat b ↔ 2 ^ 64 ∣ b - a := by
  rw [← UInt64.toNat_inj, UInt64.toNat_ofNat', UInt64.toNat_ofNat']
  exact Nat.modEq_iff_dvd' h

end Counting

section Unchanged

theorem sortedLevels_sequence (std : StdChoices) (maxLevels : Nat) (m : Memory Cell)
    (side : Side) (value : UInt64) :
    sortedLevels std maxLevels (Function.update m .sequence value) side =
      sortedLevels std maxLevels m side := by
  have hat : ∀ i, snapshotAt (Function.update m .sequence value) side i = snapshotAt m side i := by
    intro i
    simp [snapshotAt]
  simp [sortedLevels, pricesOf, hat]

theorem sortedLevels_eq_nil_iff :
    sortedLevels std maxLevels m side = [] ↔ liveLevels maxLevels m side = [] := by
  have hlength := (levelEntry_sortedLevels_perm std maxLevels m side).length_eq
  rw [List.length_map] at hlength
  rw [← List.length_eq_zero_iff, ← List.length_eq_zero_iff, hlength]

theorem liveLevels_clear (maxLevels : Nat) (m : Memory Cell) (side : Side) :
    liveLevels maxLevels ((clear maxLevels).run m).2 side = [] := by
  apply List.eq_nil_iff_forall_not_mem.mpr
  intro x hx
  obtain ⟨i, hi, hlive, -⟩ := mem_liveLevels.mp hx
  exact hlive (clear_level_price hi)

/-- A call that does not count leaves the levels alone, unless it clears some. -/
theorem Call.sortedLevels_run (hN : maxLevels < 2 ^ 64) {c : Call}
    (hc : c.counts maxLevels m = false)
    (hclear : c = .clear → ∀ side, liveLevels maxLevels m side = []) (side : Side) :
    sortedLevels std maxLevels (c.run maxLevels m) side = sortedLevels std maxLevels m side := by
  cases c with
  | clear =>
    rw [sortedLevels_eq_nil_iff.mpr (hclear rfl side)]
    exact sortedLevels_eq_nil_iff.mpr (liveLevels_clear maxLevels m side)
  | update u =>
    rw [Call.counts, updateLevel_returns] at hc
    rw [Call.run, run_updateLevel_of_false hN hc, sortedLevels_sequence]

/-- Without a call that counts, the levels stay what they are. -/
theorem ClearsEmpty.sortedLevels_eq (hN : maxLevels < 2 ^ 64)
    (h : ClearsEmpty maxLevels (before ++ rest))
    (hcount : countOf maxLevels (before ++ rest) = countOf maxLevels before) (side : Side) :
    sortedLevels std maxLevels (bookAfter maxLevels (before ++ rest)) side =
      sortedLevels std maxLevels (bookAfter maxLevels before) side := by
  induction rest using List.reverseRecOn with
  | nil => rw [List.append_nil]
  | append_singleton rest c ih =>
    rw [← List.append_assoc] at h hcount ⊢
    rw [countOf_append_singleton] at hcount
    have hle := Nat.le.intro (countOf_append maxLevels before rest).symm
    have hc : c.counts maxLevels (bookAfter maxLevels (before ++ rest)) = false := by
      by_contra hcounts
      rw [if_pos (Bool.of_not_eq_false hcounts)] at hcount
      omega
    rw [bookAfter_append, Call.sortedLevels_run hN hc]
    · apply ih
      · exact fun pre hpre => h pre (hpre.trans (List.prefix_append _ _))
      · omega
    · rintro rfl
      exact h _ (List.prefix_refl _)

end Unchanged

section Snapshots

/-- The two snapshots are those of the memories, and show all levels at some depth. -/
theorem numbersIdentify_iff_sortedLevels (std : StdChoices) (maxLevels : Nat)
    (calls : List Call) : NumbersIdentify std maxLevels calls ↔
      ∀ before rest, before ++ rest <+: calls →
        2 ^ 64 ∣ countOf maxLevels (before ++ rest) - countOf maxLevels before →
        ∀ side, sortedLevels std maxLevels (bookAfter maxLevels (before ++ rest)) side =
          sortedLevels std maxLevels (bookAfter maxLevels before) side := by
  have hle : ∀ before rest, countOf maxLevels before ≤ countOf maxLevels (before ++ rest) :=
    fun before rest => Nat.le.intro (countOf_append maxLevels before rest).symm
  have hround := fun depth timestamp calls =>
    congrArg Prod.fst (run_snapshotRound std maxLevels depth timestamp
      (even_bookAfter maxLevels calls))
  simp only [NumbersIdentify, hround, Option.some.injEq]
  constructor
  · intro h before rest hp hwrap
    have hnumber : bookAfter maxLevels before .sequenceNumber =
        bookAfter maxLevels (before ++ rest) .sequenceNumber := by
      rw [bookAfter_sequenceNumber, bookAfter_sequenceNumber]
      exact (ofNat_eq_ofNat_iff (hle before rest)).mpr hwrap
    have hbefore := (List.prefix_append before rest).trans hp
    obtain ⟨hbids, hasks⟩ := h before (before ++ rest) hbefore hp maxLevels 0 0 _ _ rfl rfl hnumber
    have hlength : ∀ m side, (sortedLevels std maxLevels m side).length ≤ maxLevels := by
      intro m side
      have hperm := (levelEntry_sortedLevels_perm std maxLevels m side).length_eq
      rw [List.length_map] at hperm
      exact hperm ▸ length_liveLevels_le m side
    simp only [snapshotOf, List.take_of_length_le (hlength _ _)] at hbids hasks
    intro side
    cases side with
    | bid => exact hbids.symm
    | ask => exact hasks.symm
  · rintro h before later hbefore hlater depth timestamp timestamp' _ _ rfl rfl hnumber
    have hagree : ∀ before rest, before ++ rest <+: calls →
        bookAfter maxLevels before .sequenceNumber =
          bookAfter maxLevels (before ++ rest) .sequenceNumber →
        ∀ side, sortedLevels std maxLevels (bookAfter maxLevels (before ++ rest)) side =
          sortedLevels std maxLevels (bookAfter maxLevels before) side := by
      intro before rest hp hnumber
      rw [bookAfter_sequenceNumber, bookAfter_sequenceNumber] at hnumber
      exact h before rest hp ((ofNat_eq_ofNat_iff (hle before rest)).mp hnumber)
    simp only [snapshotOf] at hnumber ⊢
    -- one of the two moments comes first
    rcases List.prefix_or_prefix_of_prefix hbefore hlater with ⟨rest, rfl⟩ | ⟨rest, rfl⟩
    · have heq := hagree before rest hlater hnumber
      rw [heq .bid, heq .ask]
      exact ⟨rfl, rfl⟩
    · have heq := hagree later rest hbefore hnumber.symm
      rw [heq .bid, heq .ask]
      exact ⟨rfl, rfl⟩

/-- A `clear` that takes levels away leaves two books with one number. -/
theorem NumbersIdentify.clearsEmpty (h : NumbersIdentify std maxLevels calls) :
    ClearsEmpty maxLevels calls := by
  intro before hp side
  have hcount : countOf maxLevels (before ++ [.clear]) = countOf maxLevels before :=
    countOf_append_singleton ..
  have hdvd : 2 ^ 64 ∣ countOf maxLevels (before ++ [.clear]) - countOf maxLevels before := by
    rw [hcount, Nat.sub_self]
    exact dvd_zero _
  have heq := (numbersIdentify_iff_sortedLevels std maxLevels calls).mp h before [.clear] hp hdvd
    side
  rw [bookAfter_append, Call.run, sortedLevels_eq_nil_iff.mpr (liveLevels_clear ..)] at heq
  exact sortedLevels_eq_nil_iff.mp heq.symm

/-- Below `2 ^ 64` updates the number does not come round. -/
theorem comesRound_of_lt (std : StdChoices) (h : countOf maxLevels calls < 2 ^ 64) :
    ComesRound std maxLevels calls := by
  rintro before rest ⟨more, rfl⟩ hlt hdvd
  have hle := countOf_append maxLevels (before ++ rest) more
  have hpos := Nat.le_of_dvd (by omega) hdvd
  omega

end Snapshots

/-- Equal numbers mean equal books exactly when every `clear` meets an empty book and the
book repeats itself whenever the number comes round. -/
theorem numbersIdentify_iff (std : StdChoices) (hN : maxLevels < 2 ^ 64) (calls : List Call) :
    NumbersIdentify std maxLevels calls ↔
      ClearsEmpty maxLevels calls ∧ ComesRound std maxLevels calls := by
  constructor
  · intro h
    have hlevels := (numbersIdentify_iff_sortedLevels std maxLevels calls).mp h
    exact ⟨h.clearsEmpty, fun before rest hp _ => hlevels before rest hp⟩
  · rintro ⟨hclears, hround⟩
    apply (numbersIdentify_iff_sortedLevels std maxLevels calls).mpr
    intro before rest hp hdvd
    by_cases hlt : countOf maxLevels before < countOf maxLevels (before ++ rest)
    · exact hround before rest hp hlt hdvd
    · have hle := countOf_append maxLevels before rest
      apply ClearsEmpty.sortedLevels_eq hN
      · exact fun pre hpre => hclears pre (hpre.trans hp)
      · omega

/-- A bid that is removed before the book is cleared. -/
def clearOfEmpty : List Call :=
  [.update ⟨.bid, 1, 5, 1, 0⟩, .update ⟨.bid, 1, 0, 0, 0⟩, .clear]

theorem numbersIdentify_iff_clearOfEmpty : NumbersIdentify .stable 1 clearOfEmpty := by
  refine (numbersIdentify_iff .stable (by decide) clearOfEmpty).mpr ⟨?_, ?_⟩
  · intro before hp side
    rcases before with _ | ⟨c, _ | ⟨c', _ | ⟨c'', before⟩⟩⟩
    · simp [clearOfEmpty] at hp
    · simp [clearOfEmpty] at hp
    · have hcalls : [c, c'] = [.update ⟨.bid, 1, 5, 1, 0⟩, .update ⟨.bid, 1, 0, 0, 0⟩] := by
        simpa [clearOfEmpty] using hp
      rw [hcalls]
      cases side <;> decide +kernel
    · simp [clearOfEmpty] at hp
  · exact comesRound_of_lt _ (by decide +kernel)

/-- `clear` takes a bid away and leaves the number what it was. -/
theorem numbersIdentify_fails :
    ¬ ∀ (std : StdChoices) (maxLevels : Nat) (calls : List Call), maxLevels < 2 ^ 64 →
      NumbersIdentify std maxLevels calls := by
  intro h
  have hclears := (h .stable 1 [.update ⟨.bid, 1, 5, 1, 0⟩, .clear] (by decide)).clearsEmpty
  have hempty := hclears [.update ⟨.bid, 1, 5, 1, 0⟩] (List.prefix_refl _) .bid
  revert hempty
  decide +kernel

end OrderbookEngine.OrderBook
