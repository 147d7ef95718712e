import OrderbookEngine.Core.OrderBookRefinement
import OrderbookEngine.Library.Interleaving

/-!
# A shared order book

Writers and readers of one book take turns, one access at a time. A write lock
adds to the sequence and excludes nobody. What a turn can do is said once: leave
the sequence alone, or begin or end the work of a writer.
-/

namespace OrderbookEngine.OrderBook.Shared

open Prog Threads

/-- A call of `update_level` or of `get_snapshot`, on a thread of its own. -/
inductive Caller where
  | writer (u : LevelUpdate)
  | reader (depth : Nat) (timestamp : UInt64)

/-- What a call, or one round of it, returns. -/
inductive Outcome where
  | updated (placed : Bool)
  | round (snapshot : Option OrderBookSnapshot)
  deriving DecidableEq

namespace Caller

/-- The program of a call; `get_snapshot` runs it once for each round. -/
def prog (std : StdChoices) (maxLevels : Nat) : Caller → Prog Cell Outcome
  | writer u => do return .updated (← updateLevel maxLevels u)
  | reader depth timestamp => do return .round (← snapshotRound std maxLevels depth timestamp)

/-- A round without a snapshot is followed by another. -/
def again (std : StdChoices) (maxLevels : Nat) (caller : Caller) :
    Outcome → Option (Prog Cell Outcome)
  | .round none => some (caller.prog std maxLevels)
  | .round (some _) => none
  | .updated _ => none

end Caller

variable {ι : Type} [DecidableEq ι]

/-- The calls on a new book after the turns of a schedule. -/
def after (std : StdChoices) (maxLevels : Nat) (callers : ι → Caller) (sched : List ι) :
    Threads ι Cell Outcome :=
  exec (fun i => (callers i).again std maxLevels)
    ⟨construct, fun i => (callers i).prog std maxLevels⟩ sched

/-- The writer is between its `write_lock` and its `write_unlock`, its first and
its last access. -/
def Writing (std : StdChoices) (maxLevels : Nat) (callers : ι → Caller) (sched : List ι)
    (i : ι) : Prop :=
  (∃ u, callers i = .writer u) ∧ i ∈ sched ∧
    ((after std maxLevels callers sched).prog i).isDone = false

/-- Whether the next access adds to the sequence. -/
def addsSequence : Prog Cell Outcome → Bool
  | .access .sequence (.fetchAdd _) _ => true
  | _ => false

variable {std : StdChoices} {maxLevels : Nat} {callers : ι → Caller} {sched : List ι}
  {i j : ι}

section Programs

/-- The next access to the sequence is the release of the write lock, and the last
access of the program. -/
def Releasing : Prog Cell Outcome → Prop
  | .done _ => False
  | .access c op k => c = .sequence ∧ op = .fetchAdd 1 ∧ (∀ v, ∃ b, k v = .done (.updated b)) ∨
      c ≠ .sequence ∧ ∀ v, Releasing (k v)

theorem Releasing.isDone {p : Prog Cell Outcome} (h : Releasing p) : p.isDone = false := by
  cases p with
  | done a => exact h.elim
  | access c op k => rfl

theorem releasing_bind {α : Type} {p : Prog Cell α} {f : α → Prog Cell Outcome}
    {Q : α → Prop} (hp : p.Every (fun c _ => c ≠ .sequence) Q) (hf : ∀ a, Releasing (f a)) :
    Releasing (p >>= f) := by
  induction p with
  | done a => exact hf a
  | access c op k ih => exact Or.inr ⟨hp.1, fun v => ih v (hp.2 v)⟩

/-- A writer locks and goes on with a program that releases the lock last. -/
theorem writer_prog (std : StdChoices) (maxLevels : Nat) (u : LevelUpdate) :
    ∃ rest, (Caller.writer u).prog std maxLevels =
      .access .sequence (.fetchAdd 1) (fun _ => rest) ∧ Releasing rest := by
  refine ⟨(placeLevel maxLevels u >>= finishUpdate maxLevels u.side) >>= fun b =>
    pure (.updated b), rfl, ?_⟩
  rw [Prog.bind_assoc]
  refine releasing_bind ((placeLevel_staysOn maxLevels u).mono (fun c op h hc => ?_)
    fun _ h => h) fun b => ?_
  · exact (hc ▸ h.1 : OfSide u.side .sequence)
  cases b with
  | false => exact Or.inl ⟨rfl, rfl, fun _ => ⟨false, rfl⟩⟩
  | true =>
    rw [finishUpdate, if_pos rfl, Prog.bind_assoc, updateBestLevel, Prog.bind_assoc]
    refine releasing_bind ((bestLevelLoop_loads u.side ..).mono (fun c op h hc => ?_)
      fun _ h => h) fun bestIndex => Or.inr ⟨by simp, fun _ =>
        Or.inr ⟨by simp, fun _ => Or.inl ⟨rfl, rfl, fun _ => ⟨true, rfl⟩⟩⟩⟩
    exact (hc ▸ h.1 : OnSide u.side .sequence)

theorem collectPrices_loads (side : Side) (n i : Nat) :
    (collectPrices side n i).Every (fun c op => c ≠ .sequence ∧ op = .load) fun _ => True := by
  induction n generalizing i with
  | zero => trivial
  | succ n ih =>
    apply every_load_bind ⟨nofun, rfl⟩
    intro price
    apply (ih (i + 1)).bind
    intro rest _
    split <;> trivial

theorem readLevels_loads (side : Side) (prices : List (UInt64 × Nat)) :
    (readLevels side prices).Every (fun c op => c ≠ .sequence ∧ op = .load)
      fun _ => True := by
  induction prices with
  | nil => trivial
  | cons x prices ih =>
    exact every_load_bind ⟨nofun, rfl⟩ fun _ => every_load_bind ⟨nofun, rfl⟩ fun _ =>
      every_load_bind ⟨nofun, rfl⟩ fun _ => ih.bind fun _ _ => trivial

/-- A round reads the book with loads only. -/
theorem readBook_loads (std : StdChoices) (maxLevels depth : Nat) (timestamp : UInt64) :
    (readBook std maxLevels depth timestamp).Every (fun c op => c ≠ .sequence ∧ op = .load)
      fun _ => True := by
  have hside : ∀ side, (readSide std maxLevels depth side).Every
      (fun c op => c ≠ .sequence ∧ op = .load) fun _ => True := fun side =>
    (collectPrices_loads side maxLevels 0).bind fun prices _ => readLevels_loads side _
  exact (hside .bid).bind fun _ _ => (hside .ask).bind fun _ _ =>
    every_load_bind ⟨nofun, rfl⟩ fun _ => trivial

/-- What a round does with the book it has read. -/
def retry (seq : UInt64) (snapshot : OrderBookSnapshot) : Prog Cell Outcome :=
  .access .sequence .load fun now =>
    .done (.round (if now ≠ seq then none else some snapshot))

/-- A reader loads the sequence and, when it is even, reads the book. -/
theorem reader_prog (std : StdChoices) (maxLevels depth : Nat) (timestamp : UInt64) :
    (Caller.reader depth timestamp).prog std maxLevels =
      .access .sequence .load fun seq =>
        if seq &&& 1 ≠ 0 then .done (.round none)
        else readBook std maxLevels depth timestamp >>= retry seq := by
  rw [Caller.prog, snapshotRound, Prog.bind_assoc, load_bind]
  refine congrArg (Prog.access Cell.sequence .load) (funext fun seq => ?_)
  by_cases hodd : seq &&& 1 ≠ 0
  · rw [if_pos hodd, if_pos hodd]
    rfl
  · rw [if_neg hodd, if_neg hodd, Prog.bind_assoc]
    refine congrArg (readBook std maxLevels depth timestamp >>= ·) (funext fun snapshot => ?_)
    rw [Prog.bind_assoc, load_bind]
    refine congrArg (Prog.access Cell.sequence .load) (funext fun now => ?_)
    by_cases hsame : now ≠ seq
    · rw [if_pos hsame, if_pos hsame]
      rfl
    · rw [if_neg hsame, if_neg hsame]
      rfl

theorem reader_loads (std : StdChoices) (maxLevels depth : Nat) (timestamp : UInt64) :
    ((Caller.reader depth timestamp).prog std maxLevels).Every (fun _ op => op = .load)
      fun _ => True := by
  rw [reader_prog]
  refine ⟨rfl, fun seq => ?_⟩
  dsimp only
  split
  · trivial
  · exact ((readBook_loads std maxLevels depth timestamp).mono (fun _ _ h => h.2)
      fun _ h => h).bind fun _ _ => ⟨rfl, fun _ => trivial⟩

end Programs

section Steps

theorem after_append (std : StdChoices) (maxLevels : Nat) (callers : ι → Caller)
    (sched sched' : List ι) : after std maxLevels callers (sched ++ sched') =
      exec (fun i => (callers i).again std maxLevels) (after std maxLevels callers sched) sched' :=
  exec_append ..

/-- The next program of a thread. -/
def nextProg (std : StdChoices) (maxLevels : Nat) (callers : ι → Caller) (sched : List ι)
    (i : ι) : Prog Cell Outcome :=
  ((after std maxLevels callers sched).prog i).resume ((callers i).again std maxLevels)

/-- A turn of a thread that has finished changes nothing. -/
theorem after_snoc_of_done {a : Outcome} (h : nextProg std maxLevels callers sched i = .done a) :
    after std maxLevels callers (sched ++ [i]) = after std maxLevels callers sched := by
  rw [after_append]
  change step (fun i => (callers i).again std maxLevels) _ i = _
  exact step_of_done h

theorem after_snoc_of_access {c : Cell} {op : Op} {k : UInt64 → Prog Cell Outcome}
    (h : nextProg std maxLevels callers sched i = .access c op k) :
    after std maxLevels callers (sched ++ [i]) =
      ⟨write (after std maxLevels callers sched).mem c op,
        Function.update (after std maxLevels callers sched).prog i
          (k (op.result ((after std maxLevels callers sched).mem c)))⟩ := by
  rw [after_append]
  change step (fun i => (callers i).again std maxLevels) _ i = _
  exact step_of_access h

theorem prog_after_snoc_of_ne (h : i ≠ j) :
    (after std maxLevels callers (sched ++ [j])).prog i =
      (after std maxLevels callers sched).prog i := by
  rw [after_append]
  change (step (fun i => (callers i).again std maxLevels) _ j).prog i = _
  exact prog_step_of_ne h

/-- A writer has its whole program before its first turn; after it, the writer has
the lock to release or has finished. -/
theorem writer_inv (std : StdChoices) (maxLevels : Nat) {u : LevelUpdate}
    (hi : callers i = .writer u) (sched : List ι) :
    (i ∉ sched → (after std maxLevels callers sched).prog i =
      (Caller.writer u).prog std maxLevels) ∧
    (i ∈ sched → Releasing ((after std maxLevels callers sched).prog i) ∨
      ∃ b, (after std maxLevels callers sched).prog i = .done (.updated b)) := by
  induction sched using List.reverseRecOn with
  | nil => exact ⟨fun _ => congrArg (Caller.prog std maxLevels) hi, nofun⟩
  | append_singleton sched j ih =>
    by_cases hij : i = j
    · subst hij
      refine ⟨fun hnot => absurd (by simp) hnot, fun _ => ?_⟩
      by_cases hmem : i ∈ sched
      · rcases ih.2 hmem with hrel | ⟨b, hdone⟩
        · cases hprog : (after std maxLevels callers sched).prog i with
          | done a => rw [hprog] at hrel; exact hrel.elim
          | access c op k =>
            rw [hprog] at hrel
            have hnext : nextProg std maxLevels callers sched i = .access c op k := by
              rw [nextProg, hprog, resume_access]
            rw [after_snoc_of_access hnext]
            simp only [Function.update_self]
            exact hrel.elim (fun hlast => Or.inr (hlast.2.2 _)) fun hmore => Or.inl (hmore.2 _)
        · have hnext : nextProg std maxLevels callers sched i = .done (.updated b) := by
            rw [nextProg, hdone]
            exact resume_done rfl
          rw [after_snoc_of_done hnext]
          exact Or.inr ⟨b, hdone⟩
      · obtain ⟨rest, hstart, hrel⟩ := writer_prog std maxLevels u
        have hnext : nextProg std maxLevels callers sched i =
            .access .sequence (.fetchAdd 1) fun _ => rest := by
          rw [nextProg, ih.1 hmem, hstart, resume_access]
        rw [after_snoc_of_access hnext]
        simp only [Function.update_self]
        exact Or.inl hrel
    · rw [prog_after_snoc_of_ne hij]
      simp only [List.mem_append, List.mem_singleton, hij, or_false]
      exact ih

/-- A reader only loads. -/
theorem reader_inv (std : StdChoices) (maxLevels : Nat) {depth : Nat} {timestamp : UInt64}
    (hi : callers i = .reader depth timestamp) (sched : List ι) :
    (nextProg std maxLevels callers sched i).Every (fun _ op => op = .load) fun _ => True := by
  have hresume : ∀ {p : Prog Cell Outcome}, p.Every (fun _ op => op = .load) (fun _ => True) →
      (p.resume ((callers i).again std maxLevels)).Every (fun _ op => op = .load)
        fun _ => True := by
    intro p hp
    rw [hi]
    cases p with
    | done a =>
      cases a with
      | updated b => trivial
      | round snapshot =>
        cases snapshot with
        | none => exact reader_loads std maxLevels depth timestamp
        | some snapshot => trivial
    | access c op k => exact hp
  apply hresume
  induction sched using List.reverseRecOn with
  | nil =>
    change ((callers i).prog std maxLevels).Every _ _
    rw [hi]
    exact reader_loads std maxLevels depth timestamp
  | append_singleton sched j ih =>
    by_cases hij : i = j
    · subst hij
      cases hnext : nextProg std maxLevels callers sched i with
      | done a =>
        rw [after_snoc_of_done hnext]
        exact ih
      | access c op k =>
        rw [after_snoc_of_access hnext]
        simp only [Function.update_self]
        have hloads := hresume ih
        rw [← nextProg, hnext] at hloads
        exact hloads.2 _
    · rw [prog_after_snoc_of_ne hij]
      exact ih

/-- A turn leaves the other threads writing or not. -/
theorem writing_snoc_of_ne (h : i ≠ j) :
    Writing std maxLevels callers (sched ++ [j]) i ↔ Writing std maxLevels callers sched i := by
  simp only [Writing, prog_after_snoc_of_ne h, List.mem_append, List.mem_singleton, h, or_false]

theorem not_writing_of_reader (std : StdChoices) (maxLevels : Nat) {depth : Nat}
    {timestamp : UInt64} (hi : callers i = .reader depth timestamp) (sched : List ι) :
    ¬ Writing std maxLevels callers sched i := by
  rintro ⟨⟨u, hu⟩, -⟩
  rw [hi] at hu
  cases hu

/-- A turn that leaves the sequence alone, and the book too unless its thread is a
writer at work. -/
structure TurnQuiet (std : StdChoices) (maxLevels : Nat) (callers : ι → Caller)
    (sched : List ι) (j : ι) : Prop where
  adds : addsSequence (nextProg std maxLevels callers sched j) = false
  sequence : (after std maxLevels callers (sched ++ [j])).mem .sequence =
    (after std maxLevels callers sched).mem .sequence
  writing : Writing std maxLevels callers (sched ++ [j]) j ↔
    Writing std maxLevels callers sched j
  mem : Writing std maxLevels callers sched j ∨
    (after std maxLevels callers (sched ++ [j])).mem = (after std maxLevels callers sched).mem

/-- A turn that adds to the sequence, to begin or to end a writer's work. -/
structure TurnToggles (std : StdChoices) (maxLevels : Nat) (callers : ι → Caller)
    (sched : List ι) (j : ι) : Prop where
  adds : addsSequence (nextProg std maxLevels callers sched j) = true
  sequence : (after std maxLevels callers (sched ++ [j])).mem .sequence =
    (after std maxLevels callers sched).mem .sequence + 1
  writing : Writing std maxLevels callers (sched ++ [j]) j ↔
    ¬ Writing std maxLevels callers sched j

theorem turnQuiet_of_reader {depth : Nat} {timestamp : UInt64}
    (hj : callers j = .reader depth timestamp) (sched : List ι) :
    TurnQuiet std maxLevels callers sched j := by
  have hno := not_writing_of_reader std maxLevels hj
  have hloads := reader_inv std maxLevels hj sched
  cases hnext : nextProg std maxLevels callers sched j with
  | done a =>
    have hsame := after_snoc_of_done hnext
    exact ⟨by rw [hnext]; rfl, by rw [hsame], iff_of_false (hno _) (hno _),
      Or.inr (by rw [hsame])⟩
  | access c op k =>
    rw [hnext] at hloads
    obtain rfl : op = .load := hloads.1
    have hafter := after_snoc_of_access hnext
    refine ⟨?_, by rw [hafter]; rfl, iff_of_false (hno _) (hno _), Or.inr (by rw [hafter]; rfl)⟩
    rw [hnext]
    cases c <;> rfl

theorem turnQuiet_of_finished {b : Bool}
    (hdone : (after std maxLevels callers sched).prog j = .done (.updated b)) :
    TurnQuiet std maxLevels callers sched j := by
  have hnext : nextProg std maxLevels callers sched j = .done (.updated b) := by
    rw [nextProg, hdone]
    exact resume_done rfl
  have hsame := after_snoc_of_done hnext
  have hno : ∀ {sched'}, after std maxLevels callers sched' = after std maxLevels callers sched →
      ¬ Writing std maxLevels callers sched' j := by
    rintro sched' he ⟨-, -, hgoing⟩
    rw [he, hdone] at hgoing
    cases hgoing
  exact ⟨by rw [hnext]; rfl, by rw [hsame], iff_of_false (hno hsame) (hno rfl),
    Or.inr (by rw [hsame])⟩

theorem turnToggles_of_lock {u : LevelUpdate} (hj : callers j = .writer u) (hmem : j ∉ sched) :
    TurnToggles std maxLevels callers sched j := by
  obtain ⟨rest, hstart, hrel⟩ := writer_prog std maxLevels u
  have hnext : nextProg std maxLevels callers sched j =
      .access .sequence (.fetchAdd 1) fun _ => rest := by
    rw [nextProg, (writer_inv std maxLevels hj sched).1 hmem, hstart, resume_access]
  have hafter := after_snoc_of_access hnext
  have hbegun : Writing std maxLevels callers (sched ++ [j]) j := by
    refine ⟨⟨u, hj⟩, by simp, ?_⟩
    rw [hafter]
    simp only [Function.update_self]
    exact hrel.isDone
  refine ⟨by rw [hnext]; rfl, ?_, iff_of_true hbegun fun hwriting => hmem hwriting.2.1⟩
  rw [hafter]
  exact write_self _ Cell.sequence (.fetchAdd 1)

/-- A writer at work releases its lock or goes on without touching the sequence. -/
theorem turn_of_writing {u : LevelUpdate} (hj : callers j = .writer u)
    (hwriting : Writing std maxLevels callers sched j)
    (hrel : Releasing ((after std maxLevels callers sched).prog j)) :
    TurnQuiet std maxLevels callers sched j ∨ TurnToggles std maxLevels callers sched j := by
  cases hprog : (after std maxLevels callers sched).prog j with
  | done a =>
    rw [hprog] at hrel
    exact hrel.elim
  | access c op k =>
    have hnext : nextProg std maxLevels callers sched j = .access c op k := by
      rw [nextProg, hprog, resume_access]
    have hafter := after_snoc_of_access hnext
    rw [hprog] at hrel
    rcases hrel with ⟨rfl, rfl, hlast⟩ | ⟨hc, hmore⟩
    · right
      refine ⟨by rw [hnext]; rfl, ?_, iff_of_false ?_ (not_not.mpr hwriting)⟩
      · rw [hafter]
        exact write_self _ Cell.sequence (.fetchAdd 1)
      · rintro ⟨-, -, hgoing⟩
        obtain ⟨b, hb⟩ := hlast (Op.result (.fetchAdd 1)
          ((after std maxLevels callers sched).mem .sequence))
        rw [hafter] at hgoing
        simp only [Function.update_self, hb, isDone_done] at hgoing
        cases hgoing
    · left
      refine ⟨?_, ?_, iff_of_true ⟨⟨u, hj⟩, by simp, ?_⟩ hwriting, Or.inl hwriting⟩
      · rw [hnext]
        cases c with
        | sequence => exact absurd rfl hc
        | _ => rfl
      · rw [hafter]
        exact write_of_ne _ op (Ne.symm hc)
      · rw [hafter]
        simp only [Function.update_self]
        exact (hmore _).isDone

/-- What a turn can do: leave the sequence alone, changing the book only for a
writer at work, or add to the sequence, to begin or to end a writer's work. -/
theorem turn_cases (std : StdChoices) (maxLevels : Nat) (callers : ι → Caller)
    (sched : List ι) (j : ι) :
    TurnQuiet std maxLevels callers sched j ∨ TurnToggles std maxLevels callers sched j := by
  cases hj : callers j with
  | reader depth timestamp => exact Or.inl (turnQuiet_of_reader hj sched)
  | writer u =>
    by_cases hmem : j ∈ sched
    · rcases (writer_inv std maxLevels hj sched).2 hmem with hrel | ⟨b, hdone⟩
      · exact turn_of_writing hj ⟨⟨u, hj⟩, hmem, hrel.isDone⟩ hrel
      · exact Or.inl (turnQuiet_of_finished hdone)
    · exact Or.inr (turnToggles_of_lock hj hmem)

end Steps

end OrderbookEngine.OrderBook.Shared
