import OrderbookEngine.Core.OrderBookRefinement
import OrderbookEngine.Library.Interleaving
import OrderbookEngine.Library.Serial

/-!
# Concurrent updates

Calls of `update_level` on one book take turns, one access at a time. Nothing
keeps their searches and stores apart. When, in some order of the calls, no turn
meets with a change what a later call has accessed, and every update of that
order finds its level, the levels are those that the calls leave in that order.
-/

namespace OrderbookEngine.OrderBook.Concurrent

open Prog LastWrite Transition

variable {ι : Type}

/-- The calls on a new book after the turns of a schedule. -/
def after [DecidableEq ι] (maxLevels : Nat) (calls : ι → LevelUpdate) (sched : List ι) :
    Threads ι Cell Bool :=
  Threads.exec (fun _ _ => none) ⟨construct, fun i => updateLevel maxLevels (calls i)⟩ sched

/-- What `update_level` does until its level is placed. -/
def placeUpdate (maxLevels : Nat) (u : LevelUpdate) : Prog Cell Bool := do
  writeLock
  placeLevel maxLevels u

/-- The placing parts of the calls before their first turn. -/
def placingStart (maxLevels : Nat) (calls : ι → LevelUpdate) : Logged ι Cell Bool :=
  ⟨construct, fun i => placeUpdate maxLevels (calls i), fun _ => []⟩

/-- In the order, no turn of a call that is placing its level meets a word of a slot
or of the index that a later call has accessed while placing its own, with a change
of the word by either. -/
def Unhindered [DecidableEq ι] (maxLevels : Nat) (calls : ι → LevelUpdate)
    (order sched : List ι) : Prop :=
  Guarded (fun s i => ∀ j, [i, j].Sublist order → Logged.Clear Tracked s i j)
    (placingStart maxLevels calls)
    (runOf (Logged.step Tracked) (placingStart maxLevels calls) sched)

/-- A list of all calls. -/
structure IsOrder (order : List ι) : Prop where
  nodup : order.Nodup
  complete : ∀ i, i ∈ order

/-- The calls of an order. -/
def callsOf (calls : ι → LevelUpdate) (order : List ι) : List Call :=
  order.map fun i => .update (calls i)

/-- The levels of both sides are those that the calls leave one after another in some
order, and list the last writes of that order. -/
def Serializable (maxLevels : Nat) (calls : ι → LevelUpdate) (m : Memory Cell) : Prop :=
  ∃ order, IsOrder order ∧ ∀ side,
    (liveLevels maxLevels m side).Perm
      (liveLevels maxLevels (bookAfter maxLevels (callsOf calls order)) side) ∧
    Lists (liveLevels maxLevels m side) (lastWrites side (callsOf calls order))

variable {maxLevels : Nat} {calls : ι → LevelUpdate} {order : List ι}

theorem updateLevel_eq (maxLevels : Nat) (u : LevelUpdate) :
    updateLevel maxLevels u = placeUpdate maxLevels u >>= finishUpdate maxLevels u.side := by
  rw [placeUpdate, Prog.bind_assoc]
  rfl

theorem placeUpdate_loads (maxLevels : Nat) (u : LevelUpdate) :
    (placeUpdate maxLevels u).Every (fun c op => op = .load → Tracked c) fun _ => True :=
  every_fetchAdd_bind nofun <|
    (placeLevel_staysOn maxLevels u).mono (fun _ _ h hload => ⟨_, h.2 hload⟩) fun _ h => h

section Placing

/-- A book and the placing parts of its calls: the words that decide the levels agree,
and each call still has to place its level or stores to none of these words. -/
structure Follows (maxLevels : Nat) (calls : ι → LevelUpdate) (t : Threads ι Cell Bool)
    (s : Logged ι Cell Bool) : Prop where
  mem : ∀ c, Tracked c → t.mem c = s.mem c
  prog : ∀ i, t.prog i = s.prog i >>= finishUpdate maxLevels (calls i).side ∨
    ∃ b, s.prog i = .done b ∧ (t.prog i).Every (fun c op => Tracked c → op = .load) (· = b)
  loads : Logged.LoadsIn Tracked s

variable {t : Threads ι Cell Bool} {s : Logged ι Cell Bool}

theorem follows_start (maxLevels : Nat) (calls : ι → LevelUpdate) :
    Follows maxLevels calls ⟨construct, fun i => updateLevel maxLevels (calls i)⟩
      (placingStart maxLevels calls) where
  mem _ _ := rfl
  prog i := Or.inl (updateLevel_eq maxLevels (calls i))
  loads i := placeUpdate_loads maxLevels (calls i)

/-- Once a call has placed its level, what is left of it stores to no level. -/
theorem Follows.settled (h : Follows maxLevels calls t s) {i : ι} {b : Bool}
    (hdone : s.prog i = .done b) :
    (t.prog i).Every (fun c op => Tracked c → op = .load) (· = b) := by
  rcases h.prog i with hprog | ⟨b', hdone', hevery⟩
  · rw [hprog, hdone]
    exact finishUpdate_frame maxLevels (calls i).side b
  · rw [hdone] at hdone'
    cases hdone'
    exact hevery

/-- A call that has returned has placed its level. -/
theorem Follows.isDone (h : Follows maxLevels calls t s) {i : ι} {b : Bool}
    (hdone : t.prog i = .done b) : (s.prog i).isDone = true := by
  rcases h.prog i with hprog | ⟨b', hdone', -⟩
  · cases hs : s.prog i with
    | done a => rfl
    | access c op k =>
      rw [hs, hdone] at hprog
      cases hprog
  · rw [hdone']
    rfl

/-- A call that is still placing its level makes the same access. -/
theorem Follows.prog_of_access (h : Follows maxLevels calls t s) {i : ι} {c : Cell} {op : Op}
    {k : UInt64 → Prog Cell Bool} (hs : s.prog i = .access c op k) :
    t.prog i = .access c op fun v => k v >>= finishUpdate maxLevels (calls i).side := by
  rcases h.prog i with hprog | ⟨b, hdone, -⟩
  · rw [hprog, hs]
    rfl
  · rw [hs] at hdone
    cases hdone

variable [DecidableEq ι]

private theorem step_of_returned {i : ι} {b : Bool} (ht : t.prog i = .done b) :
    t.step (fun _ _ => none) i = t :=
  Threads.step_of_done (by rw [ht]; exact resume_done rfl)

private theorem step_of_prog {i : ι} {c : Cell} {op : Op} {k : UInt64 → Prog Cell Bool}
    (ht : t.prog i = .access c op k) : t.step (fun _ _ => none) i =
      ⟨write t.mem c op, Function.update t.prog i (k (op.result (t.mem c)))⟩ :=
  Threads.step_of_access (by rw [ht, resume_access])

/-- A turn of a call is a turn of its placing part, or changes no level. -/
theorem Follows.step (h : Follows maxLevels calls t s) (i : ι) :
    Follows maxLevels calls (t.step (fun _ _ => none) i) (s.step Tracked i) := by
  refine ⟨?_, fun j => ?_, h.loads.step i⟩
  · cases hs : s.prog i with
    | done b =>
      have hevery := h.settled hs
      rw [Logged.step_of_done hs]
      cases ht : t.prog i with
      | done a =>
        rw [step_of_returned ht]
        exact h.mem
      | access c op k =>
        rw [ht] at hevery
        rw [step_of_prog ht]
        intro d hd
        rw [← h.mem d hd]
        by_cases hdc : d = c
        · subst hdc
          rw [hevery.1 hd]
          rfl
        · exact write_of_ne _ op hdc
    | access c op k =>
      rw [Logged.step_of_access hs, step_of_prog (h.prog_of_access hs)]
      exact write_congr h.mem c op
  · by_cases hji : j = i
    · subst hji
      cases hs : s.prog j with
      | done b =>
        have hevery := h.settled hs
        rw [Logged.step_of_done hs]
        right
        refine ⟨b, hs, ?_⟩
        cases ht : t.prog j with
        | done a =>
          rw [step_of_returned ht]
          exact hevery
        | access c op k =>
          rw [ht] at hevery
          rw [step_of_prog ht]
          simp only [Function.update_self]
          exact hevery.2 _
      | access c op k =>
        have hload := h.loads j
        rw [hs] at hload
        rw [Logged.step_of_access hs, step_of_prog (h.prog_of_access hs)]
        left
        simp only [Function.update_self]
        rw [result_congr_of_load h.mem hload.1]
    · rw [Threads.prog_step_of_ne hji, Logged.prog_step_of_ne hji]
      exact h.prog j

theorem follows_after (maxLevels : Nat) (calls : ι → LevelUpdate) (sched : List ι) :
    Follows maxLevels calls (after maxLevels calls sched)
      (Logged.exec Tracked (placingStart maxLevels calls) sched) := by
  induction sched using List.reverseRecOn with
  | nil => exact follows_start maxLevels calls
  | append_singleton sched i ih =>
    rw [Logged.exec_snoc, after, Threads.exec_append]
    exact ih.step i

end Placing

/-- One after another, the placing parts leave the levels that the calls leave. -/
theorem foldl_placeUpdate (maxLevels : Nat) (calls : ι → LevelUpdate) (order : List ι) :
    ∀ c, Tracked c → order.foldl (fun m i => ((placeUpdate maxLevels (calls i)).run m).2)
      construct c = bookAfter maxLevels (callsOf calls order) c := by
  induction order using List.reverseRecOn with
  | nil => exact fun _ _ => rfl
  | append_singleton order i ih =>
    intro c hc
    rw [callsOf, List.map_append, List.map_singleton, bookAfter_append, Call.run, updateLevel_eq,
      run_bind, (finishUpdate_frame ..).run_frame _ c hc, List.foldl_append]
    exact ((placeUpdate_loads maxLevels (calls i)).run_congr ih).2 c hc

theorem atMost_callsOf {side : Side} {pre : List Call} (hp : pre <+: callsOf calls order)
    (hslots : (order.countP fun i => (calls i).side = side) ≤ maxLevels) :
    AtMost maxLevels (lastWrites side pre) := by
  refine atMost_lastWrites ((order.filter fun i => (calls i).side = side).map fun i =>
    (calls i).priceFixed) ?_ fun u hu hside => ?_
  · rw [List.length_map, ← List.countP_eq_length_filter]
    exact hslots
  · obtain ⟨i, hi, he⟩ := List.mem_map.mp (hp.subset hu)
    cases he
    exact List.mem_map.mpr ⟨i, List.mem_filter.mpr ⟨hi, decide_eq_true hside⟩, rfl⟩

/-- Calls that all return in an unhindered run, in an order in which every update
finds its level, leave what they leave one after another. -/
theorem serializable_of_unhindered [DecidableEq ι] {maxLevels : Nat} (hN : maxLevels < 2 ^ 64)
    {calls : ι → LevelUpdate} (hprices : ∀ i, (calls i).priceFixed ≥ 1) {order : List ι}
    (horder : IsOrder order)
    (hslots : ∀ side, (order.countP fun i => (calls i).side = side) ≤ maxLevels) {sched : List ι}
    (hreturned : ∀ i, (after maxLevels calls sched).prog i = .done true)
    (hclear : Unhindered maxLevels calls order sched)
    (hfinds : ∀ pre i, pre ++ [i] <+: order →
      Finds maxLevels (bookAfter maxLevels (callsOf calls pre))
        (lastWrites (calls i).side (callsOf calls pre)) (calls i)) :
    Serializable maxLevels calls (after maxLevels calls sched).mem := by
  have hfollows := follows_after maxLevels calls sched
  have hserial := Logged.mem_eq_serial (follows_start maxLevels calls).loads horder.nodup
    (fun i _ => horder.complete i) (fun i _ => hfollows.isDone (hreturned i))
    fun pre i hp j hj => hclear.of_prefix hp j hj
  have hmem : ∀ c, Tracked c → (after maxLevels calls sched).mem c =
      bookAfter maxLevels (callsOf calls order) c := fun c hc =>
    ((hfollows.mem c hc).trans (hserial c hc)).trans (foldl_placeUpdate maxLevels calls order c hc)
  have hinv : BookInv maxLevels (callsOf calls order) := by
    refine bookInv_of_finds hN (fun u hu h0 => ?_)
      (fun pre hp side => atMost_callsOf hp (hslots side)) fun pre u hp => ?_
    · obtain ⟨i, -, he⟩ := List.mem_map.mp hu
      cases he
      have hone := hprices i
      rw [h0] at hone
      exact absurd hone (by decide)
    · obtain ⟨pre', hp', he⟩ := List.prefix_map_iff.mp hp
      obtain ⟨calls', last, rfl, rfl, hlast⟩ := List.append_eq_map_iff.mp he
      obtain ⟨i, rfl, hi⟩ := List.map_eq_singleton_iff.mp hlast
      cases hi
      exact hfinds calls' i hp'
  refine ⟨order, horder, fun side => ?_⟩
  have hsame : liveLevels maxLevels (after maxLevels calls sched).mem side =
      liveLevels maxLevels (bookAfter maxLevels (callsOf calls order)) side :=
    levelsOf_congr fun i _ field hf => hmem _ ⟨side, rfl, hf⟩
  rw [hsame]
  exact ⟨List.Perm.refl _, (hinv.side side).lists⟩

/-- A bid and an ask. -/
def bidAndAsk : Fin 2 → LevelUpdate
  | 0 => ⟨.bid, 1, 5, 1, 0⟩
  | 1 => ⟨.ask, 2, 7, 1, 0⟩

/-- A bid and an ask may be placed turn by turn. -/
theorem serializable_of_unhindered_bidAndAsk :
    Serializable 1 bidAndAsk
      (after 1 bidAndAsk (List.replicate 14 [(0 : Fin 2), 1]).flatten).mem := by
  have horder : IsOrder [(0 : Fin 2), 1] := ⟨by decide, by decide⟩
  have hdone : ∀ i, ((after 1 bidAndAsk (List.replicate 14 [(0 : Fin 2), 1]).flatten).prog
      i).returned = some true := by
    decide +kernel
  refine serializable_of_unhindered (by decide) (by decide) horder
    (fun side => by cases side <;> decide) (fun i => eq_done_of_returned (hdone i)) ?_
    fun pre i hp => Or.inr (Or.inl ?_)
  · unfold Unhindered
    decide +kernel
  · -- the calls before one of the order write to the other side
    obtain ⟨rest, hrest⟩ := hp
    match pre, hrest with
    | [], _ => rfl
    | [_], h =>
      cases h
      rfl
    | _ :: _ :: _, h => simp at h

/-- Two bids at different prices. -/
def twoBids : Fin 2 → LevelUpdate
  | 0 => ⟨.bid, 1, 5, 1, 0⟩
  | 1 => ⟨.bid, 2, 7, 1, 0⟩

/-- The first call finds a free slot, the second one takes it, and the first one
stores to it. -/
def overtaken : List (Fin 2) := List.replicate 3 0 ++ List.replicate 15 1 ++ List.replicate 12 0

/-- Two calls find the same free slot, and one of two prices is lost. -/
theorem serializable_fails :
    ¬ ∀ (ι : Type) [DecidableEq ι] (maxLevels : Nat) (calls : ι → LevelUpdate) (ids : List ι)
      (sched : List ι), maxLevels < 2 ^ 64 → (∀ i, (calls i).priceFixed ≥ 1) → IsOrder ids →
      (∀ side, (ids.countP fun i => (calls i).side = side) ≤ maxLevels) →
      (∀ i, (after maxLevels calls sched).prog i = .done true) →
      Serializable maxLevels calls (after maxLevels calls sched).mem := by
  intro h
  have hdone : ∀ i, ((after 2 twoBids overtaken).prog i).returned = some true := by
    decide +kernel
  obtain ⟨order, horder, hlevels⟩ := h (Fin 2) 2 twoBids [0, 1] overtaken (by decide) (by decide)
    ⟨by decide, by decide⟩
    (fun side => by cases side <;> decide) fun i => eq_done_of_returned (hdone i)
  have hperm : order.Perm [0, 1] :=
    (List.perm_ext_iff_of_nodup horder.nodup (by decide)).mpr fun i =>
      iff_of_true (horder.complete i) (by revert i; decide)
  have hwritten : ∀ o ∈ List.permutations' [(0 : Fin 2), 1],
      lastWrites .bid (callsOf twoBids o) 2 = some (7, 1) := by
    decide +kernel
  have hlisted := ((hlevels .bid).2.mem_iff 2 (7, 1)).mpr
    (hwritten order (List.mem_permutations'.mpr hperm))
  have hlive : liveLevels 2 (after 2 twoBids overtaken).mem .bid = [(1, 5, 1)] := by
    decide +kernel
  rw [hlive] at hlisted
  simp at hlisted

end OrderbookEngine.OrderBook.Concurrent
