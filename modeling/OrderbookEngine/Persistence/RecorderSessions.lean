import OrderbookEngine.Library.Transition

/-!
# Recording sessions

Producers, one controller and one writer thread at a time share the recording
flag and a queue that outlives the sessions. A call of `record` tests the flag
and pushes in two steps, so its push may come after the writer's last pop. A
session's file is complete when it stops as long as no push comes that late and
no session fails to open its file after a push.
-/

namespace OrderbookEngine.RecorderSessions

open Transition

/-- Where a call of `record` stands; a call that saw the flag remembers the
session whose flag it was. -/
inductive CallPc (U : Type) where
  | ready
  | pushing (session : Nat) (update : U)
  | returned (result : Bool)

/-- Where the controller stands: between calls, inside `start` after the flag
was exchanged or the file opened, inside `stop` after the flag was exchanged or
the writer joined. -/
inductive ControllerPc where
  | idle
  | opening
  | spawning
  | joining
  | closing
  deriving DecidableEq

/-- Where the writer thread stands in `writer_loop`. -/
inductive WriterPc (U : Type) where
  | absent
  | loading
  | popping
  | writing (update : U)
  | draining
  | drainWriting (update : U)
  | finished

/-- The shared state, and for each session what its stream wrote, the log of the
updates whose calls saw its flag, in the order of the pushes, and whether its
`stop` has returned. The recorder has one `filename_`, which each `start` opens
and truncates: on disk it holds `file n` until the next session opens it. -/
structure State (ι U : Type) where
  recording : Bool
  queue : List (Nat × U)
  controller : ControllerPc
  writer : WriterPc U
  calls : ι → CallPc U
  session : Nat
  file : Nat → List U
  pushed : Nat → List U
  stopped : Nat → Bool

/-- A recorder before its first session. -/
def construct (ι U : Type) : State ι U where
  recording := false
  queue := []
  controller := .idle
  writer := .absent
  calls := fun _ => .ready
  session := 0
  file := fun _ => []
  pushed := fun _ => []
  stopped := fun _ => false

/-- The atomic steps of `record`, `start`, `stop` and the writer thread. -/
inductive Event (ι U : Type) where
  | recordTest (call : ι) (update : U)
  | recordPush (call : ι)
  | startExchange
  | startOpen (opened : Bool)
  | startSpawn
  | stopExchange
  | stopJoin
  | stopClose
  | writer

namespace State

variable {ι U : Type}

/-- The writer thread was spawned and has not left its loops. -/
def WriterAlive (s : State ι U) : Prop :=
  match s.writer with
  | .absent | .finished => False
  | _ => True

/-- The current session will still pop what is pushed: its writer is about to be
spawned or has not made its last pop. -/
def Accepting (s : State ι U) : Prop :=
  s.controller = .opening ∨ s.controller = .spawning ∨ s.WriterAlive

/-- When each step can be taken. -/
def Enabled (s : State ι U) : Event ι U → Prop
  | .recordTest call _ => s.calls call = .ready
  | .recordPush call => ∃ session update, s.calls call = .pushing session update
  | .startExchange => s.controller = .idle
  | .startOpen _ => s.controller = .opening
  | .startSpawn => s.controller = .spawning
  | .stopExchange => s.controller = .idle
  | .stopJoin => s.controller = .joining ∧ s.writer = .finished
  | .stopClose => s.controller = .closing
  | .writer => s.WriterAlive

/-- `output_file_->write` of one update. -/
def write (s : State ι U) (update : U) : State ι U :=
  { s with file := Function.update s.file s.session (s.file s.session ++ [update]) }

/-- One step of `writer_loop`. -/
def writerNext (s : State ι U) : State ι U :=
  match s.writer with
  | .loading => { s with writer := if s.recording then .popping else .draining }
  | .popping =>
    match s.queue with
    | [] => { s with writer := .loading }
    | front :: rest => { s with queue := rest, writer := .writing front.2 }
  | .writing update => { s.write update with writer := .loading }
  | .draining =>
    match s.queue with
    | [] => { s with writer := .finished }
    | front :: rest => { s with queue := rest, writer := .drainWriting front.2 }
  | .drainWriting update => { s.write update with writer := .draining }
  | .absent | .finished => s

variable [DecidableEq ι]

/-- The state that a step leaves. -/
def next (s : State ι U) : Event ι U → State ι U
  | .recordTest call update =>
    { s with
      calls := Function.update s.calls call
        (if s.recording then .pushing s.session update else .returned false) }
  | .recordPush call =>
    match s.calls call with
    | .pushing session update =>
      { s with
        queue := s.queue ++ [(session, update)]
        calls := Function.update s.calls call (.returned true)
        pushed := Function.update s.pushed session (s.pushed session ++ [update]) }
    | _ => s
  | .startExchange =>
    if s.recording then s
    else { s with recording := true, controller := .opening, session := s.session + 1 }
  | .startOpen opened =>
    if opened then { s with controller := .spawning }
    else { s with recording := false, controller := .idle }
  | .startSpawn => { s with writer := .loading, controller := .idle }
  | .stopExchange =>
    if s.recording then { s with recording := false, controller := .joining } else s
  | .stopJoin => { s with writer := .absent, controller := .closing }
  | .stopClose =>
    { s with controller := .idle, stopped := Function.update s.stopped s.session true }
  | .writer => s.writerNext

/-- One atomic step. -/
def Step (s : State ι U) (e : Event ι U) (t : State ι U) : Prop := s.Enabled e ∧ t = s.next e

end State

variable {ι U : Type}

/-- Every file holds only updates of its own session, each once and in the order
of the pushes, and all of them once the session's `stop` has returned. -/
def FilesComplete (s : State ι U) : Prop :=
  ∀ session, s.file session <+: s.pushed session ∧
    (s.stopped session = true → s.file session = s.pushed session)

/-- A push finds the session whose flag its call saw still accepting, and a file
that cannot be opened has no update waiting for it. -/
def InSession (s : State ι U) : Event ι U → Prop
  | .recordPush call => ∀ session update, s.calls call = .pushing session update →
      session = s.session ∧ s.Accepting
  | .startOpen false => s.pushed s.session = []
  | _ => True

/-- The update that the writer has popped and not yet written. -/
def inHand : WriterPc U → List U
  | .writing update | .drainWriting update => [update]
  | _ => []

/-- What steps taken in their session preserve. -/
structure Inv (s : State ι U) : Prop where
  /-- The queue holds updates of the current session. -/
  queued : ∀ entry ∈ s.queue, entry.1 = s.session
  /-- The updates of the current session are written, in hand, or queued. -/
  current : s.file s.session ++ inHand s.writer ++ s.queue.map Prod.snd = s.pushed s.session
  /-- Every other file is complete. -/
  others : ∀ session ≠ s.session, s.file session = s.pushed session
  /-- Sessions to come are untouched. -/
  later : ∀ session > s.session, s.pushed session = [] ∧ s.stopped session = false
  /-- A session that accepts no more has emptied the queue and has not to be joined. -/
  quiet : ¬ s.Accepting → s.queue = []
  /-- A session whose `stop` returned accepts no more. -/
  stoppedQuiet : s.stopped s.session = true → ¬ s.Accepting
  starting : s.controller = .opening ∨ s.controller = .spawning →
    s.recording = true ∧ s.writer = .absent
  closing : s.controller = .closing → s.writer = .absent
  idle : s.controller = .idle → s.recording = false → s.writer = .absent

variable {s : State ι U}

/-- The invariant gives the contract of the files. -/
theorem Inv.filesComplete (h : Inv s) : FilesComplete s := by
  intro session
  by_cases hs : session = s.session
  · subst hs
    have hcur := h.current
    constructor
    · rw [← hcur, List.append_assoc]
      exact List.prefix_append _ _
    · intro hstop
      have hquiet := h.stoppedQuiet hstop
      have hhand : inHand s.writer = [] := by
        have hdead : ¬ s.WriterAlive := fun ha => hquiet (Or.inr (Or.inr ha))
        unfold State.WriterAlive at hdead
        cases hw : s.writer <;> simp_all [inHand]
      rw [hhand, h.quiet hquiet] at hcur
      simpa using hcur
  · rw [h.others session hs]
    exact ⟨List.prefix_refl _, fun _ => rfl⟩

theorem inv_construct : Inv (construct ι U) where
  queued := by simp [construct]
  current := rfl
  others _ _ := rfl
  later _ _ := ⟨rfl, rfl⟩
  quiet _ := rfl
  stoppedQuiet h := by simp [construct] at h
  starting h := by simp [construct] at h
  closing h := by simp [construct] at h
  idle _ _ := rfl

section Writer

/-- A step of the writer touches only the queue, the file and its own place. -/
theorem writerNext_frame (s : State ι U) :
    ∃ queue writer file,
      s.writerNext = { s with queue := queue, writer := writer, file := file } := by
  unfold State.writerNext
  split
  · exact ⟨_, _, _, rfl⟩
  · split <;> exact ⟨_, _, _, rfl⟩
  · exact ⟨_, _, _, rfl⟩
  · split <;> exact ⟨_, _, _, rfl⟩
  · exact ⟨_, _, _, rfl⟩
  · exact ⟨_, _, _, rfl⟩
  · exact ⟨_, _, _, rfl⟩

/-- Updates move from the queue through the writer's hand to the end of the file. -/
theorem writerNext_moves (s : State ι U) :
    s.writerNext.file s.session ++ inHand s.writerNext.writer ++ s.writerNext.queue.map Prod.snd =
      s.file s.session ++ inHand s.writer ++ s.queue.map Prod.snd := by
  unfold State.writerNext
  split <;> rename_i hw
  · cases hr : s.recording <;> simp [hw, inHand]
  · split <;> rename_i hq <;> simp [hw, hq, inHand]
  · simp [hw, inHand, State.write]
  · split <;> rename_i hq <;> simp [hw, hq, inHand]
  · simp [hw, inHand, State.write]
  · rw [hw]
  · rw [hw]

theorem writerNext_file_of_ne (s : State ι U) {session : Nat} (h : session ≠ s.session) :
    s.writerNext.file session = s.file session := by
  unfold State.writerNext
  split
  · rfl
  · split <;> rfl
  · exact Function.update_of_ne h _ _
  · split <;> rfl
  · exact Function.update_of_ne h _ _
  · rfl
  · rfl

theorem writerNext_queue (s : State ι U) : s.writerNext.queue <:+ s.queue := by
  unfold State.writerNext
  split
  · exact List.suffix_rfl
  · split <;> rename_i hq
    · exact List.suffix_rfl
    · exact hq ▸ List.suffix_cons _ _
  · exact List.suffix_rfl
  · split <;> rename_i hq
    · exact List.suffix_rfl
    · exact hq ▸ List.suffix_cons _ _
  · exact List.suffix_rfl
  · exact List.suffix_rfl
  · exact List.suffix_rfl

/-- The writer leaves its loops only when the queue is empty. -/
theorem writerNext_alive {s : State ι U} (h : s.WriterAlive) :
    s.writerNext.WriterAlive ∨ s.writerNext.queue = [] := by
  unfold State.writerNext
  split <;> rename_i hw
  · left
    cases hr : s.recording <;> simp [State.WriterAlive]
  · left
    split <;> simp [State.WriterAlive]
  · left
    simp [State.WriterAlive]
  · split <;> rename_i hq
    · exact Or.inr hq
    · left
      simp [State.WriterAlive]
  · left
    simp [State.WriterAlive]
  · simp [State.WriterAlive, hw] at h
  · simp [State.WriterAlive, hw] at h

/-- A step of the writer keeps the invariant. -/
theorem Inv.writerNext (h : Inv s) (halive : s.WriterAlive) : Inv s.writerNext := by
  have hmoves := writerNext_moves s
  have hfile (session : Nat) (hne : session ≠ s.session) := writerNext_file_of_ne s hne
  have hqueue := writerNext_queue s
  have hempty := writerNext_alive halive
  have hnotAbsent : s.writer ≠ .absent := by
    intro hw
    simp [State.WriterAlive, hw] at halive
  obtain ⟨queue, writer, file, heq⟩ := writerNext_frame s
  rw [heq] at hmoves hfile hqueue hempty ⊢
  refine ⟨fun e he => h.queued e (hqueue.subset he), hmoves.trans h.current,
    fun session hne => (hfile session hne).trans (h.others session hne), h.later,
    ?_, ?_, ?_, ?_, ?_⟩
  · intro hnot
    exact hempty.resolve_left fun ha => hnot (Or.inr (Or.inr ha))
  · intro hstop
    exact absurd (Or.inr (Or.inr halive)) (h.stoppedQuiet hstop)
  · exact fun hc => absurd (h.starting hc).2 hnotAbsent
  · exact fun hc => absurd (h.closing hc) hnotAbsent
  · exact fun hc hr => absurd (h.idle hc hr) hnotAbsent

end Writer

variable [DecidableEq ι]

section Calls

/-- A push in its session goes to the end of the queue and of what is to be written. -/
theorem Inv.recordPush (h : Inv s) {call : ι} (henabled : s.Enabled (.recordPush call))
    (hin : InSession s (.recordPush call)) :
    Inv (s.next (.recordPush call)) := by
  obtain ⟨session, update, hcall⟩ := henabled
  obtain ⟨rfl, haccepting⟩ := hin session update hcall
  simp only [State.next, hcall]
  refine { h with queued := ?_, current := ?_, others := ?_, later := ?_, quiet := ?_ }
  · simpa [or_imp, forall_and] using h.queued
  · simp [← h.current]
  · intro session hne
    simpa [hne] using h.others session hne
  · intro session hlt
    have hne : session ≠ s.session := Nat.ne_of_gt hlt
    simpa [hne] using h.later session hlt
  · exact fun hnot => absurd haccepting hnot

/-- `start` begins a session whose file and queue are empty. -/
theorem Inv.startExchange (h : Inv s) (henabled : s.Enabled .startExchange) :
    Inv (s.next .startExchange) := by
  by_cases hr : s.recording = true
  · simpa [State.next, hr] using h
  · have habsent := h.idle henabled (by simpa using hr)
    have hnot : ¬ s.Accepting := by
      simp only [State.Accepting, State.WriterAlive, habsent, or_false]
      have hidle : s.controller = .idle := henabled
      simp [hidle]
    have hqueue := h.quiet hnot
    simp only [State.next, hr, Bool.false_eq_true, if_false]
    refine ⟨?_, ?_, ?_, ?_, ?_, ?_, ?_, ?_, ?_⟩
    · simp [hqueue]
    · have hnew := (h.later (s.session + 1) (Nat.lt_succ_self _)).1
      have hfile := h.others (s.session + 1) (Nat.succ_ne_self _)
      simp [hqueue, habsent, inHand, hnew, hfile]
    · intro session hne
      by_cases hs : session = s.session
      · subst hs
        have hcur := h.current
        simpa [hqueue, habsent, inHand] using hcur
      · exact h.others session hs
    · exact fun session hlt => h.later session (Nat.lt_of_succ_lt hlt)
    · exact fun _ => hqueue
    · intro hstop
      rw [(h.later (s.session + 1) (Nat.lt_succ_self _)).2] at hstop
      cases hstop
    · exact fun _ => ⟨rfl, habsent⟩
    · simp
    · simp

/-- A file is opened, or there is nothing to write to it. -/
theorem Inv.startOpen (h : Inv s) {opened : Bool} (henabled : s.Enabled (.startOpen opened))
    (hin : InSession s (.startOpen opened)) :
    Inv (s.next (.startOpen opened)) := by
  have hopening : s.controller = .opening := henabled
  obtain ⟨hr, habsent⟩ := h.starting (Or.inl hopening)
  have haccepting : s.Accepting := Or.inl hopening
  have hstopped : s.stopped s.session ≠ true := fun hs => h.stoppedQuiet hs haccepting
  cases opened with
  | true =>
    refine { h with quiet := ?_, stoppedQuiet := ?_, starting := ?_, closing := ?_, idle := ?_ }
    · exact fun hnot => absurd (Or.inr (Or.inl rfl)) hnot
    · exact fun hs => absurd hs hstopped
    · exact fun _ => ⟨hr, habsent⟩
    · simp [State.next]
    · simp [State.next]
  | false =>
    have hempty : s.queue = [] := by
      have hcur := h.current
      rw [show s.pushed s.session = [] from hin] at hcur
      simpa using (List.append_eq_nil_iff.mp hcur).2
    refine { h with quiet := ?_, stoppedQuiet := ?_, starting := ?_, closing := ?_, idle := ?_ }
    · exact fun _ => hempty
    · exact fun hs => absurd hs hstopped
    · simp [State.next]
    · simp [State.next]
    · exact fun _ _ => habsent

/-- The writer starts with nothing in hand. -/
theorem Inv.startSpawn (h : Inv s) (henabled : s.Enabled .startSpawn) :
    Inv (s.next .startSpawn) := by
  have hspawning : s.controller = .spawning := henabled
  obtain ⟨hr, habsent⟩ := h.starting (Or.inr hspawning)
  have hstopped : s.stopped s.session ≠ true :=
    fun hs => h.stoppedQuiet hs (Or.inr (Or.inl hspawning))
  have hcur := h.current
  rw [habsent] at hcur
  refine { h with
    current := hcur, quiet := ?_, stoppedQuiet := ?_, starting := ?_, closing := ?_, idle := ?_ }
  · exact fun hnot => absurd (Or.inr (Or.inr trivial)) hnot
  · exact fun hs => absurd hs hstopped
  · simp [State.next]
  · simp [State.next]
  · exact fun _ hrec => absurd (hr.symm.trans hrec) (by decide)

/-- `stop` leaves the writer to its queue. -/
theorem Inv.stopExchange (h : Inv s) (henabled : s.Enabled .stopExchange) :
    Inv (s.next .stopExchange) := by
  have hidle : s.controller = .idle := henabled
  by_cases hr : s.recording = true
  · have hsame : ∀ t : State ι U, t = { s with recording := false, controller := .joining } →
        (t.Accepting ↔ s.Accepting) := by
      rintro t rfl
      simp [State.Accepting, State.WriterAlive, hidle]
    simp only [State.next, hr, if_true]
    refine { h with quiet := ?_, stoppedQuiet := ?_, starting := ?_, closing := ?_, idle := ?_ }
    · exact fun hnot => h.quiet fun ha => hnot ((hsame _ rfl).mpr ha)
    · exact fun hs ha => h.stoppedQuiet hs ((hsame _ rfl).mp ha)
    · simp
    · simp
    · simp
  · simpa [State.next, hr] using h

/-- The writer that is joined has emptied the queue. -/
theorem Inv.stopJoin (h : Inv s) (henabled : s.Enabled .stopJoin) :
    Inv (s.next .stopJoin) := by
  obtain ⟨hjoining, hfinished⟩ := henabled
  have hnot : ¬ s.Accepting := by
    simp [State.Accepting, State.WriterAlive, hjoining, hfinished]
  have hcur := h.current
  rw [hfinished] at hcur
  refine { h with
    current := hcur, quiet := ?_, stoppedQuiet := ?_, starting := ?_, closing := ?_, idle := ?_ }
  · exact fun _ => h.quiet hnot
  · simp [State.next, State.Accepting, State.WriterAlive]
  · simp [State.next]
  · exact fun _ => rfl
  · simp [State.next]

/-- The session whose file is closed is complete. -/
theorem Inv.stopClose (h : Inv s) (henabled : s.Enabled .stopClose) :
    Inv (s.next .stopClose) := by
  have hclosing : s.controller = .closing := henabled
  have habsent := h.closing hclosing
  have hnot : ¬ s.Accepting := by
    simp [State.Accepting, State.WriterAlive, hclosing, habsent]
  refine { h with
    later := ?_, quiet := ?_, stoppedQuiet := ?_, starting := ?_, closing := ?_, idle := ?_ }
  · intro session hlt
    have hne : session ≠ s.session := Nat.ne_of_gt hlt
    simpa [State.next, hne] using h.later session hlt
  · exact fun _ => h.quiet hnot
  · simp [State.next, State.Accepting, State.WriterAlive, habsent]
  · simp [State.next]
  · simp [State.next]
  · exact fun _ _ => habsent

end Calls

/-- A step taken in its session keeps the invariant. -/
theorem Inv.step (h : Inv s) {e : Event ι U} {t : State ι U} (hin : InSession s e)
    (hstep : State.Step s e t) : Inv t := by
  obtain ⟨henabled, rfl⟩ := hstep
  cases e with
  | recordTest call update => exact { h with }
  | recordPush call => exact h.recordPush henabled hin
  | startExchange => exact h.startExchange henabled
  | startOpen opened => exact h.startOpen henabled hin
  | startSpawn => exact h.startSpawn henabled
  | stopExchange => exact h.stopExchange henabled
  | stopJoin => exact h.stopJoin henabled
  | stopClose => exact h.stopClose henabled
  | writer => exact h.writerNext henabled

/-- In a run that makes every push in its session and opens every file that has
an update waiting, the files are complete throughout. -/
theorem filesComplete_of_inSession (tr : List (Event ι U × State ι U))
    (hrun : IsRun State.Step (construct ι U) tr) (hin : Guarded InSession (construct ι U) tr) :
    Throughout FilesComplete (construct ι U) tr :=
  (hrun.invariant Inv (fun _ _ _ hs hc hst => hs.step hc hst) hin inv_construct).mono
    fun _ hs => hs.filesComplete

/-- A session that records one update and stops. -/
def oneUpdate : List (Event Unit Nat) :=
  [.startExchange, .startOpen true, .startSpawn, .recordTest () 7, .recordPush (), .writer,
    .writer, .writer, .stopExchange, .writer, .writer, .stopJoin, .stopClose]

theorem filesComplete_oneUpdate :
    Throughout FilesComplete (construct Unit Nat)
      (runOf State.next (construct Unit Nat) oneUpdate) := by
  refine filesComplete_of_inSession (runOf State.next (construct Unit Nat) oneUpdate) ?_ ?_
  · exact ⟨⟨rfl, rfl⟩, ⟨rfl, rfl⟩, ⟨rfl, rfl⟩, ⟨rfl, rfl⟩, ⟨⟨1, 7, rfl⟩, rfl⟩, ⟨trivial, rfl⟩,
      ⟨trivial, rfl⟩, ⟨trivial, rfl⟩, ⟨rfl, rfl⟩, ⟨trivial, rfl⟩, ⟨trivial, rfl⟩,
      ⟨⟨rfl, rfl⟩, rfl⟩, ⟨rfl, rfl⟩, trivial⟩
  · refine ⟨trivial, trivial, trivial, trivial, ?_, trivial, trivial, trivial, trivial, trivial,
      trivial, trivial, trivial, trivial⟩
    rintro session update ⟨⟩
    exact ⟨rfl, Or.inr (Or.inr trivial)⟩

/-- The push comes after the writer's last pop, and a second session writes it. -/
def latePush : List (Event Unit Nat) :=
  [.startExchange, .startOpen true, .startSpawn, .recordTest () 7, .stopExchange, .writer,
    .writer, .stopJoin, .stopClose, .recordPush (), .startExchange, .startOpen true, .startSpawn,
    .writer, .writer, .writer]

theorem filesComplete_fails :
    ¬ ∀ tr : List (Event Unit Nat × State Unit Nat), IsRun State.Step (construct Unit Nat) tr →
      Throughout FilesComplete (construct Unit Nat) tr := by
  intro h
  have hrun : IsRun State.Step (construct Unit Nat)
      (runOf State.next (construct Unit Nat) latePush) :=
    ⟨⟨rfl, rfl⟩, ⟨rfl, rfl⟩, ⟨rfl, rfl⟩, ⟨rfl, rfl⟩, ⟨rfl, rfl⟩, ⟨trivial, rfl⟩, ⟨trivial, rfl⟩,
      ⟨⟨rfl, rfl⟩, rfl⟩, ⟨rfl, rfl⟩, ⟨⟨1, 7, rfl⟩, rfl⟩, ⟨rfl, rfl⟩, ⟨rfl, rfl⟩, ⟨rfl, rfl⟩,
      ⟨trivial, rfl⟩, ⟨trivial, rfl⟩, ⟨trivial, rfl⟩, trivial⟩
  have hlast := (h _ hrun).last inv_construct.filesComplete
  have hsecond : [7] <+: [] := (hlast 2).1
  exact absurd hsecond (by decide)

end OrderbookEngine.RecorderSessions
