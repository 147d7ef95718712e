import OrderbookEngine.Persistence.RecorderSessions
import OrderbookEngine.Persistence.TruncatedReplay

/-!
# From `record` to the replay

Whatever the interleaving, an update that `record` has accepted was written by one session, or is
in the writer's hand or in the queue, and the sessions write the updates in the order of their
pushes. Each `start` truncates the file. So a replay of the file hands out what was accepted from
the first update of its session on, also when a crash cuts the file off. The replayer has to take
the file for a binary one before it opens it, and its constructor leaves that to chance.
-/

namespace OrderbookEngine.RecorderSessions

open Transition Bytes MarketDataRecorder MarketDataReplayer BinaryFormat TruncatedReplay

variable {ι U : Type}

/-- The update that a step pushes. -/
def State.accepts (s : State ι U) : Event ι U → List U
  | .recordPush call =>
    match s.calls call with
    | .pushing _ update => [update]
    | _ => []
  | _ => []

/-- The updates that a run pushes, in order. -/
def accepted : State ι U → List (Event ι U × State ι U) → List U
  | _, [] => []
  | s, (e, t) :: tr => s.accepts e ++ accepted t tr

/-- The updates that the sessions have written so far. -/
def State.recorded (s : State ι U) : List U := (List.range' 1 s.session).flatMap s.file

/-- Those of the sessions before the current one. -/
def State.earlier (s : State ι U) : List U := (List.range' 1 (s.session - 1)).flatMap s.file

/-- What is pushed was written, is in hand or in the queue, in this order; and the places of the
controller and of the writer. -/
structure Conserves (s : State ι U) (pushed : List U) : Prop where
  conserved : s.recorded ++ inHand s.writer ++ s.queue.map Prod.snd = pushed
  later : ∀ session > s.session, s.file session = []
  unstarted : s.session = 0 → s.recording = false ∧ s.controller = .idle ∧ s.writer = .absent
  starting : s.controller = .opening ∨ s.controller = .spawning →
    s.recording = true ∧ s.writer = .absent
  closing : s.controller = .closing → s.writer = .absent
  idle : s.controller = .idle → s.recording = false → s.writer = .absent

variable {s : State ι U} {pushed : List U}

theorem conserves_construct : Conserves (construct ι U) [] where
  conserved := rfl
  later _ _ := rfl
  unstarted _ := ⟨rfl, rfl, rfl⟩
  starting h := by simp [construct] at h
  closing h := by simp [construct] at h
  idle _ _ := rfl

/-- The current session comes last. -/
theorem flatMap_sessions {n : Nat} (h : n ≠ 0) (f : Nat → List U) :
    (List.range' 1 n).flatMap f = (List.range' 1 (n - 1)).flatMap f ++ f n := by
  obtain ⟨n, rfl⟩ := Nat.exists_eq_succ_of_ne_zero h
  rw [Nat.succ_sub_one, List.range'_1_concat, List.flatMap_append, List.flatMap_singleton,
    Nat.add_comm]

/-- The earlier sessions are those before the current one. -/
theorem flatMap_earlier_congr {f g : Nat → List U} {n : Nat} (h : ∀ i ≠ n, f i = g i) :
    (List.range' 1 (n - 1)).flatMap f = (List.range' 1 (n - 1)).flatMap g := by
  refine List.flatMap_congr fun i hi => h i ?_
  have := List.mem_range'_1.mp hi
  omega

/-- The writer moves updates towards the end of the current file. -/
theorem Conserves.writerNext (h : Conserves s pushed) (halive : s.WriterAlive) :
    Conserves s.writerNext pushed := by
  have hnotAbsent : s.writer ≠ .absent := by
    intro hw
    simp [State.WriterAlive, hw] at halive
  have hstarted : s.session ≠ 0 := fun h0 => hnotAbsent (h.unstarted h0).2.2
  have hmoves := writerNext_moves s
  have hfile (session : Nat) (hne : session ≠ s.session) := writerNext_file_of_ne s hne
  obtain ⟨queue, writer, file, heq⟩ := writerNext_frame s
  rw [heq] at hmoves hfile ⊢
  refine ⟨?_, ?_, ?_, ?_, ?_, ?_⟩
  · rw [← h.conserved, State.recorded, State.recorded]
    simp only [flatMap_sessions hstarted, flatMap_earlier_congr hfile,
      List.append_assoc] at hmoves ⊢
    rw [hmoves]
  · exact fun session hlt => (hfile session (Nat.ne_of_gt hlt)).trans (h.later session hlt)
  · exact fun h0 => absurd h0 hstarted
  · exact fun hc => absurd (h.starting hc).2 hnotAbsent
  · exact fun hc => absurd (h.closing hc) hnotAbsent
  · exact fun hc hr => absurd (h.idle hc hr) hnotAbsent

/-- A recorder that is recording has begun a session. -/
theorem Conserves.started (h : Conserves s pushed) (hr : s.recording = true) : s.session ≠ 0 := by
  intro h0
  rw [(h.unstarted h0).1] at hr
  cases hr

/-- A step that pushes nothing. -/
theorem Conserves.quiet {t : State ι U} (h : Conserves t pushed) {e : Event ι U}
    (he : s.accepts e = []) : Conserves t (pushed ++ s.accepts e) := by
  rw [he, List.append_nil]
  exact h

variable [DecidableEq ι]

/-- A push goes to the end of the queue. -/
theorem Conserves.recordPush (h : Conserves s pushed) {call : ι}
    (henabled : s.Enabled (.recordPush call)) :
    Conserves (s.next (.recordPush call)) (pushed ++ s.accepts (.recordPush call)) := by
  obtain ⟨session, update, hcall⟩ := henabled
  simp only [State.next, State.accepts, hcall]
  refine { h with conserved := ?_ }
  rw [← h.conserved, List.map_append, ← List.append_assoc]
  rfl

/-- A session begins with an empty file. -/
theorem Conserves.startExchange (h : Conserves s pushed) (henabled : s.Enabled .startExchange) :
    Conserves (s.next .startExchange) pushed := by
  by_cases hr : s.recording = true
  · simpa [State.next, hr] using h
  · have habsent := h.idle henabled (by simpa using hr)
    simp only [State.next, hr, Bool.false_eq_true, if_false]
    refine ⟨?_, ?_, ?_, ?_, ?_, ?_⟩
    · have hempty : s.file (s.session + 1) = [] := h.later _ (Nat.lt_succ_self _)
      rw [State.recorded, flatMap_sessions (Nat.succ_ne_zero _)]
      simp only [hempty, List.append_nil]
      exact h.conserved
    · exact fun session hlt => h.later session (Nat.lt_of_succ_lt hlt)
    · exact fun h0 => absurd h0 (Nat.succ_ne_zero _)
    · exact fun _ => ⟨rfl, habsent⟩
    · simp
    · simp

theorem Conserves.startOpen (h : Conserves s pushed) {opened : Bool}
    (henabled : s.Enabled (.startOpen opened)) : Conserves (s.next (.startOpen opened)) pushed := by
  have hopening : s.controller = .opening := henabled
  obtain ⟨hr, habsent⟩ := h.starting (Or.inl hopening)
  have hstarted := h.started hr
  cases opened with
  | true =>
    refine { h with unstarted := ?_, starting := ?_, closing := ?_, idle := ?_ }
    · exact fun h0 => absurd h0 hstarted
    · exact fun _ => ⟨hr, habsent⟩
    · simp [State.next]
    · simp [State.next]
  | false =>
    refine { h with unstarted := ?_, starting := ?_, closing := ?_, idle := ?_ }
    · exact fun h0 => absurd h0 hstarted
    · simp [State.next]
    · simp [State.next]
    · exact fun _ _ => habsent

/-- The writer starts with nothing in hand. -/
theorem Conserves.startSpawn (h : Conserves s pushed) (henabled : s.Enabled .startSpawn) :
    Conserves (s.next .startSpawn) pushed := by
  have hspawning : s.controller = .spawning := henabled
  obtain ⟨hr, habsent⟩ := h.starting (Or.inr hspawning)
  have hcur := h.conserved
  rw [habsent] at hcur
  refine { h with
    conserved := hcur, unstarted := ?_, starting := ?_, closing := ?_, idle := ?_ }
  · exact fun h0 => absurd h0 (h.started hr)
  · simp [State.next]
  · simp [State.next]
  · exact fun _ hrec => absurd (hr.symm.trans hrec) (by decide)

theorem Conserves.stopExchange (h : Conserves s pushed) :
    Conserves (s.next (.stopExchange : Event ι U)) pushed := by
  by_cases hr : s.recording = true
  · simp only [State.next, hr, if_true]
    refine { h with unstarted := ?_, starting := ?_, closing := ?_, idle := ?_ }
    · exact fun h0 => absurd h0 (h.started hr)
    · simp
    · simp
    · simp
  · simpa [State.next, hr] using h

/-- The writer that is joined has nothing in hand. -/
theorem Conserves.stopJoin (h : Conserves s pushed) (henabled : s.Enabled .stopJoin) :
    Conserves (s.next .stopJoin) pushed := by
  obtain ⟨hjoining, hfinished⟩ := henabled
  have hcur := h.conserved
  rw [hfinished] at hcur
  refine { h with
    conserved := hcur, unstarted := ?_, starting := ?_, closing := ?_, idle := ?_ }
  · intro h0
    have hidle := (h.unstarted h0).2.1
    rw [hjoining] at hidle
    cases hidle
  · simp [State.next]
  · exact fun _ => rfl
  · simp [State.next]

theorem Conserves.stopClose (h : Conserves s pushed) (henabled : s.Enabled .stopClose) :
    Conserves (s.next .stopClose) pushed := by
  have hclosing : s.controller = .closing := henabled
  have habsent := h.closing hclosing
  refine { h with unstarted := ?_, starting := ?_, closing := ?_, idle := ?_ }
  · exact fun h0 => ⟨(h.unstarted h0).1, rfl, habsent⟩
  · simp [State.next]
  · simp [State.next]
  · exact fun _ _ => habsent

/-- Every step adds at the end what it pushes. -/
theorem Conserves.step (h : Conserves s pushed) {e : Event ι U} {t : State ι U}
    (hstep : State.Step s e t) : Conserves t (pushed ++ s.accepts e) := by
  obtain ⟨henabled, rfl⟩ := hstep
  cases e with
  | recordTest call update =>
    have hnext : Conserves (s.next (.recordTest call update)) pushed := { h with }
    exact hnext.quiet rfl
  | recordPush call => exact h.recordPush henabled
  | startExchange => exact (h.startExchange henabled).quiet rfl
  | startOpen opened => exact (h.startOpen henabled).quiet rfl
  | startSpawn => exact (h.startSpawn henabled).quiet rfl
  | stopExchange => exact h.stopExchange.quiet rfl
  | stopJoin => exact (h.stopJoin henabled).quiet rfl
  | stopClose => exact (h.stopClose henabled).quiet rfl
  | writer => exact (h.writerNext henabled).quiet rfl

theorem Conserves.run (h : Conserves s pushed) {tr : List (Event ι U × State ι U)}
    (hrun : IsRun State.Step s tr) : Conserves (lastState s tr) (pushed ++ accepted s tr) := by
  induction tr generalizing s pushed with
  | nil =>
    rw [accepted, List.append_nil]
    exact h
  | cons x tr ih =>
    rw [accepted, ← List.append_assoc]
    exact ih (h.step hrun.1) hrun.2

/-- In every run, what the sessions have written, the writer's hand and the queue are what was
pushed: nothing is lost, written twice or out of order. -/
theorem recorded_accepted {tr : List (Event ι U × State ι U)}
    (hrun : IsRun State.Step (construct ι U) tr) :
    (lastState (construct ι U) tr).recorded ++ inHand (lastState (construct ι U) tr).writer ++
      (lastState (construct ι U) tr).queue.map Prod.snd = accepted (construct ι U) tr :=
  (conserves_construct.run hrun).conserved

theorem recorded_accepted_latePush :
    (lastState (construct Unit Nat)
        (runOf State.next (construct Unit Nat) latePush)).recorded ++
      inHand (lastState (construct Unit Nat)
        (runOf State.next (construct Unit Nat) latePush)).writer ++
      (lastState (construct Unit Nat)
        (runOf State.next (construct Unit Nat) latePush)).queue.map Prod.snd =
      accepted (construct Unit Nat) (runOf State.next (construct Unit Nat) latePush) :=
  recorded_accepted ⟨⟨rfl, rfl⟩, ⟨rfl, rfl⟩, ⟨rfl, rfl⟩, ⟨rfl, rfl⟩, ⟨rfl, rfl⟩, ⟨trivial, rfl⟩,
    ⟨trivial, rfl⟩, ⟨⟨rfl, rfl⟩, rfl⟩, ⟨rfl, rfl⟩, ⟨⟨1, 7, rfl⟩, rfl⟩, ⟨rfl, rfl⟩, ⟨rfl, rfl⟩,
    ⟨rfl, rfl⟩, ⟨trivial, rfl⟩, ⟨trivial, rfl⟩, ⟨trivial, rfl⟩, trivial⟩

section Replays

/-- What a replay of the bytes hands to the callback, opened with these locals when `format_` holds
a format. -/
def Delivers (format : RecordingFormat) (header : HeaderLocals) (locals : Nat → RecordLocals)
    (playback : Playback) (file : List UInt8) (updates : List RecordedUpdate) : Prop :=
  ∃ r, openFile header format file = some r ∧
    ∃ fuel delivered r', replay fuel locals playback r = some (delivered, r') ∧
      delivered.map (·.update) = updates

/-- When `format_` holds `BINARY` before `open`, a replay of the file hands out the accepted updates
that follow those of earlier sessions, each once and in order, and at most one record more; of a
whole file, all but those that are in hand or in the queue. Otherwise it hands out nothing. -/
structure Recovers (format : RecordingFormat) (header : HeaderLocals) (locals : Nat → RecordLocals)
    (playback : Playback) (s : State ι RecordedUpdate) (pushed : List RecordedUpdate)
    (file : List UInt8) : Prop where
  binary : format = .binary →
    ∃ complete cut, Delivers format header locals playback file (complete.map content ++ cut) ∧
      s.earlier ++ complete <+: pushed ∧ cut.length ≤ 1 ∧
        (file = recordedFile (s.file s.session) →
          cut = [] ∧ s.earlier ++ complete ++ inHand s.writer ++ s.queue.map Prod.snd = pushed)
  other : format ≠ .binary → Delivers format header locals playback file []

variable {format : RecordingFormat} {header : HeaderLocals} {locals : Nat → RecordLocals}
  {playback : Playback}

theorem completeRecords_prefix (n : Nat) (updates : List RecordedUpdate) :
    completeRecords n updates <+: updates := by
  induction updates generalizing n with
  | nil => exact List.prefix_refl _
  | cons update updates ih =>
    rw [completeRecords]
    split
    · exact (List.prefix_cons_inj update).mpr (ih _)
    · exact List.nil_prefix

theorem length_cutRecord (locals : RecordLocals) (bytes : List UInt8) :
    (cutRecord locals bytes).length ≤ 1 := by
  rw [cutRecord]
  exact Option.length_toList_le

variable (header locals playback) in
theorem delivers_recordedFile {updates : List RecordedUpdate} (hfits : ∀ u ∈ updates, Fits u) :
    Delivers .binary header locals playback (recordedFile updates) (updates.map content) := by
  obtain ⟨r, hopen, fuel, r', hreplay⟩ := replay_recording hfits header locals playback
  exact ⟨r, hopen, fuel, _, r', hreplay, map_update_paced ..⟩

variable (header locals playback) in
/-- What is left of a recording is replayed as its first updates, and at most one record more. -/
theorem delivers_prefix {updates : List RecordedUpdate} (hfits : ∀ u ∈ updates, Fits u)
    {file : List UInt8} (hcut : file <+: recordedFile updates) (hheader : 12 ≤ file.length) :
    ∃ complete cut, complete <+: updates ∧ cut.length ≤ 1 ∧
      (file = recordedFile updates → complete = updates ∧ cut = []) ∧
        Delivers .binary header locals playback file (complete.map content ++ cut) := by
  by_cases hwhole : file = recordedFile updates
  · refine ⟨updates, [], List.prefix_refl _, Nat.zero_le _, fun _ => ⟨rfl, rfl⟩, ?_⟩
    rw [hwhole, List.append_nil]
    exact delivers_recordedFile header locals playback hfits
  · obtain ⟨bytes, rfl⟩ : writeHeader .binary <+: file :=
      List.prefix_of_prefix_length_le (List.prefix_append _ _) hcut hheader
    obtain ⟨rest, hbytes, hincomplete⟩ :=
      exists_leftOver hfits ((List.prefix_append_right_inj _).mp hcut)
    have hcomplete := completeRecords_prefix bytes.length updates
    obtain ⟨fuel, hfuel⟩ := replay_records locals playback
      (r := ⟨writeHeader .binary ++ bytes, .binary, openStream bytes⟩) rfl
      (fun u hu => hfits u (hcomplete.subset hu)) hincomplete (congrArg openStream hbytes)
    exact ⟨_, _, hcomplete, length_cutRecord _ rest, fun h => absurd h hwhole, _,
      openFile_writeHeader header bytes, fuel, _, _, hfuel, map_update_paced ..⟩

variable (header locals playback) in
/-- In another format the header is not skipped and nothing is read. -/
theorem delivers_of_format (hformat : format ≠ .binary) (file : List UInt8) :
    Delivers format header locals playback file [] := by
  have hopen : openFile header format file = some ⟨file, format, openStream file⟩ := by
    rw [openFile, readHeader, if_neg hformat]
    rfl
  obtain ⟨fuel, hfuel⟩ := Loop.returns_of_result
    (replayStep_of_format hformat ⟨0, 0, 0, openStream file, []⟩)
  exact ⟨_, hopen, fuel, [], _, by rw [replay, hfuel, Option.map_some], rfl⟩

variable (format header locals playback) in
/-- After any run, and a crash that leaves the first bytes of the file, its replay recovers what
was accepted when the replayer takes the file for a binary one. -/
theorem recovers_accepted {tr : List (Event ι RecordedUpdate × State ι RecordedUpdate)}
    (hrun : IsRun State.Step (construct ι RecordedUpdate) tr)
    (hfits : ∀ u ∈ accepted (construct ι RecordedUpdate) tr, Fits u)
    {s : State ι RecordedUpdate} (hs : lastState (construct ι RecordedUpdate) tr = s)
    (hstarted : s.session ≠ 0) {file : List UInt8}
    (hcut : file <+: recordedFile (s.file s.session)) (hheader : 12 ≤ file.length) :
    Recovers format header locals playback s (accepted (construct ι RecordedUpdate) tr) file := by
  refine ⟨?_, fun hformat => delivers_of_format header locals playback hformat file⟩
  rintro rfl
  have hall := recorded_accepted hrun
  rw [hs, State.recorded, flatMap_sessions hstarted] at hall
  have hsession : ∀ u ∈ s.file s.session, Fits u := by
    intro u hu
    apply hfits u
    rw [← hall]
    simp [hu]
  obtain ⟨complete, cut, hcomplete, hlength, hwhole, hdelivers⟩ :=
    delivers_prefix header locals playback hsession hcut hheader
  refine ⟨complete, cut, hdelivers, ?_, hlength, fun hw => ?_⟩
  · refine List.IsPrefix.trans ((List.prefix_append_right_inj _).mpr hcomplete) ?_
    rw [← hall, List.append_assoc]
    exact List.prefix_append _ _
  · obtain ⟨rfl, rfl⟩ := hwhole hw
    exact ⟨rfl, hall⟩

/-- A session that has written one update. -/
def oneWritten : List (Event Unit RecordedUpdate) :=
  [.startExchange, .startOpen true, .startSpawn, .recordTest () shortRecord, .recordPush (),
    .writer, .writer, .writer]

/-- The file is cut off in the only record. -/
theorem recovers_accepted_oneWritten : Recovers .binary default (fun _ => default) ⟨0, fun _ => 0⟩
    (lastState (construct Unit RecordedUpdate)
      (runOf State.next (construct Unit RecordedUpdate) oneWritten))
    (accepted (construct Unit RecordedUpdate)
      (runOf State.next (construct Unit RecordedUpdate) oneWritten))
    ((recordedFile [shortRecord]).take 20) := by
  refine recovers_accepted _ _ _ _ ?_ ?_ rfl ?_ ?_ (by decide +kernel)
  · exact ⟨⟨rfl, rfl⟩, ⟨rfl, rfl⟩, ⟨rfl, rfl⟩, ⟨rfl, rfl⟩, ⟨⟨1, shortRecord, rfl⟩, rfl⟩,
      ⟨trivial, rfl⟩, ⟨trivial, rfl⟩, ⟨trivial, rfl⟩, trivial⟩
  · exact fits_shortRecord
  · exact Nat.one_ne_zero
  · exact List.take_prefix _ _

end Replays

end OrderbookEngine.RecorderSessions
