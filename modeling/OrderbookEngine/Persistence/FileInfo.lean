import OrderbookEngine.Persistence.ReplayTermination

/-!
# The summary of a file

`get_file_info` seeks to byte 16, four bytes into the first record, and summarises what
the bytes from there on look like. Its position is restored, so that a replay
afterwards is what it would have been.
-/

namespace OrderbookEngine

open Bytes MarketDataRecorder MarketDataReplayer BinaryFormat Loop ReplayTermination

namespace FileInfo

/-- A replayer of a recording, at any position of the file. -/
structure Opened (updates : List RecordedUpdate) (r : Replayer) : Prop where
  fits : ∀ u ∈ updates, Fits u
  file : r.file = recordedFile updates
  position : r.stream.rest <:+ r.file
  flags : r.stream.eofbit = r.stream.failbit

/-- The first timestamp, the last one, and how many there are. -/
def summary (timestamps : List UInt64) : UInt64 × UInt64 × Nat :=
  (timestamps.headD 0, timestamps.getLastD 0, timestamps.length)

/-- `get_file_info` returns the summary of the records, and a replay after it is the same
as without it. -/
def Summarises (updates : List RecordedUpdate) (r : Replayer) : Prop :=
  ∀ locals, ∃ fuel r', getFileInfo fuel locals r =
      some (summary (updates.map (·.timestamp)), r') ∧
    ∀ n locals' playback, replay n locals' playback r' = replay n locals' playback r

/-- The timestamp of a record that is cut off after it. -/
def cutTimestamp (bytes : List UInt8) : List UInt64 :=
  if bytes.length < 8 then [] else [(leValue (bytes.take 8)).toUInt64]

/-- The bytes look like records with these timestamps, of which the last may be cut off. -/
def LooksLike (bytes : List UInt8) (timestamps : List UInt64) : Prop :=
  ∃ (records : List RecordedUpdate) (rest : List UInt8), (∀ u ∈ records, Fits u) ∧
    Incomplete rest ∧ bytes = records.flatMap writeBinary ++ rest ∧
    timestamps = records.map (·.timestamp) ++ cutTimestamp rest

/-- Without its first four bytes the data looks like as many records, with the same first
and last timestamp; a single record has the timestamp 0. -/
structure LooksAlike (updates : List RecordedUpdate) (timestamps : List UInt64) : Prop where
  looks : LooksLike ((updates.flatMap writeBinary).drop 4) timestamps
  count : timestamps.length = updates.length
  first : timestamps.head? = (updates.map (·.timestamp)).head?
  last : timestamps.getLast? = (updates.map (·.timestamp)).getLast?
  single : timestamps.length = 1 → timestamps = [0]

section Reading

variable {records : List RecordedUpdate} {rest : List UInt8} {locals : Nat → RecordLocals}

/-- Bytes without a complete record in front give at most a cut record, and end the
stream. -/
theorem readBinary_cutTimestamp (locals : RecordLocals) (h : Incomplete rest) :
    ∃ update : Option RecordedUpdate, readBinary locals (openStream rest) = (update, endedStream) ∧
      (update.map (·.timestamp)).toList = cutTimestamp rest := by
  rcases readBinary_incomplete locals h with ⟨hlt, hread⟩ | ⟨hle, update, hread, htime, -⟩
  · exact ⟨none, hread, (if_pos hlt).symm⟩
  · refine ⟨some update, hread, ?_⟩
    rw [cutTimestamp, if_neg (not_lt.mpr hle), ← htime]
    exact congrArg (fun t => [t]) UInt64.ofNat_toNat.symm

variable (locals) in
/-- The loop goes through the records, the last of which may be cut off. -/
theorem returns_infoStep (hfits : ∀ u ∈ records, Fits u) (hrest : Incomplete rest)
    (s : InfoState) (hs : s.stream = openStream (records.flatMap writeBinary ++ rest)) :
    Returns (infoStep locals) s
      ((records.map (·.timestamp) ++ cutTimestamp rest).getLastD s.endTime,
        s.count + (records.map (·.timestamp) ++ cutTimestamp rest).length, endedStream) := by
  induction records generalizing s with
  | nil =>
    rw [List.flatMap_nil, List.nil_append] at hs
    obtain ⟨update, hread, hcut⟩ := readBinary_cutTimestamp (locals s.reads) hrest
    rw [List.map_nil, List.nil_append, ← hcut]
    rw [← hs] at hread
    cases update with
    | none => exact returns_of_result (infoStep_of_none hread)
    | some update =>
      rw [returns_next_iff (infoStep_of_update hread)]
      exact returns_of_result (infoStep_of_none (readBinary_endedStream _))
  | cons record records ih =>
    rw [List.flatMap_cons, List.append_assoc] at hs
    have hread := readBinary_writeBinary (records.flatMap writeBinary ++ rest) (locals s.reads)
      (hfits record List.mem_cons_self)
    rw [← hs] at hread
    rw [returns_next_iff (infoStep_of_update hread), List.map_cons, List.cons_append,
      List.getLastD_cons, List.length_cons, ← Nat.add_assoc, Nat.add_right_comm]
    exact ih (fun u hu => hfits u (List.mem_cons_of_mem _ hu))
      ⟨s.reads + 1, record.timestamp, s.count + 1, _⟩ rfl

end Reading

section Info

variable {updates : List RecordedUpdate} {timestamps : List UInt64} {r : Replayer}

/-- What `get_file_info` returns for a file that looks like records with some timestamps:
the last timestamp is looked for after the first. -/
theorem getFileInfo_of_looksLike (locals : Nat → RecordLocals) (hstream : r.stream.failbit = false)
    (h : LooksLike (r.file.drop 16) timestamps) :
    ∃ fuel, getFileInfo fuel locals r =
      some ((timestamps.headD 0, timestamps.tail.getLastD 0, timestamps.length),
        { r with stream := openStream (r.file.drop (r.file.length - r.stream.rest.length)) }) := by
  obtain ⟨records, rest, hfits, hrest, hbytes, rfl⟩ := h
  have hpos : tellg r.file r.stream = some (r.file.length - r.stream.rest.length) := by
    rw [tellg, hstream]
    rfl
  have hback : ∀ s, seekTold r.file (tellg r.file r.stream) (clear s) =
      openStream (r.file.drop (r.file.length - r.stream.rest.length)) := by
    intro s
    rw [hpos, seekTold]
    rfl
  cases records with
  | nil =>
    obtain ⟨update, hread, hcut⟩ := readBinary_cutTimestamp (locals 0) hrest
    rw [List.flatMap_nil, List.nil_append] at hbytes
    have hended : infoStep locals ⟨1, 0, if update.isSome then 1 else 0, endedStream⟩ =
        .inr (0, if update.isSome then 1 else 0, endedStream) :=
      infoStep_of_none (readBinary_endedStream _)
    obtain ⟨fuel, hfuel⟩ := returns_of_result hended
    refine ⟨fuel, ?_⟩
    simp only [getFileInfo, seekg_of_not_failed _ _ hstream, hbytes, hread, hfuel,
      Option.map_some, hback, List.map_nil, List.nil_append, ← hcut]
    cases update <;> rfl
  | cons record records =>
    have hread := readBinary_writeBinary (records.flatMap writeBinary ++ rest) (locals 0)
      (hfits record List.mem_cons_self)
    rw [List.flatMap_cons, List.append_assoc] at hbytes
    obtain ⟨fuel, hfuel⟩ := returns_infoStep locals
      (fun u hu => hfits u (List.mem_cons_of_mem _ hu)) hrest
      ⟨1, 0, 1, openStream (records.flatMap writeBinary ++ rest)⟩ rfl
    refine ⟨fuel, ?_⟩
    simp only [getFileInfo, seekg_of_not_failed _ _ hstream, hbytes, hread, Option.isSome_some,
      if_true, hfuel, Option.map_some, hback]
    rw [List.map_cons, List.cons_append, List.length_cons, Nat.add_comm 1]
    rfl

/-- Every sequence of bytes looks like some records. -/
theorem exists_looksLike (bytes : List UInt8) : ∃ timestamps, LooksLike bytes timestamps := by
  obtain ⟨records, rest, hfits, hbytes, hrest⟩ := exists_records bytes
  exact ⟨_, records, rest, hfits, hrest, hbytes, rfl⟩

/-- Going back to the position before gives the stream before. -/
theorem Opened.stream_eq (h : Opened updates r) (hstream : r.stream.failbit = false) :
    openStream (r.file.drop (r.file.length - r.stream.rest.length)) = r.stream := by
  have hrest := (List.suffix_iff_eq_drop.mp h.position).symm
  have hflags := h.flags
  rw [hrest]
  rw [hstream] at hflags
  exact congrArg₂ (IStream.mk r.stream.rest) hflags.symm hstream.symm

/-- A summary with the last timestamp after the first is the whole summary of some
timestamps. -/
theorem summary_eq_iff {timestamps recorded : List UInt64} (hne : recorded ≠ []) :
    (timestamps.headD 0, timestamps.tail.getLastD 0, timestamps.length) = summary recorded ↔
      timestamps.length = recorded.length ∧ timestamps.head? = recorded.head? ∧
        timestamps.getLast? = recorded.getLast? ∧ (timestamps.length = 1 → timestamps = [0]) := by
  rw [summary, Prod.mk.injEq, Prod.mk.injEq]
  cases recorded with
  | nil => exact absurd rfl hne
  | cons u recorded =>
    cases timestamps with
    | nil => exact iff_of_false (fun h => by cases h.2.2) fun h => by cases h.1
    | cons t timestamps =>
      rw [List.headD_cons, List.headD_cons, List.head?_cons, List.head?_cons, Option.some.injEq,
        List.tail_cons, List.length_cons, List.length_cons, Nat.add_right_cancel_iff]
      cases timestamps with
      | nil =>
        cases recorded with
        | nil =>
          rw [List.getLastD_nil, List.getLastD_cons, List.getLastD_nil, List.getLast?_singleton,
            List.getLast?_singleton, Option.some.injEq]
          constructor
          · rintro ⟨rfl, hlast, -⟩
            exact ⟨rfl, rfl, rfl, fun _ => by rw [← hlast]⟩
          · rintro ⟨-, rfl, -, hsingle⟩
            have hzero : t = 0 := by simpa using hsingle rfl
            exact ⟨rfl, hzero.symm, rfl⟩
        | cons u' recorded => exact iff_of_false (fun h => by cases h.2.2) fun h => by cases h.1
      | cons t' timestamps =>
        cases recorded with
        | nil => exact iff_of_false (fun h => by cases h.2.2) fun h => by cases h.1
        | cons u' recorded =>
          rw [List.getLast?_cons_cons, List.getLast?_cons_cons, List.getLast?_cons,
            List.getLast?_cons, Option.some.injEq, ← List.getLastD_eq_getLast?,
            ← List.getLastD_eq_getLast?, List.getLastD_cons, List.getLastD_cons,
            List.getLastD_cons]
          constructor
          · rintro ⟨hfirst, hlast, hcount⟩
            exact ⟨hcount, hfirst, hlast, fun h => by cases h⟩
          · rintro ⟨hcount, hfirst, hlast, -⟩
            exact ⟨hfirst, hlast, hcount⟩

/-- No bytes look like no records. -/
theorem LooksLike.nil_iff : LooksLike [] timestamps ↔ timestamps = [] := by
  constructor
  · rintro ⟨records, rest, -, -, hbytes, rfl⟩
    cases records with
    | nil =>
      rw [List.flatMap_nil, List.nil_append] at hbytes
      rw [← hbytes]
      rfl
    | cons record records =>
      have hlength := congrArg List.length hbytes
      have hrecord := length_writeBinary_ge record
      rw [List.flatMap_cons, List.length_append, List.length_append, List.length_nil] at hlength
      omega
  · rintro rfl
    exact ⟨[], [], by simp, incomplete_nil, rfl, rfl⟩

/-- `get_file_info` of a recording returns its summary, and a replay after it is the same
as without it, exactly when the stream has not failed and the recording is empty or looks
alike without the first four bytes of its data. -/
theorem summarises_iff (h : Opened updates r) :
    Summarises updates r ↔
      r.stream.failbit = false ∧ (updates = [] ∨ ∃ timestamps, LooksAlike updates timestamps) := by
  have hdrop : r.file.drop 16 = (updates.flatMap writeBinary).drop 4 := by
    rw [h.file, drop_recordedFile]
  have hlength : (updates.map (·.timestamp)).length = updates.length := List.length_map _
  constructor
  · intro hsummarises
    let locals : Nat → RecordLocals := fun _ => default
    obtain ⟨fuel, r', hinfo, -⟩ := hsummarises locals
    have hstream := exists_getFileInfo_iff.mp ⟨_, fuel, hinfo⟩
    refine ⟨hstream, ?_⟩
    obtain ⟨timestamps, hlooks⟩ := exists_looksLike (r.file.drop 16)
    obtain ⟨fuel', hinfo'⟩ := getFileInfo_of_looksLike locals hstream hlooks
    have hsame := congrArg Prod.fst (getFileInfo_unique hinfo' hinfo)
    rw [or_iff_not_imp_left]
    intro hne
    have hrecorded : updates.map (·.timestamp) ≠ [] := fun h => hne (List.map_eq_nil_iff.mp h)
    obtain ⟨hcount, hfirst, hlast, hsingle⟩ := (summary_eq_iff hrecorded).mp hsame
    rw [hdrop] at hlooks
    exact ⟨timestamps, hlooks, hcount.trans hlength, hfirst, hlast, hsingle⟩
  · rintro ⟨hstream, halike⟩ locals
    suffices hlooks : ∃ timestamps, LooksLike (r.file.drop 16) timestamps ∧
        (timestamps.headD 0, timestamps.tail.getLastD 0, timestamps.length) =
          summary (updates.map (·.timestamp)) by
      obtain ⟨timestamps, hlooks, hsummary⟩ := hlooks
      obtain ⟨fuel, hinfo⟩ := getFileInfo_of_looksLike locals hstream hlooks
      rw [hsummary, h.stream_eq hstream] at hinfo
      exact ⟨fuel, r, hinfo, fun _ _ _ => rfl⟩
    rw [hdrop]
    by_cases hne : updates = []
    · refine ⟨[], ?_, by rw [hne]; rfl⟩
      rw [hne]
      exact LooksLike.nil_iff.mpr rfl
    · obtain ⟨timestamps, hlooks, hcount, hfirst, hlast, hsingle⟩ := halike.resolve_left hne
      have hrecorded : updates.map (·.timestamp) ≠ [] := fun h => hne (List.map_eq_nil_iff.mp h)
      exact ⟨timestamps, hlooks, (summary_eq_iff hrecorded).mpr
        ⟨hcount.trans hlength.symm, hfirst, hlast, hsingle⟩⟩

/-- A freshly opened recording. -/
theorem opened_of_fits (hfits : ∀ u ∈ updates, Fits u) :
    Opened updates (fresh updates) where
  fits := hfits
  file := rfl
  position := List.suffix_append _ _
  flags := rfl

/-- An update without levels, and one that removes a bid. -/
def emptyAndRemoval : List RecordedUpdate :=
  [emptyRecord 0x100000001,
    { emptyRecord 0x405900000001 with
      symbol := lit "BTCUSDPERP"
      bids := [⟨0x4059000000010000, 0, 1⟩] }]

theorem fits_emptyAndRemoval : ∀ u ∈ emptyAndRemoval, Fits u := by
  unfold Fits
  decide +kernel

/-- Without the first four bytes their data reads as a bid made of the symbol, and an update
without levels, at the same times. -/
theorem looksAlike_emptyAndRemoval :
    LooksAlike emptyAndRemoval [0x100000001, 0x405900000001] where
  looks := by
    refine ⟨[{ emptyRecord 0x100000001 with
        exchange := .unknown
        bids := [⟨0x0A01000040590000, 0x4550445355435442, 0x15052⟩] },
      { emptyRecord 0x405900000001 with exchange := .unknown }], [1, 0, 0, 0, 0, 0],
      ?_, ?_, ?_, rfl⟩
    · unfold Fits
      decide +kernel
    · exact incomplete_of_length_lt (by decide)
    · decide +kernel
  count := rfl
  first := rfl
  last := rfl
  single := nofun

theorem summarises_iff_emptyAndRemoval : Summarises emptyAndRemoval (fresh emptyAndRemoval) :=
  (summarises_iff (opened_of_fits fits_emptyAndRemoval)).mpr
    ⟨rfl, Or.inr ⟨_, looksAlike_emptyAndRemoval⟩⟩

/-- A recording of one record with timestamp 1: its start time is read from the wrong
bytes, and its end time is 0. -/
theorem summarises_fails : ∃ updates r, Opened updates r ∧ ¬ Summarises updates r := by
  refine ⟨[emptyRecord 1], _, opened_of_fits (by simp [fits_emptyRecord]), ?_⟩
  intro h
  obtain ⟨fuel, r', hinfo, -⟩ := h fun _ => default
  have hwrong : (getFileInfo 1 (fun _ => default)
      ⟨recordedFile [emptyRecord 1], .binary,
        openStream ([emptyRecord 1].flatMap writeBinary)⟩).map (·.1) = some (4294967296, 0, 1) := by
    decide +kernel
  obtain ⟨out, hout, hfirst⟩ := Option.map_eq_some_iff.mp hwrong
  rw [getFileInfo_unique hout hinfo] at hfirst
  cases hfirst

end Info

section Reachable

variable {updates : List RecordedUpdate} {r r' : Replayer} {locals : Nat → RecordLocals}
  {playback : Playback}

/-- The stream stands in the file, and has failed exactly if it is at its end. -/
def Stands (file : List UInt8) (s : IStream) : Prop :=
  s.rest <:+ file ∧ s.eofbit = s.failbit

theorem stands_openStream {file bytes : List UInt8} (h : bytes <:+ file) :
    Stands file (openStream bytes) := ⟨h, rfl⟩

theorem stands_endedStream (file : List UInt8) : Stands file endedStream :=
  ⟨List.nil_suffix, rfl⟩

/-- Reading a record leaves such a stream. -/
theorem Stands.readBinary {file : List UInt8} {s : IStream} (h : Stands file s)
    (locals : RecordLocals) : Stands file (readBinary locals s).2 := by
  obtain ⟨bytes, eofbit, failbit⟩ := s
  obtain ⟨hbytes, hflags : eofbit = failbit⟩ := h
  subst hflags
  cases eofbit with
  | true =>
    rw [readBinary_eq, readWord_of_failed _ _ rfl, if_pos rfl]
    exact ⟨hbytes, rfl⟩
  | false =>
    rw [← openStream]
    rcases readBinary_cases locals bytes with ⟨-, hread⟩ | ⟨update, rest, -, rfl, hread⟩ |
      ⟨-, update, hread, -⟩
    · rw [hread]
      exact stands_endedStream file
    · rw [hread]
      exact stands_openStream ((List.suffix_append _ _).trans hbytes)
    · rw [hread]
      exact stands_endedStream file

/-- So does a replay of a binary file. -/
theorem Stands.replay (h : Stands r.file r.stream) (hformat : r.format = .binary) {fuel : Nat}
    {out : List Delivery × Replayer} (hout : replay fuel locals playback r = some out) :
    Stands r.file out.2.stream := by
  obtain ⟨result, hresult, rfl⟩ := Option.map_eq_some_iff.mp hout
  rw [hformat] at hresult
  refine Returns.invariant (I := fun s => Stands r.file s.stream)
    (Q := fun result => Stands r.file result.2) ⟨fuel, hresult⟩ h ?_ ?_
  · intro s s' hs hnext
    obtain ⟨update, hread⟩ := replayStep_eq_inl hnext
    have hstands := hs.readBinary (locals s.count)
    rwa [hread] at hstands
  · intro s result hs hlast
    have hstands := hs.readBinary (locals s.count)
    rwa [replayStep_eq_inr hlast] at hstands

/-- And so does a search. -/
theorem Stands.search {file : List UInt8} {startTime : UInt64} {s : Nat × IStream}
    {result : Option Nat × IStream} (hs : Stands file s.2)
    (h : Returns (searchStep locals startTime) s result) : Stands file result.2 := by
  refine Returns.invariant (I := fun s => Stands file s.2) (Q := fun result => Stands file result.2)
    h hs ?_ ?_
  · intro s s' hs hnext
    obtain ⟨update, hread⟩ := searchStep_eq_inl hnext
    have hstands := hs.readBinary (locals s.1)
    rwa [hread] at hstands
  · intro s result hs hlast
    obtain ⟨update, hread, -⟩ := searchStep_eq_inr hlast
    have hstands := hs.readBinary (locals s.1)
    rwa [hread] at hstands

/-- A call that returns keeps a recording opened. -/
theorem Opened.runCall {i : Invocation} {fuel : Nat} (h : Opened updates r)
    (hformat : r.format = .binary) (hrun : runCall fuel i r = some r') :
    Opened updates r' ∧ r'.format = .binary := by
  have hstands : Stands r.file r.stream := ⟨h.position, h.flags⟩
  have hseek : ∀ {locals playback startTime} {out : List Delivery × Replayer},
      replayFrom fuel locals playback startTime r = some out →
        Opened updates out.2 ∧ out.2.format = .binary := by
    intro locals playback startTime out hout
    have hstream := (exists_replayFrom_iff.mp ⟨out, fuel, hout⟩).resolve_right
      fun hother => hother.2 hformat
    have hsought : Stands r.file (seekg r.file 16 r.stream) := by
      rw [seekg_of_not_failed _ _ hstream]
      exact stands_openStream (List.drop_suffix 16 r.file)
    rcases replayFrom_eq_some_iff.mp ⟨fuel, hout⟩ with ⟨stream, hsearch, rfl⟩ |
      ⟨i, stream, hsearch, n, hreplay⟩
    · have hleft : Stands r.file stream := hsought.search hsearch
      exact ⟨⟨h.fits, h.file, hleft.1, hleft.2⟩, hformat⟩
    · have hfound : Stands r.file stream := hsought.search hsearch
      have hleft := Stands.replay (r := { r with stream := stream }) hfound hformat hreplay
      obtain ⟨hfile, hsame, -⟩ := eofbit_of_replay hreplay
      rw [← hfile] at hleft
      exact ⟨⟨h.fits, hfile.trans h.file, hleft.1, hleft.2⟩, hsame.trans hformat⟩
  obtain ⟨call, locals, clock⟩ := i
  cases call with
  | replay =>
    obtain ⟨out, hout, rfl⟩ := Option.map_eq_some_iff.mp hrun
    have hleft := hstands.replay hformat hout
    obtain ⟨hfile, hsame, -⟩ := eofbit_of_replay hout
    rw [← hfile] at hleft
    exact ⟨⟨h.fits, hfile.trans h.file, hleft.1, hleft.2⟩, hsame.trans hformat⟩
  | replayFrom startTime =>
    obtain ⟨out, hout, rfl⟩ := Option.map_eq_some_iff.mp hrun
    exact hseek hout
  | replayRange startTime endTime =>
    obtain ⟨out, hout, rfl⟩ := Option.map_eq_some_iff.mp hrun
    exact hseek hout
  | getFileInfo =>
    obtain ⟨out, hout, rfl⟩ := Option.map_eq_some_iff.mp hrun
    have hstream := exists_getFileInfo_iff.mp ⟨out, fuel, hout⟩
    obtain ⟨timestamps, hlooks⟩ := exists_looksLike (r.file.drop 16)
    obtain ⟨fuel', hinfo⟩ := getFileInfo_of_looksLike locals hstream hlooks
    rw [getFileInfo_unique hout hinfo, h.stream_eq hstream]
    exact ⟨h, hformat⟩

/-- Whatever calls have returned since its opening, a recording is opened at some
position. -/
theorem opened_of_runCalls {calls : List Invocation} {header : HeaderLocals} {fuel : Nat}
    (hfits : ∀ u ∈ updates, Fits u)
    (hopen : openFile header .binary (recordedFile updates) = some r)
    (hrun : runCalls fuel calls r = some r') : Opened updates r' := by
  have hfresh : Opened updates r ∧ r.format = .binary := by
    obtain rfl := Option.some.inj ((openFile_fresh header updates).symm.trans hopen)
    exact ⟨opened_of_fits hfits, rfl⟩
  clear hopen
  induction calls generalizing r with
  | nil =>
    cases hrun
    exact hfresh.1
  | cons i calls ih =>
    obtain ⟨r₁, hi, hcalls⟩ := Option.bind_eq_some_iff.mp hrun
    exact ih hcalls (hfresh.1.runCall hfresh.2 hi)

end Reachable

end FileInfo

end OrderbookEngine
