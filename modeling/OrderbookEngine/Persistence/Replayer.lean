import OrderbookEngine.Library.Loop
import OrderbookEngine.Persistence.RecordReading

/-!
# The replayer

Its loops call `read_binary` on a stream until no update comes back. Reading from
the bytes of complete records yields these records; a record that is cut off after
its timestamp is delivered all the same, and ends the stream.
-/

namespace OrderbookEngine

open Bytes

/-- An opened `MarketDataReplayer`: the bytes of its file, and its members. -/
structure Replayer where
  file : List UInt8
  format : RecordingFormat
  stream : IStream

/-- The speed multiplier of a replay and the clock readings during it. -/
structure Playback where
  speed : ℚ
  clock : Nat → UInt64

/-- An invocation of the callback, after a request to sleep for some nanoseconds. A request of
zero or less returns at once. -/
structure Delivery where
  sleep : Option Int64
  update : RecordedUpdate
  deriving DecidableEq

namespace MarketDataReplayer

open Loop

/-- `open` of a file of some bytes, given what `format_` holds before. -/
def openFile (locals : HeaderLocals) (format : RecordingFormat) (file : List UInt8) :
    Option Replayer :=
  let result := readHeader locals format (openStream file)
  if result.1.1 then some ⟨file, result.1.2, result.2⟩ else none

/-- `read_json`, which is not implemented. -/
def readJson : StateM IStream (Option RecordedUpdate) := return none

/-- `read_csv`, which is not implemented. -/
def readCsv : StateM IStream (Option RecordedUpdate) := return none

/-- The `switch` of `replay`. -/
def readUpdate (format : RecordingFormat) (locals : RecordLocals) :
    StateM IStream (Option RecordedUpdate) :=
  if format = .binary then readBinary locals
  else if format = .json then readJson
  else if format = .csv then readCsv
  else return none

/-- The sleep that `replay` requests before an update, at the clock reading `now`. The quotient
of doubles is taken exactly, and the count of `std::chrono::nanoseconds` is signed. -/
def sleepFor (speed : ℚ) (startRealTime now lastTimestamp startDataTime timestamp : UInt64) :
    Option Int64 :=
  if lastTimestamp > 0 ∧ speed > 0 then
    let dataElapsed := timestamp - startDataTime
    let realElapsed := now - startRealTime
    let expectedElapsed := ⌊dataElapsed.toNat / speed⌋₊.toUInt64
    if expectedElapsed > realElapsed then some (expectedElapsed - realElapsed).toInt64 else none
  else none

/-- The locals of `replay`, its stream, and the invocations of the callback. -/
structure ReplayState where
  count : Nat
  lastTimestamp : UInt64
  startDataTime : UInt64
  stream : IStream
  delivered : List Delivery

/-- A round of the loop of `replay` that got an update, leaving the stream as given. -/
def ReplayState.deliver (playback : Playback) (s : ReplayState) (update : RecordedUpdate)
    (stream : IStream) : ReplayState :=
  let startDataTime := if s.startDataTime = 0 then update.timestamp else s.startDataTime
  let sleep := sleepFor playback.speed (playback.clock 0) (playback.clock (s.count + 1))
    s.lastTimestamp startDataTime update.timestamp
  { count := s.count + 1
    lastTimestamp := update.timestamp
    startDataTime := startDataTime
    stream := stream
    delivered := s.delivered ++ [⟨sleep, update⟩] }

/-- One round of the loop of `replay`; round `i` finds `locals i` in the uninitialised
locals of `read_binary` and reads the clock for the `i + 1`-st time. -/
def replayStep (format : RecordingFormat) (locals : Nat → RecordLocals) (playback : Playback)
    (s : ReplayState) : ReplayState ⊕ (List Delivery × IStream) :=
  match readUpdate format (locals s.count) s.stream with
  | (none, stream) => .inr (s.delivered, stream)
  | (some update, stream) => .inl (s.deliver playback update stream)

/-- `replay`: the invocations of the callback and the replayer afterwards. -/
def replay (fuel : Nat) (locals : Nat → RecordLocals) (playback : Playback) (r : Replayer) :
    Option (List Delivery × Replayer) :=
  (loop (replayStep r.format locals playback) fuel ⟨0, 0, 0, r.stream, []⟩).map
    fun result => (result.1, { r with stream := result.2 })

/-- One round of the search of `replay_from`. -/
def searchStep (locals : Nat → RecordLocals) (startTime : UInt64) (s : Nat × IStream) :
    (Nat × IStream) ⊕ (Option Nat × IStream) :=
  match readBinary (locals s.1) s.2 with
  | (none, stream) => .inr (none, stream)
  | (some update, stream) =>
    if update.timestamp ≥ startTime then .inr (some (s.1 + 1), stream)
    else .inl (s.1 + 1, stream)

/-- `replay_from`. -/
def replayFrom (fuel : Nat) (locals : Nat → RecordLocals) (playback : Playback)
    (startTime : UInt64) (r : Replayer) : Option (List Delivery × Replayer) :=
  (loop (searchStep locals startTime) fuel (0, seekg r.file 16 r.stream)).bind fun found =>
    match found.1 with
    | none => some ([], { r with stream := found.2 })
    | some i => replay fuel (fun j => locals (i + j)) playback { r with stream := found.2 }

/-- `replay_range`, whose end is not used. -/
def replayRange (fuel : Nat) (locals : Nat → RecordLocals) (playback : Playback)
    (startTime _endTime : UInt64) (r : Replayer) : Option (List Delivery × Replayer) :=
  replayFrom fuel locals playback startTime r

/-- The locals of `get_file_info` in its loop, and its stream. -/
structure InfoState where
  reads : Nat
  endTime : UInt64
  count : Nat
  stream : IStream

/-- One round of the loop of `get_file_info`. -/
def infoStep (locals : Nat → RecordLocals) (s : InfoState) :
    InfoState ⊕ (UInt64 × Nat × IStream) :=
  match readBinary (locals s.reads) s.stream with
  | (none, stream) => .inr (s.endTime, s.count, stream)
  | (some update, stream) => .inl ⟨s.reads + 1, update.timestamp, s.count + 1, stream⟩

/-- `seekg` to a position that `tellg` returned: to `-1` it fails. -/
def seekTold (file : List UInt8) (pos : Option Nat) (s : IStream) : IStream :=
  match pos with
  | some p => seekg file p s
  | none => { s with eofbit := false, failbit := true }

/-- `get_file_info`: first timestamp, last timestamp and count, and the replayer
afterwards. -/
def getFileInfo (fuel : Nat) (locals : Nat → RecordLocals) (r : Replayer) :
    Option ((UInt64 × UInt64 × Nat) × Replayer) :=
  let pos := tellg r.file r.stream
  let first := readBinary (locals 0) (seekg r.file 16 r.stream)
  let startTime := (first.1.map (·.timestamp)).getD 0
  let count := if first.1.isSome then 1 else 0
  (loop (infoStep locals) fuel ⟨1, 0, count, first.2⟩).map fun result =>
    ((startTime, result.1, result.2.1),
      { r with stream := seekTold r.file pos (clear result.2.2) })

open MarketDataRecorder BinaryFormat

/-- The record that `read_binary` makes of bytes without a complete record in front. -/
def cutRecord (locals : RecordLocals) (bytes : List UInt8) : List RecordedUpdate :=
  (readBinary locals (openStream bytes)).1.toList

/-- The invocations of the callback for some updates, from a state of the loop on. -/
def paced (playback : Playback) (count : Nat) (lastTimestamp startDataTime : UInt64) :
    List RecordedUpdate → List Delivery
  | [] => []
  | update :: updates =>
    let start := if startDataTime = 0 then update.timestamp else startDataTime
    ⟨sleepFor playback.speed (playback.clock 0) (playback.clock (count + 1)) lastTimestamp start
        update.timestamp, update⟩ ::
      paced playback (count + 1) update.timestamp start updates

/-- A record of nothing but a timestamp. -/
def emptyRecord (timestamp : UInt64) : RecordedUpdate where
  exchange := .binance
  symbol := []
  timestamp := timestamp
  updateId := 0
  bids := []
  asks := []

theorem fits_emptyRecord (timestamp : UInt64) : Fits (emptyRecord timestamp) :=
  ⟨Nat.zero_le _, Nat.zero_le _, Nat.zero_le _⟩

section Outcomes

variable {locals : Nat → RecordLocals} {playback : Playback} {r : Replayer}

@[simp] theorem map_update_paced (count : Nat) (last start : UInt64)
    (updates : List RecordedUpdate) :
    (paced playback count last start updates).map (·.update) = updates := by
  induction updates generalizing count last start with
  | nil => rfl
  | cons update updates ih => rw [paced, List.map_cons, ih]

/-- In the other formats there is nothing to replay. -/
theorem replayStep_of_format {format : RecordingFormat} (h : format ≠ .binary)
    (s : ReplayState) : replayStep format locals playback s = .inr (s.delivered, s.stream) := by
  have hnone : readUpdate format (locals s.count) s.stream = (none, s.stream) := by
    rw [readUpdate, if_neg h]
    split
    · rfl
    · split <;> rfl
  rw [replayStep, hnone]

/-- A round that reads an update delivers it. -/
theorem replayStep_of_update {s : ReplayState} {update : RecordedUpdate} {stream : IStream}
    (h : readBinary (locals s.count) s.stream = (some update, stream)) :
    replayStep .binary locals playback s = .inl (s.deliver playback update stream) := by
  rw [replayStep, readUpdate, if_pos rfl, h]

theorem replayStep_of_none {s : ReplayState} {stream : IStream}
    (h : readBinary (locals s.count) s.stream = (none, stream)) :
    replayStep .binary locals playback s = .inr (s.delivered, stream) := by
  rw [replayStep, readUpdate, if_pos rfl, h]

/-- A round that goes on has read an update. -/
theorem replayStep_eq_inl {s s' : ReplayState}
    (h : replayStep .binary locals playback s = .inl s') :
    ∃ update, readBinary (locals s.count) s.stream = (some update, s'.stream) := by
  rcases hread : readBinary (locals s.count) s.stream with ⟨_ | update, stream⟩
  · rw [replayStep_of_none hread] at h
    cases h
  · rw [replayStep_of_update hread] at h
    cases h
    exact ⟨update, rfl⟩

/-- The last round has read none. -/
theorem replayStep_eq_inr {s : ReplayState} {result : List Delivery × IStream}
    (h : replayStep .binary locals playback s = .inr result) :
    readBinary (locals s.count) s.stream = (none, result.2) := by
  rcases hread : readBinary (locals s.count) s.stream with ⟨_ | update, stream⟩
  · rw [replayStep_of_none hread] at h
    cases h
    rfl
  · rw [replayStep_of_update hread] at h
    cases h

theorem searchStep_eq_inl {startTime : UInt64} {s s' : Nat × IStream}
    (h : searchStep locals startTime s = .inl s') :
    ∃ update, readBinary (locals s.1) s.2 = (some update, s'.2) := by
  rcases hread : readBinary (locals s.1) s.2 with ⟨_ | update, stream⟩
  · simp only [searchStep, hread] at h
    cases h
  · simp only [searchStep, hread] at h
    split at h
    · cases h
    · cases h
      exact ⟨update, rfl⟩

/-- The last round of a search has found nothing exactly when it has read none. -/
theorem searchStep_eq_inr {startTime : UInt64} {s : Nat × IStream}
    {result : Option Nat × IStream} (h : searchStep locals startTime s = .inr result) :
    ∃ update, readBinary (locals s.1) s.2 = (update, result.2) ∧
      (result.1 = none ↔ update = none) := by
  rcases hread : readBinary (locals s.1) s.2 with ⟨_ | update, stream⟩
  · simp only [searchStep, hread] at h
    cases h
    exact ⟨none, rfl, iff_of_true rfl rfl⟩
  · simp only [searchStep, hread] at h
    split at h
    · cases h
      exact ⟨some update, rfl, iff_of_false (Option.some_ne_none _) (Option.some_ne_none _)⟩
    · cases h

theorem infoStep_of_update {s : InfoState} {update : RecordedUpdate} {stream : IStream}
    (h : readBinary (locals s.reads) s.stream = (some update, stream)) :
    infoStep locals s = .inl ⟨s.reads + 1, update.timestamp, s.count + 1, stream⟩ := by
  rw [infoStep, h]

theorem infoStep_of_none {s : InfoState} {stream : IStream}
    (h : readBinary (locals s.reads) s.stream = (none, stream)) :
    infoStep locals s = .inr (s.endTime, s.count, stream) := by
  rw [infoStep, h]

theorem infoStep_eq_inl {s s' : InfoState} (h : infoStep locals s = .inl s') :
    ∃ update, readBinary (locals s.reads) s.stream = (some update, s'.stream) := by
  rcases hread : readBinary (locals s.reads) s.stream with ⟨_ | update, stream⟩
  · rw [infoStep_of_none hread] at h
    cases h
  · rw [infoStep_of_update hread] at h
    cases h
    exact ⟨update, rfl⟩

/-- There is such a record when the timestamp is there. -/
theorem cutRecord_eq_nil_iff (locals : RecordLocals) {bytes : List UInt8}
    (h : Incomplete bytes) : cutRecord locals bytes = [] ↔ bytes.length < 8 := by
  rcases readBinary_incomplete locals h with ⟨hlt, hread⟩ | ⟨hle, update, hread, -⟩
  · rw [cutRecord, hread]
    exact ⟨fun _ => hlt, fun _ => rfl⟩
  · rw [cutRecord, hread, Option.toList_some]
    constructor
    · intro h
      cases h
    · intro h
      omega

/-- From bytes without a complete record in front at most a cut record is delivered. -/
theorem returns_replay_incomplete {rest : List UInt8} (hrest : Incomplete rest)
    (s : ReplayState) (hs : s.stream = openStream rest) :
    Returns (replayStep .binary locals playback) s
      (s.delivered ++ paced playback s.count s.lastTimestamp s.startDataTime
        (cutRecord (locals s.count) rest), endedStream) := by
  rcases readBinary_incomplete (locals s.count) hrest with ⟨-, hread⟩ | ⟨-, update, hread, -, -⟩
  · rw [cutRecord, hread, Option.toList_none, paced, List.append_nil]
    rw [← hs] at hread
    exact returns_of_result (replayStep_of_none hread)
  · rw [cutRecord, hread, Option.toList_some]
    rw [← hs] at hread
    rw [returns_next_iff (replayStep_of_update hread)]
    exact returns_of_result (replayStep_of_none (readBinary_endedStream _))

variable (locals playback) in
/-- Complete records are delivered, and then at most a cut one. -/
theorem returns_replay {updates : List RecordedUpdate} (hfits : ∀ u ∈ updates, Fits u)
    {rest : List UInt8} (hrest : Incomplete rest) (s : ReplayState)
    (hs : s.stream = openStream (updates.flatMap writeBinary ++ rest)) :
    Returns (replayStep .binary locals playback) s
      (s.delivered ++ paced playback s.count s.lastTimestamp s.startDataTime
        (updates.map content ++ cutRecord (locals (s.count + updates.length)) rest),
        endedStream) := by
  induction updates generalizing s with
  | nil => exact returns_replay_incomplete hrest s hs
  | cons update updates ih =>
    rw [List.flatMap_cons, List.append_assoc] at hs
    have hread := readBinary_writeBinary (updates.flatMap writeBinary ++ rest) (locals s.count)
      (hfits update List.mem_cons_self)
    rw [← hs] at hread
    rw [returns_next_iff (replayStep_of_update hread)]
    rw [List.map_cons, List.cons_append, paced, List.length_cons,
      show s.count + (updates.length + 1) = s.count + 1 + updates.length by omega,
      List.append_cons]
    exact ih (fun u hu => hfits u (List.mem_cons_of_mem _ hu)) (s.deliver playback _ _) rfl

/-- With more fuel a replay has the same outcome. -/
theorem replay_mono {n m : Nat} {out : List Delivery × Replayer}
    (h : replay n locals playback r = some out) (hle : n ≤ m) :
    replay m locals playback r = some out := by
  obtain ⟨result, hresult, rfl⟩ := Option.map_eq_some_iff.mp h
  rw [replay, loop_mono hresult hle, Option.map_some]

/-- A replay has one outcome. -/
theorem replay_unique {fuel fuel' : Nat} {out out' : List Delivery × Replayer}
    (h : replay fuel locals playback r = some out)
    (h' : replay fuel' locals playback r = some out') : out = out' := by
  obtain ⟨result, hresult, rfl⟩ := Option.map_eq_some_iff.mp h
  obtain ⟨result', hresult', rfl⟩ := Option.map_eq_some_iff.mp h'
  rw [Returns.unique ⟨fuel, hresult⟩ ⟨fuel', hresult'⟩]

variable (locals playback) in
/-- A replay of complete records delivers them, and then at most a cut one. -/
theorem replay_records (hformat : r.format = .binary) {updates : List RecordedUpdate}
    (hfits : ∀ u ∈ updates, Fits u) {rest : List UInt8} (hrest : Incomplete rest)
    (hstream : r.stream = openStream (updates.flatMap writeBinary ++ rest)) :
    ∃ fuel, replay fuel locals playback r =
      some (paced playback 0 0 0 (updates.map content ++ cutRecord (locals updates.length) rest),
        { r with stream := endedStream }) := by
  obtain ⟨fuel, hfuel⟩ := returns_replay locals playback hfits hrest
    ⟨0, 0, 0, r.stream, []⟩ hstream
  refine ⟨fuel, ?_⟩
  rw [replay, hformat, hfuel, Option.map_some, Nat.zero_add, List.nil_append]

variable (locals playback) in
/-- At the end of the file nothing is delivered. -/
theorem replay_endedStream (hformat : r.format = .binary) (hstream : r.stream = endedStream) :
    ∃ fuel, replay fuel locals playback r = some ([], { r with stream := endedStream }) := by
  have hended : replayStep .binary locals playback ⟨0, 0, 0, endedStream, []⟩ =
      .inr ([], endedStream) := replayStep_of_none (readBinary_endedStream (locals 0))
  obtain ⟨fuel, hfuel⟩ := returns_of_result hended
  exact ⟨fuel, by rw [replay, hformat, hstream, hfuel, Option.map_some]⟩

/-- The outcomes of `replay_from` are those of its search and of the replay after it. -/
theorem replayFrom_eq_some_iff {startTime : UInt64} {out : List Delivery × Replayer} :
    (∃ fuel, replayFrom fuel locals playback startTime r = some out) ↔
      (∃ stream, Returns (searchStep locals startTime) (0, seekg r.file 16 r.stream)
          (none, stream) ∧ out = ([], { r with stream := stream })) ∨
        ∃ i stream, Returns (searchStep locals startTime) (0, seekg r.file 16 r.stream)
            (some i, stream) ∧
          ∃ fuel, replay fuel (fun j => locals (i + j)) playback { r with stream := stream } =
            some out := by
  constructor
  · rintro ⟨fuel, h⟩
    obtain ⟨⟨found, stream⟩, hsearch, hout⟩ := Option.bind_eq_some_iff.mp h
    cases found with
    | none => exact Or.inl ⟨stream, ⟨fuel, hsearch⟩, (Option.some.inj hout).symm⟩
    | some i => exact Or.inr ⟨i, stream, ⟨fuel, hsearch⟩, fuel, hout⟩
  · rintro (⟨stream, ⟨fuel, hsearch⟩, rfl⟩ | ⟨i, stream, ⟨n, hsearch⟩, m, hreplay⟩)
    · exact ⟨fuel, by rw [replayFrom, hsearch, Option.bind_some]⟩
    · refine ⟨max n m, ?_⟩
      rw [replayFrom, loop_mono hsearch (le_max_left n m), Option.bind_some]
      exact replay_mono hreplay (le_max_right n m)

theorem replayFrom_mono {startTime : UInt64} {n m : Nat} {out : List Delivery × Replayer}
    (h : replayFrom n locals playback startTime r = some out) (hle : n ≤ m) :
    replayFrom m locals playback startTime r = some out := by
  obtain ⟨⟨found, stream⟩, hsearch, hout⟩ := Option.bind_eq_some_iff.mp h
  rw [replayFrom, loop_mono hsearch hle, Option.bind_some]
  cases found with
  | none => exact hout
  | some i => exact replay_mono hout hle

theorem replayFrom_unique {startTime : UInt64} {n m : Nat} {out out' : List Delivery × Replayer}
    (h : replayFrom n locals playback startTime r = some out)
    (h' : replayFrom m locals playback startTime r = some out') : out = out' := by
  have hout := replayFrom_mono h (le_max_left n m)
  rw [replayFrom_mono h' (le_max_right n m), Option.some.injEq] at hout
  exact hout.symm

theorem getFileInfo_mono {n m : Nat} {out : (UInt64 × UInt64 × Nat) × Replayer}
    (h : getFileInfo n locals r = some out) (hle : n ≤ m) : getFileInfo m locals r = some out := by
  obtain ⟨result, hresult, rfl⟩ := Option.map_eq_some_iff.mp h
  rw [getFileInfo, loop_mono hresult hle, Option.map_some]

theorem getFileInfo_unique {n m : Nat} {out out' : (UInt64 × UInt64 × Nat) × Replayer}
    (h : getFileInfo n locals r = some out) (h' : getFileInfo m locals r = some out') :
    out = out' := by
  have hout := getFileInfo_mono h (le_max_left n m)
  rw [getFileInfo_mono h' (le_max_right n m), Option.some.injEq] at hout
  exact hout.symm

theorem length_writeHeader : (writeHeader .binary).length = 12 := rfl

/-- A seek behind 16 bytes lands in the first record. -/
theorem drop_recordedFile (updates : List RecordedUpdate) :
    (recordedFile updates).drop 16 = (updates.flatMap writeBinary).drop 4 := by
  have hpos : 16 = (writeHeader .binary).length + 4 := rfl
  rw [recordedFile, hpos, List.drop_length_add_append]

/-- A file that starts with the header opens at its first record. -/
theorem openFile_writeHeader (header : HeaderLocals) (bytes : List UInt8) :
    openFile header .binary (writeHeader .binary ++ bytes) =
      some ⟨writeHeader .binary ++ bytes, .binary, openStream bytes⟩ := by
  rw [openFile, readHeader_writeHeader]
  rfl

/-- A freshly opened replayer of a recording. -/
def fresh (updates : List RecordedUpdate) : Replayer :=
  ⟨recordedFile updates, .binary, openStream (updates.flatMap writeBinary)⟩

theorem openFile_fresh (header : HeaderLocals) (updates : List RecordedUpdate) :
    openFile header .binary (recordedFile updates) = some (fresh updates) :=
  openFile_writeHeader header _

/-- A replay of a recording delivers its records. -/
theorem replay_recording {updates : List RecordedUpdate} (hfits : ∀ u ∈ updates, Fits u)
    (header : HeaderLocals) (locals : Nat → RecordLocals) (playback : Playback) :
    ∃ r, openFile header .binary (recordedFile updates) = some r ∧
      ∃ fuel r', replay fuel locals playback r =
        some (paced playback 0 0 0 (updates.map content), r') := by
  refine ⟨fresh updates, openFile_fresh header updates, ?_⟩
  obtain ⟨fuel, hfuel⟩ := replay_records locals playback (r := fresh updates) rfl hfits
    incomplete_nil (congrArg openStream (List.append_nil _).symm)
  rw [(cutRecord_eq_nil_iff _ incomplete_nil).mpr (by decide), List.append_nil] at hfuel
  exact ⟨fuel, _, hfuel⟩

end Outcomes

end MarketDataReplayer

end OrderbookEngine
