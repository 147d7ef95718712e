import OrderbookEngine.Persistence.RecorderSessions
import OrderbookEngine.Persistence.TextFormats

/-!
# The bytes_written statistic

`write_binary` adds the difference of two positions of the file, `write_json` and
`write_csv` add the position itself, and `start` writes the header before it resets the
counters. So the statistic of a binary session lacks the header, and that of a text
session is the sum of the positions at which its records end.
-/

namespace OrderbookEngine.MarketDataRecorder

/-- A recorder between the calls of one session at a time: its output file and two of its
counters. -/
structure Recorder where
  format : RecordingFormat
  recording : Bool
  file : List UInt8
  totalUpdates : UInt64
  bytesWritten : UInt64

namespace Recorder

/-- `output_file_->tellp()`. -/
def tellp (r : Recorder) : UInt64 := r.file.length.toUInt64

/-- Bytes that go to the output file. -/
def output (r : Recorder) (bytes : List UInt8) : Recorder := { r with file := r.file ++ bytes }

/-- `MarketDataRecorder::write_header`. -/
def writeHeader (r : Recorder) : Recorder :=
  let r' := r.output (MarketDataRecorder.writeHeader r.format)
  if r.format = .binary then { r' with bytesWritten := r'.bytesWritten + 12 } else r'

/-- `MarketDataRecorder::write_binary`. -/
def writeBinary (r : Recorder) (update : RecordedUpdate) : Recorder :=
  let r' := r.output (MarketDataRecorder.writeBinary update)
  { r' with bytesWritten := r'.bytesWritten + (r'.tellp - r.tellp) }

/-- `MarketDataRecorder::write_json`. -/
def writeJson (r : Recorder) (update : RecordedUpdate) : Recorder :=
  let r' := r.output (MarketDataRecorder.writeJson update)
  { r' with bytesWritten := r'.bytesWritten + r'.tellp }

/-- `MarketDataRecorder::write_csv`. -/
def writeCsv (r : Recorder) (update : RecordedUpdate) : Recorder :=
  let r' := r.output (MarketDataRecorder.writeCsv update)
  { r' with bytesWritten := r'.bytesWritten + r'.tellp }

/-- What the writer thread does with an update that it popped. -/
def write (r : Recorder) (update : RecordedUpdate) : Recorder :=
  let r' :=
    if r.format = .binary then r.writeBinary update
    else if r.format = .json then r.writeJson update
    else if r.format = .csv then r.writeCsv update
    else r
  { r' with totalUpdates := r'.totalUpdates + 1 }

/-- `MarketDataRecorder::start`, on a file that can be opened. -/
def start (r : Recorder) : Recorder × Bool :=
  if r.recording then (r, false)
  else
    let r' := { r with recording := true, file := [] }.writeHeader
    ({ r' with totalUpdates := 0, bytesWritten := 0 }, true)

/-- `MarketDataRecorder::stop`, after the writer thread has joined. -/
def stop (r : Recorder) : Recorder :=
  if r.recording then { r with recording := false } else r

/-- A session: `start`, one write for each update, `stop`. -/
def session (r : Recorder) (updates : List RecordedUpdate) : Recorder :=
  (updates.foldl write r.start.1).stop

/-- The statistic is the size of the file. -/
def BytesCounted (r : Recorder) : Prop := r.bytesWritten.toNat = r.file.length

instance (r : Recorder) : Decidable r.BytesCounted :=
  inferInstanceAs (Decidable (r.bytesWritten.toNat = r.file.length))

end Recorder

/-- Where the pieces of a file end, when the first starts at a position. -/
def ends (start : Nat) : List Nat → List Nat
  | [] => []
  | size :: sizes => (start + size) :: ends (start + size) sizes

/-- Where the records of a session's file end. -/
def recordEnds (format : RecordingFormat) (updates : List RecordedUpdate) : List Nat :=
  ends (writeHeader format).length (updates.map fun update => (recordBytes format update).length)

/-- A text format, no header without a record, and positions of which all but the last add
up to nothing and the last fits the counter. -/
def CountsFile (format : RecordingFormat) (updates : List RecordedUpdate) : Prop :=
  format ≠ .binary ∧ (updates = [] → format ≠ .csv) ∧
    2 ^ 64 ∣ (recordEnds format updates).dropLast.sum ∧
    (recordEnds format updates).getLastD 0 < 2 ^ 64

instance (format : RecordingFormat) (updates : List RecordedUpdate) :
    Decidable (CountsFile format updates) :=
  inferInstanceAs (Decidable (_ ∧ _))

section Ends

variable {start : Nat} {sizes : List Nat}

/-- The last piece ends where all sizes lead. -/
theorem getLastD_ends (start default : Nat) (h : sizes ≠ []) :
    (ends start sizes).getLastD default = start + sizes.sum := by
  induction sizes generalizing start default with
  | nil => exact absurd rfl h
  | cons size sizes ih =>
    cases sizes with
    | nil => rfl
    | cons next rest =>
      rw [ends, List.getLastD_cons, ih _ _ (List.cons_ne_nil _ _), List.sum_cons, List.sum_cons,
        List.sum_cons]
      omega

theorem sum_dropLast_add (positions : List Nat) :
    positions.dropLast.sum + positions.getLastD 0 = positions.sum := by
  rcases List.eq_nil_or_concat positions with rfl | ⟨front, last, rfl⟩
  · rfl
  · simp

/-- A text file has bytes once it has a record. -/
theorem length_text_pos {format : RecordingFormat} (h : format = .json ∨ format = .csv)
    (update : RecordedUpdate) :
    0 < (writeHeader format).length + (recordBytes format update).length := by
  rcases h with rfl | rfl
  · exact Nat.add_pos_right _ (List.length_pos_iff.mpr (writeJson_ne_nil update))
  · exact Nat.add_pos_left (by decide) _

end Ends

namespace Recorder

section Writes

variable {r : Recorder}

@[simp] theorem format_write (r : Recorder) (update : RecordedUpdate) :
    (r.write update).format = r.format := by
  simp only [write]
  split_ifs <;> rfl

/-- A write appends the bytes of its record. -/
@[simp] theorem file_write (r : Recorder) (update : RecordedUpdate) :
    (r.write update).file = r.file ++ recordBytes r.format update := by
  simp only [write, recordBytes]
  split_ifs
  · rfl
  · rfl
  · rfl
  · exact (List.append_nil _).symm

@[simp] theorem recording_write (r : Recorder) (update : RecordedUpdate) :
    (r.write update).recording = r.recording := by
  simp only [write]
  split_ifs <;> rfl

/-- A binary write counts what it appends. -/
theorem bytesWritten_write_binary (h : r.format = .binary) (update : RecordedUpdate) :
    (r.write update).bytesWritten + r.tellp = r.bytesWritten + (r.write update).tellp := by
  have hbytes : (r.write update).bytesWritten =
      r.bytesWritten + ((r.write update).tellp - r.tellp) := by
    rw [tellp, file_write, h]
    simp only [write, if_pos h]
    rfl
  rw [hbytes, UInt64.add_assoc, UInt64.sub_add_cancel]

/-- A file of no known format stays empty. -/
def OtherEmpty (r : Recorder) : Prop := r.format ≠ .json → r.format ≠ .csv → r.file = []

/-- A text write counts the whole file. -/
theorem bytesWritten_write_text (h : r.format ≠ .binary) (hempty : r.OtherEmpty)
    (update : RecordedUpdate) :
    (r.write update).bytesWritten = r.bytesWritten + (r.write update).tellp := by
  by_cases hjson : r.format = .json
  · rw [tellp, file_write]
    simp only [write, recordBytes, if_neg h, if_pos hjson]
    rfl
  · by_cases hcsv : r.format = .csv
    · rw [tellp, file_write]
      simp only [write, recordBytes, if_neg h, if_neg hjson, if_pos hcsv]
      rfl
    · have hfile : r.file = [] := hempty hjson hcsv
      rw [tellp, file_write, hfile]
      simp only [write, recordBytes, if_neg h, if_neg hjson, if_neg hcsv]
      exact (UInt64.add_zero _).symm

theorem OtherEmpty.write (hb : r.format ≠ .binary) (h : r.OtherEmpty) (update : RecordedUpdate) :
    (r.write update).OtherEmpty := by
  intro hjson hcsv
  rw [format_write] at hjson hcsv
  rw [file_write, h hjson hcsv, recordBytes, if_neg hb, if_neg hjson, if_neg hcsv]
  rfl

end Writes

section Runs

variable {r : Recorder}

@[simp] theorem format_foldl_write (r : Recorder) (updates : List RecordedUpdate) :
    (updates.foldl write r).format = r.format := by
  induction updates generalizing r with
  | nil => rfl
  | cons update updates ih => rw [List.foldl_cons, ih, format_write]

/-- The file holds the records one after the other. -/
theorem file_foldl_write (r : Recorder) (updates : List RecordedUpdate) :
    (updates.foldl write r).file = r.file ++ updates.flatMap (recordBytes r.format) := by
  induction updates generalizing r with
  | nil => exact (List.append_nil _).symm
  | cons update updates ih =>
    rw [List.foldl_cons, ih, file_write, format_write, List.flatMap_cons, List.append_assoc]

/-- A binary session counts its records. -/
theorem bytesWritten_foldl_binary (h : r.format = .binary) (updates : List RecordedUpdate) :
    (updates.foldl write r).bytesWritten + r.tellp =
      r.bytesWritten + (updates.foldl write r).tellp := by
  induction updates generalizing r with
  | nil => rfl
  | cons update updates ih =>
    have hrest := ih (r := r.write update) (by rw [format_write, h])
    have hfirst := bytesWritten_write_binary h update
    rw [List.foldl_cons]
    grind

/-- A text session counts the positions at which its records end. -/
theorem bytesWritten_foldl_text (h : r.format ≠ .binary) (hempty : r.OtherEmpty)
    (updates : List RecordedUpdate) :
    (updates.foldl write r).bytesWritten = r.bytesWritten +
      (ends r.file.length
        (updates.map fun update => (recordBytes r.format update).length)).sum.toUInt64 := by
  induction updates generalizing r with
  | nil => exact (UInt64.add_zero _).symm
  | cons update updates ih =>
    rw [List.foldl_cons, ih (by rwa [format_write]) (hempty.write h update),
      bytesWritten_write_text h hempty update, tellp, file_write, format_write,
      List.length_append, List.map_cons, ends, List.sum_cons, UInt64.add_assoc]
    exact congrArg _ (UInt64.ofNat_add _ _).symm

end Runs

section Sessions

variable {r : Recorder}

theorem start_of_not_recording (h : r.recording = false) : r.start.1 =
    { r with
      recording := true
      file := MarketDataRecorder.writeHeader r.format
      totalUpdates := 0
      bytesWritten := 0 } := by
  rw [start, if_neg (by rw [h]; exact Bool.false_ne_true)]
  simp only [writeHeader, output, List.nil_append]
  split <;> rfl

/-- The file of a session holds the header and the records. -/
theorem file_session (h : r.recording = false) (updates : List RecordedUpdate) :
    (r.session updates).file =
      MarketDataRecorder.writeHeader r.format ++ updates.flatMap (recordBytes r.format) := by
  have hstop : ∀ r : Recorder, r.stop.file = r.file := by
    intro r
    unfold stop
    split <;> rfl
  rw [session, hstop, file_foldl_write, start_of_not_recording h]

theorem bytesWritten_session (updates : List RecordedUpdate) :
    (r.session updates).bytesWritten = (updates.foldl write r.start.1).bytesWritten := by
  rw [session, stop]
  split <;> rfl

/-- The file of a binary session is the recorded file. -/
theorem file_session_binary (h : r.recording = false) (hb : r.format = .binary)
    (updates : List RecordedUpdate) : (r.session updates).file = recordedFile updates := by
  rw [file_session h, hb]
  rfl

/-- The statistic of a binary session lacks the header. -/
theorem bytesWritten_session_binary (h : r.recording = false) (hb : r.format = .binary)
    (updates : List RecordedUpdate) :
    (r.session updates).bytesWritten + 12 = (r.session updates).tellp := by
  have hrun := bytesWritten_foldl_binary (r := r.start.1)
    (by rw [start_of_not_recording h]; exact hb) updates
  have hstart : r.start.1.tellp = 12 ∧ r.start.1.bytesWritten = 0 := by
    rw [start_of_not_recording h, hb]
    exact ⟨rfl, rfl⟩
  have htell : (r.session updates).tellp = (updates.foldl write r.start.1).tellp := by
    rw [session, stop]
    split <;> rfl
  rw [hstart.1, hstart.2, UInt64.zero_add] at hrun
  rw [bytesWritten_session, htell, hrun]

/-- The statistic of a text session is the sum of the positions at which its records end. -/
theorem bytesWritten_session_text (h : r.recording = false) (hb : r.format ≠ .binary)
    (updates : List RecordedUpdate) :
    (r.session updates).bytesWritten.toNat = (recordEnds r.format updates).sum % 2 ^ 64 := by
  have hempty : r.start.1.OtherEmpty := by
    rw [start_of_not_recording h]
    exact fun _ hcsv => (writeHeader_eq_nil_iff r.format).mpr ⟨hb, hcsv⟩
  have hrun := bytesWritten_foldl_text (r := r.start.1)
    (by rw [start_of_not_recording h]; exact hb) hempty updates
  rw [bytesWritten_session, hrun, start_of_not_recording h, UInt64.zero_add]
  rfl

end Sessions

end Recorder

open Recorder

/-- The statistic after `stop` is the size of the file exactly when the format is no binary
one, a CSV file has a record, and all but the last of the positions at which records end add up
to a multiple of the counter's range. -/
theorem bytesCounted_iff (r : Recorder) (h : r.recording = false)
    (updates : List RecordedUpdate) :
    (r.session updates).BytesCounted ↔ CountsFile r.format updates := by
  by_cases hb : r.format = .binary
  · simp only [CountsFile, hb, ne_eq, not_true_eq_false, false_and, iff_false]
    intro hcount
    have hlack := bytesWritten_session_binary h hb updates
    have hsame : (r.session updates).bytesWritten = (r.session updates).tellp := by
      rw [tellp, ← hcount]
      exact UInt64.ofNat_toNat.symm
    have hzero : (12 : UInt64) = 0 := by
      rw [hsame] at hlack
      exact UInt64.add_eq_left.mp hlack
    exact absurd hzero (by decide)
  · rw [BytesCounted, bytesWritten_session_text h hb]
    by_cases hnil : updates = []
    · subst hnil
      have hfile : (r.session []).file = MarketDataRecorder.writeHeader r.format := by
        rw [file_session h, List.flatMap_nil, List.append_nil]
      rw [hfile, eq_comm, show (recordEnds r.format []).sum % 2 ^ 64 = 0 from rfl,
        List.length_eq_zero_iff, writeHeader_eq_nil_iff, CountsFile]
      simp [hb, recordEnds, ends]
    · have hlast : (recordEnds r.format updates).getLastD 0 = (r.session updates).file.length := by
        rw [recordEnds, getLastD_ends _ _ (by simpa using hnil), file_session h,
          List.length_append, List.length_flatMap]
      have hsum := sum_dropLast_add (recordEnds r.format updates)
      rw [hlast] at hsum
      simp only [CountsFile, hlast, ne_eq, hb, hnil, not_false_eq_true, false_implies, true_and]
      omega

/-- While the positions add up to less than the counter's range, a text file is counted with
one record, and a JSON file also with none. -/
theorem countsFile_iff_of_small {format : RecordingFormat}
    (hformat : format = .json ∨ format = .csv) {updates : List RecordedUpdate}
    (hsmall : (recordEnds format updates).sum < 2 ^ 64) :
    CountsFile format updates ↔ updates.length ≤ 1 ∧ (updates = [] → format ≠ .csv) := by
  have hb : format ≠ .binary := by
    rcases hformat with rfl | rfl <;> decide
  have hsum := sum_dropLast_add (recordEnds format updates)
  have hlast : (recordEnds format updates).getLastD 0 < 2 ^ 64 := by omega
  have hiff : 2 ^ 64 ∣ (recordEnds format updates).dropLast.sum ↔ updates.length ≤ 1 := by
    cases updates with
    | nil => exact iff_of_true (dvd_zero _) (Nat.zero_le _)
    | cons first rest =>
      cases rest with
      | nil => exact iff_of_true (dvd_zero _) (le_refl _)
      | cons second rest =>
        have hpos := length_text_pos hformat first
        refine iff_of_false (fun hdvd => ?_) (by simp)
        have hzero := Nat.eq_zero_of_dvd_of_lt hdvd (by omega)
        rw [recordEnds, List.map_cons, List.map_cons, ends, ends, List.dropLast_cons_cons,
          List.sum_cons] at hzero
        omega
  rw [CountsFile, hiff]
  tauto

/-- A write of the writer thread of a session is one of the recorder. -/
theorem foldl_write_state {ι : Type} (s : RecorderSessions.State ι RecordedUpdate) (r : Recorder)
    (update : RecordedUpdate) :
    ((s.write update).file s.session).foldl Recorder.write r =
      ((s.file s.session).foldl Recorder.write r).write update := by
  have hfile : (s.write update).file s.session = s.file s.session ++ [update] :=
    Function.update_self ..
  rw [hfile, List.foldl_append]
  rfl

/-- A recorder for a format before its first session. -/
def newRecorder (format : RecordingFormat) : Recorder := ⟨format, false, [], 0, 0⟩

/-- An update without levels. -/
def emptyUpdate : RecordedUpdate where
  exchange := .binance
  symbol := lit "X"
  timestamp := 1
  updateId := 0
  bids := []
  asks := []

theorem bytesCounted_oneJson :
    ((newRecorder .json).session [emptyUpdate]).BytesCounted :=
  (bytesCounted_iff (newRecorder .json) rfl [emptyUpdate]).mpr (by decide +kernel)

/-- Two JSON records of the same length are counted as three. -/
theorem bytesCounted_fails :
    ¬ ∀ (r : Recorder) (updates : List RecordedUpdate), r.recording = false →
      (r.session updates).BytesCounted := by
  intro h
  have hjson := h (newRecorder .json) [emptyUpdate, emptyUpdate] rfl
  revert hjson
  decide +kernel

end OrderbookEngine.MarketDataRecorder
