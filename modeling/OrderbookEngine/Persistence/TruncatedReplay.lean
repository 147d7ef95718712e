import OrderbookEngine.Persistence.Replayer

/-!
# Replaying a recording that was cut off

A recorder that crashes leaves a prefix of its file. The replay delivers the records
that are complete, and one more made of uninitialised locals as soon as the
timestamp of the next record is there.
-/

namespace OrderbookEngine

open Bytes MarketDataRecorder MarketDataReplayer BinaryFormat

namespace TruncatedReplay

/-- The records whose bytes are all among the first `n` after the header. -/
def completeRecords : Nat → List RecordedUpdate → List RecordedUpdate
  | _, [] => []
  | n, update :: updates =>
    if (writeBinary update).length ≤ n then
      update :: completeRecords (n - (writeBinary update).length) updates
    else []

/-- The bytes of a file after its complete records. -/
def leftOver (updates : List RecordedUpdate) (file : List UInt8) : Nat :=
  file.length - 12 - ((completeRecords (file.length - 12) updates).flatMap writeBinary).length

/-- A replay of the file returns and invokes the callback on the complete records,
whatever the uninitialised locals hold. -/
def ReplaysComplete (updates : List RecordedUpdate) (file : List UInt8) : Prop :=
  ∀ header locals playback, ∃ r, openFile header .binary file = some r ∧
    ∃ fuel delivered r', replay fuel locals playback r = some (delivered, r') ∧
      delivered.map (·.update) = (completeRecords (file.length - 12) updates).map content

theorem completeRecords_subset (n : Nat) (updates : List RecordedUpdate) :
    ∀ u ∈ completeRecords n updates, u ∈ updates := by
  induction updates generalizing n with
  | nil => exact fun u hu => hu
  | cons update updates ih =>
    intro u hu
    rw [completeRecords] at hu
    split at hu
    · rcases List.mem_cons.mp hu with rfl | hu
      · exact List.mem_cons_self
      · exact List.mem_cons_of_mem _ (ih _ u hu)
    · cases hu

/-- A prefix of the records' bytes is the complete records and bytes without a record
in front. -/
theorem exists_leftOver {updates : List RecordedUpdate} (hfits : ∀ u ∈ updates, Fits u)
    {bytes : List UInt8} (h : bytes <+: updates.flatMap writeBinary) :
    ∃ rest, bytes = (completeRecords bytes.length updates).flatMap writeBinary ++ rest ∧
      Incomplete rest := by
  induction updates generalizing bytes with
  | nil =>
    obtain rfl : bytes = [] := List.prefix_nil.mp h
    exact ⟨[], rfl, incomplete_nil⟩
  | cons update updates ih =>
    rw [List.flatMap_cons] at h
    rw [completeRecords]
    split
    · rename_i hle
      obtain ⟨bytes', rfl⟩ : writeBinary update <+: bytes :=
        List.prefix_of_prefix_length_le (List.prefix_append _ _) h hle
      obtain ⟨rest, hrest, hincomplete⟩ := ih (fun u hu => hfits u (List.mem_cons_of_mem _ hu))
        ((List.prefix_append_right_inj _).mp h)
      refine ⟨rest, ?_, hincomplete⟩
      rw [List.length_append, Nat.add_sub_cancel_left, List.flatMap_cons, List.append_assoc,
        ← hrest]
    · rename_i hlt
      obtain ⟨tail, htail⟩ : bytes <+: writeBinary update :=
        List.prefix_of_prefix_length_le h (List.prefix_append _ _) (by omega)
      refine ⟨bytes, rfl, incomplete_of_append (hfits _ List.mem_cons_self) htail.symm ?_⟩
      rintro rfl
      rw [List.append_nil] at htail
      rw [htail] at hlt
      exact hlt le_rfl

/-- A prefix of a recording is replayed as its complete records, and one more if eight
bytes or more are left over. -/
theorem replay_prefix {updates : List RecordedUpdate} (hfits : ∀ u ∈ updates, Fits u)
    {file : List UInt8} (hcut : file <+: recordedFile updates) (hheader : 12 ≤ file.length)
    (header : HeaderLocals) (locals : Nat → RecordLocals) (playback : Playback) :
    ∃ r, openFile header .binary file = some r ∧
      ∃ fuel delivered r', replay fuel locals playback r = some (delivered, r') ∧
        ∃ cut : List RecordedUpdate, (cut = [] ↔ leftOver updates file < 8) ∧
          delivered.map (·.update) =
            (completeRecords (file.length - 12) updates).map content ++ cut := by
  obtain ⟨bytes, rfl⟩ : writeHeader .binary <+: file :=
    List.prefix_of_prefix_length_le (List.prefix_append _ _) hcut hheader
  obtain ⟨rest, hbytes, hincomplete⟩ :=
    exists_leftOver hfits ((List.prefix_append_right_inj _).mp hcut)
  have hlength : (writeHeader .binary ++ bytes).length - 12 = bytes.length := by
    rw [List.length_append, length_writeHeader]
    omega
  have hleft : leftOver updates (writeHeader .binary ++ bytes) = rest.length := by
    have := congrArg List.length hbytes
    rw [List.length_append] at this
    rw [leftOver, hlength]
    omega
  have hcomplete : ∀ u ∈ completeRecords bytes.length updates, Fits u :=
    fun u hu => hfits u (completeRecords_subset _ _ u hu)
  obtain ⟨fuel, hfuel⟩ := replay_records locals playback
    (r := ⟨writeHeader .binary ++ bytes, .binary, openStream bytes⟩) rfl hcomplete hincomplete
    (congrArg openStream hbytes)
  refine ⟨_, openFile_writeHeader header bytes, fuel, _, _, hfuel,
    cutRecord (locals (completeRecords bytes.length updates).length) rest, ?_, ?_⟩
  · rw [hleft]
    exact cutRecord_eq_nil_iff _ hincomplete
  · rw [map_update_paced, hlength]

/-- Eight bytes left over give a record too many. -/
theorem not_replaysComplete {updates : List RecordedUpdate} (hfits : ∀ u ∈ updates, Fits u)
    {file : List UInt8} (hcut : file <+: recordedFile updates) (hheader : 12 ≤ file.length)
    (hleft : 8 ≤ leftOver updates file) : ¬ ReplaysComplete updates file := by
  intro h
  let locals : Nat → RecordLocals := fun _ => default
  let playback : Playback := ⟨0, fun _ => 0⟩
  obtain ⟨r, hr, fuel, delivered, r', hout, hdelivered⟩ := h default locals playback
  obtain ⟨r₀, hr₀, fuel₀, delivered₀, r₀', hout₀, cut, hextra, hdelivered₀⟩ :=
    replay_prefix hfits hcut hheader default locals playback
  obtain rfl : r = r₀ := Option.some.inj (hr.symm.trans hr₀)
  obtain rfl : delivered = delivered₀ := congrArg Prod.fst (replay_unique hout hout₀)
  rw [hdelivered₀, List.append_right_eq_self, hextra] at hdelivered
  omega

/-- A prefix of a recording is replayed as its complete records exactly when it ends
less than eight bytes after them. -/
theorem replaysComplete_iff {updates : List RecordedUpdate} (hfits : ∀ u ∈ updates, Fits u)
    {file : List UInt8} (hcut : file <+: recordedFile updates) (hheader : 12 ≤ file.length) :
    ReplaysComplete updates file ↔ leftOver updates file < 8 := by
  constructor
  · intro h
    by_contra hleft
    exact not_replaysComplete hfits hcut hheader (not_lt.mp hleft) h
  · intro hleft header locals playback
    obtain ⟨r, hr, fuel, delivered, r', hout, cut, hextra, hdelivered⟩ :=
      replay_prefix hfits hcut hheader header locals playback
    refine ⟨r, hr, fuel, delivered, r', hout, ?_⟩
    rw [hdelivered, hextra.mpr hleft, List.append_nil]

section Prefixes

/-- A record without levels. -/
def shortRecord : RecordedUpdate where
  exchange := .binance
  symbol := lit "BTC-USD"
  timestamp := 1
  updateId := 0
  bids := []
  asks := []

theorem fits_shortRecord : ∀ u ∈ [shortRecord], Fits u :=
  List.forall_mem_singleton.mpr ⟨by decide, by decide, by decide⟩

/-- A crash in the timestamp of the only record. -/
theorem replaysComplete_iff_cutTimestamp :
    ReplaysComplete [shortRecord] ((recordedFile [shortRecord]).take 15) :=
  (replaysComplete_iff fits_shortRecord (List.take_prefix _ _) (by decide +kernel)).mpr
    (by decide +kernel)

/-- A crash after the timestamp of the only record. -/
theorem replaysComplete_fails : ∃ updates file, (∀ u ∈ updates, Fits u) ∧
    file <+: recordedFile updates ∧ 12 ≤ file.length ∧ ¬ ReplaysComplete updates file := by
  have hcut := List.take_prefix 20 (recordedFile [shortRecord])
  have hheader : 12 ≤ ((recordedFile [shortRecord]).take 20).length := by decide +kernel
  have hleft : 8 ≤ leftOver [shortRecord] ((recordedFile [shortRecord]).take 20) := by
    decide +kernel
  exact ⟨_, _, fits_shortRecord, hcut, hheader,
    not_replaysComplete fits_shortRecord hcut hheader hleft⟩

end Prefixes

end TruncatedReplay

end OrderbookEngine
