import OrderbookEngine.Persistence.Replayer

/-!
# Replaying from a time

`replay_from` starts its search at byte 16, four bytes into the first record, and
consumes the record that it finds. What it delivers is right only if the misread
bytes happen to end a record just before the ones that are due.
-/

namespace OrderbookEngine

open Bytes MarketDataRecorder MarketDataReplayer BinaryFormat Loop

namespace ReplaySeek

/-- The records from the first one on that is not before a time. -/
def recordsFrom (startTime : UInt64) (updates : List RecordedUpdate) : List RecordedUpdate :=
  updates.dropWhile (·.timestamp < startTime)

/-- The records between two times. -/
def recordsIn (startTime endTime : UInt64) (updates : List RecordedUpdate) :
    List RecordedUpdate :=
  updates.filter fun u => startTime ≤ u.timestamp ∧ u.timestamp ≤ endTime

/-- A call on the freshly opened recording returns and invokes the callback on the
expected records, whatever the uninitialised locals hold. -/
def Delivers
    (call : Nat → (Nat → RecordLocals) → Playback → Replayer → Option (List Delivery × Replayer))
    (updates expected : List RecordedUpdate) : Prop :=
  ∀ header locals playback, ∃ r, openFile header .binary (recordedFile updates) = some r ∧
    ∃ fuel delivered r', call fuel locals playback r = some (delivered, r') ∧
      delivered.map (·.update) = expected.map content

/-- `replay_from` delivers the records from the first one on that is not before the
time. -/
def DeliversFrom (updates : List RecordedUpdate) (startTime : UInt64) : Prop :=
  Delivers (fun fuel locals playback => replayFrom fuel locals playback startTime) updates
    (recordsFrom startTime updates)

/-- `replay_range` delivers the records between the times. -/
def DeliversRange (updates : List RecordedUpdate) (startTime endTime : UInt64) : Prop :=
  Delivers (fun fuel locals playback => replayRange fuel locals playback startTime endTime)
    updates (recordsIn startTime endTime updates)

/-- The bytes are complete records up to the first one that is not before a time, and
what follows it. -/
def Finds (startTime : UInt64) (bytes after : List UInt8) : Prop :=
  ∃ (skipped : List RecordedUpdate) (found : RecordedUpdate),
    (∀ u ∈ skipped, Fits u ∧ u.timestamp < startTime) ∧ Fits found ∧
      startTime ≤ found.timestamp ∧
      bytes = skipped.flatMap writeBinary ++ (writeBinary found ++ after)

/-- The bytes are the records and fewer than eight bytes more, or the records without
some zeros at the end of the last one's asks. -/
def ReplaysAs (bytes : List UInt8) (records : List RecordedUpdate) : Prop :=
  (∃ more : List UInt8, more.length < 8 ∧ bytes = records.flatMap writeBinary ++ more) ∨
    ∃ (pre : List RecordedUpdate) (last : RecordedUpdate) (part : List UInt8),
      records = pre ++ [last] ∧ ZerosMissing part last ∧ bytes = pre.flatMap writeBinary ++ part

/-- From the fifth byte of the data on, the first complete record that is not before the
time is followed by the expected records; there is one unless none are expected. -/
def Resumes (updates : List RecordedUpdate) (startTime : UInt64)
    (expected : List RecordedUpdate) : Prop :=
  (∀ after, Finds startTime ((updates.flatMap writeBinary).drop 4) after →
      ReplaysAs after expected) ∧
    (expected ≠ [] → ∃ after, Finds startTime ((updates.flatMap writeBinary).drop 4) after)

section Replays

variable {records expected : List RecordedUpdate} {bytes after : List UInt8}

/-- The bytes of records do not tell their update ids. -/
theorem flatMap_writeBinary_congr (h : records.map content = expected.map content) :
    records.flatMap writeBinary = expected.flatMap writeBinary := by
  have hcontent : ∀ l : List RecordedUpdate,
      (l.map content).flatMap writeBinary = l.flatMap writeBinary := fun l => List.flatMap_map ..
  rw [← hcontent records, h, hcontent]

/-- Locals whose number of asks has another high byte. -/
def otherLocals (numAsks : Nat) : RecordLocals :=
  ⟨0, 0, .replicate 256 0, 0, if numAsks / 256 = 0 then 256 else 0⟩

theorem otherLocals_ne (numAsks : Nat) :
    numAsks / 256 ≠ (otherLocals numAsks).numAsks.toNat / 256 := by
  rw [otherLocals]
  split
  · rename_i h
    rw [h]
    decide
  · assumption

/-- Bytes that replay as the expected records do so whatever the locals hold. -/
theorem ReplaysAs.replay (h : ReplaysAs after expected) (hfits : ∀ u ∈ expected, Fits u)
    {r : Replayer} (hformat : r.format = .binary) (hstream : r.stream = openStream after)
    (locals : Nat → RecordLocals) (playback : Playback) :
    ∃ fuel delivered r', replay fuel locals playback r = some (delivered, r') ∧
      delivered.map (·.update) = expected.map content := by
  rcases h with ⟨more, hmore, rfl⟩ | ⟨pre, last, part, rfl, hzeros, rfl⟩
  · have hincomplete := incomplete_of_length_lt (hmore.trans (by decide))
    obtain ⟨fuel, hfuel⟩ := replay_records locals playback hformat hfits hincomplete hstream
    refine ⟨fuel, _, _, hfuel, ?_⟩
    rw [map_update_paced, (cutRecord_eq_nil_iff _ hincomplete).mpr hmore, List.append_nil]
  · obtain ⟨hpre, hlast⟩ := List.forall_mem_append.mp hfits
    have hlast := List.forall_mem_singleton.mp hlast
    obtain ⟨fuel, hfuel⟩ :=
      replay_records locals playback hformat hpre (hzeros.incomplete hlast) hstream
    refine ⟨fuel, _, _, hfuel, ?_⟩
    rw [map_update_paced, cutRecord, readBinary_of_zerosMissing _ hlast hzeros, List.map_append]
    rfl

/-- If a cut record comes out as the same record whatever the locals hold, all its asks
are counted. -/
theorem zerosMissing_of_cutRecord {rest : List UInt8} (hrest : Incomplete rest)
    {last : RecordedUpdate}
    (h : cutRecord (otherLocals last.asks.length) rest = [content last]) :
    ZerosMissing rest last := by
  rcases readBinary_incomplete (otherLocals last.asks.length) hrest with
    ⟨-, hread⟩ | ⟨-, update, hread, -, hcut⟩
  · rw [cutRecord, hread] at h
    cases h
  · rw [cutRecord, hread, Option.toList_some] at h
    obtain rfl : update = content last := List.singleton_inj.mp h
    exact hcut.resolve_left (otherLocals_ne _)

/-- Bytes of which every replay delivers the expected records replay as these. -/
theorem replaysAs_of_replay {r : Replayer} (hformat : r.format = .binary)
    (hstream : r.stream = openStream after)
    (h : ∀ locals playback, ∃ fuel delivered r',
      replay fuel locals playback r = some (delivered, r') ∧
        delivered.map (·.update) = expected.map content) : ReplaysAs after expected := by
  obtain ⟨records, rest, hrecords, hbytes, hrest⟩ := exists_records after
  have hdelivered : ∀ locals,
      records.map content ++ cutRecord locals rest = expected.map content := by
    intro locals
    obtain ⟨fuel, delivered, r', hout, hdelivered⟩ := h (fun _ => locals) ⟨0, fun _ => 0⟩
    obtain ⟨fuel', hout'⟩ := replay_records (fun _ => locals) ⟨0, fun _ => 0⟩ hformat hrecords
      hrest (hstream.trans (congrArg openStream hbytes))
    obtain rfl : delivered = _ := congrArg Prod.fst (replay_unique hout hout')
    rw [← hdelivered, map_update_paced]
  rcases lt_or_ge rest.length 8 with hshort | hlong
  · left
    have hall := hdelivered (otherLocals 0)
    rw [(cutRecord_eq_nil_iff _ hrest).mpr hshort, List.append_nil] at hall
    exact ⟨rest, hshort, by rw [hbytes, flatMap_writeBinary_congr hall]⟩
  · right
    have hcut : ∀ locals, ∃ update, cutRecord locals rest = [update] := by
      intro locals
      rcases readBinary_incomplete locals hrest with ⟨hlt, -⟩ | ⟨-, update, hread, -⟩
      · omega
      · exact ⟨update, by rw [cutRecord, hread, Option.toList_some]⟩
    rcases List.eq_nil_or_concat' expected with rfl | ⟨pre, last, rfl⟩
    · obtain ⟨update, hupdate⟩ := hcut (otherLocals 0)
      have hall := hdelivered (otherLocals 0)
      rw [hupdate, List.map_nil] at hall
      cases (List.append_eq_nil_iff.mp hall).2
    · obtain ⟨update, hupdate⟩ := hcut (otherLocals last.asks.length)
      have hall := hdelivered (otherLocals last.asks.length)
      rw [List.map_append, List.map_singleton] at hall
      obtain ⟨hpre, hlast⟩ := List.append_inj' hall (by rw [hupdate]; rfl)
      exact ⟨pre, last, rest, rfl, zerosMissing_of_cutRecord hrest hlast,
        by rw [hbytes, flatMap_writeBinary_congr hpre]⟩

end Replays

section Search

variable {startTime : UInt64} {bytes after : List UInt8}

theorem searchStep_of_record (locals : Nat → RecordLocals) (i : Nat) {u : RecordedUpdate}
    (hfits : Fits u) (rest : List UInt8) :
    searchStep locals startTime (i, openStream (writeBinary u ++ rest)) =
      if startTime ≤ u.timestamp then .inr (some (i + 1), openStream rest)
      else .inl (i + 1, openStream rest) := by
  simp only [searchStep, readBinary_writeBinary rest _ hfits, content, ge_iff_le]

/-- The search stops after the record that is found. -/
theorem returns_search_of_finds (h : Finds startTime bytes after) :
    ∀ i, ∃ j, ∀ locals,
      Returns (searchStep locals startTime) (i, openStream bytes) (some j, openStream after) := by
  obtain ⟨skipped, found, hskipped, hfits, hfound, rfl⟩ := h
  induction skipped with
  | nil =>
    intro i
    refine ⟨i + 1, fun locals => returns_of_result ?_⟩
    rw [List.flatMap_nil, List.nil_append, searchStep_of_record _ _ hfits, if_pos hfound]
  | cons u skipped ih =>
    intro i
    obtain ⟨⟨hu, hlt⟩, hskipped⟩ := List.forall_mem_cons.mp hskipped
    obtain ⟨j, hj⟩ := ih hskipped (i + 1)
    refine ⟨j, fun locals => ?_⟩
    rw [List.flatMap_cons, List.append_assoc]
    refine (returns_next_iff ?_).mpr (hj locals)
    rw [searchStep_of_record _ _ hu, if_neg (UInt64.not_le.mpr hlt)]

/-- Where there is no record to be found, the search reaches the end of the file. -/
theorem returns_search_of_not_finds (locals : Nat → RecordLocals)
    (h : ∀ after, ¬ Finds startTime bytes after) (i : Nat) :
    ∃ found, Returns (searchStep locals startTime) (i, openStream bytes) (found, endedStream) := by
  obtain ⟨records, rest, hrecords, rfl, hrest⟩ := exists_records bytes
  induction records generalizing i with
  | nil =>
    rw [List.flatMap_nil, List.nil_append]
    have hended : ∀ j, searchStep locals startTime (j, endedStream) = .inr (none, endedStream) := by
      intro j
      simp only [searchStep, readBinary_endedStream]
    rcases readBinary_incomplete (locals i) hrest with ⟨-, hread⟩ | ⟨-, update, hread, -, -⟩
    · exact ⟨none, returns_of_result (by simp only [searchStep, hread])⟩
    · by_cases hfound : update.timestamp ≥ startTime
      · exact ⟨some (i + 1), returns_of_result (by simp only [searchStep, hread, if_pos hfound])⟩
      · refine ⟨none, (returns_next_iff ?_).mpr (returns_of_result (hended (i + 1)))⟩
        simp only [searchStep, hread, if_neg hfound]
  | cons u records ih =>
    obtain ⟨hu, hrecords⟩ := List.forall_mem_cons.mp hrecords
    rw [List.flatMap_cons, List.append_assoc] at h ⊢
    have hlt : ¬ startTime ≤ u.timestamp := fun hle =>
      h _ ⟨[], u, by simp, hu, hle, rfl⟩
    have hnone : ∀ after, ¬ Finds startTime (records.flatMap writeBinary ++ rest) after := by
      rintro after ⟨skipped, found, hskipped, hfits, hle, hbytes⟩
      refine h after ⟨u :: skipped, found, ?_, hfits, hle, ?_⟩
      · exact List.forall_mem_cons.mpr ⟨⟨hu, UInt64.not_le.mp hlt⟩, hskipped⟩
      · rw [hbytes, List.flatMap_cons, List.append_assoc]
    obtain ⟨found, hfound⟩ := ih (i + 1) hrecords hnone
    refine ⟨found, (returns_next_iff ?_).mpr hfound⟩
    rw [searchStep_of_record _ _ hu, if_neg hlt]

/-- After a search that reaches the end of the file nothing is delivered. -/
theorem exists_replayFrom_of_ended {locals : Nat → RecordLocals} (playback : Playback)
    {r : Replayer} (hformat : r.format = .binary) {found : Option Nat}
    (h : Returns (searchStep locals startTime) (0, seekg r.file 16 r.stream)
      (found, endedStream)) :
    ∃ r' fuel, replayFrom fuel locals playback startTime r = some ([], r') := by
  cases found with
  | none => exact ⟨_, replayFrom_eq_some_iff.mpr (Or.inl ⟨endedStream, h, rfl⟩)⟩
  | some i =>
    have hended := replay_endedStream (fun j => locals (i + j)) playback
      (r := { r with stream := endedStream }) hformat rfl
    exact ⟨_, replayFrom_eq_some_iff.mpr (Or.inr ⟨i, endedStream, h, hended⟩)⟩

end Search

section Seeks

variable {updates expected : List RecordedUpdate}

theorem seekg_fresh (updates : List RecordedUpdate) :
    seekg (fresh updates).file 16 (fresh updates).stream =
      openStream ((updates.flatMap writeBinary).drop 4) :=
  congrArg openStream (drop_recordedFile updates)

/-- Where the search finds a record, `replay_from` is a replay of what follows it. -/
theorem replayFrom_fresh_of_finds {startTime : UInt64} {after : List UInt8}
    (h : Finds startTime ((updates.flatMap writeBinary).drop 4) after) :
    ∃ j, ∀ locals playback out,
      (∃ fuel, replayFrom fuel locals playback startTime (fresh updates) = some out) ↔
        ∃ fuel, replay fuel (fun n => locals (j + n)) playback
          { fresh updates with stream := openStream after } = some out := by
  obtain ⟨j, hj⟩ := returns_search_of_finds h 0
  refine ⟨j, fun locals playback out => ?_⟩
  have hsearched := hj locals
  rw [← seekg_fresh] at hsearched
  rw [replayFrom_eq_some_iff]
  constructor
  · rintro (⟨stream, hsearch, -⟩ | ⟨i, stream, hsearch, hreplay⟩)
    · cases hsearched.unique hsearch
    · cases hsearched.unique hsearch
      exact hreplay
  · intro hreplay
    exact Or.inr ⟨j, openStream after, hsearched, hreplay⟩

/-- Where it finds none, nothing is delivered. -/
theorem replayFrom_fresh_of_not_finds {startTime : UInt64}
    (h : ∀ after, ¬ Finds startTime ((updates.flatMap writeBinary).drop 4) after)
    (locals : Nat → RecordLocals) (playback : Playback) :
    ∃ r' fuel, replayFrom fuel locals playback startTime (fresh updates) = some ([], r') := by
  obtain ⟨found, hsearch⟩ := returns_search_of_not_finds locals h 0
  rw [← seekg_fresh] at hsearch
  exact exists_replayFrom_of_ended playback rfl hsearch

/-- A `replay_from` delivers the expected records exactly when the misread data resumes
with them. -/
theorem delivers_iff (hfits : ∀ u ∈ expected, Fits u) (startTime : UInt64) :
    Delivers (fun fuel locals playback => replayFrom fuel locals playback startTime) updates
        expected ↔ Resumes updates startTime expected := by
  constructor
  · intro h
    have hfresh : ∀ locals playback, ∃ fuel delivered r',
        replayFrom fuel locals playback startTime (fresh updates) = some (delivered, r') ∧
          delivered.map (·.update) = expected.map content := by
      intro locals playback
      obtain ⟨r, hr, hout⟩ := h default locals playback
      obtain rfl := Option.some.inj ((openFile_fresh _ updates).symm.trans hr)
      exact hout
    refine ⟨fun after hfinds => ?_, fun hne => ?_⟩
    · obtain ⟨j, hj⟩ := replayFrom_fresh_of_finds hfinds
      refine replaysAs_of_replay (r := { fresh updates with stream := openStream after }) rfl rfl ?_
      intro locals playback
      -- the search takes the first locals
      let shifted : Nat → RecordLocals := fun n => locals (n - j)
      have hshifted : (fun n => shifted (j + n)) = locals := by
        funext n
        exact congrArg locals (Nat.add_sub_cancel_left j n)
      obtain ⟨fuel, delivered, r', hout, hdelivered⟩ := hfresh shifted playback
      obtain ⟨n, hreplay⟩ := (hj shifted playback _).mp ⟨fuel, hout⟩
      rw [hshifted] at hreplay
      exact ⟨n, delivered, r', hreplay, hdelivered⟩
    · by_contra hnone
      obtain ⟨fuel, delivered, r', hout, hdelivered⟩ :=
        hfresh (fun _ => otherLocals 0) ⟨0, fun _ => 0⟩
      obtain ⟨r'', fuel', hended⟩ := replayFrom_fresh_of_not_finds (not_exists.mp hnone)
        (fun _ => otherLocals 0) ⟨0, fun _ => 0⟩
      cases replayFrom_unique hout hended
      exact hne (List.map_eq_nil_iff.mp hdelivered.symm)
  · rintro ⟨hresumes, hfound⟩ header locals playback
    refine ⟨fresh updates, openFile_fresh header updates, ?_⟩
    by_cases hfinds : ∃ after, Finds startTime ((updates.flatMap writeBinary).drop 4) after
    · obtain ⟨after, hfinds⟩ := hfinds
      obtain ⟨j, hj⟩ := replayFrom_fresh_of_finds hfinds
      obtain ⟨n, delivered, r', hreplay, hdelivered⟩ := (hresumes after hfinds).replay hfits
        (r := { fresh updates with stream := openStream after }) rfl rfl
        (fun n => locals (j + n)) playback
      obtain ⟨fuel, hfuel⟩ := (hj locals playback _).mpr ⟨n, hreplay⟩
      exact ⟨fuel, delivered, r', hfuel, hdelivered⟩
    · obtain ⟨r', fuel, hended⟩ :=
        replayFrom_fresh_of_not_finds (not_exists.mp hfinds) locals playback
      refine ⟨fuel, [], r', hended, ?_⟩
      rw [not_imp_comm.mp hfound hfinds]
      rfl

/-- `replay_from` and `replay_range` on a fresh replayer of a recording deliver the right
records exactly when the data, misread from its fifth byte on, resumes with these. -/
theorem seeks_iff (hfits : ∀ u ∈ updates, Fits u) (startTime endTime : UInt64) :
    (DeliversFrom updates startTime ↔
        Resumes updates startTime (recordsFrom startTime updates)) ∧
      (DeliversRange updates startTime endTime ↔
        Resumes updates startTime (recordsIn startTime endTime updates)) := by
  constructor
  · exact delivers_iff (fun u hu => hfits u ((List.dropWhile_suffix _).subset hu)) startTime
  · exact delivers_iff (fun u hu => hfits u (List.mem_of_mem_filter hu)) startTime

/-- In fewer bytes than a record nothing is found. -/
theorem not_finds_of_length_lt {startTime : UInt64} {bytes after : List UInt8}
    (h : bytes.length < 14) : ¬ Finds startTime bytes after := by
  rintro ⟨skipped, found, -, hfits, -, rfl⟩
  have hlength := length_writeBinary_ge found
  rw [List.length_append, List.length_append] at h
  omega

/-- One record before the times: nothing is due, and nothing is delivered. -/
theorem seeks_iff_before : DeliversFrom [emptyRecord 1] 5 ∧ DeliversRange [emptyRecord 1] 5 9 := by
  have hfits : ∀ u ∈ [emptyRecord 1], Fits u :=
    List.forall_mem_singleton.mpr (fits_emptyRecord 1)
  have hresumes : Resumes [emptyRecord 1] 5 [] :=
    ⟨fun _ h => absurd h (not_finds_of_length_lt (by decide +kernel)), fun h => absurd rfl h⟩
  exact ⟨(seeks_iff hfits 5 9).1.mpr hresumes, (seeks_iff hfits 5 9).2.mpr hresumes⟩

/-- One record that is due is not delivered. -/
theorem seeks_fails : ∃ updates startTime endTime, (∀ u ∈ updates, Fits u) ∧
    ¬ DeliversFrom updates startTime ∧ ¬ DeliversRange updates startTime endTime := by
  have hfits : ∀ u ∈ [emptyRecord 1], Fits u :=
    List.forall_mem_singleton.mpr (fits_emptyRecord 1)
  have hnone : ¬ Resumes [emptyRecord 1] 1 [emptyRecord 1] := by
    rintro ⟨-, hfound⟩
    obtain ⟨after, hfinds⟩ := hfound (List.cons_ne_nil _ _)
    exact not_finds_of_length_lt (by decide +kernel) hfinds
  exact ⟨[emptyRecord 1], 1, 1, hfits, fun h => hnone ((delivers_iff hfits 1).mp h),
    fun h => hnone ((delivers_iff hfits 1).mp h)⟩

end Seeks

end ReplaySeek

end OrderbookEngine
