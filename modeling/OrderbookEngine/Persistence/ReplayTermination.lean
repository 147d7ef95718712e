import OrderbookEngine.Persistence.Replayer

/-!
# Whether the calls of a replayer return

The loops of the replayer stop when a read reaches the end of the file. A stream that
has failed is not moved by a seek, but no longer counts as being at the end: a
seek after a replay makes every later read hand out a record of locals.
-/

namespace OrderbookEngine

open Bytes MarketDataRecorder MarketDataReplayer BinaryFormat Loop

namespace ReplayTermination

/-- A call of the replayer. -/
inductive Call where
  | replay
  | replayFrom (startTime : UInt64)
  | replayRange (startTime endTime : UInt64)
  | getFileInfo

/-- A call, what its uninitialised locals hold, and the clock readings during it. -/
structure Invocation where
  call : Call
  locals : Nat → RecordLocals
  clock : Nat → UInt64

/-- The replayer after a call at speed 0. -/
def runCall (fuel : Nat) (i : Invocation) (r : Replayer) : Option Replayer :=
  match i.call with
  | .replay => (replay fuel i.locals ⟨0, i.clock⟩ r).map (·.2)
  | .replayFrom startTime => (replayFrom fuel i.locals ⟨0, i.clock⟩ startTime r).map (·.2)
  | .replayRange startTime endTime =>
    (replayRange fuel i.locals ⟨0, i.clock⟩ startTime endTime r).map (·.2)
  | .getFileInfo => (getFileInfo fuel i.locals r).map (·.2)

/-- The replayer after some calls, each of which returned. -/
def runCalls (fuel : Nat) : List Invocation → Replayer → Option Replayer
  | [], r => some r
  | i :: calls, r => (runCall fuel i r).bind (runCalls fuel calls)

/-- A call that seeks finds a stream that has not failed; or the search ends at once and
the format leaves nothing to replay. -/
def SeeksSafely (call : Call) (r : Replayer) : Prop :=
  match call with
  | .replay => True
  | .replayFrom startTime | .replayRange startTime _ =>
    r.stream.failbit = false ∨ startTime = 0 ∧ r.format ≠ .binary
  | .getFileInfo => r.stream.failbit = false

/-- The stream of a binary file has failed only at its end. -/
def FailedAtEnd (r : Replayer) : Prop :=
  r.format = .binary → r.stream.failbit = true → r.stream.eofbit = true

section Loops

/-- A loop that goes on only with the stream that a record was read from returns, if the
stream fails at the end only. -/
theorem exists_returns_of_reads {σ ρ : Type} {step : σ → σ ⊕ ρ} (stream : σ → IStream)
    (hstep : ∀ s s', step s = .inl s' →
      ∃ locals update, readBinary locals (stream s) = (some update, stream s'))
    {s : σ} (hs : (stream s).failbit = true → (stream s).eofbit = true) :
    ∃ result, Returns step s result := by
  refine exists_returns (fun s => (stream s).failbit = true → (stream s).eofbit = true)
    (fun s => remaining (stream s)) ?_ hs
  intro s hs s' hnext
  obtain ⟨locals, update, hread⟩ := hstep s s' hnext
  exact readBinary_progress hs hread

end Loops

section Replay

variable {locals : Nat → RecordLocals} {playback : Playback} {r : Replayer}

/-- A replay returns if the stream has failed at the end only. -/
theorem exists_replay (locals : Nat → RecordLocals) (playback : Playback) (hr : FailedAtEnd r) :
    ∃ fuel out, replay fuel locals playback r = some out := by
  have hreturns : ∃ result,
      Returns (replayStep r.format locals playback) ⟨0, 0, 0, r.stream, []⟩ result := by
    by_cases hformat : r.format = .binary
    · rw [hformat]
      exact exists_returns_of_reads ReplayState.stream
        (fun _ _ hnext => ⟨_, replayStep_eq_inl hnext⟩) (hr hformat)
    · exact ⟨_, returns_of_result (replayStep_of_format hformat _)⟩
  obtain ⟨result, fuel, hfuel⟩ := hreturns
  exact ⟨fuel, _, by rw [replay, hfuel, Option.map_some]⟩

/-- A replay of a binary file that failed before its end does not return. -/
theorem replay_of_failed (hformat : r.format = .binary) (hfail : r.stream.failbit = true)
    (heof : r.stream.eofbit = false) (fuel : Nat) : replay fuel locals playback r = none := by
  by_contra h
  obtain ⟨out, hout⟩ := Option.ne_none_iff_exists'.mp h
  obtain ⟨result, hresult, -⟩ := Option.map_eq_some_iff.mp hout
  rw [hformat] at hresult
  refine not_returns (fun s => s.stream = r.stream) ?_ rfl ⟨fuel, hresult⟩
  intro s hs
  obtain ⟨update, hread, -⟩ := readBinary_of_failed (locals s.count) heof hfail
  rw [← hs] at hread
  exact ⟨_, replayStep_of_update hread, hs⟩

/-- A replay keeps the file and the format, and takes a binary file to its end. -/
theorem eofbit_of_replay {fuel : Nat} {out : List Delivery × Replayer}
    (h : replay fuel locals playback r = some out) :
    out.2.file = r.file ∧ out.2.format = r.format ∧
      (r.format = .binary → out.2.stream.eofbit = true) := by
  obtain ⟨result, hresult, rfl⟩ := Option.map_eq_some_iff.mp h
  refine ⟨rfl, rfl, ?_⟩
  intro hformat
  rw [hformat] at hresult
  refine Returns.invariant (I := fun _ => True) (Q := fun result => result.2.eofbit = true)
    ⟨fuel, hresult⟩ trivial (fun _ _ _ _ => trivial) ?_
  exact fun s result _ hlast => eofbit_of_readBinary_none (replayStep_eq_inr hlast)

end Replay

section ReplayFrom

variable {locals : Nat → RecordLocals} {playback : Playback} {startTime : UInt64} {r : Replayer}

theorem seekg_of_failed {s : IStream} (file : List UInt8) (pos : Nat) (h : s.failbit = true) :
    (seekg file pos s).failbit = true ∧ (seekg file pos s).eofbit = false := by
  rw [seekg, if_pos h]
  exact ⟨h, rfl⟩

theorem seekg_of_not_failed {s : IStream} (file : List UInt8) (pos : Nat)
    (h : s.failbit = false) : seekg file pos s = openStream (file.drop pos) := by
  rw [seekg, h]
  rfl

/-- On a failed stream the search finds the timestamp 0 over and over. -/
theorem searchStep_of_failed (locals : Nat → RecordLocals) (startTime : UInt64)
    {s : Nat × IStream} (hfail : s.2.failbit = true) (heof : s.2.eofbit = false) :
    searchStep locals startTime s =
      if startTime = 0 then .inr (some (s.1 + 1), s.2) else .inl (s.1 + 1, s.2) := by
  obtain ⟨update, hread, hzero⟩ := readBinary_of_failed (locals s.1) heof hfail
  simp only [searchStep, hread, hzero, ge_iff_le, UInt64.le_zero_iff]

/-- The search leaves a stream that has failed at the end only. -/
theorem failedAtEnd_of_search {s : Nat × IStream} {result : Option Nat × IStream}
    (hs : s.2.failbit = true → s.2.eofbit = true)
    (h : Returns (searchStep locals startTime) s result) :
    result.2.failbit = true → result.2.eofbit = true := by
  refine Returns.invariant (I := fun s => s.2.failbit = true → s.2.eofbit = true)
    (Q := fun result => result.2.failbit = true → result.2.eofbit = true) h hs ?_ ?_
  · intro s s' hs hnext
    obtain ⟨update, hread⟩ := searchStep_eq_inl hnext
    exact (readBinary_progress hs hread).1
  · intro s result hs hlast
    obtain ⟨update, hread, -⟩ := searchStep_eq_inr hlast
    cases update with
    | none => exact fun _ => eofbit_of_readBinary_none hread
    | some update => exact (readBinary_progress hs hread).1

/-- From a stream that has not failed `replay_from` returns. -/
theorem exists_replayFrom_of_not_failed (h : r.stream.failbit = false) :
    ∃ out fuel, replayFrom fuel locals playback startTime r = some out := by
  have hsound : (seekg r.file 16 r.stream).failbit = true →
      (seekg r.file 16 r.stream).eofbit = true := by
    rw [seekg_of_not_failed _ _ h]
    exact fun hfail => hfail
  obtain ⟨⟨found, stream⟩, hsearch⟩ := exists_returns_of_reads Prod.snd
    (fun _ _ hnext => ⟨_, searchStep_eq_inl hnext⟩)
    (s := (0, seekg r.file 16 r.stream)) hsound
  cases found with
  | none => exact ⟨_, replayFrom_eq_some_iff.mpr (Or.inl ⟨stream, hsearch, rfl⟩)⟩
  | some i =>
    obtain ⟨fuel, out, hout⟩ := exists_replay (fun j => locals (i + j)) playback
      (r := { r with stream := stream })
      fun _ => failedAtEnd_of_search hsound hsearch
    exact ⟨out, replayFrom_eq_some_iff.mpr (Or.inr ⟨i, stream, hsearch, fuel, hout⟩)⟩

/-- `replay_from` returns exactly when its seek succeeds, or the start is 0 and the format
not binary. -/
theorem exists_replayFrom_iff :
    (∃ out fuel, replayFrom fuel locals playback startTime r = some out) ↔
      r.stream.failbit = false ∨ startTime = 0 ∧ r.format ≠ .binary := by
  cases hfailbit : r.stream.failbit with
  | false => exact iff_of_true (exists_replayFrom_of_not_failed hfailbit) (Or.inl rfl)
  | true =>
    obtain ⟨hfail, heof⟩ := seekg_of_failed r.file 16 hfailbit
    have hstep := searchStep_of_failed locals startTime
      (s := (0, seekg r.file 16 r.stream)) hfail heof
    by_cases hstart : startTime = 0
    · rw [if_pos hstart] at hstep
      have hfound := returns_of_result hstep
      by_cases hformat : r.format = .binary
      · refine iff_of_false ?_ (by simp [hformat])
        rintro ⟨out, h⟩
        rcases replayFrom_eq_some_iff.mp h with ⟨stream, hsearch, -⟩ |
          ⟨i, stream, hsearch, fuel, hout⟩
        · cases hfound.unique hsearch
        · cases hfound.unique hsearch
          rw [replay_of_failed (r := { r with stream := seekg r.file 16 r.stream }) hformat
            hfail heof] at hout
          cases hout
      · refine iff_of_true ?_ (Or.inr ⟨hstart, hformat⟩)
        obtain ⟨fuel, out, hout⟩ := exists_replay (fun j => locals (0 + 1 + j)) playback
          (r := { r with stream := seekg r.file 16 r.stream })
          fun h => absurd h hformat
        exact ⟨out, replayFrom_eq_some_iff.mpr (Or.inr ⟨_, _, hfound, fuel, hout⟩)⟩
    · refine iff_of_false ?_ (by simp [hstart])
      have hnever : ∀ result, ¬ Returns (searchStep locals startTime)
          (0, seekg r.file 16 r.stream) result := by
        intro result
        refine not_returns (fun s => s.2 = seekg r.file 16 r.stream) ?_ rfl
        rintro ⟨i, stream⟩ rfl
        refine ⟨(i + 1, seekg r.file 16 r.stream), ?_, rfl⟩
        rw [searchStep_of_failed locals startTime hfail heof, if_neg hstart]
      rintro ⟨out, h⟩
      rcases replayFrom_eq_some_iff.mp h with ⟨stream, hsearch, -⟩ | ⟨i, stream, hsearch, -⟩
      · exact hnever _ hsearch
      · exact hnever _ hsearch

/-- `replay_from` keeps the format, and takes a binary file to its end. -/
theorem eofbit_of_replayFrom {fuel : Nat} {out : List Delivery × Replayer}
    (h : replayFrom fuel locals playback startTime r = some out) :
    out.2.format = r.format ∧ (r.format = .binary → out.2.stream.eofbit = true) := by
  rcases replayFrom_eq_some_iff.mp ⟨fuel, h⟩ with ⟨stream, hsearch, rfl⟩ |
    ⟨i, stream, hsearch, n, hout⟩
  · refine ⟨rfl, fun _ => ?_⟩
    refine Returns.invariant (I := fun _ => True)
      (Q := fun result => result.1 = none → result.2.eofbit = true) hsearch trivial
      (fun _ _ _ _ => trivial) ?_ rfl
    intro s result _ hlast hnone
    obtain ⟨update, hread, hfound⟩ := searchStep_eq_inr hlast
    rw [hfound.mp hnone] at hread
    exact eofbit_of_readBinary_none hread
  · obtain ⟨-, hformat, heof⟩ := eofbit_of_replay hout
    exact ⟨hformat, heof⟩

end ReplayFrom

section FileInfo

variable {locals : Nat → RecordLocals} {r : Replayer}

theorem infoStep_of_failed {s : InfoState} (hfail : s.stream.failbit = true)
    (heof : s.stream.eofbit = false) :
    infoStep locals s = .inl ⟨s.reads + 1, 0, s.count + 1, s.stream⟩ := by
  obtain ⟨update, hread, hzero⟩ := readBinary_of_failed (locals s.reads) heof hfail
  simp only [infoStep, hread, hzero]

/-- `get_file_info` returns exactly when its seek succeeds. -/
theorem exists_getFileInfo_iff :
    (∃ out fuel, getFileInfo fuel locals r = some out) ↔ r.stream.failbit = false := by
  cases hfailbit : r.stream.failbit with
  | false =>
    refine iff_of_true ?_ rfl
    have hfirst : (readBinary (locals 0) (seekg r.file 16 r.stream)).2.failbit = true →
        (readBinary (locals 0) (seekg r.file 16 r.stream)).2.eofbit = true := by
      rw [seekg_of_not_failed _ _ hfailbit]
      rcases hread : readBinary (locals 0) (openStream (r.file.drop 16)) with ⟨_ | update, stream⟩
      · exact fun _ => eofbit_of_readBinary_none hread
      · exact (readBinary_progress (fun hfail => hfail) hread).1
    obtain ⟨result, fuel, hfuel⟩ := exists_returns_of_reads InfoState.stream
      (fun _ _ hnext => ⟨_, infoStep_eq_inl hnext⟩)
      (s := ⟨1, 0, if (readBinary (locals 0) (seekg r.file 16 r.stream)).1.isSome then 1 else 0,
        (readBinary (locals 0) (seekg r.file 16 r.stream)).2⟩) hfirst
    exact ⟨_, fuel, by rw [getFileInfo, hfuel, Option.map_some]⟩
  | true =>
    refine iff_of_false ?_ (by simp)
    rintro ⟨out, fuel, hout⟩
    obtain ⟨result, hresult, -⟩ := Option.map_eq_some_iff.mp hout
    obtain ⟨hfail, heof⟩ := seekg_of_failed r.file 16 hfailbit
    obtain ⟨update, hread, -⟩ := readBinary_of_failed (locals 0) heof hfail
    refine not_returns (fun s => s.stream = seekg r.file 16 r.stream) ?_ (congrArg Prod.snd hread)
      ⟨fuel, hresult⟩
    intro s hs
    rw [← hs] at hfail heof
    exact ⟨_, infoStep_of_failed hfail heof, hs⟩

/-- `get_file_info` keeps the format and leaves a stream that has not failed. -/
theorem not_failed_of_getFileInfo {fuel : Nat} {out : (UInt64 × UInt64 × Nat) × Replayer}
    (h : getFileInfo fuel locals r = some out) :
    out.2.format = r.format ∧ out.2.stream.failbit = false := by
  have hfailbit := exists_getFileInfo_iff.mp ⟨out, fuel, h⟩
  obtain ⟨result, -, rfl⟩ := Option.map_eq_some_iff.mp h
  refine ⟨rfl, ?_⟩
  simp only [tellg, hfailbit, Bool.false_eq_true, if_false, seekTold]
  rw [seekg_of_not_failed _ _ rfl]
  rfl

end FileInfo

section Calls

variable {i : Invocation} {calls : List Invocation} {r r' : Replayer}

theorem runCall_mono {n m : Nat} (h : runCall n i r = some r') (hle : n ≤ m) :
    runCall m i r = some r' := by
  obtain ⟨call, locals, clock⟩ := i
  cases call with
  | replay =>
    obtain ⟨out, hout, rfl⟩ := Option.map_eq_some_iff.mp h
    exact Option.map_eq_some_iff.mpr ⟨out, replay_mono hout hle, rfl⟩
  | replayFrom startTime =>
    obtain ⟨out, hout, rfl⟩ := Option.map_eq_some_iff.mp h
    exact Option.map_eq_some_iff.mpr ⟨out, replayFrom_mono hout hle, rfl⟩
  | replayRange startTime endTime =>
    obtain ⟨out, hout, rfl⟩ := Option.map_eq_some_iff.mp h
    exact Option.map_eq_some_iff.mpr ⟨out, replayFrom_mono hout hle, rfl⟩
  | getFileInfo =>
    obtain ⟨out, hout, rfl⟩ := Option.map_eq_some_iff.mp h
    exact Option.map_eq_some_iff.mpr ⟨out, getFileInfo_mono hout hle, rfl⟩

theorem runCalls_mono {n m : Nat} (h : runCalls n calls r = some r') (hle : n ≤ m) :
    runCalls m calls r = some r' := by
  induction calls generalizing r with
  | nil => exact h
  | cons i calls ih =>
    obtain ⟨r₁, hi, hcalls⟩ := Option.bind_eq_some_iff.mp h
    exact Option.bind_eq_some_iff.mpr ⟨r₁, runCall_mono hi hle, ih hcalls⟩

/-- A call returns exactly when it seeks safely. -/
theorem exists_runCall_iff (hr : FailedAtEnd r) :
    (∃ fuel r', runCall fuel i r = some r') ↔ SeeksSafely i.call r := by
  obtain ⟨call, locals, clock⟩ := i
  have hmap : ∀ {α : Type} (f : Nat → Option (α × Replayer)),
      (∃ fuel r', (f fuel).map (·.2) = some r') ↔ ∃ out fuel, f fuel = some out := by
    intro α f
    constructor
    · rintro ⟨fuel, r', h⟩
      obtain ⟨out, hout, -⟩ := Option.map_eq_some_iff.mp h
      exact ⟨out, fuel, hout⟩
    · rintro ⟨out, fuel, h⟩
      exact ⟨fuel, out.2, by rw [h, Option.map_some]⟩
  cases call with
  | replay =>
    obtain ⟨fuel, out, hout⟩ := exists_replay locals ⟨0, clock⟩ hr
    exact iff_of_true ⟨fuel, out.2, Option.map_eq_some_iff.mpr ⟨out, hout, rfl⟩⟩ trivial
  | replayFrom startTime => exact (hmap _).trans exists_replayFrom_iff
  | replayRange startTime endTime => exact (hmap _).trans exists_replayFrom_iff
  | getFileInfo => exact (hmap _).trans exists_getFileInfo_iff

/-- A call that returns leaves a stream that has failed at its end only. -/
theorem failedAtEnd_of_runCall {fuel : Nat} (h : runCall fuel i r = some r') : FailedAtEnd r' := by
  obtain ⟨call, locals, clock⟩ := i
  cases call with
  | replay =>
    obtain ⟨out, hout, rfl⟩ := Option.map_eq_some_iff.mp h
    obtain ⟨-, hformat, heof⟩ := eofbit_of_replay hout
    exact fun hbinary _ => heof (hformat ▸ hbinary)
  | replayFrom startTime =>
    obtain ⟨out, hout, rfl⟩ := Option.map_eq_some_iff.mp h
    obtain ⟨hformat, heof⟩ := eofbit_of_replayFrom hout
    exact fun hbinary _ => heof (hformat ▸ hbinary)
  | replayRange startTime endTime =>
    obtain ⟨out, hout, rfl⟩ := Option.map_eq_some_iff.mp h
    obtain ⟨hformat, heof⟩ := eofbit_of_replayFrom hout
    exact fun hbinary _ => heof (hformat ▸ hbinary)
  | getFileInfo =>
    obtain ⟨out, hout, rfl⟩ := Option.map_eq_some_iff.mp h
    obtain ⟨-, hfailbit⟩ := not_failed_of_getFileInfo hout
    intro _ hfail
    rw [hfailbit] at hfail
    cases hfail

/-- Opening leaves such a stream. -/
theorem failedAtEnd_of_openFile {header : HeaderLocals} {format : RecordingFormat}
    {file : List UInt8} (h : openFile header format file = some r) : FailedAtEnd r := by
  have hread : (readHeader header format (openStream file)).2.failbit = true →
      (readHeader header format (openStream file)).2.eofbit = true := by
    by_cases hbinary : format = .binary
    · simp only [readHeader, hbinary, if_true, bind_apply]
      have hmagic := eofbit_of_readWord 4 header.magic.toNat (s := openStream file) fun h => h
      split
      · exact hmagic
      · exact eofbit_of_readInto _ (eofbit_of_readWord _ _ (eofbit_of_readWord _ _ hmagic))
    · simp only [readHeader, hbinary, if_false]
      exact fun h => h
  rw [openFile] at h
  split at h
  · cases h
    exact fun _ => hread
  · cases h

/-- Calls return exactly when each of them that is reached seeks safely. -/
theorem runCalls_iff (hr : FailedAtEnd r) :
    (∃ fuel r', runCalls fuel calls r = some r') ↔
      ∀ pre i post, calls = pre ++ i :: post → ∀ fuel r', runCalls fuel pre r = some r' →
        SeeksSafely i.call r' := by
  induction calls generalizing r with
  | nil =>
    refine iff_of_true ⟨0, r, rfl⟩ ?_
    intro pre i post h
    cases pre <;> cases h
  | cons i calls ih =>
    constructor
    · rintro ⟨fuel, r', h⟩ pre j post hsplit n r'' hpre
      obtain ⟨r₁, hi, hcalls⟩ := Option.bind_eq_some_iff.mp h
      rcases List.cons_eq_append_iff.mp hsplit with ⟨rfl, hj⟩ | ⟨pre, rfl, rfl⟩
      · obtain ⟨rfl, rfl⟩ := List.cons_eq_cons.mp hj
        cases hpre
        exact (exists_runCall_iff hr).mp ⟨fuel, r₁, hi⟩
      · obtain ⟨r₂, hi', hpre⟩ := Option.bind_eq_some_iff.mp hpre
        have hsame := (runCall_mono hi (le_max_left fuel n)).symm.trans
          (runCall_mono hi' (le_max_right fuel n))
        cases hsame
        exact (ih (failedAtEnd_of_runCall hi)).mp ⟨fuel, r', hcalls⟩ pre j post rfl n r'' hpre
    · intro h
      obtain ⟨n, r₁, hi⟩ := (exists_runCall_iff hr).mpr (h [] i calls rfl 0 r rfl)
      have hrest : ∀ pre j post, calls = pre ++ j :: post → ∀ m r', runCalls m pre r₁ = some r' →
          SeeksSafely j.call r' := by
        rintro pre j post rfl m r' hpre
        refine h (i :: pre) j post rfl (max n m) r' (Option.bind_eq_some_iff.mpr ⟨r₁, ?_, ?_⟩)
        · exact runCall_mono hi (le_max_left n m)
        · exact runCalls_mono hpre (le_max_right n m)
      obtain ⟨m, r', hcalls⟩ := (ih (failedAtEnd_of_runCall hi)).mpr hrest
      refine ⟨max n m, r', Option.bind_eq_some_iff.mpr ⟨r₁, ?_, ?_⟩⟩
      · exact runCall_mono hi (le_max_left n m)
      · exact runCalls_mono hcalls (le_max_right n m)

/-- Every call of a sequence returns. -/
def EveryCallReturns (calls : List Invocation) (r : Replayer) : Prop :=
  ∃ fuel r', runCalls fuel calls r = some r'

/-- On an opened replayer every call returns exactly when each call that seeks finds a
stream that has not failed, or neither searches nor replays anything. -/
theorem everyCallReturns_iff {header : HeaderLocals} {format : RecordingFormat}
    {file : List UInt8} (hopen : openFile header format file = some r) :
    EveryCallReturns calls r ↔
      ∀ pre i post, calls = pre ++ i :: post → ∀ fuel r', runCalls fuel pre r = some r' →
        SeeksSafely i.call r' :=
  runCalls_iff (failedAtEnd_of_openFile hopen)

/-- A call with the same locals and clock readings throughout. -/
def plainCall (call : Call) : Invocation where
  call := call
  locals := fun _ => ⟨0, 0, .replicate 256 0, 0, 0⟩
  clock := fun _ => 0

/-- `get_file_info` and then `replay`. -/
theorem everyCallReturns_iff_infoThenReplay :
    EveryCallReturns [plainCall .getFileInfo, plainCall .replay]
      ⟨recordedFile [], .binary, openStream []⟩ := by
  refine (everyCallReturns_iff (openFile_writeHeader default [])).mpr ?_
  intro pre i post hsplit fuel r' hpre
  rcases List.cons_eq_append_iff.mp hsplit with ⟨rfl, hi⟩ | ⟨pre', rfl, hrest⟩
  · obtain ⟨rfl, rfl⟩ := List.cons_eq_cons.mp hi
    cases hpre
    rfl
  · rcases List.cons_eq_append_iff.mp hrest with ⟨rfl, hi⟩ | ⟨pre, rfl, hrest⟩
    · obtain ⟨rfl, rfl⟩ := List.cons_eq_cons.mp hi
      trivial
    · cases pre <;> cases hrest

/-- `replay` and then `replay_from`. -/
theorem everyCallReturns_fails : ∃ header format file r calls,
    openFile header format file = some r ∧ ¬ EveryCallReturns calls r := by
  have hopen := openFile_writeHeader default []
  refine ⟨_, _, _, _, [plainCall .replay, plainCall (.replayFrom 1)], hopen, ?_⟩
  intro h
  have hsafe := (runCalls_iff (failedAtEnd_of_openFile hopen)).mp h [plainCall .replay]
    (plainCall (.replayFrom 1)) [] rfl
  have hreplay : runCalls 1 [plainCall .replay] ⟨recordedFile [], .binary, openStream []⟩ =
      some ⟨recordedFile [], .binary, endedStream⟩ := rfl
  rcases hsafe 1 _ hreplay with hfail | ⟨hstart, -⟩
  · cases hfail
  · cases hstart

end Calls

end ReplayTermination

end OrderbookEngine
