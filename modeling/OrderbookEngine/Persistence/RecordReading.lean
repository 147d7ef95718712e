import OrderbookEngine.Persistence.BinaryFormat

/-!
# Reading records from arbitrary bytes

`read_binary` finds the end of the file only in front of a record. On any bytes it
returns nothing when fewer than eight are left, a complete record when there is one,
and otherwise a record made of what is left and of uninitialised locals, or of
zeros when only asks are missing.
-/

namespace OrderbookEngine

open Bytes MarketDataRecorder MarketDataReplayer

namespace BinaryFormat

/-- The bytes do not start with a complete record. -/
def Incomplete (bytes : List UInt8) : Prop :=
  ∀ update rest, Fits update → bytes ≠ writeBinary update ++ rest

section Levels

/-- A level takes 20 bytes, missing ones counting as zeros. -/
theorem zeroFilled_readLevel : ZeroFilled readLevel writeLevel 20 := by
  have hwords := ((zeroFilled_readWord 8).pair (zeroFilled_readWord 8)).pair
    (zeroFilled_readWord 4)
  let level (p : (Nat × Nat) × Nat) : PriceLevelSnapshot UInt64 :=
    ⟨p.1.1.toUInt64, p.1.2.toUInt64, p.2.toUInt32⟩
  suffices h : ∀ p, writeLevel (level p) =
      leBytes 8 p.1.1 ++ leBytes 8 p.1.2 ++ leBytes 4 p.2 from hwords.map h
  rintro ⟨⟨price, quantity⟩, orderCount⟩
  have hprice := leBytes_mod 8 price
  have hquantity := leBytes_mod 8 quantity
  have hcount := leBytes_mod 4 orderCount
  norm_num at hprice hquantity hcount
  simp [level, writeLevel, hprice, hquantity, hcount]

/-- So does a number of levels. -/
theorem zeroFilled_readLevels (n : Nat) :
    ZeroFilled (readLevels n) (fun levels => levels.flatMap writeLevel) (20 * n) := by
  induction n with
  | zero =>
    refine ⟨fun bytes _ => ⟨[], ?_, rfl⟩, fun bytes h => ?_, ⟨[], rfl, rfl⟩⟩
    · simp
    · exact absurd h (Nat.not_lt_zero _)
  | succ n ih =>
    have hlevels : ∀ p : PriceLevelSnapshot UInt64 × List (PriceLevelSnapshot UInt64),
        (p.1 :: p.2).flatMap writeLevel = writeLevel p.1 ++ p.2.flatMap writeLevel :=
      fun _ => List.flatMap_cons
    rw [show 20 * (n + 1) = 20 + 20 * n by omega]
    exact (zeroFilled_readLevel.pair ih).map hlevels

theorem length_writeLevel (level : PriceLevelSnapshot UInt64) :
    (writeLevel level).length = 20 := by
  simp [writeLevel]

theorem length_writeLevels (levels : List (PriceLevelSnapshot UInt64)) :
    (levels.flatMap writeLevel).length = 20 * levels.length := by
  induction levels with
  | nil => rfl
  | cons level levels ih =>
    rw [List.flatMap_cons, List.length_append, ih, length_writeLevel, List.length_cons]
    omega

/-- Levels are read even when zeros at their end are missing. -/
theorem readLevels_of_zerosMissing {levels : List (PriceLevelSnapshot UInt64)}
    {bytes : List UInt8} {n : Nat} (hpos : 0 < n)
    (h : levels.flatMap writeLevel = bytes ++ List.replicate n 0) :
    readLevels levels.length (openStream bytes) = (levels, endedStream) := by
  have hlength := congrArg List.length h
  rw [length_writeLevels, List.length_append, List.length_replicate] at hlength
  obtain ⟨levels', hencode, hread⟩ :=
    (zeroFilled_readLevels levels.length).short bytes (by omega)
  have hsame : levels'.flatMap writeLevel = levels.flatMap writeLevel := by
    rw [hencode, h, show 20 * levels.length - bytes.length = n by omega]
  have hcount : levels'.length = levels.length := by
    have := length_readLevels levels.length (openStream bytes)
    rwa [hread] at this
  -- the bytes of levels determine them
  have hlevels := readLevels_writeLevels [] levels'
  rw [hsame, hcount, readLevels_writeLevels] at hlevels
  obtain rfl : levels' = levels := (congrArg Prod.fst hlevels).symm
  exact hread

end Levels

section Fields

/-- `read_binary` between the symbol and the asks: the bids and the number of asks. -/
def readBids (locals : RecordLocals) :
    StateM IStream (List (PriceLevelSnapshot UInt64) × Nat) := do
  let numBids ← readWord 2 locals.numBids.toNat
  let bids ← readLevels numBids
  let numAsks ← readWord 2 locals.numAsks.toNat
  return (bids, numAsks)

/-- `read_binary` between the timestamp and the asks: exchange, symbol, bids and the
number of asks. -/
def readFields (locals : RecordLocals) :
    StateM IStream (Nat × List UInt8 × List (PriceLevelSnapshot UInt64) × Nat) := do
  let exchange ← readWord 1 locals.exchange.toNat
  let symbolLen ← readWord 1 locals.symbolLen.toNat
  let symbol ← readInto (locals.symbolBuf.toList.take symbolLen)
  let bids ← readBids locals
  return (exchange, symbol, bids)

/-- The update of the fields and the asks. -/
def updateOf (timestamp : Nat) (fields : Nat × List UInt8 × List (PriceLevelSnapshot UInt64) × Nat)
    (asks : List (PriceLevelSnapshot UInt64)) : RecordedUpdate where
  exchange := ⟨fields.1.toUInt8⟩
  symbol := fields.2.1
  timestamp := timestamp.toUInt64
  updateId := 0
  bids := fields.2.2.1
  asks := asks

/-- `read_binary` reads the timestamp, the fields and the asks. -/
theorem readBinary_eq (locals : RecordLocals) (s : IStream) :
    readBinary locals s =
      if (readWord 8 0 s).2.eofbit then (none, (readWord 8 0 s).2)
      else
        let fields := readFields locals (readWord 8 0 s).2
        let asks := readLevels fields.1.2.2.2 fields.2
        (some (updateOf (readWord 8 0 s).1 fields.1 asks.1), asks.2) := by
  simp only [readBinary, bind_apply]
  by_cases heof : (eof (readWord 8 0 s).2).1 = true
  · have heofbit : (readWord 8 0 s).2.eofbit = true := heof
    rw [if_pos heof, if_pos heofbit]
    rfl
  · have heofbit : ¬ (readWord 8 0 s).2.eofbit = true := heof
    rw [if_neg heof, if_neg heofbit]
    rfl

variable (locals : RecordLocals)

/-- On an ended stream the number of asks is that of the local. -/
theorem readBids_endedStream : ∃ bids, readBids locals endedStream = (bids, endedStream) ∧
    bids.2 / 256 = locals.numAsks.toNat / 256 := by
  obtain ⟨bids, -, hbids⟩ :=
    (zeroFilled_readLevels (leValue (leBytes 2 locals.numBids.toNat))).ended
  have hasks := locals.numAsks.toNat_lt
  refine ⟨(bids, locals.numAsks.toNat), ?_, rfl⟩
  simp only [readBids, bind_apply, pure_apply, hbids, readWord_endedStream,
    leValue_leBytes (show locals.numAsks.toNat < 256 ^ 2 by omega)]

/-- The number of asks is read, or its high byte is that of the local. -/
theorem readNumAsks_cases (bytes : List UInt8) :
    (∃ numAsks rest, numAsks < 65536 ∧ bytes = leBytes 2 numAsks ++ rest ∧
        readWord 2 locals.numAsks.toNat (openStream bytes) = (numAsks, openStream rest)) ∨
      ∃ numAsks, readWord 2 locals.numAsks.toNat (openStream bytes) = (numAsks, endedStream) ∧
        numAsks / 256 = locals.numAsks.toNat / 256 := by
  have hold := locals.numAsks.toNat_lt
  rcases readWord_cases 2 locals.numAsks.toNat bytes with ⟨v, rest, hv, hbytes, hread⟩ |
    ⟨hshort, hread⟩
  · exact Or.inl ⟨v, rest, by omega, hbytes, hread⟩
  · right
    refine ⟨_, hread, ?_⟩
    cases bytes with
    | nil =>
      rw [List.nil_append, List.length_nil, List.drop_zero, leValue_leBytes (by omega)]
    | cons b bytes =>
      obtain rfl : bytes = [] := List.length_eq_zero_iff.mp (by simpa using hshort)
      have hb := b.toNat_lt
      simp [leBytes, leValue]
      omega

/-- The bids and the number of asks are read, or the stream ends with a number of asks
whose high byte is that of the local. -/
theorem readBids_cases (bytes : List UInt8) :
    (∃ bids numAsks rest, bids.length < 65536 ∧ numAsks < 65536 ∧
        bytes = leBytes 2 bids.length ++ bids.flatMap writeLevel ++ leBytes 2 numAsks ++ rest ∧
        readBids locals (openStream bytes) = ((bids, numAsks), openStream rest)) ∨
      ∃ bids, readBids locals (openStream bytes) = (bids, endedStream) ∧
        bids.2 / 256 = locals.numAsks.toNat / 256 := by
  have hlocal := leValue_leBytes (show locals.numAsks.toNat < 256 ^ 2 from locals.numAsks.toNat_lt)
  simp only [readBids, bind_apply, pure_apply]
  rcases readWord_cases 2 locals.numBids.toNat bytes with ⟨n, rest, hn, rfl, hread⟩ | ⟨-, hread⟩
  · rw [hread]
    rcases le_or_gt (20 * n) rest.length with hfull | hshort
    · obtain ⟨bids, hbids, hlevels⟩ := (zeroFilled_readLevels n).full rest hfull
      have hlength : bids.length = n := by
        have := length_readLevels n (openStream rest)
        rwa [hlevels] at this
      rw [hlevels]
      rcases readNumAsks_cases locals (rest.drop (20 * n)) with
        ⟨numAsks, rest', hasks, hrest, hread'⟩ | ⟨numAsks, hread', hasks⟩
      · left
        refine ⟨bids, numAsks, rest', by omega, hasks, ?_, by rw [hread']⟩
        rw [hlength, List.append_assoc, List.append_assoc, ← hrest, hbids, List.take_append_drop]
      · exact Or.inr ⟨(bids, numAsks), by rw [hread'], hasks⟩
    · obtain ⟨bids, -, hlevels⟩ := (zeroFilled_readLevels n).short rest hshort
      rw [hlevels]
      simp only [readWord_endedStream, hlocal]
      exact Or.inr ⟨_, rfl, rfl⟩
  · rw [hread]
    obtain ⟨bids, -, hlevels⟩ := (zeroFilled_readLevels
      (leValue (bytes ++ (leBytes 2 locals.numBids.toNat).drop bytes.length))).ended
    rw [hlevels]
    simp only [readWord_endedStream, hlocal]
    exact Or.inr ⟨_, rfl, rfl⟩

/-- The fields are read, or the stream ends with a number of asks whose high byte is that
of the local. -/
theorem readFields_cases (bytes : List UInt8) :
    (∃ exchange symbol bids numAsks rest, exchange < 256 ∧ symbol.length < 256 ∧
        bids.length < 65536 ∧ numAsks < 65536 ∧
        bytes = leBytes 1 exchange ++ leBytes 1 symbol.length ++ symbol ++
          (leBytes 2 bids.length ++ bids.flatMap writeLevel ++ leBytes 2 numAsks ++ rest) ∧
        readFields locals (openStream bytes) =
          ((exchange, symbol, bids, numAsks), openStream rest)) ∨
      ∃ fields, readFields locals (openStream bytes) = (fields, endedStream) ∧
        fields.2.2.2 / 256 = locals.numAsks.toNat / 256 := by
  obtain ⟨stale, hstale, hasks⟩ := readBids_endedStream locals
  simp only [readFields, bind_apply, pure_apply]
  rcases readWord_cases 1 locals.exchange.toNat bytes with ⟨e, rest, he, rfl, hread⟩ | ⟨-, hread⟩
  · rw [hread]
    rcases readWord_cases 1 locals.symbolLen.toNat rest with ⟨n, rest', hn, rfl, hread'⟩ |
      ⟨-, hread'⟩
    · rw [hread', readInto_openStream]
      have hbuf : (locals.symbolBuf.toList.take n).length = n := by
        simp
        omega
      rw [hbuf]
      split
      · rename_i hfull
        have hlength : (rest'.take n).length = n := by simp [hfull]
        rcases readBids_cases locals (rest'.drop n) with
          ⟨bids, numAsks, rest'', hbids, hasks', hbytes, hread''⟩ | ⟨bids, hread'', hasks'⟩
        · left
          refine ⟨e, rest'.take n, bids, numAsks, rest'', by omega, by omega, hbids, hasks', ?_,
            by rw [hread'']⟩
          rw [hlength, ← hbytes, List.append_assoc, List.append_assoc, List.take_append_drop]
        · exact Or.inr ⟨(e, rest'.take n, bids), by rw [hread''], hasks'⟩
      · rw [hstale]
        exact Or.inr ⟨_, rfl, hasks⟩
    · rw [hread', readInto_endedStream, hstale]
      exact Or.inr ⟨_, rfl, hasks⟩
  · rw [hread, readWord_endedStream, readInto_endedStream, hstale]
    exact Or.inr ⟨_, rfl, hasks⟩

end Fields

section Records

/-- The bytes of what was read. -/
theorem writeBinary_updateOf {timestamp exchange : Nat} {symbol : List UInt8}
    {bids asks : List (PriceLevelSnapshot UInt64)} (numAsks : Nat) (ht : timestamp < 256 ^ 8)
    (he : exchange < 256) (hs : symbol.length < 256) (hb : bids.length < 65536)
    (ha : asks.length < 65536) :
    writeBinary (updateOf timestamp (exchange, symbol, bids, numAsks) asks) =
      leBytes 8 timestamp ++ leBytes 1 exchange ++ leBytes 1 symbol.length ++ symbol ++
        leBytes 2 bids.length ++ bids.flatMap writeLevel ++ leBytes 2 asks.length ++
        asks.flatMap writeLevel := by
  have hfits : Fits (updateOf timestamp (exchange, symbol, bids, numAsks) asks) := by
    refine ⟨?_, ?_, ?_⟩ <;> simp only [updateOf] <;> omega
  have ht' : timestamp.toUInt64.toNat = timestamp := by
    simpa using Nat.mod_eq_of_lt (show timestamp < 2 ^ 64 by omega)
  have he' : exchange.toUInt8.toNat = exchange := by
    simpa using Nat.mod_eq_of_lt he
  rw [writeBinary_of_fits hfits]
  simp only [fieldBytes, updateOf, ht', he']

/-- Only zeros at the end of its asks are missing from the bytes of a record. -/
def ZerosMissing (bytes : List UInt8) (update : RecordedUpdate) : Prop :=
  ∃ n, 0 < n ∧ n ≤ 20 * update.asks.length ∧ writeBinary update = bytes ++ List.replicate n 0

/-- A record that is cut off shows the high byte of the local for the number of its
asks, or has asks of which the missing bytes are zeros. -/
def CutOff (locals : RecordLocals) (bytes : List UInt8) (update : RecordedUpdate) : Prop :=
  update.asks.length / 256 = locals.numAsks.toNat / 256 ∨ ZerosMissing bytes update

/-- What `read_binary` makes of any bytes: nothing of fewer than eight, a record that is
complete, or one that is cut off. -/
theorem readBinary_cases (locals : RecordLocals) (bytes : List UInt8) :
    (bytes.length < 8 ∧ readBinary locals (openStream bytes) = (none, endedStream)) ∨
      (∃ update rest, Fits update ∧ bytes = writeBinary update ++ rest ∧
        readBinary locals (openStream bytes) = (some update, openStream rest)) ∨
      8 ≤ bytes.length ∧ ∃ update,
        readBinary locals (openStream bytes) = (some update, endedStream) ∧
          update.timestamp.toNat = leValue (bytes.take 8) ∧ CutOff locals bytes update := by
  rw [readBinary_eq]
  rcases readWord_cases 8 0 bytes with ⟨t, rest, ht, rfl, hread⟩ | ⟨hshort, hread⟩
  · right
    have htime : t.toUInt64.toNat = leValue ((leBytes 8 t ++ rest).take 8) := by
      rw [List.take_left' (length_leBytes 8 t), leValue_leBytes ht]
      simpa using Nat.mod_eq_of_lt (show t < 2 ^ 64 by omega)
    rw [hread, if_neg (by simp)]
    rcases readFields_cases locals rest with
      ⟨e, symbol, bids, numAsks, rest', he, hs, hb, hn, hbytes, hfields⟩ |
      ⟨fields, hfields, hasks⟩
    · simp only [hfields]
      have hlength : (readLevels numAsks (openStream rest')).1.length = numAsks :=
        length_readLevels _ _
      have hcut : ∀ asks, asks.length = numAsks → ∀ tail,
          asks.flatMap writeLevel = rest' ++ tail →
          writeBinary (updateOf t (e, symbol, bids, numAsks) asks) =
            leBytes 8 t ++ rest ++ tail := by
        intro asks hlen tail hasks
        rw [writeBinary_updateOf numAsks ht he hs hb (by omega), hasks, hbytes, hlen]
        simp only [List.append_assoc]
      rcases le_or_gt (20 * numAsks) rest'.length with hfull | hpart
      · left
        obtain ⟨asks, hasks, hlevels⟩ := (zeroFilled_readLevels numAsks).full rest' hfull
        rw [hlevels]
        replace hlength : asks.length = numAsks := by rwa [hlevels] at hlength
        refine ⟨updateOf t (e, symbol, bids, numAsks) asks, rest'.drop (20 * numAsks), ?_, ?_, rfl⟩
        · refine ⟨?_, ?_, ?_⟩ <;> simp only [updateOf] <;> omega
        · rw [writeBinary_updateOf numAsks ht he hs hb (by omega), hasks, hbytes, hlength]
          simp only [List.append_assoc, List.take_append_drop]
      · right
        obtain ⟨asks, hasks, hlevels⟩ := (zeroFilled_readLevels numAsks).short rest' hpart
        rw [hlevels]
        replace hlength : asks.length = numAsks := by rwa [hlevels] at hlength
        refine ⟨by simp, _, rfl, htime, Or.inr ⟨20 * numAsks - rest'.length, by omega, ?_,
          hcut asks hlength _ hasks⟩⟩
        simp only [updateOf, hlength]
        omega
    · right
      obtain ⟨asks, -, hlevels⟩ := (zeroFilled_readLevels fields.2.2.2).ended
      have hlength : (readLevels fields.2.2.2 endedStream).1.length = fields.2.2.2 :=
        length_readLevels _ _
      simp only [hfields]
      rw [hlevels] at hlength ⊢
      refine ⟨by simp, _, rfl, htime, Or.inl ?_⟩
      rw [← hasks, ← hlength]
      rfl
  · left
    rw [hread]
    exact ⟨hshort, rfl⟩

/-- Zeros at the end of the asks are read even when they are missing. -/
theorem readBinary_of_zerosMissing (locals : RecordLocals) {bytes : List UInt8}
    {update : RecordedUpdate} (hfits : Fits update) (h : ZerosMissing bytes update) :
    readBinary locals (openStream bytes) = (some (content update), endedStream) := by
  obtain ⟨n, hpos, hn, h⟩ := h
  rw [writeBinary_of_fits hfits] at h
  -- all fields before the asks are there
  obtain ⟨part, rfl, hmissing⟩ : ∃ part, bytes = fieldBytes update ++ part ∧
      update.asks.flatMap writeLevel = part ++ List.replicate n 0 := by
    rcases List.append_eq_append_iff.mp h with ⟨part, hbytes, hzeros⟩ | ⟨part, hbytes, hzeros⟩
    · exact ⟨part, hbytes, hzeros⟩
    · have hlength := congrArg List.length hzeros
      rw [List.length_append, List.length_replicate, length_writeLevels] at hlength
      have hnone : part = [] := List.length_eq_zero_iff.mp (by omega)
      subst hnone
      rw [List.append_nil] at hbytes
      exact ⟨[], by rw [hbytes, List.append_nil], hzeros.symm⟩
  rw [readBinary_fieldBytes _ _ hfits, readLevels_of_zerosMissing hpos hmissing]
  rfl

/-- On an ended stream there is no record. -/
theorem readBinary_endedStream (locals : RecordLocals) :
    readBinary locals endedStream = (none, endedStream) := by
  rw [readBinary_eq, readWord_endedStream]
  rfl

/-- At the end of the file there is none either. -/
theorem readBinary_of_eof (locals : RecordLocals) {s : IStream} (h : s.eofbit = true) :
    ∃ s', readBinary locals s = (none, s') := by
  rw [readBinary_eq, readWord, bind_apply, readInto_of_error _ (Or.inl h), pure_apply]
  exact ⟨_, if_pos h⟩

/-- Where no record is read the end was reached. -/
theorem eofbit_of_readBinary_none {locals : RecordLocals} {s s' : IStream}
    (h : readBinary locals s = (none, s')) : s'.eofbit = true := by
  rw [readBinary_eq] at h
  split at h
  · rename_i heof
    cases h
    exact heof
  · cases h

/-- A stream that has failed without reaching the end hands out records of locals with
timestamp 0. -/
theorem readBinary_of_failed (locals : RecordLocals) {s : IStream} (heof : s.eofbit = false)
    (hfail : s.failbit = true) :
    ∃ update, readBinary locals s = (some update, s) ∧ update.timestamp = 0 := by
  have hlevels : ∀ n, ∃ levels, readLevels n s = (levels, s) := by
    intro n
    induction n with
    | zero => exact ⟨[], rfl⟩
    | succ n ih =>
      obtain ⟨levels, ih⟩ := ih
      simp only [readLevels, readLevel, bind_apply, pure_apply, readWord_of_failed _ _ hfail, ih]
      exact ⟨_, rfl⟩
  have hfields : ∃ fields, readFields locals s = (fields, s) := by
    obtain ⟨bids, hbids⟩ := hlevels (leValue (leBytes 2 locals.numBids.toNat))
    simp only [readFields, readBids, bind_apply, pure_apply, readWord_of_failed _ _ hfail,
      readInto_of_failed _ hfail, hbids]
    exact ⟨_, rfl⟩
  obtain ⟨fields, hfields⟩ := hfields
  obtain ⟨asks, hasks⟩ := hlevels fields.2.2.2
  refine ⟨updateOf (leValue (leBytes 8 0)) fields asks, ?_, rfl⟩
  rw [readBinary_eq, readWord_of_failed _ _ hfail]
  simp only [heof, Bool.false_eq_true, if_false, hfields, hasks]

/-- A record takes at least 14 bytes. -/
theorem length_writeBinary_ge (update : RecordedUpdate) : 14 ≤ (writeBinary update).length := by
  simp [writeBinary]
  omega

/-- How much a stream may still hand out. -/
def remaining (s : IStream) : Nat := if s.eofbit then 0 else s.rest.length + 1

/-- A stream that fails at the end only stays so, and reading a record from it leaves
less. -/
theorem readBinary_progress {locals : RecordLocals} {s s' : IStream} {update : RecordedUpdate}
    (hs : s.failbit = true → s.eofbit = true) (h : readBinary locals s = (some update, s')) :
    (s'.failbit = true → s'.eofbit = true) ∧ remaining s' < remaining s := by
  obtain ⟨bytes, eofbit, failbit⟩ := s
  cases eofbit with
  | true =>
    obtain ⟨s'', hnone⟩ := readBinary_of_eof locals (s := ⟨bytes, true, failbit⟩) rfl
    rw [hnone] at h
    cases h
  | false =>
    cases failbit with
    | true => cases hs rfl
    | false =>
      rw [← openStream] at h
      rcases readBinary_cases locals bytes with ⟨-, hread⟩ |
        ⟨update', rest, -, rfl, hread⟩ | ⟨-, update', hread, -⟩
      · rw [hread] at h
        cases h
      · have hlength := length_writeBinary_ge update'
        rw [hread] at h
        cases h
        refine ⟨fun hfail => hfail, ?_⟩
        simp [remaining, openStream]
        omega
      · rw [hread] at h
        cases h
        exact ⟨fun _ => rfl, Nat.succ_pos _⟩

/-- Bytes without a complete record in front give nothing, or a record that is cut off. -/
theorem readBinary_incomplete (locals : RecordLocals) {bytes : List UInt8}
    (h : Incomplete bytes) :
    bytes.length < 8 ∧ readBinary locals (openStream bytes) = (none, endedStream) ∨
      8 ≤ bytes.length ∧ ∃ update,
        readBinary locals (openStream bytes) = (some update, endedStream) ∧
          update.timestamp.toNat = leValue (bytes.take 8) ∧ CutOff locals bytes update := by
  rcases readBinary_cases locals bytes with hnone | ⟨update, rest, hfits, hbytes, -⟩ | hcut
  · exact Or.inl hnone
  · exact absurd hbytes (h update rest hfits)
  · exact Or.inr hcut

/-- A few bytes hold no record. -/
theorem incomplete_of_length_lt {bytes : List UInt8} (h : bytes.length < 14) :
    Incomplete bytes := by
  rintro update rest _ rfl
  have := length_writeBinary_ge update
  rw [List.length_append] at h
  omega

theorem incomplete_nil : Incomplete [] := incomplete_of_length_lt (by decide)

/-- A proper part of a record from its start holds no record. -/
theorem incomplete_of_append {update : RecordedUpdate} (hfits : Fits update)
    {bytes tail : List UInt8} (h : writeBinary update = bytes ++ tail) (htail : tail ≠ []) :
    Incomplete bytes := by
  rintro update' rest hfits' rfl
  -- reading the record stops at its end, reading the other one earlier
  let locals : RecordLocals := default
  have hread := readBinary_writeBinary [] locals hfits
  have hread' := readBinary_writeBinary (rest ++ tail) locals hfits'
  rw [List.append_nil, h, List.append_assoc, hread'] at hread
  have hstream := congrArg (fun r => r.2.rest) hread
  exact htail (List.append_eq_nil_iff.mp hstream).2

theorem ZerosMissing.incomplete {bytes : List UInt8} {update : RecordedUpdate}
    (h : ZerosMissing bytes update) (hfits : Fits update) : Incomplete bytes := by
  obtain ⟨n, hpos, -, hbytes⟩ := h
  have hzeros : List.replicate n (0 : UInt8) ≠ [] := by
    rw [Ne, List.replicate_eq_nil_iff]
    omega
  exact incomplete_of_append hfits hbytes hzeros

/-- Any bytes are complete records followed by bytes without one in front. -/
theorem exists_records (bytes : List UInt8) : ∃ (updates : List RecordedUpdate) (rest : List UInt8),
    (∀ update ∈ updates, Fits update) ∧ bytes = updates.flatMap writeBinary ++ rest ∧
      Incomplete rest := by
  induction hn : bytes.length using Nat.strongRecOn generalizing bytes with
  | ind n ih =>
    by_cases h : Incomplete bytes
    · exact ⟨[], bytes, by simp, rfl, h⟩
    · simp only [Incomplete, not_forall, not_not] at h
      obtain ⟨update, rest, hfits, rfl⟩ := h
      have hlength := length_writeBinary_ge update
      have hlt : rest.length < n := by
        rw [← hn, List.length_append]
        omega
      obtain ⟨updates, rest', hupdates, rfl, hrest'⟩ := ih _ hlt rest rfl
      refine ⟨update :: updates, rest', ?_, ?_, hrest'⟩
      · exact List.forall_mem_cons.mpr ⟨hfits, hupdates⟩
      · rw [List.flatMap_cons, List.append_assoc]

end Records

end BinaryFormat

end OrderbookEngine
