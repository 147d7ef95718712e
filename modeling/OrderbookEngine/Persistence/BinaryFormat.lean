import OrderbookEngine.Core.Types
import OrderbookEngine.Library.ByteStream

/-!
# The binary recording format

A record stores its symbol length in one byte and its level counts in two, and
writes all levels whatever the count. A file of records is read back exactly
when every length and count fits its field.
-/

namespace OrderbookEngine

open Bytes

/-- `RecordingFormat`, as the byte that a file stores. -/
structure RecordingFormat where
  val : UInt8
  deriving DecidableEq, Repr

namespace RecordingFormat

def binary : RecordingFormat := ⟨0⟩
def json : RecordingFormat := ⟨1⟩
def csv : RecordingFormat := ⟨2⟩

end RecordingFormat

/-- An update whose doubles are opaque words. -/
abbrev RecordedUpdate := NormalizedOrderBookUpdate UInt64

namespace MarketDataRecorder

def magicNumber : UInt32 := 0x424F444D
def formatVersion : UInt32 := 1

/-- The bytes of `write_header`. -/
def writeHeader (format : RecordingFormat) : List UInt8 :=
  if format = .binary then
    leBytes 4 magicNumber.toNat ++ leBytes 4 formatVersion.toNat ++ leBytes 1 format.val.toNat ++
      [0, 0, 0]
  else if format = .csv then lit "timestamp_ns,exchange,symbol,side,price,quantity,order_count\n"
  else []

/-- The bytes of one level. -/
def writeLevel (level : PriceLevelSnapshot UInt64) : List UInt8 :=
  leBytes 8 level.price.toNat ++ leBytes 8 level.quantity.toNat ++
    leBytes 4 level.orderCount.toNat

/-- The bytes of `write_binary`. -/
def writeBinary (update : RecordedUpdate) : List UInt8 :=
  let symbolLen := update.symbol.length.toUInt8
  let numBids := update.bids.length.toUInt16
  let numAsks := update.asks.length.toUInt16
  leBytes 8 update.timestamp.toNat ++ leBytes 1 update.exchange.val.toNat ++
    leBytes 1 symbolLen.toNat ++ update.symbol.take symbolLen.toNat ++
    leBytes 2 numBids.toNat ++ update.bids.flatMap writeLevel ++
    leBytes 2 numAsks.toNat ++ update.asks.flatMap writeLevel

/-- The file after the header and one record for each update. -/
def recordedFile (updates : List RecordedUpdate) : List UInt8 :=
  writeHeader .binary ++ updates.flatMap writeBinary

end MarketDataRecorder

namespace MarketDataReplayer

/-- What the uninitialised locals of `read_header` hold. -/
structure HeaderLocals where
  magic : UInt32
  version : UInt32
  fmt : UInt8
  reserved : Vector UInt8 3

/-- What the uninitialised locals of `read_binary` hold. -/
structure RecordLocals where
  exchange : UInt8
  symbolLen : UInt8
  symbolBuf : Vector UInt8 256
  numBids : UInt16
  numAsks : UInt16

instance : Inhabited HeaderLocals := ⟨⟨0, 0, 0, .replicate 3 0⟩⟩

instance : Inhabited RecordLocals := ⟨⟨0, 0, .replicate 256 0, 0, 0⟩⟩

/-- `read_header`: the result and the format it leaves in `format_`. -/
def readHeader (locals : HeaderLocals) (format : RecordingFormat) :
    StateM IStream (Bool × RecordingFormat) := do
  if format = .binary then
    let magic ← readWord 4 locals.magic.toNat
    if magic ≠ MarketDataRecorder.magicNumber.toNat then
      return (false, format)
    else
      let _ ← readWord 4 locals.version.toNat
      let fmt ← readWord 1 locals.fmt.toNat
      let _ ← readInto locals.reserved.toList
      return (true, ⟨fmt.toUInt8⟩)
  else return (true, format)

/-- One level of `read_binary`, read into a default `PriceLevelSnapshot`. -/
def readLevel : StateM IStream (PriceLevelSnapshot UInt64) := do
  let price ← readWord 8 0
  let quantity ← readWord 8 0
  let orderCount ← readWord 4 0
  return ⟨price.toUInt64, quantity.toUInt64, orderCount.toUInt32⟩

/-- The loop that reads a number of levels. -/
def readLevels : Nat → StateM IStream (List (PriceLevelSnapshot UInt64))
  | 0 => return []
  | n + 1 => do
    let level ← readLevel
    let levels ← readLevels n
    return level :: levels

/-- `read_binary`. -/
def readBinary (locals : RecordLocals) : StateM IStream (Option RecordedUpdate) := do
  let timestamp ← readWord 8 0
  if ← eof then return none
  else
    let exchange ← readWord 1 locals.exchange.toNat
    let symbolLen ← readWord 1 locals.symbolLen.toNat
    let symbol ← readInto (locals.symbolBuf.toList.take symbolLen)
    let numBids ← readWord 2 locals.numBids.toNat
    let bids ← readLevels numBids
    let numAsks ← readWord 2 locals.numAsks.toNat
    let asks ← readLevels numAsks
    return some
      { exchange := ⟨exchange.toUInt8⟩, symbol := symbol, timestamp := timestamp.toUInt64
        updateId := 0, bids := bids, asks := asks }

/-- Calling `read_binary` until it returns no update yields the list; call `i`
finds `locals i` in its uninitialised locals. -/
inductive ReadsAll (locals : Nat → RecordLocals) :
    Nat → IStream → List RecordedUpdate → Prop
  | stop {i : Nat} {s : IStream} (h : (readBinary (locals i) s).1 = none) : ReadsAll locals i s []
  | next {i : Nat} {s : IStream} {update : RecordedUpdate} {rest : List RecordedUpdate}
      (h : (readBinary (locals i) s).1 = some update)
      (hrest : ReadsAll locals (i + 1) (readBinary (locals i) s).2 rest) :
      ReadsAll locals i s (update :: rest)

end MarketDataReplayer

namespace BinaryFormat

open MarketDataRecorder MarketDataReplayer

/-- An update without its `update_id`, which the format does not store. -/
def content (update : RecordedUpdate) : RecordedUpdate := { update with updateId := 0 }

/-- The file of the updates is accepted and reads back as the updates. -/
def RoundTrips (updates : List RecordedUpdate) : Prop :=
  ∀ (header : HeaderLocals) (locals : Nat → RecordLocals),
    (readHeader header .binary (openStream (recordedFile updates))).1 = (true, .binary) ∧
      ∃ read, ReadsAll locals 0
          (readHeader header .binary (openStream (recordedFile updates))).2 read ∧
        read.map content = updates.map content

/-- The lengths and counts of the update fit the fields that store them. -/
def Fits (update : RecordedUpdate) : Prop :=
  update.symbol.length ≤ 255 ∧ update.bids.length ≤ 65535 ∧ update.asks.length ≤ 65535

section Codec

variable (rest : List UInt8)

/-- A level is read back. -/
theorem readLevel_writeLevel (level : PriceLevelSnapshot UInt64) :
    readLevel (openStream (writeLevel level ++ rest)) = (level, openStream rest) := by
  have hp := level.price.toNat_lt
  have hq := level.quantity.toNat_lt
  have ho := level.orderCount.toNat_lt
  simp only [readLevel, writeLevel, bind_apply, pure_apply, List.append_assoc]
  rw [readWord_leBytes _ _ (by omega), readWord_leBytes _ _ (by omega),
    readWord_leBytes _ _ (by omega)]
  simp

/-- As many levels as were written are read back. -/
theorem readLevels_writeLevels (levels : List (PriceLevelSnapshot UInt64)) :
    readLevels levels.length (openStream (levels.flatMap writeLevel ++ rest)) =
      (levels, openStream rest) := by
  induction levels with
  | nil => rfl
  | cons level levels ih =>
    simp only [List.length_cons, readLevels, bind_apply, pure_apply, List.flatMap_cons,
      List.append_assoc, readLevel_writeLevel, ih]

/-- The bytes of an update before its asks. -/
def fieldBytes (update : RecordedUpdate) : List UInt8 :=
  leBytes 8 update.timestamp.toNat ++ leBytes 1 update.exchange.val.toNat ++
    leBytes 1 update.symbol.length ++ update.symbol ++ leBytes 2 update.bids.length ++
    update.bids.flatMap writeLevel ++ leBytes 2 update.asks.length

/-- The bytes of an update whose lengths fit. -/
theorem writeBinary_of_fits {update : RecordedUpdate} (h : Fits update) :
    writeBinary update = fieldBytes update ++ update.asks.flatMap writeLevel := by
  obtain ⟨hsymbol, hbids, hasks⟩ := h
  have hs : update.symbol.length.toUInt8.toNat = update.symbol.length := by
    simpa using Nat.mod_eq_of_lt (show update.symbol.length < 256 by omega)
  have hb : update.bids.length.toUInt16.toNat = update.bids.length := by
    simpa using Nat.mod_eq_of_lt (show update.bids.length < 65536 by omega)
  have ha : update.asks.length.toUInt16.toNat = update.asks.length := by
    simpa using Nat.mod_eq_of_lt (show update.asks.length < 65536 by omega)
  simp only [writeBinary, fieldBytes, hs, hb, ha, List.take_length]

/-- The fields are read back, and then as many asks as they announce. -/
theorem readBinary_fieldBytes (locals : RecordLocals) {update : RecordedUpdate}
    (h : Fits update) :
    readBinary locals (openStream (fieldBytes update ++ rest)) =
      let asks := readLevels update.asks.length (openStream rest)
      (some { content update with asks := asks.1 }, asks.2) := by
  obtain ⟨hsym, hbids, hasks⟩ := h
  have hts := update.timestamp.toNat_lt
  have hex := update.exchange.val.toNat_lt
  have hbuf : update.symbol.length =
      (locals.symbolBuf.toList.take update.symbol.length).length := by
    simp; omega
  simp only [readBinary, fieldBytes, bind_apply, List.append_assoc]
  rw [readWord_leBytes _ _ (by omega)]
  rw [if_neg (by simp)]
  simp only [eof_apply, bind_apply, pure_apply]
  rw [readWord_leBytes _ _ (by omega), readWord_leBytes _ _ (by omega),
    readInto_append _ hbuf, readWord_leBytes _ _ (by omega), readLevels_writeLevels,
    readWord_leBytes _ _ (by omega)]
  simp [content]

/-- A record whose lengths fit is read back. -/
theorem readBinary_writeBinary (locals : RecordLocals) {update : RecordedUpdate}
    (h : Fits update) :
    readBinary locals (openStream (writeBinary update ++ rest)) =
      (some (content update), openStream rest) := by
  rw [writeBinary_of_fits h, List.append_assoc, readBinary_fieldBytes _ _ h,
    readLevels_writeLevels]
  rfl

/-- At the end of the file there is no record. -/
theorem readBinary_nil (locals : RecordLocals) : (readBinary locals (openStream [])).1 = none := by
  simp only [readBinary, bind_apply, eof_apply, eofbit_readWord_nil, if_true, pure_apply]

/-- All records whose lengths fit are read back. -/
theorem readsAll_writeBinary (locals : Nat → RecordLocals) (i : Nat)
    {updates : List RecordedUpdate} (h : ∀ update ∈ updates, Fits update) :
    ReadsAll locals i (openStream (updates.flatMap writeBinary)) (updates.map content) := by
  induction updates generalizing i with
  | nil => exact .stop (readBinary_nil _)
  | cons update updates ih =>
    have hread := readBinary_writeBinary (updates.flatMap writeBinary) (locals i)
      (h update List.mem_cons_self)
    refine .next (by rw [List.flatMap_cons, hread]) ?_
    rw [List.flatMap_cons, hread]
    exact ih (i + 1) fun u hu => h u (List.mem_cons_of_mem _ hu)

/-- The header is accepted and leaves the stream at the first record. -/
theorem readHeader_writeHeader (locals : HeaderLocals) :
    readHeader locals .binary (openStream (writeHeader .binary ++ rest)) =
      ((true, .binary), openStream rest) := by
  have hm := magicNumber.toNat_lt
  have hv := formatVersion.toNat_lt
  have hf := RecordingFormat.binary.val.toNat_lt
  simp only [readHeader, writeHeader, if_true, bind_apply, List.append_assoc]
  rw [readWord_leBytes _ _ (by omega)]
  simp only [ne_eq, not_true_eq_false, if_false, bind_apply, pure_apply]
  rw [readWord_leBytes _ _ (by omega), readWord_leBytes _ _ (by omega),
    readInto_append _ (by simp)]
  simp

end Codec

section Lengths

theorem length_readLevels (n : Nat) (s : IStream) : (readLevels n s).1.length = n := by
  induction n generalizing s with
  | zero => rfl
  | succ n ih => simp only [readLevels, bind_apply, pure_apply, List.length_cons, ih]

/-- Whatever the bytes are, the lengths of a record that is read fit its fields. -/
theorem fits_of_readBinary {locals : RecordLocals} {s : IStream} {update : RecordedUpdate}
    (h : (readBinary locals s).1 = some update) : Fits update := by
  simp only [readBinary, bind_apply] at h
  by_cases heof : (eof (readWord 8 0 s).2).1 = true
  · rw [if_pos heof] at h
    cases h
  · rw [if_neg heof] at h
    simp only [eof_apply, bind_apply, pure_apply, Option.some.injEq] at h
    subst h
    refine ⟨?_, ?_, ?_⟩
    · have hlt := readWord_lt 1 locals.symbolLen.toNat
        (readWord 1 locals.exchange.toNat (readWord 8 0 s).2).2
      simp only [length_readInto, List.length_take]
      omega
    · rw [length_readLevels]
      exact Nat.le_of_lt_succ (readWord_lt 2 _ _)
    · rw [length_readLevels]
      exact Nat.le_of_lt_succ (readWord_lt 2 _ _)

theorem fits_of_readsAll {locals : Nat → RecordLocals} {i : Nat} {s : IStream}
    {read : List RecordedUpdate} (h : ReadsAll locals i s read) :
    ∀ update ∈ read, Fits update := by
  induction h with
  | stop => simp
  | next hread _ ih => exact List.forall_mem_cons.mpr ⟨fits_of_readBinary hread, ih⟩

end Lengths

private theorem content_content (updates : List RecordedUpdate) :
    (updates.map content).map content = updates.map content := by
  simp [content]

/-- A recording reads back as it was written exactly when the symbol lengths fit
one byte and the level counts two. -/
theorem roundTrips_iff_fits (updates : List RecordedUpdate) :
    RoundTrips updates ↔ ∀ update ∈ updates, Fits update := by
  constructor
  · intro h update hmem
    obtain ⟨-, read, hread, hsame⟩ := h default fun _ => default
    have hcontent : content update ∈ read.map content :=
      hsame ▸ List.mem_map_of_mem hmem
    obtain ⟨update', hmem', heq⟩ := List.mem_map.mp hcontent
    have hfits := fits_of_readsAll hread update' hmem'
    have hsym : update'.symbol = update.symbol := congrArg (·.symbol) heq
    have hbids : update'.bids = update.bids := congrArg (·.bids) heq
    have hasks : update'.asks = update.asks := congrArg (·.asks) heq
    rw [Fits, hsym, hbids, hasks] at hfits
    exact hfits
  · intro h header locals
    rw [recordedFile, readHeader_writeHeader]
    exact ⟨rfl, updates.map content, readsAll_writeBinary locals 0 h, content_content updates⟩

/-- An update whose symbol has 256 bytes. -/
def longSymbol : RecordedUpdate where
  exchange := .binance
  symbol := List.replicate 256 65
  timestamp := 1
  updateId := 0
  bids := []
  asks := []

/-- A symbol of 256 bytes is not read back. -/
theorem roundTrips_fails : ¬ RoundTrips [longSymbol] := by
  intro h
  obtain ⟨-, read, hread, hsame⟩ := h default fun _ => default
  have hcontent : content longSymbol ∈ read.map content :=
    hsame ▸ List.mem_map_of_mem List.mem_cons_self
  obtain ⟨update, hmem, heq⟩ := List.mem_map.mp hcontent
  have hlen := (fits_of_readsAll hread update hmem).1
  have hsym : update.symbol = List.replicate 256 65 := congrArg (·.symbol) heq
  rw [hsym, List.length_replicate] at hlen
  omega

end BinaryFormat

end OrderbookEngine
