import OrderbookEngine.Persistence.BinaryFormat

/-!
# The text recording formats

Doubles are printed in fixed notation with eight decimals, the exact value rounded to the
nearest and ties to even. Symbols go into the text as they are.
-/

namespace OrderbookEngine.MarketDataRecorder

/-- The nearest whole number to a quotient, the even one of two. -/
def roundHalfEven (num den : Nat) : Nat :=
  let quotient := num / den
  let twice := 2 * (num % den)
  if twice > den ∨ (twice = den ∧ quotient % 2 = 1) then quotient + 1 else quotient

/-- The decimal digits of a number below a power of ten, with leading zeros. -/
def paddedDecimal (digits n : Nat) : StdString := (decimal n).leftpad digits 48

/-- What `std::fixed << std::setprecision(8)` prints of a double, given by its word. -/
def fixedText (word : UInt64) : StdString :=
  let exponent := word.toNat / 2 ^ 52 % 2 ^ 11
  let fraction := word.toNat % 2 ^ 52
  -- a subnormal number has no leading one and the exponent of the smallest normal ones
  let significand := if exponent = 0 then fraction else 2 ^ 52 + fraction
  let scaled := roundHalfEven (significand * 2 ^ max exponent 1 * 10 ^ 8) (2 ^ 1075)
  (if word.toNat / 2 ^ 63 = 1 then lit "-" else []) ++
    if exponent = 2047 then if fraction = 0 then lit "inf" else lit "nan"
    else decimal (scaled / 10 ^ 8) ++ lit "." ++ paddedDecimal 8 (scaled % 10 ^ 8)

example : fixedText 0x3FF8000000000000 = lit "1.50000000" := by decide +kernel
example : fixedText 0xC0C81CD6E631F8A1 = lit "-12345.67890000" := by decide +kernel

/-- A level in a JSON record. -/
def jsonLevel (level : PriceLevelSnapshot UInt64) : StdString :=
  lit "[" ++ fixedText level.price ++ lit "," ++ fixedText level.quantity ++ lit "," ++
    decimal level.orderCount.toNat ++ lit "]"

/-- The levels of one side in a JSON record, with commas between them. -/
def jsonLevels (levels : List (PriceLevelSnapshot UInt64)) : StdString :=
  (lit ",").intercalate (levels.map jsonLevel)

/-- The bytes of `write_json`. -/
def writeJson (update : RecordedUpdate) : StdString :=
  lit "\x7b" ++ lit "\"timestamp\":" ++ decimal update.timestamp.toNat ++ lit "," ++
    lit "\"exchange\":" ++ decimal update.exchange.val.toNat ++ lit "," ++
    lit "\"symbol\":\"" ++ update.symbol ++ lit "\"," ++
    lit "\"bids\":[" ++ jsonLevels update.bids ++
    lit "],\"asks\":[" ++ jsonLevels update.asks ++ lit "]\x7d\n"

/-- The line of a level in a CSV record. -/
def csvLine (update : RecordedUpdate) (side : StdString) (level : PriceLevelSnapshot UInt64) :
    StdString :=
  decimal update.timestamp.toNat ++ lit "," ++ decimal update.exchange.val.toNat ++ lit "," ++
    update.symbol ++ lit "," ++ side ++ fixedText level.price ++ lit "," ++
    fixedText level.quantity ++ lit "," ++ decimal level.orderCount.toNat ++ lit "\n"

/-- The bytes of `write_csv`. -/
def writeCsv (update : RecordedUpdate) : StdString :=
  update.bids.flatMap (csvLine update (lit "bid,")) ++
    update.asks.flatMap (csvLine update (lit "ask,"))

/-- The bytes of a record; a format that is no enumerator has none. -/
def recordBytes (format : RecordingFormat) (update : RecordedUpdate) : List UInt8 :=
  if format = .binary then writeBinary update
  else if format = .json then writeJson update
  else if format = .csv then writeCsv update
  else []

/-- A JSON record has bytes. -/
theorem writeJson_ne_nil (update : RecordedUpdate) : writeJson update ≠ [] := by
  simp [writeJson, lit]

/-- A text file starts with its header, which JSON has not. -/
theorem writeHeader_eq_nil_iff (format : RecordingFormat) :
    writeHeader format = [] ↔ format ≠ .binary ∧ format ≠ .csv := by
  unfold writeHeader
  split_ifs <;> simp_all [lit]

end OrderbookEngine.MarketDataRecorder
