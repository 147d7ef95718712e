import OrderbookEngine.Library.Decimal
import OrderbookEngine.Library.Utf8

/-!
# JSON texts

Values, and the text of a value as the grammar of JSON has it: blanks between tokens, escapes in
strings, numbers as they are written. Texts are bytes, and a JSON text is in UTF-8.
-/

namespace OrderbookEngine

open Decimal Utf8

/-- A parsed JSON document. -/
inductive Json where
  | null
  | bool (value : Bool)
  | number (text : List UInt8)
  | string (value : List UInt8)
  | array (elements : List Json)
  | object (fields : List (List UInt8 × Json))

namespace Json

/-- The first field of an object under a key. -/
def atKey (json : Json) (key : List UInt8) : Option Json :=
  match json with
  | object fields => (fields.find? fun field => field.1 == key).map Prod.snd
  | _ => none

def getString : Json → Option (List UInt8)
  | string value => some value
  | _ => none

def getArray : Json → Option (List Json)
  | array elements => some elements
  | _ => none

theorem getString_eq_some_iff {json : Json} {value : List UInt8} :
    json.getString = some value ↔ json = .string value := by
  cases json <;> simp [getString]

theorem getArray_eq_some_iff {json : Json} {elements : List Json} :
    json.getArray = some elements ↔ json = .array elements := by
  cases json <;> simp [getArray]

/-! ## Strings -/

/-- Insignificant white space. -/
def IsBlank (c : UInt8) : Prop := c = 32 ∨ c = 9 ∨ c = 10 ∨ c = 13

instance : DecidablePred IsBlank :=
  fun c => inferInstanceAs (Decidable (c = 32 ∨ c = 9 ∨ c = 10 ∨ c = 13))

def skipBlanks (text : List UInt8) : List UInt8 := text.dropWhile (IsBlank ·)

/-- The text behind a byte that is expected. -/
def expect (c : UInt8) (text : List UInt8) : Option (List UInt8) :=
  if text.head? = some c then some text.tail else none

def hexDigit (c : UInt8) : Option ℕ :=
  if 48 ≤ c ∧ c ≤ 57 then some (c.toNat - 48)
  else if 97 ≤ c ∧ c ≤ 102 then some (c.toNat - 87)
  else if 65 ≤ c ∧ c ≤ 70 then some (c.toNat - 55)
  else none

/-- Four hexadecimal digits. -/
def readUnit : List UInt8 → Option (ℕ × List UInt8)
  | a :: b :: c :: d :: rest => do
    return ((((← hexDigit a) * 16 + (← hexDigit b)) * 16 + (← hexDigit c)) * 16 + (← hexDigit d),
      rest)
  | _ => none

/-- A backslash and a letter. -/
def letterEscape (c : UInt8) : Option UInt8 :=
  if c = 34 ∨ c = 92 ∨ c = 47 then some c
  else if c = 98 then some 8
  else if c = 102 then some 12
  else if c = 110 then some 10
  else if c = 114 then some 13
  else if c = 116 then some 9
  else none

/-- The second half of a surrogate pair. -/
def readSurrogate (high : ℕ) (text : List UInt8) : Option (List UInt8 × List UInt8) := do
  let (low, rest) ← readUnit (← expect 117 (← expect 92 text))
  if 0xDC00 ≤ low ∧ low < 0xE000 then
    some (String.utf8EncodeChar (Char.ofNat (0x10000 + (high - 0xD800) * 0x400 + (low - 0xDC00))),
      rest)
  else none

/-- What an escape stands for, read behind its backslash. -/
def readEscape : List UInt8 → Option (List UInt8 × List UInt8)
  | [] => none
  | c :: rest =>
    if c = 117 then do
      let (unit, rest) ← readUnit rest
      if 0xD800 ≤ unit ∧ unit < 0xDC00 then readSurrogate unit rest
      else if 0xDC00 ≤ unit ∧ unit < 0xE000 then none
      else some (String.utf8EncodeChar (Char.ofNat unit), rest)
    else (letterEscape c).map fun d => ([d], rest)

/-- The rest of a string, up to its closing quote. -/
def readChars : ℕ → List UInt8 → Option (List UInt8 × List UInt8)
  | 0, _ => none
  | _ + 1, [] => none
  | fuel + 1, c :: rest =>
    if c = 34 then some ([], rest)
    else if c < 32 then none
    else if c = 92 then do
      let (bytes, rest) ← readEscape rest
      let (chars, rest) ← readChars fuel rest
      return (bytes ++ chars, rest)
    else do
      let (chars, rest) ← readChars fuel rest
      return (c :: chars, rest)

/-! ## Numbers -/

/-- A byte that can be part of a number. -/
def IsNumeral (c : UInt8) : Prop := IsDigit c ∨ c = 45 ∨ c = 43 ∨ c = 46 ∨ c = 101 ∨ c = 69

instance : DecidablePred IsNumeral :=
  fun c => inferInstanceAs (Decidable (IsDigit c ∨ c = 45 ∨ c = 43 ∨ c = 46 ∨ c = 101 ∨ c = 69))

/-- Digits without leading zeros. -/
def IsInteger (text : List UInt8) : Prop :=
  text ≠ [] ∧ (∀ c ∈ text, IsDigit c) ∧ (text.head? = some 48 → text.length = 1)

/-- A point and digits, or nothing. -/
def IsFraction (text : List UInt8) : Prop :=
  text = [] ∨ text.head? = some 46 ∧ text.tail ≠ [] ∧ ∀ c ∈ text.tail, IsDigit c

/-- An `e`, a sign, and digits, or nothing. -/
def IsExponent (text : List UInt8) : Prop :=
  text = [] ∨ (text.head? = some 101 ∨ text.head? = some 69) ∧
    (let digits := if text.tail.head? = some 45 ∨ text.tail.head? = some 43 then text.tail.tail
      else text.tail
    digits ≠ [] ∧ ∀ c ∈ digits, IsDigit c)

/-- The parts of a number. -/
def IsNumber (text : List UInt8) : Prop :=
  let unsigned := if text.head? = some 45 then text.tail else text
  let behind := unsigned.dropWhile (IsDigit ·)
  IsInteger (unsigned.takeWhile (IsDigit ·)) ∧
    IsFraction (behind.takeWhile fun c => c ≠ 101 ∧ c ≠ 69) ∧
    IsExponent (behind.dropWhile fun c => c ≠ 101 ∧ c ≠ 69)

instance (text : List UInt8) : Decidable (IsInteger text) :=
  inferInstanceAs (Decidable (_ ∧ _ ∧ _))

instance (text : List UInt8) : Decidable (IsFraction text) :=
  inferInstanceAs (Decidable (_ ∨ _))

instance (text : List UInt8) : Decidable (IsExponent text) :=
  inferInstanceAs (Decidable (_ ∨ _))

instance (text : List UInt8) : Decidable (IsNumber text) :=
  inferInstanceAs (Decidable (_ ∧ _ ∧ _))

/-- A number goes as far as its bytes can belong to one. -/
def readNumber (text : List UInt8) : Option (List UInt8 × List UInt8) :=
  let number := text.takeWhile (IsNumeral ·)
  if IsNumber number then some (number, text.dropWhile (IsNumeral ·)) else none

/-! ## Values -/

/-- A word is expected. -/
def expectAll : List UInt8 → List UInt8 → Option (List UInt8)
  | [], text => some text
  | c :: word, text => do expectAll word (← expect c text)

mutual

/-- A value at the front of a text. Each level of nesting reads a byte, so there are no more
levels than bytes. -/
def readValue : ℕ → List UInt8 → Option (Json × List UInt8)
  | 0, _ => none
  | fuel + 1, text =>
    if text.head? = some 34 then do
      let (chars, rest) ← readChars text.length text.tail
      return (string chars, rest)
    else if text.head? = some 91 then
      let inside := skipBlanks text.tail
      if inside.head? = some 93 then some (array [], inside.tail)
      else do
        let (elements, rest) ← readElements fuel inside
        return (array elements, rest)
    else if text.head? = some 123 then
      let inside := skipBlanks text.tail
      if inside.head? = some 125 then some (object [], inside.tail)
      else do
        let (fields, rest) ← readFields fuel inside
        return (object fields, rest)
    else if text.head? = some 116 then do
      return (bool true, ← expectAll [116, 114, 117, 101] text)
    else if text.head? = some 102 then do
      return (bool false, ← expectAll [102, 97, 108, 115, 101] text)
    else if text.head? = some 110 then do
      return (null, ← expectAll [110, 117, 108, 108] text)
    else do
      let (digits, rest) ← readNumber text
      return (number digits, rest)

/-- The elements of an array, from the first one on. -/
def readElements : ℕ → List UInt8 → Option (List Json × List UInt8)
  | 0, _ => none
  | fuel + 1, text => do
    let (v, rest) ← readValue fuel text
    let rest := skipBlanks rest
    if rest.head? = some 44 then
      let (elements, rest) ← readElements fuel (skipBlanks rest.tail)
      return (v :: elements, rest)
    else
      return ([v], ← expect 93 rest)

/-- The fields of an object, from the first one on. -/
def readFields : ℕ → List UInt8 → Option (List (List UInt8 × Json) × List UInt8)
  | 0, _ => none
  | fuel + 1, text => do
    let (key, rest) ← readChars text.length (← expect 34 text)
    let (v, rest) ← readValue fuel (skipBlanks (← expect 58 (skipBlanks rest)))
    let rest := skipBlanks rest
    if rest.head? = some 44 then
      let (fields, rest) ← readFields fuel (skipBlanks rest.tail)
      return ((key, v) :: fields, rest)
    else
      return ([(key, v)], ← expect 125 rest)

end

/-- The value of a text that has nothing else in it. -/
def parse (text : List UInt8) : Option Json := do
  let (v, rest) ← readValue (text.length + 1) (skipBlanks text)
  if skipBlanks rest = [] then some v else none

/-- A text of a value, in UTF-8. -/
def Denotes (text : List UInt8) (v : Json) : Prop := IsUtf8 text ∧ parse text = some v

end Json

end OrderbookEngine
