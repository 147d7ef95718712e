import OrderbookEngine.Library.Decimal

/-!
# HTTP responses

A response with the length of its body in a header ends where its body ends, whatever bytes the
body holds and whatever follows it.
-/

namespace OrderbookEngine.Http

open Decimal

/-- A response, with its header fields in their order. -/
structure Response where
  status : ℕ
  reason : List UInt8
  fields : List (List UInt8 × List UInt8)
  body : List UInt8
  deriving DecidableEq, Repr

/-- The version with the blank behind it. -/
def version : List UInt8 := [72, 84, 84, 80, 47, 49, 46, 49, 32]

def printField (field : List UInt8 × List UInt8) : List UInt8 :=
  field.1 ++ 58 :: 32 :: (field.2 ++ [13, 10])

def print (r : Response) : List UInt8 :=
  version ++ (digits r.status ++ 32 :: (r.reason ++ [13, 10])) ++
    r.fields.flatMap printField ++ [13, 10] ++ r.body

/-- The text up to the first end of a line, and the text behind it. -/
def readLine : List UInt8 → Option (List UInt8 × List UInt8)
  | [] => none
  | c :: rest =>
    if c = 13 ∧ rest.head? = some 10 then some ([], rest.tail)
    else (readLine rest).map fun line => (c :: line.1, line.2)

/-- A header field; blanks in front of its value do not count. -/
def readField (line : List UInt8) : Option (List UInt8 × List UInt8) :=
  if 58 ∈ line then
    some (line.takeWhile (· ≠ 58), (line.dropWhile (· ≠ 58)).tail.dropWhile (· = 32))
  else none

/-- The header fields up to the empty line, and the text behind it. -/
def readFields : ℕ → List UInt8 → Option (List (List UInt8 × List UInt8) × List UInt8)
  | 0, _ => none
  | fuel + 1, text => do
    let (line, rest) ← readLine text
    if line = [] then some ([], rest)
    else
      let field ← readField line
      let (fields, rest) ← readFields fuel rest
      some (field :: fields, rest)

/-- The letters of a name without their case. -/
def lower (c : UInt8) : UInt8 := if 65 ≤ c ∧ c ≤ 90 then c + 32 else c

/-- `content-length`. -/
def lengthName : List UInt8 := [99, 111, 110, 116, 101, 110, 116, 45, 108, 101, 110, 103, 116, 104]

/-- The length that the first field of this name gives. -/
def contentLength (fields : List (List UInt8 × List UInt8)) : Option ℕ := do
  let field ← fields.find? fun field => field.1.map lower = lengthName
  if field.2 ≠ [] ∧ ∀ c ∈ field.2, IsDigit c then some (value field.2) else none

/-- A response and the text behind it. -/
def parse (text : List UInt8) : Option (Response × List UInt8) := do
  let (line, rest) ← readLine text
  let status := (line.drop version.length).takeWhile (· ≠ 32)
  if line.take version.length = version ∧ status ≠ [] ∧ ∀ c ∈ status, IsDigit c then
    let (fields, rest) ← readFields rest.length rest
    let length ← contentLength fields
    if length ≤ rest.length then
      some (⟨value status, line.drop (version.length + status.length + 1), fields,
        rest.take length⟩, rest.drop length)
    else none
  else none

/-- A header field that takes one line and has no blank in front of its value. -/
@[mk_iff]
structure FieldFormed (field : List UInt8 × List UInt8) : Prop where
  colon : 58 ∉ field.1
  name : 13 ∉ field.1
  value : 13 ∉ field.2
  blank : field.2.head? ≠ some 32

instance : DecidablePred FieldFormed := fun field => decidable_of_iff _ (fieldFormed_iff field).symm

/-- The lines of a response are lines, and its length is that of its body. -/
structure Formed (r : Response) : Prop where
  reason : 13 ∉ r.reason
  fields : ∀ field ∈ r.fields, FieldFormed field
  length : contentLength r.fields = some r.body.length

theorem readLine_append {line : List UInt8} (hline : 13 ∉ line) (rest : List UInt8) :
    readLine (line ++ 13 :: 10 :: rest) = some (line, rest) := by
  induction line with
  | nil => rfl
  | cons c line ih =>
    rw [List.mem_cons, not_or] at hline
    rw [List.cons_append, readLine, if_neg fun h => hline.1 h.1.symm, ih hline.2]
    rfl

theorem readField_print {field : List UInt8 × List UInt8} (h : FieldFormed field) :
    readField (field.1 ++ 58 :: 32 :: field.2) = some field := by
  have hne : ∀ c ∈ field.1, (decide (c ≠ 58)) = true := fun c hc =>
    decide_eq_true fun heq => h.colon (heq ▸ hc)
  have hvalue : field.2.dropWhile (· = 32) = field.2 := by
    cases hcases : field.2 with
    | nil => rfl
    | cons c value =>
      have hblank := h.blank
      rw [hcases, List.head?_cons, ne_eq, Option.some.injEq] at hblank
      rw [List.dropWhile_cons_of_neg (by simpa using hblank)]
  rw [readField, if_pos (by simp), List.takeWhile_append_of_pos hne,
    List.dropWhile_append_of_pos hne]
  simp [hvalue]

theorem readFields_print {fields : List (List UInt8 × List UInt8)}
    (h : ∀ field ∈ fields, FieldFormed field) {fuel : ℕ} (hfuel : fields.length < fuel)
    (rest : List UInt8) :
    readFields fuel (fields.flatMap printField ++ 13 :: 10 :: rest) = some (fields, rest) := by
  induction fields generalizing fuel with
  | nil =>
    obtain ⟨fuel, rfl⟩ := Nat.exists_eq_succ_of_ne_zero (Nat.ne_of_gt hfuel)
    have hline : readLine (13 :: 10 :: rest) = some ([], rest) := rfl
    simp [readFields, hline]
  | cons field fields ih =>
    obtain ⟨fuel, rfl⟩ := Nat.exists_eq_succ_of_ne_zero (Nat.ne_zero_of_lt hfuel)
    obtain ⟨hfield, hfields⟩ := List.forall_mem_cons.mp h
    have hone : 13 ∉ field.1 ++ 58 :: 32 :: field.2 := by
      simp [hfield.name, hfield.value]
    have hline := readLine_append hone (fields.flatMap printField ++ 13 :: 10 :: rest)
    have hrest := @ih hfields fuel (by simpa using hfuel)
    have htext : (field :: fields).flatMap printField ++ 13 :: 10 :: rest =
        (field.1 ++ 58 :: 32 :: field.2) ++
          13 :: 10 :: (fields.flatMap printField ++ 13 :: 10 :: rest) := by
      simp [printField]
    rw [htext, readFields, hline]
    simp [readField_print hfield, hrest]

theorem length_le_length_flatMap (fields : List (List UInt8 × List UInt8)) :
    fields.length ≤ (fields.flatMap printField).length := by
  induction fields with
  | nil => exact Nat.zero_le _
  | cons field fields ih =>
    simp only [List.flatMap_cons, List.length_append, List.length_cons, printField]
    omega

/-- The digits of the status end at the blank. -/
theorem takeWhile_status (status : ℕ) (reason : List UInt8) :
    (digits status ++ 32 :: reason).takeWhile (· ≠ 32) = digits status := by
  have hne : ∀ c ∈ digits status, (decide (c ≠ 32)) = true := by
    intro c hc
    refine decide_eq_true fun heq => ?_
    rw [heq] at hc
    exact absurd (isDigit_of_mem_digits status 32 hc) (by decide)
  rw [List.takeWhile_append_of_pos hne, List.takeWhile_cons_of_neg (by simp), List.append_nil]

/-- A response that is printed is read back, and nothing behind it is touched. -/
theorem parse_print {r : Response} (h : Formed r) (rest : List UInt8) :
    parse (print r ++ rest) = some (r, rest) := by
  have hdigits := isDigit_of_mem_digits r.status
  have hline : 13 ∉ version ++ (digits r.status ++ 32 :: r.reason) := by
    have hversion : 13 ∉ version := by decide
    have hstatus : 13 ∉ digits r.status := fun hmem => absurd (hdigits 13 hmem) (by decide)
    simp [hversion, hstatus, h.reason]
  have htext : print r ++ rest = version ++ (digits r.status ++ 32 :: r.reason) ++
      13 :: 10 :: (r.fields.flatMap printField ++ 13 :: 10 :: (r.body ++ rest)) := by
    simp [print]
  have hlength : r.fields.length <
      (r.fields.flatMap printField ++ 13 :: 10 :: (r.body ++ rest)).length := by
    have hfields := length_le_length_flatMap r.fields
    simp only [List.length_append, List.length_cons]
    omega
  have hfields := readFields_print h.fields hlength (r.body ++ rest)
  have htake : (version ++ (digits r.status ++ 32 :: r.reason)).take version.length = version :=
    List.take_left' rfl
  have hdrop : (version ++ (digits r.status ++ 32 :: r.reason)).drop version.length =
      digits r.status ++ 32 :: r.reason := List.drop_left' rfl
  have hreason : (version ++ (digits r.status ++ 32 :: r.reason)).drop
      (version.length + (digits r.status).length + 1) = r.reason := by
    rw [Nat.add_assoc, ← List.drop_drop, hdrop, ← List.drop_drop, List.drop_left' rfl]
    rfl
  have hbody : r.body.length ≤ (r.body ++ rest).length := by simp
  rw [htext, parse, readLine_append hline]
  simp only [Option.bind_eq_bind, Option.bind_some, hdrop, htake, takeWhile_status, hreason,
    hfields, h.length, value_digits]
  rw [if_pos ⟨trivial, digits_ne_nil r.status, hdigits⟩, if_pos hbody, List.take_left' rfl,
    List.drop_left' rfl]

/-- The first field with this name gives the length. -/
theorem contentLength_append (front : List (List UInt8 × List UInt8))
    {behind : List (List UInt8 × List UInt8)}
    (hfront : ∀ field ∈ front, field.1.map lower ≠ lengthName) {name : List UInt8}
    (hname : name.map lower = lengthName) (length : ℕ) :
    contentLength (front ++ (name, digits length) :: behind) = some length := by
  have hfind : (front ++ (name, digits length) :: behind).find?
      (fun field => field.1.map lower = lengthName) = some (name, digits length) := by
    have hnone : front.find? (fun field => field.1.map lower = lengthName) = none :=
      List.find?_eq_none.mpr fun field hfield => by simpa using hfront field hfield
    rw [List.find?_append, hnone, Option.none_or, List.find?_cons_of_pos (by simpa using hname)]
  rw [contentLength, hfind]
  simpa [digits_ne_nil, value_digits] using isDigit_of_mem_digits length

/-- A field whose value is a numeral. -/
theorem fieldFormed_digits {name : List UInt8} (hcolon : 58 ∉ name) (hname : 13 ∉ name) (n : ℕ) :
    FieldFormed (name, digits n) where
  colon := hcolon
  name := hname
  value := fun hmem => absurd (isDigit_of_mem_digits n 13 hmem) (by decide)
  blank := fun hhead =>
    absurd (isDigit_of_mem_digits n 32 (List.mem_of_mem_head? hhead)) (by decide)

end OrderbookEngine.Http
