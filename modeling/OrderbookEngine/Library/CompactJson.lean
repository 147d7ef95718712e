import OrderbookEngine.Library.Json

/-!
# Texts without escapes

A value printed without blanks and with its strings as they are. It is read back when no string
needs an escape; and otherwise it is too short for a text of the value, since an escape takes
more bytes than what it stands for.
-/

namespace OrderbookEngine.Json

open Decimal Utf8

/-- Texts with commas between them. -/
def commas : List (List UInt8) → List UInt8
  | [] => []
  | text :: texts => text ++ texts.flatMap (44 :: ·)

theorem sizeOf_element_lt {elements : List Json} {v : Json} (h : v ∈ elements) :
    sizeOf v < sizeOf (array elements) := by
  have := List.sizeOf_lt_of_mem h
  rw [array.sizeOf_spec]
  omega

theorem sizeOf_field_lt {fields : List (List UInt8 × Json)} {field : List UInt8 × Json}
    (h : field ∈ fields) : sizeOf field.2 < sizeOf (object fields) := by
  have hfield := List.sizeOf_lt_of_mem h
  have hvalue : sizeOf field = 1 + sizeOf field.1 + sizeOf field.2 := Prod.mk.sizeOf_spec ..
  rw [object.sizeOf_spec]
  omega

/-- A value printed without blanks and escapes. -/
def compact : Json → List UInt8
  | null => [110, 117, 108, 108]
  | bool true => [116, 114, 117, 101]
  | bool false => [102, 97, 108, 115, 101]
  | number text => text
  | string value => 34 :: (value ++ [34])
  | array elements => 91 :: (commas (elements.map compact) ++ [93])
  | object fields =>
    123 ::
      (commas (fields.map fun field => 34 :: (field.1 ++ 34 :: 58 :: compact field.2)) ++ [125])
termination_by v => sizeOf v
decreasing_by
  · exact sizeOf_element_lt ‹_›
  · exact sizeOf_field_lt ‹_›

/-- The strings and the keys of a value. -/
def strings : Json → List (List UInt8)
  | string value => [value]
  | array elements => elements.flatMap strings
  | object fields => fields.flatMap fun field => field.1 :: strings field.2
  | _ => []
termination_by v => sizeOf v
decreasing_by
  · exact sizeOf_element_lt ‹_›
  · exact sizeOf_field_lt ‹_›

/-- The numbers of a value. -/
def numbers : Json → List (List UInt8)
  | number text => [text]
  | array elements => elements.flatMap numbers
  | object fields => fields.flatMap fun field => numbers field.2
  | _ => []
termination_by v => sizeOf v
decreasing_by
  · exact sizeOf_element_lt ‹_›
  · exact sizeOf_field_lt ‹_›

@[simp] theorem strings_bool (b : Bool) : strings (bool b) = [] := by simp [strings]

@[simp] theorem strings_number (text : List UInt8) : strings (number text) = [] := by
  simp [strings]

@[simp] theorem strings_string (value : List UInt8) : strings (string value) = [value] := by
  simp [strings]

@[simp] theorem numbers_bool (b : Bool) : numbers (bool b) = [] := by simp [numbers]

@[simp] theorem numbers_number (text : List UInt8) : numbers (number text) = [text] := by
  simp [numbers]

@[simp] theorem numbers_string (value : List UInt8) : numbers (string value) = [] := by
  simp [numbers]

/-- The strings of an object are its keys and the strings of its values. -/
theorem forall_strings_object {P : List UInt8 → Prop} {fields : List (List UInt8 × Json)} :
    (∀ s ∈ strings (object fields), P s) ↔
      ∀ field ∈ fields, P field.1 ∧ ∀ s ∈ strings field.2, P s := by
  rw [strings, List.forall_mem_flatMap]
  simp only [List.forall_mem_cons]

theorem forall_numbers_object {P : List UInt8 → Prop} {fields : List (List UInt8 × Json)} :
    (∀ s ∈ numbers (object fields), P s) ↔ ∀ field ∈ fields, ∀ s ∈ numbers field.2, P s := by
  rw [numbers, List.forall_mem_flatMap]

/-- A byte that a string cannot have without an escape. -/
def IsUnclean (c : UInt8) : Prop := c = 34 ∨ c = 92 ∨ c < 32

instance : DecidablePred IsUnclean :=
  fun c => inferInstanceAs (Decidable (c = 34 ∨ c = 92 ∨ c < 32))

/-- A string that needs no escape. -/
def IsClean (s : List UInt8) : Prop := ∀ c ∈ s, ¬ IsUnclean c

/-- Values are built from those of elements and fields. -/
theorem induction {P : Json → Prop} (null : P null) (bool : ∀ b, P (bool b))
    (number : ∀ text, P (number text)) (string : ∀ value, P (string value))
    (array : ∀ elements, (∀ v ∈ elements, P v) → P (array elements))
    (object : ∀ fields, (∀ field ∈ fields, P field.2) → P (object fields)) (v : Json) : P v := by
  match v with
  | .null => exact null
  | .bool b => exact bool b
  | .number text => exact number text
  | .string value => exact string value
  | .array elements =>
    exact array elements fun v hv => induction null bool number string array object v
  | .object fields =>
    exact object fields fun field hfield =>
      induction null bool number string array object field.2
termination_by sizeOf v
decreasing_by
  · exact sizeOf_element_lt hv
  · exact sizeOf_field_lt hfield

/-! ## Reading a printed value -/

theorem expect_cons (c : UInt8) (rest : List UInt8) : expect c (c :: rest) = some rest := if_pos rfl

theorem skipBlanks_cons {c : UInt8} (h : ¬ IsBlank c) (rest : List UInt8) :
    skipBlanks (c :: rest) = c :: rest := by
  rw [skipBlanks, List.dropWhile_cons_of_neg (by simpa using h)]

theorem readChars_clean {s : List UInt8} (h : IsClean s) (rest : List UInt8) {fuel : ℕ}
    (hfuel : s.length < fuel) : readChars fuel (s ++ 34 :: rest) = some (s, rest) := by
  induction s generalizing fuel with
  | nil =>
    obtain ⟨fuel, rfl⟩ := Nat.exists_eq_succ_of_ne_zero (Nat.ne_zero_of_lt hfuel)
    rw [List.nil_append, readChars, if_pos rfl]
  | cons c s ih =>
    obtain ⟨fuel, rfl⟩ := Nat.exists_eq_succ_of_ne_zero (Nat.ne_zero_of_lt hfuel)
    obtain ⟨hc, hs⟩ := List.forall_mem_cons.mp h
    simp only [IsUnclean, not_or] at hc
    rw [List.cons_append, readChars, if_neg hc.1, if_neg hc.2.2, if_neg hc.2.1,
      ih hs (Nat.lt_of_succ_lt_succ hfuel)]
    rfl

theorem forall_of_head_tail {P : UInt8 → Prop} {text : List UInt8} {head : UInt8}
    (hhead : text.head? = some head) (h : P head) (htail : ∀ c ∈ text.tail, P c) :
    ∀ c ∈ text, P c := by
  cases text with
  | nil => cases hhead
  | cons c text =>
    cases hhead
    exact List.forall_mem_cons.mpr ⟨h, htail⟩

theorem isNumeral_of_isFraction {text : List UInt8} (h : IsFraction text) :
    ∀ c ∈ text, IsNumeral c := by
  rcases h with rfl | ⟨hpoint, -, hdigits⟩
  · exact List.forall_mem_nil _
  · exact forall_of_head_tail hpoint (by decide) fun c hc => .inl (hdigits c hc)

theorem isNumeral_of_isExponent {text : List UInt8} (h : IsExponent text) :
    ∀ c ∈ text, IsNumeral c := by
  rcases h with rfl | ⟨hletter, -, hdigits⟩
  · exact List.forall_mem_nil _
  have htail : ∀ c ∈ text.tail, IsNumeral c := by
    split at hdigits
    · next hsign =>
      rcases hsign with hsign | hsign
      · exact forall_of_head_tail hsign (by decide) fun c hc => .inl (hdigits c hc)
      · exact forall_of_head_tail hsign (by decide) fun c hc => .inl (hdigits c hc)
    · exact fun c hc => .inl (hdigits c hc)
  rcases hletter with hletter | hletter
  · exact forall_of_head_tail hletter (by decide) htail
  · exact forall_of_head_tail hletter (by decide) htail

/-- The bytes of a number. -/
theorem isNumeral_of_isNumber {text : List UInt8} (h : IsNumber text) :
    ∀ c ∈ text, IsNumeral c := by
  obtain ⟨hwhole, hfraction, hexponent⟩ := h
  have hunsigned : ∀ c ∈ (if text.head? = some 45 then text.tail else text), IsNumeral c := by
    intro c hc
    rw [← List.takeWhile_append_dropWhile (p := (decide <| IsDigit ·))
      (l := if text.head? = some 45 then text.tail else text)] at hc
    rcases List.mem_append.mp hc with hc | hc
    · exact .inl (hwhole.2.1 c hc)
    rw [← List.takeWhile_append_dropWhile (p := fun c : UInt8 => c ≠ 101 ∧ c ≠ 69)
      (l := List.dropWhile _ _)] at hc
    rcases List.mem_append.mp hc with hc | hc
    · exact isNumeral_of_isFraction hfraction c hc
    · exact isNumeral_of_isExponent hexponent c hc
  split at hunsigned
  · next hsign => exact forall_of_head_tail hsign (by decide) hunsigned
  · exact hunsigned

theorem ne_nil_of_isNumber {text : List UInt8} (h : IsNumber text) : text ≠ [] := by
  rintro rfl
  exact h.1.1 rfl

/-- The numeral of a whole number is a number. -/
theorem isNumber_digits (n : ℕ) : IsNumber (digits n) := by
  have hdigits := isDigit_of_mem_digits n
  have hsign : (digits n).head? ≠ some 45 := fun h =>
    absurd (hdigits 45 (List.mem_of_mem_head? h)) (by decide)
  have hall : ∀ c ∈ digits n, decide (IsDigit c) = true := fun c hc => decide_eq_true (hdigits c hc)
  have htake : (digits n ++ []).takeWhile (IsDigit ·) = digits n ++ [].takeWhile (IsDigit ·) :=
    List.takeWhile_append_of_pos hall
  have hdrop : (digits n ++ []).dropWhile (IsDigit ·) = [].dropWhile (IsDigit ·) :=
    List.dropWhile_append_of_pos hall
  rw [List.append_nil, List.takeWhile_nil, List.append_nil] at htake
  rw [List.append_nil, List.dropWhile_nil] at hdrop
  have hzero : (digits n).head? = some 48 → (digits n).length = 1 := by
    intro h
    rw [eq_zero_of_head_digits h]
    rfl
  unfold IsNumber
  simp only [if_neg hsign, htake, hdrop]
  exact ⟨⟨digits_ne_nil n, hdigits, hzero⟩, .inl rfl, .inl rfl⟩

theorem readNumber_append {text : List UInt8} (h : IsNumber text) {rest : List UInt8}
    (hrest : ∀ c ∈ rest.head?, ¬ IsNumeral c) : readNumber (text ++ rest) = some (text, rest) := by
  have hnumeral : ∀ c ∈ text, decide (IsNumeral c) = true :=
    fun c hc => decide_eq_true (isNumeral_of_isNumber h c hc)
  have hstop : rest.takeWhile (IsNumeral ·) = [] ∧ rest.dropWhile (IsNumeral ·) = rest := by
    cases rest with
    | nil => exact ⟨rfl, rfl⟩
    | cons c rest =>
      have hc : ¬ decide (IsNumeral c) = true := by simpa using hrest c rfl
      exact ⟨List.takeWhile_cons_of_neg hc, List.dropWhile_cons_of_neg hc⟩
  rw [readNumber, List.takeWhile_append_of_pos hnumeral, List.dropWhile_append_of_pos hnumeral,
    hstop.1, hstop.2, List.append_nil, if_pos h]

/-- A printed value starts with none of the bytes that end or separate values. -/
theorem compact_head {v : Json} (hnumbers : ∀ t ∈ numbers v, IsNumber t) :
    ∃ c rest, compact v = c :: rest ∧ ¬ IsBlank c ∧ c ≠ 93 ∧ c ≠ 125 := by
  cases v with
  | null => exact ⟨_, _, by rw [compact], by decide, by decide, by decide⟩
  | bool b => cases b <;> exact ⟨_, _, by rw [compact], by decide, by decide, by decide⟩
  | number text =>
    rw [numbers, List.forall_mem_singleton] at hnumbers
    obtain ⟨c, rest, rfl⟩ := List.exists_cons_of_ne_nil (ne_nil_of_isNumber hnumbers)
    have hnumeral := isNumeral_of_isNumber hnumbers c List.mem_cons_self
    refine ⟨c, rest, by rw [compact], ?_, ?_, ?_⟩
    · rintro (rfl | rfl | rfl | rfl) <;> exact absurd hnumeral (by decide)
    · rintro rfl
      exact absurd hnumeral (by decide)
    · rintro rfl
      exact absurd hnumeral (by decide)
  | string value => exact ⟨_, _, by rw [compact], by decide, by decide, by decide⟩
  | array elements => exact ⟨_, _, by rw [compact], by decide, by decide, by decide⟩
  | object fields => exact ⟨_, _, by rw [compact], by decide, by decide, by decide⟩

/-- The value is read back from its text, whatever follows that is not part of a number. -/
def ReadBack (v : Json) : Prop :=
  ∀ fuel rest, (compact v).length < fuel → (∀ c ∈ rest.head?, ¬ IsNumeral c) →
    readValue fuel (compact v ++ rest) = some (v, rest)

theorem commas_cons_cons (t u : List UInt8) (ts : List (List UInt8)) :
    commas (t :: u :: ts) = t ++ 44 :: commas (u :: ts) := by
  simp only [commas, List.flatMap_cons, List.cons_append]

/-- Blanks before a printed value, of which there are none. -/
theorem skipBlanks_compact {v : Json} (h : ∀ t ∈ numbers v, IsNumber t) (rest : List UInt8) :
    skipBlanks (compact v ++ rest) = compact v ++ rest := by
  obtain ⟨c, text, hcompact, hblank, -⟩ := compact_head h
  rw [hcompact]
  exact skipBlanks_cons hblank _

section Steps

variable {fuel : ℕ} {text rest behind : List UInt8} {v : Json}

theorem readElements_last (hvalue : readValue fuel text = some (v, rest))
    (hrest : skipBlanks rest = 93 :: behind) :
    readElements (fuel + 1) text = some ([v], behind) := by
  rw [readElements, hvalue]
  simp [hrest, expect_cons]

theorem readElements_more {vs : List Json} {final : List UInt8}
    (hvalue : readValue fuel text = some (v, rest)) (hrest : skipBlanks rest = 44 :: behind)
    (hvs : readElements fuel (skipBlanks behind) = some (vs, final)) :
    readElements (fuel + 1) text = some (v :: vs, final) := by
  rw [readElements, hvalue]
  simp [hrest, hvs]

variable {key : List UInt8} (hkey : IsClean key)

include hkey in
theorem readFields_last
    (hvalue : readValue fuel (skipBlanks text) = some (v, rest))
    (hrest : skipBlanks rest = 125 :: behind) :
    readFields (fuel + 1) (34 :: (key ++ 34 :: 58 :: text)) = some ([(key, v)], behind) := by
  have hchars : readChars (key.length + (text.length + 1 + 1) + 1) (key ++ 34 :: 58 :: text) =
      some (key, 58 :: text) := readChars_clean hkey _ (by omega)
  rw [readFields, expect_cons]
  simp [hchars, skipBlanks_cons, IsBlank, expect_cons, hvalue, hrest]

include hkey in
theorem readFields_more {fields : List (List UInt8 × Json)} {final : List UInt8}
    (hvalue : readValue fuel (skipBlanks text) = some (v, rest))
    (hrest : skipBlanks rest = 44 :: behind)
    (hfields : readFields fuel (skipBlanks behind) = some (fields, final)) :
    readFields (fuel + 1) (34 :: (key ++ 34 :: 58 :: text)) = some ((key, v) :: fields, final) := by
  have hchars : readChars (key.length + (text.length + 1 + 1) + 1) (key ++ 34 :: 58 :: text) =
      some (key, 58 :: text) := readChars_clean hkey _ (by omega)
  rw [readFields, expect_cons]
  simp [hchars, skipBlanks_cons, IsBlank, expect_cons, hvalue, hrest, hfields]

end Steps

theorem not_isNumeral_head {c : UInt8} (h : ¬ IsNumeral c) (rest : List UInt8) :
    ∀ d ∈ (c :: rest).head?, ¬ IsNumeral d := by
  rintro d ⟨⟩
  exact h

theorem readElements_compact {v : Json} {vs : List Json} (hread : ∀ w ∈ v :: vs, ReadBack w)
    (hnumbers : ∀ w ∈ v :: vs, ∀ t ∈ numbers w, IsNumber t) {fuel : ℕ}
    (hfuel : (commas ((v :: vs).map compact)).length + 1 < fuel) (rest : List UInt8) :
    readElements fuel (commas ((v :: vs).map compact) ++ 93 :: rest) = some (v :: vs, rest) := by
  induction vs generalizing v fuel with
  | nil =>
    obtain ⟨fuel, rfl⟩ := Nat.exists_eq_succ_of_ne_zero (Nat.ne_zero_of_lt hfuel)
    have htext : commas ([v].map compact) = compact v := List.append_nil _
    rw [htext] at hfuel ⊢
    have hvalue := hread v List.mem_cons_self fuel (93 :: rest) (by omega)
      (not_isNumeral_head (by decide) rest)
    exact readElements_last hvalue (skipBlanks_cons (by decide) rest)
  | cons w vs ih =>
    obtain ⟨fuel, rfl⟩ := Nat.exists_eq_succ_of_ne_zero (Nat.ne_zero_of_lt hfuel)
    have htext : commas ((v :: w :: vs).map compact) =
        compact v ++ 44 :: commas ((w :: vs).map compact) := commas_cons_cons _ _ _
    rw [htext, List.append_assoc, List.cons_append]
    rw [htext, List.length_append, List.length_cons] at hfuel
    have hvalue := hread v List.mem_cons_self fuel
      (44 :: (commas ((w :: vs).map compact) ++ 93 :: rest)) (by omega)
      (not_isNumeral_head (by decide) _)
    refine readElements_more hvalue (skipBlanks_cons (by decide) _) ?_
    have hblanks : skipBlanks (commas ((w :: vs).map compact) ++ 93 :: rest) =
        commas ((w :: vs).map compact) ++ 93 :: rest := by
      rw [List.map_cons, commas, List.append_assoc]
      exact skipBlanks_compact (hnumbers w (List.mem_cons_of_mem _ List.mem_cons_self)) _
    rw [hblanks]
    exact ih (fun u hu => hread u (List.mem_cons_of_mem _ hu))
      (fun u hu => hnumbers u (List.mem_cons_of_mem _ hu)) (by omega)

/-- A field of a printed object. -/
def printField (field : List UInt8 × Json) : List UInt8 :=
  34 :: (field.1 ++ 34 :: 58 :: compact field.2)

theorem compact_object (fields : List (List UInt8 × Json)) :
    compact (object fields) = 123 :: (commas (fields.map printField) ++ [125]) := by
  rw [compact]
  rfl

theorem readFields_compact {field : List UInt8 × Json} {fields : List (List UInt8 × Json)}
    (hread : ∀ f ∈ field :: fields, ReadBack f.2) (hkeys : ∀ f ∈ field :: fields, IsClean f.1)
    (hnumbers : ∀ f ∈ field :: fields, ∀ t ∈ numbers f.2, IsNumber t) {fuel : ℕ}
    (hfuel : (commas ((field :: fields).map printField)).length + 1 < fuel) (rest : List UInt8) :
    readFields fuel (commas ((field :: fields).map printField) ++ 125 :: rest) =
      some (field :: fields, rest) := by
  induction fields generalizing field fuel with
  | nil =>
    obtain ⟨fuel, rfl⟩ := Nat.exists_eq_succ_of_ne_zero (Nat.ne_zero_of_lt hfuel)
    have htext : commas ([field].map printField) = printField field := List.append_nil _
    rw [htext, printField, List.length_cons, List.length_append] at hfuel
    simp only [List.length_cons] at hfuel
    rw [htext, printField, List.cons_append, List.append_assoc, List.cons_append, List.cons_append]
    refine readFields_last (hkeys field List.mem_cons_self) ?_ (skipBlanks_cons (by decide) rest)
    rw [skipBlanks_compact (hnumbers field List.mem_cons_self)]
    exact hread field List.mem_cons_self fuel (125 :: rest) (by omega)
      (not_isNumeral_head (by decide) rest)
  | cons next fields ih =>
    obtain ⟨fuel, rfl⟩ := Nat.exists_eq_succ_of_ne_zero (Nat.ne_zero_of_lt hfuel)
    have htext : commas ((field :: next :: fields).map printField) =
        printField field ++ 44 :: commas ((next :: fields).map printField) := commas_cons_cons _ _ _
    rw [htext, printField, List.length_append, List.length_cons, List.length_append] at hfuel
    simp only [List.length_cons] at hfuel
    rw [htext, printField]
    simp only [List.cons_append, List.append_assoc]
    have hblanks : skipBlanks (commas ((next :: fields).map printField) ++ 125 :: rest) =
        commas ((next :: fields).map printField) ++ 125 :: rest := by
      rw [List.map_cons, commas, printField]
      exact skipBlanks_cons (by decide) _
    have hvalue := hread field List.mem_cons_self fuel
      (44 :: (commas ((next :: fields).map printField) ++ 125 :: rest)) (by omega)
      (not_isNumeral_head (by decide) _)
    rw [← skipBlanks_compact (hnumbers field List.mem_cons_self)] at hvalue
    refine readFields_more (hkeys field List.mem_cons_self) hvalue
      (skipBlanks_cons (by decide) _) ?_
    · rw [hblanks]
      exact ih (fun f hf => hread f (List.mem_cons_of_mem _ hf))
        (fun f hf => hkeys f (List.mem_cons_of_mem _ hf))
        (fun f hf => hnumbers f (List.mem_cons_of_mem _ hf)) (by omega)

theorem readBack_number {text : List UInt8} (h : IsNumber text) : ReadBack (number text) := by
  intro fuel rest hfuel hrest
  obtain ⟨fuel, rfl⟩ := Nat.exists_eq_succ_of_ne_zero (Nat.ne_zero_of_lt hfuel)
  have hread := readNumber_append h hrest
  obtain ⟨c, behind, rfl⟩ := List.exists_cons_of_ne_nil (ne_nil_of_isNumber h)
  have hne : ∀ d, ¬ IsNumeral d → ((c :: behind) ++ rest).head? ≠ some d := fun d hd heq =>
    hd (Option.some.inj heq ▸ isNumeral_of_isNumber h c List.mem_cons_self)
  rw [compact, readValue, if_neg (hne 34 (by decide)), if_neg (hne 91 (by decide)),
    if_neg (hne 123 (by decide)), if_neg (hne 116 (by decide)), if_neg (hne 102 (by decide)),
    if_neg (hne 110 (by decide)), hread]
  rfl

theorem readBack_string {value : List UInt8} (h : IsClean value) : ReadBack (string value) := by
  intro fuel rest hfuel _
  obtain ⟨fuel, rfl⟩ := Nat.exists_eq_succ_of_ne_zero (Nat.ne_zero_of_lt hfuel)
  have hchars : readChars ((value ++ 34 :: rest).length + 1) (value ++ 34 :: rest) =
      some (value, rest) := readChars_clean h rest (by simp)
  rw [compact, readValue]
  simp only [List.cons_append, List.append_assoc, List.nil_append, List.head?_cons, if_true,
    List.length_cons, List.tail_cons, hchars]
  rfl

theorem readBack_array {elements : List Json} (hread : ∀ v ∈ elements, ReadBack v)
    (hnumbers : ∀ v ∈ elements, ∀ t ∈ numbers v, IsNumber t) : ReadBack (array elements) := by
  intro fuel rest hfuel _
  obtain ⟨fuel, rfl⟩ := Nat.exists_eq_succ_of_ne_zero (Nat.ne_zero_of_lt hfuel)
  rw [compact] at hfuel ⊢
  cases elements with
  | nil =>
    rw [readValue]
    simp [commas, skipBlanks_cons, IsBlank]
  | cons v vs =>
    have hblanks : skipBlanks (commas ((v :: vs).map compact) ++ 93 :: rest) =
        commas ((v :: vs).map compact) ++ 93 :: rest := by
      rw [List.map_cons, commas, List.append_assoc]
      exact skipBlanks_compact (hnumbers v List.mem_cons_self) _
    have hhead : (commas ((v :: vs).map compact) ++ 93 :: rest).head? ≠ some 93 := by
      obtain ⟨c, text, hcompact, -, hne, -⟩ := compact_head (hnumbers v List.mem_cons_self)
      rw [List.map_cons, commas, hcompact]
      exact fun h => hne (Option.some.inj h)
    rw [List.length_cons, List.length_append, List.length_singleton] at hfuel
    have helements : readElements fuel (commas ((v :: vs).map compact) ++ 93 :: rest) =
        some (v :: vs, rest) := readElements_compact hread hnumbers (by omega) rest
    rw [readValue]
    simp only [List.cons_append, List.append_assoc, List.nil_append, List.head?_cons,
      List.tail_cons, hblanks, if_neg hhead, helements]
    rfl

theorem readBack_object {fields : List (List UInt8 × Json)} (hread : ∀ f ∈ fields, ReadBack f.2)
    (hkeys : ∀ f ∈ fields, IsClean f.1)
    (hnumbers : ∀ f ∈ fields, ∀ t ∈ numbers f.2, IsNumber t) : ReadBack (object fields) := by
  intro fuel rest hfuel _
  obtain ⟨fuel, rfl⟩ := Nat.exists_eq_succ_of_ne_zero (Nat.ne_zero_of_lt hfuel)
  rw [compact_object] at hfuel ⊢
  cases fields with
  | nil =>
    rw [readValue]
    simp [commas, skipBlanks_cons, IsBlank]
  | cons field fields =>
    obtain ⟨text, htext⟩ : ∃ text, commas ((field :: fields).map printField) ++ 125 :: rest =
        34 :: text := ⟨_, rfl⟩
    have hblanks : skipBlanks (commas ((field :: fields).map printField) ++ 125 :: rest) =
        commas ((field :: fields).map printField) ++ 125 :: rest := by
      rw [htext]
      exact skipBlanks_cons (by decide) _
    have hhead : (commas ((field :: fields).map printField) ++ 125 :: rest).head? ≠ some 125 := by
      rw [htext]
      exact fun h => absurd (Option.some.inj h) (by decide)
    rw [List.length_cons, List.length_append, List.length_singleton] at hfuel
    have hfields : readFields fuel (commas ((field :: fields).map printField) ++ 125 :: rest) =
        some (field :: fields, rest) := readFields_compact hread hkeys hnumbers (by omega) rest
    rw [readValue]
    simp only [List.cons_append, List.append_assoc, List.nil_append, List.head?_cons,
      List.tail_cons, hblanks, if_neg hhead, hfields]
    rfl

/-- A value without strings that need escapes is read back. -/
theorem readBack_of_clean {v : Json} (hstrings : ∀ s ∈ strings v, IsClean s)
    (hnumbers : ∀ t ∈ numbers v, IsNumber t) : ReadBack v := by
  induction v using Json.induction with
  | null =>
    intro fuel rest hfuel _
    obtain ⟨fuel, rfl⟩ := Nat.exists_eq_succ_of_ne_zero (Nat.ne_zero_of_lt hfuel)
    rw [compact, readValue]
    simp [expectAll, expect_cons]
  | bool b =>
    intro fuel rest hfuel _
    obtain ⟨fuel, rfl⟩ := Nat.exists_eq_succ_of_ne_zero (Nat.ne_zero_of_lt hfuel)
    cases b
    · rw [compact, readValue]
      simp [expectAll, expect_cons]
    · rw [compact, readValue]
      simp [expectAll, expect_cons]
  | number text =>
    rw [numbers, List.forall_mem_singleton] at hnumbers
    exact readBack_number hnumbers
  | string value =>
    rw [strings, List.forall_mem_singleton] at hstrings
    exact readBack_string hstrings
  | array elements ih =>
    rw [strings, List.forall_mem_flatMap] at hstrings
    rw [numbers, List.forall_mem_flatMap] at hnumbers
    exact readBack_array (fun v hv => ih v hv (hstrings v hv) (hnumbers v hv)) hnumbers
  | object fields ih =>
    rw [forall_strings_object] at hstrings
    rw [forall_numbers_object] at hnumbers
    exact readBack_object (fun f hf => ih f hf (hstrings f hf).2 (hnumbers f hf))
      (fun f hf => (hstrings f hf).1) hnumbers

/-- The text of a value without strings that need escapes is parsed to the value. -/
theorem parse_compact {v : Json} (hstrings : ∀ s ∈ strings v, IsClean s)
    (hnumbers : ∀ t ∈ numbers v, IsNumber t) : parse (compact v) = some v := by
  have hread := readBack_of_clean hstrings hnumbers ((compact v).length + 1) []
    (Nat.lt_succ_self _) (fun _ h => by cases h)
  have hblanks := skipBlanks_compact hnumbers []
  rw [List.append_nil] at hread hblanks
  rw [parse, hblanks, hread]
  rfl

/-! ## How long a text of a value is -/

/-- How many bytes of a string need an escape. -/
def unclean (s : List UInt8) : ℕ := s.countP (IsUnclean ·)

/-- How many bytes of the strings of a value need an escape. -/
def uncleanBytes (v : Json) : ℕ := ((strings v).map unclean).sum

/-- A length that no text of the value is below. -/
def weight (v : Json) : ℕ := (compact v).length + uncleanBytes v

theorem unclean_eq_zero_iff {s : List UInt8} : unclean s = 0 ↔ IsClean s := by
  rw [unclean, List.countP_eq_zero]
  simp only [decide_eq_true_eq, IsClean]

theorem unclean_append (s t : List UInt8) : unclean (s ++ t) = unclean s + unclean t :=
  List.countP_append

theorem length_skipBlanks_le (text : List UInt8) : (skipBlanks text).length ≤ text.length :=
  (List.dropWhile_suffix _).sublist.length_le

theorem length_of_expect {c : UInt8} {text rest : List UInt8} (h : expect c text = some rest) :
    rest.length + 1 = text.length := by
  unfold expect at h
  split at h
  · next hhead =>
    obtain ⟨_, rfl⟩ := List.head?_eq_some_iff.mp hhead
    rw [Option.some.injEq, List.tail_cons] at h
    rw [← h, List.length_cons]
  · cases h

theorem length_of_expectAll {word text rest : List UInt8} (h : expectAll word text = some rest) :
    word.length + rest.length = text.length := by
  induction word generalizing text with
  | nil =>
    cases h
    exact Nat.zero_add _
  | cons c word ih =>
    rw [expectAll, Option.bind_eq_bind, Option.bind_eq_some_iff] at h
    obtain ⟨behind, hexpect, hrest⟩ := h
    have hone := length_of_expect hexpect
    have hmore := ih hrest
    rw [List.length_cons]
    omega

theorem length_of_readUnit {text rest : List UInt8} {unit : ℕ}
    (h : readUnit text = some (unit, rest)) : rest.length + 4 = text.length := by
  unfold readUnit at h
  split at h
  · simp only [Option.bind_eq_bind, Option.bind_eq_some_iff, Option.pure_def, Option.some.injEq,
      Prod.mk.injEq] at h
    obtain ⟨_, -, _, -, _, -, _, -, -, rfl⟩ := h
    rfl
  · cases h

/-- An encoded character has at most four bytes, of which only an ASCII one needs an escape. -/
theorem utf8EncodeChar_weight (c : Char) :
    (String.utf8EncodeChar c).length + unclean (String.utf8EncodeChar c) ≤ 4 := by
  have hlength : (String.utf8EncodeChar c).length ≤ 4 := by
    unfold String.utf8EncodeChar
    dsimp only
    split_ifs <;> simp
  obtain ⟨b, -, hone⟩ | hhigh := encode_cases c
  · rw [hone, unclean]
    have hle := List.countP_le_length (p := (decide <| IsUnclean ·)) (l := [b])
    rw [List.length_singleton] at hle ⊢
    omega
  · have hclean : unclean (String.utf8EncodeChar c) = 0 := unclean_eq_zero_iff.mpr fun b hb h => by
      have hb := hhigh b hb
      obtain rfl | rfl | hlt := h
      · exact absurd hb (by decide)
      · exact absurd hb (by decide)
      · have hlow : b < 128 := UInt8.lt_of_lt_of_le hlt (by decide)
        exact absurd hlow (UInt8.not_lt.mpr hb)
    omega

theorem weight_of_readSurrogate {high : ℕ} {text bytes rest : List UInt8}
    (h : readSurrogate high text = some (bytes, rest)) :
    bytes.length + unclean bytes + rest.length ≤ text.length := by
  unfold readSurrogate at h
  simp only [Option.bind_eq_bind, Option.bind_eq_some_iff] at h
  obtain ⟨_, hbackslash, _, hletter, ⟨low, _⟩, hunit, h⟩ := h
  split at h
  · simp only [Option.some.injEq, Prod.mk.injEq] at h
    obtain ⟨rfl, rfl⟩ := h
    have hfour := utf8EncodeChar_weight
      (Char.ofNat (0x10000 + (high - 0xD800) * 0x400 + (low - 0xDC00)))
    have := length_of_expect hbackslash
    have := length_of_expect hletter
    have := length_of_readUnit hunit
    omega
  · cases h

theorem weight_of_readEscape {text bytes rest : List UInt8}
    (h : readEscape text = some (bytes, rest)) :
    bytes.length + unclean bytes + rest.length ≤ text.length + 1 := by
  cases text with
  | nil => cases h
  | cons c text =>
    rw [List.length_cons]
    rw [readEscape] at h
    split at h
    · simp only [Option.bind_eq_bind, Option.bind_eq_some_iff] at h
      obtain ⟨⟨unit, behind⟩, hunit, h⟩ := h
      have hlength := length_of_readUnit hunit
      dsimp only at h
      split at h
      · have hsurrogate := weight_of_readSurrogate h
        omega
      · split at h
        · cases h
        · simp only [Option.some.injEq, Prod.mk.injEq] at h
          obtain ⟨rfl, rfl⟩ := h
          have hfour := utf8EncodeChar_weight (Char.ofNat unit)
          omega
    · simp only [Option.map_eq_some_iff, Prod.mk.injEq] at h
      obtain ⟨d, -, rfl, rfl⟩ := h
      have hle : unclean [d] ≤ [d].length := List.countP_le_length
      rw [List.length_singleton] at hle ⊢
      omega

theorem weight_of_readChars {fuel : ℕ} {text chars rest : List UInt8}
    (h : readChars fuel text = some (chars, rest)) :
    chars.length + unclean chars + 1 + rest.length ≤ text.length := by
  induction fuel generalizing text chars rest with
  | zero => cases h
  | succ fuel ih =>
    cases text with
    | nil => cases h
    | cons c text =>
      rw [List.length_cons]
      rw [readChars] at h
      split at h
      · simp only [Option.some.injEq, Prod.mk.injEq] at h
        obtain ⟨rfl, rfl⟩ := h
        simp [unclean]
        omega
      next hquote =>
      split at h
      · cases h
      next hcontrol =>
      split at h
      · simp only [Option.bind_eq_bind, Option.bind_eq_some_iff, Option.pure_def, Option.some.injEq,
          Prod.mk.injEq] at h
        obtain ⟨⟨bytes, behind⟩, hescape, ⟨chars, _⟩, hchars, rfl, rfl⟩ := h
        have hfirst := weight_of_readEscape hescape
        have hrest := ih hchars
        dsimp only at hrest ⊢
        rw [List.length_append, unclean_append]
        omega
      next hbackslash =>
      · simp only [Option.bind_eq_bind, Option.bind_eq_some_iff, Option.pure_def, Option.some.injEq,
          Prod.mk.injEq] at h
        obtain ⟨⟨chars, _⟩, hchars, rfl, rfl⟩ := h
        have hrest := ih hchars
        dsimp only at hrest ⊢
        have hclean : unclean (c :: chars) = unclean chars :=
          List.countP_cons_of_neg (by simp [IsUnclean, hquote, hcontrol, hbackslash])
        rw [List.length_cons, hclean]
        omega

/-- The weight of a field in its object. -/
def fieldWeight (field : List UInt8 × Json) : ℕ :=
  field.1.length + unclean field.1 + 3 + weight field.2

theorem length_commas (text : List UInt8) (texts : List (List UInt8)) :
    (commas (text :: texts)).length + 1 = ((text :: texts).map fun t => t.length + 1).sum := by
  induction texts generalizing text with
  | nil => simp [commas]
  | cons next texts ih =>
    have hmore := ih next
    rw [commas_cons_cons, List.length_append, List.length_cons, List.map_cons, List.sum_cons,
      ← hmore]
    omega

theorem weight_array (v : Json) (vs : List Json) :
    weight (array (v :: vs)) = ((v :: vs).map fun w => weight w + 1).sum + 1 := by
  have hlength : (compact (array (v :: vs))).length =
      ((v :: vs).map fun w => (compact w).length + 1).sum + 1 := by
    have hcommas := length_commas (compact v) (vs.map compact)
    rw [compact, List.length_cons, List.length_append, List.length_singleton, List.map_cons,
      hcommas, ← List.map_cons, List.map_map]
    rfl
  have hunclean : uncleanBytes (array (v :: vs)) = ((v :: vs).map uncleanBytes).sum := by
    rw [uncleanBytes, strings, List.map_flatMap, List.flatMap_def, List.sum_flatten,
      List.map_map]
    rfl
  rw [weight, hlength, hunclean, Nat.add_right_comm, ← List.sum_map_add]
  simp only [weight, Nat.add_right_comm]

theorem weight_object (field : List UInt8 × Json) (fields : List (List UInt8 × Json)) :
    weight (object (field :: fields)) =
      ((field :: fields).map fun f => fieldWeight f + 1).sum + 1 := by
  have hlength : (compact (object (field :: fields))).length =
      ((field :: fields).map fun f => (printField f).length + 1).sum + 1 := by
    have hcommas := length_commas (printField field) (fields.map printField)
    rw [compact_object, List.length_cons, List.length_append, List.length_singleton, List.map_cons,
      hcommas, ← List.map_cons, List.map_map]
    rfl
  have hunclean : uncleanBytes (object (field :: fields)) =
      ((field :: fields).map fun f => unclean f.1 + uncleanBytes f.2).sum := by
    rw [uncleanBytes, strings, List.map_flatMap, List.flatMap_def, List.sum_flatten,
      List.map_map]
    rfl
  rw [weight, hlength, hunclean, Nat.add_right_comm, ← List.sum_map_add]
  congr 2
  refine List.map_congr_left fun f _ => ?_
  rw [printField, fieldWeight, weight]
  simp only [List.length_cons, List.length_append]
  omega

theorem weight_string (value : List UInt8) :
    weight (string value) = value.length + unclean value + 2 := by
  rw [weight, uncleanBytes, compact, strings, List.length_cons, List.length_append,
    List.length_singleton, List.map_singleton, List.sum_singleton]
  omega

theorem weight_number (text : List UInt8) : weight (number text) = text.length := by
  simp [weight, uncleanBytes, compact]

theorem weight_null : weight null = [110, 117, 108, 108].length := by
  simp [weight, uncleanBytes, compact, strings]

theorem weight_true : weight (bool true) = [116, 114, 117, 101].length := by
  simp [weight, uncleanBytes, compact]

theorem weight_false : weight (bool false) = [102, 97, 108, 115, 101].length := by
  simp [weight, uncleanBytes, compact]

theorem weight_empty_array : weight (array []) = 2 := by
  simp [weight, uncleanBytes, compact, strings, commas]

theorem weight_empty_object : weight (object []) = 2 := by
  simp [weight, uncleanBytes, compact, strings, commas]

theorem length_of_readNumber {text digits rest : List UInt8}
    (h : readNumber text = some (digits, rest)) : digits.length + rest.length = text.length := by
  unfold readNumber at h
  dsimp only at h
  split at h
  · simp only [Option.some.injEq, Prod.mk.injEq] at h
    obtain ⟨rfl, rfl⟩ := h
    rw [← List.length_append, List.takeWhile_append_dropWhile]
  · cases h

/-- No text of a value is below its weight. -/
def ValueBound (fuel : ℕ) : Prop :=
  ∀ text v rest, readValue fuel text = some (v, rest) → weight v + rest.length ≤ text.length

def ElementsBound (fuel : ℕ) : Prop :=
  ∀ text vs rest, readElements fuel text = some (vs, rest) →
    vs ≠ [] ∧ (vs.map fun v => weight v + 1).sum + rest.length ≤ text.length

def FieldsBound (fuel : ℕ) : Prop :=
  ∀ text fields rest, readFields fuel text = some (fields, rest) →
    fields ≠ [] ∧ (fields.map fun f => fieldWeight f + 1).sum + rest.length ≤ text.length

theorem length_of_head {c : UInt8} {text : List UInt8} (h : text.head? = some c) :
    text.tail.length + 1 = text.length := by
  obtain ⟨rest, rfl⟩ := List.head?_eq_some_iff.mp h
  rfl

theorem elementsBound_succ {fuel : ℕ} (hvalue : ValueBound fuel)
    (helements : ElementsBound fuel) : ElementsBound (fuel + 1) := by
  intro text vs rest h
  rw [readElements] at h
  simp only [Option.bind_eq_bind, Option.bind_eq_some_iff] at h
  obtain ⟨⟨v, behind⟩, hv, h⟩ := h
  have hfirst := hvalue _ _ _ hv
  have hblanks := length_skipBlanks_le behind
  split at h
  · next hcomma =>
    simp only [Option.bind_eq_some_iff, Option.pure_def, Option.some.injEq, Prod.mk.injEq] at h
    obtain ⟨⟨vs, _⟩, hvs, rfl, rfl⟩ := h
    have hrest := (helements _ _ _ hvs).2
    have hcommaLength := length_of_head hcomma
    have hblanks' := length_skipBlanks_le (skipBlanks behind).tail
    refine ⟨List.cons_ne_nil _ _, ?_⟩
    rw [List.map_cons, List.sum_cons]
    dsimp only at *
    omega
  · simp only [Option.bind_eq_some_iff, Option.pure_def, Option.some.injEq, Prod.mk.injEq] at h
    obtain ⟨_, hclose, rfl, rfl⟩ := h
    have hcloseLength := length_of_expect hclose
    refine ⟨List.cons_ne_nil _ _, ?_⟩
    rw [List.map_singleton, List.sum_singleton]
    dsimp only at *
    omega

theorem fieldsBound_succ {fuel : ℕ} (hvalue : ValueBound fuel)
    (hfields : FieldsBound fuel) : FieldsBound (fuel + 1) := by
  intro text fields rest h
  rw [readFields] at h
  simp only [Option.bind_eq_bind, Option.bind_eq_some_iff] at h
  obtain ⟨afterQuote, hquote, ⟨key, afterKey⟩, hkey, afterColon, hcolon, ⟨v, behind⟩, hv, h⟩ := h
  have hquoteLength := length_of_expect hquote
  have hkeyWeight := weight_of_readChars hkey
  have hcolonLength := length_of_expect hcolon
  have hkeyBlanks := length_skipBlanks_le afterKey
  have hvalueBlanks := length_skipBlanks_le afterColon
  have hfirst := hvalue _ _ _ hv
  have hblanks := length_skipBlanks_le behind
  have hfield : fieldWeight (key, v) = key.length + unclean key + 3 + weight v := rfl
  split at h
  · next hcomma =>
    simp only [Option.bind_eq_some_iff, Option.pure_def, Option.some.injEq, Prod.mk.injEq] at h
    obtain ⟨⟨fields, _⟩, hmore, rfl, rfl⟩ := h
    have hrest := (hfields _ _ _ hmore).2
    have hcommaLength := length_of_head hcomma
    have hblanks' := length_skipBlanks_le (skipBlanks behind).tail
    refine ⟨List.cons_ne_nil _ _, ?_⟩
    rw [List.map_cons, List.sum_cons]
    dsimp only at *
    omega
  · simp only [Option.bind_eq_some_iff, Option.pure_def, Option.some.injEq, Prod.mk.injEq] at h
    obtain ⟨_, hclose, rfl, rfl⟩ := h
    have hcloseLength := length_of_expect hclose
    refine ⟨List.cons_ne_nil _ _, ?_⟩
    rw [List.map_singleton, List.sum_singleton]
    dsimp only at *
    omega

theorem valueBound_succ {fuel : ℕ} (helements : ElementsBound fuel)
    (hfields : FieldsBound fuel) : ValueBound (fuel + 1) := by
  intro text v rest h
  rw [readValue] at h
  simp only [Option.bind_eq_bind, Option.pure_def] at h
  split at h
  · next hquote =>
    simp only [Option.bind_eq_some_iff, Option.some.injEq, Prod.mk.injEq] at h
    obtain ⟨⟨chars, _⟩, hchars, rfl, rfl⟩ := h
    have hbound := weight_of_readChars hchars
    have hlength := length_of_head hquote
    rw [weight_string]
    dsimp only at *
    omega
  split at h
  · next hopen =>
    have hlength := length_of_head hopen
    have hblanks := length_skipBlanks_le text.tail
    split at h
    · next hclose =>
      have hcloseLength := length_of_head hclose
      simp only [Option.some.injEq, Prod.mk.injEq] at h
      obtain ⟨rfl, rfl⟩ := h
      rw [weight_empty_array]
      omega
    · simp only [Option.bind_eq_some_iff, Option.some.injEq, Prod.mk.injEq] at h
      obtain ⟨⟨vs, _⟩, hvs, rfl, rfl⟩ := h
      obtain ⟨hne, hbound⟩ := helements _ _ _ hvs
      obtain ⟨w, ws, rfl⟩ := List.exists_cons_of_ne_nil hne
      dsimp only at *
      rw [weight_array]
      omega
  split at h
  · next hopen =>
    have hlength := length_of_head hopen
    have hblanks := length_skipBlanks_le text.tail
    split at h
    · next hclose =>
      have hcloseLength := length_of_head hclose
      simp only [Option.some.injEq, Prod.mk.injEq] at h
      obtain ⟨rfl, rfl⟩ := h
      rw [weight_empty_object]
      omega
    · simp only [Option.bind_eq_some_iff, Option.some.injEq, Prod.mk.injEq] at h
      obtain ⟨⟨fields, _⟩, hmore, rfl, rfl⟩ := h
      obtain ⟨hne, hbound⟩ := hfields _ _ _ hmore
      obtain ⟨field, more, rfl⟩ := List.exists_cons_of_ne_nil hne
      dsimp only at *
      rw [weight_object]
      omega
  have hword : ∀ (word : List UInt8) (w : Json), weight w = word.length →
      ((expectAll word text).bind fun rest => some (w, rest)) = some (v, rest) →
        weight v + rest.length ≤ text.length := by
    intro word w hw h
    simp only [Option.bind_eq_some_iff, Option.some.injEq, Prod.mk.injEq] at h
    obtain ⟨_, hread, rfl, rfl⟩ := h
    exact hw ▸ (length_of_expectAll hread).le
  split at h
  · exact hword _ _ weight_true h
  split at h
  · exact hword _ _ weight_false h
  split at h
  · exact hword _ _ weight_null h
  simp only [Option.bind_eq_some_iff, Option.some.injEq, Prod.mk.injEq] at h
  obtain ⟨⟨digits, _⟩, hread, rfl, rfl⟩ := h
  rw [weight_number]
  exact (length_of_readNumber hread).le

theorem bounds (fuel : ℕ) : ValueBound fuel ∧ ElementsBound fuel ∧ FieldsBound fuel := by
  induction fuel with
  | zero =>
    refine ⟨fun text v rest h => ?_, fun text vs rest h => ?_, fun text fields rest h => ?_⟩
    · rw [readValue] at h
      cases h
    · rw [readElements] at h
      cases h
    · rw [readFields] at h
      cases h
  | succ fuel ih =>
    obtain ⟨hvalue, helements, hfields⟩ := ih
    exact ⟨valueBound_succ helements hfields, elementsBound_succ hvalue helements,
      fieldsBound_succ hvalue hfields⟩

/-- The text that is parsed is at least as long as the weight of its value. -/
theorem weight_le_of_parse {text : List UInt8} {v : Json} (h : parse text = some v) :
    weight v ≤ text.length := by
  unfold parse at h
  simp only [Option.bind_eq_bind, Option.bind_eq_some_iff] at h
  obtain ⟨⟨w, rest⟩, hread, h⟩ := h
  have hbound := (bounds _).1 _ _ _ hread
  have hblanks := length_skipBlanks_le text
  split at h
  · rw [Option.some.injEq] at h
    subst h
    dsimp only at *
    omega
  · cases h

/-! ## UTF-8 -/

theorem isUtf8_number_append {text : List UInt8} (h : IsNumber text) (rest : List UInt8) :
    IsUtf8 (text ++ rest) ↔ IsUtf8 rest := by
  refine isUtf8_ascii_append (fun c hc => ?_) rest
  obtain ⟨-, hle⟩ | rfl | rfl | rfl | rfl | rfl := isNumeral_of_isNumber h c hc
  · exact UInt8.lt_of_le_of_lt hle (by decide)
  all_goals decide

theorem isUtf8_commas {α : Type*} {items : List α} {print : α → List UInt8} {P : α → Prop}
    (h : ∀ a ∈ items, ∀ rest, IsUtf8 (print a ++ rest) ↔ P a ∧ IsUtf8 rest) (rest : List UInt8) :
    IsUtf8 (commas (items.map print) ++ rest) ↔ (∀ a ∈ items, P a) ∧ IsUtf8 rest := by
  induction items with
  | nil => simp [commas]
  | cons a items ih =>
    cases items with
    | nil =>
      have htext : commas ([a].map print) = print a := List.append_nil _
      rw [htext, h a List.mem_cons_self, List.forall_mem_singleton]
    | cons b items =>
      have htext : commas ((a :: b :: items).map print) =
          print a ++ 44 :: commas ((b :: items).map print) := commas_cons_cons _ _ _
      rw [htext, List.append_assoc, h a List.mem_cons_self, List.cons_append,
        isUtf8_cons (by decide), ih fun c hc => h c (List.mem_cons_of_mem _ hc)]
      simp only [List.forall_mem_cons, and_assoc]

/-- The text of a value is UTF-8 if its strings are. -/
theorem isUtf8_compact {v : Json} (hnumbers : ∀ t ∈ numbers v, IsNumber t) (rest : List UInt8) :
    IsUtf8 (compact v ++ rest) ↔ (∀ s ∈ strings v, IsUtf8 s) ∧ IsUtf8 rest := by
  induction v using Json.induction generalizing rest with
  | null =>
    have hnull : ∀ c ∈ ([110, 117, 108, 108] : List UInt8), c < 128 := by decide +kernel
    simpa [compact, strings] using isUtf8_ascii_append hnull rest
  | bool b =>
    have htrue : ∀ c ∈ ([116, 114, 117, 101] : List UInt8), c < 128 := by decide +kernel
    have hfalse : ∀ c ∈ ([102, 97, 108, 115, 101] : List UInt8), c < 128 := by decide +kernel
    cases b
    · simpa [compact, strings] using isUtf8_ascii_append hfalse rest
    · simpa [compact, strings] using isUtf8_ascii_append htrue rest
  | number text =>
    rw [numbers, List.forall_mem_singleton] at hnumbers
    simp [compact, isUtf8_number_append hnumbers]
  | string value =>
    rw [compact, strings, List.cons_append, isUtf8_cons (by decide), List.append_assoc,
      List.singleton_append, isUtf8_append_cons (by decide), List.forall_mem_singleton]
  | array elements ih =>
    rw [numbers, List.forall_mem_flatMap] at hnumbers
    rw [compact, strings, List.cons_append, isUtf8_cons (by decide), List.append_assoc,
      isUtf8_commas (fun v hv => ih v hv (hnumbers v hv)), List.singleton_append,
      isUtf8_cons (by decide), List.forall_mem_flatMap]
  | object fields ih =>
    rw [numbers, List.forall_mem_flatMap] at hnumbers
    have hfield : ∀ f ∈ fields, ∀ rest, IsUtf8 (printField f ++ rest) ↔
        (∀ s ∈ f.1 :: strings f.2, IsUtf8 s) ∧ IsUtf8 rest := by
      intro f hf rest
      rw [printField, List.cons_append, isUtf8_cons (by decide), List.append_assoc,
        List.cons_append, isUtf8_append_cons (by decide), List.cons_append,
        isUtf8_cons (by decide), ih f hf (hnumbers f hf), List.forall_mem_cons, and_assoc]
    rw [compact_object, strings, List.cons_append, isUtf8_cons (by decide), List.append_assoc,
      isUtf8_commas hfield, List.singleton_append, isUtf8_cons (by decide),
      List.forall_mem_flatMap]

/-! ## Decoding -/

/-- A text of an object that has under every key what these fields have. -/
def DecodesTo (text : List UInt8) (fields : List (List UInt8 × Json)) : Prop :=
  ∃ decoded, Denotes text (object decoded) ∧
    ∀ key, (object decoded).atKey key = (object fields).atKey key

theorem atKey_of_mem {fields : List (List UInt8 × Json)} (hkeys : (fields.map Prod.fst).Nodup)
    {field : List UInt8 × Json} (h : field ∈ fields) :
    (object fields).atKey field.1 = some field.2 := by
  rw [atKey]
  induction fields with
  | nil => cases h
  | cons first fields ih =>
    rw [List.map_cons, List.nodup_cons] at hkeys
    obtain rfl | h := List.mem_cons.mp h
    · rw [List.find?_cons_of_pos (by simp)]
      rfl
    · have hother : first.1 ≠ field.1 := fun heq =>
        hkeys.1 (heq ▸ List.mem_map_of_mem h)
      rw [List.find?_cons_of_neg (by simpa using hother)]
      exact ih hkeys.2 h

theorem mem_of_atKey {fields : List (List UInt8 × Json)} {key : List UInt8} {v : Json}
    (h : (object fields).atKey key = some v) : (key, v) ∈ fields := by
  rw [atKey, Option.map_eq_some_iff] at h
  obtain ⟨⟨key', v'⟩, hfind, rfl⟩ := h
  have hkey : key' = key := by simpa using List.find?_some hfind
  exact hkey ▸ List.mem_of_find?_eq_some hfind

/-- An object that has all fields of another one is not lighter. -/
theorem weight_le_of_subset {fields decoded : List (List UInt8 × Json)} (hne : fields ≠ [])
    (hkeys : (fields.map Prod.fst).Nodup) (hsub : fields ⊆ decoded) :
    weight (object fields) ≤ weight (object decoded) := by
  obtain ⟨field, more, rfl⟩ := List.exists_cons_of_ne_nil hne
  obtain ⟨first, rest, rfl⟩ : ∃ first rest, decoded = first :: rest :=
    List.exists_cons_of_ne_nil (List.ne_nil_of_mem (hsub List.mem_cons_self))
  obtain ⟨part, hperm, hpart⟩ := List.subperm_of_subset hkeys.of_map hsub
  have hsum := (hpart.map fun f => fieldWeight f + 1).sum_le_sum fun _ _ => Nat.zero_le _
  rw [(hperm.map _).sum_eq] at hsum
  rw [weight_object, weight_object]
  omega

/-- A text without escapes decodes to its fields if and only if no string of them needs one and
all are UTF-8. -/
theorem decodesTo_compact_iff {fields : List (List UInt8 × Json)} (hne : fields ≠ [])
    (hkeys : (fields.map Prod.fst).Nodup) (hnumbers : ∀ t ∈ numbers (object fields), IsNumber t) :
    DecodesTo (compact (object fields)) fields ↔
      ∀ s ∈ strings (object fields), IsClean s ∧ IsUtf8 s := by
  have hutf8 := isUtf8_compact hnumbers []
  rw [List.append_nil, and_iff_left isUtf8_nil] at hutf8
  constructor
  · rintro ⟨decoded, ⟨htext, hparse⟩, hsame⟩
    have hsub : fields ⊆ decoded := fun field hfield =>
      mem_of_atKey ((hsame field.1).trans (atKey_of_mem hkeys hfield))
    have hweight := (weight_le_of_subset hne hkeys hsub).trans (weight_le_of_parse hparse)
    have hnone : uncleanBytes (object fields) = 0 := by
      rw [weight] at hweight
      omega
    intro s hs
    have hzero := List.sum_eq_zero_iff.mp hnone (unclean s) (List.mem_map_of_mem hs)
    exact ⟨unclean_eq_zero_iff.mp hzero, hutf8.mp htext s hs⟩
  · intro h
    exact ⟨fields, ⟨hutf8.mpr fun s hs => (h s hs).2,
      parse_compact (fun s hs => (h s hs).1) hnumbers⟩, fun _ => rfl⟩

end OrderbookEngine.Json
