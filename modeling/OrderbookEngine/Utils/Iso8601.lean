import OrderbookEngine.Core.Types
import OrderbookEngine.Library.Calendar
import OrderbookEngine.Library.Decimal

/-!
# ISO 8601 timestamps

A timestamp is printed in UTC and read with `mktime`, as a standard time of the process's time
zone. So what is read back is earlier by the time that the zone is ahead of UTC.
-/

namespace OrderbookEngine.TimeUtils

open Calendar Decimal

/-- The fields of a `std::tm` that the conversions set or read; all are zero at first. -/
structure Tm where
  sec : ℤ := 0
  min : ℤ := 0
  hour : ℤ := 0
  mday : ℤ := 0
  mon : ℤ := 0
  year : ℤ := 0
  isdst : ℤ := 0
  deriving DecidableEq

/-- A time zone: the seconds that a local time, marked as daylight saving time or not, is ahead
of UTC, which is less than a week. A local time is given by the seconds since 1970 that it would
stand for in UTC. -/
structure Zone where
  offset : ℤ → ℤ → ℤ
  bounded : ∀ isdst time, |offset isdst time| ≤ 604800

/-- The seconds since 1970 that a `std::tm` stands for in UTC. -/
def utcSeconds (tm : Tm) : ℤ :=
  let year := tm.year + 1900 + tm.mon / 12
  let days := daysBeforeYear year + daysBeforeMonth year (tm.mon % 12).toNat + (tm.mday - 1)
  (days - daysBeforeYear 1970) * 86400 + tm.hour * 3600 + tm.min * 60 + tm.sec

/-- `mktime`. -/
def mktime (zone : Zone) (tm : Tm) : ℤ :=
  utcSeconds tm - zone.offset tm.isdst (utcSeconds tm)

/-- `gmtime`. -/
def gmtime (time : ℕ) : Tm :=
  let date := dateFrom 1970 (time / 86400)
  { sec := (time % 60 : ℕ)
    min := (time % 3600 / 60 : ℕ)
    hour := (time % 86400 / 3600 : ℕ)
    mday := date.day + 1
    mon := date.month
    year := date.year - 1900
    isdst := 0 }

/-- A conversion specifier for a field: the digits it prints at least and reads at most, the
values it reads, and the field. -/
structure Specifier where
  pad : ℕ
  width : ℕ
  least : ℕ
  most : ℕ
  get : Tm → ℤ
  set : ℕ → Tm → Tm

/-- A part of a format. -/
inductive Item where
  | char (c : UInt8)
  | field (specifier : Specifier)

/-- `%Y-%m-%dT%H:%M:%S`. -/
def iso8601 : List Item :=
  [.field ⟨1, 4, 0, 9999, fun tm => tm.year + 1900, fun v tm => { tm with year := v - 1900 }⟩,
    .char 45,
    .field ⟨2, 2, 1, 12, fun tm => tm.mon + 1, fun v tm => { tm with mon := v - 1 }⟩,
    .char 45,
    .field ⟨2, 2, 1, 31, fun tm => tm.mday, fun v tm => { tm with mday := v }⟩,
    .char 84,
    .field ⟨2, 2, 0, 23, fun tm => tm.hour, fun v tm => { tm with hour := v }⟩,
    .char 58,
    .field ⟨2, 2, 0, 59, fun tm => tm.min, fun v tm => { tm with min := v }⟩,
    .char 58,
    .field ⟨2, 2, 0, 60, fun tm => tm.sec, fun v tm => { tm with sec := v }⟩]

/-- `std::put_time`. -/
def putTime (items : List Item) (tm : Tm) : StdString :=
  items.flatMap fun
    | .char c => [c]
    | .field s => padded s.pad (s.get tm).toNat

/-- `std::toupper`. -/
def toUpper (c : UInt8) : UInt8 := if 97 ≤ c ∧ c ≤ 122 then c - 32 else c

/-- The number at the front of a text, if it has one that the specifier takes. -/
def readNumber (s : Specifier) (text : StdString) : Option (ℕ × StdString) :=
  let number := (text.take s.width).takeWhile (IsDigit ·)
  if number ≠ [] ∧ s.least ≤ value number ∧ value number ≤ s.most then
    some (value number, text.drop number.length)
  else none

/-- `std::get_time`: the fields that are read, and the text behind them unless it fails. -/
def getTime : List Item → Tm → StdString → Tm × Option StdString
  | [], tm, text => (tm, some text)
  | .char _ :: _, tm, [] => (tm, none)
  | .char c :: items, tm, d :: text =>
    if toUpper c = toUpper d then getTime items tm text else (tm, none)
  | .field s :: items, tm, text =>
    match readNumber s text with
    | some (v, rest) => getTime items (s.set v tm) rest
    | none => (tm, none)

/-- `std::isspace`. -/
def IsSpace (c : UInt8) : Prop := c = 32 ∨ 9 ≤ c ∧ c ≤ 13

instance : DecidablePred IsSpace := fun c => inferInstanceAs (Decidable (c = 32 ∨ 9 ≤ c ∧ c ≤ 13))

/-- The digits of a fraction, padded or trimmed to nine. -/
def nineDigits (fraction : StdString) : StdString :=
  if fraction.length < 9 then fraction ++ List.replicate (9 - fraction.length) 48
  else fraction.take 9

/-- `parse_iso8601_to_nanos`. -/
def parseIso8601ToNanos (zone : Zone) (isoTimestamp : StdString) : UInt64 :=
  let (tm, rest) := getTime iso8601 {} (isoTimestamp.dropWhile (IsSpace ·))
  let nanos := UInt64.ofInt (mktime zone tm) * 1000000000
  match rest with
  | some (c :: behind) =>
    if c = 46 then nanos + UInt64.ofNat (value (nineDigits (behind.takeWhile (IsDigit ·))))
    else nanos
  | _ => nanos

/-- `nanos_to_iso8601`. -/
def nanosToIso8601 (nanos : UInt64) : StdString :=
  let seconds := nanos / 1000000000
  let nanoRemainder := nanos % 1000000000
  putTime iso8601 (gmtime seconds.toNat) ++ lit "." ++ padded 9 nanoRemainder.toNat ++ lit "Z"

/-! ## The calendar -/

theorem isdst_gmtime (time : ℕ) : (gmtime time).isdst = 0 := rfl

/-- `gmtime` is undone in UTC. -/
theorem utcSeconds_gmtime (time : ℕ) : utcSeconds (gmtime time) = time := by
  have hdays := daysBefore_dateFrom 1970 (time / 86400)
  have hmonth := (dateFrom_lt 1970 (time / 86400)).1
  have hyear : (gmtime time).year + 1900 + (gmtime time).mon / 12 =
      (dateFrom 1970 (time / 86400)).year := by
    simp only [gmtime]
    omega
  have hmon : ((gmtime time).mon % 12).toNat = (dateFrom 1970 (time / 86400)).month := by
    simp only [gmtime]
    omega
  unfold Date.daysBefore at hdays
  simp only [utcSeconds, hyear, hmon]
  simp only [gmtime]
  push_cast at hdays ⊢
  omega

/-! ## Printing and reading fields -/

/-- A value that the specifier prints and reads. -/
structure Specifier.Fits (s : Specifier) (tm : Tm) : Prop where
  least : s.least ≤ (s.get tm).toNat
  most : (s.get tm).toNat ≤ s.most
  pad : s.pad ≤ s.width
  width : 0 < s.width
  digits : s.most < 10 ^ s.width

/-- A character that is no digit stands behind each field but the last. -/
def Separated : List Item → Prop
  | [] => True
  | .char _ :: items => Separated items
  | [.field _] => True
  | .field _ :: .char c :: items => ¬ IsDigit c ∧ Separated items
  | .field _ :: .field _ :: _ => False

/-- The fields that a format reads, taken from another `std::tm`. -/
def copyFields (source : Tm) (tm : Tm) : List Item → Tm
  | [] => tm
  | .char _ :: items => copyFields source tm items
  | .field s :: items => copyFields source (s.set (s.get source).toNat tm) items

/-- A number is read up to what is no digit. -/
theorem readNumber_padded {s : Specifier} {tm : Tm} (h : s.Fits tm) {rest : StdString}
    (hrest : ∀ c ∈ rest.head?, ¬ IsDigit c) :
    readNumber s (padded s.pad (s.get tm).toNat ++ rest) = some ((s.get tm).toNat, rest) := by
  have hlen := length_padded_le h.pad h.width (h.most.trans_lt h.digits)
  have hdigits : ∀ c ∈ padded s.pad (s.get tm).toNat, (decide (IsDigit c)) = true :=
    fun c hc => decide_eq_true (isDigit_of_mem_padded _ _ c hc)
  have hstop : (rest.take (s.width - (padded s.pad (s.get tm).toNat).length)).takeWhile
      (IsDigit ·) = [] := by
    cases rest with
    | nil => simp
    | cons c rest =>
      cases hk : s.width - (padded s.pad (s.get tm).toNat).length with
      | zero => rfl
      | succ k =>
        rw [List.take_succ_cons, List.takeWhile_cons_of_neg]
        simpa using hrest c rfl
  have hnumber : ((padded s.pad (s.get tm).toNat ++ rest).take s.width).takeWhile (IsDigit ·) =
      padded s.pad (s.get tm).toNat := by
    rw [List.take_append, List.take_of_length_le hlen, List.takeWhile_append_of_pos hdigits, hstop,
      List.append_nil]
  simp only [readNumber, hnumber, value_padded]
  rw [if_pos ⟨padded_ne_nil _ _, h.least, h.most⟩, List.drop_left]

theorem getTime_field {s : Specifier} {source : Tm} (h : s.Fits source) {rest : StdString}
    (hrest : ∀ c ∈ rest.head?, ¬ IsDigit c) (items : List Item) (tm : Tm) :
    getTime (.field s :: items) tm (padded s.pad (s.get source).toNat ++ rest) =
      getTime items (s.set (s.get source).toNat tm) rest := by
  rw [getTime, readNumber_padded h hrest]

theorem getTime_char (c : UInt8) (items : List Item) (tm : Tm) (text : StdString) :
    getTime (.char c :: items) tm (c :: text) = getTime items tm text := by
  rw [getTime, if_pos rfl]

/-- Fields that fit are read back. -/
theorem getTime_putTime {items : List Item} (hsep : Separated items) {source : Tm}
    (hfits : ∀ s, .field s ∈ items → s.Fits source) {rest : StdString}
    (hrest : ∀ c ∈ rest.head?, ¬ IsDigit c) (tm : Tm) :
    getTime items tm (putTime items source ++ rest) = (copyFields source tm items, some rest) := by
  induction items using Separated.induct generalizing tm with
  | case1 => rfl
  | case2 c items ih =>
    have htail := ih hsep (fun s hs => hfits s (List.mem_cons_of_mem _ hs)) tm
    exact (getTime_char c items tm _).trans htail
  | case3 s =>
    have hprint : putTime [.field s] source = padded s.pad (s.get source).toNat :=
      List.append_nil _
    rw [hprint, getTime_field (hfits s List.mem_cons_self) hrest]
    rfl
  | case4 s c items ih =>
    have htail := ih hsep.2
      (fun t ht => hfits t (List.mem_cons_of_mem _ (List.mem_cons_of_mem _ ht)))
      (s.set (s.get source).toNat tm)
    have hprint : putTime (.field s :: .char c :: items) source ++ rest =
        padded s.pad (s.get source).toNat ++ c :: (putTime items source ++ rest) :=
      List.append_assoc _ _ _
    rw [hprint, getTime_field (hfits s List.mem_cons_self), getTime_char]
    · exact htail
    · intro d hd
      cases hd
      exact hsep.1
  | case5 s t items => exact hsep.elim

/-! ## Reading a timestamp back -/

/-- The seconds of a 64-bit timestamp are in a year of four digits. -/
theorem fits_gmtime {time : ℕ} (h : time < 18446744074) :
    ∀ s, .field s ∈ iso8601 → s.Fits (gmtime time) := by
  have hdate := dateFrom_lt 1970 (time / 86400)
  have hyear := year_dateFrom 1970 (time / 86400)
  intro s hs
  simp only [iso8601, List.mem_cons, Item.field.injEq, reduceCtorEq, false_or, List.not_mem_nil,
    or_false] at hs
  rcases hs with rfl | rfl | rfl | rfl | rfl | rfl <;>
    exact ⟨by simp only [gmtime]; omega, by simp only [gmtime]; omega, by decide, by decide,
      by decide⟩

/-- All fields are copied. -/
theorem copyFields_gmtime (time : ℕ) : copyFields (gmtime time) {} iso8601 = gmtime time := by
  have hyear := (year_dateFrom 1970 (time / 86400)).1
  simp only [copyFields, iso8601, gmtime, Tm.mk.injEq]
  refine ⟨?_, ?_, ?_, ?_, ?_, ?_, trivial⟩ <;> omega

/-- A text in front of which there is no white space. -/
theorem dropWhile_isSpace {text : StdString} (hne : text ≠ []) (hdigits : ∀ c ∈ text, IsDigit c)
    (rest : StdString) : (text ++ rest).dropWhile (IsSpace ·) = text ++ rest := by
  obtain ⟨c, text, rfl⟩ := List.exists_cons_of_ne_nil hne
  have hspace : ¬ IsSpace c := by
    have hc := hdigits c List.mem_cons_self
    unfold IsDigit at hc
    unfold IsSpace
    rintro (rfl | hlow)
    · exact absurd hc.1 (by decide)
    · exact absurd (UInt8.le_trans hc.1 hlow.2) (by decide)
  rw [List.cons_append, List.dropWhile_cons_of_neg (by simpa using hspace)]

/-- A timestamp without its fraction is read back. -/
theorem getTime_gmtime {time : ℕ} (h : time < 18446744074) {rest : StdString}
    (hrest : ∀ c ∈ rest.head?, ¬ IsDigit c) :
    getTime iso8601 {} ((putTime iso8601 (gmtime time) ++ rest).dropWhile (IsSpace ·)) =
      (gmtime time, some rest) := by
  have hsep : Separated iso8601 := ⟨by decide, by decide, by decide, by decide, by decide, trivial⟩
  have hspace : (putTime iso8601 (gmtime time) ++ rest).dropWhile (IsSpace ·) =
      putTime iso8601 (gmtime time) ++ rest := by
    rw [iso8601, putTime, List.flatMap_cons, List.append_assoc]
    exact dropWhile_isSpace (padded_ne_nil _ _) (isDigit_of_mem_padded _ _) _
  rw [hspace, getTime_putTime hsep (fits_gmtime h) hrest, copyFields_gmtime]

/-- A fraction of nine digits is taken as it is. -/
theorem value_fraction {rem : ℕ} (h : rem < 10 ^ 9) :
    value (nineDigits ((padded 9 rem ++ lit "Z").takeWhile (IsDigit ·))) = rem := by
  have hdigits : ∀ c ∈ padded 9 rem, decide (IsDigit c) = true :=
    fun c hc => decide_eq_true (isDigit_of_mem_padded _ _ c hc)
  have hlen := length_padded (by decide) h
  rw [List.takeWhile_append_of_pos hdigits, show (lit "Z").takeWhile (IsDigit ·) = [] by decide,
    List.append_nil, nineDigits, if_neg (by omega), List.take_of_length_le hlen.le, value_padded]

/-- A timestamp is read back less the time that its zone is ahead of UTC. -/
theorem parseIso8601ToNanos_nanosToIso8601 (zone : Zone) (nanos : UInt64) :
    parseIso8601ToNanos zone (nanosToIso8601 nanos) =
      UInt64.ofInt ((nanos.toNat / 1000000000 : ℕ) -
        zone.offset 0 (nanos.toNat / 1000000000 : ℕ)) * 1000000000 + nanos % 1000000000 := by
  have hlt := nanos.toNat_lt
  have hseconds : (nanos / 1000000000).toNat = nanos.toNat / 1000000000 := UInt64.toNat_div _ _
  have hrem : (nanos % 1000000000).toNat < 10 ^ 9 := by
    rw [UInt64.toNat_mod]
    exact Nat.mod_lt _ (by decide)
  have hpoint : ∀ c ∈ (46 :: (padded 9 (nanos % 1000000000).toNat ++ lit "Z")).head?,
      ¬ IsDigit c := by
    rintro c ⟨⟩
    decide
  have htext : nanosToIso8601 nanos = putTime iso8601 (gmtime (nanos.toNat / 1000000000)) ++
      46 :: (padded 9 (nanos % 1000000000).toNat ++ lit "Z") := by
    rw [nanosToIso8601, hseconds, List.append_assoc, List.append_assoc]
    rfl
  rw [parseIso8601ToNanos, htext, getTime_gmtime (by omega) hpoint]
  dsimp only
  rw [if_pos rfl, value_fraction hrem, UInt64.ofNat_toNat, mktime, utcSeconds_gmtime, isdst_gmtime]

/-- `static_cast` of a signed number. -/
theorem toNat_ofInt (x : ℤ) : (UInt64.ofInt x).toNat = (x % 2 ^ 64).toNat := by
  have hlt : (x % 2 ^ 64).toNat < 2 ^ 64 := by omega
  exact UInt64.toNat_ofNat_of_lt' hlt

/-- Seconds times nanoseconds, in 64 bits. -/
theorem toNat_ofInt_mul_add (x : ℤ) (rem : ℕ) :
    (((x % 18446744073709551616).toNat * 1000000000 % 18446744073709551616 + rem) %
        18446744073709551616 : ℕ) = (x * 1000000000 + rem) % 18446744073709551616 := by
  have hmul : (x % 18446744073709551616 * 1000000000 + rem) % 18446744073709551616 =
      (x * 1000000000 + rem) % 18446744073709551616 := by
    rw [← Int.emod_add_emod, Int.mul_emod, Int.emod_emod, ← Int.mul_emod, Int.emod_add_emod]
  push_cast
  rw [Int.toNat_of_nonneg (Int.emod_nonneg _ (by decide)), Int.emod_add_emod, hmul]

/-- A shift by less than the modulus is seen. -/
theorem sub_emod_eq_self_iff {n k modulus : ℤ} (hnonneg : 0 ≤ n) (hlt : n < modulus)
    (hk : |k| < modulus) : (n - k) % modulus = n ↔ k = 0 := by
  constructor
  · intro h
    have hdvd : modulus ∣ n - k - n := Int.dvd_self_sub_of_emod_eq h
    rw [sub_sub_cancel_left, Int.dvd_neg] at hdvd
    exact Int.eq_zero_of_abs_lt_dvd hdvd hk
  · rintro rfl
    rw [sub_zero, Int.emod_eq_of_lt hnonneg hlt]

/-- A timestamp is read back exactly when standard time is UTC at that time. -/
theorem roundTrips_iff_offset_eq_zero (zone : Zone) (nanos : UInt64) :
    parseIso8601ToNanos zone (nanosToIso8601 nanos) = nanos ↔
      zone.offset 0 (nanos.toNat / 1000000000 : ℕ) = 0 := by
  have hbound := abs_le.mp (zone.bounded 0 (nanos.toNat / 1000000000 : ℕ))
  have hlt := nanos.toNat_lt
  rw [parseIso8601ToNanos_nanosToIso8601, ← UInt64.toNat_inj, UInt64.toNat_add, UInt64.toNat_mul,
    UInt64.toNat_mod, toNat_ofInt, show (1000000000 : UInt64).toNat = 1000000000 from rfl,
    show (2 : ℤ) ^ 64 = 18446744073709551616 by norm_num,
    show (2 : ℕ) ^ 64 = 18446744073709551616 by norm_num, ← Int.ofNat_inj, toNat_ofInt_mul_add]
  generalize zone.offset 0 (nanos.toNat / 1000000000 : ℕ) = ahead at hbound ⊢
  generalize nanos.toNat = n at hlt ⊢
  have hsum : ((n / 1000000000 : ℕ) - ahead) * 1000000000 + (n % 1000000000 : ℕ) =
      n - ahead * 1000000000 := by omega
  have hsmall : |ahead * 1000000000| < 18446744073709551616 := abs_lt.mpr ⟨by omega, by omega⟩
  rw [hsum, sub_emod_eq_self_iff (Int.natCast_nonneg n) (by omega) hsmall]
  omega

/-- Central European standard time, also in summer. -/
def centralEurope : Zone where
  offset _ _ := 3600
  bounded _ _ := by decide

/-- The first second of 1970 is read as the last hour of 1969. -/
theorem timestampsRoundTrip_fails : ¬ ∀ (zone : Zone) (nanos : UInt64),
    parseIso8601ToNanos zone (nanosToIso8601 nanos) = nanos := by
  intro h
  have hread := h centralEurope 0
  rw [parseIso8601ToNanos_nanosToIso8601] at hread
  revert hread
  decide

end OrderbookEngine.TimeUtils
