import Mathlib.Data.List.TakeWhile
import OrderbookEngine.Library.Decimal
import OrderbookEngine.Library.Loop
import OrderbookEngine.Library.TextSearch

/-!
# Isolated cores

The list of isolated cores is read from the kernel command line with `std::stoi`. So flag words
in front of the list, and numbers that no `int` holds, end in an exception that nobody catches;
a range whose last number is `-1` never ends.
-/

namespace OrderbookEngine.CPUAffinity

open Decimal TextSearch

/-- The exceptions of `std::stoi`. -/
inductive StoiError where
  | invalidArgument
  | outOfRange
  deriving DecidableEq

/-- `isspace` of the "C" locale. -/
def IsSpace (c : UInt8) : Prop := 9 ≤ c ∧ c ≤ 13 ∨ c = 32

instance : DecidablePred IsSpace := fun c => inferInstanceAs (Decidable (9 ≤ c ∧ c ≤ 13 ∨ c = 32))

/-- `std::stoi`: blanks, a sign and digits, and behind them anything. -/
def stoi (text : List UInt8) : Except StoiError ℤ :=
  let number := text.dropWhile fun c => IsSpace c
  let signed := number.head? = some 43 ∨ number.head? = some 45
  let digits := (if signed then number.tail else number).takeWhile fun c => IsDigit c
  let n : ℤ := if number.head? = some 45 then -(value digits) else value digits
  if digits = [] then .error .invalidArgument
  else if -2 ^ 31 ≤ n ∧ n < 2 ^ 31 then .ok n
  else .error .outOfRange

/-- The conversion of an `int` to a `uint32_t`. -/
def toUInt32 (n : ℤ) : UInt32 := UInt32.ofNat (n % 2 ^ 32).toNat

/-- The texts that `std::getline` gives in turn: the text behind the last separator only if it
is not empty. -/
def getlines (separator : UInt8) (text : List UInt8) : List (List UInt8) :=
  let parts := text.splitOn separator
  if parts.getLast? = some [] then parts.dropLast else parts

/-- `isolcpus=` -/
def isolcpus : List UInt8 := [105, 115, 111, 108, 99, 112, 117, 115, 61]

/-- The text behind the first `isolcpus=` of a line, up to the next space. -/
def isolcpusValue (line : List UInt8) : List UInt8 :=
  match find isolcpus line 0 with
  | none => []
  | some pos => (line.drop (pos + 9)).takeWhile (· ≠ 32)

/-- A round of the loop over the cores of a range. -/
def rangeStep (endCore : UInt32) : UInt32 × List UInt32 → (UInt32 × List UInt32) ⊕ List UInt32
  | (i, isolated) => if i ≤ endCore then .inl (i + 1, isolated ++ [i]) else .inr isolated

/-- The body of the loop over the tokens. -/
def pushToken (fuel : ℕ) (isolated : List UInt32) (token : List UInt8) :
    Option (Except StoiError (List UInt32)) :=
  match find [45] token 0 with
  | some dash =>
    match stoi (token.take dash) with
    | .error e => some (.error e)
    | .ok start =>
      match stoi (token.drop (dash + 1)) with
      | .error e => some (.error e)
      | .ok endCore =>
        (Loop.loop (rangeStep (toUInt32 endCore)) fuel (toUInt32 start, isolated)).map .ok
  | none =>
    match stoi token with
    | .error e => some (.error e)
    | .ok core => some (.ok (isolated ++ [toUInt32 core]))

/-- The loop over the tokens, with fuel for each range. -/
def pushTokens (fuel : ℕ) : List UInt32 → List (List UInt8) →
    Option (Except StoiError (List UInt32))
  | isolated, [] => some (.ok isolated)
  | isolated, token :: tokens =>
    match pushToken fuel isolated token with
    | some (.ok isolated) => pushTokens fuel isolated tokens
    | outcome => outcome

/-- The line that is read from the file. -/
def commandLine (contents : List UInt8) : List UInt8 := contents.takeWhile (· ≠ 10)

/-- `parse_isolcpus`, for the contents of `/proc/cmdline` if it can be opened. -/
def parseIsolcpus (fuel : ℕ) : Option (List UInt8) → Option (Except StoiError (List UInt32))
  | none => some (.ok [])
  | some contents => pushTokens fuel [] (getlines 44 (isolcpusValue (commandLine contents)))

/-! ## What the kernel documents -/

/-- A number as it stands in a list of cores. -/
structure Numeral where
  text : List UInt8
  ne_nil : text ≠ []
  isDigit : ∀ c ∈ text, IsDigit c

/-- An item of a list of cores. -/
inductive Item where
  | core (n : Numeral)
  | range (first last : Numeral) (h : value first.text ≤ value last.text)

def Item.text : Item → List UInt8
  | .core n => n.text
  | .range first last _ => first.text ++ 45 :: last.text

def Item.cores : Item → List ℕ
  | .core n => [value n.text]
  | .range first last _ =>
    List.range' (value first.text) (value last.text + 1 - value first.text)

/-- A byte of a flag word: a letter or `_`. -/
def IsFlagByte (c : UInt8) : Prop := 65 ≤ c ∧ c ≤ 90 ∨ c = 95 ∨ 97 ≤ c ∧ c ≤ 122

/-- A flag word such as `nohz`, `domain` or `managed_irq`. -/
def IsFlag (word : List UInt8) : Prop := word ≠ [] ∧ ∀ c ∈ word, IsFlagByte c

/-- A value of the parameter, with the cores it lists: flag words, and then items. -/
def Denotes (text : List UInt8) (cores : List ℕ) : Prop :=
  ∃ (flags : List (List UInt8)) (items : List Item),
    (∀ flag ∈ flags, IsFlag flag) ∧ items ≠ [] ∧
      text = [44].intercalate (flags ++ items.map Item.text) ∧ cores = items.flatMap Item.cores

/-- One word of the line starts with `isolcpus=`, and behind it stands the text. -/
def HasParameter (line text : List UInt8) : Prop :=
  (line.splitOn 32).filter (fun word => isolcpus.isPrefixOf word) = [isolcpus ++ text]

/-- `parse_isolcpus` returns, lets no exception escape, and returns the cores that the
parameter lists. -/
structure ParsesIsolcpus (contents : List UInt8) : Prop where
  terminates : ∃ fuel, parseIsolcpus fuel (some contents) ≠ none
  noThrow : ∀ fuel e, parseIsolcpus fuel (some contents) ≠ some (.error e)
  listsCores : ∀ fuel isolated, parseIsolcpus fuel (some contents) = some (.ok isolated) →
    ∀ text cores, HasParameter (commandLine contents) text → Denotes text cores →
      isolated.map UInt32.toNat = cores

/-! ## What the code reads -/

/-- A text that starts with a number that an `int` holds. -/
def IsInt (text : List UInt8) : Prop := ∃ n, stoi text = .ok n

/-- The text in front of the first dash. -/
def beforeDash (token : List UInt8) : List UInt8 := token.takeWhile (· ≠ 45)

/-- The text behind the first dash. -/
def afterDash (token : List UInt8) : List UInt8 := token.drop ((beforeDash token).length + 1)

/-- A token without a dash is a number; one with a dash has numbers on both sides of its first
dash, the latter not `-1`. -/
def IsItem (token : List UInt8) : Prop :=
  if 45 ∈ token then
    IsInt (beforeDash token) ∧ IsInt (afterDash token) ∧ stoi (afterDash token) ≠ .ok (-1)
  else IsInt token

/-- The cores of a range, as 32-bit numbers. -/
def span (first last : UInt32) : List UInt32 :=
  (List.range' first.toNat (last.toNat + 1 - first.toNat)).map UInt32.ofNat

/-- The cores that a token lists. -/
inductive Lists (token : List UInt8) : List UInt32 → Prop
  | core {n : ℤ} (hdash : 45 ∉ token) (hn : stoi token = .ok n) : Lists token [toUInt32 n]
  | range {first last : ℤ} (hdash : 45 ∈ token) (hfirst : stoi (beforeDash token) = .ok first)
      (hlast : stoi (afterDash token) = .ok last) (hends : last ≠ -1) :
      Lists token (span (toUInt32 first) (toUInt32 last))

theorem isItem_iff {token : List UInt8} : IsItem token ↔ ∃ cores, Lists token cores := by
  by_cases hdash : 45 ∈ token
  · rw [IsItem, if_pos hdash]
    constructor
    · rintro ⟨⟨first, hfirst⟩, ⟨last, hlast⟩, hends⟩
      refine ⟨_, .range hdash hfirst hlast fun h => hends ?_⟩
      rw [hlast, h]
    · rintro ⟨_, hlists⟩
      cases hlists with
      | core hno _ => exact absurd hdash hno
      | range _ hfirst hlast hends =>
        refine ⟨⟨_, hfirst⟩, ⟨_, hlast⟩, fun h => hends ?_⟩
        rw [hlast, Except.ok.injEq] at h
        exact h
  · rw [IsItem, if_neg hdash]
    constructor
    · exact fun ⟨n, hn⟩ => ⟨_, .core hdash hn⟩
    · rintro ⟨_, hlists⟩
      cases hlists with
      | core _ hn => exact ⟨_, hn⟩
      | range hyes _ _ _ => exact absurd hyes hdash

theorem stoi_bounds {text : List UInt8} {n : ℤ} (h : stoi text = .ok n) :
    -2 ^ 31 ≤ n ∧ n < 2 ^ 31 := by
  unfold stoi at h
  extract_lets number signed digits m at h
  split_ifs at h with hnil hint
  rw [Except.ok.injEq] at h
  exact h ▸ hint

theorem toNat_toUInt32 (n : ℤ) : (toUInt32 n).toNat = (n % 2 ^ 32).toNat := by
  have hlt : (n % 2 ^ 32).toNat < 2 ^ 32 := by omega
  exact UInt32.toNat_ofNat_of_lt hlt

/-- Only `-1` becomes the largest 32-bit number. -/
theorem toUInt32_eq_max_iff {n : ℤ} (h : -2 ^ 31 ≤ n ∧ n < 2 ^ 31) :
    (toUInt32 n).toNat + 1 = 2 ^ 32 ↔ n = -1 := by
  rw [toNat_toUInt32]
  omega

theorem toUInt32_lt_max {text : List UInt8} {n : ℤ} (h : stoi text = .ok n) (hn : n ≠ -1) :
    (toUInt32 n).toNat + 1 < 2 ^ 32 := by
  have hmax := (toUInt32_eq_max_iff (stoi_bounds h)).not.mpr hn
  have hlt := (toUInt32 n).toNat_lt
  omega

/-- The loop over a range appends its cores. -/
theorem rangeLoop {last : UInt32} (hlast : last.toNat + 1 < 2 ^ 32) (k : ℕ) (i : UInt32)
    (isolated : List UInt32) (hk : last.toNat + 1 - i.toNat = k) :
    Loop.loop (rangeStep last) (k + 1) (i, isolated) = some (isolated ++ span i last) := by
  induction k generalizing i isolated with
  | zero =>
    have hdone : rangeStep last (i, isolated) = .inr isolated := by
      rw [rangeStep, if_neg]
      rw [UInt32.le_iff_toNat_le]
      omega
    rw [Loop.loop_of_result hdone, span, hk, List.range'_zero, List.map_nil, List.append_nil]
  | succ k ih =>
    have hle : i.toNat ≤ last.toNat := by omega
    have hnext : rangeStep last (i, isolated) = .inl (i + 1, isolated ++ [i]) :=
      if_pos (UInt32.le_iff_toNat_le.mpr hle)
    have hi : (i + 1).toNat = i.toNat + 1 := by
      rw [UInt32.toNat_add, UInt32.toNat_one, Nat.mod_eq_of_lt (by omega)]
    have hspan : span i last = i :: span (i + 1) last := by
      rw [span, span, hi, hk, List.range'_succ, List.map_cons, UInt32.ofNat_toNat,
        show last.toNat + 1 - (i.toNat + 1) = k by omega]
    rw [Loop.loop_of_next hnext, ih (i + 1) _ (by omega), hspan, List.append_assoc]
    rfl

/-- The loop over a range up to the largest number never ends. -/
theorem rangeLoop_endless {last : UInt32} (hlast : last.toNat + 1 = 2 ^ 32) (fuel : ℕ)
    (s : UInt32 × List UInt32) : Loop.loop (rangeStep last) fuel s = none := by
  have hnot : ∀ r, ¬ Loop.Returns (rangeStep last) s r := fun r =>
    Loop.not_returns (fun _ => True) (fun s _ => ⟨_, if_pos (UInt32.le_iff_toNat_le.mpr (by
      have := s.1.toNat_lt
      omega)), trivial⟩) trivial
  cases hloop : Loop.loop (rangeStep last) fuel s with
  | none => rfl
  | some r => exact absurd ⟨fuel, hloop⟩ (hnot r)

theorem pushToken_of_mem {token : List UInt8} (hdash : 45 ∈ token) (fuel : ℕ)
    (isolated : List UInt32) : pushToken fuel isolated token =
      match stoi (beforeDash token) with
      | .error e => some (.error e)
      | .ok start =>
        match stoi (afterDash token) with
        | .error e => some (.error e)
        | .ok endCore =>
          (Loop.loop (rangeStep (toUInt32 endCore)) fuel (toUInt32 start, isolated)).map .ok := by
  obtain ⟨back, hback⟩ := eq_takeWhile_append hdash
  have hfind : find [45] token 0 = some (beforeDash token).length := by
    rw [find_singleton 0 hback (not_mem_takeWhile_ne 45 token), Nat.zero_add, beforeDash]
  have hbefore : token.take (beforeDash token).length = beforeDash token :=
    (List.prefix_iff_eq_take.mp (List.takeWhile_prefix _)).symm
  rw [pushToken, hfind]
  simp only [hbefore, afterDash]

theorem pushToken_of_notMem {token : List UInt8} (hdash : 45 ∉ token) (fuel : ℕ)
    (isolated : List UInt32) : pushToken fuel isolated token =
      match stoi token with
      | .error e => some (.error e)
      | .ok core => some (.ok (isolated ++ [toUInt32 core])) := by
  rw [pushToken, find_singleton_eq_none 0 hdash]

/-- A token that lists cores appends them, if the fuel suffices. -/
theorem pushToken_of_lists {token : List UInt8} {cores : List UInt32} (h : Lists token cores)
    (fuel : ℕ) (isolated : List UInt32) : pushToken fuel isolated token = none ∨
      pushToken fuel isolated token = some (.ok (isolated ++ cores)) := by
  cases h with
  | core hdash hn =>
    right
    rw [pushToken_of_notMem hdash, hn]
  | @range first last hdash hfirst hlast hends =>
    rw [pushToken_of_mem hdash, hfirst, hlast]
    cases hloop : Loop.loop (rangeStep (toUInt32 last)) fuel (toUInt32 first, isolated) with
    | none =>
      left
      simp only [hloop, Option.map_none]
    | some r =>
      right
      have hreturns := rangeLoop (toUInt32_lt_max hlast hends) _ (toUInt32 first) isolated rfl
      simp only [hloop, Loop.Returns.unique ⟨fuel, hloop⟩ ⟨_, hreturns⟩, Option.map_some]

/-- Some fuel suffices for a token that lists cores, and then more does. -/
theorem pushToken_of_lists_of_le {token : List UInt8} {cores : List UInt32}
    (h : Lists token cores) : ∃ least, ∀ fuel, least ≤ fuel → ∀ isolated,
      pushToken fuel isolated token = some (.ok (isolated ++ cores)) := by
  cases h with
  | core hdash hn =>
    refine ⟨0, fun fuel _ isolated => ?_⟩
    rw [pushToken_of_notMem hdash, hn]
  | @range first last hdash hfirst hlast hends =>
    refine ⟨(toUInt32 last).toNat + 1 - (toUInt32 first).toNat + 1,
      fun fuel hfuel isolated => ?_⟩
    have hreturns := rangeLoop (toUInt32_lt_max hlast hends) _ (toUInt32 first) isolated rfl
    rw [pushToken_of_mem hdash, hfirst, hlast]
    simp only [Loop.loop_mono hreturns hfuel, Option.map_some]

/-- A token that is no item ends in an exception or never. -/
theorem pushToken_of_not_isItem {token : List UInt8} (h : ¬ IsItem token) (fuel : ℕ)
    (isolated r : List UInt32) : pushToken fuel isolated token ≠ some (.ok r) := by
  intro hpush
  refine h (isItem_iff.mpr ?_)
  by_cases hdash : 45 ∈ token
  · rw [pushToken_of_mem hdash] at hpush
    cases hfirst : stoi (beforeDash token) with
    | error e => simp [hfirst] at hpush
    | ok first =>
      cases hlast : stoi (afterDash token) with
      | error e => simp [hfirst, hlast] at hpush
      | ok last =>
        refine ⟨_, .range hdash hfirst hlast fun hminus => ?_⟩
        have hmax := (toUInt32_eq_max_iff (stoi_bounds hlast)).mpr hminus
        simp [hfirst, hlast, rangeLoop_endless hmax] at hpush
  · rw [pushToken_of_notMem hdash] at hpush
    cases hn : stoi token with
    | error e => simp [hn] at hpush
    | ok n => exact ⟨_, .core hdash hn⟩

/-! ## The loop over the tokens -/

/-- The cores that tokens list, one after the other. -/
inductive ListsAll : List (List UInt8) → List UInt32 → Prop
  | nil : ListsAll [] []
  | cons {token : List UInt8} {cores : List UInt32} {tokens : List (List UInt8)}
      {rest : List UInt32} (htoken : Lists token cores) (htokens : ListsAll tokens rest) :
      ListsAll (token :: tokens) (cores ++ rest)

theorem exists_listsAll {tokens : List (List UInt8)} (h : ∀ token ∈ tokens, IsItem token) :
    ∃ cores, ListsAll tokens cores := by
  induction tokens with
  | nil => exact ⟨[], .nil⟩
  | cons token tokens ih =>
    obtain ⟨hitem, hitems⟩ := List.forall_mem_cons.mp h
    obtain ⟨cores, hcores⟩ := isItem_iff.mp hitem
    obtain ⟨rest, hrest⟩ := ih hitems
    exact ⟨_, .cons hcores hrest⟩

theorem pushTokens_of_listsAll {tokens : List (List UInt8)} {cores : List UInt32}
    (h : ListsAll tokens cores) (fuel : ℕ) (isolated : List UInt32) :
    pushTokens fuel isolated tokens = none ∨
      pushTokens fuel isolated tokens = some (.ok (isolated ++ cores)) := by
  induction h generalizing isolated with
  | nil =>
    right
    rw [pushTokens, List.append_nil]
  | @cons token cores tokens rest htoken _ ih =>
    rw [pushTokens]
    obtain hpush | hpush := pushToken_of_lists htoken fuel isolated
    · left
      rw [hpush]
    · rw [hpush, ← List.append_assoc]
      exact ih _

theorem pushTokens_of_listsAll_of_le {tokens : List (List UInt8)} {cores : List UInt32}
    (h : ListsAll tokens cores) : ∃ least, ∀ fuel, least ≤ fuel → ∀ isolated,
      pushTokens fuel isolated tokens = some (.ok (isolated ++ cores)) := by
  induction h with
  | nil =>
    refine ⟨0, fun fuel _ isolated => ?_⟩
    rw [pushTokens, List.append_nil]
  | cons htoken _ ih =>
    obtain ⟨least, hleast⟩ := pushToken_of_lists_of_le htoken
    obtain ⟨least', hleast'⟩ := ih
    refine ⟨max least least', fun fuel hfuel isolated => ?_⟩
    rw [pushTokens, hleast fuel (le_of_max_le_left hfuel), ← List.append_assoc]
    exact hleast' fuel (le_of_max_le_right hfuel) _

theorem isItem_of_pushTokens {fuel : ℕ} {tokens : List (List UInt8)} {isolated r : List UInt32}
    (h : pushTokens fuel isolated tokens = some (.ok r)) : ∀ token ∈ tokens, IsItem token := by
  induction tokens generalizing isolated with
  | nil => exact List.forall_mem_nil _
  | cons token tokens ih =>
    rw [pushTokens] at h
    have hitem : IsItem token := by
      by_contra hnot
      split at h
      · exact pushToken_of_not_isItem hnot _ _ _ ‹_›
      · exact pushToken_of_not_isItem hnot _ _ _ h
    refine List.forall_mem_cons.mpr ⟨hitem, ?_⟩
    obtain ⟨cores, hcores⟩ := isItem_iff.mp hitem
    obtain hpush | hpush := pushToken_of_lists hcores fuel isolated
    · simp [hpush] at h
    · rw [hpush] at h
      exact ih h

/-! ## Reading the documented values -/

theorem notMem_of_isDigit {text : List UInt8} (h : ∀ c ∈ text, IsDigit c) {c : UInt8}
    (hc : ¬ IsDigit c) : c ∉ text := fun hmem => hc (h c hmem)

/-- A first byte that is neither a blank nor a sign. -/
theorem stoi_cons {c : UInt8} (rest : List UInt8) (hspace : ¬ IsSpace c) (hplus : c ≠ 43)
    (hminus : c ≠ 45) : stoi (c :: rest) =
      if (c :: rest).takeWhile (fun c => IsDigit c) = [] then .error .invalidArgument
      else if value ((c :: rest).takeWhile fun c => IsDigit c) < 2 ^ 31 then
        .ok (value ((c :: rest).takeWhile fun c => IsDigit c))
      else .error .outOfRange := by
  have hblanks : (c :: rest).dropWhile (fun c => decide (IsSpace c)) = c :: rest :=
    List.dropWhile_cons_of_neg (by simpa using hspace)
  have hhead : ∀ d, c ≠ d → ¬ (c :: rest).head? = some d := fun d hd h =>
    hd (Option.some.inj h)
  unfold stoi
  simp only [hblanks, hhead 43 hplus, hhead 45 hminus, or_self, if_false]
  congr 2
  simp only [eq_iff_iff]
  omega

theorem digit_byte {c : UInt8} (h : IsDigit c) : ¬ IsSpace c ∧ c ≠ 43 ∧ c ≠ 45 := by
  simp only [IsDigit, IsSpace, UInt8.le_iff_toNat_le, ne_eq, ← UInt8.toNat_inj] at h ⊢
  simp only [UInt8.reduceToNat] at h ⊢
  omega

/-- `std::stoi` reads the digits that an `int` holds. -/
theorem stoi_digits (n : Numeral) : stoi n.text =
    if value n.text < 2 ^ 31 then .ok (value n.text) else .error .outOfRange := by
  obtain ⟨c, rest, htext⟩ := List.exists_cons_of_ne_nil n.ne_nil
  have hdigit : IsDigit c := n.isDigit c (htext ▸ List.mem_cons_self)
  have hall : n.text.takeWhile (fun c => decide (IsDigit c)) = n.text :=
    List.takeWhile_eq_self_iff.mpr fun c hc => decide_eq_true (n.isDigit c hc)
  rw [htext] at hall ⊢
  obtain ⟨hspace, hplus, hminus⟩ := digit_byte hdigit
  rw [stoi_cons rest hspace hplus hminus, hall, if_neg (List.cons_ne_nil _ _)]

theorem isInt_numeral_iff (n : Numeral) : IsInt n.text ↔ value n.text < 2 ^ 31 := by
  rw [IsInt, stoi_digits]
  split
  · exact iff_of_true ⟨_, rfl⟩ ‹_›
  · refine iff_of_false ?_ ‹_›
    rintro ⟨_, h⟩
    cases h

theorem flag_byte {c : UInt8} (h : IsFlagByte c) :
    ¬ IsSpace c ∧ ¬ IsDigit c ∧ c ≠ 43 ∧ c ≠ 44 ∧ c ≠ 45 := by
  simp only [IsFlagByte, IsDigit, IsSpace, UInt8.le_iff_toNat_le, ne_eq, ← UInt8.toNat_inj] at h ⊢
  simp only [UInt8.reduceToNat] at h ⊢
  omega

/-- A flag word is no number. -/
theorem not_isItem_of_isFlag {flag : List UInt8} (h : IsFlag flag) : ¬ IsItem flag := by
  obtain ⟨hne, hbytes⟩ := h
  have hdash : 45 ∉ flag := fun hmem => (flag_byte (hbytes 45 hmem)).2.2.2.2 rfl
  obtain ⟨c, rest, rfl⟩ := List.exists_cons_of_ne_nil hne
  obtain ⟨hspace, hdigit, hplus, -, hminus⟩ := flag_byte (hbytes c List.mem_cons_self)
  have hnone : (c :: rest).takeWhile (fun c => decide (IsDigit c)) = [] :=
    List.takeWhile_cons_of_neg (by simpa using hdigit)
  rw [IsItem, if_neg hdash, IsInt, stoi_cons rest hspace hplus hminus, if_pos hnone]
  rintro ⟨_, h⟩
  cases h

theorem toNat_toUInt32_natCast {n : ℕ} (h : n < 2 ^ 31) : (toUInt32 n).toNat = n := by
  rw [toNat_toUInt32]
  omega

theorem map_toNat_span (first last : UInt32) : (span first last).map UInt32.toNat =
    List.range' first.toNat (last.toNat + 1 - first.toNat) := by
  rw [span, List.map_map]
  refine (List.map_congr_left fun n hn => ?_).trans (List.map_id _)
  have hlt := last.toNat_lt
  have hmem := List.mem_range'_1.mp hn
  have hfit : n < 2 ^ 32 := by omega
  exact UInt32.toNat_ofNat_of_lt hfit

/-- An item that the code accepts lists the cores it documents. -/
theorem Item.lists (item : Item) (h : IsItem item.text) :
    ∃ cores, Lists item.text cores ∧ cores.map UInt32.toNat = item.cores := by
  cases item with
  | core n =>
    have hdash : 45 ∉ n.text := notMem_of_isDigit n.isDigit (by decide)
    rw [Item.text, IsItem, if_neg hdash, isInt_numeral_iff] at h
    refine ⟨_, .core hdash ((stoi_digits n).trans (if_pos h)), ?_⟩
    rw [List.map_singleton, toNat_toUInt32_natCast h, Item.cores]
  | range first last hle =>
    have hfirstDash : 45 ∉ first.text := notMem_of_isDigit first.isDigit (by decide)
    have hdash : 45 ∈ (Item.range first last hle).text := by simp [Item.text]
    have hbefore : beforeDash (Item.range first last hle).text = first.text := by
      rw [beforeDash, Item.text, List.takeWhile_append_of_pos fun c hc => ?_]
      · rw [List.takeWhile_cons_of_neg (by decide), List.append_nil]
      · exact decide_eq_true fun h => hfirstDash (h ▸ hc)
    have hafter : afterDash (Item.range first last hle).text = last.text := by
      rw [afterDash, hbefore, Item.text, ← List.drop_drop, List.drop_left]
      rfl
    rw [IsItem, if_pos hdash, hbefore, hafter, isInt_numeral_iff, isInt_numeral_iff] at h
    obtain ⟨hfirst, hlast, -⟩ := h
    have hends : (value last.text : ℤ) ≠ -1 := by omega
    have hreadFirst : stoi (beforeDash (Item.range first last hle).text) =
        .ok (value first.text) := by
      rw [hbefore, stoi_digits, if_pos hfirst]
    have hreadLast : stoi (afterDash (Item.range first last hle).text) =
        .ok (value last.text) := by
      rw [hafter, stoi_digits, if_pos hlast]
    refine ⟨_, .range hdash hreadFirst hreadLast hends, ?_⟩
    rw [map_toNat_span, toNat_toUInt32_natCast hfirst, toNat_toUInt32_natCast hlast, Item.cores]

theorem exists_listsAll_items {items : List Item}
    (h : ∀ token ∈ items.map Item.text, IsItem token) :
    ∃ cores, ListsAll (items.map Item.text) cores ∧
      cores.map UInt32.toNat = items.flatMap Item.cores := by
  induction items with
  | nil => exact ⟨[], .nil, rfl⟩
  | cons item items ih =>
    obtain ⟨hitem, hitems⟩ := List.forall_mem_cons.mp h
    obtain ⟨cores, hcores, hmap⟩ := item.lists hitem
    obtain ⟨rest, hrest, hmapRest⟩ := ih hitems
    refine ⟨cores ++ rest, .cons hcores hrest, ?_⟩
    rw [List.map_append, hmap, hmapRest, List.flatMap_cons]

theorem getlines_intercalate {separator : UInt8} {parts : List (List UInt8)}
    (h : ∀ part ∈ parts, separator ∉ part ∧ part ≠ []) (hne : parts ≠ []) :
    getlines separator ([separator].intercalate parts) = parts := by
  have hlast : parts.getLast? ≠ some [] := fun hlast =>
    (h [] (List.mem_of_getLast? hlast)).2 rfl
  unfold getlines
  simp only [List.splitOn_intercalate separator (fun part hpart => (h part hpart).1) hne,
    if_neg hlast]

theorem Item.text_spec (item : Item) : 44 ∉ item.text ∧ item.text ≠ [] := by
  cases item with
  | core n => exact ⟨notMem_of_isDigit n.isDigit (by decide), n.ne_nil⟩
  | range first last _ =>
    have hfirst : 44 ∉ first.text := notMem_of_isDigit first.isDigit (by decide)
    have hlast : 44 ∉ last.text := notMem_of_isDigit last.isDigit (by decide)
    exact ⟨by simp [Item.text, hfirst, hlast], by simp [Item.text]⟩

/-- The code's reading of a text is a list of cores. -/
def AreListed (text : List UInt8) (cores : List ℕ) : Prop :=
  ∃ isolated, ListsAll (getlines 44 text) isolated ∧ isolated.map UInt32.toNat = cores

/-- A documented value whose tokens are accepted has no flags, and is read as documented. -/
theorem areListed_of_denotes {text : List UInt8} {cores : List ℕ} (h : Denotes text cores)
    (hitems : ∀ token ∈ getlines 44 text, IsItem token) : AreListed text cores := by
  obtain ⟨flags, items, hflags, hne, rfl, rfl⟩ := h
  have htokens : getlines 44 ([44].intercalate (flags ++ items.map Item.text)) =
      flags ++ items.map Item.text := by
    refine getlines_intercalate (fun part hpart => ?_)
      (List.append_ne_nil_of_right_ne_nil _ (by simpa using hne))
    obtain hpart | hpart := List.mem_append.mp hpart
    · obtain ⟨hpartNe, hbytes⟩ := hflags part hpart
      exact ⟨fun hmem => (flag_byte (hbytes 44 hmem)).2.2.2.1 rfl, hpartNe⟩
    · obtain ⟨item, -, rfl⟩ := List.mem_map.mp hpart
      exact item.text_spec
  rw [htokens] at hitems
  have hnoFlags : flags = [] := by
    refine List.eq_nil_iff_forall_not_mem.mpr fun flag hmem => ?_
    exact not_isItem_of_isFlag (hflags flag hmem) (hitems flag (List.mem_append_left _ hmem))
  subst hnoFlags
  obtain ⟨isolated, hlists, hmap⟩ := exists_listsAll_items hitems
  exact ⟨isolated, by rwa [htokens], hmap⟩

/-! ## The text that is read -/

/-- The first `isolcpus=` of a line stands at the start of a word. -/
def StartsWord (line : List UInt8) : Prop :=
  ∀ pos, find isolcpus line 0 = some pos → pos = 0 ∨ (line.take pos).getLast? = some 32

/-- There, the text that is read is that of the parameter. -/
theorem isolcpusValue_eq {line text : List UInt8} (hword : StartsWord line)
    (h : HasParameter line text) : isolcpusValue line = text := by
  have hmem : isolcpus ++ text ∈ line.splitOn 32 := List.mem_of_mem_filter (h ▸
    List.mem_singleton_self _)
  have hoccurs : isolcpus <:+: line :=
    (List.prefix_append _ _).isInfix.trans (infix_of_mem_splitOn hmem)
  obtain ⟨pos, hpos⟩ := Option.ne_none_iff_exists'.mp (find_ne_none_of_occurs hoccurs)
  have hline := eq_append_of_find hpos
  have hread : isolcpusValue line = (line.drop (pos + 9)).takeWhile (· ≠ 32) := by
    rw [isolcpusValue, hpos]
  have hpart : isolcpus ++ isolcpusValue line ∈ line.splitOn 32 := by
    rw [hread]
    have hkey : isolcpus ++ (line.drop (pos + 9)).takeWhile (· ≠ 32) ∈
        (isolcpus ++ line.drop (pos + 9)).splitOn 32 := append_takeWhile_mem_splitOn (by decide) _
    obtain rfl | hspace := hword pos hpos
    · rwa [show isolcpus ++ line.drop (0 + 9) = line from hline.symm] at hkey
    · obtain ⟨front, hfront⟩ := List.getLast?_eq_some_iff.mp hspace
      rw [hfront, List.append_assoc, List.append_assoc, List.singleton_append] at hline
      rw [hline, List.splitOn_append_cons_self, ← hline]
      exact List.mem_append_right _ hkey
  have hfilter : (isolcpus ++ isolcpusValue line) ∈ [isolcpus ++ text] := by
    rw [← h]
    exact List.mem_filter.mpr ⟨hpart, List.isPrefixOf_iff_prefix.mpr (List.prefix_append _ _)⟩
  exact List.append_cancel_left (List.mem_singleton.mp hfilter)

/-! ## When the cores are parsed as documented -/

theorem parsesIsolcpus_of {contents : List UInt8}
    (hitems : ∀ token ∈ getlines 44 (isolcpusValue (commandLine contents)), IsItem token)
    (hlisted : ∀ text cores, HasParameter (commandLine contents) text → Denotes text cores →
      AreListed (isolcpusValue (commandLine contents)) cores) : ParsesIsolcpus contents := by
  obtain ⟨isolated, hlists⟩ := exists_listsAll hitems
  refine ⟨?_, fun fuel e herror => ?_, fun fuel r hr text cores hparameter hdenotes => ?_⟩
  · obtain ⟨least, hleast⟩ := pushTokens_of_listsAll_of_le hlists
    refine ⟨least, ?_⟩
    rw [parseIsolcpus, hleast least le_rfl]
    exact Option.some_ne_none _
  · rw [parseIsolcpus] at herror
    obtain h | h := pushTokens_of_listsAll hlists fuel []
    · simp [h] at herror
    · simp [h] at herror
  · rw [parseIsolcpus] at hr
    obtain ⟨isolated', hlists', hmap⟩ := hlisted text cores hparameter hdenotes
    obtain h | h := pushTokens_of_listsAll hlists' fuel []
    · simp [h] at hr
    · rw [h, List.nil_append, Option.some.injEq, Except.ok.injEq] at hr
      rw [← hr, hmap]

/-- Every command line is parsed, without an exception and as documented, if and only if the
text behind its first `isolcpus=` has only items that `int`s and 32-bit loops can take, and
that `isolcpus=` is the parameter, or the same cores stand behind it. -/
theorem parsesIsolcpus_iff (contents : List UInt8) : ParsesIsolcpus contents ↔
    (∀ token ∈ getlines 44 (isolcpusValue (commandLine contents)), IsItem token) ∧
      (StartsWord (commandLine contents) ∨
        ∀ text cores, HasParameter (commandLine contents) text → Denotes text cores →
          AreListed (isolcpusValue (commandLine contents)) cores) := by
  constructor
  · rintro ⟨⟨fuel, hfuel⟩, hnoThrow, hcores⟩
    obtain ⟨outcome, houtcome⟩ := Option.ne_none_iff_exists'.mp hfuel
    cases outcome with
    | error e => exact absurd houtcome (hnoThrow fuel e)
    | ok isolated =>
      have hread : pushTokens fuel [] (getlines 44 (isolcpusValue (commandLine contents))) =
          some (.ok isolated) := houtcome
      have hitems := isItem_of_pushTokens hread
      refine ⟨hitems, .inr fun text cores hparameter hdenotes => ?_⟩
      obtain ⟨isolated', hlists⟩ := exists_listsAll hitems
      obtain h | h := pushTokens_of_listsAll hlists fuel []
      · simp [h] at hread
      · rw [h, List.nil_append, Option.some.injEq, Except.ok.injEq] at hread
        exact ⟨isolated', hlists,
          hread ▸ hcores fuel isolated houtcome text cores hparameter hdenotes⟩
  · rintro ⟨hitems, hword | hlisted⟩
    · refine parsesIsolcpus_of hitems fun text cores hparameter hdenotes => ?_
      rw [isolcpusValue_eq hword hparameter] at hitems ⊢
      exact areListed_of_denotes hdenotes hitems
    · exact parsesIsolcpus_of hitems hlisted

/-- `isolcpus=nohz,1-3` -/
theorem parsesIsolcpus_fails : ¬ ParsesIsolcpus
    [105, 115, 111, 108, 99, 112, 117, 115, 61, 110, 111, 104, 122, 44, 49, 45, 51, 10] := by
  intro h
  exact h.noThrow 0 .invalidArgument (by decide)

end OrderbookEngine.CPUAffinity
