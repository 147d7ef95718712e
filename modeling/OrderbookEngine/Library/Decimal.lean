import Mathlib.Tactic

/-!
# Decimal numerals

The digits of a number, as bytes, and the number that digits denote.
-/

namespace OrderbookEngine.Decimal

-- Deciding a property of a text looks at its bytes, not at all the bytes there are.
instance decidableForallMem {P : UInt8 → Prop} [DecidablePred P] (text : List UInt8) :
    Decidable (∀ c ∈ text, P c) :=
  List.decidableBAll P text

/-- A byte that is a digit. -/
def IsDigit (c : UInt8) : Prop := 48 ≤ c ∧ c ≤ 57

instance : DecidablePred IsDigit := fun c => inferInstanceAs (Decidable (48 ≤ c ∧ c ≤ 57))

/-- The digit of a number below ten. -/
def digit (d : ℕ) : UInt8 := d.digitChar.toNat.toUInt8

/-- The digits of a number. -/
def digits (n : ℕ) : List UInt8 := (Nat.toDigits 10 n).map fun c => c.toNat.toUInt8

/-- The number that digits denote. -/
def value (text : List UInt8) : ℕ := text.foldl (fun v c => 10 * v + (c.toNat - 48)) 0

theorem digit_spec : ∀ d < 10, IsDigit (digit d) ∧ (digit d).toNat - 48 = d := by decide

theorem digits_of_lt {n : ℕ} (h : n < 10) : digits n = [digit n] := by
  rw [digits, Nat.toDigits_of_lt_base h]
  rfl

theorem digits_of_le {n : ℕ} (h : 10 ≤ n) : digits n = digits (n / 10) ++ [digit (n % 10)] := by
  rw [digits, Nat.toDigits_of_base_le (by decide) h, List.map_append]
  rfl

/-- A numeral is a digit, or a numeral and a digit. -/
theorem digits_induction {P : ℕ → Prop} (digit : ∀ n < 10, P n)
    (append : ∀ n, 10 ≤ n → P (n / 10) → P n) (n : ℕ) : P n := by
  induction n using Nat.strong_induction_on with
  | _ n ih =>
    by_cases h : n < 10
    · exact digit n h
    · exact append n (not_lt.mp h) (ih _ (by omega))

theorem isDigit_of_mem_digits (n : ℕ) : ∀ c ∈ digits n, IsDigit c := by
  induction n using digits_induction with
  | digit n h =>
    rw [digits_of_lt h]
    exact List.forall_mem_singleton.mpr (digit_spec n h).1
  | append n h ih =>
    rw [digits_of_le h]
    exact List.forall_mem_append.mpr
      ⟨ih, List.forall_mem_singleton.mpr (digit_spec _ (Nat.mod_lt _ (by decide))).1⟩

/-- Only the numeral of zero starts with a zero. -/
theorem eq_zero_of_head_digits {n : ℕ} : (digits n).head? = some 48 → n = 0 := by
  induction n using digits_induction with
  | digit n h =>
    rw [digits_of_lt h]
    have hall : ∀ d < 10, some (digit d) = some 48 → d = 0 := by decide
    exact hall n h
  | append n h ih =>
    intro hhead
    rw [digits_of_le h, List.head?_append_of_ne_nil _ (by simp [digits])] at hhead
    have := ih hhead
    omega

theorem digits_ne_nil (n : ℕ) : digits n ≠ [] := by
  rw [digits, Ne, List.map_eq_nil_iff]
  exact Nat.toDigits_ne_nil

@[simp] theorem value_nil : value [] = 0 := rfl

theorem value_append_singleton (text : List UInt8) (c : UInt8) :
    value (text ++ [c]) = 10 * value text + (c.toNat - 48) := by
  rw [value, List.foldl_append]
  rfl

theorem value_digits (n : ℕ) : value (digits n) = n := by
  induction n using digits_induction with
  | digit n h =>
    rw [digits_of_lt h, ← List.nil_append [digit n], value_append_singleton, (digit_spec n h).2,
      value_nil, Nat.mul_zero, Nat.zero_add]
  | append n h ih =>
    rw [digits_of_le h, value_append_singleton, ih, (digit_spec _ (Nat.mod_lt _ (by decide))).2]
    omega

theorem length_digits_le {n k : ℕ} (hk : 0 < k) (h : n < 10 ^ k) : (digits n).length ≤ k := by
  rw [digits, List.length_map]
  exact (Nat.length_toDigits_le_iff (by decide) hk).mpr h

/-- The digits of a number, with zeros in front up to a width. -/
def padded (width n : ℕ) : List UInt8 := (digits n).leftpad width 48

theorem isDigit_of_mem_padded (width n : ℕ) : ∀ c ∈ padded width n, IsDigit c := by
  intro c hc
  rw [padded, List.leftpad] at hc
  obtain hc | hc := List.mem_append.mp hc
  · rw [List.eq_of_mem_replicate hc]
    decide
  · exact isDigit_of_mem_digits n c hc

theorem padded_ne_nil (width n : ℕ) : padded width n ≠ [] :=
  List.append_ne_nil_of_right_ne_nil _ (digits_ne_nil n)

/-- Zeros in front change nothing. -/
theorem value_padded (width n : ℕ) : value (padded width n) = n := by
  have hzeros :
      ∀ k, (List.replicate k (48 : UInt8)).foldl (fun v c => 10 * v + (c.toNat - 48)) 0 = 0 := by
    intro k
    induction k with
    | zero => rfl
    | succ k ih =>
      rw [List.replicate_succ, List.foldl_cons]
      exact ih
  rw [padded, List.leftpad, value, List.foldl_append, hzeros]
  exact value_digits n

theorem length_padded_le {width most n : ℕ} (hwidth : width ≤ most) (hmost : 0 < most)
    (h : n < 10 ^ most) : (padded width n).length ≤ most := by
  rw [padded, List.length_leftpad]
  exact max_le hwidth (length_digits_le hmost h)

theorem length_padded {width n : ℕ} (hwidth : 0 < width) (h : n < 10 ^ width) :
    (padded width n).length = width := by
  rw [padded, List.length_leftpad]
  exact max_eq_left (length_digits_le hwidth h)

end OrderbookEngine.Decimal
