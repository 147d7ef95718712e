import Mathlib.Tactic

/-!
# Numbers drawn from a counter of 64 bits

The age of a number is how often the counter has drawn since it stood there. It tells the
numbers apart that were drawn lately, whether or not the counter came round meanwhile.
-/

namespace OrderbookEngine.DrawnNumbers

variable {next number : UInt64}

/-- How many draws ago a number was drawn, when the counter is at `next`. -/
def age (next number : UInt64) : Nat := (next - number).toNat

theorem age_lt (next number : UInt64) : age next number < 2 ^ 64 := (next - number).toNat_lt

theorem age_eq_zero_iff : age next number = 0 ↔ number = next := by
  constructor
  · intro h
    have hsub : next - number = 0 := UInt64.toNat_inj.mp h
    have hsum := UInt64.sub_add_cancel next number
    rw [hsub, UInt64.zero_add] at hsum
    exact hsum
  · rintro rfl
    rw [age, UInt64.sub_self, UInt64.toNat_zero]

/-- A draw makes every number one older. -/
theorem age_succ (next number : UInt64) :
    age (next + 1) number = (age next number + 1) % 2 ^ 64 := by
  have hsucc : next + 1 - number = next - number + 1 := by grind
  rw [age, hsucc, UInt64.toNat_add]
  rfl

/-- There is a number of each age. -/
theorem exists_age (next : UInt64) {k : Nat} (hk : k < 2 ^ 64) : ∃ number, age next number = k := by
  refine ⟨next - k.toUInt64, ?_⟩
  have hsub : next - (next - k.toUInt64) = k.toUInt64 := by grind
  rw [age, hsub]
  exact UInt64.toNat_ofNat_of_lt' hk

theorem age_injective (next : UInt64) : Function.Injective (age next) := by
  intro number number' h
  have hsub : next - number = next - number' := UInt64.toNat_inj.mp h
  grind

/-- A list that has every number of some ages has as many entries. -/
theorem le_add_length {numbers : List UInt64} {a b : Nat} (hb : b < 2 ^ 64)
    (hall : ∀ number, a < age next number → age next number ≤ b → number ∈ numbers) :
    b ≤ a + numbers.length := by
  have hages : List.range' (a + 1) (b - a) ⊆ numbers.map (age next) := by
    intro k hk
    obtain ⟨hlow, hhigh⟩ := List.mem_range'_1.mp hk
    obtain ⟨number, rfl⟩ := exists_age next (show k < 2 ^ 64 by omega)
    exact List.mem_map_of_mem (hall number (by omega) (by omega))
  have hnodup : (List.range' (a + 1) (b - a)).Nodup := List.nodup_range'
  have hlength := (hnodup.subperm hages).length_le
  rw [List.length_range', List.length_map] at hlength
  omega

/-- What holds of the older ones of some ages holds from one age on. -/
theorem exists_threshold {P : Nat → Prop} {n : Nat}
    (hup : ∀ j k, 1 ≤ j → j ≤ k → k ≤ n → P j → P k) :
    ∃ m ≤ n, ∀ k, 1 ≤ k → k ≤ n → (P k ↔ m < k) := by
  induction n with
  | zero => exact ⟨0, le_refl 0, fun k hlow hhigh => by omega⟩
  | succ n ih =>
    by_cases hlast : P (n + 1)
    · obtain ⟨m, hm, hiff⟩ := ih fun j k hj hjk hk => hup j k hj hjk (by omega)
      refine ⟨m, by omega, fun k hlow hhigh => ?_⟩
      rcases Nat.lt_or_ge n k with hk | hk
      · obtain rfl : k = n + 1 := by omega
        exact iff_of_true hlast (by omega)
      · exact hiff k hlow hk
    · refine ⟨n + 1, le_refl _, fun k hlow hhigh => iff_of_false (fun hk => hlast ?_) (by omega)⟩
      exact hup k (n + 1) hlow hhigh (le_refl _) hk

end OrderbookEngine.DrawnNumbers
