import Mathlib.Tactic

/-!
# Texts in UTF-8

A text of bytes is UTF-8 if it is a concatenation of encoded characters. It splits at its ASCII
bytes, none of which is part of the encoding of another character.
-/

namespace OrderbookEngine.Utf8

/-- A text that encodes characters. -/
def IsUtf8 (text : List UInt8) : Prop :=
  ∃ chars : List Char, chars.flatMap String.utf8EncodeChar = text

theorem le_ofNat {n : ℕ} (hle : 128 ≤ n) (hlt : n < 256) : 128 ≤ UInt8.ofNat n := by
  rw [UInt8.le_iff_toNat_le, UInt8.toNat_ofNat_of_lt' hlt]
  exact hle

/-- A character is one ASCII byte, or some bytes none of which is ASCII. -/
theorem encode_cases (c : Char) : (∃ b < 128, String.utf8EncodeChar c = [b]) ∨
    ∀ b ∈ String.utf8EncodeChar c, 128 ≤ b := by
  unfold String.utf8EncodeChar
  dsimp only
  have hvalid : c.val.toNat < 1114112 := by
    have := c.valid
    rcases this with h | h <;> omega
  split
  · next h =>
    refine .inl ⟨_, ?_, rfl⟩
    have hlt : c.val.toNat < UInt8.size := lt_of_le_of_lt h (by decide)
    rw [UInt8.lt_iff_toNat_lt, UInt8.toNat_ofNat_of_lt' hlt]
    exact Nat.lt_succ_of_le h
  · right
    split
    · simp only [List.forall_mem_cons, List.not_mem_nil, false_implies, implies_true, and_true]
      exact ⟨le_ofNat (by omega) (by omega), le_ofNat (by omega) (by omega)⟩
    split
    · simp only [List.forall_mem_cons, List.not_mem_nil, false_implies, implies_true, and_true]
      exact ⟨le_ofNat (by omega) (by omega), le_ofNat (by omega) (by omega),
        le_ofNat (by omega) (by omega)⟩
    · simp only [List.forall_mem_cons, List.not_mem_nil, false_implies, implies_true, and_true]
      exact ⟨le_ofNat (by omega) (by omega), le_ofNat (by omega) (by omega),
        le_ofNat (by omega) (by omega), le_ofNat (by omega) (by omega)⟩

theorem encode_ascii {b : UInt8} (hb : b < 128) :
    String.utf8EncodeChar (Char.ofNat b.toNat) = [b] := by
  have hall : ∀ n < 128, String.utf8EncodeChar (Char.ofNat n) = [UInt8.ofNat n] := by decide +kernel
  rw [hall b.toNat (UInt8.lt_iff_toNat_lt.mp hb), UInt8.ofNat_toNat]

/-- A text splits at an ASCII byte. -/
theorem isUtf8_append_cons {b : UInt8} (hb : b < 128) (front rest : List UInt8) :
    IsUtf8 (front ++ b :: rest) ↔ IsUtf8 front ∧ IsUtf8 rest := by
  constructor
  · rintro ⟨chars, hchars⟩
    induction chars generalizing front with
    | nil => exact absurd hchars.symm (List.append_ne_nil_of_right_ne_nil _ (List.cons_ne_nil _ _))
    | cons c chars ih =>
      rw [List.flatMap_cons, List.append_eq_append_iff] at hchars
      rcases hchars with ⟨behind, hfront, hbehind⟩ | ⟨inside, hencode, hrest⟩
      · -- the character stands in front of the byte
        obtain ⟨⟨before, hbefore⟩, hafter⟩ := ih behind hbehind
        exact ⟨⟨c :: before, by rw [List.flatMap_cons, hbefore, hfront]⟩, hafter⟩
      · rcases inside with _ | ⟨d, inside⟩
        · -- the character ends where the byte begins
          obtain ⟨hnil, hafter⟩ := ih [] hrest.symm
          rw [List.append_nil] at hencode
          exact ⟨⟨[c], by rw [List.flatMap_singleton, hencode]⟩, hafter⟩
        · -- the byte is one of the character
          obtain ⟨rfl, hafter⟩ := List.cons.inj hrest
          have hmem : b ∈ String.utf8EncodeChar c := by
            rw [hencode]
            exact List.mem_append_right _ List.mem_cons_self
          rcases encode_cases c with ⟨a, -, hone⟩ | hhigh
          · rw [hone, eq_comm, List.append_eq_singleton_iff] at hencode
            rcases hencode with ⟨rfl, hinside⟩ | ⟨-, hinside⟩
            · obtain ⟨-, rfl⟩ := List.cons.inj hinside
              exact ⟨⟨[], rfl⟩, ⟨chars, hafter.symm⟩⟩
            · cases hinside
          · exact absurd (hhigh b hmem) (UInt8.not_le.mpr hb)
  · rintro ⟨⟨before, rfl⟩, ⟨after, rfl⟩⟩
    refine ⟨before ++ Char.ofNat b.toNat :: after, ?_⟩
    rw [List.flatMap_append, List.flatMap_cons, encode_ascii hb]
    rfl

theorem isUtf8_nil : IsUtf8 [] := ⟨[], rfl⟩

theorem isUtf8_cons {b : UInt8} (hb : b < 128) (text : List UInt8) :
    IsUtf8 (b :: text) ↔ IsUtf8 text :=
  (isUtf8_append_cons hb [] text).trans (and_iff_right isUtf8_nil)

/-- ASCII in front of a text. -/
theorem isUtf8_ascii_append {front : List UInt8} (hfront : ∀ b ∈ front, b < 128)
    (text : List UInt8) : IsUtf8 (front ++ text) ↔ IsUtf8 text := by
  induction front with
  | nil => exact Iff.rfl
  | cons b front ih =>
    obtain ⟨hb, hfront⟩ := List.forall_mem_cons.mp hfront
    exact (isUtf8_cons hb _).trans (ih hfront)

end OrderbookEngine.Utf8
