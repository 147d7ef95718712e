import Mathlib.Tactic

/-!
# Words as bytes and input streams

Words are stored least significant byte first. An input stream hands out the
bytes of a file; a read past its end leaves the trailing bytes of the target as
they were and makes every later read fail, as `std::istream::read` does. A stream
that has failed stays so until it is cleared, wherever it is told to go.
-/

namespace OrderbookEngine.Bytes

/-- The `n` low-order bytes of a number, least significant first. -/
def leBytes : Nat → Nat → List UInt8
  | 0, _ => []
  | n + 1, v => v.toUInt8 :: leBytes n (v / 256)

/-- The number that the bytes spell, least significant first. -/
def leValue : List UInt8 → Nat
  | [] => 0
  | b :: bs => b.toNat + 256 * leValue bs

@[simp] theorem length_leBytes (n v : Nat) : (leBytes n v).length = n := by
  induction n generalizing v with
  | zero => rfl
  | succ n ih => simp only [leBytes, List.length_cons, ih]

/-- A number that fits its bytes is read back. -/
theorem leValue_leBytes {n v : Nat} (h : v < 256 ^ n) : leValue (leBytes n v) = v := by
  induction n generalizing v with
  | zero =>
    rw [pow_zero] at h
    exact (Nat.lt_one_iff.mp h).symm
  | succ n ih =>
    have hdiv : v / 256 < 256 ^ n := by
      rw [pow_succ, mul_comm] at h
      exact Nat.div_lt_of_lt_mul h
    simp only [leBytes, leValue, ih hdiv, Nat.toUInt8_eq, UInt8.toNat_ofNat']
    exact Nat.mod_add_div v 256

/-- Only the low-order bytes count. -/
theorem leBytes_mod (n v : Nat) : leBytes n (v % 256 ^ n) = leBytes n v := by
  induction n generalizing v with
  | zero => rfl
  | succ n ih =>
    have hlow : (v % 256 ^ (n + 1)).toUInt8 = v.toUInt8 := by
      apply UInt8.toNat_inj.mp
      simp only [Nat.toUInt8_eq, UInt8.toNat_ofNat', pow_succ]
      exact Nat.mod_mul_left_mod v (256 ^ n) 256
    have hhigh : v % 256 ^ (n + 1) / 256 = v / 256 % 256 ^ n := by
      rw [pow_succ, mul_comm, Nat.mod_mul_right_div_self]
    rw [leBytes, leBytes, hlow, hhigh, ih]

/-- Bytes spell a number that fits them. -/
theorem leValue_lt (bytes : List UInt8) : leValue bytes < 256 ^ bytes.length := by
  induction bytes with
  | nil => simp [leValue]
  | cons b bs ih =>
    have hb := b.toNat_lt
    simp only [leValue, List.length_cons, pow_succ]
    omega

/-- Bytes are the bytes of the number that they spell. -/
theorem leBytes_leValue (bytes : List UInt8) : leBytes bytes.length (leValue bytes) = bytes := by
  induction bytes with
  | nil => rfl
  | cons b bs ih =>
    have hb := b.toNat_lt
    have hdiv : leValue (b :: bs) / 256 = leValue bs := by
      simp only [leValue]
      omega
    have hmod : (leValue (b :: bs)).toUInt8 = b := by
      apply UInt8.toNat_inj.mp
      simp only [leValue, Nat.toUInt8_eq, UInt8.toNat_ofNat']
      omega
    rw [List.length_cons, leBytes, hdiv, hmod, ih]

/-- An input stream: the bytes not yet read and the error flags. -/
structure IStream where
  rest : List UInt8
  eofbit : Bool
  failbit : Bool

/-- A stream at the start of a file. -/
def openStream (bytes : List UInt8) : IStream := ⟨bytes, false, false⟩

/-- Extract `n` bytes, or what is left of them. -/
def extract (n : Nat) : StateM IStream (List UInt8) := fun s =>
  if s.eofbit || s.failbit then ([], { s with failbit := true })
  else if n ≤ s.rest.length then (s.rest.take n, { s with rest := s.rest.drop n })
  else (s.rest, ⟨[], true, true⟩)

/-- Read into an object that holds the bytes `old`. -/
def readInto (old : List UInt8) : StateM IStream (List UInt8) := do
  let got ← extract old.length
  return got ++ old.drop got.length

/-- Read into an unsigned word of `n` bytes that holds `old`. -/
def readWord (n old : Nat) : StateM IStream Nat := do
  let bytes ← readInto (leBytes n old)
  return leValue bytes

/-- Whether the end of the file was reached. -/
def eof : StateM IStream Bool := do
  let s ← get
  return s.eofbit

/-- `seekg` to an offset from the start of the file: the end is no longer reached, and
the position changes unless the stream has failed. -/
def seekg (file : List UInt8) (pos : Nat) (s : IStream) : IStream :=
  if s.failbit then { s with eofbit := false } else ⟨file.drop pos, false, false⟩

/-- `tellg`: the position in the file, none for the `-1` of a failed stream. -/
def tellg (file : List UInt8) (s : IStream) : Option Nat :=
  if s.failbit then none else some (file.length - s.rest.length)

/-- `clear`. -/
def clear (s : IStream) : IStream := { s with eofbit := false, failbit := false }

/-- A stream that a read took to the end of its file. -/
def endedStream : IStream := ⟨[], true, true⟩

section Rules

variable {σ α β : Type}

@[simp] theorem bind_apply (x : StateM σ α) (f : α → StateM σ β) (s : σ) :
    (x >>= f) s = f (x s).1 (x s).2 := rfl

@[simp] theorem pure_apply (a : α) (s : σ) : (pure a : StateM σ α) s = (a, s) := rfl

@[simp] theorem map_apply (x : StateM σ α) (f : α → β) (s : σ) :
    (f <$> x) s = (f (x s).1, (x s).2) := rfl

end Rules

@[simp] theorem eof_apply (s : IStream) : eof s = (s.eofbit, s) := rfl

@[simp] theorem eofbit_openStream (bytes : List UInt8) :
    (openStream bytes).eofbit = false := rfl

/-- A read from a stream in an error state fails and leaves its target. -/
theorem readInto_of_error (old : List UInt8) {s : IStream} (h : s.eofbit ∨ s.failbit) :
    readInto old s = (old, { s with failbit := true }) := by
  simp [readInto, extract, h]

/-- A failed stream stays as it is, and so does the target. -/
theorem readInto_of_failed (old : List UInt8) {s : IStream} (h : s.failbit = true) :
    readInto old s = (old, s) := by
  rw [readInto_of_error old (Or.inr h), ← h]

theorem readWord_of_failed (n old : Nat) {s : IStream} (h : s.failbit = true) :
    readWord n old s = (leValue (leBytes n old), s) := by
  rw [readWord, bind_apply, readInto_of_failed _ h]
  rfl

/-- Reading some bytes either gets them all or ends the stream, and then the target keeps
its own last bytes. -/
theorem readInto_openStream (old bytes : List UInt8) :
    readInto old (openStream bytes) =
      if old.length ≤ bytes.length then
        (bytes.take old.length, openStream (bytes.drop old.length))
      else (bytes ++ old.drop bytes.length, endedStream) := by
  by_cases h : old.length ≤ bytes.length
  · simp [readInto, extract, openStream, h]
  · simp [readInto, extract, openStream, endedStream, h]

/-- A read of bytes that are there returns them. -/
theorem readInto_append {old new : List UInt8} (rest : List UInt8)
    (h : new.length = old.length) :
    readInto old (openStream (new ++ rest)) = (new, openStream rest) := by
  have hget : extract old.length (openStream (new ++ rest)) = (new, openStream rest) := by
    simp [extract, openStream, ← h]
  simp [readInto, hget, h]

/-- A read of a stored word returns it. -/
@[simp] theorem readWord_leBytes {n v : Nat} (old : Nat) (rest : List UInt8)
    (h : v < 256 ^ n) :
    readWord n old (openStream (leBytes n v ++ rest)) = (v, openStream rest) := by
  simp [readWord, readInto_append rest (show (leBytes n v).length = (leBytes n old).length by simp),
    leValue_leBytes h]

/-- A read keeps the size of its target. -/
theorem length_readInto (old : List UInt8) (s : IStream) :
    (readInto old s).1.length = old.length := by
  have hgot : (extract old.length s).1.length ≤ old.length := by
    unfold extract
    split
    · simp
    · split
      · simp
      · simp only; omega
  simp only [readInto, bind_apply, pure_apply, List.length_append, List.length_drop]
  omega

/-- A word that was read fits its bytes. -/
theorem readWord_lt (n old : Nat) (s : IStream) : (readWord n old s).1 < 256 ^ n := by
  have h := leValue_lt (readInto (leBytes n old) s).1
  rw [length_readInto, length_leBytes] at h
  exact h

@[simp] theorem readInto_endedStream (old : List UInt8) :
    readInto old endedStream = (old, endedStream) := readInto_of_failed old rfl

@[simp] theorem readWord_endedStream (n old : Nat) :
    readWord n old endedStream = (leValue (leBytes n old), endedStream) :=
  readWord_of_failed n old rfl

/-- Reading fails at the end of the file only. -/
theorem eofbit_of_readInto (old : List UInt8) {s : IStream}
    (hs : s.failbit = true → s.eofbit = true) :
    (readInto old s).2.failbit = true → (readInto old s).2.eofbit = true := by
  by_cases h : s.eofbit = true ∨ s.failbit = true
  · rw [readInto_of_error old h]
    exact fun _ => h.elim id hs
  · obtain ⟨bytes, eofbit, failbit⟩ := s
    obtain ⟨rfl, rfl⟩ : eofbit = false ∧ failbit = false := by simpa using h
    rw [← openStream, readInto_openStream]
    split
    · exact fun hfail => hfail
    · exact fun _ => rfl

theorem eofbit_of_readWord (n old : Nat) {s : IStream}
    (hs : s.failbit = true → s.eofbit = true) :
    (readWord n old s).2.failbit = true → (readWord n old s).2.eofbit = true :=
  eofbit_of_readInto _ hs

/-- Reading a word either takes its bytes off the stream or ends it. -/
theorem readWord_cases (n old : Nat) (bytes : List UInt8) :
    (∃ v rest, v < 256 ^ n ∧ bytes = leBytes n v ++ rest ∧
        readWord n old (openStream bytes) = (v, openStream rest)) ∨
      bytes.length < n ∧ readWord n old (openStream bytes) =
        (leValue (bytes ++ (leBytes n old).drop bytes.length), endedStream) := by
  rw [readWord, bind_apply, readInto_openStream, length_leBytes]
  rcases le_or_gt n bytes.length with h | h
  · left
    have hlength : (bytes.take n).length = n := by simp [h]
    refine ⟨leValue (bytes.take n), bytes.drop n, ?_, ?_, ?_⟩
    · have hlt := leValue_lt (bytes.take n)
      rwa [hlength] at hlt
    · have hbytes := leBytes_leValue (bytes.take n)
      rw [hlength] at hbytes
      rw [hbytes, List.take_append_drop]
    · simp [h]
  · right
    refine ⟨h, ?_⟩
    simp [not_le.mpr h]

/-- The reader takes a fixed number of bytes for what it returns, missing bytes counting
as zeros. -/
structure ZeroFilled {α : Type} (x : StateM IStream α) (encode : α → List UInt8) (n : Nat) :
    Prop where
  full : ∀ bytes, n ≤ bytes.length → ∃ a, encode a = bytes.take n ∧
    x (openStream bytes) = (a, openStream (bytes.drop n))
  short : ∀ bytes, bytes.length < n → ∃ a,
    encode a = bytes ++ List.replicate (n - bytes.length) 0 ∧
      x (openStream bytes) = (a, endedStream)
  ended : ∃ a, encode a = List.replicate n 0 ∧ x endedStream = (a, endedStream)

section ZeroFilled

variable {α β : Type} {x : StateM IStream α} {y : StateM IStream β}
  {encode : α → List UInt8} {encode' : β → List UInt8} {n m : Nat}

theorem leBytes_zero (n : Nat) : leBytes n 0 = List.replicate n 0 := by
  induction n with
  | zero => rfl
  | succ n ih =>
    rw [leBytes, Nat.zero_div, ih]
    rfl

/-- Words are read into zeros. -/
theorem zeroFilled_readWord (n : Nat) : ZeroFilled (readWord n 0) (leBytes n) n where
  full bytes h := by
    have hlength : (bytes.take n).length = n := by simp [h]
    have hbytes := leBytes_leValue (bytes.take n)
    rw [hlength] at hbytes
    exact ⟨_, hbytes, by simp [readWord, readInto_openStream, h]⟩
  short bytes h := by
    have hlength : (bytes ++ List.replicate (n - bytes.length) (0 : UInt8)).length = n := by
      simp
      omega
    have hbytes := leBytes_leValue (bytes ++ List.replicate (n - bytes.length) (0 : UInt8))
    rw [hlength] at hbytes
    refine ⟨_, hbytes, ?_⟩
    simp [readWord, readInto_openStream, not_le.mpr h, leBytes_zero]
  ended := by
    have hbytes := leBytes_leValue (List.replicate n (0 : UInt8))
    rw [List.length_replicate] at hbytes
    exact ⟨_, hbytes, by rw [readWord_endedStream, leBytes_zero]⟩

/-- What is computed from the bytes read may be encoded in its own way. -/
theorem ZeroFilled.map (h : ZeroFilled x encode n) {f : α → β}
    (hf : ∀ a, encode' (f a) = encode a) : ZeroFilled (f <$> x) encode' n where
  full bytes hn := by
    obtain ⟨a, ha, hx⟩ := h.full bytes hn
    exact ⟨f a, (hf a).trans ha, by simp [hx]⟩
  short bytes hn := by
    obtain ⟨a, ha, hx⟩ := h.short bytes hn
    exact ⟨f a, (hf a).trans ha, by simp [hx]⟩
  ended := by
    obtain ⟨a, ha, hx⟩ := h.ended
    exact ⟨f a, (hf a).trans ha, by simp [hx]⟩

/-- Two readers one after the other. -/
theorem ZeroFilled.pair (hx : ZeroFilled x encode n) (hy : ZeroFilled y encode' m) :
    ZeroFilled (do let a ← x; let b ← y; return (a, b))
      (fun p => encode p.1 ++ encode' p.2) (n + m) where
  full bytes h := by
    obtain ⟨a, ha, hx⟩ := hx.full bytes (by omega)
    obtain ⟨b, hb, hy⟩ := hy.full (bytes.drop n) (by rw [List.length_drop]; omega)
    refine ⟨(a, b), ?_, by simp [hx, hy]⟩
    rw [ha, hb, List.take_add]
  short bytes h := by
    rcases le_or_gt n bytes.length with hn | hn
    · obtain ⟨a, ha, hx⟩ := hx.full bytes hn
      obtain ⟨b, hb, hy⟩ := hy.short (bytes.drop n) (by rw [List.length_drop]; omega)
      refine ⟨(a, b), ?_, by simp [hx, hy]⟩
      rw [ha, hb, ← List.append_assoc, List.take_append_drop, List.length_drop]
      congr 2
      omega
    · obtain ⟨a, ha, hx⟩ := hx.short bytes hn
      obtain ⟨b, hb, hy⟩ := hy.ended
      refine ⟨(a, b), ?_, by simp [hx, hy]⟩
      rw [ha, hb, List.append_assoc, List.replicate_append_replicate]
      congr 2
      omega
  ended := by
    obtain ⟨a, ha, hx⟩ := hx.ended
    obtain ⟨b, hb, hy⟩ := hy.ended
    exact ⟨(a, b), by rw [ha, hb, List.replicate_append_replicate], by simp [hx, hy]⟩

end ZeroFilled

/-- A read from a finished file reaches its end. -/
theorem eofbit_readWord_nil (n old : Nat) :
    (readWord (n + 1) old (openStream [])).2.eofbit = true := by
  simp [readWord, readInto, extract, openStream]

end OrderbookEngine.Bytes
