import Mathlib.Tactic

/-!
# Searching for substrings

The first position from a given one at which a pattern occurs.
-/

namespace OrderbookEngine.TextSearch

variable {α : Type*} [DecidableEq α]

/-- The first position from `pos` on at which `pattern` occurs in `s`. -/
def find (pattern s : List α) (pos : ℕ) : Option ℕ :=
  (List.range' pos (s.length + 1 - pos)).find? fun i => pattern.isPrefixOf (s.drop i)

/-- An occurrence lies behind the start and within the text. -/
theorem bounds_of_find {pattern s : List α} {pos i : ℕ} (h : find pattern s pos = some i) :
    pos ≤ i ∧ i + pattern.length ≤ s.length := by
  have hfound : pattern.isPrefixOf (s.drop i) = true :=
    List.find?_some (p := fun i => pattern.isPrefixOf (s.drop i)) h
  have hlen := (List.isPrefixOf_iff_prefix.mp hfound).length_le
  have hmem := List.mem_range'_1.mp (List.mem_of_find?_eq_some h)
  rw [List.length_drop] at hlen
  omega

/-- The first position is one with an occurrence, and no earlier one has any. -/
theorem find_eq_some_iff {pattern s : List α} {pos i : ℕ} :
    find pattern s pos = some i ↔ pos ≤ i ∧ i ≤ s.length ∧ pattern <+: s.drop i ∧
      ∀ j, pos ≤ j → j < i → ¬ pattern <+: s.drop j := by
  unfold find
  rw [List.find?_range'_eq_some, List.isPrefixOf_iff_prefix, List.mem_range'_1]
  simp only [Bool.not_eq_true', Bool.eq_false_iff, ne_eq, List.isPrefixOf_iff_prefix]
  constructor
  · rintro ⟨hoccurs, hrange, hfirst⟩
    exact ⟨hrange.1, by omega, hoccurs, hfirst⟩
  · rintro ⟨hpos, hlen, hoccurs, hfirst⟩
    exact ⟨hoccurs, by omega, hfirst⟩

theorem find_eq_none_iff {pattern s : List α} {pos : ℕ} :
    find pattern s pos = none ↔ ∀ j, pos ≤ j → j ≤ s.length → ¬ pattern <+: s.drop j := by
  unfold find
  rw [List.find?_range'_eq_none]
  simp only [Bool.not_eq_true', Bool.eq_false_iff, ne_eq, List.isPrefixOf_iff_prefix]
  constructor
  · exact fun h j hpos hlen => h j hpos (by omega)
  · exact fun h j hpos hlt => h j hpos (by omega)

/-- What lies in front of the start does not matter. -/
theorem find_append (pattern front s : List α) (pos : ℕ) :
    find pattern (front ++ s) (front.length + pos) =
      (find pattern s pos).map (front.length + ·) := by
  have hdrop : ∀ j, (front ++ s).drop (front.length + j) = s.drop j := by
    intro j
    rw [← List.drop_drop, List.drop_left]
  cases hfind : find pattern s pos with
  | none =>
    refine find_eq_none_iff.mpr fun j hpos hlen => ?_
    obtain ⟨k, rfl⟩ := Nat.exists_eq_add_of_le (Nat.le_of_add_right_le hpos)
    rw [hdrop]
    rw [List.length_append] at hlen
    exact find_eq_none_iff.mp hfind k (by omega) (by omega)
  | some i =>
    obtain ⟨hpos, hlen, hoccurs, hfirst⟩ := find_eq_some_iff.mp hfind
    have hi : front.length + i ≤ (front ++ s).length := by
      rw [List.length_append]
      omega
    refine find_eq_some_iff.mpr
      ⟨Nat.add_le_add_left hpos _, hi, by rwa [hdrop], fun j hge hlt => ?_⟩
    obtain ⟨k, rfl⟩ := Nat.exists_eq_add_of_le (Nat.le_of_add_right_le hge)
    rw [hdrop]
    exact hfirst k (Nat.le_of_add_le_add_left hge) (Nat.lt_of_add_lt_add_left hlt)

/-- The text in front of an occurrence, the occurrence, and the text behind it. -/
theorem eq_append_of_find {pattern s : List α} {pos i : ℕ} (h : find pattern s pos = some i) :
    s = s.take i ++ pattern ++ s.drop (i + pattern.length) := by
  obtain ⟨-, -, ⟨rest, hrest⟩, -⟩ := find_eq_some_iff.mp h
  have hbehind : s.drop (i + pattern.length) = rest := by
    rw [← List.drop_drop, ← hrest, List.drop_left]
  rw [hbehind, List.append_assoc, hrest, List.take_append_drop]

/-- A text that starts with the pattern. -/
theorem find_prefix (pattern rest : List α) : find pattern (pattern ++ rest) 0 = some 0 :=
  find_eq_some_iff.mpr ⟨le_rfl, Nat.zero_le _, List.prefix_append pattern rest,
    fun _ _ hlt => absurd hlt (Nat.not_lt_zero _)⟩

omit [DecidableEq α] in
theorem singleton_prefix_drop {c : α} {s : List α} {j : ℕ} : [c] <+: s.drop j ↔ s[j]? = some c := by
  constructor
  · rintro ⟨rest, hrest⟩
    rw [← List.head?_drop, ← hrest]
    rfl
  · intro h
    obtain ⟨hlt, rfl⟩ := List.getElem?_eq_some_iff.mp h
    rw [List.drop_eq_getElem_cons hlt]
    exact ⟨_, rfl⟩

/-- A letter is found behind the letters before it. -/
theorem find_singleton {c : α} {s front rest : List α} (pos : ℕ)
    (h : s.drop pos = front ++ c :: rest) (hfront : c ∉ front) :
    find [c] s pos = some (pos + front.length) := by
  have hat : ∀ k, s[pos + k]? = (front ++ c :: rest)[k]? := by
    intro k
    rw [← h, List.getElem?_drop]
  have hfound : s[pos + front.length]? = some c := by
    rw [hat, List.getElem?_append_right le_rfl, Nat.sub_self]
    rfl
  have hlt := (List.getElem?_eq_some_iff.mp hfound).1
  refine find_eq_some_iff.mpr ⟨Nat.le_add_right _ _, hlt.le, singleton_prefix_drop.mpr hfound,
    fun j hpos hlt' hoccurs => hfront ?_⟩
  obtain ⟨k, rfl⟩ := Nat.exists_eq_add_of_le hpos
  have hbefore := singleton_prefix_drop.mp hoccurs
  rw [hat, List.getElem?_append_left (by omega)] at hbefore
  exact List.mem_of_getElem? hbefore

theorem find_singleton_eq_none {c : α} {s : List α} (pos : ℕ) (h : c ∉ s.drop pos) :
    find [c] s pos = none := by
  refine find_eq_none_iff.mpr fun j hpos _ hoccurs => h ?_
  have hat : (s.drop pos)[j - pos]? = some c := by
    rw [List.getElem?_drop, Nat.add_sub_cancel' hpos]
    exact singleton_prefix_drop.mp hoccurs
  exact List.mem_of_getElem? hat

/-- A text splits at the first place where it has a letter. -/
theorem eq_takeWhile_append {c : α} {s : List α} (h : c ∈ s) :
    ∃ rest, s = s.takeWhile (· ≠ c) ++ c :: rest := by
  induction s with
  | nil => cases h
  | cons d s ih =>
    by_cases hd : d = c
    · exact ⟨s, by simp [hd]⟩
    · obtain ⟨rest, hrest⟩ := ih ((List.mem_cons.mp h).resolve_left (Ne.symm hd))
      refine ⟨rest, ?_⟩
      rw [List.takeWhile_cons_of_pos (by simpa using hd), List.cons_append, ← hrest]

theorem not_mem_takeWhile_ne (c : α) (s : List α) : c ∉ s.takeWhile (· ≠ c) := by
  intro h
  simpa using List.all_eq_true.mp List.all_takeWhile c h

/-- A letter is not found among others. -/
theorem find_singleton_append {c : α} {front : List α} (hfront : c ∉ front) (s : List α) :
    find [c] (front ++ s) 0 = (find [c] s 0).map (front.length + ·) := by
  by_cases hmem : c ∈ s
  · obtain ⟨rest, hrest⟩ := eq_takeWhile_append hmem
    have hs := find_singleton 0 hrest (not_mem_takeWhile_ne c s)
    have hfrontWhile : c ∉ front ++ s.takeWhile (· ≠ c) := fun h =>
      (List.mem_append.mp h).elim hfront (not_mem_takeWhile_ne c s)
    have happend : (front ++ s).drop 0 = (front ++ s.takeWhile (· ≠ c)) ++ c :: rest := by
      rw [List.drop_zero, List.append_assoc, ← hrest]
    rw [find_singleton 0 happend hfrontWhile, hs, List.length_append]
    simp
  · have hnone : c ∉ (front ++ s).drop 0 := fun h => (List.mem_append.mp h).elim hfront hmem
    have hs : find [c] s 0 = none := find_singleton_eq_none 0 hmem
    rw [find_singleton_eq_none 0 hnone, hs]
    rfl

theorem takeWhile_ne_eq_self {c : α} {s : List α} (h : c ∉ s) : s.takeWhile (· ≠ c) = s := by
  induction s with
  | nil => rfl
  | cons d s ih =>
    have hd : d ≠ c := fun hd => h (hd ▸ List.mem_cons_self)
    rw [List.takeWhile_cons_of_pos (by simpa using hd), ih fun hs => h (List.mem_cons_of_mem d hs)]

theorem find_ne_none_of_occurs {pattern s : List α} (h : pattern <:+: s) :
    find pattern s 0 ≠ none := by
  obtain ⟨front, rest, rfl⟩ := h
  intro hnone
  refine find_eq_none_iff.mp hnone front.length (Nat.zero_le _) ?_ ?_
  · simp only [List.length_append]
    omega
  · rw [List.append_assoc, List.drop_left]
    exact List.prefix_append pattern rest

/-- What stands in front of the first separator behind a text without one is a part. -/
theorem append_takeWhile_mem_splitOn {c : α} {front : List α} (hfront : c ∉ front)
    (s : List α) : front ++ s.takeWhile (· ≠ c) ∈ (front ++ s).splitOn c := by
  have hpart : c ∉ front ++ s.takeWhile (· ≠ c) := fun h =>
    (List.mem_append.mp h).elim hfront (not_mem_takeWhile_ne c s)
  by_cases hmem : c ∈ s
  · obtain ⟨rest, hrest⟩ := eq_takeWhile_append hmem
    have hsplit : front ++ s = (front ++ s.takeWhile (· ≠ c)) ++ c :: rest := by
      rw [List.append_assoc, ← hrest]
    rw [hsplit, List.splitOn_append_cons_self_of_not_mem hpart]
    exact List.mem_cons_self
  · rw [takeWhile_ne_eq_self hmem] at hpart ⊢
    rw [List.splitOn_eq_singleton hpart]
    exact List.mem_singleton_self _

omit [DecidableEq α] in
theorem infix_intercalate {part : List α} (separator : List α) {parts : List (List α)}
    (h : part ∈ parts) : part <:+: separator.intercalate parts := by
  induction parts with
  | nil => cases h
  | cons first parts ih =>
    cases parts with
    | nil =>
      rw [List.mem_singleton.mp h, List.intercalate_singleton]
    | cons second parts =>
      rw [List.intercalate_cons_cons]
      obtain rfl | h := List.mem_cons.mp h
      · exact ((List.prefix_append _ _).trans (List.prefix_append _ _)).isInfix
      · exact (ih h).trans (List.suffix_append _ _).isInfix

theorem infix_of_mem_splitOn {c : α} {part s : List α} (h : part ∈ s.splitOn c) :
    part <:+: s := by
  have hoccurs := infix_intercalate [c] h
  rwa [List.intercalate_splitOn] at hoccurs

omit [DecidableEq α] in
theorem intercalate_cons (c : α) (part : List α) {others : List (List α)} (h : others ≠ []) :
    [c].intercalate (part :: others) = part ++ c :: [c].intercalate others := by
  obtain ⟨other, others, rfl⟩ := List.exists_cons_of_ne_nil h
  rw [List.intercalate_cons_cons, List.append_assoc, List.singleton_append]

omit [DecidableEq α] in
theorem intercalate_append (c : α) {parts others : List (List α)} (hparts : parts ≠ [])
    (hothers : others ≠ []) : [c].intercalate (parts ++ others) =
      [c].intercalate parts ++ c :: [c].intercalate others := by
  induction parts with
  | nil => exact absurd rfl hparts
  | cons part parts ih =>
    cases parts with
    | nil => rw [List.singleton_append, intercalate_cons c part hothers, List.intercalate_singleton]
    | cons next parts =>
      have hmore : next :: parts ++ others ≠ [] := List.cons_ne_nil _ _
      rw [List.cons_append, intercalate_cons c part hmore, ih (List.cons_ne_nil _ _),
        intercalate_cons c part (List.cons_ne_nil _ _), List.append_assoc, List.cons_append]

/-- A text stands between two separators if it is a part, and neither the first nor the last. -/
theorem infix_iff_mem_splitOn {c : α} {part s : List α} (hpart : c ∉ part) :
    c :: (part ++ [c]) <:+: s ↔ part ∈ (s.splitOn c).tail.dropLast := by
  constructor
  · rintro ⟨front, rest, rfl⟩
    have hsplit : (front ++ c :: (part ++ [c]) ++ rest).splitOn c =
        front.splitOn c ++ part :: rest.splitOn c := by
      rw [List.append_assoc, List.cons_append, List.append_assoc, List.singleton_append,
        List.splitOn_append_cons_self, List.splitOn_append_cons_self_of_not_mem hpart]
    rw [hsplit, List.tail_append_of_ne_nil (List.splitOn_ne_nil _ _),
      List.dropLast_append_of_ne_nil (List.cons_ne_nil _ _),
      List.dropLast_cons_of_ne_nil (List.splitOn_ne_nil _ _)]
    exact List.mem_append_right _ List.mem_cons_self
  · intro h
    obtain ⟨first, more, hmore⟩ := List.exists_cons_of_ne_nil (List.splitOn_ne_nil c s)
    rw [hmore, List.tail_cons] at h
    obtain ⟨before, behind, hdrop⟩ := List.append_of_mem h
    have hne : more ≠ [] := by
      rintro rfl
      cases h
    obtain ⟨last, hlast⟩ : ∃ last, more = more.dropLast ++ [last] :=
      ⟨_, (List.dropLast_append_getLast hne).symm⟩
    have hsplit : s.splitOn c = (first :: before) ++ part :: (behind ++ [last]) := by
      rw [hmore, hlast, hdrop, List.append_assoc]
      rfl
    have htext : [c].intercalate (s.splitOn c) = s := List.intercalate_splitOn c
    rw [hsplit, intercalate_append c (List.cons_ne_nil _ _) (List.cons_ne_nil _ _)] at htext
    obtain ⟨second, others, hothers⟩ :=
      List.exists_cons_of_ne_nil (List.append_ne_nil_of_right_ne_nil behind
        (List.cons_ne_nil last []))
    rw [hothers, List.intercalate_cons_cons] at htext
    refine ⟨[c].intercalate (first :: before), [c].intercalate (second :: others), ?_⟩
    rw [← htext]
    simp

end OrderbookEngine.TextSearch
