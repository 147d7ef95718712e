import Mathlib.Tactic

/-!
# What the C++ standard leaves to the library

`std::sort` may return equivalent elements in any order, and an unordered
container may be iterated in any order. Results stated for every `StdChoices`
hold for every conforming library.
-/

namespace OrderbookEngine

/-- A strict weak order, as `std::sort` requires of its comparator. -/
structure StrictWeak {α : Type*} (lt : α → α → Bool) : Prop where
  irrefl : ∀ a, lt a a = false
  trans : ∀ a b c, lt a b = true → lt b c = true → lt a c = true
  transIncomp : ∀ a b c, lt a b = false → lt b c = false → lt a c = false

/-- Comparing by a key in a linear order is a strict weak order. -/
theorem strictWeak_lt {α β : Type*} [LinearOrder β] (f : α → β) :
    StrictWeak fun a b => decide (f a < f b) where
  irrefl := by simp
  trans a b c := by simpa using lt_trans
  transIncomp a b c := by
    simp only [decide_eq_false_iff_not, not_lt]
    exact fun h h' => le_trans h' h

theorem strictWeak_gt {α β : Type*} [LinearOrder β] (f : α → β) :
    StrictWeak fun a b => decide (f b < f a) where
  irrefl := by simp
  trans a b c := by
    simp only [decide_eq_true_eq]
    exact fun h h' => lt_trans h' h
  transIncomp a b c := by
    simp only [decide_eq_false_iff_not, not_lt]
    exact fun h h' => le_trans h h'

/-- One library's `std::sort` and unordered iteration. -/
structure StdChoices where
  sort {α : Type} (lt : α → α → Bool) (l : List α) : List α
  sort_perm {α : Type} (lt : α → α → Bool) (l : List α) : (sort lt l).Perm l
  sort_sorted {α : Type} {lt : α → α → Bool} (h : StrictWeak lt) (l : List α) :
    (sort lt l).Pairwise fun a b => lt b a = false
  /-- The iteration order of keys that were inserted in the given order. -/
  iterate {α : Type} (l : List α) : List α
  iterate_perm {α : Type} (l : List α) : (iterate l).Perm l

namespace StdChoices

/-- The choices of a library that sorts by insertion and iterates in insertion order. -/
def stable : StdChoices where
  sort lt l := l.insertionSort fun a b => lt b a = false
  sort_perm _ l := List.perm_insertionSort _ l
  sort_sorted {α lt} h l := by
    have : Std.Total fun a b : α => lt b a = false := ⟨fun a b => by
      by_contra hc
      simp only [not_or, Bool.not_eq_false] at hc
      have := h.trans a b a hc.2 hc.1
      simp [h.irrefl] at this⟩
    have : IsTrans α fun a b => lt b a = false :=
      ⟨fun a b c hab hbc => h.transIncomp c b a hbc hab⟩
    exact List.pairwise_insertionSort _ l
  iterate l := l
  iterate_perm _ := List.Perm.refl _

variable (std : StdChoices) {α : Type}

@[simp] theorem mem_sort {lt : α → α → Bool} {l : List α} {a : α} :
    a ∈ std.sort lt l ↔ a ∈ l := (std.sort_perm lt l).mem_iff

@[simp] theorem mem_iterate {l : List α} {a : α} : a ∈ std.iterate l ↔ a ∈ l :=
  (std.iterate_perm l).mem_iff

end StdChoices

end OrderbookEngine
