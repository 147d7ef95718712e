import Mathlib.Data.List.Sort
import Mathlib.Tactic

/-!
# Order statistics of a list

The k-th smallest entry of a list satisfies a property that smaller entries inherit
exactly when at least k entries do, so that an order statistic can be found by
counting.
-/

namespace OrderbookEngine.OrderStatistic

variable {α : Type*} (r : α → α → Prop) [DecidableRel r]

/-- The entry of rank `k`, counted from one, when the list is sorted. -/
def kthSmallest (l : List α) (k : ℕ) : Option α := (l.insertionSort r)[k - 1]?

variable {r} {l : List α} {k : ℕ} {v : α}

theorem mem_of_kthSmallest (h : kthSmallest r l k = some v) : v ∈ l :=
  (List.mem_insertionSort r).mp (List.mem_of_getElem? h)

theorem exists_kthSmallest (hk : 1 ≤ k) (hle : k ≤ l.length) : ∃ v, kthSmallest r l k = some v := by
  have hlt : k - 1 < (l.insertionSort r).length := by
    rw [List.length_insertionSort]
    omega
  exact ⟨_, List.getElem?_eq_getElem hlt⟩

omit [DecidableRel r] in
/-- In a sorted list the entries with a property that smaller ones inherit come first. -/
theorem holds_iff_lt_countP {p : α → Bool} (hp : ∀ a b, r a b → p b → p a)
    (hl : l.Pairwise r) {i : ℕ} (hi : l[i]? = some v) : p v ↔ i < l.countP p := by
  induction l generalizing i with
  | nil => cases hi
  | cons x l ih =>
    obtain ⟨hx, hl⟩ := List.pairwise_cons.mp hl
    by_cases hpx : p x
    · rw [List.countP_cons_of_pos hpx]
      cases i with
      | zero =>
        obtain rfl : x = v := Option.some.inj hi
        exact iff_of_true hpx (Nat.succ_pos _)
      | succ i => exact (ih hl hi).trans Nat.succ_lt_succ_iff.symm
    · have hnone : l.countP p = 0 :=
        List.countP_eq_zero.mpr fun y hy hpy => hpx (hp x y (hx y hy) hpy)
      rw [List.countP_cons_of_neg hpx, hnone]
      refine iff_of_false (fun hpv => hpx ?_) (Nat.not_lt_zero i)
      cases i with
      | zero =>
        obtain rfl : x = v := Option.some.inj hi
        exact hpv
      | succ i => exact hp x v (hx v (List.mem_of_getElem? hi)) hpv

variable [Std.Total r] [IsTrans α r]

/-- The k-th smallest entry has a property that smaller ones inherit exactly when at least
`k` entries have it. -/
theorem kthSmallest_iff_le_countP {p : α → Bool} (hp : ∀ a b, r a b → p b → p a) (hk : 1 ≤ k)
    (h : kthSmallest r l k = some v) : p v ↔ k ≤ l.countP p := by
  have hsorted := List.pairwise_insertionSort r l
  rw [holds_iff_lt_countP hp hsorted h, (List.perm_insertionSort r l).countP_eq]
  omega

/-- Entries of higher rank are no smaller. -/
theorem kthSmallest_mono {k' : ℕ} {v' : α} (hk : 1 ≤ k) (hle : k ≤ k')
    (h : kthSmallest r l k = some v) (h' : kthSmallest r l k' = some v') : r v v' := by
  have hdown : ∀ a b, r a b → decide (r b v') = true → decide (r a v') = true := by
    intro a b hab hb
    exact decide_eq_true (IsTrans.trans a b v' hab (of_decide_eq_true hb))
  have hcount := (kthSmallest_iff_le_countP hdown (hk.trans hle) h').mp
    (decide_eq_true (refl_of r v'))
  exact of_decide_eq_true ((kthSmallest_iff_le_countP hdown hk h).mpr (hle.trans hcount))

end OrderbookEngine.OrderStatistic
