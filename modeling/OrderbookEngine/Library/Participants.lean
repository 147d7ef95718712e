import Mathlib.Tactic

/-!
# Lists whose elements change one at a time

A list of participants in which one is replaced keeps the others. What does not depend on
the order, such as how many meet a condition, changes by what the one changes.
-/

namespace OrderbookEngine

variable {α β : Type*} {l : List α} {i : ℕ} {a : α}

/-- Replacing an element leaves the others. -/
theorem exists_perm_set (h : l[i]? = some a) :
    ∃ others, l.Perm (a :: others) ∧ ∀ b, (l.set i b).Perm (b :: others) := by
  obtain ⟨hi, rfl⟩ := List.getElem?_eq_some_iff.mp h
  refine ⟨l.take i ++ l.drop (i + 1), ?_, fun b => ?_⟩
  · calc
      l = l.take i ++ l[i] :: l.drop (i + 1) := by
        rw [List.getElem_cons_drop, List.take_append_drop]
      List.Perm _ (l[i] :: (l.take i ++ l.drop (i + 1))) := List.perm_middle
  · rw [List.set_eq_take_append_cons_drop, if_pos hi]
    exact List.perm_middle

/-- What the elements of a condition carry, when one comes to meet the condition. -/
theorem filter_set_perm {p : α → Bool} {f : α → β} (h : l[i]? = some a) (ha : p a = false)
    {b : α} (hb : p b = true) :
    (((l.set i b).filter p).map f).Perm (f b :: (l.filter p).map f) := by
  obtain ⟨others, hl, hset⟩ := exists_perm_set h
  have hold := (hl.filter p).map f
  have hnew := ((hset b).filter p).map f
  rw [List.filter_cons_of_neg (by simp [ha])] at hold
  rw [List.filter_cons_of_pos hb, List.map_cons] at hnew
  exact hnew.trans (hold.symm.cons _)

/-- What the elements of a condition carry, when one neither comes to meet it nor leaves it. -/
theorem filter_set_perm_self {p : α → Bool} {f : α → β} (h : l[i]? = some a) {b : α}
    (hp : p b = p a) (hf : f b = f a) :
    (((l.set i b).filter p).map f).Perm ((l.filter p).map f) := by
  obtain ⟨others, hl, hset⟩ := exists_perm_set h
  have hold := (hl.filter p).map f
  have hnew := ((hset b).filter p).map f
  have hsame : ((b :: others).filter p).map f = ((a :: others).filter p).map f := by
    simp only [List.filter_cons, hp]
    split
    · rw [List.map_cons, List.map_cons, hf]
    · rfl
  rw [hsame] at hnew
  exact hnew.trans hold.symm

/-- A sum in which the elements of a condition may gain one each. -/
theorem sum_map_le_add_countP {f g : α → ℕ} {p : α → Bool}
    (h : ∀ a ∈ l, f a ≤ g a + (p a).toNat) : (l.map f).sum ≤ (l.map g).sum + l.countP p := by
  induction l with
  | nil => exact Nat.le_refl 0
  | cons a l ih =>
    have ha := h a List.mem_cons_self
    have hl := ih fun b hb => h b (List.mem_cons_of_mem a hb)
    rw [List.map_cons, List.map_cons, List.sum_cons, List.sum_cons, List.countP_cons]
    cases hp : p a with
    | true =>
      rw [hp, Bool.toNat_true] at ha
      rw [if_pos rfl]
      omega
    | false =>
      rw [hp, Bool.toNat_false] at ha
      rw [if_neg Bool.false_ne_true]
      omega

end OrderbookEngine
