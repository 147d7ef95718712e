import Mathlib.Tactic

/-!
# Best elements and the ends of sorted maps

A scan that keeps the better of two candidates and the head of a sorted list
both give a best element, and best elements agree in their key. A tree map's
first and last entries are the ends of its sorted list of entries.
-/

namespace OrderbookEngine

open Std.DTreeMap.Internal

section Ends

variable {κ ν : Type} {cmp : κ → κ → Ordering} (t : Std.TreeMap κ ν cmp)

/-- The first entry heads the list of entries. -/
theorem minEntry?_eq_head?_toList : t.minEntry? = t.toList.head? := by
  unfold Std.TreeMap.minEntry? Std.DTreeMap.Const.minEntry? Std.TreeMap.toList
    Std.DTreeMap.Const.toList
  rw [Impl.Const.toList_eq_toListModel_map]
  generalize t.inner.inner = x
  induction x using Impl.Const.minEntry?.induct with
  | case1 => simp [Impl.Const.minEntry?, Impl.toListModel]
  | case2 => simp [Impl.Const.minEntry?, Impl.toListModel]
  | case3 _ k v _ k' v' l r l' ih =>
    rw [Impl.Const.minEntry?, ih]
    simp [Impl.toListModel]

/-- The last entry ends the list of entries. -/
theorem maxEntry?_eq_getLast?_toList : t.maxEntry? = t.toList.getLast? := by
  unfold Std.TreeMap.maxEntry? Std.DTreeMap.Const.maxEntry? Std.TreeMap.toList
    Std.DTreeMap.Const.toList
  rw [Impl.Const.toList_eq_toListModel_map]
  generalize t.inner.inner = x
  induction x using Impl.Const.maxEntry?.induct with
  | case1 => simp [Impl.Const.maxEntry?, Impl.toListModel]
  | case2 => simp [Impl.Const.maxEntry?, Impl.toListModel]
  | case3 _ k v l _ k' v' l' r ih =>
    rw [Impl.Const.maxEntry?, ih]
    simp [Impl.toListModel, List.getLast?_append, List.getLast?_cons]

end Ends

section Best

variable {α β : Type*} [LinearOrder β] {f : α → β} {l l' : List α} {a b : Option α}

/-- An element of the list whose key no other exceeds, or none of an empty list. -/
def IsBest (f : α → β) (l : List α) : Option α → Prop
  | none => l = []
  | some b => b ∈ l ∧ ∀ x ∈ l, f x ≤ f b

/-- The better of two candidates, the first when their keys agree. -/
def betterOf (f : α → β) : Option α → Option α → Option α
  | best, none => best
  | none, some top => some top
  | some b, some top => if f b < f top then some top else some b

/-- The better of the best of two lists is the best of both. -/
theorem IsBest.append (ha : IsBest f l a) (hb : IsBest f l' b) :
    IsBest f (l ++ l') (betterOf f a b) := by
  cases a with
  | none =>
    rw [show l = [] from ha, List.nil_append]
    cases b with
    | none => exact hb
    | some b => exact hb
  | some a =>
    cases b with
    | none =>
      rw [show l' = [] from hb, List.append_nil]
      exact ha
    | some b =>
      simp only [betterOf]
      split
      · rename_i hlt
        refine ⟨List.mem_append_right l hb.1, fun x hx => ?_⟩
        rcases List.mem_append.mp hx with hx | hx
        · exact (ha.2 x hx).trans hlt.le
        · exact hb.2 x hx
      · rename_i hle
        refine ⟨List.mem_append_left l' ha.1, fun x hx => ?_⟩
        rcases List.mem_append.mp hx with hx | hx
        · exact ha.2 x hx
        · exact (hb.2 x hx).trans (not_lt.mp hle)

/-- A scan over groups, each with its best element, finds the best of all groups. -/
theorem IsBest.foldl_betterOf {γ : Type*} {top : γ → Option α} {group : γ → List α}
    (ha : IsBest f l a) {gs : List γ} (h : ∀ g ∈ gs, IsBest f (group g) (top g)) :
    IsBest f (l ++ gs.flatMap group) (gs.foldl (fun best g => betterOf f best (top g)) a) := by
  induction gs generalizing l a with
  | nil => simpa using ha
  | cons g gs ih =>
    rw [List.flatMap_cons, List.foldl_cons, ← List.append_assoc]
    exact ih (ha.append (h g List.mem_cons_self)) fun g' hg => h g' (List.mem_cons_of_mem g hg)

/-- The top of the first group whose top has the best key, or none when no group
has a top. -/
def IsFirstBest {γ : Type*} (f : α → β) (top : γ → Option α) (gs : List γ) : Option α → Prop
  | none => ∀ g ∈ gs, top g = none
  | some b => ∃ pre g post, gs = pre ++ g :: post ∧ top g = some b ∧
      (∀ g' ∈ pre, ∀ t, top g' = some t → f t < f b) ∧
      ∀ g' ∈ post, ∀ t, top g' = some t → f t ≤ f b

/-- Among equal keys a scan keeps the one that it saw first. -/
theorem isFirstBest_foldl {γ : Type*} (f : α → β) (top : γ → Option α) (gs : List γ) :
    IsFirstBest f top gs (gs.foldl (fun best g => betterOf f best (top g)) none) := by
  induction gs using List.reverseRecOn with
  | nil => exact fun g hg => absurd hg List.not_mem_nil
  | append_singleton gs g ih =>
    rw [List.foldl_append, List.foldl_cons, List.foldl_nil]
    cases hbest : gs.foldl (fun best g => betterOf f best (top g)) none with
    | none =>
      rw [hbest] at ih
      cases htop : top g with
      | none =>
        intro g' hg'
        rcases List.mem_append.mp hg' with hg' | hg'
        · exact ih g' hg'
        · rw [List.mem_singleton.mp hg']
          exact htop
      | some t =>
        refine ⟨gs, g, [], rfl, htop, fun g' hg' t' ht' => ?_, by simp⟩
        rw [ih g' hg'] at ht'
        cases ht'
    | some b =>
      rw [hbest] at ih
      obtain ⟨pre, g₀, post, rfl, hg₀, hpre, hpost⟩ := ih
      have hkeep (hle : ∀ t, top g = some t → f t ≤ f b) :
          IsFirstBest f top (pre ++ g₀ :: post ++ [g]) (some b) := by
        refine ⟨pre, g₀, post ++ [g], by simp, hg₀, hpre, fun g' hg' => ?_⟩
        rcases List.mem_append.mp hg' with hg' | hg'
        · exact hpost g' hg'
        · rw [List.mem_singleton.mp hg']
          exact hle
      cases htop : top g with
      | none => exact hkeep (by simp [htop])
      | some t =>
        rw [betterOf]
        split
        · rename_i hlt
          refine ⟨pre ++ g₀ :: post, g, [], rfl, htop, fun g' hg' t' ht' => ?_, by simp⟩
          rcases List.mem_append.mp hg' with hg' | hg'
          · exact (hpre g' hg' t' ht').trans hlt
          · rcases List.mem_cons.mp hg' with rfl | hg'
            · rw [hg₀] at ht'
              cases ht'
              exact hlt
            · exact (hpost g' hg' t' ht').trans_lt hlt
        · rename_i hle
          refine hkeep fun t' ht' => ?_
          rw [htop] at ht'
          cases ht'
          exact not_lt.mp hle

/-- Two best elements of a list agree in their key. -/
theorem IsBest.key_eq (ha : IsBest f l a) (hb : IsBest f l b) : a.map f = b.map f := by
  cases a with
  | none =>
    cases b with
    | none => rfl
    | some b => exact absurd (show l = [] from ha) (List.ne_nil_of_mem hb.1)
  | some a =>
    cases b with
    | none => exact absurd (show l = [] from hb) (List.ne_nil_of_mem ha.1)
    | some b => exact congrArg some (le_antisymm (hb.2 a ha.1) (ha.2 b hb.1))

theorem IsBest.eq_none_iff (ha : IsBest f l a) : a = none ↔ l = [] := by
  cases a with
  | none => exact iff_of_true rfl ha
  | some a => exact iff_of_false (Option.some_ne_none a) (List.ne_nil_of_mem ha.1)

/-- An element of the list is no better than the best. -/
theorem IsBest.exists_of_mem (ha : IsBest f l a) {x : α} (hx : x ∈ l) :
    ∃ b, a = some b ∧ f x ≤ f b := by
  cases a with
  | none => exact absurd (show l = [] from ha) (List.ne_nil_of_mem hx)
  | some b => exact ⟨b, rfl, ha.2 x hx⟩

/-- The order of the list does not matter. -/
theorem IsBest.perm (ha : IsBest f l a) (hp : l.Perm l') : IsBest f l' a := by
  cases a with
  | none =>
    rw [show l = [] from ha] at hp
    exact hp.nil_eq.symm
  | some a => exact ⟨hp.mem_iff.mp ha.1, fun x hx => ha.2 x (hp.mem_iff.mpr hx)⟩

/-- The head of a list sorted from the best on. -/
theorem isBest_head? (h : l.Pairwise fun x y => f y ≤ f x) : IsBest f l l.head? := by
  cases l with
  | nil => rfl
  | cons x l =>
    refine ⟨List.mem_cons_self, fun y hy => ?_⟩
    rcases List.mem_cons.mp hy with rfl | hy
    · exact le_refl _
    · exact List.rel_of_pairwise_cons h hy

/-- The end of a list sorted up to the best. -/
theorem isBest_getLast? (h : l.Pairwise fun x y => f x ≤ f y) : IsBest f l l.getLast? := by
  rw [← List.head?_reverse]
  exact (isBest_head? (List.pairwise_reverse.mpr h)).perm (List.reverse_perm l)

end Best

end OrderbookEngine
