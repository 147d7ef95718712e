import Mathlib.Tactic

/-!
# Lists grouped by a key

A grouping lists each key of a list once, with the elements that have the key.
Its groups hold every element once, in whatever order the groups stand.
-/

namespace OrderbookEngine

variable {α κ : Type*} [DecidableEq κ] {key : α → κ} {l : List α}
  {groups groups' : List (κ × List α)}

/-- One group for each key of the list, with the elements that have the key. -/
structure Groups (key : α → κ) (l : List α) (groups : List (κ × List α)) : Prop where
  nodup : (groups.map Prod.fst).Nodup
  mem_keys : ∀ k, k ∈ groups.map Prod.fst ↔ k ∈ l.map key
  elements : ∀ g ∈ groups, g.2 = l.filter fun x => key x = g.1

theorem Groups.nil (key : α → κ) : Groups key [] [] where
  nodup := List.nodup_nil
  mem_keys _ := Iff.rfl
  elements := by simp

/-- The order of the groups does not matter. -/
theorem Groups.perm (h : Groups key l groups) (hp : groups.Perm groups') :
    Groups key l groups' where
  nodup := (hp.map _).nodup_iff.mp h.nodup
  mem_keys k := by rw [← h.mem_keys, (hp.map _).mem_iff]
  elements g hg := h.elements g (hp.mem_iff.mpr hg)

/-- An element stands in a group exactly when it has the group's key. -/
theorem Groups.mem_iff (h : Groups key l groups) {g : κ × List α} (hg : g ∈ groups) {x : α} :
    x ∈ g.2 ↔ x ∈ l ∧ key x = g.1 := by
  rw [h.elements g hg, List.mem_filter, decide_eq_true_iff]

/-- No group is empty. -/
theorem Groups.ne_nil (h : Groups key l groups) {g : κ × List α} (hg : g ∈ groups) :
    g.2 ≠ [] := by
  obtain ⟨x, hx, hkey⟩ := List.mem_map.mp ((h.mem_keys g.1).mp (List.mem_map_of_mem hg))
  exact List.ne_nil_of_mem ((h.mem_iff hg).mpr ⟨hx, hkey⟩)

/-- Filtering by each of some keys that cover a list loses and repeats nothing. -/
theorem flatMap_filter_perm {keys : List κ} (hnd : keys.Nodup) (hkeys : ∀ x ∈ l, key x ∈ keys) :
    (keys.flatMap fun k => l.filter fun x => key x = k).Perm l := by
  induction keys generalizing l with
  | nil =>
    have : l = [] := List.eq_nil_iff_forall_not_mem.mpr fun x hx => List.not_mem_nil (hkeys x hx)
    simp [this]
  | cons k keys ih =>
    rw [List.nodup_cons] at hnd
    rw [List.flatMap_cons]
    have hrest : (keys.flatMap fun k' => l.filter fun x => key x = k') =
        keys.flatMap fun k' => (l.filter fun x => ¬ key x = k).filter fun x => key x = k' := by
      apply List.flatMap_congr
      intro k' hk'
      rw [List.filter_filter]
      apply List.filter_congr
      intro x _
      have hne : k' ≠ k := fun he => hnd.1 (he ▸ hk')
      by_cases hx : key x = k'
      · simp [hx, hne]
      · simp [hx]
    rw [hrest]
    have hcover : ∀ x ∈ l.filter fun x => ¬ key x = k, key x ∈ keys := by
      intro x hx
      obtain ⟨hx, hne⟩ := List.mem_filter.mp hx
      exact (List.mem_cons.mp (hkeys x hx)).resolve_left (by simpa using hne)
    refine ((ih hnd.2 hcover).append_left _).trans ?_
    simpa using List.filter_append_perm (fun x => decide (key x = k)) l

variable (key) in
/-- Summing by key over keys that reach every nonzero term sums the list. -/
theorem sum_by_key {β : Type*} [AddCommMonoid β] {keys : List κ} (hnd : keys.Nodup)
    {f : α → β} (hkeys : ∀ x ∈ l, key x ∉ keys → f x = 0) :
    (keys.map fun k => ((l.filter fun x => key x = k).map f).sum).sum = (l.map f).sum := by
  induction l with
  | nil => simp
  | cons x l ih =>
    have hrest := ih fun y hy => hkeys y (List.mem_cons_of_mem _ hy)
    have hsplit : ∀ k, (((x :: l).filter fun y => key y = k).map f).sum =
        (if key x = k then f x else 0) + ((l.filter fun y => key y = k).map f).sum := by
      intro k
      by_cases hk : key x = k <;> simp [hk]
    simp only [hsplit]
    rw [List.sum_map_add, hrest, List.map_cons, List.sum_cons]
    congr 1
    -- the first element counts under its own key only
    by_cases hmem : key x ∈ keys
    · obtain ⟨pre, post, rfl⟩ := List.append_of_mem hmem
      have hother : ∀ k ∈ pre ++ post, (if key x = k then f x else 0) = 0 := by
        intro k hk
        rw [List.nodup_middle, List.nodup_cons] at hnd
        have hne : key x ≠ k := by
          rintro rfl
          exact hnd.1 hk
        exact if_neg hne
      rw [List.map_append, List.map_cons, List.sum_append, List.sum_cons, if_pos rfl,
        List.sum_eq_zero, List.sum_eq_zero, zero_add, add_zero]
      · intro y hy
        obtain ⟨k, hk, rfl⟩ := List.mem_map.mp hy
        exact hother k (List.mem_append_right _ hk)
      · intro y hy
        obtain ⟨k, hk, rfl⟩ := List.mem_map.mp hy
        exact hother k (List.mem_append_left _ hk)
    · rw [hkeys x List.mem_cons_self hmem]
      apply List.sum_eq_zero
      intro y hy
      obtain ⟨k, hk, rfl⟩ := List.mem_map.mp hy
      exact ite_self _

/-- The groups hold every element of the list once. -/
theorem Groups.flatMap_perm (h : Groups key l groups) : (groups.flatMap Prod.snd).Perm l := by
  have hcongr : groups.flatMap Prod.snd =
      (groups.map Prod.fst).flatMap fun k => l.filter fun x => key x = k := by
    rw [List.flatMap_map]
    exact List.flatMap_congr h.elements
  rw [hcongr]
  exact flatMap_filter_perm h.nodup fun x hx => (h.mem_keys _).mpr (List.mem_map_of_mem hx)

/-- Another element goes to the end of the group of its key. -/
theorem Groups.snoc_of_mem (h : Groups key l groups) {x : α} (hx : key x ∈ groups.map Prod.fst) :
    Groups key (l ++ [x])
      (groups.map fun g => if g.1 = key x then (g.1, g.2 ++ [x]) else g) where
  nodup := by
    rw [List.map_map]
    convert h.nodup using 2
    funext g
    simp only [Function.comp_apply]
    split <;> rfl
  mem_keys k := by
    rw [List.map_append, List.mem_append, ← h.mem_keys, List.map_map]
    have hfst : (groups.map (Prod.fst ∘ fun g => if g.1 = key x then (g.1, g.2 ++ [x]) else g)) =
        groups.map Prod.fst := by
      apply List.map_congr_left
      intro g _
      simp only [Function.comp_apply]
      split <;> rfl
    rw [hfst]
    constructor
    · exact Or.inl
    · rintro (hk | hk)
      · exact hk
      · rw [List.mem_singleton.mp hk]
        exact hx
  elements := by
    intro g' hg'
    obtain ⟨g, hg, rfl⟩ := List.mem_map.mp hg'
    rw [List.filter_append]
    by_cases hk : g.1 = key x
    · simp only [hk, if_true, decide_true, List.filter_cons_of_pos, List.filter_nil]
      rw [h.elements g hg, hk]
    · simp [hk, Ne.symm hk, h.elements g hg]

/-- An element of a new key makes a group of its own. -/
theorem Groups.snoc_of_not_mem (h : Groups key l groups) {x : α}
    (hx : key x ∉ groups.map Prod.fst) :
    Groups key (l ++ [x]) (groups ++ [(key x, [x])]) where
  nodup := by
    simp only [List.map_append, List.map_cons, List.map_nil]
    rw [List.nodup_append]
    refine ⟨h.nodup, List.nodup_singleton _, fun k hk k' hk' he => ?_⟩
    rw [he, List.mem_singleton.mp hk'] at hk
    exact hx hk
  mem_keys k := by
    rw [List.map_append, List.map_append, List.mem_append, List.mem_append, h.mem_keys]
    rfl
  elements := by
    intro g hg
    rw [List.filter_append]
    rcases List.mem_append.mp hg with hg | hg
    · have hne : key x ≠ g.1 := fun he => hx (he ▸ List.mem_map_of_mem hg)
      simp [hne, h.elements g hg]
    · rw [List.mem_singleton.mp hg]
      have hnone : l.filter (fun y => key y = key x) = [] := by
        rw [List.filter_eq_nil_iff]
        intro y hy hk
        rw [decide_eq_true_iff] at hk
        exact hx ((h.mem_keys _).mpr (hk ▸ List.mem_map_of_mem hy))
      simp [hnone]

end OrderbookEngine
