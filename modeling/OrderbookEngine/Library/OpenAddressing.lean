import Mathlib.Tactic

/-!
# Open addressing

A table stores each key in one of its cells, and a search follows the probe path of
a key until it meets the key or an empty cell. Storing a key in the first empty cell
of its path keeps every search sound; emptying a cell does so exactly when no other
path passes that cell before it reaches its key.
-/

namespace OrderbookEngine.OpenAddressing

variable {κ ι : Type*} {path : κ → ℕ → ι} {n : ℕ} {empty key : κ} {cells : ι → κ}

/-- The path of the key meets it within `n` probes and no empty cell before it. -/
def Reached (path : κ → ℕ → ι) (n : ℕ) (empty : κ) (cells : ι → κ) (key : κ) : Prop :=
  ∃ j < n, cells (path key j) = key ∧ ∀ i < j, cells (path key i) ≠ empty

/-- Every stored key stands in one cell, where a search reaches it. -/
structure Sound (path : κ → ℕ → ι) (n : ℕ) (empty : κ) (cells : ι → κ) : Prop where
  inj : ∀ c c', cells c ≠ empty → cells c' = cells c → c' = c
  reached : ∀ c, cells c ≠ empty → Reached path n empty cells (cells c)

/-- No path of a stored key passes the cell before it meets the key. -/
def PassedByNone (path : κ → ℕ → ι) (n : ℕ) (empty : κ) (cells : ι → κ) (c : ι) : Prop :=
  ∀ key ≠ empty, ∀ j < n, cells (path key j) = key → ∀ i < j, path key i ≠ c

theorem sound_of_empty (h : ∀ c, cells c = empty) : Sound path n empty cells :=
  ⟨fun c _ hc => absurd (h c) hc, fun c hc => absurd (h c) hc⟩

/-- A cell that stores a key lies on the path of the key. -/
theorem Sound.exists_path_eq (h : Sound path n empty cells) {c : ι} (hc : cells c ≠ empty) :
    ∃ j < n, path (cells c) j = c := by
  obtain ⟨j, hj, hat, -⟩ := h.reached c hc
  exact ⟨j, hj, h.inj c _ hc hat⟩

section Edits

variable [DecidableEq ι]

/-- A key that is still stored is still reached when no cell before it was emptied. -/
theorem Reached.update {c : ι} {stored : κ} (h : Reached path n empty cells key)
    (hkey : stored = key ∨ ∀ j < n, cells (path key j) = key → path key j ≠ c)
    (hpath : stored ≠ empty ∨ ∀ j < n, cells (path key j) = key → ∀ i < j, path key i ≠ c) :
    Reached path n empty (Function.update cells c stored) key := by
  obtain ⟨j, hj, hat, hbefore⟩ := h
  refine ⟨j, hj, ?_, fun i hi => ?_⟩
  · by_cases he : path key j = c
    · rw [he, Function.update_self]
      exact hkey.resolve_right fun hne => hne j hj hat he
    · rwa [Function.update_of_ne he]
  · by_cases he : path key i = c
    · rw [he, Function.update_self]
      exact hpath.resolve_right fun hne => hne j hj hat i hi he
    · rw [Function.update_of_ne he]
      exact hbefore i hi

/-- A new key may be stored in the first empty cell of its path. -/
theorem Sound.fill (h : Sound path n empty cells) (hkey : key ≠ empty)
    (hnew : ∀ c, cells c ≠ key) {j : ℕ} (hj : j < n) (hempty : cells (path key j) = empty)
    (hbefore : ∀ i < j, cells (path key i) ≠ empty) :
    Sound path n empty (Function.update cells (path key j) key) := by
  have hother : ∀ {c}, c ≠ path key j →
      Function.update cells (path key j) key c = cells c := fun hc => Function.update_of_ne hc ..
  have hself : Function.update cells (path key j) key (path key j) = key :=
    Function.update_self ..
  constructor
  · intro c c' hc he
    by_cases hcj : c = path key j <;> by_cases hcj' : c' = path key j
    · rw [hcj, hcj']
    · rw [hother hcj', hcj, hself] at he
      exact absurd he (hnew c')
    · rw [hcj', hself, hother hcj] at he
      exact absurd he.symm (hnew c)
    · rw [hother hcj] at hc he
      rw [hother hcj'] at he
      exact h.inj c c' hc he
  · intro c hc
    by_cases hcj : c = path key j
    · rw [hcj, hself]
      refine ⟨j, hj, hself, fun i hi => ?_⟩
      have hne : path key i ≠ path key j := fun he => hbefore i hi (he ▸ hempty)
      rw [hother hne]
      exact hbefore i hi
    · rw [hother hcj] at hc ⊢
      refine (h.reached c hc).update (Or.inr fun i _ hat he => ?_) (Or.inl hkey)
      exact hc (hat.symm.trans (he ▸ hempty))

/-- A cell that no path passes may be emptied. -/
theorem Sound.vacate (h : Sound path n empty cells) {c : ι}
    (hpassed : PassedByNone path n empty cells c) :
    Sound path n empty (Function.update cells c empty) := by
  have hother : ∀ {d}, Function.update cells c empty d ≠ empty →
      d ≠ c ∧ Function.update cells c empty d = cells d := by
    intro d hd
    have hne : d ≠ c := by
      rintro rfl
      exact hd (Function.update_self ..)
    exact ⟨hne, Function.update_of_ne hne ..⟩
  constructor
  · intro d d' hd he
    have hd' := hother (he.trans_ne hd)
    rw [hd'.2, (hother hd).2] at he
    rw [(hother hd).2] at hd
    exact h.inj d d' hd he
  · intro d hd
    obtain ⟨hne, hsame⟩ := hother hd
    rw [hsame] at hd ⊢
    refine (h.reached d hd).update (Or.inr fun j _ hat he => ?_) (Or.inr (hpassed _ hd))
    exact hne ((h.inj d _ hd hat).symm.trans he)

/-- A key whose path passes an emptied cell is not reached any more. -/
theorem Sound.not_reached (h : Sound path n empty cells) {c : ι} (hkey : key ≠ empty)
    (hpath : Set.InjOn (path key) (Set.Iio n)) {i j : ℕ} (hij : i < j) (hj : j < n)
    (hat : cells (path key j) = key) (hpass : path key i = c) :
    ¬ Reached path n empty (Function.update cells c empty) key := by
  rintro ⟨k, hk, hfound, hbefore⟩
  have hne : path key k ≠ c := by
    intro he
    rw [he, Function.update_self] at hfound
    exact hkey hfound.symm
  rw [Function.update_of_ne hne] at hfound
  have hcell : path key k = path key j := h.inj _ _ (hat.trans_ne hkey) (hfound.trans hat.symm)
  have hkj : k = j := hpath hk hj hcell
  apply hbefore i (hkj ▸ hij)
  rw [hpass, Function.update_self]

end Edits

end OrderbookEngine.OpenAddressing
