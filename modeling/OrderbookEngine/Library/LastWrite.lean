import Mathlib.Tactic

/-!
# Last-write maps and the lists that hold them

The meaning of a keyed store is the map that its last writes built. A list of
entries holds such a map when it lists every binding once and nothing else; the
lemmas say which list edits follow which writes.
-/

namespace OrderbookEngine

/-- The value last written under each key, if it was not deleted since. -/
abbrev LastWrite (κ ν : Type*) := κ → Option ν

namespace LastWrite

variable {κ ν : Type*}

/-- The map before any write. -/
def empty : LastWrite κ ν := fun _ => none

/-- Write a binding, or delete one when there is no value. -/
def write [DecidableEq κ] (m : LastWrite κ ν) (k : κ) (v : Option ν) : LastWrite κ ν :=
  Function.update m k v

@[simp] theorem empty_apply (k : κ) : (empty : LastWrite κ ν) k = none := rfl

@[simp] theorem write_self [DecidableEq κ] (m : LastWrite κ ν) (k : κ) (v : Option ν) :
    m.write k v k = v := Function.update_self ..

theorem write_of_ne [DecidableEq κ] (m : LastWrite κ ν) {k k' : κ} (v : Option ν) (h : k' ≠ k) :
    m.write k v k' = m k' := Function.update_of_ne h ..

/-- Deleting what is not there changes nothing. -/
theorem write_none_of_none [DecidableEq κ] {m : LastWrite κ ν} {k : κ} (h : m k = none) :
    m.write k none = m := by
  ext1 k'
  by_cases he : k' = k
  · rw [he, write_self, h]
  · exact write_of_ne m none he

/-- At most `n` keys are bound. -/
def AtMost (n : Nat) (m : LastWrite κ ν) : Prop :=
  ∃ keys : List κ, keys.length ≤ n ∧ ∀ k v, m k = some v → k ∈ keys

/-- Distinct bound keys are no more than the map may bind. -/
theorem AtMost.length_le {n : Nat} {m : LastWrite κ ν} (h : AtMost n m) {ks : List κ}
    (hn : ks.Nodup) (hb : ∀ k ∈ ks, ∃ v, m k = some v) : ks.length ≤ n := by
  obtain ⟨keys, hlen, hkeys⟩ := h
  refine le_trans (hn.subperm fun k hk => ?_).length_le hlen
  obtain ⟨v, hv⟩ := hb k hk
  exact hkeys k v hv

/-- Writing a bound key, or deleting one, binds no more keys. -/
theorem AtMost.write [DecidableEq κ] {n : Nat} {m : LastWrite κ ν} (h : AtMost n m) {k : κ}
    {v : Option ν} (hk : m k ≠ none ∨ v = none) : AtMost n (m.write k v) := by
  obtain ⟨keys, hlen, hkeys⟩ := h
  refine ⟨keys, hlen, fun k' v' hv => ?_⟩
  by_cases he : k' = k
  · subst he
    rw [write_self] at hv
    obtain ⟨w, hw⟩ := Option.ne_none_iff_exists'.mp (hk.resolve_right (by simp [hv]))
    exact hkeys k' w hw
  · rw [write_of_ne _ _ he] at hv
    exact hkeys k' v' hv

/-- Writing a key binds at most one more. -/
theorem AtMost.write_succ [DecidableEq κ] {n : Nat} {m : LastWrite κ ν} (h : AtMost n m) (k : κ)
    (v : Option ν) : AtMost (n + 1) (m.write k v) := by
  obtain ⟨keys, hlen, hkeys⟩ := h
  refine ⟨k :: keys, Nat.succ_le_succ hlen, fun k' v' hv => ?_⟩
  by_cases he : k' = k
  · exact he ▸ List.mem_cons_self
  · rw [write_of_ne _ _ he] at hv
    exact List.mem_cons_of_mem k (hkeys k' v' hv)

/-- The list shows each binding of the map exactly once. -/
structure Lists (l : List (κ × ν)) (m : LastWrite κ ν) : Prop where
  /-- No key occurs twice. -/
  nodup : (l.map Prod.fst).Nodup
  /-- The entries are the bindings. -/
  mem_iff : ∀ k v, (k, v) ∈ l ↔ m k = some v

theorem lists_nil : Lists [] (empty : LastWrite κ ν) := ⟨List.nodup_nil, by simp⟩

/-- The order of the entries does not matter. -/
theorem Lists.perm {l l' : List (κ × ν)} {m : LastWrite κ ν} (h : Lists l m) (hp : l'.Perm l) :
    Lists l' m :=
  ⟨(hp.map Prod.fst).nodup_iff.mpr h.nodup, fun k v => hp.mem_iff.trans (h.mem_iff k v)⟩

/-- A key without an entry is unbound. -/
theorem Lists.eq_none {l : List (κ × ν)} {m : LastWrite κ ν} (h : Lists l m) {k : κ}
    (hk : k ∉ l.map Prod.fst) : m k = none := by
  cases hm : m k with
  | none => rfl
  | some v => exact absurd (List.mem_map_of_mem ((h.mem_iff k v).mpr hm)) hk

/-- A list of a map is as long as the map has bindings. -/
theorem Lists.atMost_iff {l : List (κ × ν)} {m : LastWrite κ ν} (h : Lists l m) (n : Nat) :
    AtMost n m ↔ l.length ≤ n := by
  constructor
  · intro hmost
    have hlen := hmost.length_le h.nodup fun k hk => by
      obtain ⟨⟨k, v⟩, hx, rfl⟩ := List.mem_map.mp hk
      exact ⟨v, (h.mem_iff k v).mp hx⟩
    rwa [List.length_map] at hlen
  · intro hlen
    refine ⟨l.map Prod.fst, ?_, fun k v hv => ?_⟩
    · rwa [List.length_map]
    · exact List.mem_map_of_mem ((h.mem_iff k v).mpr hv)

/-- The map of the first entry of each key. -/
def ofList [BEq κ] (l : List (κ × ν)) : LastWrite κ ν := fun k => l.lookup k

/-- A list of a map has the map as its own. -/
theorem Lists.ofList_eq [BEq κ] [LawfulBEq κ] {l : List (κ × ν)} {m : LastWrite κ ν}
    (h : Lists l m) : ofList l = m := by
  funext k
  cases hk : ofList l k with
  | none =>
    have hnone := List.lookup_eq_none_iff.mp hk
    refine (h.eq_none fun hmem => ?_).symm
    obtain ⟨⟨k, v⟩, hx, rfl⟩ := List.mem_map.mp hmem
    simpa using hnone _ hx
  | some v =>
    obtain ⟨before, after, rfl, -⟩ := List.lookup_eq_some_iff.mp hk
    exact ((h.mem_iff k v).mp (by simp)).symm

section Edits

variable [DecidableEq κ] {l before after : List (κ × ν)} {m : LastWrite κ ν} {k : κ} {v w : ν}

/-- Adding an entry for an unbound key writes it. -/
theorem Lists.cons (h : Lists l m) (hk : m k = none) (v : ν) :
    Lists ((k, v) :: l) (m.write k (some v)) := by
  have hnot : k ∉ l.map Prod.fst := by
    intro hmem
    obtain ⟨⟨k', v'⟩, hx, rfl⟩ := List.mem_map.mp hmem
    rw [(h.mem_iff k' v').mp hx] at hk
    cases hk
  refine ⟨List.nodup_cons.mpr ⟨hnot, h.nodup⟩, fun k' v' => ?_⟩
  by_cases he : k' = k
  · subst he
    have hnv : (k', v') ∉ l := fun hx => hnot (List.mem_map_of_mem hx)
    simp [hnv, eq_comm]
  · simp [he, write_of_ne _ _ he, h.mem_iff]

/-- Removing the entry of a key deletes it. -/
theorem Lists.remove (h : Lists (before ++ (k, v) :: after) m) :
    Lists (before ++ after) (m.write k none) := by
  have hc := h.perm List.perm_middle.symm
  have hnd := List.nodup_cons.mp hc.nodup
  refine ⟨hnd.2, fun k' v' => ?_⟩
  by_cases he : k' = k
  · subst he
    simp only [write_self, reduceCtorEq, iff_false]
    exact fun hx => hnd.1 (List.mem_map.mpr ⟨_, hx, rfl⟩)
  · rw [write_of_ne _ _ he, ← hc.mem_iff]
    simp [he]

/-- Changing the value of an entry in place writes it. -/
theorem Lists.replace (h : Lists (before ++ (k, v) :: after) m) (w : ν) :
    Lists (before ++ (k, w) :: after) (m.write k (some w)) := by
  have hr := Lists.cons h.remove (write_self m k none) w
  have he : (m.write k none).write k (some w) = m.write k (some w) := by
    simp [write]
  rw [he] at hr
  exact hr.perm List.perm_middle

end Edits

end LastWrite

end OrderbookEngine
