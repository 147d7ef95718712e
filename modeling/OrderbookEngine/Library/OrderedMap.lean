import Mathlib.Tactic

/-!
# Edits of ordered maps and loops over their entries

Rules for maps whose comparison decides equality: an edit leaves the other keys
alone, the entries stand under different keys, and a loop over the entries whose
passes change their own entry only meets every entry as it was.
-/

namespace OrderbookEngine.OrderedMap

variable {κ ν α : Type*} {cmp : κ → κ → Ordering} [Std.TransCmp cmp] [Std.LawfulEqCmp cmp]
  {m : Std.TreeMap κ ν cmp} {key other : κ} {value : ν}

theorem getElem?_insert_of_ne (h : other ≠ key) :
    (m.insert key value)[other]? = m[other]? := by
  rw [Std.TreeMap.getElem?_insert,
    if_neg fun heq => h (Std.LawfulEqCmp.compare_eq_iff_eq.mp heq).symm]

theorem getElem?_erase_of_ne (h : other ≠ key) : (m.erase key)[other]? = m[other]? := by
  rw [Std.TreeMap.getElem?_erase,
    if_neg fun heq => h (Std.LawfulEqCmp.compare_eq_iff_eq.mp heq).symm]

/-- The entries of a map stand under different keys. -/
theorem distinct_entries (m : Std.TreeMap κ ν cmp) :
    m.toList.Pairwise fun e e' => e.1 ≠ e'.1 :=
  Std.TreeMap.distinct_keys_toList.imp fun hne heq =>
    hne (Std.LawfulEqCmp.compare_eq_iff_eq.mpr heq)

theorem mem_entries : (key, value) ∈ m.toList ↔ m[key]? = some value :=
  Std.TreeMap.mem_toList_iff_getElem?_eq_some

theorem nodup_entries (m : Std.TreeMap κ ν cmp) : m.toList.Nodup :=
  (distinct_entries m).imp fun hne heq => hne (congrArg Prod.fst heq)

/-- The entries of a map are found under any keys that include its own. -/
theorem entries_perm (m : Std.TreeMap κ ν cmp) {keys : List κ} (hnodup : keys.Nodup)
    (hall : ∀ key value, m[key]? = some value → key ∈ keys) :
    m.toList.Perm (keys.flatMap fun key => (m[key]?.map fun value => (key, value)).toList) := by
  have hmem : ∀ e ∈ keys.flatMap fun key => (m[key]?.map fun value => (key, value)).toList,
      m[e.1]? = some e.2 := by
    intro e he
    obtain ⟨key, -, he⟩ := List.mem_flatMap.mp he
    obtain ⟨value, hvalue, rfl⟩ := Option.map_eq_some_iff.mp (Option.mem_toList.mp he)
    exact hvalue
  have hlist : (keys.flatMap fun key => (m[key]?.map fun value => (key, value)).toList).Nodup := by
    refine List.nodup_flatMap.mpr ⟨fun key _ => ?_, hnodup.imp ?_⟩
    · cases m[key]? with
      | none => exact List.nodup_nil
      | some value => exact List.nodup_singleton _
    · intro key key' hne e he he'
      obtain ⟨value, -, rfl⟩ := Option.map_eq_some_iff.mp (Option.mem_toList.mp he)
      obtain ⟨value', -, heq⟩ := Option.map_eq_some_iff.mp (Option.mem_toList.mp he')
      exact hne (congrArg Prod.fst heq).symm
  refine (List.perm_ext_iff_of_nodup (nodup_entries m) hlist).mpr fun e => ?_
  rw [mem_entries]
  refine ⟨fun hat => List.mem_flatMap.mpr ⟨e.1, hall e.1 e.2 hat, ?_⟩, hmem e⟩
  rw [hat]
  exact List.mem_singleton_self e

/-- A new key adds one entry. -/
theorem entries_insert_perm (h : m[key]? = none) (value : ν) :
    (m.insert key value).toList.Perm ((key, value) :: m.toList) := by
  have hnew : (key, value) ∉ m.toList := fun hmem => by
    rw [mem_entries, h] at hmem
    cases hmem
  refine (List.perm_ext_iff_of_nodup (nodup_entries _)
    (List.nodup_cons.mpr ⟨hnew, nodup_entries m⟩)).mpr fun e => ?_
  rw [List.mem_cons, mem_entries]
  by_cases hkey : e.1 = key
  · have hold : e ∉ m.toList := fun hmem => by
      rw [mem_entries, hkey, h] at hmem
      cases hmem
    rw [hkey, Std.TreeMap.getElem?_insert_self, Option.some.injEq, or_iff_left hold]
    exact ⟨fun heq => Prod.ext hkey heq.symm, fun heq => (congrArg Prod.snd heq).symm⟩
  · rw [getElem?_insert_of_ne hkey, ← mem_entries]
    exact ⟨Or.inr, fun hmem => hmem.resolve_left fun heq => hkey (congrArg Prod.fst heq)⟩

theorem any_entries {p : κ × ν → Bool} :
    m.toList.any p = false ↔ ∀ key value, m[key]? = some value → p (key, value) = false := by
  simp only [List.any_eq_false, Prod.forall, mem_entries, Bool.not_eq_true]

omit [Std.TransCmp cmp] [Std.LawfulEqCmp cmp] in
/-- The rule for loops over a map whose passes change their own entry only. -/
theorem foldl_entries (view : α → Std.TreeMap κ ν cmp) {P : α → Prop} {f : α → κ × ν → α}
    {l : List (κ × ν)} (hl : l.Pairwise fun e e' => e.1 ≠ e'.1)
    (hstep : ∀ r, ∀ e ∈ l, P r → (view r)[e.1]? = some e.2 → P (f r e))
    (hother : ∀ r e other, other ≠ e.1 → (view (f r e))[other]? = (view r)[other]?)
    {r : α} (hr : P r) (hat : ∀ e ∈ l, (view r)[e.1]? = some e.2) : P (l.foldl f r) := by
  induction l generalizing r with
  | nil => exact hr
  | cons e l ih =>
    obtain ⟨hne, hl⟩ := List.pairwise_cons.mp hl
    have hhead := hstep r e List.mem_cons_self hr (hat e List.mem_cons_self)
    refine ih hl (fun r e' he' => hstep r e' (List.mem_cons_of_mem e he')) hhead fun e' he' => ?_
    rw [hother r e e'.1 (hne e' he').symm]
    exact hat e' (List.mem_cons_of_mem e he')

end OrderbookEngine.OrderedMap
