import OrderbookEngine.Config.Configuration

/-!
# Substitution of environment variables

The text splits into placeholders and what stands between them, and each placeholder is replaced
by the value of its name or stays. The loop does the same on the text in place: in front of its
position stands what is done, behind it what has not been looked at. It differs where a name
contains a NUL, since `getenv` looks up what stands before it.
-/

namespace OrderbookEngine.EnvSubstitution

open TextSearch

/-- An environment: names and values are C strings. -/
structure Environment where
  lookup : StdString → Option StdString
  nulFree : ∀ {name value}, lookup name = some value → 0 ∉ name ∧ 0 ∉ value

/-- A placeholder of a name. -/
def placeholder (name : StdString) : StdString := lit "$\x7b" ++ name ++ lit "\x7d"

/-- The text in front of the leftmost placeholder, its name up to the first brace that closes it,
and the text behind it. -/
def firstPlaceholder (s : StdString) : Option (StdString × StdString × StdString) :=
  match find (lit "$\x7b") s 0 with
  | none => none
  | some start =>
    match find (lit "\x7d") (s.drop (start + 2)) 0 with
    | none => none
    | some len => some (s.take start, (s.drop (start + 2)).take len, s.drop (start + 2 + (len + 1)))

/-- The searches that find a placeholder. -/
theorem firstPlaceholder_eq_some {s front name rest : StdString}
    (h : firstPlaceholder s = some (front, name, rest)) :
    ∃ start len, find (lit "$\x7b") s 0 = some start ∧
      find (lit "\x7d") (s.drop (start + 2)) 0 = some len ∧ s.take start = front ∧
      (s.drop (start + 2)).take len = name ∧ s.drop (start + 2 + (len + 1)) = rest := by
  unfold firstPlaceholder at h
  split at h
  · cases h
  next start hstart =>
  split at h
  · cases h
  next len hlen =>
  cases h
  exact ⟨start, len, hstart, hlen, rfl, rfl, rfl⟩

theorem firstPlaceholder_eq_none {s : StdString} (h : firstPlaceholder s = none) {start : Nat}
    (hstart : find (lit "$\x7b") s 0 = some start) :
    find (lit "\x7d") (s.drop (start + 2)) 0 = none := by
  rw [firstPlaceholder, hstart] at h
  dsimp only at h
  split at h
  · assumption
  · cases h

theorem firstPlaceholder_eq {s front name rest : StdString}
    (h : firstPlaceholder s = some (front, name, rest)) :
    s = front ++ placeholder name ++ rest := by
  obtain ⟨start, len, hstart, hlen, rfl, rfl, rfl⟩ := firstPlaceholder_eq_some h
  have hopens : s = s.take start ++ lit "$\x7b" ++ s.drop (start + 2) := eq_append_of_find hstart
  have hcloses : s.drop (start + 2) = (s.drop (start + 2)).take len ++ lit "\x7d" ++
      (s.drop (start + 2)).drop (len + 1) := eq_append_of_find hlen
  rw [List.drop_drop] at hcloses
  calc s = s.take start ++ lit "$\x7b" ++ s.drop (start + 2) := hopens
    _ = s.take start ++ lit "$\x7b" ++ ((s.drop (start + 2)).take len ++ lit "\x7d" ++
          s.drop (start + 2 + (len + 1))) := by rw [← hcloses]
    _ = _ := by simp only [placeholder, List.append_assoc]

theorem length_rest_lt {s front name rest : StdString}
    (h : firstPlaceholder s = some (front, name, rest)) : rest.length < s.length := by
  have hlen := congrArg List.length (firstPlaceholder_eq h)
  have hopens : (lit "$\x7b").length = 2 := rfl
  simp only [placeholder, List.length_append] at hlen
  omega

/-- What a placeholder is replaced by. -/
def expand (lookup : StdString → Option StdString) (name : StdString) : StdString :=
  (lookup name).getD (placeholder name)

/-- Each placeholder is replaced by the value of its name, and stays where there is none. -/
def subst (lookup : StdString → Option StdString) (s : StdString) : StdString :=
  match _h : firstPlaceholder s with
  | none => s
  | some (front, name, rest) => front ++ expand lookup name ++ subst lookup rest
termination_by s.length
decreasing_by exact length_rest_lt _h

/-- The names of the placeholders, from left to right. -/
def names (s : StdString) : List StdString :=
  match _h : firstPlaceholder s with
  | none => []
  | some (_, name, rest) => name :: names rest
termination_by s.length
decreasing_by exact length_rest_lt _h

/-- Placeholders are cut off one after the other. -/
theorem placeholders_induction {P : StdString → Prop}
    (none : ∀ s, firstPlaceholder s = none → P s)
    (some : ∀ s front name rest, firstPlaceholder s = some (front, name, rest) → P rest → P s)
    (s : StdString) : P s := by
  induction hlen : s.length using Nat.strong_induction_on generalizing s with
  | _ n ih =>
    cases h : firstPlaceholder s with
    | none => exact none s h
    | some parts =>
      obtain ⟨front, name, rest⟩ := parts
      exact some s front name rest h (ih _ (hlen ▸ length_rest_lt h) rest rfl)

section Equations

variable {lookup : StdString → Option StdString} {s front name rest : StdString}

theorem subst_of_none (h : firstPlaceholder s = none) : subst lookup s = s := by
  rw [subst]
  split
  · rfl
  · next heq => rw [h] at heq; cases heq

theorem subst_of_some (h : firstPlaceholder s = some (front, name, rest)) :
    subst lookup s = front ++ expand lookup name ++ subst lookup rest := by
  rw [subst]
  split
  · next heq => rw [h] at heq; cases heq
  · next heq => rw [h] at heq; cases heq; rfl

theorem names_of_none (h : firstPlaceholder s = none) : names s = [] := by
  rw [names]
  split
  · rfl
  · next heq => rw [h] at heq; cases heq

theorem names_of_some (h : firstPlaceholder s = some (front, name, rest)) :
    names s = name :: names rest := by
  rw [names]
  split
  · next heq => rw [h] at heq; cases heq
  · next heq => rw [h] at heq; cases heq; rfl

/-- Substitutions that agree on the names of the text agree on the text. -/
theorem subst_congr {other : StdString → Option StdString}
    (h : ∀ name ∈ names s, lookup name = other name) : subst lookup s = subst other s := by
  induction s using placeholders_induction with
  | none s hs => rw [subst_of_none hs, subst_of_none hs]
  | some s front name rest hs ih =>
    rw [names_of_some hs] at h
    rw [subst_of_some hs, subst_of_some hs, ih fun n hn => h n (List.mem_cons_of_mem _ hn)]
    rw [expand, expand, h name List.mem_cons_self]

end Equations

/-! ## The loop -/

/-- A search of the loop is one of the text that has not been looked at. -/
theorem find_stop {s : StdString} {start : Nat} (h : find (lit "$\x7b") s 0 = some start)
    (done : StdString) : find (lit "\x7d") (done ++ s) (done.length + start) =
      (find (lit "\x7d") (s.drop (start + 2)) 0).map (done.length + start + 2 + ·) := by
  have hopens : s = s.take start ++ (lit "$\x7b" ++ s.drop (start + 2)) := by
    rw [← List.append_assoc]
    exact eq_append_of_find h
  have hlen : (done ++ s.take start).length = done.length + start := by
    rw [List.length_append, List.length_take_of_le (find_eq_some_iff.mp h).2.1]
  calc find (lit "\x7d") (done ++ s) (done.length + start)
      = find (lit "\x7d") ((done ++ s.take start) ++ (lit "$\x7b" ++ s.drop (start + 2)))
          ((done ++ s.take start).length + 0) := by
        rw [List.append_assoc, ← hopens, hlen, Nat.add_zero]
    _ = (find [125] (lit "$\x7b" ++ s.drop (start + 2)) 0).map (done.length + start + ·) := by
        rw [find_append, hlen]
        rfl
    _ = (find (lit "\x7d") (s.drop (start + 2)) 0).map (done.length + start + 2 + ·) := by
        rw [find_singleton_append (by decide), Option.map_map]
        exact Option.map_congr fun len _ => (Nat.add_assoc _ 2 len).symm

section Loop

variable {getenv : StdString → Option StdString} {result done s front name rest : StdString}
  {pos start stop : Nat}

theorem substituteFrom_of_no_start (hstart : find (lit "$\x7b") result pos = none) :
    substituteFrom getenv result pos = result := by
  rw [substituteFrom]
  split
  · rfl
  · next heq => rw [hstart] at heq; cases heq

theorem substituteFrom_of_no_stop (hstart : find (lit "$\x7b") result pos = some start)
    (hstop : find (lit "\x7d") result start = none) :
    substituteFrom getenv result pos = result := by
  rw [substituteFrom]
  split
  · rfl
  next heq =>
  rw [hstart] at heq
  cases heq
  split
  · rfl
  · next heq => rw [hstop] at heq; cases heq

theorem substituteFrom_of_stop (hstart : find (lit "$\x7b") result pos = some start)
    (hstop : find (lit "\x7d") result start = some stop)
    (hname : (result.drop (start + 2)).take (stop - start - 2) = name) :
    substituteFrom getenv result pos =
      match getenv (cString name) with
      | some value => substituteFrom getenv (result.take start ++ value ++ result.drop (stop + 1))
          (start + value.length)
      | none => substituteFrom getenv result (stop + 1) := by
  rw [substituteFrom]
  split
  · next heq => rw [hstart] at heq; cases heq
  next heq =>
  rw [hstart] at heq
  cases heq
  split
  · next heq => rw [hstop] at heq; cases heq
  next heq =>
  rw [hstop] at heq
  cases heq
  subst hname
  cases getenv (cString ((result.drop (start + 2)).take (stop - start - 2))) with
  | none => rfl
  | some value => rfl

/-- A pass of the loop adds the text up to the placeholder, and what replaces it, to what is
done. -/
theorem substituteFrom_of_some (h : firstPlaceholder s = some (front, name, rest)) :
    substituteFrom getenv (done ++ s) done.length =
      substituteFrom getenv (done ++ front ++ expand (fun name => getenv (cString name)) name ++ rest)
        (done ++ front ++ expand (fun name => getenv (cString name)) name).length := by
  have hsplit := firstPlaceholder_eq h
  obtain ⟨start, len, hstart, hlen, hfront, hname, hrest⟩ := firstPlaceholder_eq_some h
  have hfind : find (lit "$\x7b") (done ++ s) done.length = some (done.length + start) := by
    have hfind := find_append (lit "$\x7b") done s 0
    rwa [hstart] at hfind
  have hstop : find (lit "\x7d") (done ++ s) (done.length + start) =
      some (done.length + start + 2 + len) := by
    rw [find_stop hstart, hlen]
    rfl
  have hdrop : ∀ j, (done ++ s).drop (done.length + j) = s.drop j := by
    intro j
    rw [← List.drop_drop, List.drop_left]
  have hstartLen : front.length = start := by
    rw [← hfront, List.length_take_of_le (find_eq_some_iff.mp hstart).2.1]
  have hnameLen : name.length = len := by
    rw [← hname, List.length_take_of_le (find_eq_some_iff.mp hlen).2.1]
  have hread : ((done ++ s).drop (done.length + start + 2)).take
      (done.length + start + 2 + len - (done.length + start) - 2) = name := by
    rw [show done.length + start + 2 + len - (done.length + start) - 2 = len by omega,
      Nat.add_assoc, hdrop, hname]
  rw [substituteFrom_of_stop hfind hstop hread, expand]
  cases getenv (cString name) with
  | some value =>
    have hresult : (done ++ s).take (done.length + start) ++ value ++
        (done ++ s).drop (done.length + start + 2 + len + 1) = done ++ front ++ value ++ rest := by
      rw [show done.length + start + 2 + len + 1 = done.length + (start + 2 + (len + 1)) by omega,
        hdrop, hrest, List.take_length_add_append, hfront]
    have hpos : done.length + start + value.length = (done ++ front ++ value).length := by
      rw [List.length_append, List.length_append, hstartLen]
    dsimp only [Option.getD_some]
    rw [hresult, hpos]
  | none =>
    have hresult : done ++ s = done ++ front ++ placeholder name ++ rest := by
      rw [hsplit]
      simp only [List.append_assoc]
    have hpos : done.length + start + 2 + len + 1 = (done ++ front ++ placeholder name).length := by
      have hopens : (lit "$\x7b").length = 2 := rfl
      have hcloses : (lit "\x7d").length = 1 := rfl
      simp only [placeholder, List.length_append]
      omega
    dsimp only [Option.getD_none]
    rw [← hresult, hpos]

/-- The loop does not touch what is done, and does not look at it again. -/
theorem substituteFrom_append : substituteFrom getenv (done ++ s) done.length =
    done ++ subst (fun name => getenv (cString name)) s := by
  induction s using placeholders_induction generalizing done with
  | none s hs =>
    have hfind := find_append (lit "$\x7b") done s 0
    rw [subst_of_none hs]
    cases hstart : find (lit "$\x7b") s 0 with
    | none =>
      rw [hstart] at hfind
      exact substituteFrom_of_no_start hfind
    | some start =>
      have hstop := find_stop hstart done
      rw [hstart] at hfind
      rw [firstPlaceholder_eq_none hs hstart] at hstop
      exact substituteFrom_of_no_stop hfind hstop
  | some s front name rest hs ih =>
    rw [substituteFrom_of_some hs, ih, subst_of_some hs]
    simp only [List.append_assoc]

/-- `substitute_env_vars` replaces each placeholder once, by the value of its name up to a NUL. -/
theorem substituteEnvVars_eq_subst (getenv : StdString → Option StdString) (s : StdString) :
    substituteEnvVars getenv s = subst (fun name => getenv (cString name)) s := by
  have hloop : substituteFrom getenv ([] ++ s) ([] : StdString).length =
      [] ++ subst (fun name => getenv (cString name)) s := substituteFrom_append
  exact hloop

end Loop

section Count

variable {lookup : StdString → Option StdString} {s : StdString}

theorem count_placeholder (name : StdString) : (placeholder name).count 0 = name.count 0 := by
  simp [placeholder, lit]

/-- A value without NUL takes those of the name away. -/
theorem count_expand {name : StdString} (hvalue : ∀ value, lookup name = some value → 0 ∉ value) :
    (expand lookup name).count 0 ≤ name.count 0 ∧
      ((expand lookup name).count 0 = name.count 0 ↔ (0 ∈ name → lookup name = none)) := by
  unfold expand
  cases hlookup : lookup name with
  | none => simp [count_placeholder]
  | some value =>
    have hzero : value.count 0 = 0 := List.count_eq_zero_of_not_mem (hvalue value hlookup)
    rw [Option.getD_some, hzero]
    refine ⟨Nat.zero_le _, ?_⟩
    rw [eq_comm, List.count_eq_zero]
    exact ⟨fun hnot hin => absurd hin hnot, fun h hin => nomatch h hin⟩

/-- The NULs of the text are in front of placeholders, in their names, and behind the last; those
of the names go with the names that have a value. -/
theorem count_subst (lookup : StdString → Option StdString)
    (hvalues : ∀ name value, lookup name = some value → 0 ∉ value)
    (s : StdString) : (subst lookup s).count 0 ≤ s.count 0 ∧
      ((subst lookup s).count 0 = s.count 0 ↔ ∀ name ∈ names s, 0 ∈ name → lookup name = none) := by
  induction s using placeholders_induction with
  | none s hs => simp [subst_of_none hs, names_of_none hs]
  | some s front name rest hs ih =>
    obtain ⟨hle, hiff⟩ := count_expand (hvalues name)
    have hsplit : s.count 0 = front.count 0 + name.count 0 + rest.count 0 := by
      rw [firstPlaceholder_eq hs, List.count_append, List.count_append, count_placeholder]
    rw [subst_of_some hs, names_of_some hs, List.count_append, List.count_append, hsplit,
      List.forall_mem_cons, ← hiff, ← ih.2]
    omega

end Count

/-- The name of a variable without NUL is what `getenv` gets. -/
theorem cString_of_not_mem {name : StdString} (h : 0 ∉ name) : cString name = name :=
  takeWhile_ne_eq_self h

theorem Environment.lookup_eq_none (env : Environment) {name : StdString} (h : 0 ∈ name) :
    env.lookup name = none := by
  by_contra hdefined
  obtain ⟨value, hvalue⟩ := Option.ne_none_iff_exists'.mp hdefined
  exact (env.nulFree hvalue).1 h

/-- What stands in front of a NUL in the name of a placeholder is not the name of a variable. -/
def NamesWhole (env : Environment) (s : StdString) : Prop :=
  ∀ name ∈ names s, 0 ∈ name → env.lookup (cString name) = none

/-- The loop is the substitution unless it looks up a part of a name. -/
theorem substituteEnvVars_eq_iff_namesWhole (env : Environment) (s : StdString) :
    substituteEnvVars env.lookup s = subst env.lookup s ↔ NamesWhole env s := by
  rw [substituteEnvVars_eq_subst]
  constructor
  · intro h
    have hloop := count_subst (fun name => env.lookup (cString name))
      (fun name value hvalue => (env.nulFree hvalue).2) s
    have hspec := count_subst env.lookup
      (fun name value hvalue => (env.nulFree hvalue).2) s
    rw [h] at hloop
    exact hloop.2.mp (hspec.2.mpr fun name _ hnul => env.lookup_eq_none hnul)
  · intro h
    refine subst_congr fun name hname => ?_
    by_cases hnul : 0 ∈ name
    · rw [h name hname hnul, env.lookup_eq_none hnul]
    · rw [cString_of_not_mem hnul]

/-- One variable, A, with the value x. -/
def oneVariable : Environment where
  lookup name := if name = lit "A" then some (lit "x") else none
  nulFree := by
    intro name value h
    split at h
    · next hname =>
      cases h
      subst hname
      decide
    · cases h

example : substituteEnvVars oneVariable.lookup (lit "$\x7bA\x7d/$\x7bB\x7d") = lit "x/$\x7bB\x7d" := by
  decide +kernel

/-- A NUL behind the name is lost. -/
theorem substituteEnvVars_fails :
    ¬ ∀ (env : Environment) (s : StdString), substituteEnvVars env.lookup s = subst env.lookup s := by
  intro h
  have hname := h oneVariable (lit "$\x7bA" ++ 0 :: lit "B\x7d")
  revert hname
  decide +kernel

end OrderbookEngine.EnvSubstitution
