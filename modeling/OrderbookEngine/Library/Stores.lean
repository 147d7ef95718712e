import Mathlib.Tactic

/-!
# Programs that store until they fail

A program computes and stores into named fields of a state, and may fail: what it
stored before stays. The stores of a program are listed in their order, and the state
is what they leave, one after the other. When no field is stored twice, a program
leaves the state as it was exactly when every store finds its own value. A program
that only converts values and stores them is a list of conversions.
-/

namespace OrderbookEngine.Stores

universe u w

variable {κ : Type*} {V : κ → Type u} {σ ε : Type*}

/-- Named fields of a state, some of which may be absent. -/
structure Fields (V : κ → Type u) (σ : Type*) where
  read : (k : κ) → σ → Option (V k)
  write : (k : κ) → V k → σ → σ
  read_write : ∀ k v s, read k (write k v s) = some v
  read_write_of_ne : ∀ {j k}, j ≠ k → ∀ v s, read j (write k v s) = read j s
  write_of_read : ∀ {k v s}, read k s = some v → write k v s = s

/-- A value stored into a field. -/
abbrev Store (V : κ → Type u) := (k : κ) × V k

namespace Fields

variable (F : Fields V σ)

/-- The state after some stores. -/
def applyAll (s : σ) (stores : List (Store V)) : σ :=
  stores.foldl (fun s st => F.write st.1 st.2 s) s

/-- The field holds the value already. -/
def Holds (s : σ) (st : Store V) : Prop := F.read st.1 s = some st.2

variable {F} {s : σ} {stores : List (Store V)} {k : κ}

/-- Stores into other fields leave a field. -/
theorem read_applyAll_of_ne (h : ∀ st ∈ stores, k ≠ st.1) :
    F.read k (F.applyAll s stores) = F.read k s := by
  induction stores generalizing s with
  | nil => rfl
  | cons st stores ih =>
    obtain ⟨hne, h⟩ := List.forall_mem_cons.mp h
    have hrest := ih (s := F.write st.1 st.2 s) h
    rw [F.read_write_of_ne hne] at hrest
    exact hrest

/-- A field that is stored once holds what was stored. -/
theorem holds_applyAll (hnodup : (stores.map Sigma.fst).Nodup) {st : Store V} (hst : st ∈ stores) :
    F.Holds (F.applyAll s stores) st := by
  induction stores generalizing s with
  | nil => exact absurd hst List.not_mem_nil
  | cons first stores ih =>
    obtain ⟨hnew, hnodup⟩ := List.nodup_cons.mp hnodup
    rcases List.mem_cons.mp hst with rfl | hst
    · have hrest : F.read st.1 (F.applyAll (F.write st.1 st.2 s) stores) = _ :=
        read_applyAll_of_ne fun other hother heq => hnew (heq ▸ List.mem_map_of_mem hother)
      exact hrest.trans (F.read_write _ _ _)
    · exact ih hnodup hst

/-- Without a field stored twice, stores leave the state as it was exactly when each finds its
own value. -/
theorem applyAll_eq_self_iff (hnodup : (stores.map Sigma.fst).Nodup) :
    F.applyAll s stores = s ↔ ∀ st ∈ stores, F.Holds s st := by
  constructor
  · intro heq st hst
    have hholds := holds_applyAll (F := F) (s := s) hnodup hst
    rwa [heq] at hholds
  · intro h
    induction stores with
    | nil => rfl
    | cons st stores ih =>
      obtain ⟨hst, h⟩ := List.forall_mem_cons.mp h
      have hwrite : F.write st.1 st.2 s = s := F.write_of_read hst
      show F.applyAll (F.write st.1 st.2 s) stores = s
      rw [hwrite]
      exact ih (List.nodup_cons.mp hnodup).2 h

end Fields

/-- What a program stored, and its result or failure. -/
structure Storing (V : κ → Type u) (ε α : Type*) where
  stores : List (Store V)
  result : Except ε α

namespace Storing

variable {α β : Type w}

/-- Run a program on the result of another, unless that failed. -/
def andThen (p : Storing V ε α) (f : α → Storing V ε β) : Storing V ε β :=
  match p.result with
  | .error e => ⟨p.stores, .error e⟩
  | .ok a => ⟨p.stores ++ (f a).stores, (f a).result⟩

instance : Monad (Storing V ε) where
  pure a := ⟨[], .ok a⟩
  bind := andThen

/-- A computation that stores nothing and may fail. -/
instance : MonadLift (Except ε) (Storing V ε) where
  monadLift x := ⟨[], x⟩

/-- Store a value into a field. -/
def store (k : κ) (v : V k) : Storing V ε Unit := ⟨[⟨k, v⟩], .ok ()⟩

/-- Store values that are converted one after the other, until a conversion fails. -/
def perform : List (Except ε (Store V)) → Storing V ε Unit
  | [] => ⟨[], .ok ()⟩
  | .error e :: _ => ⟨[], .error e⟩
  | .ok st :: rest => ⟨st :: (perform rest).stores, (perform rest).result⟩

variable {p : Storing V ε α}

/-- What a program stored before it failed stays. -/
theorem bind_of_error {e : ε} (h : p.result = .error e) (f : α → Storing V ε β) :
    p >>= f = ⟨p.stores, .error e⟩ := by
  show p.andThen f = _
  rw [andThen, h]

theorem bind_of_ok {a : α} (h : p.result = .ok a) (f : α → Storing V ε β) :
    p >>= f = ⟨p.stores ++ (f a).stores, (f a).result⟩ := by
  show p.andThen f = _
  rw [andThen, h]

@[simp] theorem lift_error_bind (e : ε) (f : α → Storing V ε β) :
    (liftM (.error e : Except ε α) : Storing V ε α) >>= f = ⟨[], .error e⟩ := rfl

@[simp] theorem lift_ok_bind (a : α) (f : α → Storing V ε β) :
    (liftM (.ok a : Except ε α) : Storing V ε α) >>= f = f a := rfl

/-- A store with nothing left to convert. -/
@[simp] theorem store_bind_perform_nil (k : κ) (v : V k) :
    (store k v >>= fun _ => perform [] : Storing V ε Unit) = store k v := rfl

section Perform

variable {conversions rest : List (Except ε (Store V))}

/-- Either all conversions succeed, or some of them do before the first that fails. -/
theorem eq_map_ok_or_error (conversions : List (Except ε (Store V))) :
    (∃ done : List (Store V), conversions = done.map .ok) ∨
      ∃ (done : List (Store V)) (e : ε) (rest : List (Except ε (Store V))),
        conversions = done.map .ok ++ .error e :: rest := by
  induction conversions with
  | nil => exact .inl ⟨[], rfl⟩
  | cons conversion conversions ih =>
    cases conversion with
    | error e => exact .inr ⟨[], e, conversions, rfl⟩
    | ok st =>
      rcases ih with ⟨done, rfl⟩ | ⟨done, e, rest, rfl⟩
      · exact .inl ⟨st :: done, rfl⟩
      · exact .inr ⟨st :: done, e, rest, rfl⟩

/-- When all conversions succeed, all values are stored. -/
theorem perform_map_ok (done : List (Store V)) :
    perform (done.map .ok : List (Except ε (Store V))) = ⟨done, .ok ()⟩ := by
  induction done with
  | nil => rfl
  | cons st done ih => rw [List.map_cons, perform, ih]

/-- The values before the first conversion that fails are stored, and no others. -/
theorem perform_of_error (done : List (Store V)) (e : ε) (rest : List (Except ε (Store V))) :
    perform (done.map .ok ++ .error e :: rest) = ⟨done, .error e⟩ := by
  induction done with
  | nil => rfl
  | cons st done ih => rw [List.map_cons, List.cons_append, perform, ih]

/-- The values of successful conversions are determined. -/
theorem map_ok_injective {done done' : List (Store V)}
    (h : (done.map .ok : List (Except ε (Store V))) = done'.map .ok) : done = done' := by
  have hperform := congrArg perform h
  rw [perform_map_ok, perform_map_ok] at hperform
  exact congrArg stores hperform

theorem map_ok_ne_error {done done' : List (Store V)} {e : ε} :
    (done.map .ok : List (Except ε (Store V))) ≠ done'.map .ok ++ .error e :: rest := by
  intro h
  have hperform := congrArg perform h
  rw [perform_map_ok, perform_of_error] at hperform
  cases congrArg result hperform

theorem perform_append (conversions rest : List (Except ε (Store V))) :
    perform (conversions ++ rest) = perform conversions >>= fun _ => perform rest := by
  rcases eq_map_ok_or_error conversions with ⟨done, rfl⟩ | ⟨done, e, failed, rfl⟩
  · rw [perform_map_ok, bind_of_ok rfl]
    induction done with
    | nil => rfl
    | cons st done ih => rw [List.map_cons, List.cons_append, perform, ih, List.cons_append]
  · rw [List.append_assoc, List.cons_append, perform_of_error, perform_of_error, bind_of_error rfl]

/-- What is stored was converted. -/
theorem mem_of_mem_stores {st : Store V} (h : st ∈ (perform conversions).stores) :
    .ok st ∈ conversions := by
  induction conversions with
  | nil => cases h
  | cons conversion conversions ih =>
    cases conversion with
    | error e => cases h
    | ok first =>
      rcases List.mem_cons.mp h with rfl | h
      · exact List.mem_cons_self
      · exact List.mem_cons_of_mem _ (ih h)

theorem mem_stores_append {st : Store V} (h : st ∈ (perform (conversions ++ rest)).stores) :
    st ∈ (perform conversions).stores ∨ st ∈ (perform rest).stores := by
  rw [perform_append] at h
  cases hresult : (perform conversions).result with
  | error e =>
    rw [bind_of_error hresult] at h
    exact .inl h
  | ok u =>
    rw [bind_of_ok hresult] at h
    exact List.mem_append.mp h

/-- The fields that a program stores are some of these, in their order. -/
def Within (names : List κ) (p : Storing V ε α) : Prop :=
  (p.stores.map Sigma.fst).Sublist names

variable {names names' : List κ}

theorem within_perform_nil : Within [] (perform [] : Storing V ε Unit) := List.Sublist.refl _

/-- A conversion for a field, before others. -/
theorem Within.perform_cons {k : κ} {conversion : Except ε (Store V)}
    (hfield : ∀ st, conversion = .ok st → st.1 = k) (h : Within names (perform rest)) :
    Within (k :: names) (perform (conversion :: rest)) := by
  cases conversion with
  | error e => exact List.nil_sublist _
  | ok st =>
    obtain rfl : st.1 = k := hfield st rfl
    exact List.Sublist.cons_cons _ h

theorem Within.perform_append (h : Within names (perform conversions))
    (hrest : Within names' (perform rest)) :
    Within (names ++ names') (perform (conversions ++ rest)) := by
  rw [Storing.perform_append]
  cases hresult : (perform conversions).result with
  | error e =>
    rw [bind_of_error hresult]
    exact List.Sublist.trans h (List.sublist_append_left _ _)
  | ok u =>
    rw [bind_of_ok hresult, Within, List.map_append]
    exact List.Sublist.append h hrest

end Perform

end Storing

end OrderbookEngine.Stores
