import Mathlib.Tactic

/-!
# Programs over shared words

A program is a tree of atomic accesses to words of a memory. Run alone it is a
function of the memory; its accesses can also be interleaved with those of other
programs. The rules say what a run does to a sequence of programs, and what
follows from the accesses a program may make.
-/

namespace OrderbookEngine

/-- An atomic access to a word. -/
inductive Op where
  | load
  | store (value : UInt64)
  | fetchAdd (n : UInt64)
  deriving DecidableEq, Repr

namespace Op

/-- The value that the access leaves in the word. -/
def newValue : Op → UInt64 → UInt64
  | load, old => old
  | store value, _ => value
  | fetchAdd n, old => old + n

/-- The value that the access returns; what `fetch_add` returns is not used. -/
def result : Op → UInt64 → UInt64
  | load, old => old
  | _, _ => 0

theorem result_congr {op : Op} (h : op ≠ load) (old old' : UInt64) :
    op.result old = op.result old' := by
  cases op with
  | load => exact absurd rfl h
  | _ => rfl

end Op

/-- A memory of words. -/
abbrev Memory (C : Type) := C → UInt64

/-- A program that accesses the words named by `C` and returns an `α`. -/
inductive Prog (C α : Type) where
  | done (a : α)
  | access (c : C) (op : Op) (k : UInt64 → Prog C α)

namespace Prog

variable {C α β γ : Type}

/-- One program after another. -/
def bind : Prog C α → (α → Prog C β) → Prog C β
  | done a, f => f a
  | access c op k, f => access c op fun v => (k v).bind f

/-- Whether a program has returned. -/
def isDone : Prog C α → Bool
  | done _ => true
  | access .. => false

/-- What a program has returned. -/
def returned : Prog C α → Option α
  | done a => some a
  | access .. => none

instance : Monad (Prog C) where
  pure := done
  bind := bind

/-- An atomic load. -/
def load (c : C) : Prog C UInt64 := access c .load done

/-- An atomic store. -/
def store (c : C) (value : UInt64) : Prog C Unit := access c (.store value) fun _ => done ()

/-- An atomic `fetch_add`. -/
def fetchAdd (c : C) (n : UInt64) : Prog C Unit := access c (.fetchAdd n) fun _ => done ()

@[simp] theorem isDone_done (a : α) : (done a : Prog C α).isDone = true := rfl

theorem eq_done_of_returned {p : Prog C α} {a : α} (h : p.returned = some a) : p = done a := by
  cases p with
  | done b => exact congrArg done (Option.some.inj h)
  | access c op k => cases h

theorem load_bind (c : C) (f : UInt64 → Prog C β) : (load c >>= f) = access c .load f := rfl

theorem bind_assoc (p : Prog C α) (f : α → Prog C β) (g : β → Prog C γ) :
    ((p >>= f) >>= g) = p >>= fun a => f a >>= g := by
  induction p with
  | done a => rfl
  | access c op k ih => exact congrArg (access c op) (funext ih)

section Run

variable [DecidableEq C]

/-- The memory after an access. -/
def write (m : Memory C) (c : C) : Op → Memory C
  | .load => m
  | .store value => Function.update m c value
  | .fetchAdd n => Function.update m c (m c + n)

/-- The result and the final memory of a program that runs alone. -/
def run : Prog C α → Memory C → α × Memory C
  | done a, m => (a, m)
  | access c op k, m => (k (op.result (m c))).run (write m c op)

theorem write_eq_update (m : Memory C) (c : C) (op : Op) :
    write m c op = Function.update m c (op.newValue (m c)) := by
  cases op with
  | load => exact (Function.update_eq_self c m).symm
  | store value => rfl
  | fetchAdd n => rfl

@[simp] theorem write_load (m : Memory C) (c : C) : write m c .load = m := rfl

theorem write_of_ne (m : Memory C) {c d : C} (op : Op) (h : d ≠ c) : write m c op d = m d := by
  rw [write_eq_update, Function.update_of_ne h]

@[simp] theorem write_self (m : Memory C) (c : C) (op : Op) :
    write m c op c = op.newValue (m c) := by
  rw [write_eq_update, Function.update_self]

@[simp] theorem run_done (a : α) (m : Memory C) : (done a : Prog C α).run m = (a, m) := rfl

@[simp] theorem run_pure (a : α) (m : Memory C) : (pure a : Prog C α).run m = (a, m) := rfl

@[simp] theorem run_access (c : C) (op : Op) (k : UInt64 → Prog C α) (m : Memory C) :
    (access c op k).run m = (k (op.result (m c))).run (write m c op) := rfl

@[simp] theorem run_load (c : C) (m : Memory C) : (load c).run m = (m c, m) := by
  simp [load, Op.result]

@[simp] theorem run_store (c : C) (value : UInt64) (m : Memory C) :
    (store c value).run m = ((), Function.update m c value) := rfl

@[simp] theorem run_fetchAdd (c : C) (n : UInt64) (m : Memory C) :
    (fetchAdd c n).run m = ((), Function.update m c (m c + n)) := rfl

/-- A sequence runs its second part in the memory that the first part leaves. -/
@[simp] theorem run_bind (p : Prog C α) (f : α → Prog C β) (m : Memory C) :
    (p >>= f).run m = (f (p.run m).1).run (p.run m).2 := by
  induction p generalizing m with
  | done a => rfl
  | access c op k ih => exact ih _ _

end Run

/-- Every access the program may make satisfies `P`, and every result `Q`. -/
def Every (P : C → Op → Prop) (Q : α → Prop) : Prog C α → Prop
  | done a => Q a
  | access c op k => P c op ∧ ∀ v, (k v).Every P Q

/-- The sequencing rule for the accesses a program may make. -/
theorem Every.bind {P : C → Op → Prop} {Q : α → Prop} {R : β → Prop} {p : Prog C α}
    {f : α → Prog C β} (hp : p.Every P Q) (hf : ∀ a, Q a → (f a).Every P R) :
    (p >>= f).Every P R := by
  induction p with
  | done a => exact hf a hp
  | access c op k ih => exact ⟨hp.1, fun v => ih v (hp.2 v)⟩

theorem every_store {P : C → Op → Prop} {c : C} {value : UInt64} (h : P c (.store value)) :
    (store c value).Every P fun _ => True := ⟨h, fun _ => trivial⟩

theorem every_load_bind {P : C → Op → Prop} {Q : β → Prop} {c : C} {f : UInt64 → Prog C β}
    (h : P c .load) (hf : ∀ v, (f v).Every P Q) : (load c >>= f).Every P Q := ⟨h, hf⟩

theorem every_store_bind {P : C → Op → Prop} {Q : β → Prop} {c : C} {value : UInt64}
    {f : Unit → Prog C β} (h : P c (.store value)) (hf : (f ()).Every P Q) :
    (store c value >>= f).Every P Q := ⟨h, fun _ => hf⟩

theorem every_fetchAdd_bind {P : C → Op → Prop} {Q : β → Prop} {c : C} {n : UInt64}
    {f : Unit → Prog C β} (h : P c (.fetchAdd n)) (hf : (f ()).Every P Q) :
    (fetchAdd c n >>= f).Every P Q := ⟨h, fun _ => hf⟩

theorem Every.mono {P P' : C → Op → Prop} {Q Q' : α → Prop} {p : Prog C α} (h : p.Every P Q)
    (hP : ∀ c op, P c op → P' c op) (hQ : ∀ a, Q a → Q' a) : p.Every P' Q' := by
  induction p with
  | done a => exact hQ a h
  | access c op k ih => exact ⟨hP c op h.1, fun v => ih v (h.2 v)⟩

/-- Words that a program only loads keep their value. -/
theorem Every.run_frame [DecidableEq C] {T : C → Prop} {Q : α → Prop} {p : Prog C α}
    (h : p.Every (fun c op => T c → op = .load) Q) (m : Memory C) :
    ∀ c, T c → (p.run m).2 c = m c := by
  induction p generalizing m with
  | done a => exact fun _ _ => rfl
  | access c op k ih =>
    intro d hd
    rw [run_access, ih _ (h.2 _) _ d hd]
    by_cases he : d = c
    · subst he
      rw [h.1 hd, write_load]
    · exact write_of_ne m op he

/-- A word that a program never accesses may hold anything. -/
theorem Every.run_update [DecidableEq C] {Q : α → Prop} {p : Prog C α} {c : C}
    (h : p.Every (fun d _ => d ≠ c) Q) (m : Memory C) (value : UInt64) :
    p.run (Function.update m c value) =
      ((p.run m).1, Function.update (p.run m).2 c value) := by
  induction p generalizing m with
  | done a => rfl
  | access d op k ih =>
    have hwrite : write (Function.update m c value) d op =
        Function.update (write m d op) c value := by
      rw [write_eq_update, write_eq_update, Function.update_of_ne h.1,
        Function.update_comm h.1]
    rw [run_access, run_access, Function.update_of_ne h.1, hwrite, ih _ (h.2 _)]

section Congr

variable [DecidableEq C] {T : C → Prop}

/-- An access keeps memories alike on `T`. -/
theorem write_congr {m m' : Memory C} (h : ∀ c, T c → m c = m' c) (c : C) (op : Op) :
    ∀ d, T d → write m c op d = write m' c op d := by
  intro d hd
  by_cases he : d = c
  · subst he
    rw [write_self, write_self, h d hd]
  · rw [write_of_ne m op he, write_of_ne m' op he, h d hd]

omit [DecidableEq C] in
/-- What an access that loads only from `T` returns depends on `T` alone. -/
theorem result_congr_of_load {m m' : Memory C} (h : ∀ c, T c → m c = m' c) {c : C} {op : Op}
    (hload : op = .load → T c) : op.result (m c) = op.result (m' c) := by
  by_cases he : op = .load
  · rw [h c (hload he)]
  · exact Op.result_congr he _ _

/-- A program that loads only words of `T` returns the same from memories alike on
`T` and leaves memories alike on `T`. -/
theorem Every.run_congr {Q : α → Prop} {p : Prog C α}
    (hp : p.Every (fun c op => op = .load → T c) Q) {m m' : Memory C}
    (h : ∀ c, T c → m c = m' c) :
    (p.run m).1 = (p.run m').1 ∧ ∀ c, T c → (p.run m).2 c = (p.run m').2 c := by
  induction p generalizing m m' with
  | done a => exact ⟨rfl, h⟩
  | access c op k ih =>
    rw [run_access, run_access, result_congr_of_load h hp.1]
    exact ih _ (hp.2 _) (write_congr h c op)

end Congr

end Prog

end OrderbookEngine
