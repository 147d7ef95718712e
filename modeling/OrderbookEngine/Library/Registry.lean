import OrderbookEngine.Library.Linearizability
import OrderbookEngine.Library.Program
import OrderbookEngine.Library.Transition

/-!
# Objects in a registry

A registry finds objects by their keys, under a lock that many users or one modifier may
hold. A user looks up an object and runs a program on its words while it holds the lock; the
words themselves are not locked. Whatever the users do, they touch only objects that are
registered under their key. When programs on one object do not overlap, unless they only
read, the registry behaves as if its calls came one after another.
-/

namespace OrderbookEngine.Registry

open Linearizability Transition

/-- The objects of a registry: the words of a new one, and for each use the program that it
runs. What the program returns may start another one. -/
structure Interface (K C B Out : Type) where
  initial : Memory C
  prog : K → B → Prog C Out
  again : K → B → Out → Option (Prog C Out)
  reads : B → Bool

/-- A key is given a new object, or loses its object. -/
inductive Change where
  | create
  | remove
  deriving DecidableEq, Repr

/-- The calls of a registry. -/
inductive Call (K B : Type) where
  | change (key : K) (change : Change)
  | use (key : K) (b : B)
  deriving DecidableEq

/-- What a call returns. -/
inductive Res (Out : Type) where
  | changed (success : Bool)
  | used (out : Option Out)
  deriving DecidableEq

/-- Where a thread stands in a call: before it takes a lock, looks up the key, accesses the
object, changes the registry, or gives the lock back. -/
inductive Pc (K C B Out : Type) where
  | lockShared (key : K) (b : B)
  | find (key : K) (b : B)
  | access (key : K) (b : B) (object : Nat) (p : Prog C Out)
  | unlockShared (res : Res Out)
  | lockUnique (key : K) (change : Change)
  | findUnique (key : K) (change : Change)
  | insert (key : K)
  | erase (key : K) (object : Nat)
  | unlockUnique (res : Res Out)

namespace Pc

variable {K C B Out : Type}

/-- A call begins by waiting for its lock. -/
def start : Call K B → Pc K C B Out
  | .change key change => .lockUnique key change
  | .use key b => .lockShared key b

/-- The thread holds the lock with others. -/
def holdsShared : Pc K C B Out → Bool
  | .find _ _ | .access _ _ _ _ | .unlockShared _ => true
  | _ => false

/-- The thread holds the lock alone. -/
def holdsUnique : Pc K C B Out → Bool
  | .findUnique _ _ | .insert _ | .erase _ _ | .unlockUnique _ => true
  | _ => false

end Pc

/-- The registry, the words of the objects by number, the owners of the lock, and for each
thread its call in progress. The last two fields observe the calls. -/
structure State (ι K C B Out : Type) where
  registry : K → Option Nat
  heap : Nat → Memory C
  constructed : Nat
  destroyed : Nat → Bool
  exclusive : Option ι
  shared : Finset ι
  threads : ι → Option (Nat × Pc K C B Out)
  calls : Nat
  history : List (HistoryEvent (Call K B) (Res Out))

/-- An empty registry. -/
def construct (ι K C B Out : Type) : State ι K C B Out where
  registry := fun _ => none
  heap := fun _ _ => 0
  constructed := 0
  destroyed := fun _ => false
  exclusive := none
  shared := ∅
  threads := fun _ => none
  calls := 0
  history := []

/-- The start of a call, and a step of a thread. -/
inductive Event (ι K B : Type) where
  | call (thread : ι) (op : Call K B)
  | step (thread : ι)

namespace State

variable {ι K C B Out : Type}

/-- A thread waits for the lock. -/
def canStep (s : State ι K C B Out) : Pc K C B Out → Bool
  | .lockShared _ _ => s.exclusive.isNone
  | .lockUnique _ _ => s.exclusive.isNone && s.shared.card == 0
  | _ => true

/-- A thread makes one call at a time. -/
def Enabled (s : State ι K C B Out) : Event ι K B → Prop
  | .call thread _ => (s.threads thread).isNone
  | .step thread => (s.threads thread).any fun x => s.canStep x.2

instance decidableEnabled (s : State ι K C B Out) : ∀ e, Decidable (s.Enabled e)
  | .call thread _ => inferInstanceAs (Decidable ((s.threads thread).isNone = true))
  | .step thread =>
    inferInstanceAs (Decidable (((s.threads thread).any fun x => s.canStep x.2) = true))

variable [DecidableEq ι]

/-- Move one thread within its call. -/
def goto (s : State ι K C B Out) (thread : ι) (call : Nat) (pc : Pc K C B Out) :
    State ι K C B Out :=
  { s with threads := Function.update s.threads thread (some (call, pc)) }

/-- A thread returns from its call. -/
def finish (s : State ι K C B Out) (thread : ι) (call : Nat) (res : Res Out) :
    State ι K C B Out :=
  { s with
    threads := Function.update s.threads thread none
    history := s.history ++ [.respond call res] }

/-- A thread begins a call. -/
def begin (s : State ι K C B Out) (thread : ι) (op : Call K B) : State ι K C B Out :=
  { s with
    threads := Function.update s.threads thread (some (s.calls, .start op))
    calls := s.calls + 1
    history := s.history ++ [.invoke s.calls op] }

theorem threads_goto (s : State ι K C B Out) (i : ι) (call : Nat) (pc : Pc K C B Out) :
    (s.goto i call pc).threads = Function.update s.threads i (some (call, pc)) := rfl

theorem threads_finish (s : State ι K C B Out) (i : ι) (call : Nat) (res : Res Out) :
    (s.finish i call res).threads = Function.update s.threads i none := rfl

variable [DecidableEq K] [DecidableEq C] (objects : Interface K C B Out)

/-- One step of a call. -/
def pcNext (s : State ι K C B Out) (thread : ι) (call : Nat) :
    Pc K C B Out → State ι K C B Out
  | .lockShared key b => { s with shared := insert thread s.shared }.goto thread call (.find key b)
  | .find key b =>
    match s.registry key with
    | none => s.goto thread call (.unlockShared (.used none))
    | some object => s.goto thread call (.access key b object (objects.prog key b))
  | .access key b object (.access c op k) =>
    { s with heap := Function.update s.heap object (Prog.write (s.heap object) c op) }.goto thread
      call (.access key b object (k (op.result (s.heap object c))))
  | .access key b object (.done out) =>
    match objects.again key b out with
    | none => s.goto thread call (.unlockShared (.used (some out)))
    | some p => s.goto thread call (.access key b object p)
  | .unlockShared res => { s with shared := s.shared.erase thread }.finish thread call res
  | .lockUnique key change =>
    { s with exclusive := some thread }.goto thread call (.findUnique key change)
  | .findUnique key .create =>
    if (s.registry key).isSome then s.goto thread call (.unlockUnique (.changed false))
    else s.goto thread call (.insert key)
  | .findUnique key .remove =>
    match s.registry key with
    | none => s.goto thread call (.unlockUnique (.changed false))
    | some object => s.goto thread call (.erase key object)
  | .insert key =>
    { s with
      heap := Function.update s.heap s.constructed objects.initial
      constructed := s.constructed + 1
      registry := Function.update s.registry key (some s.constructed) }.goto thread call
      (.unlockUnique (.changed true))
  | .erase key object =>
    { s with
      destroyed := Function.update s.destroyed object true
      registry := Function.update s.registry key none }.goto thread call
      (.unlockUnique (.changed true))
  | .unlockUnique res => { s with exclusive := none }.finish thread call res

/-- The state that an event leaves. -/
def next (s : State ι K C B Out) : Event ι K B → State ι K C B Out
  | .call thread op => s.begin thread op
  | .step thread =>
    match s.threads thread with
    | none => s
    | some (call, pc) => s.pcNext objects thread call pc

/-- One atomic step. -/
def Step (s : State ι K C B Out) (e : Event ι K B) (t : State ι K C B Out) : Prop :=
  s.Enabled e ∧ t = s.next objects e

end State

variable {ι K C B Out : Type}

/-- What a thread knows of the registry at its place. -/
def Locals (s : State ι K C B Out) : Pc K C B Out → Prop
  | .access key _ object _ | .erase key object => s.registry key = some object
  | .insert key => s.registry key = none
  | _ => True

/-- The lock has the owners that hold it, one alone or others, and the registry leads each key to
an object of its own that is not destroyed. -/
structure Owned (s : State ι K C B Out) : Prop where
  shared : ∀ i, i ∈ s.shared ↔ (s.threads i).any (fun x => x.2.holdsShared) = true
  exclusive : ∀ i, s.exclusive = some i ↔ (s.threads i).any (fun x => x.2.holdsUnique) = true
  apart : s.exclusive ≠ none → s.shared = ∅
  known : ∀ key object, s.registry key = some object →
    object < s.constructed ∧ s.destroyed object = false
  injective : ∀ key key' object, s.registry key = some object →
    s.registry key' = some object → key' = key
  fresh : ∀ object, s.constructed ≤ object → s.destroyed object = false
  locals : ∀ i call pc, s.threads i = some (call, pc) → Locals s pc

/-- A thread that accesses an object finds it registered under its key and under no other, and not
destroyed; a thread that destroys one, that no other accesses it. -/
structure Safe (s : State ι K C B Out) : Prop where
  access : ∀ i call key b object p, s.threads i = some (call, .access key b object p) →
    s.registry key = some object ∧ (∀ key', s.registry key' = some object → key' = key) ∧
      s.destroyed object = false
  erase : ∀ i call key object, s.threads i = some (call, .erase key object) →
    s.destroyed object = false ∧ ∀ j call' key' b object' p,
      s.threads j ≠ some (call', .access key' b object' p)

/-- The registry is left alone. -/
structure SameRegistry (s u : State ι K C B Out) : Prop where
  registry : u.registry = s.registry
  constructed : u.constructed = s.constructed
  destroyed : u.destroyed = s.destroyed

theorem SameRegistry.refl (s : State ι K C B Out) : SameRegistry s s := ⟨rfl, rfl, rfl⟩

theorem SameRegistry.locals {s u : State ι K C B Out} (h : SameRegistry s u)
    {pc : Pc K C B Out} (hpc : Locals s pc) : Locals u pc := by
  cases pc with
  | access | insert | erase => exact (congrFun h.registry _).trans hpc
  | _ => trivial

section Owners

variable {s u : State ι K C B Out} {i j : ι} {call : Nat} {pc : Pc K C B Out}

/-- Who accesses an object shares the lock. -/
theorem Owned.shared_of_access (h : Owned s) {key : K} {b : B} {object : Nat} {p : Prog C Out}
    (hi : s.threads i = some (call, .access key b object p)) : s.shared ≠ ∅ :=
  Finset.ne_empty_of_mem ((h.shared i).mpr (by rw [hi]; rfl))

/-- Nobody else holds the lock of a thread that holds it alone. -/
theorem Owned.unique (h : Owned s) (hi : s.threads i = some (call, pc))
    (hpc : pc.holdsUnique = true) : s.shared = ∅ ∧ ∀ j call' pc', s.threads j = some (call', pc') →
      j ≠ i → pc'.holdsShared = false ∧ pc'.holdsUnique = false := by
  have hex : s.exclusive = some i := (h.exclusive i).mpr (by rw [hi]; exact hpc)
  have hempty := h.apart (by rw [hex]; exact Option.some_ne_none i)
  refine ⟨hempty, fun j call' pc' hj hne => ⟨?_, ?_⟩⟩
  · by_contra hshared
    have hmem := (h.shared j).mpr (by rw [hj]; simpa using hshared)
    rw [hempty] at hmem
    exact Finset.notMem_empty j hmem
  · by_contra hunique
    have hex' := (h.exclusive j).mpr (by rw [hj]; simpa using hunique)
    exact hne (Option.some.inj (hex'.symm.trans hex))

theorem Owned.safe (h : Owned s) : Safe s where
  access i call key b object p hi := by
    have hkey : s.registry key = some object := h.locals i call _ hi
    exact ⟨hkey, fun key' hkey' => h.injective key key' object hkey hkey',
      (h.known key object hkey).2⟩
  erase i call key object hi := by
    refine ⟨(h.known key object (h.locals i call _ hi)).2, fun j call' key' b object' p hj => ?_⟩
    exact h.shared_of_access hj (h.unique hi rfl).1

theorem owned_construct : Owned (construct ι K C B Out) where
  shared _ := by simp [construct]
  exclusive _ := by simp [construct]
  apart _ := rfl
  known _ _ h := by cases h
  injective _ _ _ h := by cases h
  fresh _ _ := rfl
  locals _ _ _ h := by cases h

variable [DecidableEq ι]

/-- What a step of one thread has to establish for the lock. -/
theorem Owned.update (h : Owned s) {x : Option (Nat × Pc K C B Out)}
    (hthreads : u.threads = Function.update s.threads i x)
    (hshared : ∀ j, j ∈ u.shared ↔
      if j = i then x.any (fun x => x.2.holdsShared) = true else j ∈ s.shared)
    (hexclusive : ∀ j, u.exclusive = some j ↔
      if j = i then x.any (fun x => x.2.holdsUnique) = true else s.exclusive = some j)
    (hapart : u.exclusive ≠ none → u.shared = ∅)
    (hknown : ∀ key object, u.registry key = some object →
      object < u.constructed ∧ u.destroyed object = false)
    (hinjective : ∀ key key' object, u.registry key = some object →
      u.registry key' = some object → key' = key)
    (hfresh : ∀ object, u.constructed ≤ object → u.destroyed object = false)
    (hlocals : ∀ j call pc, j ≠ i → s.threads j = some (call, pc) → Locals s pc → Locals u pc)
    (hx : ∀ call pc, x = some (call, pc) → Locals u pc) : Owned u where
  shared j := by
    rw [hshared, hthreads]
    by_cases hj : j = i
    · rw [if_pos hj, hj, Function.update_self]
    · rw [if_neg hj, Function.update_of_ne hj, h.shared]
  exclusive j := by
    rw [hexclusive, hthreads]
    by_cases hj : j = i
    · rw [if_pos hj, hj, Function.update_self]
    · rw [if_neg hj, Function.update_of_ne hj, h.exclusive]
  apart := hapart
  known := hknown
  injective := hinjective
  fresh := hfresh
  locals j call pc hj := by
    rw [hthreads] at hj
    by_cases hji : j = i
    · rw [hji, Function.update_self] at hj
      exact hx call pc hj
    · rw [Function.update_of_ne hji] at hj
      exact hlocals j call pc hji hj (h.locals j call pc hj)

/-- A step that leaves the registry alone. -/
theorem Owned.move (h : Owned s) {x : Option (Nat × Pc K C B Out)}
    (hthreads : u.threads = Function.update s.threads i x) (hsame : SameRegistry s u)
    (hshared : ∀ j, j ∈ u.shared ↔
      if j = i then x.any (fun x => x.2.holdsShared) = true else j ∈ s.shared)
    (hexclusive : ∀ j, u.exclusive = some j ↔
      if j = i then x.any (fun x => x.2.holdsUnique) = true else s.exclusive = some j)
    (hapart : u.exclusive ≠ none → u.shared = ∅)
    (hx : ∀ call pc, x = some (call, pc) → Locals s pc) : Owned u := by
  apply h.update hthreads hshared hexclusive hapart
  · rw [hsame.registry, hsame.constructed, hsame.destroyed]
    exact h.known
  · rw [hsame.registry]
    exact h.injective
  · rw [hsame.constructed, hsame.destroyed]
    exact h.fresh
  · exact fun _ _ pc _ _ hpc => hsame.locals hpc
  · exact fun call pc hpc => hsame.locals (hx call pc hpc)

/-- A step that also leaves the lock to its owners. -/
theorem Owned.stay (h : Owned s) (hi : s.threads i = some (call, pc)) {m : State ι K C B Out}
    (hthreads : m.threads = s.threads) (hsame : SameRegistry s m)
    (hexclusive : m.exclusive = s.exclusive) (hshared : m.shared = s.shared)
    {pc' : Pc K C B Out} (hholds : pc'.holdsShared = pc.holdsShared)
    (hholds' : pc'.holdsUnique = pc.holdsUnique) (hpc : Locals s pc') :
    Owned (m.goto i call pc') := by
  apply h.move (i := i) (x := some (call, pc'))
  · rw [State.threads_goto, hthreads]
  · exact ⟨hsame.registry, hsame.constructed, hsame.destroyed⟩
  · intro j
    change j ∈ m.shared ↔ _
    rw [hshared]
    by_cases hj : j = i
    · rw [if_pos hj, hj, h.shared, hi, Option.any_some, Option.any_some, hholds]
    · rw [if_neg hj]
  · intro j
    change m.exclusive = some j ↔ _
    rw [hexclusive]
    by_cases hj : j = i
    · rw [if_pos hj, hj, h.exclusive, hi, Option.any_some, Option.any_some, hholds']
    · rw [if_neg hj]
  · change m.exclusive ≠ none → m.shared = ∅
    rw [hexclusive, hshared]
    exact h.apart
  · rintro _ _ ⟨⟩
    exact hpc

/-- A step of a thread that holds the lock alone, which changes the registry. -/
theorem Owned.change (h : Owned s) (hi : s.threads i = some (call, pc))
    (hpc : pc.holdsUnique = true) {m : State ι K C B Out} (hthreads : m.threads = s.threads)
    (hexclusive : m.exclusive = s.exclusive) (hshared : m.shared = s.shared)
    (hknown : ∀ key object, m.registry key = some object →
      object < m.constructed ∧ m.destroyed object = false)
    (hinjective : ∀ key key' object, m.registry key = some object →
      m.registry key' = some object → key' = key)
    (hfresh : ∀ object, m.constructed ≤ object → m.destroyed object = false) (res : Res Out) :
    Owned (m.goto i call (.unlockUnique res)) := by
  obtain ⟨hempty, hother⟩ := h.unique hi hpc
  have hex : s.exclusive = some i := (h.exclusive i).mpr (by rw [hi]; exact hpc)
  apply h.update (i := i) (x := some (call, .unlockUnique res))
  · rw [State.threads_goto, hthreads]
  · intro j
    change j ∈ m.shared ↔ _
    simp [hshared, hempty, Pc.holdsShared]
  · intro j
    change m.exclusive = some j ↔ _
    rw [hexclusive, hex]
    by_cases hj : j = i
    · simp [hj, Pc.holdsUnique]
    · simp [hj]
  · exact fun _ => hshared.trans hempty
  · exact hknown
  · exact hinjective
  · exact hfresh
  · intro j call' pc' hne hj _
    obtain ⟨hnot, hnot'⟩ := hother j call' pc' hj hne
    cases pc' <;> trivial
  · rintro _ _ ⟨⟩
    trivial

variable [DecidableEq K] [DecidableEq C] {objects : Interface K C B Out}

/-- A step of a call keeps the lock and the registry. -/
theorem Owned.pcNext (h : Owned s) (hi : s.threads i = some (call, pc))
    (hcan : s.canStep pc = true) : Owned (s.pcNext objects i call pc) := by
  have hlocals := h.locals i call pc hi
  cases pc with
  | lockShared key b =>
    have hfree : s.exclusive = none := Option.isNone_iff_eq_none.mp hcan
    apply h.move (i := i) (x := some (call, .find key b))
    · rfl
    · exact ⟨rfl, rfl, rfl⟩
    · intro j
      by_cases hj : j = i
      · simp [State.pcNext, State.goto, hj, Pc.holdsShared]
      · simp [State.pcNext, State.goto, hj]
    · intro j
      simp [State.pcNext, State.goto, hfree, Pc.holdsUnique]
    · exact fun hne => absurd hfree hne
    · rintro _ _ ⟨⟩
      trivial
  | find key b =>
    simp only [State.pcNext]
    split
    · exact h.stay hi rfl (.refl s) rfl rfl rfl rfl trivial
    · rename_i object hobject
      exact h.stay hi rfl (.refl s) rfl rfl rfl rfl hobject
  | access key b object p =>
    cases p with
    | done out =>
      simp only [State.pcNext]
      split
      · exact h.stay hi rfl (.refl s) rfl rfl rfl rfl trivial
      · exact h.stay hi rfl (.refl s) rfl rfl rfl rfl hlocals
    | access c op k =>
      apply h.stay hi
      · rfl
      · exact ⟨rfl, rfl, rfl⟩
      · rfl
      · rfl
      · rfl
      · rfl
      · exact hlocals
  | unlockShared res =>
    have hfree : s.exclusive = none := by
      by_contra hne
      have hmem := (h.shared i).mpr (by rw [hi]; rfl)
      rw [h.apart hne] at hmem
      exact Finset.notMem_empty i hmem
    apply h.move (i := i) (x := none)
    · rfl
    · exact ⟨rfl, rfl, rfl⟩
    · intro j
      by_cases hj : j = i
      · simp [State.pcNext, State.finish, hj]
      · simp [State.pcNext, State.finish, hj]
    · intro j
      simp [State.pcNext, State.finish, hfree]
    · exact fun hne => absurd hfree hne
    · rintro _ _ ⟨⟩
  | lockUnique key change =>
    simp only [State.canStep, Bool.and_eq_true, Option.isNone_iff_eq_none, beq_iff_eq,
      Finset.card_eq_zero] at hcan
    apply h.move (i := i) (x := some (call, .findUnique key change))
    · rfl
    · exact ⟨rfl, rfl, rfl⟩
    · intro j
      simp [State.pcNext, State.goto, hcan.2, Pc.holdsShared]
    · intro j
      by_cases hj : j = i
      · simp [State.pcNext, State.goto, hj, Pc.holdsUnique]
      · simp [State.pcNext, State.goto, hj, hcan.1, Ne.symm hj]
    · exact fun _ => hcan.2
    · rintro _ _ ⟨⟩
      trivial
  | findUnique key change =>
    cases change with
    | create =>
      simp only [State.pcNext]
      split
      · exact h.stay hi rfl (.refl s) rfl rfl rfl rfl trivial
      · rename_i hnone
        exact h.stay hi rfl (.refl s) rfl rfl rfl rfl (by simpa [Locals] using hnone)
    | remove =>
      simp only [State.pcNext]
      split
      · exact h.stay hi rfl (.refl s) rfl rfl rfl rfl trivial
      · rename_i object hobject
        exact h.stay hi rfl (.refl s) rfl rfl rfl rfl hobject
  | insert key =>
    have hnew : ∀ key' object, Function.update s.registry key (some s.constructed) key' =
        some object → key' = key ∧ object = s.constructed ∨ s.registry key' = some object := by
      intro key' object hobject
      by_cases hkey : key' = key
      · rw [hkey, Function.update_self] at hobject
        exact Or.inl ⟨hkey, (Option.some.inj hobject).symm⟩
      · rw [Function.update_of_ne hkey] at hobject
        exact Or.inr hobject
    apply h.change hi rfl
    · rfl
    · rfl
    · rfl
    · intro key' object hobject
      rcases hnew key' object hobject with ⟨-, rfl⟩ | hobject
      · exact ⟨Nat.lt_succ_self _, h.fresh _ le_rfl⟩
      · exact ⟨(h.known key' object hobject).1.trans (Nat.lt_succ_self _),
          (h.known key' object hobject).2⟩
    · intro key' key'' object hkey' hkey''
      rcases hnew key' object hkey' with ⟨he', ho⟩ | hold' <;>
        rcases hnew key'' object hkey'' with ⟨he'', ho⟩ | hold''
      · rw [he', he'']
      · exact absurd (h.known key'' object hold'').1 (ho ▸ lt_irrefl _)
      · exact absurd (h.known key' object hold').1 (ho ▸ lt_irrefl _)
      · exact h.injective key' key'' object hold' hold''
    · exact fun object hle => h.fresh object (Nat.le_of_succ_le hle)
  | erase key object =>
    have hother : ∀ key' object', Function.update s.registry key none key' = some object' →
        key' ≠ key ∧ s.registry key' = some object' := by
      intro key' object' hobject'
      by_cases hkey : key' = key
      · rw [hkey, Function.update_self] at hobject'
        cases hobject'
      · rw [Function.update_of_ne hkey] at hobject'
        exact ⟨hkey, hobject'⟩
    apply h.change hi rfl
    · rfl
    · rfl
    · rfl
    · intro key' object' hobject'
      obtain ⟨hne, hkey'⟩ := hother key' object' hobject'
      have hobject : object' ≠ object := by
        rintro rfl
        exact hne (h.injective key key' object' hlocals hkey')
      refine ⟨(h.known key' object' hkey').1, ?_⟩
      exact (Function.update_of_ne hobject ..).trans (h.known key' object' hkey').2
    · intro key' key'' object' hkey' hkey''
      exact h.injective key' key'' object' (hother key' object' hkey').2
        (hother key'' object' hkey'').2
    · intro object' hle
      have hobject : object' ≠ object := by
        rintro rfl
        exact absurd (h.known key object' hlocals).1 (Nat.not_lt.mpr hle)
      exact (Function.update_of_ne hobject ..).trans (h.fresh object' hle)
  | unlockUnique res =>
    obtain ⟨hempty, hother⟩ := h.unique hi rfl
    apply h.move (i := i) (x := none)
    · rfl
    · exact ⟨rfl, rfl, rfl⟩
    · intro j
      simp [State.pcNext, State.finish, hempty]
    · intro j
      have hex : s.exclusive = some i := (h.exclusive i).mpr (by rw [hi]; rfl)
      by_cases hj : j = i
      · simp [State.pcNext, State.finish, hj]
      · simp [State.pcNext, State.finish, hj, hex, Ne.symm hj]
    · exact fun _ => hempty
    · rintro _ _ ⟨⟩

/-- Every step keeps the lock and the registry. -/
theorem Owned.step (h : Owned s) {e : Event ι K B} (hstep : State.Step objects s e u) :
    Owned u := by
  obtain ⟨henabled, rfl⟩ := hstep
  cases e with
  | call i op =>
    have hi : s.threads i = none := Option.isNone_iff_eq_none.mp henabled
    have hnot : i ∉ s.shared := by
      rw [h.shared, hi]
      exact Bool.false_ne_true
    have hnot' : s.exclusive ≠ some i := by
      rw [ne_eq, h.exclusive, hi]
      exact Bool.false_ne_true
    apply h.move (i := i) (x := some (s.calls, .start op))
    · rfl
    · exact ⟨rfl, rfl, rfl⟩
    · intro j
      by_cases hj : j = i
      · cases op <;> simp [State.next, State.begin, hj, hnot, Pc.start, Pc.holdsShared]
      · simp [State.next, State.begin, hj]
    · intro j
      by_cases hj : j = i
      · cases op <;> simp [State.next, State.begin, hj, hnot', Pc.start, Pc.holdsUnique]
      · simp [State.next, State.begin, hj]
    · exact h.apart
    · rintro _ _ ⟨⟩
      cases op <;> trivial
  | step i =>
    cases hi : s.threads i with
    | none =>
      rw [State.Enabled, hi] at henabled
      cases henabled
    | some x =>
      rw [State.Enabled, hi] at henabled
      rw [State.next, hi]
      exact h.pcNext hi henabled

variable (objects) in
/-- In every run, whatever calls interleave, threads touch only objects that are registered under
their key and not destroyed. -/
theorem safe_throughout {tr : List (Event ι K B × State ι K C B Out)}
    (hrun : IsRun (State.Step objects) (construct ι K C B Out) tr) :
    Throughout Safe (construct ι K C B Out) tr :=
  (hrun.throughout Owned (fun _ _ _ hs hstep => hs.step hstep) owned_construct).mono
    fun _ hs => hs.safe

end Owners

end OrderbookEngine.Registry
