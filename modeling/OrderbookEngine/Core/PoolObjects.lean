import OrderbookEngine.Core.LockFreePool

/-!
# The objects of a pool

Between calls a pool is its head and its flags. What it does to objects is followed beside
them: the slot in which each object was constructed, the object that was last constructed in
each slot, and what the destructor has run on. A constructor may throw; its slot is claimed by
then.
-/

namespace OrderbookEngine

open LockFreePool Transition

/-- A pool between calls and the objects that it constructed, numbered in their order. -/
structure PoolObjects where
  head : UInt64
  inUse : Nat → Bool
  /-- The slot of each object. -/
  slots : List Nat
  /-- The object last constructed in a slot. -/
  storage : Nat → Option Nat
  /-- What `~T` has run on, oldest first. -/
  destroyed : List (Option Nat)

namespace PoolObjects

/-- `LockFreePool::LockFreePool`. -/
def construct : PoolObjects where
  head := 0
  inUse := fun _ => false
  slots := []
  storage := fun _ => none
  destroyed := []

/-- How a call of `allocate` ends. -/
inductive Outcome where
  | object (k : Nat)
  | null
  | threw
  deriving DecidableEq, Repr

variable (layout : Layout) (p : PoolObjects)

/-- The slot that the loop of `allocate` claims. -/
def freeSlot : Option Nat :=
  ((List.range layout.poolSize).map fun attempts =>
    (p.head.toNat % layout.poolSize + attempts) % layout.poolSize).find? fun idx =>
      p.inUse idx = false

/-- `allocate`, with a constructor that throws or not. -/
def allocate (throws : Bool) : PoolObjects × Outcome :=
  match p.freeSlot layout with
  | none => ({ p with head := p.head + 1 }, .null)
  | some idx =>
    let claimed := { p with head := p.head + 1, inUse := Function.update p.inUse idx true }
    if throws then (claimed, .threw)
    else
      ({ claimed with
          slots := p.slots ++ [idx]
          storage := Function.update p.storage idx (some p.slots.length) },
        .object p.slots.length)

/-- `deallocate`: the destructor runs on what was last constructed where the pointer leads. -/
def deallocate (ptr : Option Nat) : PoolObjects :=
  match ptr.bind layout.indexOf with
  | none => p
  | some idx =>
    { p with
      destroyed := p.destroyed ++ [p.storage idx]
      inUse := Function.update p.inUse idx false }

/-- `LockFreePool::~LockFreePool`: what the destructor of the objects runs on. -/
def finalize : List (Option Nat) := ((List.range layout.poolSize).filter p.inUse).map p.storage

/-- `allocated`. -/
def allocated : Nat := (List.range layout.poolSize).countP p.inUse

/-- The pointer that `allocate` returned for an object. -/
def pointer (k : Nat) : Option Nat := p.slots[k]?.map layout.address

instance (object : Option Nat) : Decidable (object ∈ p.destroyed) :=
  List.instDecidableMemOfLawfulBEq _ _

/-- The constructed objects that the destructor has not run on. -/
def remaining : List Nat := (List.range p.slots.length).filter fun k => some k ∉ p.destroyed

/-- A call; a pointer is the one of an object, or null. -/
inductive Call where
  | allocate (throws : Bool)
  | deallocate (object : Option Nat)
  deriving DecidableEq, Repr

/-- The pool after a call. -/
def next : Call → PoolObjects
  | .allocate throws => (p.allocate layout throws).1
  | .deallocate object => p.deallocate layout (object.bind (p.pointer layout))

/-- The flags that are set are those of the remaining objects, which lie where they were
constructed, and the destructor has run on objects only, once on each. -/
structure Tidy : Prop where
  inside : ∀ idx ∈ p.slots, idx < layout.poolSize
  inUse : ∀ idx, p.inUse idx = true ↔ ∃ k ∈ p.remaining, p.slots[k]? = some idx
  storage : ∀ k ∈ p.remaining, ∀ idx, p.slots[k]? = some idx → p.storage idx = some k
  placed : ∀ idx ∈ p.slots, ∃ k, p.slots[k]? = some idx ∧ p.storage idx = some k
  once : p.destroyed.Nodup
  objects : ∀ o ∈ p.destroyed, ∃ k < p.slots.length, o = some k

section Lemmas

variable {layout : Layout} {p : PoolObjects} {k idx : Nat}

theorem mem_remaining : k ∈ p.remaining ↔ k < p.slots.length ∧ some k ∉ p.destroyed := by
  simp [remaining]

theorem nodup_remaining (p : PoolObjects) : p.remaining.Nodup := List.nodup_range.filter _

theorem freeSlot_free (h : p.freeSlot layout = some idx) : p.inUse idx = false := by
  simpa using List.find?_some h

theorem freeSlot_lt (h : p.freeSlot layout = some idx) : idx < layout.poolSize := by
  obtain ⟨attempts, -, rfl⟩ := List.mem_map.mp (List.mem_of_find?_eq_some h)
  exact Nat.mod_lt _ layout.poolSize_pos

theorem allocate_of_none (h : p.freeSlot layout = none) (throws : Bool) :
    p.allocate layout throws = ({ p with head := p.head + 1 }, .null) := by
  rw [allocate, h]

theorem allocate_throwing (h : p.freeSlot layout = some idx) :
    p.allocate layout true =
      ({ p with head := p.head + 1, inUse := Function.update p.inUse idx true }, .threw) := by
  simp only [allocate, h, if_true]

theorem allocate_of_some (h : p.freeSlot layout = some idx) :
    p.allocate layout false =
      ({ p with
          head := p.head + 1
          inUse := Function.update p.inUse idx true
          slots := p.slots ++ [idx]
          storage := Function.update p.storage idx (some p.slots.length) },
        .object p.slots.length) := by
  simp only [allocate, h, Bool.false_eq_true, if_false]

/-- A pointer to an object leads to its slot. -/
theorem deallocate_pointer (hinside : ∀ idx ∈ p.slots, idx < layout.poolSize)
    (hslot : p.slots[k]? = some idx) :
    p.deallocate layout (p.pointer layout k) =
      { p with
        destroyed := p.destroyed ++ [p.storage idx]
        inUse := Function.update p.inUse idx false } := by
  have hindex := layout.indexOf_address (hinside idx (List.mem_of_getElem? hslot))
  have hbind : (p.pointer layout k).bind layout.indexOf = some idx := by
    rw [pointer, hslot]
    exact hindex
  rw [deallocate, hbind]

end Lemmas

namespace Tidy

variable {layout : Layout} {p : PoolObjects} {k idx : Nat}

theorem construct : Tidy layout construct where
  inside := nofun
  inUse := fun idx => iff_of_false Bool.false_ne_true fun ⟨k, hk, _⟩ => by cases hk
  storage := nofun
  placed := nofun
  once := List.nodup_nil
  objects := nofun

/-- The destructor of the pool would run on the remaining objects, once on each. -/
theorem finalize_perm (h : Tidy layout p) :
    (p.finalize layout).Perm (p.remaining.map some) := by
  have hflag : ∀ idx, p.inUse idx = true →
      ∃ k ∈ p.remaining, p.slots[k]? = some idx ∧ p.storage idx = some k := by
    intro idx hidx
    obtain ⟨k, hk, hslot⟩ := (h.inUse idx).mp hidx
    exact ⟨k, hk, hslot, h.storage k hk idx hslot⟩
  have hnodup : (p.finalize layout).Nodup := by
    refine (List.nodup_range.filter _).map_on fun i hi j hj hij => ?_
    obtain ⟨k, -, hslot, hstorage⟩ := hflag i (List.mem_filter.mp hi).2
    obtain ⟨k', -, hslot', hstorage'⟩ := hflag j (List.mem_filter.mp hj).2
    rw [hstorage, hstorage', Option.some.injEq] at hij
    rw [hij, hslot'] at hslot
    exact (Option.some.inj hslot).symm
  have hremaining : (p.remaining.map some).Nodup :=
    (nodup_remaining p).map (Option.some_injective _)
  refine (List.perm_ext_iff_of_nodup hnodup hremaining).mpr fun o => ?_
  constructor
  · intro ho
    obtain ⟨idx, hidx, rfl⟩ := List.mem_map.mp ho
    obtain ⟨k, hk, -, hstorage⟩ := hflag idx (List.mem_filter.mp hidx).2
    exact hstorage ▸ List.mem_map_of_mem hk
  · intro ho
    obtain ⟨k, hk, rfl⟩ := List.mem_map.mp ho
    have hslot := List.getElem?_eq_getElem (mem_remaining.mp hk).1
    have hlt := h.inside _ (List.mem_of_getElem? hslot)
    refine List.mem_map.mpr ⟨_, List.mem_filter.mpr ⟨List.mem_range.mpr hlt, ?_⟩,
      h.storage k hk _ hslot⟩
    exact (h.inUse _).mpr ⟨k, hk, hslot⟩

/-- `allocated` counts the remaining objects. -/
theorem allocated_eq (h : Tidy layout p) : p.allocated layout = p.remaining.length := by
  have hlength := h.finalize_perm.length_eq
  rwa [finalize, List.length_map, List.length_map, ← List.countP_eq_length_filter] at hlength

/-- A slot that `allocate` finds free holds no remaining object. -/
theorem not_remaining_of_freeSlot (h : Tidy layout p) (hfree : p.freeSlot layout = some idx)
    (hk : k ∈ p.remaining) : p.slots[k]? ≠ some idx := by
  intro hslot
  have hinUse := (h.inUse idx).mpr ⟨k, hk, hslot⟩
  rw [freeSlot_free hfree] at hinUse
  cases hinUse

theorem head (h : Tidy layout p) (head : UInt64) : Tidy layout { p with head := head } :=
  ⟨h.inside, h.inUse, h.storage, h.placed, h.once, h.objects⟩

end Tidy

/-! ## Calls of one thread alone -/

section Alone

variable {ι : Type} [DecidableEq ι] (layout : Layout) (u : State ι) (i : ι)

/-- A step of one thread. -/
def StepAlone (u w : State ι) : Prop := w = u.next layout (.step i)

/-- What the scan of a thread leaves. -/
def scanned : Option Nat → State ι
  | none => u.goto i .idle
  | some idx => { u with inUse := Function.update u.inUse idx true }.goto i (.construct idx)

/-- A step from where a thread stands. -/
theorem stepAlone_goto (pc : Pc) :
    StepAlone layout i (u.goto i pc) ((u.goto i pc).pcNext layout i pc) := by
  simp [StepAlone, State.next, State.goto]

/-- An attempt of the loop of `allocate`. -/
theorem pcNext_claim (startIdx attempts : Nat) :
    (u.goto i (.claim startIdx attempts)).pcNext layout i (.claim startIdx attempts) =
      if attempts < layout.poolSize then
        if u.inUse ((startIdx + attempts) % layout.poolSize) = false then
          scanned u i (some ((startIdx + attempts) % layout.poolSize))
        else u.goto i (.claim startIdx (attempts + 1))
      else scanned u i none := by
  simp only [State.pcNext, State.goto, scanned, Function.update_idem]

/-- The loop of `allocate` from some attempt on claims the first slot that it finds free. -/
theorem claim_alone (startIdx attempts m : Nat) (hm : attempts + m = layout.poolSize) :
    Relation.ReflTransGen (StepAlone layout i) (u.goto i (.claim startIdx attempts))
      (scanned u i (((List.range' attempts m).map fun k =>
        (startIdx + k) % layout.poolSize).find? fun idx => u.inUse idx = false)) := by
  have hstep := stepAlone_goto layout u i (.claim startIdx attempts)
  rw [pcNext_claim layout] at hstep
  induction m generalizing attempts with
  | zero =>
    rw [if_neg (by omega)] at hstep
    exact .single hstep
  | succ m ih =>
    rw [if_pos (by omega)] at hstep
    rw [List.range'_succ, List.map_cons, List.find?_cons]
    by_cases hfree : u.inUse ((startIdx + attempts) % layout.poolSize) = false
    · rw [if_pos hfree] at hstep
      rw [hfree]
      exact .single hstep
    · rw [if_neg hfree] at hstep
      rw [decide_eq_false hfree]
      have hnext := stepAlone_goto layout u i (.claim startIdx (attempts + 1))
      rw [pcNext_claim layout] at hnext
      exact .head hstep (ih (attempts + 1) (by omega) hnext)

/-- The two steps of a construction. -/
theorem construct_alone (idx : Nat) :
    Relation.ReflTransGen (StepAlone layout i) (u.goto i (.construct idx))
      ({ u with storage := Function.update u.storage idx .live, live := idx :: u.live }.goto i
        .idle) := by
  have hstart := stepAlone_goto layout u i (.construct idx)
  have hgoto : (u.goto i (.construct idx)).pcNext layout i (.construct idx) =
      ({ u with storage := Function.update u.storage idx .constructing } : State ι).goto i
        (.finishConstruct idx) := by
    simp only [State.pcNext, State.goto, Function.update_idem]
  have hfinish := stepAlone_goto layout
    { u with storage := Function.update u.storage idx .constructing } i (.finishConstruct idx)
  rw [hgoto] at hstart
  simp only [State.pcNext, State.goto, Function.update_idem] at hfinish
  exact .head hstart (.single hfinish)

/-- A call of `allocate` that is alone does to the head and the flags what `allocate` does. -/
theorem allocate_alone (p : PoolObjects) (hidle : u.threads i = .idle) (hhead : u.head = p.head)
    (hinUse : u.inUse = p.inUse) :
    ∃ w, Relation.ReflTransGen (StepAlone layout i) (u.next layout (.allocate i)) w ∧
      w.threads = u.threads ∧ w.head = (p.allocate layout false).1.head ∧
      w.inUse = (p.allocate layout false).1.inUse := by
  have hfetch := stepAlone_goto layout u i .fetchHead
  have hscan := claim_alone layout { u with head := u.head + 1 } i
    (u.head.toNat % layout.poolSize) 0 layout.poolSize (Nat.zero_add _)
  have hfound : ((List.range' 0 layout.poolSize).map fun k =>
      (u.head.toNat % layout.poolSize + k) % layout.poolSize).find?
        (fun idx => u.inUse idx = false) = p.freeSlot layout := by
    rw [freeSlot, hhead, hinUse, List.range_eq_range']
  have hgoto : (u.goto i .fetchHead).pcNext layout i .fetchHead =
      ({ u with head := u.head + 1 } : State ι).goto i
        (.claim (u.head.toNat % layout.poolSize) 0) := by
    simp only [State.pcNext, State.goto, Function.update_idem]
  have hthreads : Function.update u.threads i .idle = u.threads := by
    rw [← hidle, Function.update_eq_self]
  rw [hgoto] at hfetch
  have hscanned := Relation.ReflTransGen.head hfetch hscan
  cases hfree : p.freeSlot layout with
  | none =>
    rw [hfound.trans hfree] at hscanned
    rw [allocate_of_none hfree]
    exact ⟨_, hscanned, hthreads, congrArg (· + 1) hhead, hinUse⟩
  | some idx =>
    rw [hfound.trans hfree] at hscanned
    rw [allocate_of_some hfree]
    have hconstruct := construct_alone layout
      { u with head := u.head + 1, inUse := Function.update u.inUse idx true } i idx
    refine ⟨_, hscanned.trans hconstruct, hthreads, congrArg (· + 1) hhead, ?_⟩
    exact congrArg (Function.update · idx true) hinUse

/-- The three steps of a destruction. -/
theorem destroy_alone (idx : Nat) :
    Relation.ReflTransGen (StepAlone layout i) (u.goto i (.destroy idx))
      ({ u with
          storage := Function.update u.storage idx .raw
          inUse := Function.update u.inUse idx false }.goto i .idle) := by
  have hstart := stepAlone_goto layout u i (.destroy idx)
  have hfinish := stepAlone_goto layout
    { u with storage := Function.update u.storage idx .destroying } i (.finishDestroy idx)
  have hstore := stepAlone_goto layout
    { u with storage := Function.update u.storage idx .raw } i (.storeFlag idx)
  simp only [State.pcNext, State.goto, Function.update_idem] at hstart hfinish hstore
  exact .head hstart (.head hfinish (.single hstore))

/-- A call of `deallocate` that is alone does to the flags what `deallocate` does. -/
theorem deallocate_alone (p : PoolObjects) (ptr : Option Nat) (hidle : u.threads i = .idle)
    (hinUse : u.inUse = p.inUse) :
    ∃ w, Relation.ReflTransGen (StepAlone layout i) (u.next layout (.deallocate i ptr)) w ∧
      w.threads = u.threads ∧ w.inUse = (p.deallocate layout ptr).inUse := by
  cases hidx : ptr.bind layout.indexOf with
  | none =>
    refine ⟨u, ?_, rfl, ?_⟩
    · simp only [State.next, hidx]
      exact .refl
    · simp only [PoolObjects.deallocate, hidx]
      exact hinUse
  | some idx =>
    have hthreads : Function.update u.threads i .idle = u.threads := by
      rw [← hidle, Function.update_eq_self]
    have hdestroy := destroy_alone layout { u with live := u.live.erase idx } i idx
    simp only [State.next, PoolObjects.deallocate, hidx]
    refine ⟨_, hdestroy, hthreads, ?_⟩
    show Function.update u.inUse idx false = Function.update p.inUse idx false
    rw [hinUse]

end Alone

end PoolObjects

end OrderbookEngine
