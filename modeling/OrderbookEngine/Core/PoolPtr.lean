import OrderbookEngine.Core.PoolLifetimes

/-!
# Owners of pool objects

A `PoolPtr` is a pointer and a reference to a pool. A move assignment takes the pointer over
and keeps the reference, so a pointer can come to stand beside a pool that ignores it. The
objects of unreleased pointers are all freed exactly when no `PoolPtr` loses such a pointer.
-/

namespace OrderbookEngine

open LockFreePool PoolObjects Transition

/-- The pools of a type, whose storages do not overlap. -/
structure PoolSet (π : Type) where
  layout : π → Layout
  disjoint : ∀ i j, i ≠ j →
    (layout i).address (layout i).poolSize ≤ (layout j).poolStart ∨
      (layout j).address (layout j).poolSize ≤ (layout i).poolStart

/-- The members of `PoolPtr`. A pointer is the pool that its object was allocated from and the
number of the object there. -/
structure PoolPtr (π : Type) where
  pool : π
  ptr : Option (π × Nat)

/-- The pools, the `PoolPtr`s that exist, by their names, and the objects given up by
`release`. -/
structure PoolOwners (π ν : Type) where
  pools : π → PoolObjects
  ptrs : ν → Option (PoolPtr π)
  released : List (π × Nat)

namespace PoolOwners

variable {π ν : Type}

/-- Empty pools. -/
def construct : PoolOwners π ν := ⟨fun _ => PoolObjects.construct, fun _ => none, []⟩

/-- What happens to a `PoolPtr`. -/
inductive Event (π ν : Type) where
  /-- `PoolPtr v(pool, pool.allocate(...))`. -/
  | construct (v : ν) (pool : π)
  /-- `PoolPtr v(std::move(other))`. -/
  | moveConstruct (v other : ν)
  /-- `v = std::move(other)`. -/
  | moveAssign (v other : ν)
  | release (v : ν)
  | destroy (v : ν)

variable [DecidableEq π] [DecidableEq ν] (set : PoolSet π) (s : PoolOwners π ν)

/-- The address of a pointer. -/
def address (ptr : π × Nat) : Option Nat := (s.pools ptr.1).pointer (set.layout ptr.1) ptr.2

/-- `pool_.deallocate(ptr_)`, unless the pointer is null. -/
def deallocate (q : PoolPtr π) : PoolOwners π ν :=
  match q.ptr with
  | none => s
  | some ptr =>
    { s with
      pools := Function.update s.pools q.pool
        ((s.pools q.pool).deallocate (set.layout q.pool) (s.address set ptr)) }

/-- Give a name to a `PoolPtr`, or take it away. -/
def assign (v : ν) (q : Option (PoolPtr π)) : PoolOwners π ν :=
  { s with ptrs := Function.update s.ptrs v q }

/-- The pointer of a call of `allocate`. -/
def ptrOf (pool : π) : Outcome → Option (π × Nat)
  | .object k => some (pool, k)
  | .null | .threw => none

/-- The state after an event; constructors of objects return. -/
def next : Event π ν → PoolOwners π ν
  | .construct v pool =>
    let allocation := (s.pools pool).allocate (set.layout pool) false
    { s with pools := Function.update s.pools pool allocation.1 }.assign v
      (some ⟨pool, ptrOf pool allocation.2⟩)
  | .moveConstruct v other =>
    match s.ptrs other with
    | none => s
    | some q => (s.assign v (some q)).assign other (some { q with ptr := none })
  | .moveAssign v other =>
    match s.ptrs v, s.ptrs other with
    | some q, some q' =>
      if v = other then s
      else
        ((s.deallocate set q).assign v (some { q with ptr := q'.ptr })).assign other
          (some { q' with ptr := none })
    | _, _ => s
  | .release v =>
    match s.ptrs v with
    | none => s
    | some q =>
      { s with released := s.released ++ q.ptr.toList }.assign v (some { q with ptr := none })
  | .destroy v =>
    match s.ptrs v with
    | none => s
    | some q => (s.deallocate set q).assign v none

/-- An event names existing `PoolPtr`s, and new ones where it makes one. -/
def Enabled : Event π ν → Prop
  | .construct v _ => s.ptrs v = none
  | .moveConstruct v other => s.ptrs v = none ∧ s.ptrs other ≠ none
  | .moveAssign v other => s.ptrs v ≠ none ∧ s.ptrs other ≠ none
  | .release v | .destroy v => s.ptrs v ≠ none

/-- An event that the state allows, and the state after it. -/
def Step (s : PoolOwners π ν) (e : Event π ν) (t : PoolOwners π ν) : Prop :=
  s.Enabled e ∧ t = s.next set e

/-- The object that a `PoolPtr` owns. -/
def owns (v : ν) : Option (π × Nat) := (s.ptrs v).bind PoolPtr.ptr

/-- An object that was never released has one owner as long as it lives, and once it has none it
was deallocated, once, by its pool. -/
def EachOwned : Prop :=
  ∀ o : π × Nat, o.2 < (s.pools o.1).slots.length → o ∉ s.released →
    if some o.2 ∈ (s.pools o.1).destroyed then
      (s.pools o.1).destroyed.count (some o.2) = 1 ∧ ∀ v, s.owns v ≠ some o
    else ∃! v, s.owns v = some o

/-- The pointer of a `PoolPtr` is of its pool. -/
def Matched (v : ν) : Prop := ∀ q o, s.ptrs v = some q → q.ptr = some o → o.1 = q.pool

/-- A `PoolPtr` that is destroyed or assigned over holds no pointer of another pool. -/
def LosesMatched : Event π ν → Prop
  | .moveAssign v other => v ≠ other → s.Matched v
  | .destroy v => s.Matched v
  | _ => True

/-! ## Ownership -/

/-- Every remaining object that was not released has one owner, and owners own such objects. -/
structure OwnedBy (pools : π → PoolObjects) (owner : ν → Option (π × Nat))
    (released : List (π × Nat)) : Prop where
  tidy : ∀ i, Tidy (set.layout i) (pools i)
  live : ∀ {v o}, owner v = some o → o.2 ∈ (pools o.1).remaining ∧ o ∉ released
  unique : ∀ {v v' o}, owner v = some o → owner v' = some o → v = v'
  owned : ∀ o : π × Nat, o.2 ∈ (pools o.1).remaining → o ∉ released → ∃ v, owner v = some o
  given : ∀ o ∈ released, o.2 < (pools o.1).slots.length

section Pools

variable {set} {pools : π → PoolObjects} {i : π} {k : Nat}

omit [DecidableEq π] in
/-- A pointer of another pool is outside the bounds of a pool. -/
theorem deallocate_foreign {p : PoolObjects} {q : π} (hinside : ∀ idx ∈ (pools i).slots,
    idx < (set.layout i).poolSize) (hne : i ≠ q) :
    p.deallocate (set.layout q) ((pools i).pointer (set.layout i) k) = p := by
  cases hslot : (pools i).slots[k]? with
  | none => rw [pointer, hslot]; rfl
  | some idx =>
    have hlt := hinside idx (List.mem_of_getElem? hslot)
    have haddress : (set.layout i).address idx <
        (set.layout i).address (set.layout i).poolSize := by
      have hmul := Nat.mul_lt_mul_of_pos_right hlt (set.layout i).slotSize_pos
      unfold Layout.address
      omega
    have hstart : (set.layout i).poolStart ≤ (set.layout i).address idx := Nat.le_add_right ..
    have hindex : (set.layout q).indexOf ((set.layout i).address idx) = none := by
      have hdisjoint := set.disjoint i q hne
      rw [Layout.indexOf, if_pos (by omega)]
    have hbind : ((pools i).pointer (set.layout i) k).bind (set.layout q).indexOf = none := by
      rw [pointer, hslot]
      exact hindex
    rw [PoolObjects.deallocate, hbind]

/-- What remains after an object was deallocated by its pool. -/
theorem mem_remaining_freed (h : Tidy (set.layout i) (pools i)) (hk : k ∈ (pools i).remaining)
    (o : π × Nat) :
    o.2 ∈ (Function.update pools i ((pools i).deallocate (set.layout i)
        ((pools i).pointer (set.layout i) k)) o.1).remaining ↔
      o.2 ∈ (pools o.1).remaining ∧ o ≠ (i, k) := by
  have hslot := List.getElem?_eq_getElem (mem_remaining.mp hk).1
  rw [deallocate_pointer h.inside hslot, h.storage k hk _ hslot]
  by_cases hi : o.1 = i
  · subst hi
    rw [Function.update_self, mem_remaining_deallocate]
    simp [Prod.ext_iff]
  · rw [Function.update_of_ne hi]
    exact (and_iff_left fun heq => hi (congrArg Prod.fst heq)).symm

theorem slots_freed (h : Tidy (set.layout i) (pools i)) (hk : k ∈ (pools i).remaining) (j : π) :
    (Function.update pools i ((pools i).deallocate (set.layout i)
      ((pools i).pointer (set.layout i) k)) j).slots = (pools j).slots := by
  have hslot := List.getElem?_eq_getElem (mem_remaining.mp hk).1
  rw [deallocate_pointer h.inside hslot]
  by_cases hj : j = i
  · subst hj
    rw [Function.update_self]
  · rw [Function.update_of_ne hj]

end Pools

omit [DecidableEq π] in
/-- Taking an object from one of the owners. -/
theorem update_none_eq_some {owner : ν → Option (π × Nat)} {u v : ν} {o : π × Nat} :
    Function.update owner v none u = some o ↔ u ≠ v ∧ owner u = some o := by
  by_cases huv : u = v
  · subst huv
    simp
  · rw [Function.update_of_ne huv]
    exact (and_iff_right huv).symm

namespace OwnedBy

variable {set} {pools : π → PoolObjects} {owner : ν → Option (π × Nat)}
  {released : List (π × Nat)} {v w : ν} {o : π × Nat}

omit [DecidableEq ν] in
theorem tidy_update (h : OwnedBy set pools owner released) {i : π} {p : PoolObjects}
    (hp : Tidy (set.layout i) p) (j : π) : Tidy (set.layout j) (Function.update pools i p j) := by
  by_cases hj : j = i
  · subst hj
    rwa [Function.update_self]
  · rw [Function.update_of_ne hj]
    exact h.tidy j

/-- An owner that frees its object. -/
theorem free (h : OwnedBy set pools owner released) (hv : owner v = some o) :
    OwnedBy set (Function.update pools o.1 ((pools o.1).deallocate (set.layout o.1)
      ((pools o.1).pointer (set.layout o.1) o.2))) (Function.update owner v none) released := by
  have hk := (h.live hv).1
  have htidy := h.tidy o.1
  refine ⟨h.tidy_update (htidy.deallocate hk), ?_, ?_, ?_, ?_⟩
  · intro u o' hu
    obtain ⟨huv, hu⟩ := update_none_eq_some.mp hu
    obtain ⟨hremaining, hreleased⟩ := h.live hu
    refine ⟨(mem_remaining_freed htidy hk o').mpr ⟨hremaining, fun heq => huv ?_⟩, hreleased⟩
    exact h.unique (hu.trans (congrArg some heq)) hv
  · intro u u' o' hu hu'
    exact h.unique (update_none_eq_some.mp hu).2 (update_none_eq_some.mp hu').2
  · intro o' hremaining hreleased
    obtain ⟨hremaining, hne⟩ := (mem_remaining_freed htidy hk o').mp hremaining
    obtain ⟨u, hu⟩ := h.owned o' hremaining hreleased
    have huv : u ≠ v := fun heq => hne (Option.some.inj (hu.symm.trans (heq ▸ hv)))
    exact ⟨u, (Function.update_of_ne huv ..).trans hu⟩
  · intro o' ho'
    rw [slots_freed htidy hk]
    exact h.given o' ho'

omit [DecidableEq π] in
/-- An object that changes its owner. -/
theorem move (h : OwnedBy set pools owner released) (hvw : v ≠ w) (hv : owner v = none) :
    OwnedBy set pools (Function.update (Function.update owner v (owner w)) w none) released := by
  have hback : ∀ {u o'}, Function.update (Function.update owner v (owner w)) w none u = some o' →
      u ≠ w ∧ (u = v ∧ owner w = some o' ∨ owner u = some o') := by
    intro u o' hu
    obtain ⟨huw, hu⟩ := update_none_eq_some.mp hu
    refine ⟨huw, ?_⟩
    by_cases huv : u = v
    · subst huv
      rw [Function.update_self] at hu
      exact Or.inl ⟨rfl, hu⟩
    · rw [Function.update_of_ne huv] at hu
      exact Or.inr hu
  refine ⟨h.tidy, ?_, ?_, ?_, h.given⟩
  · intro u o' hu
    rcases (hback hu).2 with ⟨-, hw⟩ | hold
    · exact h.live hw
    · exact h.live hold
  · intro u u' o' hu hu'
    obtain ⟨huw, hcases⟩ := hback hu
    obtain ⟨huw', hcases'⟩ := hback hu'
    rcases hcases with ⟨huv, hw⟩ | hold <;> rcases hcases' with ⟨huv', hw'⟩ | hold'
    · exact huv.trans huv'.symm
    · exact absurd (h.unique hold' hw) huw'
    · exact absurd (h.unique hold hw') huw
    · exact h.unique hold hold'
  · intro o' hremaining hreleased
    obtain ⟨u, hu⟩ := h.owned o' hremaining hreleased
    by_cases huw : u = w
    · subst huw
      refine ⟨v, ?_⟩
      rw [Function.update_of_ne hvw, Function.update_self]
      exact hu
    · have huv : u ≠ v := fun heq => by
        rw [heq, hv] at hu
        cases hu
      refine ⟨u, ?_⟩
      rw [Function.update_of_ne huw, Function.update_of_ne huv]
      exact hu

omit [DecidableEq π] in
/-- An object that is given up. -/
theorem release (h : OwnedBy set pools owner released) :
    OwnedBy set pools (Function.update owner v none) (released ++ (owner v).toList) := by
  refine ⟨h.tidy, ?_, ?_, ?_, ?_⟩
  · intro u o' hu
    obtain ⟨huv, hu⟩ := update_none_eq_some.mp hu
    obtain ⟨hremaining, hreleased⟩ := h.live hu
    refine ⟨hremaining, fun hmem => ?_⟩
    rcases List.mem_append.mp hmem with hmem | hmem
    · exact hreleased hmem
    · exact huv (h.unique hu (Option.mem_toList.mp hmem))
  · intro u u' o' hu hu'
    exact h.unique (update_none_eq_some.mp hu).2 (update_none_eq_some.mp hu').2
  · intro o' hremaining hreleased
    obtain ⟨u, hu⟩ := h.owned o' hremaining fun hmem => hreleased (List.mem_append_left _ hmem)
    have huv : u ≠ v := fun heq => hreleased (List.mem_append_right _
      (Option.mem_toList.mpr (heq ▸ hu)))
    exact ⟨u, (Function.update_of_ne huv ..).trans hu⟩
  · intro o' ho'
    rcases List.mem_append.mp ho' with ho' | ho'
    · exact h.given o' ho'
    · exact (mem_remaining.mp (h.live (Option.mem_toList.mp ho')).1).1

/-- An object that is constructed for an owner. -/
theorem allocate (h : OwnedBy set pools owner released) (hv : owner v = none) {i : π} {idx : Nat}
    (hfree : (pools i).freeSlot (set.layout i) = some idx) :
    OwnedBy set (Function.update pools i ((pools i).allocate (set.layout i) false).1)
      (Function.update owner v (some (i, (pools i).slots.length))) released := by
  have hslots : ((pools i).allocate (set.layout i) false).1.slots = (pools i).slots ++ [idx] := by
    rw [allocate_of_some hfree]
  have hremaining : ∀ o : π × Nat,
      o.2 ∈ (Function.update pools i ((pools i).allocate (set.layout i) false).1 o.1).remaining ↔
        o.2 ∈ (pools o.1).remaining ∨ o = (i, (pools i).slots.length) := by
    intro o
    by_cases hi : o.1 = i
    · subst hi
      rw [Function.update_self, remaining_allocate (h.tidy o.1) hfree]
      simp [Prod.ext_iff]
    · rw [Function.update_of_ne hi]
      exact (or_iff_left fun heq => hi (congrArg Prod.fst heq)).symm
  have hlt : ∀ o : π × Nat, o ∈ released → o ≠ (i, (pools i).slots.length) := by
    intro o ho heq
    have hlen := h.given o ho
    rw [heq] at hlen
    exact lt_irrefl _ hlen
  have hback : ∀ {u o'}, Function.update owner v (some (i, (pools i).slots.length)) u = some o' →
      u = v ∧ o' = (i, (pools i).slots.length) ∨ u ≠ v ∧ owner u = some o' := by
    intro u o' hu
    by_cases huv : u = v
    · rw [huv, Function.update_self] at hu
      exact Or.inl ⟨huv, (Option.some.inj hu).symm⟩
    · rw [Function.update_of_ne huv] at hu
      exact Or.inr ⟨huv, hu⟩
  have hnew : ∀ {u o'}, owner u = some o' → o' ≠ (i, (pools i).slots.length) := by
    intro u o' hu heq
    have hlen := (mem_remaining.mp (h.live hu).1).1
    rw [heq] at hlen
    exact lt_irrefl _ hlen
  refine ⟨h.tidy_update ((h.tidy i).allocate hfree), ?_, ?_, ?_, ?_⟩
  · intro u o' hu
    rcases hback hu with ⟨-, rfl⟩ | ⟨-, hu⟩
    · exact ⟨(hremaining _).mpr (Or.inr rfl), fun hmem => hlt _ hmem rfl⟩
    · exact ⟨(hremaining _).mpr (Or.inl (h.live hu).1), (h.live hu).2⟩
  · intro u u' o' hu hu'
    rcases hback hu with ⟨huv, heq⟩ | ⟨-, hold⟩ <;> rcases hback hu' with ⟨huv', heq'⟩ | ⟨-, hold'⟩
    · exact huv.trans huv'.symm
    · exact absurd heq (hnew hold')
    · exact absurd heq' (hnew hold)
    · exact h.unique hold hold'
  · intro o' hmem hreleased
    rcases (hremaining o').mp hmem with hmem | rfl
    · obtain ⟨u, hu⟩ := h.owned o' hmem hreleased
      have huv : u ≠ v := fun heq => by
        rw [heq, hv] at hu
        cases hu
      exact ⟨u, (Function.update_of_ne huv ..).trans hu⟩
    · exact ⟨v, Function.update_self ..⟩
  · intro o' ho'
    have hlen := h.given o' ho'
    by_cases hi : o'.1 = i
    · subst hi
      rw [Function.update_self, hslots, List.length_append]
      exact Nat.lt_add_right _ hlen
    · rwa [Function.update_of_ne hi]

omit [DecidableEq ν] in
/-- A pool whose head moves on. -/
theorem exhausted (h : OwnedBy set pools owner released) {i : π}
    (hfull : (pools i).freeSlot (set.layout i) = none) :
    OwnedBy set (Function.update pools i ((pools i).allocate (set.layout i) false).1) owner
      released := by
  have hpool : ∀ j, (Function.update pools i ((pools i).allocate (set.layout i) false).1 j).slots =
      (pools j).slots ∧
      (Function.update pools i ((pools i).allocate (set.layout i) false).1 j).remaining =
        (pools j).remaining := by
    intro j
    by_cases hj : j = i
    · subst hj
      rw [Function.update_self, allocate_of_none hfull]
      exact ⟨rfl, rfl⟩
    · rw [Function.update_of_ne hj]
      exact ⟨rfl, rfl⟩
  refine ⟨h.tidy_update ?_, ?_, h.unique, ?_, ?_⟩
  · rw [allocate_of_none hfull]
    exact (h.tidy i).head _
  · intro u o' hu
    rw [(hpool o'.1).2]
    exact h.live hu
  · intro o' hmem
    rw [(hpool o'.1).2] at hmem
    exact h.owned o' hmem
  · intro o' ho'
    rw [(hpool o'.1).1]
    exact h.given o' ho'

end OwnedBy

/-- The invariant of the runs that lose matched pointers only. -/
def Inv (s : PoolOwners π ν) : Prop := OwnedBy set s.pools s.owns s.released

section Steps

variable {set} {s t : PoolOwners π ν} {v w : ν} {q q' : PoolPtr π} {e : Event π ν}

omit [DecidableEq π] in
theorem owns_assign (s : PoolOwners π ν) (v : ν) (q : Option (PoolPtr π)) :
    (s.assign v q).owns = Function.update s.owns v (q.bind PoolPtr.ptr) := by
  funext u
  unfold owns assign
  by_cases huv : u = v
  · subst huv
    simp
  · simp [Function.update_of_ne huv]

omit [DecidableEq π] [DecidableEq ν] in
theorem owns_of_ptrs (h : s.ptrs v = some q) : s.owns v = q.ptr := by
  rw [owns, h]
  rfl

omit [DecidableEq ν] in
@[simp] theorem owns_deallocate (s : PoolOwners π ν) (q : PoolPtr π) :
    (s.deallocate set q).owns = s.owns := by
  unfold deallocate
  split <;> rfl

omit [DecidableEq ν] in
@[simp] theorem released_deallocate (s : PoolOwners π ν) (q : PoolPtr π) :
    (s.deallocate set q).released = s.released := by
  unfold deallocate
  split <;> rfl

omit [DecidableEq π] [DecidableEq ν] in
theorem inv_construct : Inv set (construct : PoolOwners π ν) where
  tidy := fun _ => Tidy.construct
  live := nofun
  unique := nofun
  owned := fun _ hmem => by cases (mem_remaining.mp hmem).1
  given := nofun

/-- A `PoolPtr` that loses a pointer of its own pool. -/
theorem Inv.lose (h : Inv set s) (hq : s.ptrs v = some q) (hmatched : s.Matched v) :
    OwnedBy set (s.deallocate set q).pools (Function.update s.owns v none) s.released := by
  have howns := owns_of_ptrs hq
  unfold deallocate address
  cases hptr : q.ptr with
  | none =>
    rw [Function.update_eq_self_iff.mpr (howns.trans hptr).symm]
    exact h
  | some o =>
    rw [hptr] at howns
    rw [← hmatched q o hq hptr]
    exact h.free howns

/-- Steps that lose matched pointers only keep the invariant. -/
theorem Inv.step (h : Inv set s) (hmatched : s.LosesMatched e) (hstep : Step set s e t) :
    Inv set t := by
  obtain ⟨henabled, rfl⟩ := hstep
  cases e with
  | construct v pool =>
    have hv : s.owns v = none := by rw [owns, show s.ptrs v = none from henabled]; rfl
    unfold Inv
    rw [next, owns_assign]
    cases hfree : (s.pools pool).freeSlot (set.layout pool) with
    | none =>
      have hnull : ((s.pools pool).allocate (set.layout pool) false).2 = .null := by
        rw [allocate_of_none hfree]
      rw [hnull]
      have hsame : Function.update s.owns v none = s.owns := Function.update_eq_self_iff.mpr hv.symm
      show OwnedBy set _ (Function.update s.owns v none) s.released
      rw [hsame]
      exact OwnedBy.exhausted h hfree
    | some idx =>
      have hobject : ((s.pools pool).allocate (set.layout pool) false).2 =
          .object (s.pools pool).slots.length := by
        rw [allocate_of_some hfree]
      rw [hobject]
      exact OwnedBy.allocate h hv hfree
  | moveConstruct v other =>
    obtain ⟨hv, hother⟩ := henabled
    obtain ⟨q, hq⟩ := Option.ne_none_iff_exists'.mp hother
    have hne : v ≠ other := fun heq => hother (heq ▸ hv)
    have howns : s.owns v = none := by rw [owns, hv]; rfl
    unfold Inv
    simp only [next, hq]
    rw [owns_assign, owns_assign]
    show OwnedBy set s.pools (Function.update (Function.update s.owns v q.ptr) other none)
      s.released
    rw [← owns_of_ptrs hq]
    exact OwnedBy.move h hne howns
  | moveAssign v other =>
    obtain ⟨hv, hother⟩ := henabled
    obtain ⟨q, hq⟩ := Option.ne_none_iff_exists'.mp hv
    obtain ⟨q', hq'⟩ := Option.ne_none_iff_exists'.mp hother
    simp only [next, hq, hq']
    by_cases hne : v = other
    · rwa [if_pos hne]
    · rw [if_neg hne]
      have hfreed := h.lose hq (hmatched hne)
      have hmoved := hfreed.move hne (Function.update_self ..)
      unfold Inv
      rw [owns_assign, owns_assign, owns_deallocate]
      rw [Function.update_idem, Function.update_of_ne (Ne.symm hne), owns_of_ptrs hq'] at hmoved
      show OwnedBy set (s.deallocate set q).pools _ (s.deallocate set q).released
      rw [released_deallocate]
      exact hmoved
  | release v =>
    obtain ⟨q, hq⟩ := Option.ne_none_iff_exists'.mp henabled
    unfold Inv
    simp only [next, hq]
    rw [owns_assign]
    show OwnedBy set s.pools (Function.update s.owns v none) (s.released ++ q.ptr.toList)
    rw [← owns_of_ptrs hq]
    exact OwnedBy.release h
  | destroy v =>
    obtain ⟨q, hq⟩ := Option.ne_none_iff_exists'.mp henabled
    unfold Inv
    simp only [next, hq]
    rw [owns_assign, owns_deallocate]
    show OwnedBy set (s.deallocate set q).pools _ (s.deallocate set q).released
    rw [released_deallocate]
    exact h.lose hq hmatched

omit [DecidableEq π] [DecidableEq ν] in
theorem Inv.eachOwned (h : Inv set s) : s.EachOwned := by
  intro o hlen hreleased
  split
  · rename_i hdestroyed
    refine ⟨List.count_eq_one_of_mem (h.tidy o.1).once hdestroyed, fun v hv => ?_⟩
    exact (mem_remaining.mp (h.live hv).1).2 hdestroyed
  · rename_i hdestroyed
    obtain ⟨v, hv⟩ := h.owned o (mem_remaining.mpr ⟨hlen, hdestroyed⟩) hreleased
    exact ⟨v, hv, fun u hu => h.unique hu hv⟩

omit [DecidableEq ν] in
/-- A `PoolPtr` that loses a pointer of another pool leaves its object without an owner. -/
theorem Inv.not_eachOwned_of_lost (h : Inv set s) {o : π × Nat} (hq : s.ptrs v = some q)
    (hptr : q.ptr = some o) (hne : o.1 ≠ q.pool) (hpools : t.pools = (s.deallocate set q).pools)
    (hreleased : t.released = s.released)
    (howns : ∀ u, t.owns u = some o → ∃ u' ≠ v, s.owns u' = some o) : ¬ t.EachOwned := by
  have hv : s.owns v = some o := (owns_of_ptrs hq).trans hptr
  obtain ⟨hremaining, hgiven⟩ := h.live hv
  have hsame : t.pools = s.pools := by
    rw [hpools, deallocate, hptr]
    show Function.update s.pools q.pool (PoolObjects.deallocate _ _ (s.address set o)) = s.pools
    rw [address, deallocate_foreign (h.tidy o.1).inside hne, Function.update_eq_self]
  intro howned
  obtain ⟨hlen, hdestroyed⟩ := mem_remaining.mp hremaining
  have ho := howned o (by rwa [hsame]) (by rwa [hreleased])
  rw [hsame, if_neg hdestroyed] at ho
  obtain ⟨u, hu, -⟩ := ho
  obtain ⟨u', hne', hu'⟩ := howns u hu
  exact hne' (h.unique hu' hv)

/-- Any other step leaves an object without an owner. -/
theorem Inv.not_eachOwned (h : Inv set s) (hlost : ¬ s.LosesMatched e) (hstep : Step set s e t) :
    ¬ t.EachOwned := by
  obtain ⟨henabled, rfl⟩ := hstep
  cases e with
  | construct | moveConstruct | release => exact absurd trivial hlost
  | moveAssign v other =>
    obtain ⟨hne, hforeign⟩ := Classical.not_imp.mp hlost
    simp only [Matched, Classical.not_forall] at hforeign
    obtain ⟨q, o, hq, hptr, hpool⟩ := hforeign
    obtain ⟨q', hq'⟩ := Option.ne_none_iff_exists'.mp henabled.2
    refine h.not_eachOwned_of_lost hq hptr hpool ?_ ?_ fun u hu => ?_
    · simp only [next, hq, hq', if_neg hne]
      rfl
    · simp only [next, hq, hq', if_neg hne]
      exact released_deallocate s q
    · simp only [next, hq, hq', if_neg hne] at hu
      rw [owns_assign, owns_assign, owns_deallocate] at hu
      obtain ⟨huw, hu⟩ := update_none_eq_some.mp hu
      by_cases huv : u = v
      · rw [huv, Function.update_self] at hu
        exact ⟨other, Ne.symm hne, (owns_of_ptrs hq').trans hu⟩
      · rw [Function.update_of_ne huv] at hu
        exact ⟨u, huv, hu⟩
  | destroy v =>
    simp only [LosesMatched, Matched, Classical.not_forall] at hlost
    obtain ⟨q, o, hq, hptr, hpool⟩ := hlost
    refine h.not_eachOwned_of_lost hq hptr hpool ?_ ?_ fun u hu => ?_
    · simp only [next, hq]
      rfl
    · simp only [next, hq]
      exact released_deallocate s q
    · simp only [next, hq] at hu
      rw [owns_assign, owns_deallocate] at hu
      obtain ⟨huv, hu⟩ := update_none_eq_some.mp hu
      exact ⟨u, huv, hu⟩

end Steps

/-- Every unreleased object has its one owner or was freed by its pool, throughout a run, exactly
when no `PoolPtr` that is destroyed or assigned over holds a pointer of another pool. -/
theorem eachOwned_iff_losesMatched (set : PoolSet π)
    (tr : List (Event π ν × PoolOwners π ν)) (hrun : IsRun (Step set) construct tr) :
    Throughout EachOwned construct tr ↔ Guarded LosesMatched construct tr := by
  refine hrun.always_iff_guarded (Q := fun _ _ t => t.EachOwned) (Inv set) ?_ ?_ inv_construct
  · intro s e t h hmatched hstep
    have ht := h.step hmatched hstep
    exact ⟨ht, ht.eachOwned⟩
  · exact fun s e t h hlost hstep => h.not_eachOwned hlost hstep

/-- Two pools with one slot each, one behind the other. -/
def twoPools : PoolSet Bool where
  layout b := { PoolObjects.oneSlot with poolStart := if b then 8 else 0 }
  disjoint := by decide

/-- An object of each pool, and the second pointer assigned to the first `PoolPtr`. -/
def assignAcross : List (Event Bool Bool) :=
  [.construct false false, .construct true true, .moveAssign false true]

theorem isRun_assignAcross (e : Event Bool Bool)
    (h : (assignAcross.foldl (next twoPools) construct).Enabled e) :
    IsRun (Step twoPools) construct (runOf (next twoPools) construct (assignAcross ++ [e])) :=
  ⟨⟨rfl, rfl⟩, ⟨rfl, rfl⟩, ⟨⟨nofun, nofun⟩, rfl⟩, ⟨h, rfl⟩, trivial⟩

theorem eachOwned_iff_losesMatched_released :
    Throughout EachOwned construct
        (runOf (next twoPools) construct (assignAcross ++ [.release false])) ↔
      Guarded LosesMatched construct
        (runOf (next twoPools) construct (assignAcross ++ [.release false])) :=
  eachOwned_iff_losesMatched twoPools _ (isRun_assignAcross (.release false) nofun)

/-- The first pool ignores the pointer of the second one. -/
theorem eachOwned_fails :
    ¬ ∀ tr : List (Event Bool Bool × PoolOwners Bool Bool), IsRun (Step twoPools) construct tr →
      Throughout EachOwned construct tr := by
  intro h
  have hrun := h _ (isRun_assignAcross (.destroy false) nofun)
  have howned := hrun.2.2.2.1 (true, 0) (by decide +kernel) nofun
  rw [if_neg (by decide +kernel)] at howned
  obtain ⟨v, hv, -⟩ := howned
  cases v <;> cases hv

end PoolOwners

end OrderbookEngine
