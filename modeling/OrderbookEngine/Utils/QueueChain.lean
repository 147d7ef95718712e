import OrderbookEngine.Utils.LockFreeQueue

/-!
# The chain of linked nodes

The nodes that were ever linked form one chain in the order of their link
exchanges. The head stands on it where the exchanged heads end, the tail no
earlier, and what the threads hold locally are nodes of the chain or nodes of
their own that are not linked yet.
-/

namespace OrderbookEngine.LockFreeQueue

variable {ι V : Type}

/-- The linked nodes, the first dummy node before them. -/
def State.chain (s : State ι V) : List Nat := 0 :: s.links.map Prod.snd

/-- How often the head was exchanged. -/
def State.removed (s : State ι V) : Nat := s.pops.length

/-- The head has passed the node. -/
def State.Removed (s : State ι V) (node : Nat) : Prop :=
  ∃ k < s.removed, s.chain[k]? = some node

/-- The new node of a `push` that has not linked it. -/
def Pc.owned : Pc V → Option Nat
  | .pushLoadTail node | .pushLoadNext node _ | .pushCheckTail node _ _ | .pushLink node _
  | .pushHelp node _ _ => some node
  | _ => none

/-- A node with a value that is not linked. -/
structure Fresh (s : State ι V) (node : Nat) : Prop where
  allocated : node < s.allocated
  unlinked : node ∉ s.chain
  next : s.next node = none
  valued : (s.data node).isSome

/-- The shared members, with the tail at the place `t` of the chain. -/
structure Shared (s : State ι V) (t : Nat) : Prop where
  head_at : s.chain[s.removed]? = some s.head
  tail_at : s.chain[t]? = some s.tail
  le_tail : s.removed ≤ t
  next_at : ∀ k n, s.chain[k]? = some n → s.next n = s.chain[k + 1]?
  nodup : s.chain.Nodup
  allocated : ∀ n ∈ s.chain, n < s.allocated
  valued : ∀ k n, s.chain[k + 1]? = some n → (s.data n).isSome
  retired : ∀ n ∈ s.retiredHead, s.Removed n
  deleted : ∀ n, s.deleted n = true → s.Removed n

/-- What a thread holds at its place, with the tail at the place `t` of the chain. -/
def Locals (s : State ι V) (t : Nat) : Pc V → Prop
  | .pushLoadTail _ | .pushCount | .popLoadHead => True
  | .pushLoadNext _ tail | .pushLink _ tail => tail ∈ s.chain
  | .pushCheckTail _ tail next => tail ∈ s.chain ∧ ∀ n, next = some n → s.next tail = some n
  | .pushSwing next tail | .pushHelp _ tail next | .popHelp tail next =>
    tail ∈ s.chain ∧ s.next tail = some next
  | .popLoadTail head => ∃ k ≤ s.removed, s.chain[k]? = some head
  | .popLoadNext head tail =>
    ∃ k ≤ s.removed, ∃ j ≤ t, k ≤ j ∧ s.chain[k]? = some head ∧ s.chain[j]? = some tail
  | .popCheckHead head tail next =>
    (∃ k ≤ s.removed, ∃ j ≤ t, k ≤ j ∧ s.chain[k]? = some head ∧ s.chain[j]? = some tail) ∧
      ∀ n, next = some n → s.next head = some n
  | .popReadData head next => ∃ k < t, s.chain[k]? = some head ∧ s.chain[k + 1]? = some next
  | .popSwing head next data =>
    (∃ k < t, s.chain[k]? = some head ∧ s.chain[k + 1]? = some next) ∧ s.data next = data
  | .popCount head data | .retireLoad head data | .retireLink head _ data =>
    s.Removed head ∧ data.isSome
  | .retireCount data | .reclaimTest data | .reclaimTake data => data.isSome
  | .reclaimReset retired data => (∀ n ∈ retired, s.Removed n) ∧ data.isSome
  | .reclaimDelete node rest data => (∀ n ∈ node :: rest, s.Removed n) ∧ data.isSome

/-- The invariant of the queue, with the tail at the place `t` of the chain. -/
structure InvAt (s : State ι V) (t : Nat) : Prop extends Shared s t where
  locals : ∀ i call pc, s.threads i = some (call, pc) →
    Locals s t pc ∧ ∀ n, pc.owned = some n → Fresh s n
  /-- No two threads own the same node. -/
  owners : ∀ i j call call' pc pc' n, s.threads i = some (call, pc) →
    s.threads j = some (call', pc') → pc.owned = some n → pc'.owned = some n → i = j

/-- The chain grows at its end, the head and the tail move along it, and set
links and linked values stay. -/
structure Extends (s u : State ι V) (t t' : Nat) : Prop where
  chain : s.chain <+: u.chain
  removed : s.removed ≤ u.removed
  tail : t ≤ t'
  next : ∀ n ∈ s.chain, ∀ m, s.next n = some m → u.next n = some m
  data : ∀ n ∈ s.chain, u.data n = s.data n

section Chain

variable {s u : State ι V} {t t' : Nat} {k n : Nat}

theorem Extends.refl (s : State ι V) (t : Nat) : Extends s s t t :=
  ⟨List.prefix_rfl, le_rfl, le_rfl, fun _ _ _ h => h, fun _ _ => rfl⟩

theorem Extends.at (h : Extends s u t t') (hk : s.chain[k]? = some n) : u.chain[k]? = some n := by
  obtain ⟨rest, hrest⟩ := h.chain
  rw [← hrest, List.getElem?_append_left (List.getElem?_eq_some_iff.mp hk).1, hk]

theorem Extends.mem (h : Extends s u t t') (hn : n ∈ s.chain) : n ∈ u.chain :=
  h.chain.subset hn

theorem Removed.extend (h : Extends s u t t') (hn : s.Removed n) : u.Removed n := by
  obtain ⟨k, hk, hat⟩ := hn
  exact ⟨k, hk.trans_le h.removed, h.at hat⟩

/-- What a thread holds stays as the queue moves on. -/
theorem Locals.extend (h : Extends s u t t') {pc : Pc V} (hpc : Locals s t pc) :
    Locals u t' pc := by
  cases pc with
  | pushLoadTail | pushCount | popLoadHead => trivial
  | pushLoadNext | pushLink => exact h.mem hpc
  | pushCheckTail => exact ⟨h.mem hpc.1, fun n hn => h.next _ hpc.1 _ (hpc.2 n hn)⟩
  | pushSwing | pushHelp | popHelp => exact ⟨h.mem hpc.1, h.next _ hpc.1 _ hpc.2⟩
  | popLoadTail =>
    obtain ⟨k, hk, hat⟩ := hpc
    exact ⟨k, hk.trans h.removed, h.at hat⟩
  | popLoadNext =>
    obtain ⟨k, hk, j, hj, hkj, hat, hat'⟩ := hpc
    exact ⟨k, hk.trans h.removed, j, hj.trans h.tail, hkj, h.at hat, h.at hat'⟩
  | popCheckHead =>
    obtain ⟨⟨k, hk, j, hj, hkj, hat, hat'⟩, hnext⟩ := hpc
    exact ⟨⟨k, hk.trans h.removed, j, hj.trans h.tail, hkj, h.at hat, h.at hat'⟩,
      fun n hn => h.next _ (List.mem_of_getElem? hat) _ (hnext n hn)⟩
  | popReadData =>
    obtain ⟨k, hk, hat, hat'⟩ := hpc
    exact ⟨k, hk.trans_le h.tail, h.at hat, h.at hat'⟩
  | popSwing =>
    obtain ⟨⟨k, hk, hat, hat'⟩, hdata⟩ := hpc
    exact ⟨⟨k, hk.trans_le h.tail, h.at hat, h.at hat'⟩,
      (h.data _ (List.mem_of_getElem? hat')).trans hdata⟩
  | popCount | retireLoad | retireLink => exact ⟨Removed.extend h hpc.1, hpc.2⟩
  | retireCount | reclaimTest | reclaimTake => exact hpc
  | reclaimReset | reclaimDelete => exact ⟨fun n hn => Removed.extend h (hpc.1 n hn), hpc.2⟩

/-- Places of the chain are determined by their nodes. -/
theorem Shared.at_inj (h : Shared s t) {j : Nat} (hk : s.chain[k]? = some n)
    (hj : s.chain[j]? = some n) : k = j := by
  obtain ⟨hlt, -⟩ := List.getElem?_eq_some_iff.mp hk
  exact (List.getElem?_inj hlt h.nodup).mp (hk.trans hj.symm)

/-- The node after the tail, if there is one. -/
theorem Shared.next_tail (h : Shared s t) {next : Nat} (hnext : s.next s.tail = some next) :
    s.chain[t + 1]? = some next := (h.next_at t _ h.tail_at).symm.trans hnext

theorem Shared.mem_tail (h : Shared s t) : s.tail ∈ s.chain := List.mem_of_getElem? h.tail_at

/-- The last node of the chain is the one without a successor. -/
theorem Shared.last_of_next_none (h : Shared s t) (hn : n ∈ s.chain) (hnext : s.next n = none) :
    s.chain[s.chain.length - 1]? = some n := by
  obtain ⟨k, hk⟩ := List.mem_iff_getElem?.mp hn
  have hlt := (List.getElem?_eq_some_iff.mp hk).1
  have hend := List.getElem?_eq_none_iff.mp ((h.next_at k n hk).symm.trans hnext)
  rwa [show s.chain.length - 1 = k by omega]

end Chain

section Calls

variable {s u : State ι V} {t t' : Nat} (threads : ι → Option (Nat × Pc V)) (calls : Nat)
  (history : List (Linearizability.HistoryEvent (Op V) (Res V)))

/-- The calls and where they stand are no members of the queue. -/
theorem Shared.withCalls (h : Shared s t) :
    Shared { s with threads := threads, calls := calls, history := history } t where
  head_at := h.head_at
  tail_at := h.tail_at
  le_tail := h.le_tail
  next_at := h.next_at
  nodup := h.nodup
  allocated := h.allocated
  valued := h.valued
  retired := h.retired
  deleted := h.deleted

theorem Extends.withCalls (h : Extends s u t t') :
    Extends s { u with threads := threads, calls := calls, history := history } t t' where
  chain := h.chain
  removed := h.removed
  tail := h.tail
  next := h.next
  data := h.data

theorem Fresh.withCalls {n : Nat} (h : Fresh s n) :
    Fresh { s with threads := threads, calls := calls, history := history } n where
  allocated := h.allocated
  unlinked := h.unlinked
  next := h.next
  valued := h.valued

end Calls

section Threads

variable {s u : State ι V} {t t' : Nat} {i : ι} {call : Nat} {pc : Pc V}

/-- What a step of one thread has to establish: the shared members stay well
formed and move on, no node of another thread is touched, and the thread's new
place holds. -/
theorem InvAt.update [DecidableEq ι] (h : InvAt s t) (hshared : Shared u t')
    (hext : Extends s u t t') {x : Option (Nat × Pc V)}
    (hthreads : u.threads = Function.update s.threads i x)
    (hfresh : ∀ n, Fresh s n → (∀ call pc, s.threads i = some (call, pc) → pc.owned ≠ some n) →
      Fresh u n)
    (hx : ∀ call pc, x = some (call, pc) → Locals u t' pc ∧ ∀ n, pc.owned = some n → Fresh u n ∧
      ∀ j call' pc', j ≠ i → s.threads j = some (call', pc') → pc'.owned ≠ some n) :
    InvAt u t' where
  toShared := hshared
  locals j call pc hj := by
    rw [hthreads] at hj
    by_cases hji : j = i
    · rw [hji, Function.update_self] at hj
      exact ⟨(hx call pc hj).1, fun n hn => ((hx call pc hj).2 n hn).1⟩
    · rw [Function.update_of_ne hji] at hj
      obtain ⟨hlocals, howned⟩ := h.locals j call pc hj
      refine ⟨hlocals.extend hext, fun n hn => hfresh n (howned n hn) fun call' pc' hi hn' => ?_⟩
      exact hji (h.owners j i _ _ _ _ n hj hi hn hn')
  owners j k call call' pc pc' n hj hk hn hn' := by
    rw [hthreads] at hj hk
    by_cases hji : j = i <;> by_cases hki : k = i
    · rw [hji, hki]
    · rw [hji, Function.update_self] at hj
      rw [Function.update_of_ne hki] at hk
      exact absurd hn' (((hx call pc hj).2 n hn).2 k call' pc' hki hk)
    · rw [Function.update_of_ne hji] at hj
      rw [hki, Function.update_self] at hk
      exact absurd hn (((hx call' pc' hk).2 n hn').2 j call pc hji hj)
    · rw [Function.update_of_ne hji] at hj
      rw [Function.update_of_ne hki] at hk
      exact h.owners j k call call' pc pc' n hj hk hn hn'

variable [DecidableEq ι] (h : InvAt s t) (hi : s.threads i = some (call, pc))

include h hi

/-- A step that moves its thread and leaves the owned nodes alone. -/
theorem InvAt.goto {m : State ι V} (hshared : Shared m t') (hext : Extends s m t t')
    (hthreads : m.threads = s.threads) (hfresh : ∀ n, Fresh s n → Fresh m n) {pc' : Pc V}
    (hpc : Locals m t' pc') (howned : ∀ n, pc'.owned = some n → pc.owned = some n) :
    InvAt (m.goto i call pc') t' := by
  apply h.update (i := i) (x := some (call, pc'))
  · exact hshared.withCalls _ _ _
  · exact hext.withCalls _ _ _
  · rw [State.goto, hthreads]
  · exact fun n hn _ => (hfresh n hn).withCalls _ _ _
  · rintro _ _ ⟨⟩
    refine ⟨?_, fun n hn => ⟨?_, fun j call' pc' hj hj' hn' => ?_⟩⟩
    · cases pc' <;> exact hpc
    · exact (hfresh n ((h.locals i call pc hi).2 n (howned n hn))).withCalls _ _ _
    · exact hj (h.owners j i _ _ _ _ n hj' hi hn' (howned n hn))

omit hi in
/-- A step that returns from its thread's call. -/
theorem InvAt.finish {m : State ι V} (hshared : Shared m t') (hext : Extends s m t t')
    (hthreads : m.threads = s.threads) (hfresh : ∀ n, Fresh s n → Fresh m n) (res : Res V) :
    InvAt (m.finish i call res) t' := by
  apply h.update (i := i) (x := none)
  · exact hshared.withCalls _ _ _
  · exact hext.withCalls _ _ _
  · rw [State.finish, hthreads]
  · exact fun n hn _ => (hfresh n hn).withCalls _ _ _
  · rintro _ _ ⟨⟩

end Threads

section Members

variable {s u : State ι V} {t : Nat}

/-- Steps that touch neither the nodes nor the observed exchanges. -/
theorem Extends.of_same (hlinks : u.links = s.links) (hpops : u.pops = s.pops)
    (hnext : u.next = s.next) (hdata : u.data = s.data) {t' : Nat} (ht : t ≤ t') :
    Extends s u t t' where
  chain := by rw [State.chain, State.chain, hlinks]
  removed := by rw [State.removed, State.removed, hpops]
  tail := ht
  next n _ m h := by rwa [hnext]
  data n _ := by rw [hdata]

/-- Swinging the tail to its successor moves it one place on. -/
theorem Shared.swingTail (h : Shared s t) {next : Nat} (hnext : s.next s.tail = some next) :
    Shared { s with tail := next } (t + 1) where
  head_at := h.head_at
  tail_at := h.next_tail hnext
  le_tail := Nat.le_succ_of_le h.le_tail
  next_at := h.next_at
  nodup := h.nodup
  allocated := h.allocated
  valued := h.valued
  retired := h.retired
  deleted := h.deleted

/-- Linking a fresh node behind the last one puts it at the end of the chain. -/
theorem Shared.link (h : Shared s t) {tail node : Nat} (call : Nat) (htail : tail ∈ s.chain)
    (hnext : s.next tail = none) (hnode : Fresh s node) :
    Shared { s with
      next := Function.update s.next tail (some node)
      links := s.links ++ [(call, node)] } t := by
  have hchain : State.chain { s with
      next := Function.update s.next tail (some node)
      links := s.links ++ [(call, node)] } = s.chain ++ [node] := by
    simp [State.chain]
  have hold : ∀ {k n : Nat}, s.chain[k]? = some n → (s.chain ++ [node])[k]? = some n := by
    intro k n hk
    rw [List.getElem?_append_left (List.getElem?_eq_some_iff.mp hk).1, hk]
  have hremoved : ∀ n, s.Removed n → State.Removed { s with
      next := Function.update s.next tail (some node)
      links := s.links ++ [(call, node)] } n := by
    rintro n ⟨k, hk, hat⟩
    exact ⟨k, hk, hchain ▸ hold hat⟩
  refine ⟨hchain ▸ hold h.head_at, hchain ▸ hold h.tail_at, h.le_tail, ?_, ?_, ?_, ?_,
    fun n hn => hremoved n (h.retired n hn), fun n hn => hremoved n (h.deleted n hn)⟩
  · intro k n hk
    rw [hchain] at hk ⊢
    rcases Nat.lt_trichotomy k s.chain.length with hlt | heq | hgt
    · rw [List.getElem?_append_left hlt] at hk
      by_cases hn : n = tail
      · -- the node linked to was the last one
        have hlast := h.last_of_next_none htail hnext
        have hend : s.chain.length - 1 = k := h.at_inj (hn ▸ hlast) hk
        rw [hn, show k + 1 = s.chain.length by omega, List.getElem?_concat_length]
        exact Function.update_self ..
      · have hnext' := h.next_at k n hk
        have hmem : n ∈ s.chain := List.mem_of_getElem? hk
        have hsucc : k + 1 < s.chain.length := by
          by_contra hle
          rw [List.getElem?_eq_none (Nat.le_of_not_lt hle)] at hnext'
          have hlast := h.last_of_next_none hmem hnext'
          exact hn (Option.some.inj (hlast.symm.trans (h.last_of_next_none htail hnext)))
        rw [List.getElem?_append_left hsucc, ← hnext']
        exact Function.update_of_ne hn ..
    · subst heq
      rw [List.getElem?_concat_length] at hk
      rw [List.getElem?_eq_none (by simp)]
      cases hk
      have hne : node ≠ tail := fun he => hnode.unlinked (he ▸ htail)
      exact (Function.update_of_ne hne ..).trans hnode.next
    · rw [List.getElem?_eq_none (by simp; omega)] at hk
      cases hk
  · rw [hchain, List.nodup_append]
    refine ⟨h.nodup, List.nodup_singleton _, fun a ha b hb => ?_⟩
    rw [List.mem_singleton.mp hb]
    exact fun he => hnode.unlinked (he ▸ ha)
  · intro n hn
    rw [hchain] at hn
    rcases List.mem_append.mp hn with hn | hn
    · exact h.allocated n hn
    · rw [List.mem_singleton.mp hn]
      exact hnode.allocated
  · intro k n hk
    rw [hchain] at hk
    rcases Nat.lt_or_ge (k + 1) s.chain.length with hlt | hge
    · rw [List.getElem?_append_left hlt] at hk
      exact h.valued k n hk
    · rw [List.getElem?_append_right hge] at hk
      rw [List.mem_singleton.mp (List.mem_of_getElem? hk)]
      exact hnode.valued

/-- Exchanging the head for its successor moves it one place on. -/
theorem Shared.swingHead (h : Shared s t) {next : Nat} (call : Nat) (hlt : s.removed < t)
    (hnext : s.chain[s.removed + 1]? = some next) :
    Shared { s with head := next, pops := s.pops ++ [call] } t := by
  have hremoved : State.removed { s with head := next, pops := s.pops ++ [call] } =
      s.removed + 1 := by
    simp [State.removed]
  have hold : ∀ n, s.Removed n →
      State.Removed { s with head := next, pops := s.pops ++ [call] } n := by
    rintro n ⟨k, hk, hat⟩
    exact ⟨k, hremoved ▸ Nat.lt_succ_of_lt hk, hat⟩
  refine ⟨?_, h.tail_at, ?_, h.next_at, h.nodup, h.allocated, h.valued,
    fun n hn => hold n (h.retired n hn), fun n hn => hold n (h.deleted n hn)⟩
  · rw [hremoved]
    exact hnext
  · rw [hremoved]
    exact hlt

/-- The members stay well formed when only counters change and passed nodes are
retired, taken from the list or deleted. -/
theorem Shared.reclaim (h : Shared s t) (size retiredCount : UInt64) {retiredHead : List Nat}
    {deleted : Nat → Bool} (hretired : ∀ n ∈ retiredHead, s.Removed n)
    (hdeleted : ∀ n, deleted n = true → s.Removed n) :
    Shared { s with
      size := size
      retiredCount := retiredCount
      retiredHead := retiredHead
      deleted := deleted } t :=
  ⟨h.head_at, h.tail_at, h.le_tail, h.next_at, h.nodup, h.allocated, h.valued, hretired, hdeleted⟩

end Members

section Step

variable [DecidableEq ι] {s : State ι V} {t : Nat} {i : ι} {call : Nat} {pc : Pc V}
  (h : InvAt s t) (hi : s.threads i = some (call, pc))

include h hi

/-- A step that only reads. -/
theorem InvAt.stay {pc' : Pc V} (hpc : Locals s t pc')
    (howned : ∀ n, pc'.owned = some n → pc.owned = some n) : InvAt (s.goto i call pc') t :=
  h.goto hi h.toShared (Extends.refl s t) rfl (fun _ hn => hn) hpc howned

/-- A step on the counters, the retired list or the marks of passed nodes. -/
theorem InvAt.reclaim (size retiredCount : UInt64) {retiredHead : List Nat}
    {deleted : Nat → Bool} (hretired : ∀ n ∈ retiredHead, s.Removed n)
    (hdeleted : ∀ n, deleted n = true → s.Removed n) {pc' : Pc V} (hpc : Locals s t pc')
    (howned : pc'.owned = none) :
    InvAt ({ s with
      size := size
      retiredCount := retiredCount
      retiredHead := retiredHead
      deleted := deleted }.goto i call pc') t := by
  have hext : Extends s { s with
      size := size
      retiredCount := retiredCount
      retiredHead := retiredHead
      deleted := deleted } t t := Extends.of_same (by rfl) (by rfl) (by rfl) (by rfl) le_rfl
  apply h.goto hi (h.toShared.reclaim size retiredCount hretired hdeleted) hext rfl
  · exact fun n hn => ⟨hn.1, hn.2, hn.3, hn.4⟩
  · exact hpc.extend hext
  · intro n hn
    rw [howned] at hn
    cases hn

/-- A new node is linked. -/
theorem InvAt.link {node tail : Nat} (hpc : pc.owned = some node) (htail : tail ∈ s.chain)
    (hnext : s.next tail = none) :
    InvAt ({ s with
      next := Function.update s.next tail (some node)
      links := s.links ++ [(call, node)] }.goto i call (.pushSwing node tail)) t := by
  have hnode := (h.locals i call pc hi).2 node hpc
  let u := { s with
    next := Function.update s.next tail (some node)
    links := s.links ++ [(call, node)] }.goto i call (.pushSwing node tail)
  have hchain : u.chain = s.chain ++ [node] := by
    simp [u, State.chain, State.goto]
  have hbefore : s.chain <+: u.chain := ⟨[node], hchain.symm⟩
  apply h.update (u := u) (i := i) (x := some (call, .pushSwing node tail))
  · exact (h.toShared.link call htail hnext hnode).withCalls _ _ _
  · refine ⟨hbefore, le_rfl, le_rfl, fun n _ m hm => ?_, fun _ _ => rfl⟩
    have hne : n ≠ tail := fun he => by rw [he, hnext] at hm; cases hm
    exact (Function.update_of_ne hne ..).trans hm
  · rfl
  · intro n hn hother
    have hne : n ≠ node := fun he => hother call pc hi (he ▸ hpc)
    have hne' : n ≠ tail := fun he => hn.unlinked (he ▸ htail)
    refine ⟨hn.allocated, ?_, (Function.update_of_ne hne' ..).trans hn.next, hn.valued⟩
    rw [hchain]
    simp [hn.unlinked, hne]
  · rintro _ _ ⟨⟩
    exact ⟨⟨hbefore.subset htail, Function.update_self ..⟩, nofun⟩

/-- The tail's exchange succeeds or not; either way the thread moves on. -/
theorem InvAt.helpTail {tail next : Nat} (hnext : s.next tail = some next) (spurious : Bool)
    {pc' : Pc V} (hpc : Locals s t pc') (howned : ∀ n, pc'.owned = some n → pc.owned = some n) :
    ∃ t', InvAt (if s.tail = tail ∧ spurious = false then
      { s with tail := next }.goto i call pc' else s.goto i call pc') t' := by
  split
  · rename_i hcas
    obtain ⟨rfl, -⟩ := hcas
    have hext : Extends s { s with tail := next } t (t + 1) :=
      Extends.of_same (by rfl) (by rfl) (by rfl) (by rfl) (Nat.le_succ t)
    refine ⟨t + 1, h.goto hi (h.toShared.swingTail hnext) hext rfl ?_ (hpc.extend hext) howned⟩
    exact fun n hn => ⟨hn.1, hn.2, hn.3, hn.4⟩
  · exact ⟨t, h.stay hi hpc howned⟩

/-- The end of a round of `pop`. -/
theorem InvAt.finishPop (size retiredCount : UInt64) {retiredHead : List Nat}
    {deleted : Nat → Bool} (hretired : ∀ n ∈ retiredHead, s.Removed n)
    (hdeleted : ∀ n, deleted n = true → s.Removed n) (data : Option V) :
    InvAt ({ s with
      size := size
      retiredCount := retiredCount
      retiredHead := retiredHead
      deleted := deleted }.finishPop i call data) t := by
  cases data with
  | none => exact h.reclaim hi size retiredCount hretired hdeleted trivial rfl
  | some value =>
    apply h.finish (h.toShared.reclaim size retiredCount hretired hdeleted)
      (Extends.of_same (by rfl) (by rfl) (by rfl) (by rfl) le_rfl) rfl
    exact fun n hn => ⟨hn.1, hn.2, hn.3, hn.4⟩

/-- The loop that deletes goes on over passed nodes. -/
theorem InvAt.reclaimLoop (size retiredCount : UInt64) {retiredHead : List Nat}
    {deleted : Nat → Bool} (hretired : ∀ n ∈ retiredHead, s.Removed n)
    (hdeleted : ∀ n, deleted n = true → s.Removed n) {retired : List Nat}
    (hlist : ∀ n ∈ retired, s.Removed n) {data : Option V} (hdata : data.isSome) :
    InvAt ({ s with
      size := size
      retiredCount := retiredCount
      retiredHead := retiredHead
      deleted := deleted }.reclaimLoop i call retired data) t := by
  cases retired with
  | nil => exact h.finishPop hi size retiredCount hretired hdeleted data
  | cons node rest =>
    exact h.reclaim hi size retiredCount hretired hdeleted ⟨hlist, hdata⟩ rfl

/-- Every step of a thread keeps the invariant. -/
theorem InvAt.pcNext (spurious : Bool) : ∃ t', InvAt (s.pcNext i call spurious pc) t' := by
  obtain ⟨hlocals, hfresh⟩ := h.locals i call pc hi
  cases pc with
  | pushLoadTail node => exact ⟨t, h.stay hi h.mem_tail fun _ hn => hn⟩
  | pushLoadNext node tail => exact ⟨t, h.stay hi ⟨hlocals, fun _ hn => hn⟩ fun _ hn => hn⟩
  | pushCheckTail node tail next =>
    simp only [State.pcNext]
    split
    · cases next with
      | none => exact ⟨t, h.stay hi hlocals.1 fun _ hn => hn⟩
      | some next => exact ⟨t, h.stay hi ⟨hlocals.1, hlocals.2 next rfl⟩ fun _ hn => hn⟩
    · exact ⟨t, h.stay hi trivial fun _ hn => hn⟩
  | pushLink node tail =>
    simp only [State.pcNext]
    split
    · rename_i hcas
      exact ⟨t, h.link hi rfl hlocals hcas.1⟩
    · exact ⟨t, h.stay hi trivial fun _ hn => hn⟩
  | pushSwing node tail => exact h.helpTail hi hlocals.2 spurious trivial nofun
  | pushHelp node tail next => exact h.helpTail hi hlocals.2 spurious trivial fun _ hn => hn
  | pushCount =>
    refine ⟨t, h.finish (h.toShared.reclaim (s.size + 1) s.retiredCount h.retired h.deleted)
      (Extends.of_same (by rfl) (by rfl) (by rfl) (by rfl) le_rfl) rfl ?_ _⟩
    exact fun n hn => ⟨hn.1, hn.2, hn.3, hn.4⟩
  | popLoadHead => exact ⟨t, h.stay hi ⟨s.removed, le_rfl, h.head_at⟩ nofun⟩
  | popLoadTail head =>
    obtain ⟨k, hk, hat⟩ := hlocals
    exact ⟨t, h.stay hi ⟨k, hk, t, le_rfl, hk.trans h.le_tail, hat, h.tail_at⟩ nofun⟩
  | popLoadNext head tail => exact ⟨t, h.stay hi ⟨hlocals, fun _ hn => hn⟩ nofun⟩
  | popCheckHead head tail next =>
    obtain ⟨⟨k, hk, j, hj, hkj, hat, hat'⟩, hnext⟩ := hlocals
    simp only [State.pcNext]
    split
    · split
      · cases next with
        | none =>
          exact ⟨t, h.finish h.toShared (Extends.refl s t) rfl (fun _ hn => hn) _⟩
        | some next =>
          rename_i heq
          exact ⟨t, h.stay hi ⟨List.mem_of_getElem? hat', heq ▸ hnext next rfl⟩ nofun⟩
      · cases next with
        | none => exact ⟨t, h.stay hi trivial nofun⟩
        | some next =>
          rename_i hne
          have hlt : k < j := by
            refine lt_of_le_of_ne hkj fun he => hne ?_
            exact Option.some.inj (hat.symm.trans (he ▸ hat'))
          have hsucc := (h.next_at k head hat).symm.trans (hnext next rfl)
          exact ⟨t, h.stay hi ⟨k, hlt.trans_le hj, hat, hsucc⟩ nofun⟩
    · exact ⟨t, h.stay hi trivial nofun⟩
  | popHelp tail next => exact h.helpTail hi hlocals.2 spurious trivial nofun
  | popReadData head next => exact ⟨t, h.stay hi ⟨hlocals, rfl⟩ nofun⟩
  | popSwing head next data =>
    obtain ⟨⟨k, hk, hat, hsucc⟩, hdata⟩ := hlocals
    simp only [State.pcNext]
    split
    · rename_i hcas
      obtain ⟨rfl, -⟩ := hcas
      have hplace : k = s.removed := h.at_inj hat h.head_at
      subst hplace
      have hremoved : s.removed <
          State.removed { s with head := next, pops := s.pops ++ [call] } := by
        simp [State.removed]
      refine ⟨t, h.goto hi (h.toShared.swingHead call hk hsucc) ?_ rfl ?_
        ⟨⟨s.removed, hremoved, h.head_at⟩, hdata ▸ h.valued _ _ hsucc⟩ nofun⟩
      · exact ⟨List.prefix_rfl, hremoved.le, le_rfl, fun _ _ _ hm => hm, fun _ _ => rfl⟩
      · exact fun n hn => ⟨hn.1, hn.2, hn.3, hn.4⟩
    · exact ⟨t, h.stay hi trivial nofun⟩
  | popCount head data => exact ⟨t, h.reclaim hi _ _ h.retired h.deleted hlocals rfl⟩
  | retireLoad head data => exact ⟨t, h.stay hi hlocals nofun⟩
  | retireLink head oldHead data =>
    simp only [State.pcNext]
    split
    · rename_i hcas
      obtain ⟨rfl, -⟩ := hcas
      have hretired : ∀ n ∈ head :: s.retiredHead, s.Removed n :=
        List.forall_mem_cons.mpr ⟨hlocals.1, h.retired⟩
      exact ⟨t, h.reclaim hi _ _ hretired h.deleted hlocals.2 rfl⟩
    · exact ⟨t, h.stay hi hlocals nofun⟩
  | retireCount data => exact ⟨t, h.reclaim hi _ _ h.retired h.deleted hlocals rfl⟩
  | reclaimTest data =>
    simp only [State.pcNext]
    split
    · exact ⟨t, h.finishPop hi _ _ h.retired h.deleted data⟩
    · exact ⟨t, h.stay hi hlocals nofun⟩
  | reclaimTake data =>
    simp only [State.pcNext]
    split
    · exact ⟨t, h.finishPop hi _ _ h.retired h.deleted data⟩
    · exact ⟨t, h.reclaim hi _ _ (List.forall_mem_nil _) h.deleted ⟨h.retired, hlocals⟩ rfl⟩
  | reclaimReset retired data =>
    exact ⟨t, h.reclaimLoop hi _ _ h.retired h.deleted hlocals.1 hlocals.2⟩
  | reclaimDelete node rest data =>
    obtain ⟨hremoved, hdata⟩ := hlocals
    refine ⟨t, h.reclaimLoop hi _ _ h.retired ?_ (List.forall_mem_cons.mp hremoved).2 hdata⟩
    intro n hn
    by_cases he : n = node
    · exact he ▸ hremoved node List.mem_cons_self
    · exact h.deleted n ((Function.update_of_ne he ..).symm.trans hn)

end Step

section Run

variable [DecidableEq ι] {s : State ι V} {t : Nat}

omit [DecidableEq ι] in
theorem invAt_construct : InvAt (construct ι V) 0 where
  head_at := rfl
  tail_at := rfl
  le_tail := le_rfl
  next_at k n hk := by
    cases k with
    | zero => rfl
    | succ k => cases hk
  nodup := List.nodup_singleton 0
  allocated n hn := by
    rw [List.mem_singleton.mp hn]
    exact Nat.one_pos
  valued _ _ hk := by cases hk
  retired := List.forall_mem_nil _
  deleted := nofun
  locals := nofun
  owners := nofun

/-- A new node is no node that is linked or owned. -/
theorem InvAt.beginPush (h : InvAt s t) {i : ι} (value : V) :
    InvAt (s.step (.push i value)) t := by
  have hchain : ∀ n ∈ s.chain, n ≠ s.allocated := fun n hn => (h.allocated n hn).ne
  have hplace : ∀ k n : Nat, s.chain[k]? = some n → n ≠ s.allocated :=
    fun k n hk => hchain n (List.mem_of_getElem? hk)
  have hdata : ∀ n, n ≠ s.allocated →
      Function.update s.data s.allocated (some value) n = s.data n :=
    fun n hn => Function.update_of_ne hn ..
  have hnext : ∀ n, n ≠ s.allocated → Function.update s.next s.allocated none n = s.next n :=
    fun n hn => Function.update_of_ne hn ..
  apply h.update (i := i) (x := some (s.calls, .pushLoadTail s.allocated))
  · refine ⟨h.head_at, h.tail_at, h.le_tail, fun k n hk => ?_, h.nodup,
      fun n hn => (h.allocated n hn).trans (Nat.lt_succ_self _), fun k n hk => ?_, h.retired,
      h.deleted⟩
    · exact (hnext n (hplace k n hk)).trans (h.next_at k n hk)
    · exact (congrArg Option.isSome (hdata n (hplace _ n hk))).trans (h.valued k n hk)
  · refine ⟨List.prefix_rfl, le_rfl, le_rfl, fun n hn m hm => ?_, fun n hn => hdata n (hchain n hn)⟩
    exact (hnext n (hchain n hn)).trans hm
  · rfl
  · intro n hn _
    have hne : n ≠ s.allocated := hn.allocated.ne
    exact ⟨hn.allocated.trans (Nat.lt_succ_self _), hn.unlinked, (hnext n hne).trans hn.next,
      (congrArg Option.isSome (hdata n hne)).trans hn.valued⟩
  · rintro _ _ ⟨⟩
    refine ⟨trivial, ?_⟩
    rintro _ ⟨⟩
    refine ⟨⟨Nat.lt_succ_self _, fun hmem => hchain _ hmem rfl, Function.update_self .., ?_⟩, ?_⟩
    · exact congrArg Option.isSome (Function.update_self s.allocated (some value) s.data)
    · intro j call pc _ hj hn
      exact ((h.locals j call pc hj).2 _ hn).allocated.ne rfl

/-- Every step keeps the invariant. -/
theorem InvAt.step (h : InvAt s t) (e : Event ι V) : ∃ t', InvAt (s.step e) t' := by
  cases e with
  | push i value => exact ⟨t, h.beginPush value⟩
  | pop i =>
    refine ⟨t, h.update (i := i) (x := some (s.calls, .popLoadHead)) ?_ ?_ rfl ?_ ?_⟩
    · exact h.toShared.withCalls _ _ _
    · exact (Extends.refl s t).withCalls _ _ _
    · exact fun n hn _ => hn.withCalls _ _ _
    · rintro _ _ ⟨⟩
      exact ⟨trivial, nofun⟩
  | step i spurious =>
    simp only [State.step]
    cases hi : s.threads i with
    | none => exact ⟨t, h⟩
    | some x => exact h.pcNext hi spurious

end Run

end OrderbookEngine.LockFreeQueue
