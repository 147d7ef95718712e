import OrderbookEngine.Utils.QueueChain

/-!
# The queue is linearizable

A push takes effect when its node is linked and a pop that returns a value when
it exchanges the head. A pop that finds nothing took effect when it loaded the
successor of the head, which only the later check of the head decides: it enters
the order there and leaves it again when the check fails.
-/

namespace OrderbookEngine.LockFreeQueue

open Linearizability Transition

variable {ι V : Type}

/-- The values found from a node on, as far as `fuel` nodes go. -/
def walk (next : Nat → Option Nat) (data : Nat → Option V) : Nat → Option Nat → List V
  | 0, _ | _, none => []
  | fuel + 1, some node => (data node).toList ++ walk next data fuel (next node)

/-- The values behind the head, front first. -/
def State.contents (s : State ι V) : List V := walk s.next s.data s.allocated (s.next s.head)

/-- The values of the linked nodes behind the head. -/
def State.values (s : State ι V) : List V := (s.chain.drop (s.removed + 1)).filterMap s.data

/-- The pushes whose link exchange succeeded, in that order, with their values. -/
def State.linked (s : State ι V) : List (Nat × V) :=
  s.links.filterMap fun link => (s.data link.2).map fun value => (link.1, value)

/-- The pushes of an order, with their values. -/
def pushes (order : List (Entry (Op V) (Res V))) : List (Nat × V) :=
  order.filterMap fun e => match e.op with
    | .push value => some (e.call, value)
    | .pop => none

/-- The values that the pops of an order return. -/
def poppedValues (order : List (Entry (Op V) (Res V))) : List V :=
  order.filterMap fun e => match e.res with
    | .popped value => value
    | .pushed => none

section Values

variable {s u : State ι V} {t : Nat}

/-- Walking along the chain finds the values of the rest of the chain. -/
theorem Shared.walk_eq (h : Shared s t) (fuel k : Nat) (hfuel : s.chain.length ≤ fuel + k) :
    walk s.next s.data fuel s.chain[k]? = (s.chain.drop k).filterMap s.data := by
  induction fuel generalizing k with
  | zero =>
    rw [walk, List.drop_of_length_le (by omega)]
    rfl
  | succ fuel ih =>
    cases hk : s.chain[k]? with
    | none =>
      rw [List.drop_of_length_le (List.getElem?_eq_none_iff.mp hk)]
      rfl
    | some node =>
      obtain ⟨hlt, hnode⟩ := List.getElem?_eq_some_iff.mp hk
      rw [walk, h.next_at k node hk, ih (k + 1) (by omega), List.drop_eq_getElem_cons hlt, hnode]
      cases hdata : s.data node <;> simp [hdata]

/-- There are no more linked nodes than allocated ones. -/
theorem Shared.length_chain_le (h : Shared s t) : s.chain.length ≤ s.allocated := by
  have hsub : s.chain ⊆ List.range s.allocated :=
    fun n hn => List.mem_range.mpr (h.allocated n hn)
  simpa using (h.nodup.subperm hsub).length_le

/-- The values behind the head are those of the linked nodes behind it. -/
theorem Shared.contents_eq (h : Shared s t) : s.contents = s.values := by
  have hle := h.length_chain_le
  rw [State.contents, h.next_at _ _ h.head_at, h.walk_eq _ _ (by omega), State.values]

/-- Without a successor of the head there are no values. -/
theorem Shared.values_of_next_none (h : Shared s t) (hnext : s.next s.head = none) :
    s.values = [] := by
  have hend := (h.next_at _ _ h.head_at).symm.trans hnext
  rw [State.values, List.drop_of_length_le (List.getElem?_eq_none_iff.mp hend)]
  rfl

/-- The value of the head's successor is in front. -/
theorem values_cons {node : Nat} {value : V}
    (hnode : s.chain[s.removed + 1]? = some node) (hvalue : s.data node = some value) :
    s.values = value :: (s.chain.drop (s.removed + 2)).filterMap s.data := by
  obtain ⟨hlt, heq⟩ := List.getElem?_eq_some_iff.mp hnode
  rw [State.values, List.drop_eq_getElem_cons hlt, heq, List.filterMap_cons_some hvalue]

/-- First in, first out: what was there and is pushed is popped or still there. -/
theorem Legal.pushes_eq {q q' : List V} {order : List (Entry (Op V) (Res V))}
    (h : Legal fifo q order q') :
    q ++ (pushes order).map Prod.snd = poppedValues order ++ q' := by
  induction order generalizing q with
  | nil =>
    rw [show q = q' from h]
    simp [pushes, poppedValues]
  | cons e order ih =>
    obtain ⟨call, op, res⟩ := e
    obtain ⟨hres, hrest⟩ := h
    have hrest := ih hrest
    cases op with
    | push value =>
      cases hres
      simpa [fifo, pushes, poppedValues] using hrest
    | pop =>
      cases q with
      | nil =>
        cases hres
        simpa [fifo, pushes, poppedValues] using hrest
      | cons value q =>
        cases hres
        simpa [fifo, pushes, poppedValues] using hrest

end Values

/-- Nothing that the order depends on is changed. -/
structure Untouched (s m : State ι V) : Prop where
  threads : m.threads = s.threads
  history : m.history = s.history
  calls : m.calls = s.calls
  data : m.data = s.data
  head : m.head = s.head
  links : m.links = s.links
  pops : m.pops = s.pops

/-- What a call in progress has done to the order, by its place. -/
def Effect (s : State ι V) (order : List (Entry (Op V) (Res V))) (call : Nat) : Pc V → Prop
  | .pushLoadTail node | .pushLoadNext node _ | .pushCheckTail node _ _ | .pushLink node _
  | .pushHelp node _ _ =>
    (∃ value, s.data node = some value ∧ .invoke call (.push value) ∈ s.history) ∧
      ∀ e ∈ order, e.call ≠ call
  | .pushSwing _ _ | .pushCount => ∃ value, ⟨call, .push value, .pushed⟩ ∈ order
  | .popLoadHead | .popLoadTail _ | .popLoadNext _ _ | .popHelp _ _ | .popReadData _ _
  | .popSwing _ _ _ => .invoke call .pop ∈ s.history ∧ ∀ e ∈ order, e.call ≠ call
  | .popCheckHead head tail next => .invoke call .pop ∈ s.history ∧
    (∀ e ∈ order, e.call = call →
      e.op = .pop ∧ e.res = .popped none ∧ next = none ∧ head = tail) ∧
      (next = none → head = tail → s.head = head → ⟨call, .pop, .popped none⟩ ∈ order)
  | .popCount _ data | .retireLoad _ data | .retireLink _ _ data | .retireCount data
  | .reclaimTest data | .reclaimTake data | .reclaimReset _ data | .reclaimDelete _ _ data =>
    ⟨call, .pop, .popped data⟩ ∈ order

/-- The call has begun and not returned. -/
def State.InProgress (s : State ι V) (call : Nat) : Prop :=
  (∃ op, .invoke call op ∈ s.history) ∧ ∀ res, .respond call res ∉ s.history

/-- One of the states passed found the queue empty during the call. -/
def FoundEmpty (past : List (State ι V)) (call : Nat) : Prop :=
  ∃ u ∈ past, u.InProgress call ∧ u.contents = []

/-- The order explains the history and agrees with the queue, with what every
call in progress has done and with the states passed. -/
structure Explains (past : List (State ι V)) (s : State ι V)
    (order : List (Entry (Op V) (Res V))) : Prop where
  lin : Linearizes fifo [] s.history order s.values
  pushed : pushes order = s.linked
  numbered : ∀ call op, .invoke call op ∈ s.history → call < s.calls
  pending : ∀ i call pc, s.threads i = some (call, pc) →
    call < s.calls ∧ (∀ res, .respond call res ∉ s.history) ∧ Effect s order call pc
  distinct : ∀ i j call pc pc', s.threads i = some (call, pc) →
    s.threads j = some (call, pc') → i = j
  foundEmpty : ∀ call, ⟨call, .pop, .popped none⟩ ∈ order → FoundEmpty past call

section Rules

variable {past : List (State ι V)} {s m u : State ι V} {t : Nat} {i : ι} {call : Nat}
  {pc pc' : Pc V} {order order' : List (Entry (Op V) (Res V))} {e : Entry (Op V) (Res V)}

/-- The steps of other calls keep what a call has done. -/
theorem Effect.keep (h : Effect s order call pc) (hhistory : s.history ⊆ u.history)
    (hdata : ∀ n, pc.owned = some n → u.data n = s.data n)
    (horder : ∀ e : Entry (Op V) (Res V), e.call = call → (e ∈ order' ↔ e ∈ order))
    (hhead : ∀ head tail next, pc = .popCheckHead head tail next → u.head = head →
      s.head = head) : Effect u order' call pc := by
  have hnone : (∀ e ∈ order, e.call ≠ call) → ∀ e ∈ order', e.call ≠ call :=
    fun hn e he hc => hn e ((horder e hc).mp he) hc
  cases pc with
  | pushLoadTail node | pushLoadNext node | pushCheckTail node | pushLink node | pushHelp node =>
    obtain ⟨⟨value, hvalue, hinvoke⟩, hn⟩ := h
    exact ⟨⟨value, (hdata node rfl).trans hvalue, hhistory hinvoke⟩, hnone hn⟩
  | pushSwing | pushCount =>
    obtain ⟨value, hmem⟩ := h
    exact ⟨value, (horder _ rfl).mpr hmem⟩
  | popLoadHead | popLoadTail | popLoadNext | popHelp | popReadData | popSwing =>
    exact ⟨hhistory h.1, hnone h.2⟩
  | popCheckHead head tail next =>
    refine ⟨hhistory h.1, fun e he hc => h.2.1 e ((horder e hc).mp he) hc, fun hn ht hh => ?_⟩
    exact (horder _ rfl).mpr (h.2.2 hn ht (hhead head tail next rfl hh))
  | popCount | retireLoad | retireLink | retireCount | reclaimTest | reclaimTake | reclaimReset
  | reclaimDelete => exact (horder _ rfl).mpr h

variable [DecidableEq ι]

/-- What a step of one thread has to establish for the order. -/
theorem Explains.update (h : Explains past s order) (hinv : InvAt s t) {x : Option (Nat × Pc V)}
    (hthreads : u.threads = Function.update s.threads i x)
    (hlin : Linearizes fifo [] u.history order' u.values) (hpushed : pushes order' = u.linked)
    (hnumbered : ∀ call op, .invoke call op ∈ u.history → call < u.calls)
    (hcalls : s.calls ≤ u.calls) (hhistory : s.history ⊆ u.history)
    (hrespond : ∀ call res, .respond call res ∈ u.history →
      .respond call res ∈ s.history ∨ ∃ pc, s.threads i = some (call, pc))
    (hdata : ∀ n < s.allocated, u.data n = s.data n)
    (hhead : ∀ k n, k ≤ s.removed → s.chain[k]? = some n → u.head = n → s.head = n)
    (horder : ∀ e : Entry (Op V) (Res V), e.call < s.calls →
      (∀ pc, s.threads i ≠ some (e.call, pc)) → (e ∈ order' ↔ e ∈ order))
    (hempty : ∀ call, ⟨call, .pop, .popped none⟩ ∈ order' →
      ⟨call, .pop, .popped none⟩ ∈ order ∨ FoundEmpty past call)
    (hx : ∀ call pc, x = some (call, pc) → call < u.calls ∧
      (∀ res, .respond call res ∉ u.history) ∧ Effect u order' call pc ∧
        ∀ j pc', j ≠ i → s.threads j ≠ some (call, pc')) : Explains past u order' where
  lin := hlin
  pushed := hpushed
  numbered := hnumbered
  pending j call pc hj := by
    rw [hthreads] at hj
    by_cases hji : j = i
    · rw [hji, Function.update_self] at hj
      obtain ⟨hlt, hres, heffect, -⟩ := hx call pc hj
      exact ⟨hlt, hres, heffect⟩
    · rw [Function.update_of_ne hji] at hj
      obtain ⟨hlt, hres, heffect⟩ := h.pending j call pc hj
      have hother : ∀ pc', s.threads i ≠ some (call, pc') :=
        fun pc' hi => hji (h.distinct j i call pc pc' hj hi)
      obtain ⟨hlocals, howned⟩ := hinv.locals j call pc hj
      refine ⟨hlt.trans_le hcalls, fun res hr => ?_, heffect.keep hhistory ?_ ?_ ?_⟩
      · rcases hrespond call res hr with hr | ⟨pc', hi⟩
        · exact hres res hr
        · exact hother pc' hi
      · exact fun n hn => hdata n (howned n hn).allocated
      · intro e he
        exact horder e (he ▸ hlt) (he ▸ hother)
      · rintro head tail next rfl
        obtain ⟨⟨k, hk, -, -, -, hat, -⟩, -⟩ := hlocals
        exact hhead k head hk hat
  distinct j k call pc pc' hj hk := by
    rw [hthreads] at hj hk
    by_cases hji : j = i <;> by_cases hki : k = i
    · rw [hji, hki]
    · rw [hji, Function.update_self] at hj
      rw [Function.update_of_ne hki] at hk
      exact absurd hk ((hx call pc hj).2.2.2 k pc' hki)
    · rw [Function.update_of_ne hji] at hj
      rw [hki, Function.update_self] at hk
      exact absurd hj ((hx call pc' hk).2.2.2 j pc hji)
    · rw [Function.update_of_ne hji] at hj
      rw [Function.update_of_ne hki] at hk
      exact h.distinct j k call pc pc' hj hk
  foundEmpty call hmem := (hempty call hmem).elim (h.foundEmpty call) id

variable (h : Explains past s order) (hinv : InvAt s t) (hi : s.threads i = some (call, pc))

include h hinv hi

/-- A step within a call. -/
theorem Explains.goto (hthreads : m.threads = s.threads) (hhistory : m.history = s.history)
    (hcalls : m.calls = s.calls) (hdata : m.data = s.data)
    (hhead : ∀ k n, k ≤ s.removed → s.chain[k]? = some n → m.head = n → s.head = n)
    (hlin : Linearizes fifo [] s.history order' m.values) (hpushed : pushes order' = m.linked)
    (horder : ∀ e : Entry (Op V) (Res V), e.call ≠ call → (e ∈ order' ↔ e ∈ order))
    (hempty : ∀ call, ⟨call, .pop, .popped none⟩ ∈ order' →
      ⟨call, .pop, .popped none⟩ ∈ order ∨ FoundEmpty past call)
    (heffect : Effect (m.goto i call pc') order' call pc') :
    Explains past (m.goto i call pc') order' := by
  have hhistory' : (m.goto i call pc').history = s.history := hhistory
  obtain ⟨hlt, hres, -⟩ := h.pending i call pc hi
  apply h.update hinv (i := i) (x := some (call, pc'))
  · rw [State.goto, hthreads]
  · rw [hhistory']
    exact hlin
  · exact hpushed
  · rw [hhistory']
    exact fun c op hc => (h.numbered c op hc).trans_eq hcalls.symm
  · exact hcalls.ge
  · rw [hhistory']
    exact List.Subset.refl _
  · rw [hhistory']
    exact fun c res hc => Or.inl hc
  · exact fun n _ => congrFun hdata n
  · exact hhead
  · exact fun e _ hne => horder e fun he => hne pc (he ▸ hi)
  · exact hempty
  · rintro _ _ ⟨⟩
    refine ⟨hlt.trans_eq hcalls.symm, ?_, heffect, fun j pc'' hj hj' => ?_⟩
    · rw [hhistory']
      exact hres
    · exact hj (h.distinct j i call pc'' pc hj' hi)

/-- A step that touches neither the history nor the values nor the order. -/
theorem Explains.stay (hm : Untouched s m)
    (heffect : Effect (m.goto i call pc') order call pc') :
    Explains past (m.goto i call pc') order := by
  apply h.goto hinv hi hm.threads hm.history hm.calls hm.data
  · exact fun k n _ _ hn => hm.head.symm.trans hn
  · rw [State.values, State.chain, State.removed, hm.links, hm.pops, hm.data]
    exact h.lin
  · rw [State.linked, hm.links, hm.data]
    exact h.pushed
  · exact fun e _ => Iff.rfl
  · exact fun _ => Or.inl
  · exact heffect

/-- A return from a call that is in the order. -/
theorem Explains.finish (hm : Untouched s m) {op : Op V} {res : Res V}
    (hmem : ⟨call, op, res⟩ ∈ order) : Explains past (m.finish i call res) order := by
  have hhistory' : (m.finish i call res).history = s.history ++ [.respond call res] := by
    rw [State.finish, hm.history]
  have hvalues : (m.finish i call res).values = s.values := by
    show List.filterMap m.data (List.drop (m.removed + 1) m.chain) = _
    rw [State.values, State.chain, State.removed, State.chain, State.removed, hm.links, hm.pops,
      hm.data]
  apply h.update hinv (i := i) (x := none)
  · rw [State.finish, hm.threads]
  · rw [hhistory', hvalues]
    exact h.lin.respond (h.pending i call pc hi).2.1 hmem
  · rw [h.pushed, State.linked, State.linked, State.finish]
    simp only [hm.links, hm.data]
  · rw [hhistory']
    intro c op hc
    rcases List.mem_append.mp hc with hc | hc
    · exact (h.numbered c op hc).trans_eq hm.calls.symm
    · cases List.mem_singleton.mp hc
  · exact hm.calls.ge
  · rw [hhistory']
    exact List.subset_append_left _ _
  · rw [hhistory']
    intro c res' hc
    rcases List.mem_append.mp hc with hc | hc
    · exact Or.inl hc
    · cases List.mem_singleton.mp hc
      exact Or.inr ⟨pc, hi⟩
  · exact fun n _ => congrFun hm.data n
  · exact fun k n _ _ hn => hm.head.symm.trans hn
  · exact fun e _ _ => Iff.rfl
  · exact fun _ => Or.inl
  · rintro _ _ ⟨⟩

/-- A round of `pop` that found a value returns it. -/
theorem Explains.finishPop (hm : Untouched s m) {data : Option V}
    (hsome : data.isSome) (hmem : ⟨call, .pop, .popped data⟩ ∈ order) :
    Explains past (m.finishPop i call data) order := by
  obtain ⟨value, rfl⟩ := Option.isSome_iff_exists.mp hsome
  exact h.finish hinv hi hm hmem

theorem Explains.reclaimLoop (hm : Untouched s m)
    (retired : List Nat) {data : Option V} (hsome : data.isSome)
    (hmem : ⟨call, .pop, .popped data⟩ ∈ order) :
    Explains past (m.reclaimLoop i call retired data) order := by
  cases retired with
  | nil => exact h.finishPop hinv hi hm hsome hmem
  | cons node rest => exact h.stay hinv hi hm hmem

/-- The tail's exchange does not matter to the order. -/
theorem Explains.helpTail (tail next : Nat) (spurious : Bool)
    (heffect : Effect s order call pc')
    (hpc : ∀ head tail next, pc' ≠ .popCheckHead head tail next) :
    Explains past (if s.tail = tail ∧ spurious = false then
      { s with tail := next }.goto i call pc' else s.goto i call pc') order := by
  have hkeep : ∀ u : State ι V, u.history = s.history → u.data = s.data →
      Effect u order call pc' := by
    intro u hhistory hdata
    exact heffect.keep (by rw [hhistory]; exact List.Subset.refl _) (fun n _ => congrFun hdata n)
      (fun _ _ => Iff.rfl) fun head tail next he => absurd he (hpc head tail next)
  split
  · exact h.stay hinv hi ⟨rfl, rfl, rfl, rfl, rfl, rfl, rfl⟩ (hkeep _ rfl rfl)
  · exact h.stay hinv hi ⟨rfl, rfl, rfl, rfl, rfl, rfl, rfl⟩ (hkeep _ rfl rfl)

/-- A push takes effect when its node is linked. -/
theorem Explains.link {node tail : Nat} {value : V} (hvalue : s.data node = some value)
    (hinvoke : .invoke call (.push value) ∈ s.history) (hnew : ∀ e ∈ order, e.call ≠ call) :
    Explains past ({ s with
      next := Function.update s.next tail (some node)
      links := s.links ++ [(call, node)] }.goto i call (.pushSwing node tail))
      (order ++ [⟨call, .push value, .pushed⟩]) := by
  let m := { s with
    next := Function.update s.next tail (some node)
    links := s.links ++ [(call, node)] }
  have hvalues : m.values = s.values ++ [value] := by
    have hplace : s.removed + 1 ≤ s.chain.length :=
      (List.getElem?_eq_some_iff.mp hinv.head_at).1
    have hchain : m.chain = s.chain ++ [node] := by simp [m, State.chain]
    rw [State.values, hchain, show m.removed = s.removed from rfl,
      List.drop_append_of_le_length hplace, List.filterMap_append, State.values,
      List.filterMap_cons_some hvalue]
    rfl
  apply h.goto hinv hi (m := m) rfl rfl rfl rfl
  · exact fun k n _ _ hn => hn
  · rw [hvalues]
    exact h.lin.linearize hinvoke (h.pending i call pc hi).2.1 hnew rfl
  · have hlinked : m.linked = s.linked ++ [(call, value)] := by
      simp [m, State.linked, hvalue]
    rw [hlinked, ← h.pushed]
    simp [pushes]
  · intro e he
    have hne : e ≠ ⟨call, .push value, .pushed⟩ := fun heq => he (heq ▸ rfl)
    simp [hne]
  · exact fun c hc => Or.inl ((List.mem_append.mp hc).resolve_right (by simp))
  · exact ⟨value, List.mem_append_right _ List.mem_cons_self⟩

/-- A pop that finds a value takes effect when it exchanges the head. -/
theorem Explains.swingHead {next : Nat} {value : V}
    (hnext : s.chain[s.removed + 1]? = some next) (hvalue : s.data next = some value)
    (hinvoke : .invoke call .pop ∈ s.history) (hnew : ∀ e ∈ order, e.call ≠ call) (head : Nat) :
    Explains past ({ s with head := next, pops := s.pops ++ [call] }.goto i call
      (.popCount head (some value))) (order ++ [⟨call, .pop, .popped (some value)⟩]) := by
  let m := { s with head := next, pops := s.pops ++ [call] }
  have hremoved : m.removed = s.removed + 1 := by simp [m, State.removed]
  have hvalues : s.values = value :: m.values := by
    rw [values_cons hnext hvalue, State.values, hremoved]
    rfl
  apply h.goto hinv hi (m := m) rfl rfl rfl rfl
  · rintro k n hk hat rfl
    have hplace : k = s.removed + 1 := hinv.at_inj hat hnext
    omega
  · exact h.lin.linearize hinvoke (h.pending i call pc hi).2.1 hnew (by rw [hvalues]; rfl)
  · rw [show m.linked = s.linked from rfl, ← h.pushed]
    simp [pushes]
  · intro e he
    have hne : e ≠ ⟨call, .pop, .popped (some value)⟩ := fun heq => he (heq ▸ rfl)
    simp [hne]
  · exact fun c hc => Or.inl ((List.mem_append.mp hc).resolve_right (by simp))
  · exact List.mem_append_right _ List.mem_cons_self

/-- A pop that loads no successor of the head takes effect at this load. -/
theorem Explains.loadNext (hpast : s ∈ past) {head tail : Nat}
    (hinvoke : .invoke call .pop ∈ s.history) (hnew : ∀ e ∈ order, e.call ≠ call) :
    ∃ order', Explains past (s.goto i call (.popCheckHead head tail (s.next head))) order' := by
  by_cases hempty : s.next head = none ∧ head = tail ∧ s.head = head
  · obtain ⟨hnext, rfl, rfl⟩ := hempty
    have hpending := (h.pending i call pc hi).2.1
    have hvalues := hinv.values_of_next_none hnext
    refine ⟨order ++ [⟨call, .pop, .popped none⟩], ?_⟩
    apply h.goto hinv hi rfl rfl rfl rfl
    · exact fun k n _ _ hn => hn
    · exact h.lin.linearize hinvoke hpending hnew (by rw [hvalues]; rfl)
    · rw [← h.pushed]
      simp [pushes]
    · intro e he
      have hne : e ≠ ⟨call, .pop, .popped none⟩ := fun heq => he (heq ▸ rfl)
      simp [hne]
    · intro c hc
      refine (List.mem_append.mp hc).imp_right fun hc => ?_
      cases List.mem_singleton.mp hc
      exact ⟨s, hpast, ⟨⟨.pop, hinvoke⟩, hpending⟩, hinv.contents_eq.trans hvalues⟩
    · refine ⟨hinvoke, fun e he hc => ?_, fun _ _ _ => List.mem_append_right _ List.mem_cons_self⟩
      rcases List.mem_append.mp he with he | he
      · exact absurd hc (hnew e he)
      · rw [List.mem_singleton.mp he]
        exact ⟨rfl, rfl, hnext, rfl⟩
  · refine ⟨order, h.stay hinv hi ⟨rfl, rfl, rfl, rfl, rfl, rfl, rfl⟩ ⟨hinvoke, ?_, ?_⟩⟩
    · exact fun e he hc => absurd hc (hnew e he)
    · exact fun hnext ht hh => absurd ⟨hnext, ht, hh⟩ hempty

/-- A pop whose check of the head failed has had no effect. -/
theorem Explains.retry {head tail : Nat} {next : Option Nat}
    (heffect : Effect s order call (.popCheckHead head tail next)) :
    Explains past (s.goto i call .popLoadHead) (order.filter fun e => e.call ≠ call) := by
  obtain ⟨hinvoke, hread, -⟩ := heffect
  apply h.goto hinv hi rfl rfl rfl rfl
  · exact fun k n _ _ hn => hn
  · refine h.lin.withdraw call (h.pending i call pc hi).2.1 fun e he hc q hq => ?_
    obtain ⟨hop, hres, -⟩ := hread e he hc
    rw [hop, hres] at hq
    rw [hop]
    cases q with
    | nil => rfl
    | cons value q => cases hq
  · rw [← h.pushed, pushes, pushes, List.filterMap_filter]
    apply List.filterMap_congr
    intro e he
    by_cases hc : e.call = call
    · rw [(hread e he hc).1]
      simp
    · simp [hc]
  · exact fun e he => by simp [he]
  · exact fun c hc => Or.inl (List.mem_of_mem_filter hc)
  · exact ⟨hinvoke, fun e he => by simpa using List.of_mem_filter he⟩

/-- Every step of a thread keeps an order that explains the history. -/
theorem Explains.pcNext (hpast : s ∈ past) (spurious : Bool) :
    ∃ order', Explains past (s.pcNext i call spurious pc) order' := by
  obtain ⟨-, -, heffect⟩ := h.pending i call pc hi
  have hlocals := (hinv.locals i call pc hi).1
  have hsame : Untouched s s := ⟨rfl, rfl, rfl, rfl, rfl, rfl, rfl⟩
  cases pc with
  | pushLoadTail node => exact ⟨order, h.stay hinv hi hsame heffect⟩
  | pushLoadNext node tail => exact ⟨order, h.stay hinv hi hsame heffect⟩
  | pushCheckTail node tail next =>
    simp only [State.pcNext]
    split
    · cases next with
      | none => exact ⟨order, h.stay hinv hi hsame heffect⟩
      | some next => exact ⟨order, h.stay hinv hi hsame heffect⟩
    · exact ⟨order, h.stay hinv hi hsame heffect⟩
  | pushLink node tail =>
    simp only [State.pcNext]
    split
    · obtain ⟨⟨value, hvalue, hinvoke⟩, hnew⟩ := heffect
      exact ⟨_, h.link hinv hi hvalue hinvoke hnew⟩
    · exact ⟨order, h.stay hinv hi hsame heffect⟩
  | pushSwing node tail => exact ⟨order, h.helpTail hinv hi tail node spurious heffect
      fun _ _ _ he => by cases he⟩
  | pushHelp node tail next => exact ⟨order, h.helpTail hinv hi tail next spurious heffect
      fun _ _ _ he => by cases he⟩
  | pushCount =>
    obtain ⟨value, hmem⟩ := heffect
    exact ⟨order, h.finish hinv hi (m := { s with size := s.size + 1 })
      ⟨rfl, rfl, rfl, rfl, rfl, rfl, rfl⟩ hmem⟩
  | popLoadHead => exact ⟨order, h.stay hinv hi hsame heffect⟩
  | popLoadTail head => exact ⟨order, h.stay hinv hi hsame heffect⟩
  | popLoadNext head tail => exact h.loadNext hinv hi hpast heffect.1 heffect.2
  | popCheckHead head tail next =>
    simp only [State.pcNext]
    have hnew : next ≠ none ∨ head ≠ tail → ∀ e ∈ order, e.call ≠ call := by
      rintro hor e he hc
      obtain ⟨-, -, hnext, ht⟩ := heffect.2.1 e he hc
      exact hor.elim (fun hne => hne hnext) fun hne => hne ht
    split
    · split
      · cases next with
        | none =>
          rename_i hhead ht
          exact ⟨order, h.finish hinv hi hsame (heffect.2.2 rfl ht hhead.symm)⟩
        | some next =>
          exact ⟨order, h.stay hinv hi hsame
            ⟨heffect.1, hnew (Or.inl (Option.some_ne_none next))⟩⟩
      · rename_i ht
        cases next with
        | none => exact ⟨order, h.stay hinv hi hsame ⟨heffect.1, hnew (Or.inr ht)⟩⟩
        | some next => exact ⟨order, h.stay hinv hi hsame ⟨heffect.1, hnew (Or.inr ht)⟩⟩
    · exact ⟨_, h.retry hinv hi heffect⟩
  | popHelp tail next => exact ⟨order, h.helpTail hinv hi tail next spurious heffect
      fun _ _ _ he => by cases he⟩
  | popReadData head next => exact ⟨order, h.stay hinv hi hsame heffect⟩
  | popSwing head next data =>
    simp only [State.pcNext]
    split
    · rename_i hcas
      obtain ⟨⟨k, -, hat, hsucc⟩, hdata⟩ := hlocals
      obtain ⟨rfl, -⟩ := hcas
      have hplace : k = s.removed := hinv.at_inj hat hinv.head_at
      subst hplace
      obtain ⟨value, hvalue⟩ := Option.isSome_iff_exists.mp (hinv.valued _ _ hsucc)
      rw [← hdata, hvalue]
      exact ⟨_, h.swingHead hinv hi hsucc hvalue heffect.1 heffect.2 s.head⟩
    · exact ⟨order, h.stay hinv hi hsame heffect⟩
  | popCount head data =>
    exact ⟨order, h.stay hinv hi ⟨rfl, rfl, rfl, rfl, rfl, rfl, rfl⟩ heffect⟩
  | retireLoad head data => exact ⟨order, h.stay hinv hi hsame heffect⟩
  | retireLink head oldHead data =>
    simp only [State.pcNext]
    split
    · exact ⟨order, h.stay hinv hi ⟨rfl, rfl, rfl, rfl, rfl, rfl, rfl⟩ heffect⟩
    · exact ⟨order, h.stay hinv hi hsame heffect⟩
  | retireCount data =>
    exact ⟨order, h.stay hinv hi ⟨rfl, rfl, rfl, rfl, rfl, rfl, rfl⟩ heffect⟩
  | reclaimTest data =>
    simp only [State.pcNext]
    split
    · exact ⟨order, h.finishPop hinv hi hsame hlocals heffect⟩
    · exact ⟨order, h.stay hinv hi hsame heffect⟩
  | reclaimTake data =>
    simp only [State.pcNext]
    split
    · exact ⟨order, h.finishPop hinv hi hsame hlocals heffect⟩
    · exact ⟨order, h.stay hinv hi ⟨rfl, rfl, rfl, rfl, rfl, rfl, rfl⟩ heffect⟩
  | reclaimReset retired data =>
    exact ⟨order, h.reclaimLoop hinv hi (m := { s with retiredCount := 0 })
      ⟨rfl, rfl, rfl, rfl, rfl, rfl, rfl⟩ retired hlocals.2 heffect⟩
  | reclaimDelete node rest data =>
    exact ⟨order, h.reclaimLoop hinv hi
      (m := { s with deleted := Function.update s.deleted node true })
      ⟨rfl, rfl, rfl, rfl, rfl, rfl, rfl⟩ rest hlocals.2 heffect⟩

omit hi

/-- A call begins. -/
theorem Explains.begin (hcalls : m.calls = s.calls) (hthreads : m.threads = s.threads)
    (hhistory : m.history = s.history) (hhead : m.head = s.head)
    (hdata : ∀ n < s.allocated, m.data n = s.data n) (hlinks : m.links = s.links)
    (hpops : m.pops = s.pops) (op : Op V)
    (heffect : Effect (m.begin i op pc) order s.calls pc) :
    Explains past (m.begin i op pc) order := by
  have hhistory' : (m.begin i op pc).history = s.history ++ [.invoke s.calls op] := by
    rw [State.begin, hhistory, hcalls]
  have hchain : (m.begin i op pc).chain = s.chain := by
    rw [State.chain, State.chain, State.begin, hlinks]
  have hvalues : (m.begin i op pc).values = s.values := by
    rw [State.values, State.values, hchain, State.removed, State.removed, State.begin, hpops]
    apply List.filterMap_congr
    exact fun n hn => hdata n (hinv.allocated n (List.mem_of_mem_drop hn))
  apply h.update hinv (i := i) (x := some (s.calls, pc))
  · rw [State.begin, hthreads, hcalls]
  · rw [hhistory', hvalues]
    exact h.lin.invoke (fun op hop => lt_irrefl _ (h.numbered _ op hop)) op
  · rw [h.pushed, State.linked, State.linked, State.begin, hlinks]
    apply List.filterMap_congr
    rintro ⟨c, node⟩ hlink
    have hmem : node ∈ s.chain := List.mem_cons_of_mem 0 (List.mem_map.mpr ⟨_, hlink, rfl⟩)
    rw [hdata node (hinv.allocated node hmem)]
  · rw [hhistory']
    intro c op hc
    rw [State.begin, hcalls]
    rcases List.mem_append.mp hc with hc | hc
    · exact Nat.lt_succ_of_lt (h.numbered c op hc)
    · cases List.mem_singleton.mp hc
      exact Nat.lt_succ_self _
  · rw [State.begin, hcalls]
    exact Nat.le_succ _
  · rw [hhistory']
    exact List.subset_append_left _ _
  · rw [hhistory']
    intro c res hc
    rcases List.mem_append.mp hc with hc | hc
    · exact Or.inl hc
    · cases List.mem_singleton.mp hc
  · exact hdata
  · exact fun k n _ _ hn => hhead.symm.trans hn
  · exact fun e _ _ => Iff.rfl
  · exact fun _ => Or.inl
  · rintro _ _ ⟨⟩
    refine ⟨?_, fun res hres => ?_, heffect, fun j pc' _ hj => ?_⟩
    · rw [State.begin, hcalls]
      exact Nat.lt_succ_self _
    · rw [hhistory'] at hres
      rcases List.mem_append.mp hres with hres | hres
      · obtain ⟨op, hop⟩ := h.lin.returned _ _ hres
        exact lt_irrefl _ (h.numbered _ _ (h.lin.began _ hop).1)
      · cases List.mem_singleton.mp hres
    · exact lt_irrefl _ (h.pending j s.calls pc' hj).1

/-- Every step keeps an order that explains the history. -/
theorem Explains.step (hpast : s ∈ past) (e : Event ι V) (henabled : s.Enabled e) :
    ∃ order', Explains past (s.step e) order' := by
  have hnew : ∀ e ∈ order, e.call ≠ s.calls :=
    fun e he => (h.numbered _ _ (h.lin.began e he).1).ne
  cases e with
  | push i value =>
    let m := { s with
      next := Function.update s.next s.allocated none
      data := Function.update s.data s.allocated (some value)
      allocated := s.allocated + 1 }
    have heffect : Effect (m.begin i (.push value) (.pushLoadTail s.allocated)) order s.calls
        (.pushLoadTail s.allocated) :=
      ⟨⟨value, Function.update_self .., List.mem_append_right _ List.mem_cons_self⟩, hnew⟩
    refine ⟨order, h.begin hinv (m := m) rfl rfl rfl rfl ?_ rfl rfl _ heffect⟩
    exact fun n hn => Function.update_of_ne hn.ne ..
  | pop i =>
    have heffect : Effect (s.begin i .pop .popLoadHead) order s.calls .popLoadHead :=
      ⟨List.mem_append_right _ List.mem_cons_self, hnew⟩
    exact ⟨order, h.begin hinv rfl rfl rfl rfl (fun _ _ => rfl) rfl rfl _ heffect⟩
  | step i spurious =>
    simp only [State.step]
    cases hi : s.threads i with
    | none => exact absurd hi henabled
    | some x => exact h.pcNext hinv hi hpast spurious

end Rules

section Run

variable [DecidableEq ι] {past : List (State ι V)} {s u : State ι V}

omit [DecidableEq ι] in
theorem explains_construct : Explains [construct ι V] (construct ι V) [] where
  lin := linearizes_nil fifo []
  pushed := rfl
  numbered := nofun
  pending := nofun
  distinct := nofun
  foundEmpty := nofun

omit [DecidableEq ι] in
theorem Explains.append {order : List (Entry (Op V) (Res V))} (h : Explains past s order)
    (states : List (State ι V)) : Explains (past ++ states) s order where
  lin := h.lin
  pushed := h.pushed
  numbered := h.numbered
  pending := h.pending
  distinct := h.distinct
  foundEmpty call hmem := by
    obtain ⟨u, hu, hempty⟩ := h.foundEmpty call hmem
    exact ⟨u, List.mem_append_left states hu, hempty⟩

/-- The invariant of the queue after the states passed, the last of which is the
present one. -/
structure Inv (past : List (State ι V)) (s : State ι V) : Prop where
  present : s ∈ past
  chain : ∃ t, InvAt s t
  explained : ∃ order, Explains past s order

theorem Inv.step (h : Inv past s) {e : Event ι V} (hstep : State.Step s e u) :
    Inv (past ++ [u]) u := by
  obtain ⟨hpast, ⟨t, hinv⟩, order, horder⟩ := h
  obtain ⟨henabled, rfl⟩ := hstep
  obtain ⟨order', horder'⟩ := horder.step hinv hpast e henabled
  exact ⟨List.mem_append_right _ List.mem_cons_self, hinv.step e, order', horder'.append _⟩

omit [DecidableEq ι] in
theorem inv_construct : Inv [construct ι V] (construct ι V) :=
  ⟨List.mem_cons_self, ⟨0, invAt_construct⟩, [], explains_construct⟩

/-- Some order of the calls explains the history. The pushes stand in it in the
order of their link exchanges, and the popped values are the first of the pushed
ones. -/
def State.Fifo (s : State ι V) : Prop :=
  ∃ order, Linearizes fifo [] s.history order s.contents ∧ pushes order = s.linked ∧
    poppedValues order <+: (pushes order).map Prod.snd

omit [DecidableEq ι] in
theorem Inv.fifo (h : Inv past s) : s.Fifo := by
  obtain ⟨-, ⟨t, hinv⟩, order, horder⟩ := h
  refine ⟨order, hinv.contents_eq ▸ horder.lin, horder.pushed, s.values, ?_⟩
  rw [← Legal.pushes_eq horder.lin.legal, List.nil_append]

omit [DecidableEq ι] in
theorem Inv.foundEmpty (h : Inv past s) {call : Nat}
    (hres : .respond call (.popped none) ∈ s.history) : FoundEmpty past call := by
  obtain ⟨-, -, order, horder⟩ := h
  obtain ⟨op, hop⟩ := horder.lin.returned call _ hres
  cases op with
  | push value =>
    obtain ⟨q, hq⟩ := horder.lin.legal.result hop
    cases hq
  | pop => exact horder.foundEmpty call hop

/-- Every run of any number of threads is explained by an order of its calls, and
a pop that found nothing saw the queue empty while it was in progress. -/
theorem linearizable {tr : List (Event ι V × State ι V)}
    (h : IsRun State.Step (construct ι V) tr) :
    (lastState (construct ι V) tr).Fifo ∧
      ∀ call, .respond call (.popped none) ∈ (lastState (construct ι V) tr).history →
        FoundEmpty (construct ι V :: tr.map Prod.snd) call := by
  have hinv := h.passed Inv (fun _ _ _ _ hs hstep => hs.step hstep) [construct ι V] inv_construct
  exact ⟨hinv.fifo, fun call => hinv.foundEmpty⟩

/-- One thread pushes while another pops; the push is linked before the pop loads
the head's successor. -/
def pushAndPop : List (Event Bool Nat) :=
  [.push false 7, .pop true] ++ List.replicate 6 (.step false false) ++
    List.replicate 11 (.step true false)

theorem linearizable_pushAndPop :
    (lastState (construct Bool Nat)
      (runOf State.step (construct Bool Nat) pushAndPop)).Fifo ∧
      ∀ call, .respond call (.popped none) ∈ (lastState (construct Bool Nat)
          (runOf State.step (construct Bool Nat) pushAndPop)).history →
        FoundEmpty (construct Bool Nat ::
          (runOf State.step (construct Bool Nat) pushAndPop).map Prod.snd) call :=
  linearizable (isRun_runOf_of_enabled (by decide +kernel))

end Run

end OrderbookEngine.LockFreeQueue
