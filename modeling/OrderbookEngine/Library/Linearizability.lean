import Mathlib.Tactic

/-!
# Linearizability

A history lists the calls of a shared object as they begin and return. It is
linearizable when its calls can be ordered so that the object, used one call
after another in that order, gives every call its result, and a call that
returned before another began comes first. A proof keeps such an order while
the history grows: a call enters the order when it takes effect, and a call
that only read may leave it again as long as it has not returned.
-/

namespace OrderbookEngine.Linearizability

variable {σ Op Res : Type*}

/-- A numbered call begins, or returns. -/
inductive HistoryEvent (Op Res : Type*) where
  | invoke (call : Nat) (op : Op)
  | respond (call : Nat) (res : Res)

/-- The call that an event begins. -/
def HistoryEvent.begun : HistoryEvent Op Res → Option Nat
  | .invoke call _ => some call
  | .respond _ _ => none

/-- The call that an event ends. -/
def HistoryEvent.ended : HistoryEvent Op Res → Option Nat
  | .invoke _ _ => none
  | .respond call _ => some call

/-- A call in a sequential order, with its result. -/
structure Entry (Op Res : Type*) where
  call : Nat
  op : Op
  res : Res

/-- The object, used by the calls one after another, gives each its result. -/
def Legal (apply : σ → Op → σ × Res) : σ → List (Entry Op Res) → σ → Prop
  | s, [], t => s = t
  | s, e :: order, t => (apply s e.op).2 = e.res ∧ Legal apply (apply s e.op).1 order t

/-- A call returned before another began. -/
def Precedes (history : List (HistoryEvent Op Res)) (call call' : Nat) : Prop :=
  ∃ before after, history = before ++ after ∧ (∃ res, .respond call res ∈ before) ∧
    ∃ op, .invoke call' op ∈ after

/-- The order explains the history, in which every number begins and returns at
most once, and leaves the object in the state `s`. -/
structure Linearizes (apply : σ → Op → σ × Res) (start : σ) (history : List (HistoryEvent Op Res))
    (order : List (Entry Op Res)) (s : σ) : Prop where
  beginOnce : (history.filterMap HistoryEvent.begun).Nodup
  returnOnce : (history.filterMap HistoryEvent.ended).Nodup
  nodup : (order.map Entry.call).Nodup
  legal : Legal apply start order s
  /-- Every call that returned has its result in the order. -/
  returned : ∀ call res, .respond call res ∈ history → ∃ op, ⟨call, op, res⟩ ∈ order
  /-- Every call of the order began, and returned nothing else. -/
  began : ∀ e ∈ order, .invoke e.call e.op ∈ history ∧
    ∀ res, .respond e.call res ∈ history → res = e.res
  /-- The order keeps the precedence in time. -/
  realTime : ∀ e ∈ order, ∀ e' ∈ order, Precedes history e.call e'.call → [e, e'].Sublist order

variable {apply : σ → Op → σ × Res} {start s t : σ} {history : List (HistoryEvent Op Res)}
  {order : List (Entry Op Res)} {call call' : Nat} {op : Op} {res : Res}

section Legal

theorem Legal.append_singleton (h : Legal apply start order s) (e : Entry Op Res)
    (ht : apply s e.op = (t, e.res)) : Legal apply start (order ++ [e]) t := by
  induction order generalizing start with
  | nil =>
    rw [show start = s from h]
    exact ⟨congrArg Prod.snd ht, congrArg Prod.fst ht⟩
  | cons e' order ih => exact ⟨h.1, ih h.2⟩

/-- Every call of the order gets its result from some state of the object. -/
theorem Legal.result (h : Legal apply start order s) {e : Entry Op Res} (he : e ∈ order) :
    ∃ s, (apply s e.op).2 = e.res := by
  induction order generalizing start with
  | nil => cases he
  | cons e' order ih =>
    rcases List.mem_cons.mp he with rfl | he
    · exact ⟨start, h.1⟩
    · exact ih h.2 he

/-- Calls that only read may be left out. -/
theorem Legal.filter (h : Legal apply start order s) (keep : Entry Op Res → Bool)
    (hread : ∀ e ∈ order, keep e = false →
      ∀ s, (apply s e.op).2 = e.res → (apply s e.op).1 = s) :
    Legal apply start (order.filter keep) s := by
  induction order generalizing start with
  | nil => exact h
  | cons e order ih =>
    have hrest := ih h.2 fun e' he' => hread e' (List.mem_cons_of_mem e he')
    cases hk : keep e with
    | true =>
      rw [List.filter_cons_of_pos hk]
      exact ⟨h.1, hrest⟩
    | false =>
      rw [List.filter_cons_of_neg (by simp [hk])]
      rwa [hread e List.mem_cons_self hk start h.1] at hrest

/-- An object that answers alike is used alike. -/
theorem Legal.simulate {τ : Type*} {apply' : τ → Op → τ × Res} {R : σ → τ → Prop} {start' : τ}
    (h : Legal apply start order s) (hstart : R start start')
    (hstep : ∀ s s' op, R s s' → R (apply s op).1 (apply' s' op).1 ∧
      (apply s op).2 = (apply' s' op).2) : ∃ s', Legal apply' start' order s' ∧ R s s' := by
  induction order generalizing start start' with
  | nil => exact ⟨start', rfl, h ▸ hstart⟩
  | cons e order ih =>
    obtain ⟨hnext, hres⟩ := hstep start start' e.op hstart
    obtain ⟨s', hs', hR⟩ := ih h.2 hnext
    exact ⟨s', ⟨hres ▸ h.1, hs'⟩, hR⟩

end Legal

/-- A new event adds precedence only when it begins the later call. -/
theorem Precedes.of_append_singleton {event : HistoryEvent Op Res}
    (h : Precedes (history ++ [event]) call call') :
    Precedes history call call' ∨ ∃ op, event = .invoke call' op := by
  obtain ⟨before, after, heq, hres, op, hop⟩ := h
  rcases List.eq_nil_or_concat' after with rfl | ⟨after', last, rfl⟩
  · cases hop
  · rw [← List.append_assoc] at heq
    obtain ⟨hhistory, hlast⟩ := List.append_inj' heq rfl
    rcases List.mem_append.mp hop with hop | hop
    · exact Or.inl ⟨before, after', hhistory, hres, op, hop⟩
    · right
      rw [List.mem_singleton] at hop
      exact ⟨op, by rw [hop]; exact List.singleton_inj.mp hlast⟩

/-- A call that precedes another has returned. -/
theorem Precedes.returned (h : Precedes history call call') :
    ∃ res, .respond call res ∈ history := by
  obtain ⟨before, after, rfl, ⟨res, hres⟩, -⟩ := h
  exact ⟨res, List.mem_append_left after hres⟩

theorem linearizes_nil (apply : σ → Op → σ × Res) (start : σ) :
    Linearizes apply start [] [] start where
  beginOnce := List.nodup_nil
  returnOnce := List.nodup_nil
  nodup := List.nodup_nil
  legal := rfl
  returned := by simp
  began := by simp
  realTime := by simp

namespace Linearizes

/-- A new call begins. -/
theorem invoke (h : Linearizes apply start history order s)
    (hfresh : ∀ op, .invoke call op ∉ history) (op : Op) :
    Linearizes apply start (history ++ [.invoke call op]) order s where
  beginOnce := by
    rw [List.filterMap_append]
    refine List.nodup_append.mpr ⟨h.beginOnce, List.nodup_singleton _, fun c hc c' hc' => ?_⟩
    obtain ⟨event, hevent, hbegun⟩ := List.mem_filterMap.mp hc
    rw [List.mem_singleton.mp hc']
    rintro rfl
    cases event with
    | invoke c op =>
      cases hbegun
      exact hfresh op hevent
    | respond c res => cases hbegun
  returnOnce := by
    rw [List.filterMap_append, List.filterMap_cons_none rfl, List.filterMap_nil, List.append_nil]
    exact h.returnOnce
  nodup := h.nodup
  legal := h.legal
  returned c res hres := by
    rcases List.mem_append.mp hres with hres | hres
    · exact h.returned c res hres
    · simp at hres
  began e he := by
    refine ⟨List.mem_append_left _ (h.began e he).1, fun res hres => ?_⟩
    rcases List.mem_append.mp hres with hres | hres
    · exact (h.began e he).2 res hres
    · simp at hres
  realTime e he e' he' hp := by
    rcases hp.of_append_singleton with hp | ⟨op', heq⟩
    · exact h.realTime e he e' he' hp
    · injection heq with hcall hop
      exact absurd (h.began e' he').1 (hcall ▸ hfresh e'.op)

/-- A call in progress takes effect. -/
theorem linearize (h : Linearizes apply start history order s)
    (hbegan : .invoke call op ∈ history) (hpending : ∀ res, .respond call res ∉ history)
    (hnew : ∀ e ∈ order, e.call ≠ call) (ht : apply s op = (t, res)) :
    Linearizes apply start history (order ++ [⟨call, op, res⟩]) t where
  beginOnce := h.beginOnce
  returnOnce := h.returnOnce
  nodup := by
    rw [List.map_append, List.nodup_append]
    refine ⟨h.nodup, List.nodup_singleton _, ?_⟩
    intro c hc c' hc'
    obtain ⟨e, he, rfl⟩ := List.mem_map.mp hc
    rw [List.mem_singleton.mp hc']
    exact hnew e he
  legal := h.legal.append_singleton _ ht
  returned c res hres := by
    obtain ⟨op, hop⟩ := h.returned c res hres
    exact ⟨op, List.mem_append_left _ hop⟩
  began e he := by
    rcases List.mem_append.mp he with he | he
    · exact h.began e he
    · rw [List.mem_singleton.mp he]
      exact ⟨hbegan, fun res hres => absurd hres (hpending res)⟩
  realTime e he e' he' hp := by
    rcases List.mem_append.mp he with he | he
    · rcases List.mem_append.mp he' with he' | he'
      · exact (h.realTime e he e' he' hp).trans (List.sublist_append_left _ _)
      · rw [List.mem_singleton.mp he']
        exact (List.singleton_sublist.mpr he).append (List.Sublist.refl _)
    · rw [List.mem_singleton.mp he] at hp
      obtain ⟨res, hres⟩ := hp.returned
      exact absurd hres (hpending res)

/-- A call in progress that only read leaves the order. -/
theorem withdraw (h : Linearizes apply start history order s) (call : Nat)
    (hpending : ∀ res, .respond call res ∉ history)
    (hread : ∀ e ∈ order, e.call = call →
      ∀ s, (apply s e.op).2 = e.res → (apply s e.op).1 = s) :
    Linearizes apply start history (order.filter fun e => e.call ≠ call) s where
  beginOnce := h.beginOnce
  returnOnce := h.returnOnce
  nodup := h.nodup.sublist (List.filter_sublist.map _)
  legal := h.legal.filter _ fun e he hk => hread e he (by simpa using hk)
  returned c res hres := by
    obtain ⟨op, hop⟩ := h.returned c res hres
    refine ⟨op, List.mem_filter.mpr ⟨hop, ?_⟩⟩
    have hne : c ≠ call := fun he => hpending res (he ▸ hres)
    simpa using hne
  began e he := h.began e (List.mem_of_mem_filter he)
  realTime e he e' he' hp := by
    have hsub := (h.realTime e (List.mem_of_mem_filter he) e' (List.mem_of_mem_filter he')
      hp).filter fun e => e.call ≠ call
    rwa [List.filter_cons_of_pos (List.of_mem_filter he),
      List.filter_cons_of_pos (List.of_mem_filter he'), List.filter_nil] at hsub

/-- A call of the order returns its result. -/
theorem respond (h : Linearizes apply start history order s)
    (hpending : ∀ res, .respond call res ∉ history) (hmem : ⟨call, op, res⟩ ∈ order) :
    Linearizes apply start (history ++ [.respond call res]) order s where
  beginOnce := by
    rw [List.filterMap_append, List.filterMap_cons_none rfl, List.filterMap_nil, List.append_nil]
    exact h.beginOnce
  returnOnce := by
    rw [List.filterMap_append]
    refine List.nodup_append.mpr ⟨h.returnOnce, List.nodup_singleton _, fun c hc c' hc' => ?_⟩
    obtain ⟨event, hevent, hended⟩ := List.mem_filterMap.mp hc
    rw [List.mem_singleton.mp hc']
    rintro rfl
    cases event with
    | invoke c op => cases hended
    | respond c res =>
      cases hended
      exact hpending res hevent
  nodup := h.nodup
  legal := h.legal
  returned c res' hres := by
    rcases List.mem_append.mp hres with hres | hres
    · exact h.returned c res' hres
    · cases List.mem_singleton.mp hres
      exact ⟨op, hmem⟩
  began e he := by
    refine ⟨List.mem_append_left _ (h.began e he).1, fun res' hres => ?_⟩
    rcases List.mem_append.mp hres with hres | hres
    · exact (h.began e he).2 res' hres
    · injection List.mem_singleton.mp hres with hcall hres
      rw [List.inj_on_of_nodup_map h.nodup he hmem hcall, hres]
  realTime e he e' he' hp := by
    rcases hp.of_append_singleton with hp | ⟨op', heq⟩
    · exact h.realTime e he e' he' hp
    · cases heq

/-- An order that explains a history for one object explains it for another that simulates it. -/
theorem simulate {τ : Type*} {apply' : τ → Op → τ × Res} {R : σ → τ → Prop} {start' : τ}
    (h : Linearizes apply start history order s) (hstart : R start start')
    (hstep : ∀ s s' op, R s s' → R (apply s op).1 (apply' s' op).1 ∧
      (apply s op).2 = (apply' s' op).2) :
    ∃ s', Linearizes apply' start' history order s' ∧ R s s' := by
  obtain ⟨s', hlegal, hs'⟩ := h.legal.simulate hstart hstep
  exact ⟨s', ⟨h.beginOnce, h.returnOnce, h.nodup, hlegal, h.returned, h.began, h.realTime⟩, hs'⟩

end Linearizes

end OrderbookEngine.Linearizability
