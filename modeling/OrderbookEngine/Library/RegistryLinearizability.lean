import OrderbookEngine.Library.Registry

/-!
# Registries are linearizable

A call takes effect when it looks up its key, or when it changes the registry. From the
lookup on, the words that its program is going to leave are known, as nobody else changes
them before it is done.
-/

namespace OrderbookEngine.Registry

open Linearizability Transition

variable {ι K C B Out : Type}

section Sequential

variable [DecidableEq K] [DecidableEq C] (objects : Interface K C B Out)

/-- The calls one after another, on the words of the registered objects. -/
def apply (s : K → Option (Memory C)) : Call K B → (K → Option (Memory C)) × Res Out
  | .change key .create =>
    if (s key).isSome then (s, .changed false)
    else (Function.update s key (some objects.initial), .changed true)
  | .change key .remove =>
    match s key with
    | none => (s, .changed false)
    | some _ => (Function.update s key none, .changed true)
  | .use key b =>
    match s key with
    | none => (s, .used none)
    | some m =>
      let out := (objects.prog key b).run m
      (Function.update s key (some out.2), .used (some out.1))

/-- Programs leave words as they find them, on which every program returns at once; and those said
to read only load. -/
structure Settles (Good : Memory C → Prop) : Prop where
  initial : Good objects.initial
  keeps : ∀ key b m, Good m → Good ((objects.prog key b).run m).2
  returns : ∀ key b m, Good m → objects.again key b ((objects.prog key b).run m).1 = none
  reads : ∀ key b, objects.reads b = true →
    (objects.prog key b).Every (fun _ op => op = .load) fun _ => True

end Sequential

/-- The use that the next step of a thread begins, and its object. -/
def State.begins (s : State ι K C B Out) (thread : ι) : Option (B × Nat) :=
  match s.threads thread with
  | some (_, .find key b) => (s.registry key).map (b, ·)
  | _ => none

/-- The use whose program a thread is running, and its object. -/
def State.runs (s : State ι K C B Out) (thread : ι) : Option (B × Nat) :=
  match s.threads thread with
  | some (_, .access _ b object _) => some (b, object)
  | _ => none

/-- A program begins on an object that no other program is on, unless both only read. -/
def NoOverlap (objects : Interface K C B Out) (s : State ι K C B Out) : Event ι K B → Prop
  | .call _ _ => True
  | .step i => ∀ j, ∀ x ∈ s.begins i, ∀ y ∈ s.runs j, x.2 = y.2 →
      objects.reads x.1 = true ∧ objects.reads y.1 = true

instance decidableNoOverlap [Fintype ι] (objects : Interface K C B Out)
    (s : State ι K C B Out) : ∀ e, Decidable (NoOverlap objects s e)
  | .call _ _ => inferInstanceAs (Decidable True)
  | .step i => inferInstanceAs (Decidable (∀ j, ∀ x ∈ s.begins i, ∀ y ∈ s.runs j, x.2 = y.2 →
      objects.reads x.1 = true ∧ objects.reads y.1 = true))

/-- What the registry shows when every call is done. -/
def State.view (s : State ι K C B Out) (committed : Nat → Memory C) : K → Option (Memory C) :=
  fun key => (s.registry key).map committed

/-- What a call in progress has done to the order, by its place. -/
def Effect [DecidableEq C] (objects : Interface K C B Out) (s : State ι K C B Out)
    (committed : Nat → Memory C) (order : List (Entry (Call K B) (Res Out))) (call : Nat) :
    Pc K C B Out → Prop
  | .lockShared key b | .find key b =>
    .invoke call (.use key b) ∈ s.history ∧ ∀ e ∈ order, e.call ≠ call
  | .access key b object p =>
    ∃ out, ⟨call, .use key b, .used (some out)⟩ ∈ order ∧
      p.run (s.heap object) = (out, committed object) ∧ objects.again key b out = none ∧
        (objects.reads b = true → p.Every (fun _ op => op = .load) fun _ => True)
  | .lockUnique key change | .findUnique key change =>
    .invoke call (.change key change) ∈ s.history ∧ ∀ e ∈ order, e.call ≠ call
  | .insert key => .invoke call (.change key .create) ∈ s.history ∧ ∀ e ∈ order, e.call ≠ call
  | .erase key _ => .invoke call (.change key .remove) ∈ s.history ∧ ∀ e ∈ order, e.call ≠ call
  | .unlockShared res | .unlockUnique res => ∃ op, ⟨call, op, res⟩ ∈ order

/-- The order explains the history, and the words of an object are those that it leaves, or will
be when the program on the object is done. -/
structure Explains [DecidableEq K] [DecidableEq C] (objects : Interface K C B Out)
    (Good : Memory C → Prop) (s : State ι K C B Out) (committed : Nat → Memory C)
    (order : List (Entry (Call K B) (Res Out))) : Prop where
  lin : Linearizes (apply objects) (fun _ => none) s.history order (s.view committed)
  good : ∀ key object, s.registry key = some object → Good (committed object)
  settled : ∀ key object, s.registry key = some object →
    (∀ i call key' b p, s.threads i = some (call, .access key' b object p) →
      objects.reads b = true) → s.heap object = committed object
  numbered : ∀ call op, .invoke call op ∈ s.history → call < s.calls
  pending : ∀ i call pc, s.threads i = some (call, pc) → call < s.calls ∧
    (∀ res, .respond call res ∉ s.history) ∧ Effect objects s committed order call pc
  distinct : ∀ i j call pc pc', s.threads i = some (call, pc) →
    s.threads j = some (call, pc') → i = j
  alone : ∀ i j call call' key key' b b' object p p',
    s.threads i = some (call, .access key b object p) →
      s.threads j = some (call', .access key' b' object p') → i ≠ j → objects.reads b = true

/-- The object that a thread is on. -/
def Pc.object : Pc K C B Out → Option Nat
  | .access _ _ object _ => some object
  | _ => none

/-- Nothing that the order depends on is changed. -/
structure SameObjects (s m : State ι K C B Out) : Prop where
  threads : m.threads = s.threads
  registry : m.registry = s.registry
  heap : m.heap = s.heap
  calls : m.calls = s.calls
  history : m.history = s.history

theorem SameObjects.refl (s : State ι K C B Out) : SameObjects s s := ⟨rfl, rfl, rfl, rfl, rfl⟩

theorem SameObjects.view {s m : State ι K C B Out} (h : SameObjects s m)
    (committed : Nat → Memory C) : m.view committed = s.view committed := by
  funext key
  rw [State.view, State.view, h.registry]

section Rules

variable [DecidableEq ι] [DecidableEq K] [DecidableEq C] {objects : Interface K C B Out}
  {Good : Memory C → Prop} {s u m : State ι K C B Out} {i : ι} {call : Nat}
  {pc pc' : Pc K C B Out} {committed committed' : Nat → Memory C}
  {order order' : List (Entry (Call K B) (Res Out))} {op : Call K B} {res : Res Out}

omit [DecidableEq ι] [DecidableEq K] in
/-- The steps of other calls keep what a call has done. -/
theorem Effect.keep (h : Effect objects s committed order call pc)
    (hhistory : s.history ⊆ u.history)
    (horder : ∀ e : Entry (Call K B) (Res Out), e.call = call → (e ∈ order' ↔ e ∈ order))
    (hobject : ∀ key b object p, pc = .access key b object p →
      u.heap object = s.heap object ∧ committed' object = committed object) :
    Effect objects u committed' order' call pc := by
  have hnone : (∀ e ∈ order, e.call ≠ call) → ∀ e ∈ order', e.call ≠ call :=
    fun hn e he hc => hn e ((horder e hc).mp he) hc
  cases pc with
  | access key b object p =>
    obtain ⟨out, hmem, hrun, hrest⟩ := h
    obtain ⟨hheap, hcommitted⟩ := hobject key b object p rfl
    exact ⟨out, (horder _ rfl).mpr hmem, by rw [hheap, hcommitted, hrun], hrest⟩
  | unlockShared | unlockUnique =>
    obtain ⟨op, hmem⟩ := h
    exact ⟨op, (horder _ rfl).mpr hmem⟩
  | lockShared | find | lockUnique | findUnique | insert | erase =>
    exact ⟨hhistory h.1, hnone h.2⟩

/-- What a step of one thread has to establish for the order. -/
theorem Explains.update (h : Explains objects Good s committed order)
    {x : Option (Nat × Pc K C B Out)} (hthreads : u.threads = Function.update s.threads i x)
    (hlin : Linearizes (apply objects) (fun _ => none) u.history order' (u.view committed'))
    (hgood : ∀ key object, u.registry key = some object → Good (committed' object))
    (hsettled : ∀ key object, u.registry key = some object →
      (∀ i call key' b p, u.threads i = some (call, .access key' b object p) →
        objects.reads b = true) → u.heap object = committed' object)
    (hnumbered : ∀ call op, .invoke call op ∈ u.history → call < u.calls)
    (hcalls : s.calls ≤ u.calls) (hhistory : s.history ⊆ u.history)
    (hrespond : ∀ call res, .respond call res ∈ u.history →
      .respond call res ∈ s.history ∨ ∃ pc, s.threads i = some (call, pc))
    (horder : ∀ e : Entry (Call K B) (Res Out), e.call < s.calls →
      (∀ pc, s.threads i ≠ some (e.call, pc)) → (e ∈ order' ↔ e ∈ order))
    (hobject : ∀ j call key b object p, j ≠ i →
      s.threads j = some (call, .access key b object p) →
        u.heap object = s.heap object ∧ committed' object = committed object)
    (hx : ∀ call pc, x = some (call, pc) → call < u.calls ∧
      (∀ res, .respond call res ∉ u.history) ∧ Effect objects u committed' order' call pc ∧
        ∀ j pc', j ≠ i → s.threads j ≠ some (call, pc'))
    (halone : ∀ call key b object p, x = some (call, .access key b object p) →
      ∀ j call' key' b' p', j ≠ i → s.threads j = some (call', .access key' b' object p') →
        objects.reads b = true ∧ objects.reads b' = true) :
    Explains objects Good u committed' order' where
  lin := hlin
  good := hgood
  settled := hsettled
  numbered := hnumbered
  pending j call pc hj := by
    rw [hthreads] at hj
    by_cases hji : j = i
    · rw [hji, Function.update_self] at hj
      obtain ⟨hlt, hres, heffect, -⟩ := hx call pc hj
      exact ⟨hlt, hres, heffect⟩
    · rw [Function.update_of_ne hji] at hj
      obtain ⟨hlt, hres, heffect⟩ := h.pending j call pc hj
      have hother : ∀ pc', s.threads i ≠ some (call, pc') :=
        fun pc' hi => hji (h.distinct j i call pc pc' hj hi)
      refine ⟨hlt.trans_le hcalls, fun res hr => ?_, heffect.keep hhistory ?_ ?_⟩
      · rcases hrespond call res hr with hr | ⟨pc', hi⟩
        · exact hres res hr
        · exact hother pc' hi
      · intro e he
        exact horder e (he ▸ hlt) (he ▸ hother)
      · rintro key b object p rfl
        exact hobject j call key b object p hji hj
  distinct j k call pc pc' hj hk := by
    rw [hthreads] at hj hk
    by_cases hji : j = i <;> by_cases hki : k = i
    · rw [hji, hki]
    · rw [hji, Function.update_self] at hj
      rw [Function.update_of_ne hki] at hk
      exact absurd hk ((hx call pc hj).2.2.2 k pc' hki)
    · rw [Function.update_of_ne hji] at hj
      rw [hki, Function.update_self] at hk
      exact absurd hj ((hx call pc' hk).2.2.2 j pc hji)
    · rw [Function.update_of_ne hji] at hj
      rw [Function.update_of_ne hki] at hk
      exact h.distinct j k call pc pc' hj hk
  alone j k call call' key key' b b' object p p' hj hk hjk := by
    rw [hthreads] at hj hk
    by_cases hji : j = i <;> by_cases hki : k = i
    · exact absurd (hji.trans hki.symm) hjk
    · rw [hji, Function.update_self] at hj
      rw [Function.update_of_ne hki] at hk
      exact (halone call key b object p hj k call' key' b' p' hki hk).1
    · rw [Function.update_of_ne hji] at hj
      rw [hki, Function.update_self] at hk
      exact (halone call' key' b' object p' hk j call key b p hji hj).2
    · rw [Function.update_of_ne hji] at hj
      rw [Function.update_of_ne hki] at hk
      exact h.alone j k call call' key key' b b' object p p' hj hk hjk

/-- What a step within a call has to establish. -/
theorem Explains.goto (h : Explains objects Good s committed order)
    (hi : s.threads i = some (call, pc)) (hthreads : m.threads = s.threads)
    (hhistory : m.history = s.history) (hcalls : m.calls = s.calls)
    (hlin : Linearizes (apply objects) (fun _ => none) s.history order' (m.view committed'))
    (hgood : ∀ key object, m.registry key = some object → Good (committed' object))
    (hsettled : ∀ key object, m.registry key = some object →
      (∀ j call key' b p, j ≠ i → s.threads j = some (call, .access key' b object p) →
        objects.reads b = true) →
      (∀ key' b p, pc' = .access key' b object p → objects.reads b = true) →
        m.heap object = committed' object)
    (horder : ∀ e : Entry (Call K B) (Res Out), e.call ≠ call → (e ∈ order' ↔ e ∈ order))
    (hobject : ∀ j call key b object p, j ≠ i →
      s.threads j = some (call, .access key b object p) →
        m.heap object = s.heap object ∧ committed' object = committed object)
    (heffect : Effect objects m committed' order' call pc')
    (halone : ∀ key b object p, pc' = .access key b object p →
      ∀ j call' key' b' p', j ≠ i → s.threads j = some (call', .access key' b' object p') →
        objects.reads b = true ∧ objects.reads b' = true) :
    Explains objects Good (m.goto i call pc') committed' order' := by
  obtain ⟨hlt, hres, -⟩ := h.pending i call pc hi
  have hhistory' : (m.goto i call pc').history = s.history := hhistory
  apply h.update (i := i) (x := some (call, pc'))
  · rw [State.threads_goto, hthreads]
  · rw [hhistory']
    exact hlin
  · exact hgood
  · intro key object hkey hreads
    refine hsettled key object hkey (fun j call' key' b p hj hj' => ?_) fun key' b p hpc => ?_
    · apply hreads j call' key' b p
      rw [State.threads_goto, Function.update_of_ne hj, hthreads, hj']
    · apply hreads i call key' b p
      rw [State.threads_goto, Function.update_self, hpc]
  · rw [hhistory']
    exact fun c op hc => (h.numbered c op hc).trans_eq hcalls.symm
  · exact hcalls.ge
  · rw [hhistory']
    exact List.Subset.refl _
  · rw [hhistory']
    exact fun c res hc => Or.inl hc
  · exact fun e _ hne => horder e fun he => hne pc (he ▸ hi)
  · exact hobject
  · rintro _ _ ⟨⟩
    refine ⟨hlt.trans_eq hcalls.symm, ?_, ?_, fun j pc'' hj hj' => ?_⟩
    · rw [hhistory']
      exact hres
    · exact heffect.keep (List.Subset.refl _) (fun _ _ => Iff.rfl) fun _ _ _ _ _ => ⟨rfl, rfl⟩
    · exact hj (h.distinct j i call pc'' pc hj' hi)
  · rintro _ key b object p ⟨⟩
    exact halone key b object p rfl

/-- A step that leaves the objects alone, of a thread that is on none. -/
theorem Explains.quiet (h : Explains objects Good s committed order)
    (hi : s.threads i = some (call, pc)) (hm : SameObjects s m) (hoff : pc.object = none)
    (hoff' : pc'.object = none)
    (hlin : Linearizes (apply objects) (fun _ => none) s.history order' (s.view committed))
    (horder : ∀ e : Entry (Call K B) (Res Out), e.call ≠ call → (e ∈ order' ↔ e ∈ order))
    (heffect : Effect objects s committed order' call pc') :
    Explains objects Good (m.goto i call pc') committed order' := by
  apply h.goto hi hm.threads hm.history hm.calls
  · rw [hm.view]
    exact hlin
  · rw [hm.registry]
    exact h.good
  · rw [hm.registry, hm.heap]
    intro key object hkey hreads _
    refine h.settled key object hkey fun j call' key' b p hj => ?_
    refine hreads j call' key' b p ?_ hj
    rintro rfl
    rw [hi] at hj
    cases hj
    cases hoff
  · exact horder
  · rw [hm.heap]
    exact fun _ _ _ _ _ _ _ _ => ⟨rfl, rfl⟩
  · exact heffect.keep (by rw [hm.history]; exact List.Subset.refl _) (fun _ _ => Iff.rfl)
      fun _ _ _ _ _ => ⟨by rw [hm.heap], rfl⟩
  · rintro key b object p rfl
    cases hoff'

omit [DecidableEq ι] [DecidableEq K] [DecidableEq C] in
/-- A call that takes effect comes last. -/
theorem mem_append_of_ne {e : Entry (Call K B) (Res Out)} (he : e.call ≠ call) :
    e ∈ order ++ [⟨call, op, res⟩] ↔ e ∈ order := by
  have hne : e ≠ ⟨call, op, res⟩ := fun heq => he (heq ▸ rfl)
  simp [hne]

/-- A return from a call that is in the order. -/
theorem Explains.finish (h : Explains objects Good s committed order)
    (hi : s.threads i = some (call, pc)) (hm : SameObjects s m) (hoff : pc.object = none)
    (hmem : ⟨call, op, res⟩ ∈ order) :
    Explains objects Good (m.finish i call res) committed order := by
  have hhistory' : (m.finish i call res).history = s.history ++ [.respond call res] := by
    rw [State.finish, hm.history]
  apply h.update (i := i) (x := none)
  · rw [State.threads_finish, hm.threads]
  · rw [hhistory']
    change Linearizes _ _ _ _ (m.view committed)
    rw [hm.view]
    exact h.lin.respond (h.pending i call pc hi).2.1 hmem
  · change ∀ key object, m.registry key = some object → _
    rw [hm.registry]
    exact h.good
  · change ∀ key object, m.registry key = some object → _ → m.heap object = _
    rw [hm.registry, hm.heap]
    intro key object hkey hreads
    refine h.settled key object hkey fun j call' key' b p hj => ?_
    apply hreads j call' key' b p
    have hji : j ≠ i := by
      rintro rfl
      rw [hi] at hj
      cases hj
      cases hoff
    rw [State.threads_finish, Function.update_of_ne hji, hm.threads, hj]
  · rw [hhistory']
    intro c op hc
    rcases List.mem_append.mp hc with hc | hc
    · exact (h.numbered c op hc).trans_eq hm.calls.symm
    · cases List.mem_singleton.mp hc
  · exact hm.calls.ge
  · rw [hhistory']
    exact List.subset_append_left _ _
  · rw [hhistory']
    intro c res' hc
    rcases List.mem_append.mp hc with hc | hc
    · exact Or.inl hc
    · cases List.mem_singleton.mp hc
      exact Or.inr ⟨pc, hi⟩
  · exact fun e _ _ => Iff.rfl
  · exact fun _ _ _ _ _ _ _ _ => ⟨congrFun hm.heap _, rfl⟩
  · rintro _ _ ⟨⟩
  · rintro _ _ _ _ _ ⟨⟩

/-- A program that only loads leaves the words as they are. -/
theorem run_of_reads {p : Prog C Out} (h : p.Every (fun _ op => op = .load) fun _ => True)
    (words : Memory C) : (p.run words).2 = words := by
  have hframe := Prog.Every.run_frame (T := fun _ => True) (h.mono (fun _ _ hop _ => hop)
    fun _ ht => ht) words
  funext c
  exact hframe c trivial

/-- A lookup that finds an object takes effect: its program is going to run alone, or with others
that read. -/
theorem Explains.find (h : Explains objects Good s committed order)
    (hobjects : Settles objects Good) (howned : Owned s) {key : K} {b : B}
    (hi : s.threads i = some (call, .find key b)) {object : Nat}
    (hkey : s.registry key = some object)
    (hover : NoOverlap objects s (.step i : Event ι K B)) :
    Explains objects Good (s.goto i call (.access key b object (objects.prog key b)))
      (Function.update committed object ((objects.prog key b).run (committed object)).2)
      (order ++ [⟨call, .use key b,
        .used (some ((objects.prog key b).run (committed object)).1)⟩]) := by
  obtain ⟨-, hres, hinvoke, hnew⟩ := h.pending i call _ hi
  have hgood := h.good key object hkey
  have hover : ∀ j call' key' b' p, s.threads j = some (call', .access key' b' object p) →
      objects.reads b = true ∧ objects.reads b' = true := by
    intro j call' key' b' p hj
    have hbegins : s.begins i = some (b, object) := by simp [State.begins, hi, hkey]
    have hruns : s.runs j = some (b', object) := by simp [State.runs, hj]
    exact hover j _ hbegins _ hruns rfl
  have hsettled : s.heap object = committed object :=
    h.settled key object hkey fun j call' key' b' p hj => (hover j call' key' b' p hj).2
  have hview : s.view (Function.update committed object ((objects.prog key b).run
      (committed object)).2) = Function.update (s.view committed) key
        (some ((objects.prog key b).run (committed object)).2) := by
    funext key'
    by_cases he : key' = key
    · rw [he, Function.update_self, State.view, hkey, Option.map_some, Function.update_self]
    · rw [Function.update_of_ne he, State.view, State.view]
      cases hkey' : s.registry key' with
      | none => rfl
      | some object' =>
        have hne : object' ≠ object := fun heq =>
          he (howned.injective key key' object hkey (heq ▸ hkey'))
        rw [Option.map_some, Option.map_some, Function.update_of_ne hne]
  apply h.goto hi rfl rfl rfl
  · rw [hview]
    refine h.lin.linearize hinvoke hres hnew ?_
    rw [apply, State.view, hkey]
    rfl
  · intro key' object' hkey'
    by_cases hne : object' = object
    · rw [hne, Function.update_self]
      exact hobjects.keeps key b _ hgood
    · rw [Function.update_of_ne hne]
      exact h.good key' object' hkey'
  · intro key' object' hkey' hreads hself
    by_cases hne : object' = object
    · subst hne
      have hb := hself key b _ rfl
      rw [Function.update_self, hsettled, run_of_reads (hobjects.reads key b hb)]
    · rw [Function.update_of_ne hne]
      refine h.settled key' object' hkey' fun j call' key'' b' p hj => ?_
      refine hreads j call' key'' b' p ?_ hj
      rintro rfl
      rw [hi] at hj
      cases hj
  · exact fun e he => mem_append_of_ne he
  · intro j call' key' b' object' p hj hj'
    refine ⟨rfl, ?_⟩
    by_cases hne : object' = object
    · subst hne
      have hb := (hover j call' key' b' p hj').1
      rw [Function.update_self, run_of_reads (hobjects.reads key b hb)]
    · exact Function.update_of_ne hne ..
  · refine ⟨_, List.mem_append_right _ List.mem_cons_self, ?_, hobjects.returns key b _ hgood,
      hobjects.reads key b⟩
    rw [hsettled, Function.update_self]
  · rintro key' b' object' p ⟨⟩ j call' key'' b'' p' _ hj'
    exact hover j call' key'' b'' p' hj'

/-- An access of a program, while no other program is on the object, or all read. -/
theorem Explains.access (h : Explains objects Good s committed order) {key : K} {b : B}
    {object : Nat} {c : C} {op : Op} {k : UInt64 → Prog C Out}
    (hi : s.threads i = some (call, .access key b object (.access c op k))) :
    Explains objects Good ({ s with
      heap := Function.update s.heap object (Prog.write (s.heap object) c op) }.goto i call
        (.access key b object (k (op.result (s.heap object c))))) committed order := by
  obtain ⟨-, -, out, hmem, hrun, hagain, hreads⟩ := h.pending i call _ hi
  let heap := Function.update s.heap object (Prog.write (s.heap object) c op)
  have hwritten : heap object = Prog.write (s.heap object) c op := Function.update_self ..
  have hloads : objects.reads b = true → heap object = s.heap object := by
    intro hb
    have hload : op = .load := (hreads hb).1
    rw [hwritten, hload, Prog.write_load]
  apply h.goto hi (m := { s with heap := heap }) rfl rfl rfl h.lin h.good
  · intro key' object' hkey' hothers hself
    by_cases hne : object' = object
    · subst hne
      have hb := hself key b _ rfl
      change heap object' = _
      rw [hloads hb, ← run_of_reads (hreads hb) (s.heap object'), hrun]
    · refine (Function.update_of_ne hne ..).trans ?_
      refine h.settled key' object' hkey' fun j call' key'' b' p hj => ?_
      refine hothers j call' key'' b' p ?_ hj
      rintro rfl
      rw [hi] at hj
      cases hj
      exact absurd rfl hne
  · exact fun _ _ => Iff.rfl
  · intro j call' key' b' object' p hj hj'
    refine ⟨?_, rfl⟩
    by_cases hne : object' = object
    · subst hne
      have hb := h.alone i j call call' key key' b b' object' _ p hi hj' (Ne.symm hj)
      exact hloads hb
    · exact Function.update_of_ne hne ..
  · refine ⟨out, hmem, ?_, hagain, fun hb => (hreads hb).2 _⟩
    change Prog.run _ (heap object) = _
    rw [hwritten, ← hrun, Prog.run_access]
  · rintro key' b' object' p ⟨⟩ j call' key'' b'' p' hj hj'
    exact ⟨h.alone i j call call' key key'' b b'' object _ p' hi hj' (Ne.symm hj),
      h.alone j i call' call key'' key b'' b object p' _ hj' hi hj⟩

/-- A program that has returned has left the words as expected. -/
theorem Explains.done (h : Explains objects Good s committed order) {key : K} {b : B}
    {object : Nat} {out : Out} (hi : s.threads i = some (call, .access key b object (.done out))) :
    objects.again key b out = none ∧ Explains objects Good
      (s.goto i call (.unlockShared (.used (some out)))) committed order := by
  obtain ⟨-, -, out', hmem, hrun, hagain, -⟩ := h.pending i call _ hi
  obtain ⟨rfl, hheap⟩ := Prod.mk.inj hrun
  refine ⟨hagain, ?_⟩
  apply h.goto hi rfl rfl rfl h.lin h.good
  · intro key' object' hkey' hothers _
    by_cases hne : object' = object
    · rw [hne, hheap]
    · refine h.settled key' object' hkey' fun j call' key'' b' p hj => ?_
      refine hothers j call' key'' b' p ?_ hj
      rintro rfl
      rw [hi] at hj
      cases hj
      exact absurd rfl hne
  · exact fun _ _ => Iff.rfl
  · exact fun _ _ _ _ _ _ _ _ => ⟨rfl, rfl⟩
  · exact ⟨_, hmem⟩
  · rintro _ _ _ _ ⟨⟩

/-- A call that changes the registry, while it holds the lock alone, takes effect. -/
theorem Explains.change (h : Explains objects Good s committed order)
    (hi : s.threads i = some (call, pc)) (hthreads : m.threads = s.threads)
    (hhistory : m.history = s.history) (hcalls : m.calls = s.calls)
    (hothers : ∀ j call' key b object p, s.threads j ≠ some (call', .access key b object p))
    (hinvoke : .invoke call op ∈ s.history) (hnew : ∀ e ∈ order, e.call ≠ call)
    (happly : apply objects (s.view committed) op = (m.view committed', res))
    (hgood : ∀ key object, m.registry key = some object → Good (committed' object))
    (hsettled : ∀ key object, m.registry key = some object → m.heap object = committed' object) :
    Explains objects Good (m.goto i call (.unlockUnique res)) committed'
      (order ++ [⟨call, op, res⟩]) := by
  apply h.goto hi hthreads hhistory hcalls
  · exact h.lin.linearize hinvoke (h.pending i call _ hi).2.1 hnew happly
  · exact hgood
  · exact fun key object hkey _ _ => hsettled key object hkey
  · exact fun e he => mem_append_of_ne he
  · exact fun j call' key b object p _ hj => absurd hj (hothers j call' key b object p)
  · exact ⟨op, List.mem_append_right _ List.mem_cons_self⟩
  · rintro _ _ _ _ ⟨⟩

/-- A key gets a new object. -/
theorem Explains.insert (h : Explains objects Good s committed order)
    (hobjects : Settles objects Good) (howned : Owned s) {key : K}
    (hi : s.threads i = some (call, .insert key)) :
    Explains objects Good ({ s with
      heap := Function.update s.heap s.constructed objects.initial
      constructed := s.constructed + 1
      registry := Function.update s.registry key (some s.constructed) }.goto i call
        (.unlockUnique (.changed true)))
      (Function.update committed s.constructed objects.initial)
      (order ++ [⟨call, .change key .create, .changed true⟩]) := by
  obtain ⟨-, -, hinvoke, hnew⟩ := h.pending i call _ hi
  have hnone : s.registry key = none := howned.locals i call _ hi
  have hothers : ∀ j call' key b object p, s.threads j ≠ some (call', .access key b object p) :=
    fun j call' key b object p hj => howned.shared_of_access hj (howned.unique hi rfl).1
  have hold : ∀ key' object, s.registry key' = some object → object ≠ s.constructed :=
    fun key' object hkey' => (howned.known key' object hkey').1.ne
  let u : State ι K C B Out := { s with
    heap := Function.update s.heap s.constructed objects.initial
    constructed := s.constructed + 1
    registry := Function.update s.registry key (some s.constructed) }
  have hview : u.view (Function.update committed s.constructed objects.initial) =
      Function.update (s.view committed) key (some objects.initial) := by
    funext key'
    change (Function.update s.registry key (some s.constructed) key').map _ = _
    by_cases he : key' = key
    · rw [he, Function.update_self, Option.map_some, Function.update_self, Function.update_self]
    · rw [Function.update_of_ne he, Function.update_of_ne he, State.view]
      cases hkey' : s.registry key' with
      | none => rfl
      | some object =>
        rw [Option.map_some, Option.map_some, Function.update_of_ne (hold key' object hkey')]
  have hcases : ∀ key' object, u.registry key' = some object →
      object = s.constructed ∨ s.registry key' = some object := by
    intro key' object hkey'
    change Function.update s.registry key (some s.constructed) key' = _ at hkey'
    by_cases he : key' = key
    · rw [he, Function.update_self] at hkey'
      exact Or.inl (Option.some.inj hkey').symm
    · rw [Function.update_of_ne he] at hkey'
      exact Or.inr hkey'
  apply h.change (m := u) hi rfl rfl rfl hothers hinvoke hnew
  · rw [hview, apply, State.view, hnone]
    rfl
  · intro key' object hkey'
    rcases hcases key' object hkey' with rfl | hkey'
    · rw [Function.update_self]
      exact hobjects.initial
    · rw [Function.update_of_ne (hold key' object hkey')]
      exact h.good key' object hkey'
  · intro key' object hkey'
    change Function.update s.heap s.constructed objects.initial object = _
    rcases hcases key' object hkey' with rfl | hkey'
    · rw [Function.update_self, Function.update_self]
    · rw [Function.update_of_ne (hold key' object hkey'),
        Function.update_of_ne (hold key' object hkey')]
      refine h.settled key' object hkey' fun j call' key'' b p hj => ?_
      exact absurd hj (hothers j call' key'' b object p)

/-- A key loses its object. -/
theorem Explains.erase (h : Explains objects Good s committed order) (howned : Owned s) {key : K}
    {object : Nat} (hi : s.threads i = some (call, .erase key object)) :
    Explains objects Good ({ s with
      destroyed := Function.update s.destroyed object true
      registry := Function.update s.registry key none }.goto i call
        (.unlockUnique (.changed true)))
      committed (order ++ [⟨call, .change key .remove, .changed true⟩]) := by
  obtain ⟨-, -, hinvoke, hnew⟩ := h.pending i call _ hi
  have hkey : s.registry key = some object := howned.locals i call _ hi
  have hothers : ∀ j call' key b object p, s.threads j ≠ some (call', .access key b object p) :=
    fun j call' key b object p hj => howned.shared_of_access hj (howned.unique hi rfl).1
  let u : State ι K C B Out := { s with
    destroyed := Function.update s.destroyed object true
    registry := Function.update s.registry key none }
  have hview : u.view committed = Function.update (s.view committed) key none := by
    funext key'
    change (Function.update s.registry key none key').map _ = _
    by_cases he : key' = key
    · rw [he, Function.update_self, Function.update_self, Option.map_none]
    · rw [Function.update_of_ne he, Function.update_of_ne he, State.view]
  have hcases : ∀ key' object', u.registry key' = some object' →
      s.registry key' = some object' := by
    intro key' object' hkey'
    change Function.update s.registry key none key' = _ at hkey'
    by_cases he : key' = key
    · rw [he, Function.update_self] at hkey'
      cases hkey'
    · rwa [Function.update_of_ne he] at hkey'
  apply h.change (m := u) hi rfl rfl rfl hothers hinvoke hnew
  · rw [hview, apply, State.view, hkey]
    rfl
  · exact fun key' object' hkey' => h.good key' object' (hcases key' object' hkey')
  · intro key' object' hkey'
    refine h.settled key' object' (hcases key' object' hkey') fun j call' key'' b p hj => ?_
    exact absurd hj (hothers j call' key'' b object' p)

/-- Every step of a call keeps an order that explains the history. -/
theorem Explains.pcNext (h : Explains objects Good s committed order)
    (hobjects : Settles objects Good) (howned : Owned s) (hi : s.threads i = some (call, pc))
    (hover : NoOverlap objects s (.step i : Event ι K B)) :
    ∃ committed' order', Explains objects Good (s.pcNext objects i call pc) committed' order' := by
  obtain ⟨-, hres, heffect⟩ := h.pending i call pc hi
  cases pc with
  | lockShared key b =>
    exact ⟨committed, order, h.quiet (m := { s with shared := Insert.insert i s.shared }) hi
      ⟨rfl, rfl, rfl, rfl, rfl⟩ rfl rfl h.lin (fun _ _ => Iff.rfl) heffect⟩
  | find key b =>
    simp only [State.pcNext]
    split
    · rename_i hnone
      refine ⟨committed, order ++ [⟨call, .use key b, .used none⟩], ?_⟩
      apply h.quiet hi (.refl s) rfl rfl
      · refine h.lin.linearize heffect.1 hres heffect.2 ?_
        rw [apply, State.view, hnone]
        rfl
      · exact fun e he => mem_append_of_ne he
      · exact ⟨_, List.mem_append_right _ List.mem_cons_self⟩
    · rename_i object hkey
      exact ⟨_, _, h.find hobjects howned hi hkey hover⟩
  | access key b object p =>
    cases p with
    | access c op k => exact ⟨committed, order, h.access hi⟩
    | done out =>
      obtain ⟨hagain, hdone⟩ := h.done hi
      refine ⟨committed, order, ?_⟩
      simp only [State.pcNext, hagain]
      exact hdone
  | unlockShared res =>
    obtain ⟨op, hmem⟩ := heffect
    exact ⟨committed, order, h.finish (m := { s with shared := s.shared.erase i }) hi
      ⟨rfl, rfl, rfl, rfl, rfl⟩ rfl hmem⟩
  | lockUnique key change =>
    exact ⟨committed, order, h.quiet (m := { s with exclusive := some i }) hi
      ⟨rfl, rfl, rfl, rfl, rfl⟩ rfl rfl h.lin (fun _ _ => Iff.rfl) heffect⟩
  | findUnique key change =>
    cases change with
    | create =>
      simp only [State.pcNext]
      split
      · rename_i hsome
        obtain ⟨object, hkey⟩ := Option.isSome_iff_exists.mp hsome
        refine ⟨committed, order ++ [⟨call, .change key .create, .changed false⟩], ?_⟩
        apply h.quiet hi (.refl s) rfl rfl
        · refine h.lin.linearize heffect.1 hres heffect.2 ?_
          rw [apply, State.view, hkey]
          rfl
        · exact fun e he => mem_append_of_ne he
        · exact ⟨_, List.mem_append_right _ List.mem_cons_self⟩
      · refine ⟨committed, order, ?_⟩
        exact h.quiet hi (.refl s) rfl rfl h.lin (fun _ _ => Iff.rfl) heffect
    | remove =>
      simp only [State.pcNext]
      split
      · rename_i hnone
        refine ⟨committed, order ++ [⟨call, .change key .remove, .changed false⟩], ?_⟩
        apply h.quiet hi (.refl s) rfl rfl
        · refine h.lin.linearize heffect.1 hres heffect.2 ?_
          rw [apply, State.view, hnone]
          rfl
        · exact fun e he => mem_append_of_ne he
        · exact ⟨_, List.mem_append_right _ List.mem_cons_self⟩
      · refine ⟨committed, order, ?_⟩
        exact h.quiet hi (.refl s) rfl rfl h.lin (fun _ _ => Iff.rfl) heffect
  | insert key => exact ⟨_, _, h.insert hobjects howned hi⟩
  | erase key object => exact ⟨_, _, h.erase howned hi⟩
  | unlockUnique res =>
    obtain ⟨op, hmem⟩ := heffect
    exact ⟨committed, order, h.finish (m := { s with exclusive := none }) hi
      ⟨rfl, rfl, rfl, rfl, rfl⟩ rfl hmem⟩

/-- A call begins. -/
theorem Explains.begin (h : Explains objects Good s committed order) (hi : s.threads i = none)
    (op : Call K B) : Explains objects Good (s.begin i op) committed order := by
  have hnew : ∀ e ∈ order, e.call ≠ s.calls :=
    fun e he => (h.numbered _ _ (h.lin.began e he).1).ne
  have hinvoke : .invoke s.calls op ∈ (s.begin i op).history :=
    List.mem_append_right _ List.mem_cons_self
  apply h.update (i := i) (x := some (s.calls, .start op))
  · rfl
  · exact h.lin.invoke (fun op hop => lt_irrefl _ (h.numbered _ op hop)) op
  · exact h.good
  · intro key object hkey hreads
    refine h.settled key object hkey fun j call' key' b p hj => ?_
    apply hreads j call' key' b p
    have hji : j ≠ i := by
      rintro rfl
      rw [hi] at hj
      cases hj
    exact (Function.update_of_ne hji ..).trans hj
  · intro c op' hc
    rcases List.mem_append.mp hc with hc | hc
    · exact Nat.lt_succ_of_lt (h.numbered c op' hc)
    · cases List.mem_singleton.mp hc
      exact Nat.lt_succ_self _
  · exact Nat.le_succ _
  · exact List.subset_append_left _ _
  · intro c res hc
    rcases List.mem_append.mp hc with hc | hc
    · exact Or.inl hc
    · cases List.mem_singleton.mp hc
  · exact fun e _ _ => Iff.rfl
  · exact fun _ _ _ _ _ _ _ _ => ⟨rfl, rfl⟩
  · rintro _ _ ⟨⟩
    refine ⟨Nat.lt_succ_self _, fun res hres => ?_, ?_, fun j pc' _ hj => ?_⟩
    · rcases List.mem_append.mp hres with hres | hres
      · obtain ⟨op', hop⟩ := h.lin.returned _ _ hres
        exact lt_irrefl _ (h.numbered _ _ (h.lin.began _ hop).1)
      · cases List.mem_singleton.mp hres
    · cases op with
      | change key change => exact ⟨hinvoke, hnew⟩
      | use key b => exact ⟨hinvoke, hnew⟩
    · exact lt_irrefl _ (h.pending j s.calls pc' hj).1
  · intro c key b object p hpc
    cases op with
    | change key change => cases hpc
    | use key b => cases hpc

/-- Every step keeps an order that explains the history. -/
theorem Explains.step (h : Explains objects Good s committed order)
    (hobjects : Settles objects Good) (howned : Owned s) {e : Event ι K B}
    (hover : NoOverlap objects s e) (hstep : State.Step objects s e u) :
    ∃ committed' order', Explains objects Good u committed' order' := by
  obtain ⟨henabled, rfl⟩ := hstep
  cases e with
  | call i op =>
    exact ⟨committed, order, h.begin (Option.isNone_iff_eq_none.mp henabled) op⟩
  | step i =>
    cases hi : s.threads i with
    | none =>
      rw [State.Enabled, hi] at henabled
      cases henabled
    | some x =>
      rw [State.next, hi]
      exact h.pcNext hobjects howned hi hover

end Rules

section Run

variable [DecidableEq K] [DecidableEq C] {objects : Interface K C B Out} {Good : Memory C → Prop}

theorem explains_construct :
    Explains objects Good (construct ι K C B Out) (fun _ _ => 0) [] where
  lin := linearizes_nil (apply objects) _
  good _ _ h := by cases h
  settled _ _ h := by cases h
  numbered _ _ h := by cases h
  pending _ _ _ h := by cases h
  distinct _ _ _ _ _ h := by cases h
  alone _ _ _ _ _ _ _ _ _ _ _ h := by cases h

/-- In every run in which programs on one object do not overlap, unless they only read, the calls
are explained by an order that leaves the registered objects as they are when all calls are
done. -/
theorem linearizes_throughout [DecidableEq ι] (hobjects : Settles objects Good)
    {tr : List (Event ι K B × State ι K C B Out)}
    (hrun : IsRun (State.Step objects) (construct ι K C B Out) tr)
    (hover : Guarded (NoOverlap objects) (construct ι K C B Out) tr) :
    Throughout (fun s => ∃ committed order,
      Linearizes (apply objects) (fun _ => none) s.history order (s.view committed) ∧
        ((∀ i, s.threads i = none) → s.view committed = s.view s.heap))
      (construct ι K C B Out) tr := by
  have hinv := hrun.invariant
    (fun s => Owned s ∧ ∃ committed order, Explains objects Good s committed order)
    (fun s e t hs hover hstep => by
      obtain ⟨howned, committed, order, hs⟩ := hs
      exact ⟨howned.step hstep, hs.step hobjects howned hover hstep⟩)
    hover ⟨owned_construct, _, _, explains_construct⟩
  refine hinv.mono fun s hs => ?_
  obtain ⟨-, committed, order, hs⟩ := hs
  refine ⟨committed, order, hs.lin, fun hidle => ?_⟩
  funext key
  rw [State.view, State.view]
  cases hkey : s.registry key with
  | none => rfl
  | some object =>
    have hsettled := hs.settled key object hkey fun i call key' b p hi => by
      rw [hidle i] at hi
      cases hi
    rw [Option.map_some, Option.map_some, hsettled]

end Run

end OrderbookEngine.Registry
