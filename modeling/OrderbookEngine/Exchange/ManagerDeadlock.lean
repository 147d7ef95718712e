import OrderbookEngine.Exchange.ManagerThreads
import OrderbookEngine.Library.CallStack

/-!
# Threads that the manager and its callbacks entangle

A method joins an I/O thread while it holds `connectors_mutex_`, and so do the error
callbacks that `connect` and the sends invoke run under it. A callback that calls the
manager at such a moment waits for ever.

Two ways to wait for ever are ruled out here: for a mutex of one's own, and for a thread
that waits for the mutex one holds. A cycle through `connectors_mutex_` and a connector's
`subscriptions_mutex_`, which two threads take in opposite orders, is neither.
-/

namespace OrderbookEngine.ConnectionManager

open Transition CallStack

namespace ConcurrentManager

variable {ι : Type}

/-- The mutex that a thread stands at. -/
def wants (c : ConcurrentManager ι) (t : Thread ι) : Option Mutex :=
  (c.calls t).head?.bind Frame.wants

/-- The I/O thread that a thread joins. -/
def joins (c : ConcurrentManager ι) (t : Thread ι) : Option Nat :=
  (c.calls t).head?.bind Frame.joins

/-- No thread waits for a mutex that it holds, and the holder of `connectors_mutex_`
joins no thread that waits for it. Threads may still wait for each other's mutexes. -/
structure Unentangled (c : ConcurrentManager ι) : Prop where
  notHeld : ∀ t mutex, c.wants t = some mutex → c.owner mutex ≠ some t
  notJoined : ∀ t number, c.owner .connectors = some t → c.joins t = some number →
    c.wants (.io number) ≠ some .connectors

/-- The I/O thread that the holder of `connectors_mutex_` joins. -/
def beingJoined (c : ConcurrentManager ι) : Option Nat := (c.owner .connectors).bind c.joins

/-- The I/O thread that a thread sets out to join in its next step. -/
def joinsNext (c : ConcurrentManager ι) (t : Thread ι) : Option Nat :=
  match c.calls t with
  | .visiting m (exchange :: _) :: _ =>
    match m.visit with
    | .stops _ => c.manager.connectors[exchange]?.bind ConnectorInfo.joins
    | _ => none
  | _ => none

/-- The connector at whose subscriptions a thread arrives in its next step. -/
def subscribesNext (c : ConcurrentManager ι) (t : Thread ι) (r : Outcome) : Option Nat :=
  match c.calls t with
  | .visiting m (exchange :: _) :: _ =>
    if m.visit = .subscribes ∧ r ≠ .refused then
      c.manager.connectors[exchange]?.map ConnectorInfo.id
    else none
  | _ => none

/-- The manager is called from outside its methods and not by a thread that is being
joined; it joins no thread that waits for it; and no connector is asked to subscribe
from within its own `on_open`. -/
def Apart (c : ConcurrentManager ι) : Event ι → Prop
  | .call t _ => (∀ frame ∈ c.calls t, frame.holds ≠ some .connectors) ∧
    ∀ number ∈ c.beingJoined, t ≠ .io number
  | .advance t r => (∀ number ∈ c.joinsNext t, c.wants (.io number) ≠ some .connectors) ∧
    ∀ id ∈ c.subscribesNext t r, ∀ frame ∈ c.calls t, frame.holds ≠ some (.subscriptions id)
  | _ => True

instance decidableApart [DecidableEq ι] (c : ConcurrentManager ι) : ∀ e, Decidable (c.Apart e)
  | .call t _ => inferInstanceAs (Decidable ((∀ frame ∈ c.calls t, frame.holds ≠ some .connectors) ∧
      ∀ number ∈ c.beingJoined, t ≠ .io number))
  | .advance t r => inferInstanceAs (Decidable (
      (∀ number ∈ c.joinsNext t, c.wants (.io number) ≠ some .connectors) ∧
      ∀ id ∈ c.subscribesNext t r, ∀ frame ∈ c.calls t, frame.holds ≠ some (.subscriptions id)))
  | .handler _ | .onOpen _ | .runReturns _ | .storeRunning _ => isTrue trivial

end ConcurrentManager

namespace Frame

/-- A frame that goes on when the function it called returns. -/
def resumes : Frame → Bool
  | .callback | .visiting _ _ | .opening _ | .resubscribing _ _ => true
  | .waiting _ | .joining _ _ _ _ | .subscribing _ _ _ => false

def inOnOpen : Frame → Bool
  | .opening _ | .resubscribing _ _ => true
  | _ => false

/-- How the frames of one stack lie over each other. -/
def Over (frame below : Frame) : Prop :=
  below.resumes = true ∧ (below.inOnOpen = true → frame.inOnOpen = false)

theorem joins_of_resumes {frame : Frame} (h : frame.resumes = true) : frame.joins = none := by
  cases frame with
  | joining => cases h
  | _ => rfl

theorem wants_of_joins {frame : Frame} {number : Nat} (h : frame.joins = some number) :
    frame.wants = none := by
  cases frame with
  | joining => rfl
  | _ => cases h

theorem holds_subscriptions {frame : Frame} {id : Nat}
    (h : frame.holds = some (.subscriptions id)) : frame.inOnOpen = true := by
  cases frame with
  | resubscribing => rfl
  | _ => cases h

end Frame

namespace ConcurrentManager

variable {ι : Type} {c d : ConcurrentManager ι} {t : Thread ι}

/-- What every run keeps. -/
structure Inv (c : ConcurrentManager ι) : Prop where
  tracks : Tracks Frame.holds c.owner c.calls
  stacked : ∀ t, (c.calls t).Pairwise Frame.Over

/-- A frame that goes on stands at no mutex that its thread owns. -/
theorem Inv.notHeld_of_resumes (h : Inv c) {frame : Frame} {rest : List Frame}
    (hcalls : c.calls t = frame :: rest) (hresumes : frame.resumes = true) {mutex : Mutex}
    (hwants : frame.wants = some mutex) : c.owner mutex ≠ some t := by
  cases frame with
  | opening id =>
    cases hwants
    intro howner
    obtain ⟨holder, hmem, hholds⟩ := h.tracks.mem_of_owner howner
    rw [hcalls] at hmem
    obtain rfl | hrest := List.mem_cons.mp hmem
    · cases hholds
    · have hstacked := h.stacked t
      rw [hcalls] at hstacked
      have hover := (List.pairwise_cons.mp hstacked).1 holder hrest
      cases hover.2 (Frame.holds_subscriptions hholds)
  | callback | visiting | resubscribing => cases hwants
  | waiting | joining | subscribing => cases hresumes

/-- The frames below the innermost one of a thread go on. -/
theorem Inv.resumes_below (h : Inv c) {old : Frame} {rest : List Frame}
    (hcalls : c.calls t = old :: rest) : ∀ frame ∈ rest, frame.resumes = true := by
  have hstacked := h.stacked t
  rw [hcalls] at hstacked
  exact fun frame hmem => ((List.pairwise_cons.mp hstacked).1 frame hmem).1

/-- Another innermost frame, which is in `on_open` only if the old one was. -/
theorem Inv.stacked_swap (h : Inv c) {old new : Frame} {rest : List Frame}
    (hcalls : c.calls t = old :: rest) (hopen : new.inOnOpen = true → old.inOnOpen = true) :
    (new :: rest).Pairwise Frame.Over := by
  have hstacked := h.stacked t
  rw [hcalls] at hstacked
  obtain ⟨hover, hrest⟩ := List.pairwise_cons.mp hstacked
  refine List.pairwise_cons.mpr ⟨fun frame hmem => ⟨(hover frame hmem).1, fun hf => ?_⟩, hrest⟩
  cases hnew : new.inOnOpen with
  | false => rfl
  | true => cases (hopen hnew).symm.trans ((hover frame hmem).2 hf)

/-- What every run keeps as long as no thread is entangled. -/
structure Good (c : ConcurrentManager ι) : Prop where
  inv : Inv c
  free : Unentangled c

theorem Good.of_eq (h : Good c) (howner : d.owner = c.owner) (hcalls : d.calls = c.calls) :
    Good d where
  inv := ⟨by rw [howner, hcalls]; exact h.inv.tracks, by rw [hcalls]; exact h.inv.stacked⟩
  free := by
    constructor
    · simp only [wants, howner, hcalls]
      exact h.free.notHeld
    · simp only [wants, joins, howner, hcalls]
      exact h.free.notJoined

section Update

variable [DecidableEq ι] {frames : List Frame}

/-- What a change to the stack of one thread has to establish. -/
theorem Unentangled.update (h : Unentangled c)
    (hcalls : d.calls = Function.update c.calls t frames)
    (howner : ∀ mutex, ∀ u ≠ t, d.owner mutex = some u → c.owner mutex = some u)
    (hheld : ∀ mutex, frames.head?.bind Frame.wants = some mutex → d.owner mutex ≠ some t)
    (hjoined : frames.head?.bind Frame.wants = some .connectors →
      ∀ number, t = .io number → ∀ u ≠ t, c.owner .connectors = some u →
        c.joins u ≠ some number)
    (hjoins : ∀ number, frames.head?.bind Frame.joins = some number →
      c.wants (.io number) ≠ some .connectors) : Unentangled d := by
  have hself : d.calls t = frames := by rw [hcalls, Function.update_self]
  have hother : ∀ u ≠ t, d.calls u = c.calls u := fun u hu => by
    rw [hcalls, Function.update_of_ne hu]
  constructor
  · intro u mutex hwants
    by_cases hu : u = t
    · rw [wants, hu, hself] at hwants
      exact hu ▸ hheld mutex hwants
    · rw [wants, hother u hu] at hwants
      exact fun heq => h.notHeld u mutex hwants (howner mutex u hu heq)
  · intro u number hholder hj hwants
    by_cases hu : u = t
    · rw [joins, hu, hself] at hj
      by_cases hn : Thread.io number = t
      · rw [wants, hn, hself] at hwants
        cases frames with
        | nil => cases hj
        | cons frame rest => cases (Frame.wants_of_joins hj).symm.trans hwants
      · rw [wants, hother _ hn] at hwants
        exact hjoins number hj hwants
    · rw [joins, hother u hu] at hj
      have hholder' := howner _ u hu hholder
      by_cases hn : Thread.io number = t
      · rw [wants, hn, hself] at hwants
        exact hjoined hwants number hn.symm u hu hholder' hj
      · rw [wants, hother _ hn] at hwants
        exact h.notJoined u number hholder' hj hwants

theorem Inv.update (h : Inv c) (hcalls : d.calls = Function.update c.calls t frames)
    (htracks : Tracks Frame.holds d.owner d.calls) (hstacked : frames.Pairwise Frame.Over) :
    Inv d where
  tracks := htracks
  stacked u := by
    rw [hcalls]
    by_cases hu : u = t
    · rw [hu, Function.update_self]
      exact hstacked
    · rw [Function.update_of_ne hu]
      exact h.stacked u

/-- A thread whose innermost frame goes on, or that is in no function, waits for
nothing that it holds. -/
theorem Good.resume (h : Good c) (hcalls : d.calls = Function.update c.calls t frames)
    (htracks : Tracks Frame.holds d.owner d.calls) (hstacked : frames.Pairwise Frame.Over)
    (hresumes : ∀ frame ∈ frames.head?, frame.resumes = true)
    (howner : ∀ mutex, ∀ u ≠ t, d.owner mutex = some u → c.owner mutex = some u) : Good d := by
  have hinv := h.inv.update hcalls htracks hstacked
  refine ⟨hinv, h.free.update hcalls howner ?_ ?_ ?_⟩
  all_goals cases frames with
  | nil => exact nofun
  | cons frame rest => ?_
  · have hself : d.calls t = frame :: rest := by rw [hcalls, Function.update_self]
    exact fun mutex hwants => hinv.notHeld_of_resumes hself (hresumes frame rfl) hwants
  · intro hwants
    have hframe := hresumes frame rfl
    cases frame with
    | waiting => cases hframe
    | _ => cases hwants
  · intro number hj
    cases (Frame.joins_of_resumes (hresumes frame rfl)).symm.trans hj

/-- The innermost frame moves on with the mutexes it has, perhaps into a callback. -/
theorem Good.swap (h : Good c) {old new : Frame} {rest : List Frame}
    (hcalls : c.calls t = old :: rest) (howner : d.owner = c.owner)
    (hd : d.calls = Function.update c.calls t (new :: rest) ∨
      d.calls = Function.update c.calls t (.callback :: new :: rest))
    (hholds : new.holds = old.holds) (hresumes : new.resumes = true)
    (hopen : new.inOnOpen = true → old.inOnOpen = true) : Good d := by
  have hstacked := h.inv.stacked_swap hcalls hopen
  have hheld : (new :: rest).filterMap Frame.holds = (c.calls t).filterMap Frame.holds := by
    rw [hcalls, List.filterMap_cons, List.filterMap_cons, hholds]
  have hlast : ∀ mutex, ∀ u ≠ t, d.owner mutex = some u → c.owner mutex = some u :=
    fun mutex u _ => by rw [howner]; exact id
  obtain hd | hd := hd
  · refine h.resume hd ?_ hstacked (by simpa using hresumes) hlast
    rw [hd, howner]
    exact h.inv.tracks.keep hheld
  · refine h.resume hd ?_ ?_ (by simp [Frame.resumes]) hlast
    · rw [hd, howner]
      exact h.inv.tracks.keep hheld
    · refine List.pairwise_cons.mpr ⟨fun frame hmem => ⟨?_, fun _ => rfl⟩, hstacked⟩
      obtain rfl | hrest := List.mem_cons.mp hmem
      · exact hresumes
      · exact h.inv.resumes_below hcalls frame hrest

/-- A method goes on to its next exchange, perhaps after a callback. -/
theorem Good.proceed (h : Good c) {old : Frame} {rest : List Frame} {m : Method}
    {todo : List Exchange} (hcalls : c.calls t = old :: rest)
    (hold : old.holds = some .connectors) (howner : d.owner = c.owner)
    (hd : d.calls = Function.update c.calls t (.visiting m todo :: rest) ∨
      d.calls = Function.update c.calls t (.callback :: .visiting m todo :: rest)) : Good d :=
  h.swap hcalls howner hd hold.symm rfl nofun

/-- A thread gets the mutex that it waited for. -/
theorem Good.lock (h : Good c) {old new : Frame} {rest : List Frame} {mutex : Mutex}
    (hcalls : c.calls t = old :: rest) (hfree : c.owner mutex = none) (hold : old.holds = none)
    (hnew : new.holds = some mutex) (hresumes : new.resumes = true)
    (hopen : new.inOnOpen = true → old.inOnOpen = true) :
    Good ((c.setOwner mutex (some t)).setCalls t (new :: rest)) := by
  refine h.resume rfl (h.inv.tracks.take hfree ?_) (h.inv.stacked_swap hcalls hopen)
    (by simpa using hresumes) fun other u hu howner => ?_
  · rw [hcalls, List.filterMap_cons, List.filterMap_cons, hold, hnew]
  · have howner : Function.update c.owner mutex (some t) other = some u := howner
    by_cases ho : other = mutex
    · rw [ho, Function.update_self] at howner
      exact absurd (Option.some.inj howner).symm hu
    · rwa [Function.update_of_ne ho] at howner

/-- A function that holds a mutex releases it and returns. -/
theorem Good.unlock (h : Good c) {old : Frame} {rest : List Frame} {mutex : Mutex}
    (hcalls : c.calls t = old :: rest) (hold : old.holds = some mutex)
    (howner : d.owner = Function.update c.owner mutex none)
    (hd : d.calls = Function.update c.calls t rest) : Good d := by
  have hstacked := h.inv.stacked t
  rw [hcalls] at hstacked
  refine h.resume hd ?_ (List.pairwise_cons.mp hstacked).2
    (fun frame hmem => h.inv.resumes_below hcalls frame (List.mem_of_mem_head? hmem))
    fun other u _ hu => ?_
  · rw [hd, howner]
    apply h.inv.tracks.release
    rw [hcalls, List.filterMap_cons, hold]
  · rw [howner] at hu
    by_cases ho : other = mutex
    · rw [ho, Function.update_self] at hu
      cases hu
    · rwa [Function.update_of_ne ho] at hu

/-- A callback returns. -/
theorem Good.returns (h : Good c) {rest : List Frame} (hcalls : c.calls t = .callback :: rest) :
    Good (c.setCalls t rest) := by
  have hstacked := h.inv.stacked t
  rw [hcalls] at hstacked
  refine h.resume rfl (h.inv.tracks.keep (by rw [hcalls]; rfl)) (List.pairwise_cons.mp hstacked).2
    (fun frame hmem => h.inv.resumes_below hcalls frame (List.mem_of_mem_head? hmem))
    fun _ _ _ => id

/-- A handler begins on an I/O thread. -/
theorem Good.handles (h : Good c) (hcalls : c.calls t = []) {rest : List Frame}
    (hheld : rest.filterMap Frame.holds = []) (hstacked : (.callback :: rest).Pairwise Frame.Over) :
    Good (c.setCalls t (.callback :: rest)) :=
  h.resume rfl (h.inv.tracks.keep (by rw [hcalls]; exact hheld)) hstacked
    (by simp [Frame.resumes]) fun _ _ _ => id

/-- A call from outside the methods of the manager. -/
theorem Good.call (h : Good c) (m : Method) (huser : c.inUserCode t = true)
    (hapart : c.Apart (.call t m)) : Good (c.setCalls t (.waiting m :: c.calls t)) := by
  have hbelow : ∀ frame ∈ c.calls t, frame.resumes = true := by
    intro frame hmem
    cases hcalls : c.calls t with
    | nil => rw [hcalls] at hmem; cases hmem
    | cons top rest =>
      rw [hcalls] at hmem
      obtain rfl | hrest := List.mem_cons.mp hmem
      · cases frame with
        | callback => rfl
        | _ => unfold inUserCode at huser; rw [hcalls] at huser; cases huser
      · exact h.inv.resumes_below hcalls frame hrest
  constructor
  · refine h.inv.update rfl (h.inv.tracks.keep rfl) ?_
    exact List.pairwise_cons.mpr ⟨fun frame hmem => ⟨hbelow frame hmem, fun _ => rfl⟩,
      h.inv.stacked t⟩
  · refine h.free.update rfl (fun _ _ _ => id) ?_ ?_ nofun
    · intro mutex hmutex howner
      cases hmutex
      obtain ⟨frame, hmem, hholds⟩ := h.inv.tracks.mem_of_owner howner
      exact hapart.1 frame hmem hholds
    · intro _ number ht u _ howner hj
      exact hapart.2 number (by rw [beingJoined, howner]; exact hj) ht

end Update

section Visit

variable [DecidableEq ι] {m : Method} {exchange : Exchange} {info : ConnectorInfo}
  {todo : List Exchange} {rest : List Frame}

omit [DecidableEq ι] in
theorem joinsNext_of_visiting (hcalls : c.calls t = .visiting m (exchange :: todo) :: rest)
    {removes : Bool} (hvisit : m.visit = .stops removes)
    (hat : c.manager.connectors[exchange]? = some info) : c.joinsNext t = info.joins := by
  rw [joinsNext, hcalls]
  simp only [hvisit, hat, Option.bind_some]

omit [DecidableEq ι] in
theorem subscribesNext_of_visiting (hcalls : c.calls t = .visiting m (exchange :: todo) :: rest)
    (hvisit : m.visit = .subscribes) (hat : c.manager.connectors[exchange]? = some info)
    {r : Outcome} (hr : r ≠ .refused) : c.subscribesNext t r = some info.id := by
  rw [subscribesNext, hcalls]
  simp only [hvisit, hat, hr, ne_eq, not_false_eq_true, and_self, if_true, Option.map_some]

/-- A method sets out to join an I/O thread that does not wait for the mutex. -/
theorem Good.join (h : Good c) (hcalls : c.calls t = .visiting m (exchange :: todo) :: rest)
    {number : Nat} (hnot : c.wants (.io number) ≠ some .connectors)
    (howner : d.owner = c.owner)
    (hd : d.calls = Function.update c.calls t (.joining m number exchange todo :: rest)) :
    Good d := by
  constructor
  · refine h.inv.update hd ?_ (h.inv.stacked_swap hcalls nofun)
    rw [hd, howner]
    exact h.inv.tracks.keep (by rw [hcalls]; rfl)
  · refine h.free.update hd (fun mutex u _ => by rw [howner]; exact id) nofun nofun ?_
    intro number' hj
    cases hj
    exact hnot

/-- A method arrives at the subscriptions of a connector whose `on_open` it is not in. -/
theorem Good.subscribe (h : Good c)
    (hcalls : c.calls t = .visiting m (exchange :: todo) :: rest) {id : Nat}
    (hnot : ∀ frame ∈ c.calls t, frame.holds ≠ some (.subscriptions id)) :
    Good (c.setCalls t (.subscribing m id todo :: rest)) := by
  constructor
  · exact h.inv.update rfl (h.inv.tracks.keep (by rw [hcalls]; rfl))
      (h.inv.stacked_swap hcalls nofun)
  · refine h.free.update rfl (fun _ _ _ howner => howner) ?_ nofun nofun
    intro mutex hmutex howner
    cases hmutex
    obtain ⟨frame, hmem, hholds⟩ := h.inv.tracks.mem_of_owner howner
    exact hnot frame hmem hholds

theorem Good.visit (h : Good c) (hcalls : c.calls t = .visiting m (exchange :: todo) :: rest)
    {r : Outcome} (hapart : c.Apart (.advance t r)) :
    Good (c.visit t m exchange todo rest r) := by
  obtain ⟨hjoin, hsubscribe⟩ := hapart
  have hon : ∀ {d : ConcurrentManager ι}, d.owner = c.owner →
      d.calls = Function.update c.calls t (.visiting m todo :: rest) → Good d :=
    fun howner hd => h.proceed hcalls rfl howner (.inl hd)
  unfold ConcurrentManager.visit
  split
  case h_1 => exact hon rfl rfl
  case h_2 =>
    split
    · exact hon rfl rfl
    · split
      · exact hon rfl rfl
      · exact hon rfl rfl
      · exact h.proceed hcalls rfl rfl (.inr rfl)
  case h_3 removes info hvisit hat =>
    rw [joinsNext_of_visiting hcalls hvisit hat] at hjoin
    split
    · rename_i number hj
      split
      · exact h.unlock hcalls rfl rfl rfl
      · exact h.join hcalls (hjoin number hj) rfl rfl
    · exact hon rfl rfl
  case h_4 info hvisit hat =>
    split
    · exact hon rfl rfl
    · rename_i hr
      exact h.subscribe hcalls
        (hsubscribe info.id (subscribesNext_of_visiting hcalls hvisit hat hr))
  case h_5 => exact hon rfl rfl

theorem Good.advance (h : Good c) {r : Outcome} (hready : c.ready t = true)
    (hapart : c.Apart (.advance t r)) : Good (c.advance t r) := by
  have hfree : ∀ {frame rest mutex}, c.calls t = frame :: rest → frame.wants = some mutex →
      c.owner mutex = none := by
    intro frame rest mutex hcalls hwants
    unfold ready at hready
    simp only [hcalls, hwants, Bool.and_eq_true, Option.isNone_iff_eq_none] at hready
    exact hready.1
  unfold ConcurrentManager.advance
  split
  case h_1 => exact h
  case h_2 rest hcalls => exact h.returns hcalls
  case h_3 m rest hcalls => exact h.lock hcalls (hfree hcalls rfl) rfl rfl rfl nofun
  case h_4 m rest hcalls => exact h.unlock hcalls rfl rfl rfl
  case h_5 m exchange todo rest hcalls => exact h.visit hcalls hapart
  case h_6 m number exchange todo rest hcalls =>
    have hsame : (c.joined m exchange).owner = c.owner ∧
        (c.joined m exchange).calls = c.calls := by
      rw [ConcurrentManager.joined]
      split <;> exact ⟨rfl, rfl⟩
    have hd : ((c.joined m exchange).setCalls t (.visiting m todo :: rest)).calls =
        Function.update c.calls t (.visiting m todo :: rest) := by
      rw [setCalls, hsame.2]
    exact h.proceed hcalls rfl hsame.1 (.inl hd)
  case h_7 m id todo rest hcalls =>
    simp only
    split
    · exact h.proceed hcalls rfl rfl (.inr rfl)
    · exact h.proceed hcalls rfl rfl (.inl rfl)
  case h_8 id rest hcalls => exact h.lock hcalls (hfree hcalls rfl) rfl rfl rfl fun _ => rfl
  case h_9 id rest hcalls => exact h.unlock hcalls rfl rfl rfl
  case h_10 id symbol symbols rest hcalls =>
    split
    · exact h.swap hcalls rfl (.inr rfl) rfl rfl fun _ => rfl
    · exact h.swap hcalls rfl (.inl rfl) rfl rfl fun _ => rfl

/-- An event that keeps calls and joins apart leads from a good state to a good one. -/
theorem Good.next (h : Good c) {e : Event ι} (henabled : c.Enabled e) (hapart : c.Apart e) :
    Good (c.next e) := by
  have hidle : ∀ {number}, c.inRunLoop number = true → c.calls (.io number) = [] := by
    intro number hloop
    rw [inRunLoop, Bool.and_eq_true, List.isEmpty_iff] at hloop
    exact hloop.1
  cases e with
  | call t m => exact h.call m henabled.2 hapart
  | advance t r => exact h.advance henabled.2 hapart
  | handler number => exact h.handles (hidle henabled.2) rfl (List.pairwise_singleton _ _)
  | onOpen number =>
    simp only [ConcurrentManager.next]
    split
    · exact h
    · exact h.handles (hidle henabled.2) rfl (by simp [Frame.Over, Frame.resumes, Frame.inOnOpen])
  | runReturns number => exact h.of_eq rfl rfl
  | storeRunning number => exact h.of_eq rfl rfl

end Visit

section Entangled

variable [DecidableEq ι]

/-- A call from inside a method, or by a thread that is being joined, waits for ever. -/
theorem not_unentangled_call (h : Inv c) (m : Method) (huser : c.inUserCode t = true)
    (hapart : ¬ c.Apart (.call t m)) :
    ¬ Unentangled (c.setCalls t (.waiting m :: c.calls t)) := by
  intro hfree
  have hwants : (c.setCalls t (.waiting m :: c.calls t)).wants t = some .connectors := by
    rw [wants, setCalls_self]
    rfl
  refine hapart ⟨fun frame hmem hholds => ?_, fun number hnumber ht => ?_⟩
  · exact hfree.notHeld t .connectors hwants (h.tracks.owner_of_mem hmem hholds)
  · obtain ⟨u, howner, hj⟩ := Option.bind_eq_some_iff.mp hnumber
    have hu : u ≠ t := by
      rintro rfl
      unfold inUserCode at huser
      rw [joins] at hj
      split at huser
      · rename_i hcalls
        rw [hcalls] at hj
        cases hj
      · rename_i hcalls
        rw [hcalls] at hj
        cases hj
      · cases huser
    have hj' : (c.setCalls t (.waiting m :: c.calls t)).joins u = some number := by
      rw [joins, setCalls_of_ne c hu]
      exact hj
    exact hfree.notJoined u number howner hj' (ht ▸ hwants)

/-- So does a method that joins a thread which waits for the mutex, or that subscribes
from within `on_open`. -/
theorem not_unentangled_advance (h : Inv c) {r : Outcome}
    (hapart : ¬ c.Apart (.advance t r)) : ¬ Unentangled (c.advance t r) := by
  intro hfree
  refine hapart ⟨fun number hnumber hwants => ?_, fun id hid frame hmem hholds => ?_⟩
  · unfold joinsNext at hnumber
    split at hnumber
    · rename_i m exchange todo rest hcalls
      split at hnumber
      · rename_i removes hvisit
        obtain ⟨info, hat, hj⟩ := Option.bind_eq_some_iff.mp hnumber
        have howner : c.owner .connectors = some t :=
          h.tracks.owner_of_mem (hcalls ▸ List.mem_cons_self) rfl
        have hne : Thread.io number ≠ t := by
          rintro rfl
          rw [wants, hcalls] at hwants
          cases hwants
        have hd : (c.advance t r).calls =
            Function.update c.calls t (.joining m number exchange todo :: rest) ∧
            (c.advance t r).owner = c.owner := by
          simp only [ConcurrentManager.advance, hcalls, ConcurrentManager.visit, hvisit, hat, hj,
            if_neg hne.symm]
          exact ⟨rfl, rfl⟩
        refine hfree.notJoined t number (hd.2 ▸ howner) ?_ ?_
        · rw [joins, hd.1, Function.update_self]
          rfl
        · rw [wants, hd.1, Function.update_of_ne hne]
          exact hwants
      · cases hnumber
    · cases hnumber
  · unfold subscribesNext at hid
    split at hid
    · rename_i m exchange todo rest hcalls
      split at hid
      · rename_i hvisit
        obtain ⟨info, hat, rfl⟩ := Option.map_eq_some_iff.mp hid
        have hd : c.advance t r = c.setCalls t (.subscribing m info.id todo :: rest) := by
          simp only [ConcurrentManager.advance, hcalls, ConcurrentManager.visit, hvisit.1, hat,
            if_neg hvisit.2]
        rw [hd] at hfree
        refine hfree.notHeld t (.subscriptions info.id) ?_ (h.tracks.owner_of_mem hmem hholds)
        rw [wants, setCalls_self]
        rfl
      · cases hid
    · cases hid

theorem not_unentangled_next (h : Inv c) {e : Event ι} (henabled : c.Enabled e)
    (hapart : ¬ c.Apart e) : ¬ Unentangled (c.next e) := by
  cases e with
  | call t m => exact not_unentangled_call h m henabled.2 hapart
  | advance t r => exact not_unentangled_advance h hapart
  | handler | onOpen | runReturns | storeRunning => exact absurd trivial hapart

end Entangled

theorem good_construct [DecidableEq ι] : Good (construct : ConcurrentManager ι) where
  inv := ⟨Tracks.init, fun _ => List.Pairwise.nil⟩
  free := ⟨nofun, nofun⟩

/-- No thread ever waits for a mutex of its own, or is joined by the holder of the one it
waits for, in exactly the runs that keep the calls and the joins of the manager apart. -/
theorem neverEntangled_iff_apart [DecidableEq ι] {tr : List (Event ι × ConcurrentManager ι)}
    (hrun : IsRun Step construct tr) :
    Throughout Unentangled construct tr ↔ Guarded Apart construct tr := by
  refine hrun.always_iff_guarded Good ?_ ?_ good_construct
  · rintro c e d h hapart ⟨henabled, rfl⟩
    exact ⟨h.next henabled hapart, (h.next henabled hapart).free⟩
  · rintro c e d h hapart ⟨henabled, rfl⟩
    exact not_unentangled_next h.inv henabled hapart

/-- The user adds and starts an exchange, and a handler begins on its I/O thread. -/
def startsAndHandles : List (Event Unit) :=
  [.call (.client ()) (.addExchange .binance), .advance (.client ()) .ok,
    .advance (.client ()) .ok, .advance (.client ()) .ok,
    .call (.client ()) (.start .binance), .advance (.client ()) .ok,
    .advance (.client ()) .ok, .advance (.client ()) .ok, .handler 0]

/-- The callback asks for the state of the connection and returns, and the user stops
the exchange afterwards. -/
def answeredCallback : List (Event Unit) :=
  startsAndHandles ++
    [.call (.io 0) (.isConnected .binance), .advance (.io 0) .ok, .advance (.io 0) .ok,
      .advance (.io 0) .ok, .advance (.io 0) .ok, .call (.client ()) (.stop .binance),
      .advance (.client ()) .ok, .advance (.client ()) .ok, .runReturns 0, .storeRunning 0,
      .advance (.client ()) .ok, .advance (.client ()) .ok]

theorem neverEntangled_iff_apart_answeredCallback :
    Throughout Unentangled construct (runOf next construct answeredCallback) :=
  (neverEntangled_iff_apart (isRun_runOf_of_enabled (by decide +kernel))).mpr (by decide +kernel)

/-- The user stops the exchange while the callback runs, which then asks for the state
of the connection. -/
def stoppedCallback : List (Event Unit) :=
  startsAndHandles ++
    [.call (.client ()) (.stop .binance), .advance (.client ()) .ok, .advance (.client ()) .ok,
      .call (.io 0) (.isConnected .binance)]

/-- The user's thread holds the mutex and joins the I/O thread, which waits for it. -/
theorem stoppedCallback_deadlocks :
    IsRun Step construct (runOf next construct stoppedCallback) ∧
      ¬ Throughout Unentangled construct (runOf next construct stoppedCallback) := by
  refine ⟨isRun_runOf_of_enabled (by decide +kernel), fun h => ?_⟩
  have hlast := h.last good_construct.free
  rw [lastState_runOf] at hlast
  exact hlast.notJoined (.client ()) 0 (by decide +kernel) (by decide +kernel) (by decide +kernel)

end ConcurrentManager

end OrderbookEngine.ConnectionManager
