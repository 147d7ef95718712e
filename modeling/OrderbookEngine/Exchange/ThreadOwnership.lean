import OrderbookEngine.Exchange.ConnectionManager
import OrderbookEngine.Library.OrderedMap

/-!
# Who joins the I/O threads

`running` is cleared by the manager, which then joins, and by the I/O thread
itself. A thread whose run loop ended on its own stays joinable, and the manager
never joins it: the next start, removal or destruction of its connector
terminates the program.
-/

namespace OrderbookEngine.ConnectionManager

open Transition OrderedMap

/-- The I/O threads that an event lets run on. -/
def Event.thread : Event → Option Nat
  | .runReturns number | .storeRunning number => some number
  | _ => none

/-- The event destroys or replaces no joinable thread, and an I/O thread that runs
on finds its information. -/
def Owned (s : State) (e : Event) (t : State) : Prop :=
  t.terminated = false ∧
    ∀ number thread, e.thread = some number → s.threads number = some thread →
      (s.infoOf thread).isSome

/-- No connector ended its run loop on its own without being joined. -/
def ConnectorInfo.Joined (info : ConnectorInfo) : Prop :=
  info.running = false → info.joinable = false

/-- Starts that connect, removals and the destruction meet only joined connectors. -/
def MeetsJoined (s : State) : Event → Prop
  | .removeExchange exchange => ∀ info, s.connectors[exchange]? = some info → info.Joined
  | .startAll connects => ∀ (exchange : Exchange) info,
    s.connectors[exchange]? = some info → connects exchange = true → info.Joined
  | .start exchange connects => ∀ info, s.connectors[exchange]? = some info →
    connects = true → info.Joined
  | .destroy => ∀ (exchange : Exchange) info, s.connectors[exchange]? = some info → info.Joined
  | _ => True

/-- The information holds the last thread launched for it, and says whether that is
still running. -/
def Holds (s : State) (exchange : Exchange) (info : ConnectorInfo) : Prop :=
  match info.ioThread with
  | none => info.running = false
  | some handle => ∃ phase, s.threads handle.number = some ⟨exchange, info.id, phase⟩ ∧
    (info.running = true ↔ phase ≠ .finished) ∧ (handle.joinable = false → phase = .finished)

/-- What every run keeps in which no thread is lost. -/
structure Inv (s : State) : Prop where
  holds : ∀ (exchange : Exchange) info, s.connectors[exchange]? = some info →
    Holds s exchange info
  /-- A thread that is not at its end is held by its information, joinable. -/
  held : ∀ number exchange id phase, s.threads number = some ⟨exchange, id, phase⟩ →
    phase ≠ .finished → ∃ info, s.connectors[exchange]? = some info ∧ info.id = id ∧
      info.ioThread = some ⟨number, true⟩
  fresh : ∀ number, s.launched ≤ number → s.threads number = none
  notTerminated : s.terminated = false

section Update

variable {s u : State} {exchange : Exchange} {info info' : ConnectorInfo} {number : Nat}

/-- What a change to one connector and to its threads has to establish. -/
theorem Inv.update (h : Inv s) (exchange : Exchange)
    (hconnectors : ∀ other ≠ exchange, u.connectors[other]? = s.connectors[other]?)
    (hthreads : ∀ number other id phase, other ≠ exchange →
      (u.threads number = some ⟨other, id, phase⟩ ↔ s.threads number = some ⟨other, id, phase⟩))
    (hholds : ∀ info, u.connectors[exchange]? = some info → Holds u exchange info)
    (hheld : ∀ number id phase, u.threads number = some ⟨exchange, id, phase⟩ →
      phase ≠ .finished → ∃ info, u.connectors[exchange]? = some info ∧ info.id = id ∧
        info.ioThread = some ⟨number, true⟩)
    (hfresh : ∀ number, u.launched ≤ number → u.threads number = none)
    (hterminated : u.terminated = false) : Inv u where
  holds other info hat := by
    by_cases ho : other = exchange
    · exact ho ▸ hholds info (ho ▸ hat)
    · rw [hconnectors other ho] at hat
      have hinfo := h.holds other info hat
      unfold Holds at hinfo ⊢
      split at hinfo
      · exact hinfo
      · obtain ⟨phase, hthread, hrest⟩ := hinfo
        exact ⟨phase, (hthreads _ _ _ _ ho).mpr hthread, hrest⟩
  held number other id phase hthread hphase := by
    by_cases ho : other = exchange
    · exact ho ▸ hheld number id phase (ho ▸ hthread) hphase
    · rw [hconnectors other ho]
      exact h.held number other id phase ((hthreads _ _ _ _ ho).mp hthread) hphase
  fresh := hfresh
  notTerminated := hterminated

/-- The joinable thread of a connector is its running one. -/
theorem Inv.running_of_held (h : Inv s) (hat : s.connectors[exchange]? = some info)
    {id : Nat} {phase : Phase} (hthread : s.threads number = some ⟨exchange, id, phase⟩)
    (hphase : phase ≠ .finished) : info.running = true ∧ info.id = id ∧
      info.ioThread = some ⟨number, true⟩ := by
  obtain ⟨info', hat', hid, hio⟩ := h.held number exchange id phase hthread hphase
  obtain rfl : info' = info := Option.some.inj (hat'.symm.trans hat)
  have hholds := h.holds exchange info' hat
  rw [Holds, hio] at hholds
  obtain ⟨phase', hthread', hrunning, -⟩ := hholds
  cases hthread.symm.trans hthread'
  exact ⟨hrunning.mpr hphase, hid, hio⟩

/-- A connector is running exactly while its thread is not at its end. -/
theorem Inv.held_of_running (h : Inv s) (hat : s.connectors[exchange]? = some info)
    (hrunning : info.running = true) : ∃ number phase, info.ioThread = some ⟨number, true⟩ ∧
      s.threads number = some ⟨exchange, info.id, phase⟩ ∧ phase ≠ .finished := by
  have hholds := h.holds exchange info hat
  unfold Holds at hholds
  split at hholds
  · rw [hrunning] at hholds
    cases hholds
  · rename_i handle hio
    obtain ⟨phase, hthread, hiff, hjoinable⟩ := hholds
    have hphase := hiff.mp hrunning
    refine ⟨handle.number, phase, ?_, hthread, hphase⟩
    rw [hio]
    cases hj : handle.joinable with
    | false => exact absurd (hjoinable hj) hphase
    | true => exact congrArg some (congrArg (StdThread.mk handle.number) hj)

/-- A start in place of a joined connector. -/
theorem Inv.launch (h : Inv s) (hat : s.connectors[exchange]? = some info)
    (hrunning : info.running = false) (hjoined : info.joinable = false) :
    Inv (s.launch exchange info) := by
  apply h.update exchange
  · exact fun other ho => getElem?_insert_of_ne ho
  · intro number other id phase ho
    show Function.update s.threads s.launched _ number = _ ↔ _
    by_cases hn : number = s.launched
    · rw [hn, Function.update_self, h.fresh _ le_rfl]
      simp [ho.symm]
    · rw [Function.update_of_ne hn]
  · intro info' hat'
    cases hat'.symm.trans Std.TreeMap.getElem?_insert_self
    exact ⟨.running, Function.update_self .., by simp, nofun⟩
  · intro number id phase hthread hphase
    have hthread : Function.update s.threads s.launched (some ⟨exchange, info.id, .running⟩)
      number = some ⟨exchange, id, phase⟩ := hthread
    by_cases hn : number = s.launched
    · rw [hn, Function.update_self] at hthread
      cases hthread
      exact ⟨_, Std.TreeMap.getElem?_insert_self, rfl, by rw [hn]⟩
    · rw [Function.update_of_ne hn] at hthread
      have hrun := (h.running_of_held hat hthread hphase).1
      rw [hrunning] at hrun
      cases hrun
  · intro number hn
    have hn : s.launched + 1 ≤ number := hn
    exact (Function.update_of_ne (by omega) ..).trans (h.fresh number (by omega))
  · show (s.terminated || info.joinable) = false
    rw [h.notTerminated, hjoined]
    rfl

/-- The held thread of a connector moves on, and the information with it. -/
theorem Inv.advance (h : Inv s) {phase phase' : Phase} {joinable running : Bool}
    (hat : s.connectors[exchange]? = some info) (hio : info.ioThread = some ⟨number, true⟩)
    (hthread : s.threads number = some ⟨exchange, info.id, phase⟩)
    (hconnectors : ∀ other ≠ exchange, u.connectors[other]? = s.connectors[other]?)
    (hat' : u.connectors[exchange]? = some ⟨info.id, some ⟨number, joinable⟩, running⟩)
    (hthreads : u.threads = Function.update s.threads number (some ⟨exchange, info.id, phase'⟩))
    (hrunning : running = true ↔ phase' ≠ .finished)
    (hjoinable : joinable = false → phase' = .finished)
    (hlaunched : u.launched = s.launched) (hterminated : u.terminated = s.terminated) :
    Inv u := by
  apply h.update exchange hconnectors
  · intro number' other id phase'' ho
    rw [hthreads]
    by_cases hn : number' = number
    · rw [hn, Function.update_self, hthread]
      simp [ho.symm]
    · rw [Function.update_of_ne hn]
  · intro info' hinfo'
    cases hinfo'.symm.trans hat'
    exact ⟨phase', by rw [hthreads]; exact Function.update_self .., hrunning, hjoinable⟩
  · intro number' id phase'' hthread' hphase''
    rw [hthreads] at hthread'
    by_cases hn : number' = number
    · rw [hn, Function.update_self] at hthread'
      cases hthread'
      have hj : joinable = true := by
        by_contra hj
        exact hphase'' (hjoinable (Bool.eq_false_iff.mpr hj))
      exact ⟨_, hat', rfl, by rw [hn, hj]⟩
    · rw [Function.update_of_ne hn] at hthread'
      have hio' := (h.running_of_held hat hthread' hphase'').2.2
      rw [hio] at hio'
      exact absurd (congrArg StdThread.number (Option.some.inj hio')).symm hn
  · intro number' hn
    rw [hlaunched] at hn
    have hne : number' ≠ number := by
      rintro rfl
      rw [h.fresh number' hn] at hthread
      cases hthread
    rw [hthreads, Function.update_of_ne hne, h.fresh number' hn]
  · rw [hterminated, h.notTerminated]

/-- A running connector is stopped and joined. -/
theorem Inv.stopOne (h : Inv s) (hat : s.connectors[exchange]? = some info) :
    Inv (s.stopOne (exchange, info)) := by
  rw [State.stopOne]
  split
  · rename_i hrunning
    obtain ⟨number, phase, hio, hthread, -⟩ := h.held_of_running hat hrunning
    have hjoin : s.joinThread info = { s with
        threads := Function.update s.threads number
          (some ⟨exchange, info.id, .finished⟩) } := by
      rw [State.joinThread, hio]
      simp only [hthread, Option.map_some]
    have hhalted : info.halted = ⟨info.id, some ⟨number, false⟩, false⟩ := by
      rw [ConnectorInfo.halted, hio]
      rfl
    rw [hjoin, hhalted]
    exact h.advance hat hio hthread (fun other ho => getElem?_insert_of_ne ho)
      Std.TreeMap.getElem?_insert_self rfl (by simp) (fun _ => rfl) rfl rfl
  · exact h

/-- A joined connector is erased. -/
theorem Inv.erase (h : Inv s) (hat : s.connectors[exchange]? = some info)
    (hjoined : info.joinable = false) :
    Inv { s.destroyThread info with connectors := s.connectors.erase exchange } := by
  apply h.update exchange
  · exact fun other ho => getElem?_erase_of_ne ho
  · exact fun _ _ _ _ _ => Iff.rfl
  · intro info' hat'
    cases hat'.symm.trans Std.TreeMap.getElem?_erase_self
  · intro number id phase hthread hphase
    have hio := (h.running_of_held hat hthread hphase).2.2
    rw [ConnectorInfo.joinable, hio] at hjoined
    cases hjoined
  · exact h.fresh
  · show (s.terminated || info.joinable) = false
    rw [h.notTerminated, hjoined]
    rfl

theorem Inv.addExchange (h : Inv s) (exchange : Exchange) : Inv (s.addExchange exchange).1 := by
  rw [State.addExchange]
  split
  · exact h
  · rename_i hcontains
    have hfree : s.connectors[exchange]? = none := Std.TreeMap.getElem?_eq_none hcontains
    split
    · exact h
    · apply h.update exchange
      · exact fun other ho => getElem?_insert_of_ne ho
      · exact fun _ _ _ _ _ => Iff.rfl
      · intro info hat
        cases hat.symm.trans Std.TreeMap.getElem?_insert_self
        rfl
      · intro number id phase hthread hphase
        obtain ⟨info, hat, -⟩ := h.held number exchange id phase hthread hphase
        rw [hfree] at hat
        cases hat
      · exact h.fresh
      · exact h.notTerminated

theorem Inv.runReturns (h : Inv s) {thread : IoThread} (hthread : s.threads number = some thread)
    (hphase : thread.phase = .running) : Inv (s.runReturns number) := by
  obtain ⟨exchange, id, phase⟩ := thread
  cases hphase
  obtain ⟨info, hat, rfl, hio⟩ := h.held number exchange id _ hthread nofun
  have hrunning := (h.running_of_held hat hthread nofun).1
  have hat' : (s.runReturns number).connectors[exchange]? =
      some ⟨info.id, some ⟨number, true⟩, info.running⟩ := by
    rw [← hio]
    exact hat
  have hthreads : (s.runReturns number).threads =
      Function.update s.threads number (some ⟨exchange, info.id, .returned⟩) := by
    rw [State.runReturns, hthread]
    rfl
  exact h.advance hat hio hthread (fun _ _ => rfl) hat' hthreads (iff_of_true hrunning nofun)
    nofun rfl rfl

theorem Inv.storeRunning (h : Inv s) {thread : IoThread} (hthread : s.threads number = some thread)
    (hphase : thread.phase = .returned) : Inv (s.storeRunning number) := by
  obtain ⟨exchange, id, phase⟩ := thread
  cases hphase
  obtain ⟨info, hat, rfl, hio⟩ := h.held number exchange id _ hthread nofun
  have hinfo : s.infoOf ⟨exchange, info.id, .returned⟩ = some info := by
    rw [State.infoOf, hat]
    simp
  have hat' : (s.connectors.insert exchange { info with running := false })[exchange]? =
      some ⟨info.id, some ⟨number, true⟩, false⟩ := by
    rw [← hio]
    exact Std.TreeMap.getElem?_insert_self
  simp only [State.storeRunning, hthread, hinfo]
  exact h.advance hat hio hthread (fun other ho => getElem?_insert_of_ne ho) hat' rfl (by simp)
    nofun rfl rfl

end Update

section Loops

variable {s : State} {exchange : Exchange} {info : ConnectorInfo}
  {l : List (Exchange × ConnectorInfo)}

theorem connectors_stopOne_of_ne (s : State) (e : Exchange × ConnectorInfo) {other : Exchange}
    (h : other ≠ e.1) : (s.stopOne e).connectors[other]? = s.connectors[other]? := by
  rw [State.stopOne]
  split
  · exact getElem?_insert_of_ne h
  · rfl

@[simp] theorem terminated_joinThread (s : State) (info : ConnectorInfo) :
    (s.joinThread info).terminated = s.terminated := by
  unfold State.joinThread
  split <;> rfl

@[simp] theorem terminated_stopOne (s : State) (e : Exchange × ConnectorInfo) :
    (s.stopOne e).terminated = s.terminated := by
  rw [State.stopOne]
  split
  · exact terminated_joinThread s e.2
  · rfl

theorem joinable_halted (info : ConnectorInfo) : info.halted.joinable = false := by
  cases hio : info.ioThread <;> simp [ConnectorInfo.halted, ConnectorInfo.joinable, hio]

/-- `stop_all` stops the connectors one by one. -/
theorem Inv.stopAll (h : Inv s) : Inv s.stopAll :=
  foldl_entries State.connectors (distinct_entries s.connectors)
    (fun _ _ _ hr hat => hr.stopOne hat)
    (fun r e _ ho => connectors_stopOne_of_ne r e ho) h
    fun _ he => mem_entries.mp he

theorem connectors_foldl_stopOne (s : State) (h : ∀ e ∈ l, exchange ≠ e.1) :
    (l.foldl State.stopOne s).connectors[exchange]? = s.connectors[exchange]? := by
  induction l generalizing s with
  | nil => rfl
  | cons e l ih =>
    rw [List.foldl_cons, ih _ fun e' he' => h e' (List.mem_cons_of_mem e he')]
    exact connectors_stopOne_of_ne s e (h e List.mem_cons_self)

/-- What `stop_all` leaves of each connector. -/
theorem connectors_stopAll (s : State) (exchange : Exchange) :
    s.stopAll.connectors[exchange]? =
      s.connectors[exchange]?.map fun info => if info.running then info.halted else info := by
  cases hat : s.connectors[exchange]? with
  | none =>
    refine (connectors_foldl_stopOne s fun e he heq => ?_).trans hat
    rw [heq, mem_entries.mp he] at hat
    cases hat
  | some info =>
    obtain ⟨before, after, hl⟩ := List.append_of_mem
      (mem_entries.mpr hat)
    have hdistinct := distinct_entries s.connectors
    rw [hl, List.pairwise_append, List.pairwise_cons] at hdistinct
    obtain ⟨-, ⟨hafter, -⟩, hbefore⟩ := hdistinct
    rw [State.stopAll, hl, List.foldl_append, List.foldl_cons,
      connectors_foldl_stopOne _ fun e he => hafter e he, State.stopOne, Option.map_some]
    split
    · exact Std.TreeMap.getElem?_insert_self
    · rw [connectors_foldl_stopOne s fun e he => (hbefore e he _ List.mem_cons_self).symm, hat]

theorem terminated_stopAll (s : State) : s.stopAll.terminated = s.terminated := by
  have hfold : ∀ (l : List (Exchange × ConnectorInfo)) (s : State),
      (l.foldl State.stopOne s).terminated = s.terminated := by
    intro l
    induction l with
    | nil => exact fun _ => rfl
    | cons e l ih => exact fun s => (ih _).trans (terminated_stopOne s e)
  exact hfold _ s

/-- The starts terminate the program when they replace a joinable thread. -/
theorem terminated_startAll (s : State) (connects : Exchange → Bool) :
    (s.startAll connects).1.terminated = (s.terminated || s.connectors.toList.any fun e =>
      !e.2.running && connects e.1 && e.2.joinable) := by
  have hfold : ∀ (l : List (Exchange × ConnectorInfo)) (r : State × Bool),
      (l.foldl (State.startOne connects) r).1.terminated = (r.1.terminated || l.any fun e =>
        !e.2.running && connects e.1 && e.2.joinable) := by
    intro l
    induction l with
    | nil => simp
    | cons e l ih =>
      intro r
      rw [List.foldl_cons, ih, List.any_cons, State.startOne]
      cases e.2.running <;> cases connects e.1 <;>
        simp [State.launch, State.destroyThread, Bool.or_assoc]
  exact hfold _ (s, true)

/-- The destruction of the map terminates the program when it holds a joinable thread. -/
theorem foldl_destroyThread (s : State) (l : List (Exchange × ConnectorInfo)) :
    l.foldl (fun s e => s.destroyThread e.2) s =
      { s with terminated := s.terminated || l.any fun e => e.2.joinable } := by
  induction l generalizing s with
  | nil => simp
  | cons e l ih =>
    rw [List.foldl_cons, ih]
    simp [State.destroyThread, Bool.or_assoc]

end Loops

section Step

variable {s : State} {e : Event}

/-- An event terminates the program exactly when it meets a connector whose thread
ended on its own. -/
theorem terminated_next_iff (h : s.terminated = false) :
    (s.next e).terminated = false ↔ MeetsJoined s e := by
  cases e with
  | addExchange exchange =>
    refine iff_of_true ?_ trivial
    simp only [State.next, State.addExchange]
    split
    · exact h
    · split <;> exact h
  | removeExchange exchange =>
    simp only [State.next, State.removeExchange, MeetsJoined]
    cases hat : s.connectors[exchange]? with
    | none => exact iff_of_true h nofun
    | some info =>
      simp only [State.destroyThread, terminated_stopOne, h, Bool.false_or, Option.some.injEq,
        forall_eq', ConnectorInfo.Joined]
      cases info.running <;> simp [joinable_halted]
  | startAll connects =>
    simp only [State.next, terminated_startAll, h, Bool.false_or, any_entries, MeetsJoined]
    refine forall_congr' fun exchange => forall_congr' fun info => forall_congr' fun _ => ?_
    unfold ConnectorInfo.Joined
    cases info.running <;> cases connects exchange <;> simp
  | start exchange connects =>
    simp only [State.next, State.start, MeetsJoined]
    cases hat : s.connectors[exchange]? with
    | none => exact iff_of_true h nofun
    | some info =>
      simp only [Option.some.injEq, forall_eq', ConnectorInfo.Joined]
      cases info.running <;> cases connects <;> simp [State.launch, State.destroyThread, h]
  | stopAll => exact iff_of_true ((terminated_stopAll s).trans h) trivial
  | stop exchange =>
    refine iff_of_true ?_ trivial
    simp only [State.next, State.stop]
    split
    · exact h
    · rw [terminated_stopOne, h]
  | destroy =>
    simp only [State.next, State.destroy, foldl_destroyThread, terminated_stopAll, h,
      Bool.false_or, any_entries, connectors_stopAll, MeetsJoined, ConnectorInfo.Joined]
    refine forall_congr' fun exchange => ?_
    cases s.connectors[exchange]? with
    | none => simp
    | some info =>
      simp only [Option.map_some, Option.some.injEq, forall_eq']
      cases info.running <;> simp [joinable_halted]
  | runReturns number => exact iff_of_true h trivial
  | storeRunning number =>
    refine iff_of_true ?_ trivial
    simp only [State.next, State.storeRunning]
    split <;> exact h

theorem Inv.startAll (h : Inv s) (connects : Exchange → Bool)
    (hcond : MeetsJoined s (.startAll connects)) : Inv (s.startAll connects).1 := by
  refine foldl_entries (P := fun r => Inv r.1) (fun r : State × Bool => r.1.connectors)
    (distinct_entries s.connectors) ?_ ?_ h
    fun _ he => mem_entries.mp he
  · rintro r ⟨exchange, info⟩ he hr hat
    have hjoined := hcond exchange info (mem_entries.mp he)
    rw [State.startOne]
    cases hrunning : info.running with
    | true => exact hr
    | false =>
      cases hconnects : connects exchange with
      | false => exact hr
      | true => exact hr.launch hat hrunning (hjoined hconnects hrunning)
  · intro r e other ho
    rw [State.startOne]
    split
    · rfl
    · split
      · rfl
      · exact getElem?_insert_of_ne ho

/-- The destruction leaves no thread that is not at its end. -/
theorem Inv.destroy (h : Inv s) (hcond : MeetsJoined s .destroy) : Inv s.destroy := by
  have hterminated := (terminated_next_iff h.notTerminated).mpr hcond
  have hstop := h.stopAll
  have hthreads : s.destroy.threads = s.stopAll.threads := by
    rw [State.destroy, foldl_destroyThread]
  have hlaunched : s.destroy.launched = s.stopAll.launched := by
    rw [State.destroy, foldl_destroyThread]
  refine ⟨fun exchange info hat => ?_, fun number exchange id phase hthread hphase => ?_,
    fun number hn => ?_, hterminated⟩
  · rw [show s.destroy.connectors = ∅ from rfl] at hat
    simp at hat
  · rw [hthreads] at hthread
    obtain ⟨info, hat, -, hio⟩ := hstop.held number exchange id phase hthread hphase
    have hjoinable : info.joinable = true := by rw [ConnectorInfo.joinable, hio]
    rw [connectors_stopAll] at hat
    obtain ⟨info', hat', rfl⟩ := Option.map_eq_some_iff.mp hat
    cases hrunning : info'.running with
    | true => simp [hrunning, joinable_halted] at hjoinable
    | false => simp [hrunning, hcond exchange info' hat' hrunning] at hjoinable
  · rw [hthreads]
    exact hstop.fresh number (hlaunched ▸ hn)

theorem Inv.removeExchange (h : Inv s) {exchange : Exchange}
    (hcond : MeetsJoined s (.removeExchange exchange)) : Inv (s.removeExchange exchange).1 := by
  rw [State.removeExchange]
  split
  · exact h
  · rename_i info hat
    apply (h.stopOne hat).erase
    · rw [State.stopOne]
      cases info.running with
      | true => exact Std.TreeMap.getElem?_insert_self
      | false => exact hat
    · cases hrunning : info.running with
      | true => exact joinable_halted info
      | false => exact hcond info hat hrunning

/-- An event that meets only joined connectors keeps the invariant. -/
theorem Inv.step (h : Inv s) (henabled : s.Enabled e) (hcond : MeetsJoined s e) :
    Inv (s.next e) := by
  cases e with
  | addExchange exchange => exact h.addExchange exchange
  | removeExchange exchange => exact h.removeExchange hcond
  | startAll connects => exact h.startAll connects hcond
  | start exchange connects =>
    simp only [State.next, State.start]
    split
    · exact h
    · rename_i info hat
      cases hrunning : info.running with
      | true => exact h
      | false =>
        cases connects with
        | false => exact h
        | true => exact h.launch hat hrunning (hcond info hat rfl hrunning)
  | stopAll => exact h.stopAll
  | stop exchange =>
    simp only [State.next, State.stop]
    split
    · exact h
    · rename_i hat
      exact h.stopOne hat
  | destroy => exact h.destroy hcond
  | runReturns number =>
    obtain ⟨thread, hthread, hphase⟩ := Option.map_eq_some_iff.mp henabled.2
    exact h.runReturns hthread hphase
  | storeRunning number =>
    obtain ⟨thread, hthread, hphase⟩ := Option.map_eq_some_iff.mp henabled.2
    exact h.storeRunning hthread hphase

/-- A thread that runs on finds its information. -/
theorem Inv.infoOf_isSome (h : Inv s) (henabled : s.Enabled e) {number : Nat} {thread : IoThread}
    (hnumber : e.thread = some number) (hthread : s.threads number = some thread) :
    (s.infoOf thread).isSome := by
  have hphase : thread.phase ≠ .finished := by
    intro hphase
    cases e with
    | runReturns | storeRunning =>
      cases hnumber
      have hmoving := henabled.2
      rw [hthread, Option.map_some, hphase] at hmoving
      cases hmoving
    | _ => cases hnumber
  obtain ⟨exchange, id, phase⟩ := thread
  obtain ⟨info, hat, hid, -⟩ := h.held number exchange id phase hthread hphase
  rw [State.infoOf, hat]
  simp [hid]

theorem inv_construct : Inv construct where
  holds exchange info hat := by
    rw [show construct.connectors = ∅ from rfl] at hat
    simp at hat
  held := nofun
  fresh _ _ := rfl
  notTerminated := rfl

/-- In every run, no joinable thread is lost and no thread misses its information,
exactly as long as starts, removals and the destruction meet no connector whose
thread ended on its own. -/
theorem owned_iff_meetsJoined {tr : List (Event × State)} (h : IsRun State.Step construct tr) :
    Always Owned construct tr ↔ Guarded MeetsJoined construct tr := by
  refine h.always_iff_guarded Inv ?_ ?_ inv_construct
  · rintro s e _ hs hcond ⟨henabled, rfl⟩
    refine ⟨hs.step henabled hcond, (terminated_next_iff hs.notTerminated).mpr hcond, ?_⟩
    exact fun number thread hnumber hthread => hs.infoOf_isSome henabled hnumber hthread
  · rintro s e _ hs hcond ⟨-, rfl⟩ howned
    exact hcond ((terminated_next_iff hs.notTerminated).mp howned.1)

/-- A connector whose connection fails ends its run loop before the manager is
destroyed. -/
def failedConnection : List Event :=
  [.addExchange .binance, .start .binance true, .runReturns 0, .storeRunning 0, .destroy]

theorem owned_iff_meetsJoined_failedConnection :
    Always Owned construct (runOf State.next construct failedConnection) ↔
      Guarded MeetsJoined construct (runOf State.next construct failedConnection) :=
  owned_iff_meetsJoined (isRun_runOf_of_enabled (by decide +kernel))

/-- The destructor finds the connector not running, skips the join and destroys the
joinable thread. -/
theorem failedConnection_terminates :
    IsRun State.Step construct (runOf State.next construct failedConnection) ∧
      ¬ Always Owned construct (runOf State.next construct failedConnection) := by
  refine ⟨isRun_runOf_of_enabled (by decide +kernel), fun h => ?_⟩
  have hterminated : Throughout (fun t : State => t.terminated = false) _ _ :=
    Always.mono h fun _ _ _ howned => howned.1
  have hlast := hterminated.last rfl
  rw [lastState_runOf] at hlast
  revert hlast
  decide +kernel

end Step

end OrderbookEngine.ConnectionManager
