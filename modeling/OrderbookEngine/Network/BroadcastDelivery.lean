import OrderbookEngine.Network.SessionSet
import OrderbookEngine.Network.SessionWrites

/-!
# Delivery of the broadcasts

The queue of a session takes every message that is broadcast while the session is in the set,
and hands them to `async_write` in their order. Only `stop` takes a session out of the set.
-/

namespace OrderbookEngine

open Transition

namespace WebSocketSession

variable {s : WebSocketSession} {h : Completion} {sent more : List StdString}

/-- Of the messages sent since the session was registered, the first were handed to
`async_write` or wait behind the front of its queue, and these are all as long as it is
registered. -/
structure Receives (sent : List StdString) (s : WebSocketSession) : Prop where
  pending : written s.issued ++ s.writeQueue.tail = s.queued
  inOrder : s.queued <+: sent
  all : s.registered = true → s.queued = sent

/-- What every step keeps of the messages sent. -/
structure Takes (sent : List StdString) (s : WebSocketSession) : Prop where
  queue : Queue s
  inOrder : s.queued <+: sent
  all : s.registered = true → s.queued = sent

theorem Takes.receives (ht : Takes sent s) : Receives sent s where
  pending := by
    obtain ⟨done, hqueued, hissued⟩ := ht.queue.issued
    rw [hissued, hqueued, List.append_assoc, ← List.drop_one, List.take_append_drop]
  inOrder := ht.inOrder
  all := ht.all

@[simp] theorem queued_send (message : StdString) :
    (s.send message).queued = s.queued ++ [message] := by
  rw [send]
  split <;> rfl

@[simp] theorem queued_onWrite (ok : Bool) : (s.onWrite ok).queued = s.queued := by
  rw [onWrite]
  split
  · rfl
  · split <;> rfl

/-- No handler of a session queues a message. -/
@[simp] theorem queued_complete (s : WebSocketSession) (h : Completion) :
    (s.next h.event).queued = s.queued := by
  cases h with
  | onAccept ok timestamp => cases ok <;> rfl
  | onRead r =>
    cases r with
    | closed | error => rfl
    | message text =>
      simp only [Completion.event, next, onRead]
      split <;> rfl
  | onComplete w ok =>
    cases w with
    | welcome timestamp => cases ok <;> rfl
    | pong => rfl
    | queued message => exact queued_onWrite ok

theorem Takes.complete (ht : Takes sent s) (henabled : s.Enabled h.event) :
    Takes sent (s.next h.event) where
  queue := ht.queue.next henabled
  inOrder := (queued_complete s h).symm ▸ ht.inOrder
  all hregistered := by
    rw [registered_complete] at hregistered
    exact (queued_complete s h).trans (ht.all hregistered)

theorem Takes.send (ht : Takes sent s) (hregistered : s.registered = true) (message : StdString) :
    Takes (sent ++ [message]) (s.send message) := by
  have hqueued : (s.send message).queued = sent ++ [message] := by
    rw [queued_send, ht.all hregistered]
  exact ⟨ht.queue.send message, hqueued ▸ List.prefix_rfl, fun _ => hqueued⟩

/-- A session out of the set is sent nothing. -/
theorem Takes.miss (ht : Takes sent s) (hregistered : s.registered = false) :
    Takes (sent ++ more) s where
  queue := ht.queue
  inOrder := ht.inOrder.trans (List.prefix_append sent more)
  all hstill := absurd (hregistered.symm.trans hstill) Bool.false_ne_true

theorem Takes.erase (ht : Takes sent s) : Takes sent { s with registered := false } where
  queue := ht.queue.of_eq rfl rfl rfl (List.Sublist.refl _)
  inOrder := ht.inOrder
  all hregistered := absurd hregistered Bool.false_ne_true

/-- The writes that are given up were handed over. -/
theorem Takes.dropHandlers (ht : Takes sent s) : Takes sent s.dropHandlers where
  queue := ht.queue.of_eq rfl rfl rfl (List.nil_sublist _)
  inOrder := ht.inOrder
  all := ht.all

theorem takes_added : Takes [] ((construct.next .addSession).next .run) where
  queue := (queue_construct.next (e := .addSession) rfl).next (e := .run) ⟨rfl, rfl⟩
  inOrder := List.prefix_rfl
  all _ := rfl

end WebSocketSession

namespace FrontendWebSocketServer

open WebSocketSession

variable {closes : WebSocketSession → Bool} {s t : FrontendWebSocketServer} {e : Event}
  {i j : Nat} {f : Client → Client} {holds : Client → Bool} {sent : List StdString}

/-- The messages that an event sends to the sessions of the set. -/
def messages (s : FrontendWebSocketServer) : Event → List StdString
  | .broadcast message => if s.running then [message] else []
  | .onAccept _ | .complete _ _ | .stop | .closeSessions | .stopContext | .destroyContext _ => []

/-- The session at a place took what was sent since it was made. -/
def Serves (i : Nat) (sent : List StdString) (s : FrontendWebSocketServer) : Prop :=
  ∃ c ∈ s.clients[i]?, c.session.Takes sent

theorem Serves.of_clients (hs : Serves i sent s) (hclients : t.clients = s.clients) :
    Serves i sent t := by
  rwa [Serves, hclients]

theorem Serves.update (hs : Serves i sent s)
    (hf : ∀ c ∈ s.clients[j]?, c.session.Takes sent → (f c).session.Takes sent) :
    Serves i sent (s.update j f) := by
  obtain ⟨c, hc, htakes⟩ := hs
  by_cases hij : j = i
  · subst hij
    exact ⟨f c, getElem?_update hc, hf c hc htakes⟩
  · exact ⟨c, (List.getElem?_modify_ne f _ hij).trans hc, htakes⟩

theorem Serves.release (hs : Serves i sent s) : Serves i sent (s.release j) := by
  obtain hsame | hdestroyed := s.release_cases j
  · rwa [hsame]
  · rw [hdestroyed]
    exact hs

theorem Serves.dropAll (hs : Serves i sent s)
    (hf : ∀ c : Client, c.session.Takes sent → (f c).session.Takes sent) :
    Serves i sent (s.dropAll holds f) := by
  rw [FrontendWebSocketServer.dropAll]
  generalize List.range s.clients.length = order
  induction order generalizing s with
  | nil => exact hs
  | cons j order ih =>
    refine ih (s := s.drop holds f j) ?_
    rw [drop]
    split
    · exact (hs.update fun c _ => hf c).release
    · exact hs

theorem Serves.clear (hs : Serves i sent s) : Serves i sent s.clear :=
  hs.dropAll fun _ htakes => htakes.erase

theorem Serves.abandon (hs : Serves i sent s) : Serves i sent s.abandon :=
  (hs.dropAll fun _ htakes => htakes.dropHandlers).of_clients rfl

theorem Serves.destroyContext (hs : Serves i sent s) (withServer : Bool) :
    Serves i sent (s.destroyContext withServer) := by
  cases withServer with
  | false => exact hs.abandon.of_clients rfl
  | true => exact hs.clear.abandon.of_clients rfl

/-- The session of a new client. -/
def accepted : Client := ⟨(construct.next .addSession).next .run, true⟩

theorem clients_doAccept : s.doAccept.clients = s.clients := by
  rw [doAccept]
  split <;> rfl

theorem clients_onAccept (ok : Bool) :
    (s.onAccept ok).clients = s.clients ++ if ok then [accepted] else [] := by
  rw [FrontendWebSocketServer.onAccept, clients_doAccept]
  cases ok with
  | false => exact (List.append_nil s.clients).symm
  | true => exact modify_concat s.clients _ _

/-- A connection that is accepted later changes nothing. -/
theorem Serves.onAccept (hs : Serves i sent s) (ok : Bool) : Serves i sent (s.onAccept ok) := by
  obtain ⟨c, hc, htakes⟩ := hs
  refine ⟨c, ?_, htakes⟩
  rw [clients_onAccept, List.getElem?_append_left (List.getElem?_eq_some_iff.mp hc).1]
  exact hc

theorem Serves.broadcast (hs : Serves i sent s) (message : StdString) :
    Serves i (sent ++ s.messages (.broadcast message)) (s.broadcast message) := by
  simp only [messages, FrontendWebSocketServer.broadcast]
  cases hrunning : s.running with
  | false => simpa using hs
  | true =>
    obtain ⟨c, hc, htakes⟩ := hs
    refine ⟨c.send message, ?_, ?_⟩
    · simp [unlock, lock, Option.mem_def.mp hc]
    · rw [Client.send]
      cases hregistered : c.session.registered with
      | false => exact htakes.miss hregistered
      | true => exact htakes.send hregistered message

theorem Serves.next (hs : Serves i sent s) (henabled : s.Enabled e) :
    Serves i (sent ++ s.messages e) (s.next closes e) := by
  cases e with
  | onAccept ok => exact (List.append_nil sent).symm ▸ hs.onAccept ok
  | complete j h =>
    obtain ⟨-, -, -, c, hget, henabled⟩ := henabled
    refine (List.append_nil sent).symm ▸ (hs.update fun c' hc' htakes => ?_).release
    obtain rfl := Option.some.inj (Option.mem_def.mp hget ▸ Option.mem_def.mp hc')
    exact htakes.complete henabled
  | broadcast message => exact hs.broadcast message
  | stop =>
    have hstop : s.stop.clients = s.clients := by
      rw [FrontendWebSocketServer.stop]
      split <;> rfl
    exact (List.append_nil sent).symm ▸ hs.of_clients hstop
  | closeSessions =>
    have hclosed :
        Serves i sent { s.lock with clients := s.clients.map (Client.close closes) } := by
      obtain ⟨c, hc, htakes⟩ := hs
      refine ⟨c.close closes, by simp [Option.mem_def.mp hc], ?_⟩
      rwa [Client.close_session]
    exact (List.append_nil sent).symm ▸ hclosed.clear
  | stopContext => exact (List.append_nil sent).symm ▸ hs
  | destroyContext withServer => exact (List.append_nil sent).symm ▸ hs.destroyContext withServer

/-- A connection that is accepted gets a session of its own, which was sent nothing. -/
theorem serves_added (s : FrontendWebSocketServer) :
    Serves s.clients.length [] (s.next closes (.onAccept true)) := by
  refine ⟨accepted, ?_, takes_added⟩
  simp only [FrontendWebSocketServer.next, clients_onAccept, if_true]
  exact List.getElem?_concat_length

/-- In every run, a session takes what is sent. -/
theorem Serves.run {tr : List (Event × FrontendWebSocketServer)}
    (hrun : IsRun (Step closes) s tr) (hs : Serves i sent s) :
    Serves i (sent ++ outputs messages s tr) (lastState s tr) := by
  refine hrun.outputs_invariant (Serves i) ?_ hs
  rintro past s e t hs ⟨henabled, rfl⟩
  exact hs.next henabled

/-- `stop` has not come to the sessions, and all that were made are in the set. -/
structure BeforeClose (s : FrontendWebSocketServer) : Prop where
  registered : ∀ c ∈ s.clients, c.session.registered = true
  stopping : s.stopping = .idle ∨ s.stopping = .closing

theorem beforeClose_started : BeforeClose started := ⟨List.forall_mem_nil _, .inl rfl⟩

theorem stopping_doAccept : s.doAccept.stopping = s.stopping := by
  rw [doAccept]
  split <;> rfl

theorem BeforeClose.onAccept (hs : BeforeClose s) (ok : Bool) : BeforeClose (s.onAccept ok) where
  registered c hmem := by
    rw [clients_onAccept] at hmem
    obtain hold | hnew := List.mem_append.mp hmem
    · exact hs.registered c hold
    · cases ok with
      | false => cases hnew
      | true =>
        obtain rfl := List.mem_singleton.mp hnew
        rfl
  stopping := by
    have hsame : (s.onAccept ok).stopping = s.stopping := by
      rw [FrontendWebSocketServer.onAccept, stopping_doAccept]
      cases ok <;> rfl
    exact hsame.symm ▸ hs.stopping

theorem BeforeClose.complete (hs : BeforeClose s) (j : Nat) (h : Completion) :
    BeforeClose (s.complete j h) := by
  have hupdate : BeforeClose (s.update j fun c => c.complete h) := by
    refine ⟨forall_update hs.registered fun c hc => ?_, hs.stopping⟩
    exact (registered_complete c.session h).trans (hs.registered c (List.mem_of_getElem? hc))
  change BeforeClose ((s.update j fun c => c.complete h).release j)
  obtain hsame | hdestroyed := (s.update j fun c => c.complete h).release_cases j
  · rwa [hsame]
  · rw [hdestroyed]
    exact ⟨hupdate.registered, hupdate.stopping⟩

theorem BeforeClose.broadcast (hs : BeforeClose s) (message : StdString) :
    BeforeClose (s.broadcast message) := by
  rw [FrontendWebSocketServer.broadcast]
  split
  · exact hs
  · refine ⟨fun c hmem => ?_, hs.stopping⟩
    obtain ⟨c₀, hmem₀, rfl⟩ := List.mem_map.mp hmem
    rw [Client.send, if_pos (hs.registered c₀ hmem₀)]
    exact (registered_send message).trans (hs.registered c₀ hmem₀)

theorem BeforeClose.stop (hs : BeforeClose s) : BeforeClose s.stop := by
  rw [FrontendWebSocketServer.stop]
  split
  · exact ⟨hs.registered, .inr rfl⟩
  · exact hs

/-- The `io_context` is stopped and destroyed after the sessions are closed. -/
theorem BeforeClose.next (hs : BeforeClose s) (henabled : s.Enabled e)
    (he : e ≠ .closeSessions) : BeforeClose (s.next closes e) := by
  cases e with
  | onAccept ok => exact hs.onAccept ok
  | complete j h => exact hs.complete j h
  | broadcast message => exact hs.broadcast message
  | stop => exact hs.stop
  | closeSessions => exact absurd rfl he
  | stopContext =>
    obtain ⟨-, -, hstopping⟩ := henabled
    obtain hidle | hclosing := hs.stopping
    · cases hstopping.symm.trans hidle
    · cases hstopping.symm.trans hclosing
  | destroyContext withServer =>
    obtain ⟨-, -, hstopping⟩ := henabled
    obtain hidle | hclosing := hs.stopping
    · cases hstopping.symm.trans hidle
    · cases hstopping.symm.trans hclosing

/-- Only `stop` takes a session out of the set. -/
theorem beforeClose_throughout {tr : List (Event × FrontendWebSocketServer)}
    (hrun : IsRun (Step closes) started tr)
    (hopen : Guarded (fun _ e => e ≠ .closeSessions) started tr) :
    Throughout BeforeClose started tr := by
  refine hrun.invariant BeforeClose ?_ hopen beforeClose_started
  rintro s e t hs he ⟨henabled, rfl⟩
  exact hs.next henabled he

/-- In every run, the session of a client takes the messages broadcast since it connected, in
their order and each once, until `stop` closes the sessions; and it hands them to `async_write`
in that order. -/
theorem delivered_inOrder {tr tr' : List (Event × FrontendWebSocketServer)}
    (hrun : IsRun (Step closes) started (tr ++ (.onAccept true, t) :: tr')) :
    ∃ c ∈ (lastState t tr').clients[(lastState started tr).clients.length]?,
      c.session.Receives (outputs messages t tr') ∧
        (Guarded (fun _ e => e ≠ .closeSessions) started (tr ++ (.onAccept true, t) :: tr') →
          c.session.queued = outputs messages t tr') := by
  obtain ⟨-, ⟨-, rfl⟩, hrest⟩ := isRun_append.mp hrun
  obtain ⟨c, hc, htakes⟩ := (serves_added (lastState started tr)).run hrest
  rw [List.nil_append] at htakes
  refine ⟨c, hc, htakes.receives, fun hopen => htakes.all ?_⟩
  have hbefore := (beforeClose_throughout hrun hopen).last beforeClose_started
  rw [lastState_append] at hbefore
  exact hbefore.registered c (List.mem_of_getElem? hc)

/-- A client that is served before the second one connects. -/
def earlyClient : List Event :=
  [.onAccept true, .complete 0 (.onAccept true 0), .complete 0 (.onComplete (.welcome 0) true),
    .broadcast (lit "one")]

/-- The second client is sent two messages, and the write of the first of them is done. -/
def lateClient : List Event :=
  [.complete 1 (.onAccept true 0), .complete 1 (.onComplete (.welcome 0) true),
    .broadcast (lit "two"), .broadcast (lit "three"),
    .complete 1 (.onComplete (.queued (lit "two")) true)]

theorem delivered_inOrder_lateClient :
    ∃ c ∈ ((earlyClient ++ .onAccept true :: lateClient).foldl (next closesAccepted)
        started).clients[1]?, c.session.Receives [lit "two", lit "three"] := by
  have hrun : IsRun (Step closesAccepted) started
      (runOf (next closesAccepted) started (earlyClient ++ .onAccept true :: lateClient)) :=
    isRun_runOf_of_enabled (by decide +kernel)
  rw [runOf_append] at hrun
  obtain ⟨c, hc, hreceives, -⟩ := delivered_inOrder hrun
  rw [lastState_runOf, lastState_runOf] at hc
  refine ⟨c, ?_, ?_⟩
  · rwa [List.foldl_append]
  · exact hreceives

end FrontendWebSocketServer

end OrderbookEngine
