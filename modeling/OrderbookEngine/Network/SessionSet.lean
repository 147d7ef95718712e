import OrderbookEngine.Network.FrontendServer

/-!
# The session set and the open connections

A connection that ends leaves its session in the set, and a session that is destroyed
asks for an owner when it has none. The set is that of the open connections exactly in
the runs where connections end through `stop` alone, each of their sessions keeps a
handler, and none is left when the `io_context` goes.
-/

namespace OrderbookEngine

open Transition

namespace WebSocketSession

variable {s : WebSocketSession} {h : Completion} {w : Write}

/-- One of the handlers that follow each other from the handshake on is waiting. -/
def Served (s : WebSocketSession) : Prop :=
  s.handshake = .accepting ∨ s.reading = true ∨ ∃ w ∈ s.outstanding, w.message? = none

theorem Served.handlers_pos (hs : Served s) : 0 < s.handlers := by
  rw [handlers]
  obtain haccepting | hreading | ⟨w, hmem, -⟩ := hs
  · rw [if_pos haccepting]
    omega
  · rw [if_pos hreading]
    omega
  · have := List.length_pos_of_mem hmem
    omega

theorem served_doRead : Served s.doRead := .inr (.inl rfl)

theorem served_asyncWrite (hw : w.message? = none) : Served (s.asyncWrite w) :=
  .inr (.inr ⟨w, List.mem_append_right _ List.mem_cons_self, hw⟩)

/-- A write of the queue does not take the place of the other handlers. -/
theorem Served.asyncWrite (hs : Served s) (w : Write) : Served (s.asyncWrite w) := by
  obtain haccepting | hreading | ⟨v, hmem, hv⟩ := hs
  · exact .inl haccepting
  · exact .inr (.inl hreading)
  · exact .inr (.inr ⟨v, List.mem_append_left _ hmem, hv⟩)

theorem Served.send (hs : Served s) (message : StdString) : Served (s.send message) := by
  have hqueue : Served { s with
      writeQueue := s.writeQueue ++ [message], queued := s.queued ++ [message] } := hs
  rw [WebSocketSession.send]
  split
  · exact hqueue.asyncWrite _
  · exact hqueue

theorem Served.onWrite (hs : Served s) (ok : Bool) : Served (s.onWrite ok) := by
  rw [WebSocketSession.onWrite]
  split
  · exact hs
  · split
    · exact hs
    · rename_i front rest _
      have hqueue : Served { s with writeQueue := front :: rest } := hs
      exact hqueue.asyncWrite _

/-- As long as the connection is open the handlers follow each other. -/
theorem Served.next (hs : Served s) (henabled : s.Enabled h.event) (hends : h.ends = false) :
    Served (s.next h.event) := by
  cases h with
  | onAccept ok timestamp =>
    obtain rfl : ok = true := by simpa [Completion.ends] using hends
    exact served_asyncWrite rfl
  | onRead r =>
    cases r with
    | closed | error => cases hends
    | message text =>
      simp only [Completion.event, WebSocketSession.next, onRead]
      split
      · exact served_asyncWrite rfl
      · exact served_doRead
  | onComplete w ok =>
    obtain rfl : ok = true := by simpa [Completion.ends] using hends
    cases w with
    | welcome timestamp | pong => exact served_doRead
    | queued message =>
      refine Served.onWrite ?_ true
      obtain haccepting | hreading | ⟨v, hmem, hv⟩ := hs
      · exact .inl haccepting
      · exact .inr (.inl hreading)
      · refine .inr (.inr ⟨v, (List.mem_erase_of_ne ?_).mpr hmem, hv⟩)
        rintro rfl
        cases hv

@[simp] theorem registered_asyncWrite : (s.asyncWrite w).registered = s.registered := rfl

@[simp] theorem registered_send (message : StdString) :
    (s.send message).registered = s.registered := by
  rw [send]
  split <;> rfl

@[simp] theorem registered_onWrite (ok : Bool) : (s.onWrite ok).registered = s.registered := by
  rw [onWrite]
  split
  · rfl
  · split <;> rfl

/-- No handler of a session takes it out of the set. -/
@[simp] theorem registered_complete (s : WebSocketSession) (h : Completion) :
    (s.next h.event).registered = s.registered := by
  cases h with
  | onAccept ok timestamp => cases ok <;> rfl
  | onRead r =>
    cases r with
    | closed | error => rfl
    | message text =>
      simp only [Completion.event, next, onRead]
      split <;> rfl
  | onComplete w ok =>
    cases w with
    | welcome timestamp => cases ok <;> rfl
    | pong => rfl
    | queued message => exact registered_onWrite ok

/-- Two sessions that differ in their writes only. -/
theorem handlers_add_length {t : WebSocketSession} (hhandshake : t.handshake = s.handshake)
    (hreading : t.reading = s.reading) :
    t.handlers + s.outstanding.length = s.handlers + t.outstanding.length := by
  simp only [handlers, hhandshake, hreading]
  omega

theorem handlers_asyncWrite : (s.asyncWrite w).handlers = s.handlers + 1 := by
  have hlength := handlers_add_length (s := s) (t := s.asyncWrite w) rfl rfl
  simp only [asyncWrite, List.length_append, List.length_singleton] at hlength ⊢
  omega

/-- The queue goes on to write when another message waits. -/
theorem handlers_onWrite (s : WebSocketSession) (ok : Bool) :
    (s.onWrite ok).handlers =
      s.handlers + if ok && 1 < s.writeQueue.length then 1 else 0 := by
  cases ok with
  | false => rfl
  | true =>
    cases hqueue : s.writeQueue with
    | nil => simp [onWrite, hqueue, handlers]
    | cons front rest =>
      cases rest with
      | nil => simp [onWrite, hqueue, handlers]
      | cons second rest =>
        simp only [onWrite, hqueue, Bool.not_true, Bool.false_eq_true, if_false, List.tail_cons,
          handlers_asyncWrite]
        simp [handlers]

/-- A handler that goes on leaves the next one waiting. -/
theorem handlers_pos_of_goesOn (hgoes : h.goesOn s = true) :
    0 < (s.next h.event).handlers := by
  cases h with
  | onAccept ok timestamp =>
    obtain rfl : ok = true := hgoes
    exact (served_asyncWrite rfl).handlers_pos
  | onRead r =>
    cases r with
    | closed | error => cases hgoes
    | message text =>
      simp only [Completion.event, next, onRead]
      split
      · exact (served_asyncWrite rfl).handlers_pos
      · exact served_doRead.handlers_pos
  | onComplete w ok =>
    cases w with
    | welcome timestamp =>
      obtain rfl : ok = true := hgoes
      exact served_doRead.handlers_pos
    | pong => exact served_doRead.handlers_pos
    | queued message =>
      have hmore : (ok && decide (1 < s.writeQueue.length)) = true := hgoes
      simp only [Completion.event, next, onComplete, handlers_onWrite, hmore, if_true]
      omega

/-- A handler that does not go on is one less to wait. -/
theorem handlers_of_not_goesOn (henabled : s.Enabled h.event) (hgoes : h.goesOn s = false) :
    (s.next h.event).handlers + 1 = s.handlers := by
  cases h with
  | onAccept ok timestamp =>
    obtain rfl : ok = false := hgoes
    have haccepting : s.handshake = .accepting := henabled
    simp only [Completion.event, next, onAccept, handlers, haccepting, Bool.false_eq_true,
      reduceCtorEq, if_true, if_false]
    omega
  | onRead r =>
    have hreading : s.reading = true := henabled
    cases r with
    | closed | error =>
      by_cases haccepting : s.handshake = .accepting
      · simp [Completion.event, next, onRead, handlers, hreading, haccepting]
        omega
      · simp [Completion.event, next, onRead, handlers, hreading, haccepting]
        omega
    | message text => cases hgoes
  | onComplete w ok =>
    have hmem : w ∈ s.outstanding := henabled
    have herased := List.length_erase_of_mem hmem
    have hpos := List.length_pos_of_mem hmem
    have hlength : ({ s with outstanding := s.outstanding.erase w } : WebSocketSession).handlers +
        s.outstanding.length = s.handlers + (s.outstanding.erase w).length :=
      handlers_add_length rfl rfl
    cases w with
    | welcome timestamp =>
      obtain rfl : ok = false := hgoes
      simp only [Completion.event, next, onComplete, Bool.false_eq_true, if_false]
      omega
    | pong => cases hgoes
    | queued message =>
      have hdone : (ok && decide (1 < s.writeQueue.length)) = false := hgoes
      simp only [Completion.event, next, onComplete, handlers_onWrite, hdone, Bool.false_eq_true,
        if_false]
      omega

/-- A handler is the last one when no other waits and it does not go on. -/
theorem handlers_pos_iff (henabled : s.Enabled h.event) :
    0 < (s.next h.event).handlers ↔ (s.handlers = 1 → h.goesOn s = true) := by
  cases hgoes : h.goesOn s with
  | true => exact iff_of_true (handlers_pos_of_goesOn hgoes) fun _ => rfl
  | false =>
    have hrest := handlers_of_not_goesOn henabled hgoes
    simp only [Bool.false_eq_true, imp_false]
    omega

/-- No handler waits once they are destroyed. -/
theorem handlers_dropHandlers (s : WebSocketSession) : s.dropHandlers.handlers = 0 := by
  by_cases haccepting : s.handshake = .accepting
  · simp [handlers, dropHandlers, haccepting]
  · simp [handlers, dropHandlers, haccepting]

theorem dropHandlers_of_handlers (hnone : s.handlers = 0) : s.dropHandlers = s := by
  obtain ⟨registered, handshake, reading, writeQueue, outstanding, issued, queued⟩ := s
  rw [handlers, Nat.add_eq_zero_iff, Nat.add_eq_zero_iff, List.length_eq_zero_iff] at hnone
  obtain ⟨⟨hhandshake, hread⟩, rfl⟩ := hnone
  have haccepting : handshake ≠ .accepting := by simpa using hhandshake
  have hreading : reading = false := by simpa using hread
  rw [dropHandlers, if_neg haccepting, hreading]

end WebSocketSession

open WebSocketSession (Completion)

namespace Client

variable {c : Client} {h : Completion}

theorem erase_of_not_registered (hregistered : c.session.registered = false) : c.erase = c := by
  rw [erase, ← hregistered]

theorem abandon_of_handlers (hnone : c.session.handlers = 0) : c.abandon = c := by
  rw [abandon, WebSocketSession.dropHandlers_of_handlers hnone]

theorem owners_pos_of_registered (hregistered : c.session.registered = true) : 0 < c.owners := by
  rw [owners, if_pos hregistered]
  exact Nat.succ_pos _

theorem owners_of_not_registered (hregistered : c.session.registered = false) :
    c.owners = c.session.handlers := by
  rw [owners, if_neg (by rw [hregistered]; exact Bool.false_ne_true), Nat.add_zero]

theorem owners_abandon_of_not_registered (hregistered : c.session.registered = false) :
    c.abandon.owners = 0 :=
  (owners_of_not_registered (c := c.abandon) hregistered).trans
    (WebSocketSession.handlers_dropHandlers c.session)

/-- The session is in the set when its connection is open, and is served then. Otherwise a
handler owns it. -/
structure Inv (c : Client) : Prop where
  exact : c.session.registered = c.isOpen
  served : c.session.registered = true → c.session.Served
  owned : 0 < c.owners

theorem Inv.handlers_pos (hc : Inv c) : 0 < c.session.handlers := by
  cases hregistered : c.session.registered with
  | true => exact (hc.served hregistered).handlers_pos
  | false =>
    rw [← owners_of_not_registered hregistered]
    exact hc.owned

theorem Inv.complete (hc : Inv c) (henabled : c.session.Enabled h.event)
    (hends : c.session.registered = true → h.ends = false) (howned : 0 < (c.complete h).owners) :
    Inv (c.complete h) where
  exact := by
    have hexact := hc.exact
    cases hregistered : c.session.registered with
    | true => simp [Client.complete, hregistered, ← hexact, hends hregistered]
    | false => simp [Client.complete, hregistered, ← hexact]
  served hregistered := by
    rw [Client.complete, WebSocketSession.registered_complete] at hregistered
    exact (hc.served hregistered).next henabled (hends hregistered)
  owned := howned

theorem Inv.send (hc : Inv c) (message : StdString) : Inv (c.send message) := by
  rw [Client.send]
  split
  · rename_i hregistered
    have hsame := WebSocketSession.registered_send (s := c.session) message
    exact ⟨hsame.trans hc.exact, fun _ => (hc.served hregistered).send message,
      owners_pos_of_registered (hsame.trans hregistered)⟩
  · exact hc

@[simp] theorem close_session (closes : WebSocketSession → Bool) (c : Client) :
    (c.close closes).session = c.session := by
  rw [close]
  split <;> rfl

/-- The connection of a session of the set after `stop`. -/
theorem Inv.isOpen_close (hc : Inv c) (closes : WebSocketSession → Bool) :
    (c.close closes).isOpen = (c.session.registered && !closes c.session) := by
  rw [close]
  cases hregistered : c.session.registered with
  | true => cases hcloses : closes c.session <;> simp [← hc.exact, hregistered]
  | false => simp [← hc.exact, hregistered]

/-- What is left of the owners when a handler returns. -/
theorem owners_complete_pos_iff (henabled : c.session.Enabled h.event) :
    0 < (c.complete h).owners ↔
      (c.session.registered = false → c.session.handlers = 1 → h.goesOn c.session = true) := by
  have hsame : (c.complete h).session.registered = c.session.registered :=
    WebSocketSession.registered_complete c.session h
  cases hregistered : c.session.registered with
  | true =>
    refine iff_of_true (owners_pos_of_registered (hsame.trans hregistered)) ?_
    exact fun hfalse => absurd hfalse.symm Bool.false_ne_true
  | false =>
    rw [owners_of_not_registered (hsame.trans hregistered)]
    have hiff : 0 < (c.complete h).session.handlers ↔
        (c.session.handlers = 1 → h.goesOn c.session = true) :=
      WebSocketSession.handlers_pos_iff henabled
    simpa using hiff

end Client

namespace FrontendWebSocketServer

variable {closes : WebSocketSession → Bool} {s : FrontendWebSocketServer} {e : Event}
  {i : Nat} {c : Client} {h : Completion} {f : Client → Client} {holds : Client → Bool}

/-- `sessions_` holds exactly the sessions whose connection is open, no thread acquired
`sessions_mutex_` twice, and no session was destroyed that asked for an owner. -/
structure SessionsMatch (s : FrontendWebSocketServer) : Prop where
  exact : ∀ c ∈ s.clients, c.session.registered = c.isOpen
  count : s.getConnectionCount = s.clients.countP Client.isOpen
  unlocked : s.relocked = false
  owned : s.terminated = false

/-- The connection of a session in the set does not end by itself, a session out of the
set keeps a handler, and `stop` closes each connection. When the `io_context` goes, each
session is in the set; when it goes with the server, there is none. -/
def Orderly (closes : WebSocketSession → Bool) (s : FrontendWebSocketServer) : Event → Prop
  | .complete i h => ∀ c ∈ s.clients[i]?,
      if c.session.registered then h.ends = false
      else c.session.handlers = 1 → h.goesOn c.session = true
  | .closeSessions => ∀ c ∈ s.clients, c.session.registered = true → closes c.session = true
  | .destroyContext withServer =>
    ∀ c ∈ s.clients, c.session.registered = true ∧ withServer = false
  | .onAccept _ | .broadcast _ | .stop | .stopContext => True

instance decidableOrderly (closes : WebSocketSession → Bool) (s : FrontendWebSocketServer) :
    ∀ e, Decidable (s.Orderly closes e)
  | .complete i h => inferInstanceAs (Decidable (∀ c ∈ s.clients[i]?,
      if c.session.registered then h.ends = false
      else c.session.handlers = 1 → h.goesOn c.session = true))
  | .closeSessions => inferInstanceAs (Decidable
      (∀ c ∈ s.clients, c.session.registered = true → closes c.session = true))
  | .destroyContext withServer => inferInstanceAs (Decidable
      (∀ c ∈ s.clients, c.session.registered = true ∧ withServer = false))
  | .onAccept _ | .broadcast _ | .stop | .stopContext => isTrue trivial

/-- What every orderly run keeps as long as the `io_context` is there. -/
structure Inv (s : FrontendWebSocketServer) : Prop where
  clients : ∀ c ∈ s.clients, c.Inv
  owned : s.terminated = false

section Release

/-- What holds of a client holds of all that stand at its place. -/
theorem forall_at {P : Client → Prop} (hget : s.clients[i]? = some c) (hc : P c) :
    ∀ c' ∈ s.clients[i]?, P c' := by
  rw [hget]
  rintro _ ⟨⟩
  exact hc

/-- What holds of the other clients and of the new one holds of all. -/
theorem forall_update {P : Client → Prop} (hall : ∀ c ∈ s.clients, P c)
    (hnew : ∀ c ∈ s.clients[i]?, P (f c)) : ∀ c ∈ (s.update i f).clients, P c := by
  intro c hmem
  obtain ⟨j, hj⟩ := List.mem_iff_getElem?.mp hmem
  simp only [update, List.getElem?_modify] at hj
  split at hj
  · rename_i hij
    subst hij
    obtain ⟨c₀, hc₀, rfl⟩ := Option.map_eq_some_iff.mp hj
    exact hnew c₀ hc₀
  · obtain ⟨c₀, hc₀, rfl⟩ := Option.map_eq_some_iff.mp hj
    exact hall c₀ (List.mem_of_getElem? hc₀)

theorem getElem?_update (hc : s.clients[i]? = some c) :
    (s.update i f).clients[i]? = some (f c) := by
  simp [update, hc]

/-- A session that has an owner left is not destroyed. -/
theorem release_of_owned (howned : ∀ c ∈ s.clients[i]?, 0 < c.owners) : s.release i = s := by
  rw [release, if_neg]
  intro hnone
  obtain ⟨c, hc, hzero⟩ := Option.map_eq_some_iff.mp hnone
  have hpos := howned c hc
  omega

/-- A session that is destroyed has no owner, and its destructor asks for one. -/
theorem release_of_unowned (hc : s.clients[i]? = some c) (hzero : c.owners = 0) :
    s.release i = { s with terminated := true } := by
  have hnone : s.sharedFromThis i = none := by
    simp [sharedFromThis, hc, hzero]
  rw [release, if_pos (by rw [hc, Option.map_some, hzero]), destroy, hnone]

/-- A destructor ends the process before it comes to the lock. -/
theorem release_cases (s : FrontendWebSocketServer) (i : Nat) :
    s.release i = s ∨ s.release i = { s with terminated := true } := by
  cases hget : s.clients[i]? with
  | none => exact .inl (release_of_owned fun c hc => by rw [hget] at hc; cases hc)
  | some c =>
    by_cases hzero : c.owners = 0
    · exact .inr (release_of_unowned hget hzero)
    · exact .inl (release_of_owned (forall_at hget (Nat.pos_of_ne_zero hzero)))

end Release

section Lock

/-- The thread that takes a step has released `sessions_mutex_` and never acquired it
twice. -/
structure LockFree (s : FrontendWebSocketServer) : Prop where
  free : s.locked = false
  unlocked : s.relocked = false

/-- What a step does with the lock as a whole. -/
def SameLock (s t : FrontendWebSocketServer) : Prop :=
  t.locked = s.locked ∧ t.relocked = s.relocked

theorem SameLock.release (s : FrontendWebSocketServer) (i : Nat) : SameLock s (s.release i) := by
  obtain hsame | hdestroyed := s.release_cases i
  · rw [hsame]
    exact ⟨rfl, rfl⟩
  · rw [hdestroyed]
    exact ⟨rfl, rfl⟩

theorem SameLock.dropAll (holds : Client → Bool) (f : Client → Client)
    (s : FrontendWebSocketServer) : SameLock s (s.dropAll holds f) := by
  rw [FrontendWebSocketServer.dropAll]
  generalize List.range s.clients.length = order
  induction order generalizing s with
  | nil => exact ⟨rfl, rfl⟩
  | cons i order ih =>
    have hfirst : SameLock s (s.drop holds f i) := by
      rw [drop]
      split
      · exact SameLock.release (s.update i f) i
      · exact ⟨rfl, rfl⟩
    have hrest := ih (s.drop holds f i)
    exact ⟨hrest.1.trans hfirst.1, hrest.2.trans hfirst.2⟩

theorem SameLock.lockFree {t : FrontendWebSocketServer} (ht : SameLock s t) (hs : LockFree s) :
    LockFree t :=
  ⟨ht.1.trans hs.free, ht.2.trans hs.unlocked⟩

theorem LockFree.relocked_lock (hs : LockFree s) : s.lock.relocked = false := by
  rw [lock, hs.free, hs.unlocked, Bool.or_false]

theorem LockFree.next (hs : LockFree s) (closes : WebSocketSession → Bool) (e : Event) :
    LockFree (s.next closes e) := by
  cases e with
  | onAccept ok =>
    have haccept : ∀ t : FrontendWebSocketServer, LockFree t → LockFree t.doAccept := by
      intro t ht
      rw [doAccept]
      split
      · exact ⟨ht.free, ht.unlocked⟩
      · exact ht
    refine haccept _ ?_
    cases ok with
    | false => exact ⟨hs.free, hs.unlocked⟩
    | true => exact ⟨rfl, hs.relocked_lock⟩
  | complete i h =>
    have hupdate : LockFree (s.update i fun c => c.complete h) := ⟨hs.free, hs.unlocked⟩
    exact (SameLock.release _ i).lockFree hupdate
  | broadcast message =>
    simp only [FrontendWebSocketServer.next, broadcast]
    split
    · exact hs
    · exact ⟨rfl, hs.relocked_lock⟩
  | stop =>
    simp only [FrontendWebSocketServer.next, stop]
    split
    · exact ⟨hs.free, hs.unlocked⟩
    · exact hs
  | closeSessions =>
    have hclear : SameLock { s.lock with clients := s.clients.map (Client.close closes) } _ :=
      SameLock.dropAll (fun c => c.session.registered) Client.erase _
    exact ⟨rfl, hclear.2.trans hs.relocked_lock⟩
  | stopContext => exact ⟨hs.free, hs.unlocked⟩
  | destroyContext withServer =>
    have habandon : ∀ t : FrontendWebSocketServer, LockFree t → LockFree t.abandon := by
      intro t ht
      have hsame := SameLock.dropAll (fun c => 0 < c.session.handlers) Client.abandon t
      have hdropped := hsame.lockFree ht
      exact ⟨hdropped.free, hdropped.unlocked⟩
    have hdestroyed : ∀ t : FrontendWebSocketServer, LockFree t →
        LockFree { t.abandon with stopping := .destroyed } :=
      fun t ht => ⟨(habandon t ht).free, (habandon t ht).unlocked⟩
    refine hdestroyed _ ?_
    cases withServer with
    | false => exact hs
    | true => exact (SameLock.dropAll _ Client.erase s).lockFree hs

theorem lockFree_started : LockFree started := ⟨rfl, rfl⟩

/-- In every run, `sessions_mutex_` is never acquired by the thread that holds it. -/
theorem lockFree_throughout {tr : List (Event × FrontendWebSocketServer)}
    (hrun : IsRun (Step closes) started tr) : Throughout LockFree started tr := by
  refine hrun.throughout LockFree ?_ lockFree_started
  rintro s e t hs ⟨-, rfl⟩
  exact hs.next closes e

theorem LockFree.sessionsMatch (hlock : LockFree s) (howned : s.terminated = false)
    (hexact : ∀ c ∈ s.clients, c.session.registered = c.isOpen) : SessionsMatch s where
  exact := hexact
  count := List.countP_congr fun c hmem => by rw [hexact c hmem]
  unlocked := hlock.unlocked
  owned := howned

theorem Inv.sessionsMatch (hs : Inv s) (hlock : LockFree s) : SessionsMatch s :=
  hlock.sessionsMatch hs.owned fun c hmem => (hs.clients c hmem).exact

end Lock

section Drop

/-- A session that keeps an owner outlives the others. -/
theorem drop_of_owned (howned : s.terminated = false)
    (hsame : ∀ c ∈ s.clients[i]?, holds c = false → f c = c)
    (hleft : ∀ c ∈ s.clients[i]?, holds c = true → 0 < (f c).owners) :
    s.drop holds f i = s.update i f := by
  cases hget : s.clients[i]? with
  | none =>
    have hlength : s.clients.length ≤ i := List.getElem?_eq_none_iff.mp hget
    simp [drop, hget, update, List.modify_eq_self hlength]
  | some c =>
    cases hholds : holds c with
    | true =>
      have hpos : 0 < (f c).owners := hleft c hget hholds
      have hrelease : (s.update i f).release i = s.update i f :=
        release_of_owned (forall_at (getElem?_update hget) hpos)
      simp [drop, howned, hget, hholds, hrelease]
    | false =>
      have hmodify : s.clients.modify i f = s.clients := by
        refine List.ext_getElem? fun j => ?_
        by_cases hij : i = j
        · subst hij
          simp only [List.getElem?_modify_eq, hget, Option.map_eq_map, Option.map_some,
            hsame c hget hholds]
        · rw [List.getElem?_modify_ne f _ hij]
      simp [drop, hget, hholds, update, hmodify]

/-- The sessions lose their owners one after the other. -/
theorem foldl_drop (howned : s.terminated = false)
    (hsame : ∀ c ∈ s.clients, holds c = false → f c = c)
    (hleft : ∀ c ∈ s.clients, holds c = true → 0 < (f c).owners) (n : Nat) :
    ∃ clients, (List.range n).foldl (drop holds f) s = { s with clients := clients } ∧
      ∀ j, clients[j]? = if j < n then s.clients[j]?.map f else s.clients[j]? := by
  induction n with
  | zero => exact ⟨s.clients, rfl, fun j => rfl⟩
  | succ n ih =>
    obtain ⟨clients, hfold, hclients⟩ := ih
    have hold : ∀ c ∈ clients[n]?, c ∈ s.clients := by
      intro c hc
      rw [hclients n, if_neg (Nat.lt_irrefl n)] at hc
      exact List.mem_of_getElem? hc
    refine ⟨clients.modify n f, ?_, fun j => ?_⟩
    · rw [List.range_succ, List.foldl_append, hfold]
      exact drop_of_owned howned (fun c hc => hsame c (hold c hc)) fun c hc => hleft c (hold c hc)
    · obtain hlt | rfl | hgt := Nat.lt_trichotomy j n
      · rw [List.getElem?_modify_ne f _ (by omega), hclients, if_pos hlt, if_pos (by omega)]
      · rw [List.getElem?_modify_eq, hclients, if_neg (by omega), if_pos (by omega),
          Option.map_eq_map]
      · rw [List.getElem?_modify_ne f _ (by omega), hclients, if_neg (by omega),
          if_neg (by omega)]

/-- When each session keeps an owner, none is destroyed. -/
theorem dropAll_of_owned (howned : s.terminated = false)
    (hsame : ∀ c ∈ s.clients, holds c = false → f c = c)
    (hleft : ∀ c ∈ s.clients, holds c = true → 0 < (f c).owners) :
    s.dropAll holds f = { s with clients := s.clients.map f } := by
  obtain ⟨clients, hfold, hclients⟩ := foldl_drop howned hsame hleft s.clients.length
  have hmap : clients = s.clients.map f := by
    refine List.ext_getElem? fun j => ?_
    rw [hclients, List.getElem?_map]
    split
    · rfl
    · have hnone : s.clients[j]? = none := List.getElem?_eq_none_iff.mpr (by omega)
      rw [hnone, Option.map_none]
  rw [dropAll, hfold, hmap]

theorem dropAll_of_nil (hnil : s.clients = []) : s.dropAll holds f = s := by
  rw [dropAll, hnil]
  rfl

/-- Nothing follows the end of the process. -/
theorem foldl_drop_of_terminated (hended : s.terminated = true) (order : List Nat) :
    order.foldl (drop holds f) s = s := by
  induction order with
  | nil => rfl
  | cons i order ih =>
    have hdrop : s.drop holds f i = s := by
      simp [drop, hended]
    rw [List.foldl_cons, hdrop, ih]

/-- The other sessions are not touched. -/
theorem getElem?_drop_of_ne {j : Nat} (hne : j ≠ i) :
    (s.drop holds f j).clients[i]? = s.clients[i]? := by
  have hmodify : (s.update j f).clients[i]? = s.clients[i]? := List.getElem?_modify_ne f _ hne
  rw [drop]
  split
  · obtain hsame | hdestroyed := (s.update j f).release_cases j
    · rw [hsame, hmodify]
    · rw [hdestroyed, ← hmodify]
  · rfl

theorem terminated_foldl_drop (hget : s.clients[i]? = some c) (hholds : holds c = true)
    (hnone : (f c).owners = 0) {order : List Nat} (hmem : i ∈ order) :
    (order.foldl (drop holds f) s).terminated = true := by
  induction order generalizing s with
  | nil => cases hmem
  | cons j order ih =>
    rw [List.foldl_cons]
    cases hended : (s.drop holds f j).terminated with
    | true => rw [foldl_drop_of_terminated hended, hended]
    | false =>
      by_cases hij : j = i
      · subst hij
        have hrelease := release_of_unowned (getElem?_update (f := f) hget) hnone
        cases hbefore : s.terminated with
        | true => simp [drop, hbefore] at hended
        | false => simp [drop, hbefore, hget, hholds, hrelease] at hended
      · refine ih ((getElem?_drop_of_ne hij).trans hget) ?_
        exact (List.mem_cons.mp hmem).resolve_left fun h => hij h.symm

/-- A session that keeps no owner is destroyed, and its destructor ends the process. -/
theorem terminated_dropAll (hmem : c ∈ s.clients) (hholds : holds c = true)
    (hnone : (f c).owners = 0) : (s.dropAll holds f).terminated = true := by
  obtain ⟨i, hget⟩ := List.mem_iff_getElem?.mp hmem
  refine terminated_foldl_drop hget hholds hnone (List.mem_range.mpr ?_)
  exact (List.getElem?_eq_some_iff.mp hget).1

/-- When each session of the set has a handler left, all are erased and none is destroyed. -/
theorem clear_of_awaited (howned : s.terminated = false)
    (hawaited : ∀ c ∈ s.clients, c.session.registered = true → 0 < c.session.handlers) :
    s.clear = { s with clients := s.clients.map Client.erase } := by
  refine dropAll_of_owned howned (fun c _ => Client.erase_of_not_registered) ?_
  intro c hmem hregistered
  rw [Client.owners_of_not_registered rfl]
  exact hawaited c hmem hregistered

/-- When each session is in the set, all outlive their handlers. -/
theorem abandon_of_registered (howned : s.terminated = false)
    (hall : ∀ c ∈ s.clients, c.session.registered = true) :
    s.abandon = { s with clients := s.clients.map Client.abandon, accepting := false } := by
  have hdropped : s.dropAll (fun c => 0 < c.session.handlers) Client.abandon =
      { s with clients := s.clients.map Client.abandon } := by
    refine dropAll_of_owned howned (fun c _ hnone => ?_) fun c hmem _ => ?_
    · exact Client.abandon_of_handlers (Nat.eq_zero_of_not_pos (of_decide_eq_false hnone))
    · exact Client.owners_pos_of_registered (hall c hmem)
  rw [abandon, hdropped]

/-- A session out of the set that a handler owns does not outlive it. -/
theorem terminated_abandon (hmem : c ∈ s.clients) (hregistered : c.session.registered = false)
    (hpos : 0 < c.session.handlers) : s.abandon.terminated = true :=
  terminated_dropAll hmem (decide_eq_true hpos)
    (Client.owners_abandon_of_not_registered hregistered)

end Drop

section Step

/-- The client that is updated is the one just added. -/
theorem modify_concat (clients : List Client) (c : Client) (f : Client → Client) :
    (clients ++ [c]).modify clients.length f = clients ++ [f c] := by
  induction clients with
  | nil => rfl
  | cons c₀ clients ih =>
    rw [List.cons_append, List.length_cons, List.modify_succ_cons, ih]
    rfl

theorem inv_started : Inv started where
  clients c hmem := by cases hmem
  owned := rfl

/-- A step that changes no client. -/
theorem Inv.of_eq {t : FrontendWebSocketServer} (hs : Inv s) (hclients : t.clients = s.clients)
    (hterminated : t.terminated = s.terminated) : Inv t where
  clients := by rw [hclients]; exact hs.clients
  owned := hterminated.trans hs.owned

theorem Inv.doAccept (hs : Inv s) : Inv s.doAccept := by
  rw [FrontendWebSocketServer.doAccept]
  split
  · exact hs.of_eq rfl rfl
  · exact hs

theorem Inv.onAccept (hs : Inv s) (ok : Bool) : Inv (s.onAccept ok) := by
  refine Inv.doAccept ?_
  cases ok with
  | false => exact hs.of_eq rfl rfl
  | true =>
    refine ⟨fun c hmem => ?_, hs.owned⟩
    simp only [update, addSession, unlock, lock, if_true, modify_concat] at hmem
    obtain hold | hnew := List.mem_append.mp hmem
    · exact hs.clients c hold
    · obtain rfl := List.mem_singleton.mp hnew
      exact ⟨rfl, fun _ => .inl rfl, Nat.succ_pos _⟩

theorem Inv.broadcast (hs : Inv s) (message : StdString) : Inv (s.broadcast message) := by
  rw [FrontendWebSocketServer.broadcast]
  split
  · exact hs
  · refine ⟨fun c hmem => ?_, hs.owned⟩
    obtain ⟨c₀, hmem₀, rfl⟩ := List.mem_map.mp hmem
    exact (hs.clients c₀ hmem₀).send message

theorem Inv.stop (hs : Inv s) : Inv s.stop := by
  rw [FrontendWebSocketServer.stop]
  split
  · exact hs.of_eq rfl rfl
  · exact hs

/-- A handler that returns and is not the last owner of its session. -/
theorem complete_of_owned (howned : ∀ c ∈ s.clients[i]?, 0 < (c.complete h).owners) :
    s.complete i h = s.update i fun c => c.complete h := by
  refine release_of_owned fun c hc => ?_
  simp only [update, List.getElem?_modify_eq, Option.map_eq_map, Option.mem_def,
    Option.map_eq_some_iff] at hc
  obtain ⟨c₀, hc₀, rfl⟩ := hc
  exact howned c₀ hc₀

theorem Inv.complete (hs : Inv s) (henabled : s.Enabled (.complete i h))
    (horderly : s.Orderly closes (.complete i h)) : Inv (s.complete i h) := by
  obtain ⟨-, -, -, c, hget, henabled⟩ := henabled
  have hc := hs.clients c (List.mem_of_getElem? hget)
  have hcond := horderly c hget
  have howned : 0 < (c.complete h).owners := by
    rw [Client.owners_complete_pos_iff henabled]
    intro hregistered
    rwa [if_neg (by rw [hregistered]; exact Bool.false_ne_true)] at hcond
  rw [complete_of_owned (forall_at hget howned)]
  have hnew : (c.complete h).Inv := by
    refine hc.complete henabled (fun hregistered => ?_) howned
    rwa [if_pos hregistered] at hcond
  exact ⟨forall_update hs.clients (forall_at hget hnew), hs.owned⟩

/-- A connection that ends leaves its session in the set, and the last handler that
returns leaves its session to be destroyed without an owner. -/
theorem not_sessionsMatch_complete (henabled : s.Enabled (.complete i h))
    (horderly : ¬ s.Orderly closes (.complete i h)) : ¬ SessionsMatch (s.complete i h) := by
  intro hmatch
  refine horderly fun c hget => ?_
  obtain ⟨-, -, -, c', hget', henabled⟩ := henabled
  obtain rfl := Option.some.inj (hget.symm.trans hget')
  have hget : s.clients[i]? = some c := hget
  have hupdated := getElem?_update (f := fun c => c.complete h) hget
  have hsame : (c.complete h).session.registered = c.session.registered :=
    WebSocketSession.registered_complete c.session h
  split
  · rename_i hregistered
    have howned : 0 < (c.complete h).owners :=
      Client.owners_pos_of_registered (hsame.trans hregistered)
    rw [complete_of_owned (forall_at hget howned)] at hmatch
    have hexact := hmatch.exact _ (List.mem_of_getElem? hupdated)
    rw [hsame, hregistered] at hexact
    have hopen : (c.isOpen && !h.ends) = true := hexact.symm
    simpa using (Bool.and_eq_true_iff.mp hopen).2
  · rename_i hregistered
    intro hlast
    by_contra hgoes
    have hnone : (c.complete h).owners = 0 := by
      have hiff := (Client.owners_complete_pos_iff henabled).not
      refine Nat.eq_zero_of_not_pos (hiff.mpr fun himp => hgoes ?_)
      exact himp (Bool.eq_false_iff.mpr hregistered) hlast
    rw [FrontendWebSocketServer.complete, release_of_unowned hupdated hnone] at hmatch
    cases hmatch.owned

/-- `stop` closes the sessions and takes them out of the set, each with a handler left. -/
theorem closeSessions_eq (hs : Inv s) :
    s.closeSessions closes =
      { s.lock with
        clients := s.clients.map fun c => (c.close closes).erase
        locked := false
        stopping := .stoppingContext } := by
  have hclear := clear_of_awaited
    (s := { s.lock with clients := s.clients.map (Client.close closes) }) hs.owned ?_
  · simp only [FrontendWebSocketServer.closeSessions]
    rw [show s.lock.clients = s.clients from rfl, hclear]
    simp only [List.map_map]
    rfl
  · intro c hmem
    obtain ⟨c₀, hmem₀, rfl⟩ := List.mem_map.mp hmem
    rw [Client.close_session]
    exact fun _ => (hs.clients c₀ hmem₀).handlers_pos

theorem Inv.closeSessions (hs : Inv s) (horderly : s.Orderly closes .closeSessions) :
    Inv (s.closeSessions closes) := by
  rw [closeSessions_eq hs]
  refine ⟨fun c hmem => ?_, hs.owned⟩
  obtain ⟨c₀, hmem₀, rfl⟩ := List.mem_map.mp hmem
  refine ⟨?_, fun hregistered => absurd hregistered Bool.false_ne_true, ?_⟩
  · change false = (c₀.close closes).isOpen
    rw [(hs.clients c₀ hmem₀).isOpen_close]
    cases hregistered : c₀.session.registered with
    | true => rw [horderly c₀ hmem₀ hregistered]; rfl
    | false => rfl
  · rw [Client.owners_of_not_registered rfl, Client.erase, Client.close_session]
    exact (hs.clients c₀ hmem₀).handlers_pos

/-- A connection that `stop` leaves open is no longer in the set. -/
theorem not_sessionsMatch_closeSessions (hs : Inv s)
    (horderly : ¬ s.Orderly closes .closeSessions) :
    ¬ SessionsMatch (s.closeSessions closes) := by
  intro hmatch
  rw [closeSessions_eq hs] at hmatch
  refine horderly fun c hmem hregistered => ?_
  have hexact := hmatch.exact _ (List.mem_map_of_mem hmem)
  change false = (c.close closes).isOpen at hexact
  rw [(hs.clients c hmem).isOpen_close, hregistered, Bool.true_and] at hexact
  simpa using hexact

/-- The sessions that were made since `stop` cleared the set are in it. -/
theorem sessionsMatch_destroyContext (hs : Inv s) (hlock : LockFree s) {withServer : Bool}
    (horderly : s.Orderly closes (.destroyContext withServer)) :
    SessionsMatch (s.destroyContext withServer) := by
  have hlocknext : LockFree (s.destroyContext withServer) :=
    hlock.next closes (.destroyContext withServer)
  cases withServer with
  | false =>
    have hall : ∀ c ∈ s.clients, c.session.registered = true := fun c hmem => (horderly c hmem).1
    have heq : s.destroyContext false = { s with
        clients := s.clients.map Client.abandon, accepting := false, stopping := .destroyed } := by
      simp only [destroyContext, Bool.false_eq_true, if_false, abandon_of_registered hs.owned hall]
    rw [heq] at hlocknext ⊢
    refine hlocknext.sessionsMatch hs.owned fun c hmem => ?_
    obtain ⟨c₀, hmem₀, rfl⟩ := List.mem_map.mp hmem
    exact (hs.clients c₀ hmem₀).exact
  | true =>
    have hnil : s.clients = [] := by
      refine List.eq_nil_iff_forall_not_mem.mpr fun c hmem => ?_
      cases (horderly c hmem).2
    have heq : s.destroyContext true = { s with accepting := false, stopping := .destroyed } := by
      simp only [destroyContext, clear, abandon, dropAll_of_nil hnil, if_true]
    rw [heq] at hlocknext ⊢
    exact hlocknext.sessionsMatch hs.owned fun c hmem => (hs.clients c hmem).exact

/-- A session that only its handlers own goes with the `io_context`, and with the server
every session does. -/
theorem not_sessionsMatch_destroyContext (hs : Inv s) {withServer : Bool}
    (horderly : ¬ s.Orderly closes (.destroyContext withServer)) :
    ¬ SessionsMatch (s.destroyContext withServer) := by
  intro hmatch
  have hlive : (s.destroyContext withServer).terminated = false := hmatch.owned
  refine horderly fun c hmem => ?_
  have hpos := (hs.clients c hmem).handlers_pos
  cases withServer with
  | false =>
    refine ⟨?_, rfl⟩
    by_contra hregistered
    have hended := terminated_abandon hmem (Bool.eq_false_iff.mpr hregistered) hpos
    exact Bool.false_ne_true (hlive.symm.trans hended)
  | true =>
    have hclear := clear_of_awaited hs.owned fun c hmem _ => (hs.clients c hmem).handlers_pos
    have hended : s.clear.abandon.terminated = true := by
      rw [hclear]
      exact terminated_abandon (List.mem_map_of_mem hmem) rfl hpos
    exact absurd (hlive.symm.trans hended) Bool.false_ne_true

theorem Inv.next (hs : Inv s) (henabled : s.Enabled e) (horderly : s.Orderly closes e)
    (hlive : (s.next closes e).stopping ≠ .destroyed) : Inv (s.next closes e) := by
  cases e with
  | onAccept ok => exact hs.onAccept ok
  | complete i h => exact hs.complete henabled horderly
  | broadcast message => exact hs.broadcast message
  | stop => exact hs.stop
  | closeSessions => exact hs.closeSessions horderly
  | stopContext => exact hs.of_eq rfl rfl
  | destroyContext withServer => exact absurd rfl hlive

theorem sessionsMatch_next (hs : Inv s) (hlock : LockFree s) (henabled : s.Enabled e)
    (horderly : s.Orderly closes e) : SessionsMatch (s.next closes e) := by
  have hlocknext := hlock.next closes e
  cases e with
  | onAccept ok => exact (hs.onAccept ok).sessionsMatch hlocknext
  | complete i h => exact (hs.complete henabled horderly).sessionsMatch hlocknext
  | broadcast message => exact (hs.broadcast message).sessionsMatch hlocknext
  | stop => exact hs.stop.sessionsMatch hlocknext
  | closeSessions => exact (hs.closeSessions horderly).sessionsMatch hlocknext
  | stopContext =>
    have hcontext : Inv s.stopContext := hs.of_eq rfl rfl
    exact hcontext.sessionsMatch hlocknext
  | destroyContext withServer => exact sessionsMatch_destroyContext hs hlock horderly

theorem not_sessionsMatch_next (hs : Inv s) (henabled : s.Enabled e)
    (horderly : ¬ s.Orderly closes e) : ¬ SessionsMatch (s.next closes e) := by
  cases e with
  | complete i h => exact not_sessionsMatch_complete henabled horderly
  | closeSessions => exact not_sessionsMatch_closeSessions hs horderly
  | destroyContext withServer => exact not_sessionsMatch_destroyContext hs horderly
  | onAccept | broadcast | stop | stopContext => exact absurd trivial horderly

end Step

/-- Exactly in the orderly runs `sessions_` holds the sessions whose connections are open
and no session is destroyed. -/
theorem sessionsMatch_iff_orderly {tr : List (Event × FrontendWebSocketServer)}
    (hrun : IsRun (Step closes) started tr) :
    Throughout SessionsMatch started tr ↔ Guarded (Orderly closes) started tr := by
  refine hrun.always_iff_guarded (fun s => (s.stopping ≠ .destroyed → Inv s) ∧ LockFree s) ?_ ?_
    ⟨fun _ => inv_started, lockFree_started⟩
  · rintro s e t ⟨hs, hlock⟩ horderly ⟨henabled, rfl⟩
    have hs := hs henabled.2.1
    exact ⟨⟨hs.next henabled horderly, hlock.next closes e⟩,
      sessionsMatch_next hs hlock henabled horderly⟩
  · rintro s e t ⟨hs, -⟩ horderly ⟨henabled, rfl⟩
    exact not_sessionsMatch_next (hs henabled.2.1) henabled horderly

/-- `ws_.close` ends a connection whose handshake is done. -/
def closesAccepted (s : WebSocketSession) : Bool := s.handshake = .accepted

/-- A client connects, a message is broadcast, and the server stops. -/
def quietStop : List Event :=
  [.onAccept true, .complete 0 (.onAccept true 0), .complete 0 (.onComplete (.welcome 0) true),
    .broadcast (lit "one"), .complete 0 (.onComplete (.queued (lit "one")) true), .stop,
    .closeSessions, .stopContext]

theorem sessionsMatch_iff_orderly_quietStop :
    Throughout SessionsMatch started (runOf (next closesAccepted) started quietStop) :=
  (sessionsMatch_iff_orderly (isRun_runOf_of_enabled (by decide +kernel))).mpr
    (by decide +kernel)

/-- A client connects and closes its connection. -/
def clientCloses : List Event :=
  [.onAccept true, .complete 0 (.onAccept true 0), .complete 0 (.onComplete (.welcome 0) true),
    .complete 0 (.onRead .closed)]

theorem clientCloses_stays_registered :
    IsRun (Step closesAccepted) started (runOf (next closesAccepted) started clientCloses) ∧
      ¬ Throughout SessionsMatch started
        (runOf (next closesAccepted) started clientCloses) := by
  refine ⟨isRun_runOf_of_enabled (by decide +kernel), fun h => ?_⟩
  have hlast := h.last (inv_started.sessionsMatch lockFree_started)
  rw [lastState_runOf] at hlast
  have hcount := hlast.count
  revert hcount
  decide +kernel

end FrontendWebSocketServer

end OrderbookEngine
