import OrderbookEngine.Network.WebSocketSession

/-!
# One write at a time

The queue alone never has two writes outstanding and writes its messages in order.
It does not know of the handshake, of the welcome message and of the pongs, nor do
the pongs know of the queue.
-/

namespace OrderbookEngine.WebSocketSession

open Transition

variable {s : WebSocketSession} {e : Event} {w : Write} {message : StdString}

/-- The messages of the queue among the writes issued. -/
def written (issued : List (Write × Bool)) : List StdString :=
  issued.filterMap fun write => write.1.message?

@[simp] theorem written_append (issued : List (Write × Bool)) (write : Write × Bool) :
    written (issued ++ [write]) = written issued ++ write.1.message?.toList := by
  rw [written, List.filterMap_append, List.filterMap_cons]
  cases write.1.message? <;> rfl

/-- At most one write is outstanding, none was issued before the handshake succeeded,
and the queued messages are written in their order, each at most once. -/
structure OneAtATime (s : WebSocketSession) : Prop where
  single : s.outstanding.length ≤ 1
  afterAccept : ∀ write ∈ s.issued, write.2 = true
  inOrder : written s.issued <+: s.queued

/-- The queue starts to write when the handshake is done and nothing is outstanding, and
a ping is read when the queue has no write outstanding. -/
def Apart (s : WebSocketSession) : Event → Prop
  | .send _ => s.writeQueue = [] → s.handshake = .accepted ∧ s.outstanding = []
  | .onRead (.message text) => isPing text = true → s.outstanding = []
  | _ => True

instance decidableApart (s : WebSocketSession) : ∀ e, Decidable (s.Apart e)
  | .send _ => inferInstanceAs (Decidable
      (s.writeQueue = [] → s.handshake = .accepted ∧ s.outstanding = []))
  | .onRead (.message text) => inferInstanceAs (Decidable
      (isPing text = true → s.outstanding = []))
  | .onRead .closed | .onRead .error | .addSession | .run | .onAccept _ _
  | .onComplete _ _ => isTrue trivial

/-- What every run keeps of the queue: the messages done and the front were issued, and
only the front is outstanding. -/
structure Queue (s : WebSocketSession) : Prop where
  issued : ∃ done, s.queued = done ++ s.writeQueue ∧
    written s.issued = done ++ s.writeQueue.take 1
  outstanding : (s.outstanding.filterMap Write.message?).Sublist (s.writeQueue.take 1)

/-- The messages are written in order, whatever else is written. -/
theorem Queue.inOrder (h : Queue s) :
    written s.issued <+: s.queued := by
  obtain ⟨done, hqueued, hissued⟩ := h.issued
  rw [hqueued, hissued]
  exact (List.prefix_append_right_inj done).mpr (List.take_prefix 1 s.writeQueue)

section Queue

/-- What the queue depends on. -/
theorem Queue.of_eq {t : WebSocketSession} (h : Queue s) (hqueue : t.writeQueue = s.writeQueue)
    (hqueued : t.queued = s.queued) (hissued : t.issued = s.issued)
    (houtstanding : (t.outstanding.filterMap Write.message?).Sublist
      (s.outstanding.filterMap Write.message?)) : Queue t where
  issued := by rw [hqueue, hqueued, hissued]; exact h.issued
  outstanding := by rw [hqueue]; exact houtstanding.trans h.outstanding

/-- A write that does not come from the queue. -/
theorem Queue.asyncWrite (h : Queue s) (hw : w.message? = none) : Queue (s.asyncWrite w) where
  issued := by
    obtain ⟨done, hqueued, hissued⟩ := h.issued
    refine ⟨done, hqueued, ?_⟩
    simp only [WebSocketSession.asyncWrite, written_append, hissued, hw, Option.toList_none,
      List.append_nil]
  outstanding := by
    simp only [WebSocketSession.asyncWrite, List.filterMap_append]
    simpa [hw] using h.outstanding

theorem Queue.send (h : Queue s) (message : StdString) : Queue (s.send message) := by
  obtain ⟨done, hqueued, hissued⟩ := h.issued
  have houtstanding := h.outstanding
  cases hqueue : s.writeQueue with
  | nil =>
    rw [hqueue] at hqueued hissued houtstanding
    have hnone : s.outstanding.filterMap Write.message? = [] := List.sublist_nil.mp houtstanding
    simp only [WebSocketSession.send, hqueue, WebSocketSession.asyncWrite, List.nil_append,
      List.length_singleton, if_true]
    exact ⟨⟨done, by simp [hqueued], by simp [hissued, Write.message?]⟩,
      by simp [hnone, Write.message?]⟩
  | cons front rest =>
    rw [hqueue] at hqueued hissued houtstanding
    have hlength : ¬ (s.writeQueue ++ [message]).length = 1 := by simp [hqueue]
    simp only [WebSocketSession.send, if_neg hlength]
    exact ⟨⟨done, by simp [hqueued, hqueue], by simp [hissued, hqueue]⟩,
      by simpa [hqueue] using houtstanding⟩

/-- The completion of the write of the front message leaves the queue without writes. -/
theorem Queue.erase_queued (h : Queue s) (hmem : .queued message ∈ s.outstanding) :
    (∃ rest, s.writeQueue = message :: rest) ∧
      (s.outstanding.erase (.queued message)).filterMap Write.message? = [] := by
  have hperm := (List.perm_cons_erase hmem).filterMap Write.message?
  have hlength := hperm.length_eq
  have hsub := h.outstanding
  have hle := hsub.length_le
  rw [List.filterMap_cons] at hperm hlength
  simp only [Write.message?, List.length_cons] at hperm hlength
  have hfront : message ∈ s.writeQueue.take 1 :=
    hsub.subset (hperm.mem_iff.mpr List.mem_cons_self)
  constructor
  · cases hqueue : s.writeQueue with
    | nil => rw [hqueue] at hfront; cases hfront
    | cons front rest =>
      rw [hqueue] at hfront
      obtain rfl : message = front := by simpa using hfront
      exact ⟨rest, rfl⟩
  · have htake : (s.writeQueue.take 1).length ≤ 1 := List.length_take_le 1 _
    exact List.length_eq_zero_iff.mp (by omega)

theorem Queue.onComplete (h : Queue s) (hmem : w ∈ s.outstanding) (ok : Bool) :
    Queue (s.onComplete w ok) := by
  have herase : Queue { s with outstanding := s.outstanding.erase w } :=
    h.of_eq rfl rfl rfl (List.erase_sublist.filterMap _)
  cases w with
  | welcome timestamp =>
    simp only [WebSocketSession.onComplete]
    split
    · exact herase.of_eq rfl rfl rfl (List.Sublist.refl _)
    · exact herase
  | pong => exact herase.of_eq rfl rfl rfl (List.Sublist.refl _)
  | queued message =>
    simp only [WebSocketSession.onComplete, onWrite]
    split
    · exact herase
    · obtain ⟨⟨rest, hqueue⟩, hnone⟩ := h.erase_queued hmem
      obtain ⟨done, hqueued, hissued⟩ := h.issued
      rw [hqueue] at hqueued hissued
      simp only [hqueue, List.tail_cons]
      split
      · exact ⟨⟨done ++ [message], by simp [hqueued], by simpa using hissued⟩, by simp [hnone]⟩
      · simp only [WebSocketSession.asyncWrite]
        exact ⟨⟨done ++ [message], by simp [hqueued], by simp [hissued, Write.message?]⟩,
          by simp [hnone, Write.message?]⟩

theorem Queue.next (h : Queue s) (henabled : s.Enabled e) : Queue (s.next e) := by
  cases e with
  | addSession | run => exact h.of_eq rfl rfl rfl (List.Sublist.refl _)
  | onAccept ok timestamp =>
    simp only [WebSocketSession.next, onAccept]
    split
    · exact Queue.asyncWrite (h.of_eq rfl rfl rfl (List.Sublist.refl _)) rfl
    · exact h.of_eq rfl rfl rfl (List.Sublist.refl _)
  | onRead r =>
    have hread : Queue { s with reading := false } := h.of_eq rfl rfl rfl (List.Sublist.refl _)
    cases r with
    | closed | error => exact hread
    | message text =>
      simp only [WebSocketSession.next, onRead]
      split
      · exact hread.asyncWrite rfl
      · exact hread.of_eq rfl rfl rfl (List.Sublist.refl _)
  | send message => exact h.send message
  | onComplete w ok => exact h.onComplete henabled ok

theorem queue_construct : Queue construct := ⟨⟨[], rfl, rfl⟩, List.Sublist.refl _⟩

/-- In every run the queued messages are written in their order, each at most once. -/
theorem written_inOrder {tr : List (Event × WebSocketSession)} (hrun : IsRun Step construct tr) :
    Throughout (fun s => written s.issued <+: s.queued) construct tr := by
  refine (hrun.throughout Queue ?_ queue_construct).mono fun s h => h.inOrder
  rintro s e t h ⟨henabled, rfl⟩
  exact h.next henabled

end Queue

section Guarded

/-- What every run keeps whose writes stay apart. -/
structure Inv (s : WebSocketSession) : Prop where
  queue : Queue s
  single : s.outstanding.length ≤ 1
  afterAccept : ∀ write ∈ s.issued, write.2 = true
  /-- Nothing is written or read before the handshake is done. -/
  idle : s.handshake ≠ .accepted → s.writeQueue = [] ∧ s.outstanding = [] ∧ s.reading = false

theorem Inv.oneAtATime (h : Inv s) : OneAtATime s := ⟨h.single, h.afterAccept, h.queue.inOrder⟩

/-- The only write outstanding completes. -/
theorem Inv.erase_eq_nil (h : Inv s) (hmem : w ∈ s.outstanding) : s.outstanding.erase w = [] := by
  have hlength := List.length_erase_of_mem hmem
  have hsingle := h.single
  exact List.length_eq_zero_iff.mp (by omega)

/-- A write is issued on an idle stream. -/
theorem Inv.asyncWrite (hqueue : Queue (s.asyncWrite w)) (houtstanding : s.outstanding = [])
    (hafter : ∀ write ∈ s.issued, write.2 = true) (haccepted : s.handshake = .accepted) :
    Inv (s.asyncWrite w) where
  queue := hqueue
  single := by simp [WebSocketSession.asyncWrite, houtstanding]
  afterAccept := by
    simp only [WebSocketSession.asyncWrite, List.mem_append, List.mem_singleton]
    rintro write (hmem | rfl)
    · exact hafter write hmem
    · exact decide_eq_true haccepted
  idle hnot := absurd haccepted hnot

theorem Inv.onAccept (h : Inv s) (ok : Bool) (timestamp : Int)
    (haccepting : s.handshake = .accepting) : Inv (s.onAccept ok timestamp) := by
  have hidle := h.idle (by rw [haccepting]; nofun)
  have hqueue : Queue (s.onAccept ok timestamp) :=
    h.queue.next (e := .onAccept ok timestamp) haccepting
  rw [WebSocketSession.onAccept] at hqueue ⊢
  cases ok with
  | true => exact Inv.asyncWrite hqueue hidle.2.1 h.afterAccept rfl
  | false => exact ⟨hqueue, h.single, h.afterAccept, fun _ => hidle⟩

theorem Inv.accepted_of_reading (h : Inv s) (hreading : s.reading = true) :
    s.handshake = .accepted := by
  by_contra hnot
  exact Bool.false_ne_true ((h.idle hnot).2.2.symm.trans hreading)

theorem Inv.accepted_of_mem (h : Inv s) (hmem : w ∈ s.outstanding) : s.handshake = .accepted := by
  by_contra hnot
  rw [(h.idle hnot).2.1] at hmem
  cases hmem

theorem Inv.onRead (h : Inv s) {r : ReadResult} (hreading : s.reading = true)
    (hapart : s.Apart (.onRead r)) : Inv (s.onRead r) := by
  have haccepted := h.accepted_of_reading hreading
  have hqueue : Queue (s.onRead r) := h.queue.next (e := .onRead r) hreading
  have hread : Inv { s with reading := false } :=
    ⟨h.queue.of_eq rfl rfl rfl (List.Sublist.refl _), h.single, h.afterAccept,
      fun hnot => absurd haccepted hnot⟩
  cases r with
  | closed | error => exact hread
  | message text =>
    simp only [WebSocketSession.onRead] at hqueue ⊢
    split
    · rename_i hping
      rw [if_pos hping] at hqueue
      exact Inv.asyncWrite hqueue (hapart hping) h.afterAccept haccepted
    · rename_i hping
      rw [if_neg hping] at hqueue
      exact ⟨hqueue, h.single, h.afterAccept, fun hnot => absurd haccepted hnot⟩

theorem Inv.send (h : Inv s) (hregistered : s.registered = true)
    (hapart : s.Apart (.send message)) : Inv (s.send message) := by
  have hqueue : Queue (s.send message) := h.queue.next (e := .send message) hregistered
  rw [WebSocketSession.send] at hqueue ⊢
  by_cases hempty : s.writeQueue = []
  · obtain ⟨haccepted, houtstanding⟩ := hapart hempty
    simp only [hempty, List.nil_append, List.length_singleton, if_true] at hqueue ⊢
    exact Inv.asyncWrite hqueue houtstanding h.afterAccept haccepted
  · have hlength : ¬ (s.writeQueue ++ [message]).length = 1 := by
      simpa using hempty
    simp only [if_neg hlength] at hqueue ⊢
    exact ⟨hqueue, h.single, h.afterAccept, fun hnot => absurd (h.idle hnot).1 hempty⟩

theorem Inv.onComplete (h : Inv s) (hmem : w ∈ s.outstanding) (ok : Bool) :
    Inv (s.onComplete w ok) := by
  have haccepted := h.accepted_of_mem hmem
  have hnil := h.erase_eq_nil hmem
  have hqueue : Queue (s.onComplete w ok) := h.queue.onComplete hmem ok
  have hdone : ∀ {t : WebSocketSession}, Queue t → t.outstanding = s.outstanding.erase w →
      t.issued = s.issued → t.handshake = s.handshake → Inv t := by
    intro t ht houtstanding hissued hhandshake
    refine ⟨ht, by rw [houtstanding, hnil]; exact Nat.zero_le 1, hissued ▸ h.afterAccept, ?_⟩
    exact fun hnot => absurd (hhandshake.trans haccepted) hnot
  cases w with
  | welcome timestamp =>
    simp only [WebSocketSession.onComplete] at hqueue ⊢
    split
    · rename_i hok
      rw [if_pos hok] at hqueue
      exact hdone hqueue rfl rfl rfl
    · rename_i hok
      rw [if_neg hok] at hqueue
      exact hdone hqueue rfl rfl rfl
  | pong => exact hdone hqueue rfl rfl rfl
  | queued message =>
    simp only [WebSocketSession.onComplete, onWrite] at hqueue ⊢
    split
    · rename_i hok
      rw [if_pos hok] at hqueue
      exact hdone hqueue rfl rfl rfl
    · rename_i hok
      rw [if_neg hok] at hqueue
      revert hqueue
      split
      · exact fun hqueue => hdone hqueue rfl rfl rfl
      · exact fun hqueue => Inv.asyncWrite hqueue hnil h.afterAccept haccepted

theorem Inv.next (h : Inv s) (henabled : s.Enabled e) (hapart : s.Apart e) : Inv (s.next e) := by
  cases e with
  | addSession => exact ⟨h.queue.next henabled, h.single, h.afterAccept, h.idle⟩
  | run =>
    have hidle := h.idle (by rw [henabled.2]; nofun)
    exact ⟨h.queue.next henabled, h.single, h.afterAccept, fun _ => hidle⟩
  | onAccept ok timestamp => exact h.onAccept ok timestamp henabled
  | onRead r => exact h.onRead henabled hapart
  | send message => exact h.send henabled hapart
  | onComplete w ok => exact h.onComplete henabled ok

/-- A write that is issued too early, or while another one is outstanding. -/
theorem not_oneAtATime_asyncWrite (hnot : ¬ (s.handshake = .accepted ∧ s.outstanding = [])) :
    ¬ OneAtATime (s.asyncWrite w) := by
  intro h
  refine hnot ⟨?_, ?_⟩
  · have hafter := h.afterAccept (w, decide (s.handshake = .accepted)) (by simp [asyncWrite])
    exact of_decide_eq_true hafter
  · have hsingle := h.single
    simp only [asyncWrite, List.length_append, List.length_singleton] at hsingle
    exact List.length_eq_zero_iff.mp (by omega)

theorem not_oneAtATime_next (hapart : ¬ s.Apart e) : ¬ OneAtATime (s.next e) := by
  cases e with
  | send message =>
    obtain ⟨hempty, hnot⟩ := Classical.not_imp.mp hapart
    simp only [next, send, hempty, List.nil_append, List.length_singleton, if_true]
    exact not_oneAtATime_asyncWrite hnot
  | onRead r =>
    cases r with
    | closed | error => exact absurd trivial hapart
    | message text =>
      obtain ⟨hping, hnot⟩ := Classical.not_imp.mp hapart
      simp only [next, onRead, hping, if_true]
      exact not_oneAtATime_asyncWrite fun h => hnot h.2
  | addSession | run | onAccept | onComplete => exact absurd trivial hapart

end Guarded

theorem inv_construct : Inv construct where
  queue := queue_construct
  single := Nat.zero_le 1
  afterAccept := nofun
  idle _ := ⟨rfl, rfl, rfl⟩

/-- Exactly in the runs whose writes stay apart, one write is outstanding at a time, none
is issued before the handshake, and the queue is written in order. -/
theorem oneAtATime_iff_apart {tr : List (Event × WebSocketSession)}
    (hrun : IsRun Step construct tr) :
    Throughout OneAtATime construct tr ↔ Guarded Apart construct tr := by
  refine hrun.always_iff_guarded Inv ?_ ?_ inv_construct
  · rintro s e t h hapart ⟨henabled, rfl⟩
    exact ⟨h.next henabled hapart, (h.next henabled hapart).oneAtATime⟩
  · rintro s e t - hapart ⟨-, rfl⟩
    exact not_oneAtATime_next hapart

/-- A session is accepted, welcomes its client, and is sent two messages. -/
def quietSession : List Event :=
  [.addSession, .run, .onAccept true 0, .onComplete (.welcome 0) true, .send (lit "one"),
    .send (lit "two"), .onComplete (.queued (lit "one")) true,
    .onComplete (.queued (lit "two")) true, .onRead (.message (lit "\x7b\"type\":\"ping\"\x7d")),
    .onComplete .pong true]

theorem oneAtATime_iff_apart_quietSession :
    Throughout OneAtATime construct (runOf next construct quietSession) :=
  (oneAtATime_iff_apart (isRun_runOf_of_enabled (by decide +kernel))).mpr (by decide +kernel)

/-- A broadcast reaches a session that is registered and not yet accepted. -/
def earlyBroadcast : List Event := [.addSession, .run, .send (lit "one")]

theorem earlyBroadcast_writes_early :
    IsRun Step construct (runOf next construct earlyBroadcast) ∧
      ¬ Throughout OneAtATime construct (runOf next construct earlyBroadcast) := by
  refine ⟨isRun_runOf_of_enabled (by decide +kernel), fun h => ?_⟩
  have hlast := h.last inv_construct.oneAtATime
  rw [lastState_runOf] at hlast
  have hafter := hlast.afterAccept (.queued (lit "one"), false) (by decide +kernel)
  cases hafter

end OrderbookEngine.WebSocketSession
