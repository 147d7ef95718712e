import OrderbookEngine.Utils.RingBuffer

/-!
# The ring buffer is a bounded queue

The values from the tail up to the head, round the end of the array, are a queue. A push
takes effect when it stores the head and a pop when it stores the tail; in between the
value that a pop has moved out still counts for its slot.
-/

namespace OrderbookEngine.RingBuffer

open BoundedFifo Transition

/-- The slot that is a number of places after another, round the end of the array. -/
def slotAt (capacity start offset : Nat) : Nat :=
  if start + offset < capacity then start + offset else start + offset - capacity

namespace State

variable {V : Type}

/-- How many slots are in use. -/
def used (capacity : Nat) (s : State V) : Nat :=
  if s.tail ≤ s.head then s.head - s.tail else s.head + capacity - s.tail

/-- The value that a slot counts for. -/
def held (s : State V) (slot : Nat) : V :=
  match s.consumer with
  | .popStoreTail tail value => if slot = tail then value else s.buffer slot
  | _ => s.buffer slot

/-- The queue that the buffer is. -/
def contents (capacity : Nat) (s : State V) : List V :=
  (List.range (s.used capacity)).map fun i => s.held (slotAt capacity s.tail i)

/-- What the producer knows where it stands: its head is current, and once it has seen a
free slot there is one. -/
def ProducerKnows (capacity : Nat) (s : State V) : Prop :=
  match s.producer with
  | .idle => True
  | .loadHead _ => True
  | .loadTail _ head => head = s.head
  | .writeSlot _ head => head = s.head ∧ s.used capacity + 1 < capacity
  | .storeHead value head =>
    head = s.head ∧ s.used capacity + 1 < capacity ∧ s.buffer head = value

/-- What the consumer knows where it stands: its tail is current, and once it has seen a
value there is one. -/
def ConsumerKnows (capacity : Nat) (s : State V) : Prop :=
  match s.consumer with
  | .idle => True
  | .popLoadTail => True
  | .popLoadHead tail => tail = s.tail
  | .popReadSlot tail => tail = s.tail ∧ 0 < s.used capacity
  | .popStoreTail tail _ => tail = s.tail ∧ 0 < s.used capacity
  | .peekLoadTail => True
  | .peekLoadHead tail => tail = s.tail
  | .peekReadSlot tail => tail = s.tail ∧ 0 < s.used capacity

/-- The indices lie in the array, and both parties know where they stand. -/
structure Inv (capacity : Nat) (s : State V) : Prop where
  head_lt : s.head < capacity
  tail_lt : s.tail < capacity
  producer : s.ProducerKnows capacity
  consumer : s.ConsumerKnows capacity

/-- The consumer does not read the slot that the producer writes. -/
def Exclusive (s : State V) : Prop := ∀ slot, s.writing = some slot → s.reading ≠ some slot

end State

/-- The mask takes the last slot back to the first. -/
def Wraps (capacity : Nat) : Prop :=
  ∀ i < capacity, nextIndex capacity i = if i + 1 = capacity then 0 else i + 1

variable {V : Type} {capacity : Nat} {s t : State V} {i : Nat} {moved : V → V}

namespace State.Inv

variable (h : Inv capacity s) (hwraps : Wraps capacity)

section Indices

include h

theorem used_lt : s.used capacity < capacity := by
  have hhead := h.head_lt
  have htail := h.tail_lt
  unfold used
  split <;> omega

/-- The head is the first slot that is not in use. -/
theorem slotAt_used : slotAt capacity s.tail (s.used capacity) = s.head := by
  have hhead := h.head_lt
  have htail := h.tail_lt
  unfold used slotAt
  split <;> split <;> omega

theorem slotAt_zero : slotAt capacity s.tail 0 = s.tail := by
  have htail := h.tail_lt
  unfold slotAt
  split <;> omega

theorem slotAt_ne_head (hi : i < s.used capacity) : slotAt capacity s.tail i ≠ s.head := by
  have hhead := h.head_lt
  have htail := h.tail_lt
  unfold used at hi
  unfold slotAt
  split at hi <;> split <;> omega

theorem slotAt_ne_tail (hi : i + 1 < capacity) : slotAt capacity s.tail (i + 1) ≠ s.tail := by
  have htail := h.tail_lt
  unfold slotAt
  split <;> omega

theorem used_eq_zero_iff : s.tail = s.head ↔ s.used capacity = 0 := by
  have hhead := h.head_lt
  have htail := h.tail_lt
  unfold used
  split <;> omega

include hwraps

theorem used_eq_full_iff :
    nextIndex capacity s.head = s.tail ↔ s.used capacity + 1 = capacity := by
  have hhead := h.head_lt
  have htail := h.tail_lt
  rw [hwraps _ hhead]
  unfold used
  split <;> split <;> omega

/-- Storing the head takes a slot into use. -/
theorem used_storeHead (hfree : s.used capacity + 1 < capacity) (producer : ProducerPc V) :
    ({ s with head := nextIndex capacity s.head, producer := producer } : State V).used capacity =
      s.used capacity + 1 := by
  have hhead := h.head_lt
  have htail := h.tail_lt
  unfold used at hfree ⊢
  simp only [hwraps _ hhead]
  split at hfree <;> split <;> split <;> omega

/-- Storing the tail gives one back. -/
theorem used_storeTail (hused : 0 < s.used capacity) (consumer : ConsumerPc V) :
    ({ s with tail := nextIndex capacity s.tail, consumer := consumer } : State V).used capacity +
      1 = s.used capacity := by
  have hhead := h.head_lt
  have htail := h.tail_lt
  unfold used at hused ⊢
  simp only [hwraps _ htail]
  split at hused <;> split <;> split <;> omega

theorem slotAt_storeTail (hi : i + 1 < capacity) :
    slotAt capacity (nextIndex capacity s.tail) i = slotAt capacity s.tail (i + 1) := by
  have htail := h.tail_lt
  rw [hwraps _ htail]
  unfold slotAt
  split <;> split <;> split <;> omega

end Indices

end State.Inv

theorem Wraps.nextIndex_lt (h : Wraps capacity) (hi : i < capacity) :
    nextIndex capacity i < capacity := by
  rw [h i hi]
  split <;> omega

section Contents

theorem length_contents (s : State V) : (s.contents capacity).length = s.used capacity := by
  simp [State.contents]

/-- Only the slots in use decide the contents. -/
theorem contents_congr (hused : t.used capacity = s.used capacity) (htail : t.tail = s.tail)
    (hheld : ∀ i < s.used capacity,
      t.held (slotAt capacity s.tail i) = s.held (slotAt capacity s.tail i)) :
    t.contents capacity = s.contents capacity := by
  rw [State.contents, State.contents, hused, htail]
  apply List.map_congr_left
  intro i hi
  exact hheld i (List.mem_range.mp hi)

/-- A buffer in use holds the value of its tail first. -/
theorem State.Inv.contents_cons (h : s.Inv capacity) (hused : 0 < s.used capacity) :
    s.contents capacity = s.held s.tail :: (List.range (s.used capacity - 1)).map
      fun i => s.held (slotAt capacity s.tail (i + 1)) := by
  obtain ⟨n, hn⟩ := Nat.exists_eq_add_of_lt hused
  rw [State.contents, hn, Nat.zero_add, List.range_succ_eq_map, List.map_cons, h.slotAt_zero,
    List.map_map, Nat.add_sub_cancel]
  rfl

/-- Writing a slot changes no other. -/
theorem held_write (s : State V) {head slot : Nat} (value : V) (producer : ProducerPc V)
    (hslot : slot ≠ head) :
    ({ s with buffer := Function.update s.buffer head value, producer := producer } :
      State V).held slot = s.held slot := by
  unfold State.held
  cases s.consumer <;> simp [Function.update_of_ne hslot]

/-- The first free slot counts for what it holds: a pop has moved out of a slot in use. -/
theorem State.Inv.held_head (h : s.Inv capacity) : s.held s.head = s.buffer s.head := by
  have hknows := h.consumer
  unfold State.held
  cases hpc : s.consumer with
  | popStoreTail tail value =>
    simp only [State.ConsumerKnows, hpc] at hknows
    obtain ⟨rfl, hused⟩ := hknows
    have hne : s.head ≠ s.tail := fun he => hused.ne' (h.used_eq_zero_iff.mp he.symm)
    exact if_neg hne
  | _ => rfl

/-- Without a value moved out, each slot counts for what it holds. -/
theorem held_eq (h : ∀ tail value, s.consumer ≠ .popStoreTail tail value) (slot : Nat) :
    s.held slot = s.buffer slot := by
  unfold State.held
  cases hpc : s.consumer with
  | popStoreTail tail value => exact absurd hpc (h tail value)
  | _ => rfl

/-- A move of the consumer without a value moved out changes no value. -/
theorem contents_consumer {consumer : ConsumerPc V}
    (hnew : ∀ tail value, consumer ≠ .popStoreTail tail value)
    (hold : ∀ tail value, s.consumer ≠ .popStoreTail tail value) :
    State.contents capacity { s with consumer := consumer } = s.contents capacity := by
  refine contents_congr rfl rfl fun i _ => ?_
  rw [held_eq hnew, held_eq hold]

/-- Storing the head makes the value of its slot the last one. -/
theorem State.Inv.contents_storeHead (h : s.Inv capacity) (hwraps : Wraps capacity)
    (hroom : s.used capacity + 1 < capacity) :
    State.contents capacity { s with head := nextIndex capacity s.head, producer := .idle } =
      s.contents capacity ++ [s.buffer s.head] := by
  rw [State.contents, h.used_storeHead hwraps hroom .idle, List.range_succ, List.map_append,
    List.map_singleton]
  change s.contents capacity ++ [s.held (slotAt capacity s.tail (s.used capacity))] = _
  rw [h.slotAt_used, h.held_head]

/-- Storing the tail drops the first value, which was moved out. -/
theorem State.Inv.contents_storeTail (h : s.Inv capacity) (hwraps : Wraps capacity) {value : V}
    (hused : 0 < s.used capacity) (hpc : s.consumer = .popStoreTail s.tail value) :
    s.contents capacity = value :: State.contents capacity { s with
      tail := nextIndex capacity s.tail, consumer := .idle } := by
  have hfirst : s.held s.tail = value := by simp [State.held, hpc]
  rw [h.contents_cons hused, hfirst, State.contents,
    ← h.used_storeTail hwraps hused .idle, Nat.add_sub_cancel]
  congr 1
  apply List.map_congr_left
  intro i hi
  have hless := h.used_storeTail hwraps hused .idle
  have hlt := h.used_lt
  have hi' : i + 1 < capacity := by
    rw [List.mem_range] at hi
    omega
  rw [held_eq (s := { s with tail := nextIndex capacity s.tail, consumer := .idle }) (by simp),
    h.slotAt_storeTail hwraps hi']
  simp only [State.held, hpc, if_neg (h.slotAt_ne_tail hi')]

end Contents

section Steps

/-- What the producer knows outlasts the steps of the consumer, which only give slots back. -/
theorem State.ProducerKnows.mono (h : s.ProducerKnows capacity)
    (hproducer : t.producer = s.producer) (hhead : t.head = s.head)
    (hused : t.used capacity ≤ s.used capacity)
    (hbuffer : t.buffer s.head = s.buffer s.head) : t.ProducerKnows capacity := by
  unfold State.ProducerKnows at h ⊢
  rw [hproducer, hhead]
  cases hpc : s.producer with
  | idle => trivial
  | loadHead value => trivial
  | loadTail value head => simpa only [hpc] using h
  | writeSlot value head =>
    simp only [hpc] at h
    exact ⟨h.1, by omega⟩
  | storeHead value head =>
    simp only [hpc] at h
    obtain ⟨rfl, hroom, hvalue⟩ := h
    exact ⟨rfl, by omega, hbuffer.trans hvalue⟩

/-- What the consumer knows outlasts the steps of the producer, which only take slots. -/
theorem State.ConsumerKnows.mono (h : s.ConsumerKnows capacity)
    (hconsumer : t.consumer = s.consumer) (htail : t.tail = s.tail)
    (hused : s.used capacity ≤ t.used capacity) : t.ConsumerKnows capacity := by
  unfold State.ConsumerKnows at h ⊢
  rw [hconsumer, htail]
  cases hpc : s.consumer <;> simp only [hpc] at h ⊢ <;> omega

/-- A step of a call keeps the invariant and is a step of the queue. -/
def Refines (capacity : Nat) (s : State V) (r : Option (Return V)) (t : State V) : Prop :=
  t.Inv capacity ∧ Step (capacity - 1) (s.contents capacity) r (t.contents capacity)

/-- A step that returns nothing leaves the contents what they are. -/
theorem refines_silent (hinv : t.Inv capacity)
    (hsame : t.contents capacity = s.contents capacity) : Refines capacity s none t := by
  refine ⟨hinv, ?_⟩
  rw [hsame]
  exact .silent _

theorem State.Inv.produce (h : s.Inv capacity) (hwraps : Wraps capacity) :
    Refines capacity s (s.returned capacity .produce) (s.produce capacity) := by
  have hknows := h.producer
  cases hpc : s.producer with
  | idle =>
    simp only [State.produce, State.returned, hpc]
    exact ⟨h, .silent _⟩
  | loadHead value =>
    simp only [State.produce, State.returned, hpc]
    exact ⟨⟨h.head_lt, h.tail_lt, rfl, h.consumer⟩, .silent _⟩
  | loadTail value head =>
    simp only [State.ProducerKnows, hpc] at hknows
    subst hknows
    simp only [State.produce, State.returned, hpc]
    by_cases hfull : nextIndex capacity s.head = s.tail
    · simp only [hfull, if_true]
      refine ⟨⟨h.head_lt, h.tail_lt, trivial, h.consumer⟩, .full _ ?_⟩
      rw [h.used_eq_full_iff hwraps] at hfull
      rw [length_contents]
      omega
    · simp only [hfull, if_false]
      have hroom : s.used capacity + 1 < capacity := by
        have hlt := h.used_lt
        rw [h.used_eq_full_iff hwraps] at hfull
        omega
      exact ⟨⟨h.head_lt, h.tail_lt, ⟨rfl, hroom⟩, h.consumer⟩, .silent _⟩
  | writeSlot value head =>
    simp only [State.ProducerKnows, hpc] at hknows
    obtain ⟨rfl, hroom⟩ := hknows
    simp only [State.produce, State.returned, hpc]
    apply refines_silent
    · exact ⟨h.head_lt, h.tail_lt, ⟨rfl, hroom, Function.update_self ..⟩, h.consumer⟩
    · exact contents_congr rfl rfl fun i hi => held_write s value _ (h.slotAt_ne_head hi)
  | storeHead value head =>
    simp only [State.ProducerKnows, hpc] at hknows
    obtain ⟨rfl, hroom, hvalue⟩ := hknows
    simp only [State.produce, State.returned, hpc]
    have hused := h.used_storeHead hwraps hroom .idle
    refine ⟨⟨hwraps.nextIndex_lt h.head_lt, h.tail_lt, trivial, ?_⟩, ?_⟩
    · exact h.consumer.mono rfl rfl (by omega)
    · rw [h.contents_storeHead hwraps hroom, hvalue]
      refine .pushed _ _ ?_
      rw [length_contents]
      omega

/-- A move of the consumer that moves no value out. -/
theorem State.Inv.moveConsumer (h : s.Inv capacity) {consumer : ConsumerPc V}
    (hold : ∀ tail value, s.consumer ≠ .popStoreTail tail value)
    (hnew : ∀ tail value, consumer ≠ .popStoreTail tail value)
    (hknows : ({ s with consumer := consumer } : State V).ConsumerKnows capacity) :
    Refines capacity s none { s with consumer := consumer } := by
  apply refines_silent
  · exact ⟨h.head_lt, h.tail_lt, h.producer, hknows⟩
  · exact contents_consumer hnew hold

/-- A call of the consumer that leaves the buffer alone returns. -/
theorem State.Inv.returnConsumer (h : s.Inv capacity) {r : Option (Return V)}
    (hold : ∀ tail value, s.consumer ≠ .popStoreTail tail value)
    (hstep : BoundedFifo.Step (capacity - 1) (s.contents capacity) r (s.contents capacity)) :
    Refines capacity s r { s with consumer := .idle } := by
  have hsame : State.contents capacity { s with consumer := .idle } = s.contents capacity :=
    contents_consumer (by simp) hold
  refine ⟨⟨h.head_lt, h.tail_lt, h.producer, trivial⟩, ?_⟩
  rwa [hsame]

theorem State.Inv.contents_eq_nil (h : s.Inv capacity) (hempty : s.tail = s.head) :
    s.contents capacity = [] := by
  rw [← List.length_eq_zero_iff, length_contents, h.used_eq_zero_iff.mp hempty]

theorem State.Inv.used_pos (h : s.Inv capacity) (hne : s.tail ≠ s.head) : 0 < s.used capacity :=
  Nat.pos_of_ne_zero fun hzero => hne (h.used_eq_zero_iff.mpr hzero)

theorem State.Inv.consume (h : s.Inv capacity) (hwraps : Wraps capacity) (moved : V → V) :
    Refines capacity s (s.returned capacity .consume) (s.consume capacity moved) := by
  have hknows := h.consumer
  cases hpc : s.consumer with
  | idle =>
    simp only [State.consume, State.returned, hpc]
    exact ⟨h, .silent _⟩
  | popLoadTail =>
    simp only [State.consume, State.returned, hpc]
    exact h.moveConsumer (by simp [hpc]) (by simp) rfl
  | popLoadHead tail =>
    simp only [State.ConsumerKnows, hpc] at hknows
    subst hknows
    simp only [State.consume, State.returned, hpc]
    by_cases hempty : s.tail = s.head
    · rw [if_pos hempty, if_pos hempty]
      refine h.returnConsumer (by simp [hpc]) ?_
      rw [h.contents_eq_nil hempty]
      exact .empty
    · rw [if_neg hempty, if_neg hempty]
      exact h.moveConsumer (by simp [hpc]) (by simp) ⟨rfl, h.used_pos hempty⟩
  | popReadSlot tail =>
    simp only [State.ConsumerKnows, hpc] at hknows
    obtain ⟨rfl, hused⟩ := hknows
    have hne : s.head ≠ s.tail := fun he => hused.ne' (h.used_eq_zero_iff.mp he.symm)
    simp only [State.consume, State.returned, hpc]
    apply refines_silent
    · refine ⟨h.head_lt, h.tail_lt, ?_, ⟨rfl, hused⟩⟩
      exact h.producer.mono rfl rfl le_rfl (Function.update_of_ne hne ..)
    · -- what is moved out counts for the slot until the tail is stored
      refine contents_congr rfl rfl fun i _ => ?_
      rw [held_eq (s := s) (by simp [hpc])]
      simp only [State.held, Function.update_apply]
      split
      · rename_i he
        rw [he]
      · rfl
  | popStoreTail tail value =>
    simp only [State.ConsumerKnows, hpc] at hknows
    obtain ⟨rfl, hused⟩ := hknows
    simp only [State.consume, State.returned, hpc]
    have hless := h.used_storeTail hwraps hused .idle
    refine ⟨⟨h.head_lt, hwraps.nextIndex_lt h.tail_lt, ?_, trivial⟩, ?_⟩
    · exact h.producer.mono rfl rfl (by omega) rfl
    · rw [h.contents_storeTail hwraps hused hpc]
      exact .popped _ _
  | peekLoadTail =>
    simp only [State.consume, State.returned, hpc]
    exact h.moveConsumer (by simp [hpc]) (by simp) rfl
  | peekLoadHead tail =>
    simp only [State.ConsumerKnows, hpc] at hknows
    subst hknows
    simp only [State.consume, State.returned, hpc]
    by_cases hempty : s.tail = s.head
    · rw [if_pos hempty, if_pos hempty]
      refine h.returnConsumer (by simp [hpc]) ?_
      rw [h.contents_eq_nil hempty]
      exact .peekedEmpty
    · rw [if_neg hempty, if_neg hempty]
      exact h.moveConsumer (by simp [hpc]) (by simp) ⟨rfl, h.used_pos hempty⟩
  | peekReadSlot tail =>
    simp only [State.ConsumerKnows, hpc] at hknows
    obtain ⟨rfl, hused⟩ := hknows
    simp only [State.consume, State.returned, hpc]
    refine h.returnConsumer (by simp [hpc]) ?_
    rw [h.contents_cons hused, held_eq (by simp [hpc])]
    exact .peeked _ _

/-- Every event that the state allows keeps the invariant and is a step of the queue. -/
theorem State.Inv.step (h : s.Inv capacity) (hwraps : Wraps capacity) {e : Event V}
    (hstep : s.Step capacity moved e t) : Refines capacity s (s.returned capacity e) t := by
  obtain ⟨henabled, rfl⟩ := hstep
  cases e with
  | push value =>
    apply refines_silent
    · exact ⟨h.head_lt, h.tail_lt, trivial, h.consumer⟩
    · rfl
  | pop =>
    have hidle : s.consumer = .idle := henabled
    exact h.moveConsumer (by simp [hidle]) (by simp) trivial
  | peek =>
    have hidle : s.consumer = .idle := henabled
    exact h.moveConsumer (by simp [hidle]) (by simp) trivial
  | produce => exact h.produce hwraps
  | consume => exact h.consume hwraps moved

/-- The consumer reads slots in use, the producer writes one that is not. -/
theorem State.Inv.exclusive (h : s.Inv capacity) : s.Exclusive := by
  intro slot hwriting hreading
  have hproducer := h.producer
  have hconsumer := h.consumer
  have hhead : slot = s.head := by
    unfold State.writing at hwriting
    unfold State.ProducerKnows at hproducer
    cases hpc : s.producer <;>
      simp only [hpc, reduceCtorEq, Option.some.injEq] at hwriting hproducer
    rw [← hwriting, hproducer.1]
  have htail : slot = s.tail ∧ 0 < s.used capacity := by
    unfold State.reading at hreading
    unfold State.ConsumerKnows at hconsumer
    cases hpc : s.consumer <;>
      simp only [hpc, reduceCtorEq, Option.some.injEq] at hreading hconsumer
    · rwa [← hreading]
    · rwa [← hreading]
  have hempty := h.used_eq_zero_iff.mp (htail.1.symm.trans hhead)
  omega

end Steps

end OrderbookEngine.RingBuffer
