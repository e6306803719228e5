import Osisp.Lib.BoundedFifo
import Osisp.Lab4.RingBuffer

namespace Osisp.Lab4

open Osisp.Lib

inductive QueueOp where
  | enqueue (msg : Message)
  | dequeue

/-- Calls on one queue, with the messages of the accepted enqueues and what the cells returned by
the dequeues held at the return. -/
structure Session where
  queue : MessageQueue
  accepted : List Message
  returned : List Message

namespace Session

def init : Session := ⟨queueInit, [], []⟩

/-- One call. An enqueue is accepted when it is made with `free_space > 0`. -/
def step (s : Session) : QueueOp → Session
  | .enqueue msg =>
    { queue := enqueue s.queue msg
      accepted := if 0 < s.queue.freeSpace then s.accepted ++ [msg] else s.accepted
      returned := s.returned }
  | .dequeue =>
    let (msg, queue) := dequeue s.queue
    { queue
      accepted := s.accepted
      returned := s.returned ++ (msg.map queue.buffer).toList }

def run (ops : List QueueOp) : Session := ops.foldl step init

/-- The session keeps the books `l`: its queue is the ring of the accepted messages, of which
those returned are removed. -/
structure Keeps (s : Session) (l : Ledger Message) : Prop where
  ring : RingOf s.accepted s.queue
  accepted : s.accepted = l.accepted
  returned : s.returned = l.returned
  removed : s.queue.removedCount = l.returned.length
  capacity : l.fifo.capacity = queueSize

theorem Keeps.count_eq {s : Session} {l : Ledger Message} (hk : s.Keeps l) :
    s.queue.count = l.fifo.items.length := by
  have hr := hk.ring.removed
  have hl := l.length_eq
  rw [hk.accepted, hk.removed] at hr
  omega

theorem init_keeps : init.Keeps (.empty queueSize) where
  ring := queueInit_ringOf
  accepted := rfl
  returned := rfl
  removed := rfl
  capacity := rfl

/-- An enqueue is a push: the counter it tests says whether the buffer of the books is full. -/
theorem enqueue_keeps {s : Session} {l : Ledger Message} (hk : s.Keeps l) (msg : Message) :
    (s.step (.enqueue msg)).Keeps (l.push msg) := by
  have hcount := hk.count_eq
  have hsum := hk.ring.sum_eq
  have hcap := hk.capacity
  by_cases hfree : s.queue.freeSpace = 0
  · have hfull : l.fifo.capacity ≤ l.fifo.items.length := by omega
    have hq : enqueue s.queue msg = s.queue := if_pos hfree
    have hacc : (s.step (.enqueue msg)).accepted = s.accepted := if_neg (by omega)
    refine ⟨?_, ?_, hk.returned, ?_, ?_⟩
    · rw [hacc]
      change RingOf s.accepted (enqueue s.queue msg)
      rw [hq]
      exact hk.ring
    · rw [hacc, hk.accepted]
      exact (if_neg (Nat.not_lt.mpr hfull)).symm
    · change (enqueue s.queue msg).removedCount = l.returned.length
      rw [hq]
      exact hk.removed
    · change (l.fifo.push msg).capacity = queueSize
      rw [BoundedFifo.push_of_le msg hfull]
      exact hcap
  · have hroom : l.fifo.items.length < l.fifo.capacity := by omega
    have hacc : (s.step (.enqueue msg)).accepted = s.accepted ++ [msg] :=
      if_pos (Nat.pos_of_ne_zero hfree)
    refine ⟨?_, ?_, hk.returned, ?_, ?_⟩
    · rw [hacc]
      exact enqueue_ringOf hk.ring msg hfree
    · rw [hacc, hk.accepted]
      exact (if_pos hroom).symm
    · change (enqueue s.queue msg).removedCount = l.returned.length
      rw [enqueue, if_neg hfree]
      exact hk.removed
    · change (l.fifo.push msg).capacity = queueSize
      rw [(BoundedFifo.push_of_lt msg hroom).2]
      exact hcap

/-- A dequeue is a pop: `NULL` on the empty buffer, and else the cell with its front. -/
theorem dequeue_keeps {s : Session} {l : Ledger Message} (hk : s.Keeps l) :
    (s.step .dequeue).Keeps l.pop := by
  have hcount := hk.count_eq
  by_cases hempty : s.queue.count = 0
  · have hq : dequeue s.queue = (none, s.queue) := if_pos hempty
    have hnil : l.fifo.items = [] := List.length_eq_zero_iff.mp (by omega)
    have hstep : s.step .dequeue = s := by
      simp only [step, hq, Option.map_none, Option.toList_none, List.append_nil]
    have hpop : l.pop.returned = l.returned := by simp [Ledger.pop, hnil]
    rw [hstep]
    exact ⟨hk.ring, hk.accepted, hk.returned.trans hpop.symm, by rw [hpop]; exact hk.removed,
      hk.capacity⟩
  · obtain ⟨hcell, hmsg, hring⟩ := dequeue_ringOf hk.ring hempty
    have hbuf : (dequeue s.queue).2.buffer = s.queue.buffer := by
      rw [dequeue, if_neg hempty]
    have hrem : (dequeue s.queue).2.removedCount = s.queue.removedCount + 1 := by
      rw [dequeue, if_neg hempty]
    have hhead : l.fifo.items.head? = some (s.queue.buffer s.queue.head) := by
      rw [← l.oldest, ← hk.accepted, ← hk.removed]
      exact hmsg
    have hpop : l.pop.returned = l.returned ++ [s.queue.buffer s.queue.head] := by
      simp [Ledger.pop, hhead]
    refine ⟨hring, hk.accepted, ?_, ?_, hk.capacity⟩
    · rw [hpop, ← hk.returned]
      simp only [step, hcell, hbuf, Option.map_some, Option.toList_some]
    · rw [hpop, List.length_append, ← hk.removed]
      exact hrem

theorem run_keeps (ops : List QueueOp) {s : Session} {l : Ledger Message} (hk : s.Keeps l) :
    ∃ l', (ops.foldl step s).Keeps l' := by
  induction ops generalizing s l with
  | nil => exact ⟨l, hk⟩
  | cons op ops ih =>
    cases op with
    | enqueue msg => exact ih (enqueue_keeps hk msg)
    | dequeue => exact ih (dequeue_keeps hk)

/-- The messages that are stored: accepted and not yet returned. -/
def stored (s : Session) : Nat := s.accepted.length - s.returned.length

/-- What a session of a bounded FIFO satisfies at every moment. -/
structure Fifo (s : Session) : Prop where
  returned_isPrefix : s.returned <+: s.accepted
  refused_iff : s.queue.freeSpace = 0 ↔ s.stored = queueSize
  null_iff : (dequeue s.queue).1 = none ↔ s.stored = 0
  refused_same : s.queue.freeSpace = 0 → ∀ msg, enqueue s.queue msg = s.queue
  null_same : (dequeue s.queue).1 = none → (dequeue s.queue).2 = s.queue

/-- The counters agree. -/
structure Consistent (q : MessageQueue) : Prop where
  sum_eq : q.count + q.freeSpace = queueSize
  count_eq : q.count + q.removedCount = q.addedCount
  tail_eq : q.tail = (q.head + q.count) % queueSize

theorem Keeps.fifo {s : Session} {l : Ledger Message} (hk : s.Keeps l) : s.Fifo := by
  have hcount := hk.count_eq
  have hsum := hk.ring.sum_eq
  have hstored : s.stored = s.queue.count := by
    have hl := l.length_eq
    rw [stored, hk.accepted, hk.returned]
    omega
  have hnull : (dequeue s.queue).1 = none ↔ s.queue.count = 0 := by
    unfold dequeue
    split_ifs with h <;> simp [h]
  refine ⟨?_, ?_, ?_, ?_, ?_⟩
  · rw [hk.returned, hk.accepted]
    exact l.returned_isPrefix
  · rw [hstored]
    omega
  · rw [hstored]
    exact hnull
  · intro hfree msg
    exact if_pos hfree
  · intro h
    rw [dequeue, if_pos (hnull.mp h)]

theorem Keeps.consistent {s : Session} {l : Ledger Message} (hk : s.Keeps l) :
    Consistent s.queue where
  sum_eq := hk.ring.sum_eq
  count_eq := by
    rw [hk.ring.added, ← hk.ring.removed]
    exact Nat.add_comm _ _
  tail_eq := hk.ring.tail_eq

/-- The ring buffer is a bounded FIFO, whatever is called. With fewer than `2 ^ 31` accepted
messages no counter leaves the range of an `int`. -/
theorem ring_buffer_fifo (ops : List QueueOp) (h : (run ops).accepted.length < 2 ^ 31) :
    (run ops).Fifo ∧ Consistent (run ops).queue ∧
      (run ops).queue.addedCount < 2 ^ 31 ∧ (run ops).queue.removedCount < 2 ^ 31 := by
  obtain ⟨l, hk⟩ : ∃ l, (run ops).Keeps l := run_keeps ops init_keeps
  have hadded := hk.ring.added
  have hremoved := hk.ring.removed
  refine ⟨hk.fifo, hk.consistent, ?_, ?_⟩ <;> omega

/-- Eleven enqueues, of which the last is refused, and a dequeue. -/
theorem ring_buffer_fifo_full :
    (run (List.replicate 11 (.enqueue .zero) ++ [.dequeue])).Fifo :=
  (ring_buffer_fifo (List.replicate 11 (.enqueue .zero) ++ [.dequeue]) (by decide)).1

end Session

end Osisp.Lab4
