import Mathlib
import Osisp.Lib.Ring

namespace Osisp.Lab4

def maxDataSize : Nat := 256

structure Message where
  type : UInt8
  hash : UInt16
  size : UInt8
  data : Vector UInt8 maxDataSize
  deriving DecidableEq

/-- The sum of `type` and the first `size` bytes of `data`, in `uint16_t`. -/
def calculateHash (msg : Message) : UInt16 :=
  (List.range msg.size.toNat).foldl (fun hash i => hash + (msg.data.getD i 0).toUInt16)
    msg.type.toUInt16

/-- `generate_message`, which fills in the message variable it is given; `rand i` is the result
of its `i`-th call of `rand`. -/
def generateMessage (rand : Nat → Nat) (msg : Message) : Message :=
  let type := (rand 0 % 256).toUInt8
  let size := (rand 1 % 256).toUInt8
  let data :=
    if size = 0 then Vector.replicate maxDataSize 0
    else Vector.ofFn (fun i : Fin maxDataSize =>
      if i < size.toNat then (rand (i + 2) % 256).toUInt8 else msg.data.get i)
  let msg : Message := { type, size, data, hash := 0 }
  { msg with hash := calculateHash msg }

def queueSize : Nat := 10

/-- `message_queue`, as it lies in the shared segment. The cells of `buffer` below
`QUEUE_SIZE` are used. -/
structure MessageQueue where
  buffer : Nat → Message
  head : Nat
  tail : Nat
  count : Nat
  addedCount : Nat
  removedCount : Nat
  freeSpace : Nat

def Message.zero : Message := ⟨0, 0, 0, Vector.replicate maxDataSize 0⟩

/-- `queue_init`, when the system calls succeed. -/
def queueInit : MessageQueue where
  buffer := fun _ => .zero
  head := 0
  tail := 0
  count := 0
  addedCount := 0
  removedCount := 0
  freeSpace := queueSize

def enqueue (q : MessageQueue) (msg : Message) : MessageQueue :=
  if q.freeSpace = 0 then q
  else
    { buffer := Function.update q.buffer q.tail msg
      head := q.head
      tail := (q.tail + 1) % queueSize
      count := q.count + 1
      addedCount := q.addedCount + 1
      removedCount := q.removedCount
      freeSpace := q.freeSpace - 1 }

/-- `dequeue`; the pointer it returns is the cell it points to. -/
def dequeue (q : MessageQueue) : Option Nat × MessageQueue :=
  if q.count = 0 then (none, q)
  else
    (some q.head,
      { buffer := q.buffer
        head := (q.head + 1) % queueSize
        tail := q.tail
        count := q.count - 1
        addedCount := q.addedCount
        removedCount := q.removedCount + 1
        freeSpace := q.freeSpace + 1 })

/-- The queue after the messages `sent` have been accepted: it holds those that have not been
removed, in order from `head` on, and its counters agree. -/
structure RingOf (sent : List Message) (q : MessageQueue) : Prop where
  head_lt : q.head < queueSize
  window : Osisp.Lib.Window queueSize q.head q.count (fun i => some (q.buffer i))
    (fun k => sent[q.removedCount + k]?)
  tail_eq : q.tail = Osisp.Lib.slot queueSize q.head q.count
  sum_eq : q.count + q.freeSpace = queueSize
  added : q.addedCount = sent.length
  removed : q.removedCount + q.count = sent.length

open Osisp.Lib

theorem queueInit_ringOf : RingOf [] queueInit where
  head_lt := by decide
  window := fun k hk => absurd hk (Nat.not_lt_zero k)
  tail_eq := rfl
  sum_eq := rfl
  added := rfl
  removed := rfl

theorem enqueue_ringOf {sent : List Message} {q : MessageQueue} (hr : RingOf sent q)
    (msg : Message) (hroom : q.freeSpace ≠ 0) : RingOf (sent ++ [msg]) (enqueue q msg) := by
  have hsum := hr.sum_eq
  have hrem := hr.removed
  have hadd := hr.added
  have hq : queueSize = 10 := rfl
  rw [enqueue, if_neg hroom]
  refine ⟨hr.head_lt, ?_, ?_, ?_, ?_, ?_⟩
  · intro k hk
    have hk : k < q.count + 1 := hk
    change some (Function.update q.buffer q.tail msg (slot queueSize q.head k)) =
      (sent ++ [msg])[q.removedCount + k]?
    by_cases hlast : k = q.count
    · subst hlast
      rw [← hr.tail_eq, Function.update_self, hrem]
      simp
    · have hne : slot queueSize q.head k ≠ q.tail := by
        rw [hr.tail_eq]
        intro h
        exact hlast (slot_inj (by omega) (by omega) h)
      have hw : some (q.buffer (slot queueSize q.head k)) = sent[q.removedCount + k]? :=
        hr.window k (by omega)
      rw [Function.update_of_ne hne, hw, List.getElem?_append_left (by omega)]
  · change (q.tail + 1) % queueSize = slot queueSize q.head (q.count + 1)
    rw [hr.tail_eq, slot, slot, Nat.mod_add_mod, Nat.add_assoc]
  · change q.count + 1 + (q.freeSpace - 1) = queueSize
    omega
  · rw [List.length_append, ← hadd]
    rfl
  · rw [List.length_append, ← hrem]
    rfl

/-- A dequeue of a queue that is not empty points to the oldest message and drops it. -/
theorem dequeue_ringOf {sent : List Message} {q : MessageQueue} (hr : RingOf sent q)
    (hitem : q.count ≠ 0) :
    (dequeue q).1 = some q.head ∧ sent[q.removedCount]? = some (q.buffer q.head) ∧
      RingOf sent (dequeue q).2 := by
  have hsum := hr.sum_eq
  have hrem := hr.removed
  rw [dequeue, if_neg hitem]
  refine ⟨rfl, ?_, ?_, ?_, ?_, ?_, hr.added, ?_⟩
  · have hw := hr.window 0 (by omega)
    rw [slot_zero hr.head_lt] at hw
    exact hw.symm
  · exact Nat.mod_lt _ (by decide)
  · intro k hk
    have hw := hr.window.advance k hk
    have hk' : q.removedCount + 1 + k = q.removedCount + (k + 1) := by omega
    change some (q.buffer (slot queueSize ((q.head + 1) % queueSize) k)) =
      sent[q.removedCount + 1 + k]?
    rw [hk']
    exact hw
  · change q.tail = slot queueSize ((q.head + 1) % queueSize) (q.count - 1)
    rw [slot_next, show q.count - 1 + 1 = q.count by omega]
    exact hr.tail_eq
  · change q.count - 1 + (q.freeSpace + 1) = queueSize
    omega
  · change q.removedCount + 1 + (q.count - 1) = sent.length
    omega

end Osisp.Lab4
