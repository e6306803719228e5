import Osisp.Lab5.QueueFifo

namespace Osisp.Lab5

open Osisp.Lib

variable {α : Type*}

/-- The messages that the calls are to add. -/
def pushed : List (QueueOp α) → List α
  | [] => []
  | .push m :: ops => m :: pushed ops
  | .pop :: ops | .expand :: ops | .reduce :: ops => pushed ops

/-- How many messages the calls are to take. -/
def pops : List (QueueOp α) → Nat
  | [] => 0
  | .pop :: ops => pops ops + 1
  | .push _ :: ops | .expand :: ops | .reduce :: ops => pops ops

@[simp] theorem pushed_append (ops ops' : List (QueueOp α)) :
    pushed (ops ++ ops') = pushed ops ++ pushed ops' := by
  induction ops with
  | nil => simp [pushed]
  | cons op ops ih => cases op <;> simp [pushed, ih]

@[simp] theorem pops_append (ops ops' : List (QueueOp α)) :
    pops (ops ++ ops') = pops ops + pops ops' := by
  induction ops with
  | nil => simp [pops]
  | cons op ops ih =>
    cases op
    case pop =>
      simp [pops, ih]
      omega
    all_goals simp [pops, ih]

/-- The queue is that of the calls, no push was refused and no pop met an empty queue. -/
structure Serial (copy : Copy) (ops : List (QueueOp α)) (q : MessageQueue α) : Prop where
  queue_eq : q = (Session.run copy ops).queue
  accepted_eq : (Session.run copy ops).accepted = pushed ops
  len_eq : q.len + pops ops = (pushed ops).length
  fits : q.len ≤ q.maxLen

theorem Session.run_append (copy : Copy) (ops : List (QueueOp α)) (op : QueueOp α) :
    Session.run copy (ops ++ [op]) = (Session.run copy ops).step copy op := by
  simp [Session.run]

theorem init_serial (copy : Copy) : Serial copy [] (queueInit : MessageQueue α) where
  queue_eq := rfl
  accepted_eq := rfl
  len_eq := rfl
  fits := Nat.zero_le _

section

variable {copy : Copy} {ops : List (QueueOp α)} {q : MessageQueue α}

theorem Serial.push (hi : Serial copy ops q) (m : α) (hroom : q.len < q.maxLen) :
    Serial copy (ops ++ [.push m]) (queuePush (some m) q) := by
  have hlen : (queuePush (some m) q).len = q.len + 1 := by
    rw [queuePush_len, if_pos hroom]
  have hold := hi.len_eq
  refine ⟨?_, ?_, ?_, ?_⟩
  · simp [Session.run_append, Session.step, ← hi.queue_eq]
  · simp [Session.run_append, Session.step, ← hi.queue_eq, hroom, hi.accepted_eq, pushed]
  · simp only [pops_append, pushed_append, List.length_append, hlen, pops, pushed,
      List.length_singleton]
    omega
  · rw [hlen, queuePush_maxLen]
    omega

theorem Serial.pop (hi : Serial copy ops q) (hitem : 0 < q.len) :
    Serial copy (ops ++ [.pop]) (queuePop q).2 := by
  have hlen : (queuePop q).2.len = q.len - 1 := queuePop_len q
  have hold := hi.len_eq
  have hfits := hi.fits
  refine ⟨?_, ?_, ?_, ?_⟩
  · simp [Session.run_append, Session.step, ← hi.queue_eq]
  · simp [Session.run_append, Session.step, hi.accepted_eq, pushed]
  · simp only [pops_append, pushed_append, List.length_append, hlen, pops, pushed,
      List.length_nil]
    omega
  · rw [hlen, queuePop_maxLen]
    omega

theorem Serial.expand (hi : Serial copy ops q) :
    Serial copy (ops ++ [.expand]) (queueExpand q) := by
  have hold := hi.len_eq
  have hfits := hi.fits
  refine ⟨?_, ?_, ?_, ?_⟩
  · simp [Session.run_append, Session.step, ← hi.queue_eq]
  · simp [Session.run_append, Session.step, hi.accepted_eq, pushed]
  · simpa [pops, pushed, queueExpand_len] using hold
  · rw [queueExpand_len, queueExpand_maxLen]
    omega

theorem Serial.reduce (hi : Serial copy ops q) :
    Serial copy (ops ++ [.reduce]) (queueReduce copy q) := by
  have hold := hi.len_eq
  have hfits := hi.fits
  refine ⟨?_, ?_, ?_, ?_⟩
  · simp [Session.run_append, Session.step, ← hi.queue_eq]
  · simp [Session.run_append, Session.step, hi.accepted_eq, pushed]
  · simpa [pops, pushed, queueReduce_len] using hold
  · rw [queueReduce_len, queueReduce_maxLen]
    split_ifs
    all_goals omega

/-- Where every call is sound, the calls took the oldest messages, in order, and touched no cell
outside the array. -/
theorem Serial.in_order (hi : Serial copy ops q) (hs : Session.SoundRun copy Session.init ops) :
    (Session.run copy ops).returned = (pushed ops).take (pops ops) ∧ q.fault = false := by
  obtain ⟨l, hk⟩ : ∃ l, (Session.run copy ops).Keeps l :=
    Session.run_keeps ops Session.init_keeps hs
  have hfifo := hk.fifo
  have hlen := hfifo.len_eq
  have hold := hi.len_eq
  rw [← hi.queue_eq, hi.accepted_eq] at hlen
  have hprefix := hfifo.returned_isPrefix
  rw [hi.accepted_eq] at hprefix
  constructor
  · rw [List.prefix_iff_eq_take.mp hprefix]
    congr 1
    omega
  · rw [hi.queue_eq]
    exact hk.queue.noFault

end

end Osisp.Lab5
