import Osisp.Lib.CheckedInt
import Osisp.Lab5.QueueFifo

namespace Osisp.Lab5

open MessageQueue Osisp.Lib

/-- `head`, `tail`, `len` and `max_len` -/
structure Counters where
  head : Int
  tail : Int
  len : Int
  maxLen : Int
  deriving DecidableEq

namespace Counters

variable {α : Type*}

/-- `queue_init` -/
def init : Counters := ⟨0, 0, 0, queueBaseSize⟩

/-- `queue_push` -/
def push (newMessage : Option α) (c : Counters) : Except IntFault Counters :=
  if newMessage.isNone then .ok c
  else if c.maxLen ≤ c.len then .ok c
  else do
    let tail ← (if c.len ≠ 0 then (toInt (c.tail + 1)).bind fun n => intMod n c.maxLen
      else .ok c.tail)
    let len ← toInt (c.len + 1)
    .ok { c with tail, len }

/-- `queue_pop` -/
def pop (c : Counters) : Except IntFault Counters :=
  if c.len = 0 then .ok c
  else do
    let head ← (toInt (c.head + 1)).bind fun n => intMod n c.maxLen
    let len ← toInt (c.len - 1)
    .ok { c with head, len }

/-- `queue_expand` -/
def expand (c : Counters) : Except IntFault Counters := do
  let maxLen ← toInt (c.maxLen + 1)
  let head ← (if c.tail < c.head then toInt (c.head + 1) else .ok c.head)
  .ok { c with head, maxLen }

/-- `queue_reduce`; `minLen` is the capacity at which the copy refuses to go on. -/
def reduceTo (minLen : Int) (c : Counters) : Except IntFault Counters :=
  if c.len = c.maxLen then .ok c
  else if c.maxLen = minLen then .ok c
  else do
    let head ← (if c.tail < c.head then toInt (c.head - 1) else .ok c.head)
    let maxLen ← toInt (c.maxLen - 1)
    .ok { c with head, maxLen }

/-- One call; a push of `NULL` is a `push none`. -/
def call (copy : Copy) (c : Counters) : QueueOp (Option α) → Except IntFault Counters
  | .push newMessage => c.push newMessage
  | .pop => c.pop
  | .expand => c.expand
  | .reduce => c.reduceTo copy.minLen

/-- The calls one after the other, up to the first one with a fault. -/
def run (copy : Copy) (ops : List (QueueOp (Option α))) : Except IntFault Counters :=
  ops.foldlM (call copy) init

end Counters

variable {α : Type*}

/-- The same call on the queue with its array. -/
def MessageQueue.call (copy : Copy) (q : MessageQueue α) : QueueOp (Option α) → MessageQueue α
  | .push newMessage => queuePush newMessage q
  | .pop => (queuePop q).2
  | .expand => queueExpand q
  | .reduce => queueReduce copy q

def MessageQueue.counters (q : MessageQueue α) : Counters := ⟨q.head, q.tail, q.len, q.maxLen⟩

def QueueOp.isExpand : QueueOp α → Bool
  | .expand => true
  | .push _ | .pop | .reduce => false

/-- How many cells the calls add. -/
def expansions (ops : List (QueueOp α)) : Nat := ops.countP QueueOp.isExpand

/-- What every call keeps; `room` bounds all that is counted. -/
structure Ranged (copy : Copy) (room : Nat) (c : Counters) : Prop where
  minLen_le : (copy.minLen : Int) ≤ c.maxLen
  len_nonneg : 0 ≤ c.len
  len_le : c.len ≤ c.maxLen
  maxLen_le : c.maxLen ≤ room
  head : 0 ≤ c.head ∧ c.head < room
  tail : 0 ≤ c.tail ∧ c.tail < room

theorem init_ranged (copy : Copy) : Ranged copy queueBaseSize .init where
  minLen_le := by cases copy <;> decide
  len_nonneg := by decide
  len_le := by decide
  maxLen_le := by decide
  head := by decide
  tail := by decide

@[simp] theorem counters_head (q : MessageQueue α) : q.counters.head = q.head := rfl
@[simp] theorem counters_tail (q : MessageQueue α) : q.counters.tail = q.tail := rfl
@[simp] theorem counters_len (q : MessageQueue α) : q.counters.len = q.len := rfl
@[simp] theorem counters_maxLen (q : MessageQueue α) : q.counters.maxLen = q.maxLen := rfl

section Fields

variable {q : MessageQueue α}

theorem queuePush_counters (m : α) (h : q.len < q.maxLen) :
    (queuePush (some m) q).counters = ⟨q.head, pushCell q, q.len + 1, q.maxLen⟩ := by
  rw [queuePush_accepted m h]
  rfl

theorem queuePop_counters (h : q.len ≠ 0) :
    (queuePop q).2.counters = ⟨(q.head + 1) % q.maxLen, q.tail, q.len - 1, q.maxLen⟩ := by
  have hlen : ((q.len - 1 : Nat) : Int) = q.len - 1 := by omega
  rw [queuePop, if_neg h, ← hlen]
  rfl

theorem queueExpand_counters (q : MessageQueue α) :
    (queueExpand q).counters =
      ⟨if q.tail < q.head then q.head + 1 else q.head, q.tail, q.len, q.maxLen + 1⟩ := by
  by_cases h : q.tail < q.head
  · rw [queueExpand_of_lt h, if_pos h]
    simp [counters]
  · rw [queueExpand_of_le (Nat.not_lt.mp h), if_neg h]
    simp [counters]

theorem queueReduceTo_counters {minLen : Nat} (hlen : q.len ≠ q.maxLen)
    (hmin : q.maxLen ≠ minLen) (hle : q.len ≤ q.maxLen) :
    (queueReduceTo minLen q).counters =
      ⟨if q.tail < q.head then q.head - 1 else q.head, q.tail, q.len, q.maxLen - 1⟩ := by
  have hmax : ((q.maxLen - 1 : Nat) : Int) = q.maxLen - 1 := by omega
  by_cases h : q.tail < q.head
  · have hhead : ((q.head - 1 : Nat) : Int) = q.head - 1 := by omega
    rw [queueReduceTo_of_lt hlen hmin h, if_pos h, ← hmax, ← hhead]
    simp [counters]
  · rw [queueReduceTo_of_le hlen hmin (Nat.not_lt.mp h), if_neg h, ← hmax]
    simp [counters]

end Fields

section Calls

variable {copy : Copy} {room : Nat} {q : MessageQueue α}

/-- The call leaves the fields that the queue has after it, in range, unless they take more room
than an `int` has. -/
def Exact (copy : Copy) (room : Nat) (q : MessageQueue α) : Except IntFault Counters → Prop :=
  Ends (fun e => e = .overflow ∧ 2 ^ 31 ≤ room) fun c => c = q.counters ∧ Ranged copy room c

theorem Ranged.fields (h : Ranged copy room q.counters) :
    copy.minLen ≤ q.maxLen ∧ q.len ≤ q.maxLen ∧ q.maxLen ≤ room ∧ q.head < room ∧
      q.tail < room := by
  obtain ⟨hmin, -, hle, hmax, hhead, htail⟩ := h
  simp only [counters_head, counters_tail, counters_len, counters_maxLen] at *
  omega

theorem ends_next {P : IntFault → Prop} {i maxLen : Nat} (hmax : 0 < maxLen)
    (hover : 2 ^ 31 ≤ i + 1 → P .overflow) :
    Ends P (fun n : Int => n = ((i + 1) % maxLen : Nat))
      ((toInt ((i : Int) + 1)).bind fun n => intMod n maxLen) := by
  refine Ends.bind (Q := fun n : Int => n = i + 1 ∧ n < 2 ^ 31) ?_ ?_
  · refine ends_toInt (by omega) (fun hbig => hover (by omega)) fun hint => ⟨rfl, hint⟩
  · rintro n ⟨rfl, hint⟩
    refine ends_intMod (by omega) hint (by omega) ?_
    rw [Int.natCast_mod, Int.natCast_add]
    rfl

theorem push_exact (h : Ranged copy room q.counters) (newMessage : Option α) :
    Exact copy room (queuePush newMessage q) (q.counters.push newMessage) := by
  obtain ⟨hmin, hle, hmax, hhead, htail⟩ := h.fields
  cases newMessage with
  | none => exact ⟨rfl, h⟩
  | some m =>
    rw [Counters.push, Option.isNone_some, if_neg Bool.false_ne_true]
    by_cases hroom : q.len < q.maxLen
    · have hfree : ¬q.counters.maxLen ≤ q.counters.len := by simpa using hroom
      have hcell : pushCell q < room := by
        rw [pushCell]
        split_ifs
        · have hlt := Nat.mod_lt (q.tail + 1) (Nat.zero_lt_of_lt hroom)
          omega
        · omega
      rw [if_neg hfree, Exact, queuePush_counters m hroom]
      refine Ends.line (Q := fun tail : Int => tail = pushCell q) ?_ ?_
      · rw [pushCell]
        by_cases hempty : q.len = 0
        · have hzero : ¬q.counters.len ≠ 0 := by simp [hempty]
          rw [if_neg hzero, if_neg (not_not.mpr hempty)]
          rfl
        · have hitems : q.counters.len ≠ 0 := by simp [hempty]
          rw [if_pos hitems, if_pos hempty]
          exact ends_next (by omega) fun hbig => ⟨rfl, by omega⟩
      · rintro _ rfl
        rw [counters_len]
        refine line_toInt (by omega) (fun hbig => ⟨rfl, by omega⟩) ?_
        refine ⟨rfl, h.minLen_le, ?_, ?_, h.maxLen_le, h.head, ?_⟩ <;>
          dsimp only [counters_maxLen] <;> omega
    · have hfull : q.counters.maxLen ≤ q.counters.len := by simpa using hroom
      rw [if_pos hfull, queuePush_refused _ (Nat.not_lt.mp hroom)]
      exact ⟨rfl, h⟩

theorem pop_exact (h : Ranged copy room q.counters) :
    Exact copy room (queuePop q).2 q.counters.pop := by
  obtain ⟨hmin, hle, hmax, hhead, htail⟩ := h.fields
  rw [Counters.pop]
  by_cases hempty : q.len = 0
  · rw [if_pos (by simpa using hempty), queuePop, if_pos hempty]
    exact ⟨rfl, h⟩
  · have hcell : (q.head + 1) % q.maxLen < q.maxLen := Nat.mod_lt _ (by omega)
    rw [if_neg (by simpa using hempty), Exact, queuePop_counters hempty]
    refine Ends.line (Q := fun head : Int => head = ((q.head + 1) % q.maxLen : Nat)) ?_ ?_
    · exact ends_next (by omega) fun hbig => ⟨rfl, by omega⟩
    · rintro _ rfl
      rw [counters_len]
      refine line_toInt (by omega) (fun hbig => ⟨rfl, by omega⟩) ?_
      refine ⟨rfl, h.minLen_le, ?_, ?_, h.maxLen_le, ?_, h.tail⟩ <;>
        dsimp only [counters_maxLen] <;> omega

theorem expand_exact (h : Ranged copy room q.counters) :
    Exact copy (room + 1) (queueExpand q) q.counters.expand := by
  obtain ⟨hmin, hle, hmax, hhead, htail⟩ := h.fields
  rw [Exact, queueExpand_counters, Counters.expand, counters_maxLen]
  refine line_toInt (by omega) (fun hbig => ⟨rfl, by omega⟩) ?_
  by_cases hw : q.tail < q.head
  · have hc : q.counters.tail < q.counters.head := by simpa using hw
    rw [if_pos hw, if_pos hc, counters_head]
    refine line_toInt (by omega) (fun hbig => ⟨rfl, by omega⟩) ?_
    refine ⟨rfl, ?_, h.len_nonneg, ?_, ?_, ?_, ?_⟩ <;>
      dsimp only [counters_tail, counters_len] <;> omega
  · have hc : ¬q.counters.tail < q.counters.head := by simpa using hw
    rw [if_neg hw, if_neg hc]
    refine ⟨rfl, ?_, h.len_nonneg, ?_, ?_, ?_, ?_⟩ <;>
      dsimp only [counters_head, counters_tail, counters_len] <;> omega

theorem reduce_exact (h : Ranged copy room q.counters) :
    Exact copy room (queueReduce copy q) (q.counters.reduceTo copy.minLen) := by
  obtain ⟨hmin, hle, hmax, hhead, htail⟩ := h.fields
  rw [queueReduce_eq, Counters.reduceTo]
  by_cases hfull : q.len = q.maxLen
  · have hc : q.counters.len = q.counters.maxLen := congrArg Nat.cast hfull
    rw [if_pos hc, queueReduceTo_refused (.inl hfull)]
    exact ⟨rfl, h⟩
  have hspace : ¬q.counters.len = q.counters.maxLen := fun hc => hfull (Int.ofNat_inj.mp hc)
  rw [if_neg hspace]
  by_cases hsmall : q.maxLen = copy.minLen
  · have hc : q.counters.maxLen = copy.minLen := congrArg Nat.cast hsmall
    rw [if_pos hc, queueReduceTo_refused (.inr hsmall)]
    exact ⟨rfl, h⟩
  have hlarge : ¬q.counters.maxLen = copy.minLen := fun hc => hsmall (Int.ofNat_inj.mp hc)
  rw [if_neg hlarge, Exact, queueReduceTo_counters hfull hsmall hle]
  by_cases hw : q.tail < q.head
  · have hc : q.counters.tail < q.counters.head := by simpa using hw
    rw [if_pos hw, if_pos hc, counters_head, counters_maxLen]
    refine line_toInt (by omega) (fun hbig => ⟨rfl, by omega⟩) ?_
    refine line_toInt (by omega) (fun hbig => ⟨rfl, by omega⟩) ?_
    refine ⟨rfl, ?_, h.len_nonneg, ?_, ?_, ?_, h.tail⟩ <;> dsimp only [counters_len] <;> omega
  · have hc : ¬q.counters.tail < q.counters.head := by simpa using hw
    rw [if_neg hw, if_neg hc, counters_maxLen]
    refine line_toInt (by omega) (fun hbig => ⟨rfl, by omega⟩) ?_
    refine ⟨rfl, ?_, h.len_nonneg, ?_, ?_, h.head, h.tail⟩ <;> dsimp only [counters_len] <;> omega

theorem call_exact (h : Ranged copy room q.counters) (op : QueueOp (Option α)) :
    Exact copy (room + expansions [op]) (q.call copy op) (q.counters.call copy op) := by
  cases op with
  | push newMessage => exact push_exact h newMessage
  | pop => exact pop_exact h
  | expand => exact expand_exact h
  | reduce => exact reduce_exact h

/-- The calls one after the other, in `int` and on the queue with its array. -/
theorem foldlM_exact (h : Ranged copy room q.counters) (ops : List (QueueOp (Option α))) :
    Exact copy (room + expansions ops) (ops.foldl (MessageQueue.call copy) q)
      (ops.foldlM (Counters.call copy) q.counters) := by
  induction ops generalizing room q with
  | nil => exact ⟨rfl, h⟩
  | cons op ops ih =>
    have hcount : expansions ([op] ++ ops) = expansions [op] + expansions ops := List.countP_append
    rw [List.singleton_append] at hcount
    rw [List.foldlM_cons, List.foldl_cons, hcount, ← Nat.add_assoc]
    refine Ends.line ((call_exact h op).imp ?_ fun c hc => hc) ?_
    · rintro e ⟨he, hbig⟩
      exact ⟨he, by omega⟩
    · rintro _ ⟨rfl, hnext⟩
      exact ih hnext

end Calls

theorem run_exact (copy : Copy) (ops : List (QueueOp (Option α))) :
    Exact copy (queueBaseSize + expansions ops) (ops.foldl (MessageQueue.call copy) queueInit)
      (Counters.run copy ops) := foldlM_exact (init_ranged copy) ops

/-- After any calls the capacity of 5.1 is at least one, that of 5.2 is not negative, and the length
does not exceed it; no modulus is zero. The fields are those of the queue with its array; only more
than `INT_MAX` cells could take them out of `int`. The capacity of 5.2 can go down to zero and up
again. -/
theorem counters_in_range :
    (∀ (copy : Copy) (ops : List (QueueOp (Option α))),
      Counters.run copy ops ≠ .error .zeroModulus ∧
      (∀ c, Counters.run copy ops = .ok c →
        (copy = .lab51 → 1 ≤ c.maxLen) ∧ 0 ≤ c.maxLen ∧ 0 ≤ c.len ∧ c.len ≤ c.maxLen ∧
          c = (ops.foldl (MessageQueue.call copy) queueInit).counters) ∧
      (Counters.run copy ops = .error .overflow → 2 ^ 31 ≤ queueBaseSize + expansions ops)) ∧
    ∃ (ops : List (QueueOp (Option α))) (c c' : Counters),
      Counters.run .lab52 ops = .ok c ∧ c.maxLen = 0 ∧
        Counters.run .lab52 (ops ++ [.expand]) = .ok c' ∧ c'.maxLen = 1 := by
  constructor
  · intro copy ops
    have hrun := run_exact copy ops
    refine ⟨?_, ?_, ?_⟩
    · intro h
      cases (hrun.of_error h).1
    · intro c h
      obtain ⟨heq, hmin, hnonneg, hle, -, -, -⟩ := hrun.of_ok h
      refine ⟨?_, hnonneg.trans hle, hnonneg, hle, heq⟩
      rintro rfl
      exact hmin
    · intro h
      exact (hrun.of_error h).2
  · exact ⟨List.replicate 10 .reduce, ⟨0, 0, 0, 0⟩, ⟨0, 0, 0, 1⟩, rfl, rfl, rfl, rfl⟩

theorem counters_in_range_sample :
    ∃ c, Counters.run .lab51 [.push (some 1), .push (some 2), .pop, .expand, .reduce] = .ok c ∧
      1 ≤ c.maxLen ∧ 0 ≤ c.len ∧ c.len ≤ c.maxLen := by
  have hrun : Counters.run .lab51 [.push (some 1), .push (some 2), .pop, .expand, .reduce] =
      .ok ⟨1, 1, 1, 10⟩ := rfl
  obtain ⟨hmin, -, hnonneg, hle, -⟩ := (counters_in_range.1 .lab51 _).2.1 _ hrun
  exact ⟨_, hrun, hmin rfl, hnonneg, hle⟩

end Osisp.Lab5
