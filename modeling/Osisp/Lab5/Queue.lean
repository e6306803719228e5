import Mathlib.Data.List.Basic

namespace Osisp.Lab5

def queueBaseSize : Nat := 10

/-- `message_queue_t`. A `NULL` message pointer is `none`. `fault` is no field of the
source: it records that a cell outside the allocated array has been read or written. -/
structure MessageQueue (α : Type*) where
  head : Nat
  tail : Nat
  len : Nat
  maxLen : Nat
  messages : List (Option α)
  fault : Bool
  deriving DecidableEq, Repr

namespace MessageQueue

variable {α : Type*}

/-- The pointer in `messages[i]`. -/
def cell (q : MessageQueue α) (i : Nat) : Option α := q.messages[i]?.join

/-- `messages[i]` is accessed. -/
def touch (q : MessageQueue α) (i : Nat) : MessageQueue α :=
  { q with fault := q.fault || decide (q.messages.length ≤ i) }

/-- `messages[i] = v` -/
def store (q : MessageQueue α) (i : Nat) (v : Option α) : MessageQueue α :=
  { q.touch i with messages := q.messages.set i v }

/-- `messages[i] = messages[j]` -/
def copy (q : MessageQueue α) (i j : Nat) : MessageQueue α := (q.touch j).store i (q.cell j)

/-- `realloc` to `n` cells. A new cell is indeterminate in C; every caller below writes it
before it is read. -/
def realloc (q : MessageQueue α) (n : Nat) : MessageQueue α :=
  { q with messages := q.messages.take n ++ List.replicate (n - q.messages.length) none }

end MessageQueue

open MessageQueue

variable {α : Type*}

def queueInit : MessageQueue α where
  head := 0
  tail := 0
  len := 0
  maxLen := queueBaseSize
  messages := List.replicate queueBaseSize none
  fault := false

/-- `for (int i = n; i > head; i--) messages[i] = messages[i - 1]` -/
def shiftUp (q : MessageQueue α) (head : Nat) : Nat → MessageQueue α
  | 0 => q
  | i + 1 => if head < i + 1 then shiftUp (q.copy (i + 1) i) head i else q

def queueExpand (q : MessageQueue α) : MessageQueue α :=
  let q := { q with maxLen := q.maxLen + 1 }.realloc (q.maxLen + 1)
  if q.tail < q.head then
    let q := (shiftUp q q.head (q.maxLen - 1)).store q.head none
    { q with head := q.head + 1 }
  else q.store (q.maxLen - 1) none

/-- `for (int i = i; n iterations; i++) messages[i - 1] = messages[i]` -/
def shiftDown (q : MessageQueue α) (i : Nat) : Nat → MessageQueue α
  | 0 => q
  | n + 1 => shiftDown (q.copy (i - 1) i) (i + 1) n

/-- `queue_reduce`; `minLen` is the capacity at which the copy refuses to go on. -/
def queueReduceTo (minLen : Nat) (q : MessageQueue α) : MessageQueue α :=
  if q.len = q.maxLen then q
  else if q.maxLen = minLen then q
  else
    let q :=
      if q.tail < q.head then
        let q := (shiftDown q q.head (q.maxLen - q.head)).store (q.maxLen - 1) none
        { q with head := q.head - 1 }
      else q
    { q with maxLen := q.maxLen - 1 }.realloc (q.maxLen - 1)

/-- `queue_reduce` of lab5/5.1, which stops at one cell. -/
def queueReduce51 (q : MessageQueue α) : MessageQueue α := queueReduceTo 1 q

/-- `queue_reduce` of lab5/5.2, which stops at no cell. -/
def queueReduce52 (q : MessageQueue α) : MessageQueue α := queueReduceTo 0 q

/-- The two copies of `queue.c`; they differ in `queue_reduce` only. -/
inductive Copy where
  | lab51
  | lab52
  deriving DecidableEq

def queueReduce (copy : Copy) (q : MessageQueue α) : MessageQueue α :=
  match copy with
  | .lab51 => queueReduce51 q
  | .lab52 => queueReduce52 q

def queuePush (newMessage : Option α) (q : MessageQueue α) : MessageQueue α :=
  if newMessage.isNone then q
  else if q.maxLen ≤ q.len then q
  else
    let q := if q.len ≠ 0 then { q with tail := (q.tail + 1) % q.maxLen } else q
    let q := q.store q.tail newMessage
    { q with len := q.len + 1 }

def queuePop (q : MessageQueue α) : Option α × MessageQueue α :=
  if q.len = 0 then (none, q)
  else
    let data := q.cell q.head
    let q := q.store q.head none
    (data, { q with head := (q.head + 1) % q.maxLen, len := q.len - 1 })

def queueIsFull (q : MessageQueue α) : Bool := q.len == q.maxLen

def queueIsEmpty (q : MessageQueue α) : Bool := q.len == 0

namespace MessageQueue

@[simp] theorem store_head (q : MessageQueue α) (i : Nat) (v : Option α) :
    (q.store i v).head = q.head := rfl
@[simp] theorem store_tail (q : MessageQueue α) (i : Nat) (v : Option α) :
    (q.store i v).tail = q.tail := rfl
@[simp] theorem store_len (q : MessageQueue α) (i : Nat) (v : Option α) :
    (q.store i v).len = q.len := rfl
@[simp] theorem store_maxLen (q : MessageQueue α) (i : Nat) (v : Option α) :
    (q.store i v).maxLen = q.maxLen := rfl
@[simp] theorem store_length (q : MessageQueue α) (i : Nat) (v : Option α) :
    (q.store i v).messages.length = q.messages.length := List.length_set
@[simp] theorem realloc_head (q : MessageQueue α) (n : Nat) : (q.realloc n).head = q.head := rfl
@[simp] theorem realloc_tail (q : MessageQueue α) (n : Nat) : (q.realloc n).tail = q.tail := rfl
@[simp] theorem realloc_len (q : MessageQueue α) (n : Nat) : (q.realloc n).len = q.len := rfl
@[simp] theorem realloc_maxLen (q : MessageQueue α) (n : Nat) :
    (q.realloc n).maxLen = q.maxLen := rfl
@[simp] theorem realloc_fault (q : MessageQueue α) (n : Nat) :
    (q.realloc n).fault = q.fault := rfl

@[simp] theorem realloc_length (q : MessageQueue α) (n : Nat) :
    (q.realloc n).messages.length = n := by
  simp only [realloc, List.length_append, List.length_take, List.length_replicate]
  omega

theorem store_fault {q : MessageQueue α} {i : Nat} (v : Option α) (h : i < q.messages.length) :
    (q.store i v).fault = q.fault := by
  simp [store, touch, Nat.not_le.mpr h]

theorem store_cell {q : MessageQueue α} {i : Nat} (v : Option α) (h : i < q.messages.length) :
    (q.store i v).cell = Function.update q.cell i v := by
  funext j
  by_cases hj : j = i
  · subst hj
    simp [cell, store, h]
  · have hij : i ≠ j := fun e => hj e.symm
    simp [cell, store, hj, hij]

theorem copy_cell {q : MessageQueue α} {i j : Nat} (h : i < q.messages.length) :
    (q.copy i j).cell = Function.update q.cell i (q.cell j) :=
  store_cell (q := q.touch j) (q.cell j) h

theorem copy_fault {q : MessageQueue α} {i j : Nat} (hi : i < q.messages.length)
    (hj : j < q.messages.length) : (q.copy i j).fault = q.fault := by
  have h : (q.touch j).fault = q.fault := by simp [touch, Nat.not_le.mpr hj]
  rw [copy, store_fault (q := q.touch j) (q.cell j) hi, h]

theorem realloc_cell (q : MessageQueue α) (n i : Nat) :
    (q.realloc n).cell i = if i < n then q.cell i else none := by
  simp only [cell, realloc]
  by_cases hi : i < n
  · by_cases hq : i < q.messages.length
    · have ht : i < (q.messages.take n).length := by simp; omega
      rw [List.getElem?_append_left ht, List.getElem?_take_of_lt hi, if_pos hi]
    · have hnone : q.messages[i]? = none := List.getElem?_eq_none (Nat.le_of_not_lt hq)
      have ht : (q.messages.take n).length ≤ i := by rw [List.length_take]; omega
      rw [List.getElem?_append_right ht, if_pos hi, hnone, List.getElem?_replicate]
      split_ifs <;> rfl
  · rw [List.getElem?_eq_none (by simp; omega), if_neg hi]
    rfl

end MessageQueue

end Osisp.Lab5
