import Osisp.Lib.Ring
import Osisp.Lab5.Queue

namespace Osisp.Lab5

open MessageQueue Osisp.Lib

variable {α : Type*}

theorem shiftUp_frame (q : MessageQueue α) (head n : Nat) :
    (shiftUp q head n).head = q.head ∧ (shiftUp q head n).tail = q.tail ∧
    (shiftUp q head n).len = q.len ∧ (shiftUp q head n).maxLen = q.maxLen ∧
    (shiftUp q head n).messages.length = q.messages.length := by
  induction n generalizing q with
  | zero => simp [shiftUp]
  | succ n ih =>
    unfold shiftUp
    split_ifs
    · simpa [copy, store, touch] using ih (q.copy (n + 1) n)
    · simp

@[simp] theorem shiftUp_head (q : MessageQueue α) (head n : Nat) :
    (shiftUp q head n).head = q.head := (shiftUp_frame q head n).1
@[simp] theorem shiftUp_tail (q : MessageQueue α) (head n : Nat) :
    (shiftUp q head n).tail = q.tail := (shiftUp_frame q head n).2.1
@[simp] theorem shiftUp_len (q : MessageQueue α) (head n : Nat) :
    (shiftUp q head n).len = q.len := (shiftUp_frame q head n).2.2.1
@[simp] theorem shiftUp_maxLen (q : MessageQueue α) (head n : Nat) :
    (shiftUp q head n).maxLen = q.maxLen := (shiftUp_frame q head n).2.2.2.1
@[simp] theorem shiftUp_length (q : MessageQueue α) (head n : Nat) :
    (shiftUp q head n).messages.length = q.messages.length := (shiftUp_frame q head n).2.2.2.2

theorem shiftUp_cell (q : MessageQueue α) (head n : Nat) (hn : n < q.messages.length) (i : Nat) :
    (shiftUp q head n).cell i = if head < i ∧ i ≤ n then q.cell (i - 1) else q.cell i := by
  induction n generalizing q with
  | zero => rw [shiftUp, if_neg (by omega)]
  | succ n ih =>
    unfold shiftUp
    by_cases h : head < n + 1
    · have hlen : (q.copy (n + 1) n).messages.length = q.messages.length := List.length_set
      rw [if_pos h, ih _ (by omega), copy_cell hn]
      by_cases hi : i = n + 1
      · subst hi
        rw [if_neg (by omega), if_pos (by omega)]
        simp
      · have hi' : i - 1 ≠ n + 1 ∨ i = n + 2 := by omega
        by_cases hr : head < i ∧ i ≤ n
        · rw [if_pos hr, if_pos (by omega), Function.update_of_ne (by omega)]
        · rw [if_neg hr, if_neg (by omega), Function.update_of_ne hi]
    · rw [if_neg h, if_neg (by omega)]

theorem shiftUp_fault (q : MessageQueue α) (head n : Nat) (hn : n < q.messages.length) :
    (shiftUp q head n).fault = q.fault := by
  induction n generalizing q with
  | zero => rfl
  | succ n ih =>
    unfold shiftUp
    have hlen : (q.copy (n + 1) n).messages.length = q.messages.length := List.length_set
    split_ifs
    · rw [ih _ (by omega), copy_fault hn (by omega)]
    · rfl

theorem shiftDown_frame (q : MessageQueue α) (i n : Nat) :
    (shiftDown q i n).head = q.head ∧ (shiftDown q i n).tail = q.tail ∧
    (shiftDown q i n).len = q.len ∧ (shiftDown q i n).maxLen = q.maxLen ∧
    (shiftDown q i n).messages.length = q.messages.length := by
  induction n generalizing q i with
  | zero => simp [shiftDown]
  | succ n ih => simpa [shiftDown, copy, store, touch] using ih (q.copy (i - 1) i) (i + 1)

@[simp] theorem shiftDown_head (q : MessageQueue α) (i n : Nat) :
    (shiftDown q i n).head = q.head := (shiftDown_frame q i n).1
@[simp] theorem shiftDown_tail (q : MessageQueue α) (i n : Nat) :
    (shiftDown q i n).tail = q.tail := (shiftDown_frame q i n).2.1
@[simp] theorem shiftDown_len (q : MessageQueue α) (i n : Nat) :
    (shiftDown q i n).len = q.len := (shiftDown_frame q i n).2.2.1
@[simp] theorem shiftDown_maxLen (q : MessageQueue α) (i n : Nat) :
    (shiftDown q i n).maxLen = q.maxLen := (shiftDown_frame q i n).2.2.2.1
@[simp] theorem shiftDown_length (q : MessageQueue α) (i n : Nat) :
    (shiftDown q i n).messages.length = q.messages.length := (shiftDown_frame q i n).2.2.2.2

theorem shiftDown_cell (q : MessageQueue α) (i n : Nat) (hi : 0 < i)
    (hn : i + n ≤ q.messages.length) (j : Nat) :
    (shiftDown q i n).cell j = if i ≤ j + 1 ∧ j + 1 < i + n then q.cell (j + 1) else q.cell j := by
  induction n generalizing q i with
  | zero => rw [shiftDown, if_neg (by omega)]
  | succ n ih =>
    have hlen : (q.copy (i - 1) i).messages.length = q.messages.length := List.length_set
    rw [shiftDown, ih _ _ (by omega) (by omega), copy_cell (by omega)]
    by_cases hj : j + 1 = i
    · rw [if_neg (by omega), if_pos (by omega), show j = i - 1 by omega]
      simp [show i - 1 + 1 = i by omega]
    · by_cases hr : i + 1 ≤ j + 1 ∧ j + 1 < i + 1 + n
      · rw [if_pos hr, if_pos (by omega), Function.update_of_ne (by omega)]
      · rw [if_neg hr, if_neg (by omega), Function.update_of_ne (by omega)]

theorem shiftDown_fault (q : MessageQueue α) (i n : Nat) (hi : 0 < i)
    (hn : i + n ≤ q.messages.length) : (shiftDown q i n).fault = q.fault := by
  induction n generalizing q i with
  | zero => rfl
  | succ n ih =>
    have hlen : (q.copy (i - 1) i).messages.length = q.messages.length := List.length_set
    rw [shiftDown, ih _ _ (by omega) (by omega), copy_fault (by omega) (by omega)]

@[simp] theorem queuePush_maxLen (m : Option α) (q : MessageQueue α) :
    (queuePush m q).maxLen = q.maxLen := by
  unfold queuePush
  split_ifs <;> rfl

def pushCell (q : MessageQueue α) : Nat :=
  if q.len ≠ 0 then (q.tail + 1) % q.maxLen else q.tail

theorem queuePush_accepted (m : α) {q : MessageQueue α} (h : q.len < q.maxLen) :
    queuePush (some m) q =
      { ({ q with tail := pushCell q }.store (pushCell q) (some m)) with len := q.len + 1 } := by
  simp only [queuePush, pushCell, Option.isNone_some, Bool.false_eq_true, if_false,
    if_neg (Nat.not_le.mpr h)]
  split_ifs <;> rfl

theorem queuePush_refused (m : Option α) {q : MessageQueue α} (h : q.maxLen ≤ q.len) :
    queuePush m q = q := by
  simp only [queuePush, if_pos h, ite_self]

theorem queuePush_len (m : α) (q : MessageQueue α) :
    (queuePush (some m) q).len = if q.len < q.maxLen then q.len + 1 else q.len := by
  by_cases h : q.len < q.maxLen
  · rw [queuePush_accepted m h, if_pos h]
  · rw [queuePush_refused (some m) (Nat.le_of_not_lt h), if_neg h]

@[simp] theorem queuePop_maxLen (q : MessageQueue α) : (queuePop q).2.maxLen = q.maxLen := by
  unfold queuePop
  split_ifs <;> rfl

@[simp] theorem queuePop_len (q : MessageQueue α) : (queuePop q).2.len = q.len - 1 := by
  unfold queuePop
  split_ifs with h
  · simp [h]
  · rfl

@[simp] theorem queueExpand_len (q : MessageQueue α) : (queueExpand q).len = q.len := by
  simp only [queueExpand]
  split_ifs <;> simp

@[simp] theorem queueExpand_maxLen (q : MessageQueue α) :
    (queueExpand q).maxLen = q.maxLen + 1 := by
  simp only [queueExpand]
  split_ifs <;> simp

@[simp] theorem queueReduceTo_len (minLen : Nat) (q : MessageQueue α) :
    (queueReduceTo minLen q).len = q.len := by
  simp only [queueReduceTo]
  split_ifs <;> simp

theorem queueReduceTo_maxLen (minLen : Nat) (q : MessageQueue α) :
    (queueReduceTo minLen q).maxLen =
      if q.len = q.maxLen ∨ q.maxLen = minLen then q.maxLen else q.maxLen - 1 := by
  simp only [queueReduceTo]
  by_cases h : q.len = q.maxLen
  · rw [if_pos h, if_pos (.inl h)]
  by_cases h' : q.maxLen = minLen
  · rw [if_neg h, if_pos h', if_pos (.inr h')]
  have hn : ¬(q.len = q.maxLen ∨ q.maxLen = minLen) := by tauto
  rw [if_neg h, if_neg h', if_neg hn]
  split_ifs <;> simp

theorem queueExpand_of_lt {q : MessageQueue α} (hw : q.tail < q.head) :
    queueExpand q =
      { (shiftUp ({ q with maxLen := q.maxLen + 1 }.realloc (q.maxLen + 1)) q.head
          q.maxLen).store q.head none with head := q.head + 1 } := by
  simp only [queueExpand, realloc_tail, realloc_head, realloc_maxLen, if_pos hw,
    Nat.add_sub_cancel, store_head, shiftUp_head]

theorem queueExpand_of_le {q : MessageQueue α} (hw : q.head ≤ q.tail) :
    queueExpand q =
      ({ q with maxLen := q.maxLen + 1 }.realloc (q.maxLen + 1)).store q.maxLen none := by
  simp only [queueExpand, realloc_tail, realloc_head, realloc_maxLen,
    if_neg (Nat.not_lt.mpr hw), Nat.add_sub_cancel]

theorem queueReduceTo_refused {q : MessageQueue α} {minLen : Nat}
    (h : q.len = q.maxLen ∨ q.maxLen = minLen) : queueReduceTo minLen q = q := by
  rcases h with h | h <;> simp [queueReduceTo, h]

theorem queueReduceTo_of_lt {q : MessageQueue α} {minLen : Nat} (hlen : q.len ≠ q.maxLen)
    (hmin : q.maxLen ≠ minLen) (hw : q.tail < q.head) :
    queueReduceTo minLen q =
      { (shiftDown q q.head (q.maxLen - q.head)).store (q.maxLen - 1) none with
        head := q.head - 1, maxLen := q.maxLen - 1 }.realloc (q.maxLen - 1) := by
  simp only [queueReduceTo, if_neg hlen, if_neg hmin, if_pos hw, store_maxLen, store_head,
    shiftDown_head, shiftDown_maxLen]

theorem queueReduceTo_of_le {q : MessageQueue α} {minLen : Nat} (hlen : q.len ≠ q.maxLen)
    (hmin : q.maxLen ≠ minLen) (hw : q.head ≤ q.tail) :
    queueReduceTo minLen q = { q with maxLen := q.maxLen - 1 }.realloc (q.maxLen - 1) := by
  simp only [queueReduceTo, if_neg hlen, if_neg hmin, if_neg (Nat.not_lt.mpr hw)]

/-- The capacity at which a copy refuses to reduce. -/
def Copy.minLen : Copy → Nat
  | .lab51 => 1
  | .lab52 => 0

theorem queueReduce_eq (copy : Copy) (q : MessageQueue α) :
    queueReduce copy q = queueReduceTo copy.minLen q := by
  cases copy <;> rfl

@[simp] theorem queueReduce_len (copy : Copy) (q : MessageQueue α) :
    (queueReduce copy q).len = q.len := by
  rw [queueReduce_eq, queueReduceTo_len]

theorem queueReduce_maxLen (copy : Copy) (q : MessageQueue α) :
    (queueReduce copy q).maxLen =
      if q.len = q.maxLen ∨ q.maxLen = copy.minLen then q.maxLen else q.maxLen - 1 := by
  rw [queueReduce_eq, queueReduceTo_maxLen]

end Osisp.Lab5
