import Mathlib.Data.List.Basic

namespace Osisp.Lib

/-- A first-in first-out buffer that never holds more than `capacity` elements. -/
structure BoundedFifo (α : Type*) where
  items : List α
  capacity : Nat
  fits : items.length ≤ capacity

namespace BoundedFifo

variable {α : Type*}

def empty (n : Nat) : BoundedFifo α := ⟨[], n, Nat.zero_le n⟩

/-- A push on a full buffer is refused and changes nothing. -/
def push (f : BoundedFifo α) (m : α) : BoundedFifo α :=
  if h : f.items.length < f.capacity then
    ⟨f.items ++ [m], f.capacity, by simpa using Nat.succ_le_of_lt h⟩
  else f

def pop (f : BoundedFifo α) : BoundedFifo α :=
  ⟨f.items.tail, f.capacity, by have h := f.fits; simp only [List.length_tail]; omega⟩

def grow (f : BoundedFifo α) : BoundedFifo α :=
  ⟨f.items, f.capacity + 1, Nat.le_succ_of_le f.fits⟩

/-- Neither a full buffer nor one of the least capacity is made smaller. -/
def shrink (least : Nat) (f : BoundedFifo α) : BoundedFifo α :=
  if h : f.items.length < f.capacity ∧ f.capacity ≠ least then
    ⟨f.items, f.capacity - 1, by omega⟩
  else f

theorem push_of_lt {f : BoundedFifo α} (m : α) (h : f.items.length < f.capacity) :
    (f.push m).items = f.items ++ [m] ∧ (f.push m).capacity = f.capacity := by
  simp [push, h]

theorem push_of_le {f : BoundedFifo α} (m : α) (h : f.capacity ≤ f.items.length) :
    f.push m = f := by
  simp [push, Nat.not_lt.mpr h]

@[simp] theorem shrink_items (least : Nat) (f : BoundedFifo α) :
    (f.shrink least).items = f.items := by
  unfold shrink
  split_ifs <;> rfl

theorem shrink_capacity (least : Nat) (f : BoundedFifo α) :
    (f.shrink least).capacity =
      if f.items.length = f.capacity ∨ f.capacity = least then f.capacity
      else f.capacity - 1 := by
  have hfits := f.fits
  unfold shrink
  by_cases h : f.items.length < f.capacity ∧ f.capacity ≠ least
  · rw [dif_pos h, if_neg (by omega)]
  · rw [dif_neg h, if_pos (by omega)]

end BoundedFifo

/-- A bounded FIFO with its books: what it accepted and what it gave back. The books
balance, so the elements given back are the oldest accepted ones, in order. -/
structure Ledger (α : Type*) where
  fifo : BoundedFifo α
  accepted : List α
  returned : List α
  balanced : accepted = returned ++ fifo.items

namespace Ledger

variable {α : Type*}

def empty (n : Nat) : Ledger α := ⟨.empty n, [], [], rfl⟩

def push (l : Ledger α) (m : α) : Ledger α where
  fifo := l.fifo.push m
  accepted := if l.fifo.items.length < l.fifo.capacity then l.accepted ++ [m] else l.accepted
  returned := l.returned
  balanced := by
    by_cases h : l.fifo.items.length < l.fifo.capacity
    · rw [if_pos h, (BoundedFifo.push_of_lt m h).1, l.balanced, List.append_assoc]
    · rw [if_neg h, BoundedFifo.push_of_le m (Nat.le_of_not_lt h), l.balanced]

def pop (l : Ledger α) : Ledger α where
  fifo := l.fifo.pop
  accepted := l.accepted
  returned := l.returned ++ l.fifo.items.head?.toList
  balanced := by
    rw [l.balanced, List.append_assoc]
    cases h : l.fifo.items <;> simp [BoundedFifo.pop, h]

def grow (l : Ledger α) : Ledger α := { l with fifo := l.fifo.grow, balanced := l.balanced }

def shrink (least : Nat) (l : Ledger α) : Ledger α where
  fifo := l.fifo.shrink least
  accepted := l.accepted
  returned := l.returned
  balanced := by rw [BoundedFifo.shrink_items, l.balanced]

theorem returned_isPrefix (l : Ledger α) : l.returned <+: l.accepted :=
  ⟨l.fifo.items, l.balanced.symm⟩

theorem length_eq (l : Ledger α) :
    l.fifo.items.length + l.returned.length = l.accepted.length := by
  rw [l.balanced, List.length_append, Nat.add_comm]

theorem oldest (l : Ledger α) : l.accepted[l.returned.length]? = l.fifo.items.head? := by
  rw [l.balanced, List.getElem?_append_right (Nat.le_refl _), Nat.sub_self,
    List.head?_eq_getElem?]

end Ledger

end Osisp.Lib
