import Mathlib.Data.List.TakeWhile

namespace Osisp.Lib

variable {α : Type*} [DecidableEq α] {a : α} {xs : List α}

theorem notMem_takeWhile_ne (a : α) (xs : List α) : a ∉ xs.takeWhile (· ≠ a) := by
  intro h
  simpa using List.mem_takeWhile_imp h

theorem takeWhile_ne_append (h : a ∉ xs) (more : List α) :
    (xs ++ more).takeWhile (· ≠ a) = xs ++ more.takeWhile (· ≠ a) := by
  apply List.takeWhile_append_of_pos
  intro x hx
  have hne : x ≠ a := fun heq => h (heq ▸ hx)
  simpa using hne

theorem takeWhile_ne_eq_self_iff : xs.takeWhile (· ≠ a) = xs ↔ a ∉ xs := by
  constructor
  · intro h
    rw [← h]
    exact notMem_takeWhile_ne a xs
  · intro h
    simpa using takeWhile_ne_append h []

theorem takeWhile_ne_append_of_mem (h : a ∈ xs) (more : List α) :
    (xs ++ more).takeWhile (· ≠ a) = xs.takeWhile (· ≠ a) := by
  rw [List.takeWhile_append, if_neg]
  intro hlength
  have hall := (List.takeWhile_sublist _).eq_of_length hlength
  exact takeWhile_ne_eq_self_iff.mp hall h

theorem takeWhile_ne_append_end (xs more : List α) :
    (xs ++ a :: more).takeWhile (· ≠ a) = xs.takeWhile (· ≠ a) := by
  by_cases h : a ∈ xs
  · exact takeWhile_ne_append_of_mem h _
  · rw [takeWhile_ne_append h, takeWhile_ne_eq_self_iff.mpr h]
    simp

end Osisp.Lib
