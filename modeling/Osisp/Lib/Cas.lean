import Mathlib.Data.List.Basic

namespace Osisp.Lib

/-- A compare-and-swap on one place of a memory. -/
structure Cas (α : Type*) where
  place : Nat
  expected : α
  new : α

namespace Cas

variable {α : Type*} [DecidableEq α]

/-- It succeeds where the place holds the expected value. -/
def apply (c : Cas α) (mem : List α) : Option (List α) :=
  if mem[c.place]? = some c.expected then some (mem.set c.place c.new) else none

/-- The memory after a sequence of steps that all succeed. -/
def replay (mem : List α) : List (Cas α) → Option (List α)
  | [] => some mem
  | c :: cs => (c.apply mem).bind fun mem => replay mem cs

theorem replay_append (mem : List α) (cs ds : List (Cas α)) :
    replay mem (cs ++ ds) = (replay mem cs).bind fun mem => replay mem ds := by
  induction cs generalizing mem with
  | nil => rfl
  | cons c cs ih =>
    simp only [List.cons_append, replay, Option.bind_assoc]
    congr 1
    funext mem'
    exact ih mem'

theorem replay_snoc {mem mem' : List α} {cs : List (Cas α)} (h : replay mem cs = some mem')
    {c : Cas α} (hc : mem'[c.place]? = some c.expected) :
    replay mem (cs ++ [c]) = some (mem'.set c.place c.new) := by
  rw [replay_append, h]
  simp only [Option.bind_some, replay, apply, if_pos hc]

end Cas

end Osisp.Lib
