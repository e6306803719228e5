import Mathlib.Logic.Function.Basic
import Mathlib.Data.List.Basic

namespace Osisp.Lab5

/-- The thread types, `1` and `-1` in `create_thread` and `close_thread_by_ind`. -/
inductive ThreadType where
  | producer
  | consumer
  deriving DecidableEq, Repr

def ThreadType.other : ThreadType → ThreadType
  | .producer => .consumer
  | .consumer => .producer

/-- Who can hold a mutex: the main thread, or the thread with a given number. -/
inductive Party where
  | main
  | thread (t : Nat)
  deriving DecidableEq, Repr

/-- What main keeps about the threads of one type: `producers_count`, `producers_working` and
the `pthread_t`s of `producers`, or the same of the consumers. -/
structure Roster where
  count : Nat
  working : Nat → Bool
  handle : Nat → Nat

def Roster.empty : Roster := ⟨0, fun _ => false, fun _ => 0⟩

/-- `while (producers_working[*thread_index] != 0) (*thread_index)++` over the `limit`
entries of the array. -/
def Roster.firstFree (r : Roster) (limit : Nat) : Nat :=
  ((List.range limit).find? (fun i => !r.working i)).getD limit

/-- The commands of main that change something while the program runs. -/
inductive Command where
  | create (type : ThreadType)
  | close (type : ThreadType)
  | reduce
  | expand
  deriving DecidableEq, Repr

end Osisp.Lab5
