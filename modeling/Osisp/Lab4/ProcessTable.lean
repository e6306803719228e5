import Osisp.Lib.ShiftOut
import Osisp.Lib.Stdio
import Osisp.Lib.Strtol
import Osisp.Lab4.Main

namespace Osisp.Lab4

open Osisp.Lib
open Osisp.Lib.Stdio (cutNewline)

def maxProcessesCount : Nat := 100

/-- The arrays `processes` and `processes_types`, with `processes_count`. -/
structure ProcessTable where
  processes : Vector Nat maxProcessesCount
  processesTypes : Vector ProcessType maxProcessesCount
  processesCount : Nat
  count_le : processesCount ≤ maxProcessesCount

def ProcessTable.empty : ProcessTable where
  processes := Vector.replicate maxProcessesCount 0
  processesTypes := Vector.replicate maxProcessesCount .consumer
  processesCount := 0
  count_le := Nat.zero_le _

/-- What `create_process` writes behind the last process. -/
def ProcessTable.add (t : ProcessTable) (h : t.processesCount < maxProcessesCount) (pid : Nat)
    (type : ProcessType) : ProcessTable where
  processes := t.processes.set t.processesCount pid
  processesTypes := t.processesTypes.set t.processesCount type
  processesCount := t.processesCount + 1
  count_le := h

/-- The loop of `kill_process`, which moves both arrays. -/
def ProcessTable.remove (t : ProcessTable) (index : Nat) : ProcessTable where
  processes := shiftOut t.processes index t.processesCount
  processesTypes := shiftOut t.processesTypes index t.processesCount
  processesCount := t.processesCount - 1
  count_le := Nat.le_trans (Nat.sub_le _ _) t.count_le

def ProcessTable.entries (t : ProcessTable) : List (Nat × ProcessType) :=
  (t.processes.toList.take t.processesCount).zip (t.processesTypes.toList.take t.processesCount)

/-- A forked process. Its number tells it from others that had the same pid before. -/
structure Child where
  number : Nat
  pid : Nat
  type : ProcessType
  deriving DecidableEq

inductive Signal where
  | sigusr1
  | sigterm
  deriving DecidableEq

/-- The shared memory segment: attached to the parent, and marked for removal. -/
structure Segment where
  attached : Bool
  marked : Bool
  deriving DecidableEq

structure ParentState where
  table : ProcessTable
  /-- The variable `queue`, an address. -/
  queue : Nat
  /-- The children that have not been waited for, oldest first. -/
  children : List Child
  created : List Child
  signals : List (Child × Signal)
  reaped : List Child
  /-- The semaphore set exists. -/
  semaphores : Bool
  segment : Segment
  running : Bool

/-- The address that `shmat` returns. -/
abbrev Address := {address : Nat // address ≠ 0}

/-- After `queue_init` and `init_semaphores`. -/
def ParentState.init (shmat : Address) : ParentState where
  table := .empty
  queue := shmat.val
  children := []
  created := []
  signals := []
  reaped := []
  semaphores := true
  segment := ⟨true, false⟩
  running := true

/-- `exit`: the segment is detached with the process. -/
def ParentState.exit (s : ParentState) : ParentState :=
  { s with running := false, segment := { s.segment with attached := false } }

def ParentState.kill (s : ParentState) (pid : Nat) (sig : Signal) : ParentState :=
  match s.children.find? (·.pid = pid) with
  | none => s
  | some c => { s with signals := s.signals ++ [(c, sig)] }

/-- `waitpid`, when it returns; without such a child it returns -1. -/
def ParentState.waitpid (s : ParentState) (pid : Nat) : ParentState :=
  match s.children.find? (·.pid = pid) with
  | none => s
  | some c => { s with children := s.children.erase c, reaped := s.reaped ++ [c] }

/-- What `create_process` puts into `processes_types`. -/
def createdType (processType : UInt8) : ProcessType :=
  if processType = '+'.toUInt8 then .consumer else .producer

/-- `create_process`; `fork` is what `fork` returns to the parent, `none` when it fails. The pid of
a new process is no child's pid. -/
def createProcess (s : ParentState) (processType : UInt8) (fork : Option Nat) :
    Option ParentState :=
  if h : s.table.processesCount < maxProcessesCount then
    match fork with
    | none => some s.exit
    | some pid =>
      if pid = 0 ∨ pid ∈ s.children.map Child.pid then none
      else
        let type := createdType processType
        let c : Child := ⟨s.created.length, pid, type⟩
        some { s with
          table := s.table.add h pid type
          children := s.children ++ [c]
          created := s.created ++ [c] }
  else some s

def killProcess (s : ParentState) (index : Int) : ParentState :=
  if index < 0 ∨ (s.table.processesCount : Int) ≤ index then s
  else
    let pid := s.table.processes.toList.getD index.toNat 0
    if pid = 0 then s
    else
      let s := (s.kill pid .sigusr1).waitpid pid
      { s with table := s.table.remove index.toNat }

def queueDestroy (s : ParentState) : ParentState := { s with segment := ⟨false, true⟩ }

/-- The loop of `cleanup_and_exit` over the table. -/
def terminateAll (s : ParentState) : ParentState :=
  (s.table.entries.map Prod.fst).foldl (fun s pid => if pid ≠ 0 then s.kill pid .sigterm else s) s

/-- `cleanup_and_exit`; `waits` are the children that `wait` returns, one after the other, until
there is none left. -/
def cleanupAndExit (s : ParentState) (waits : List Child) : ParentState :=
  let s := terminateAll s
  let s := { s with children := [], reaped := s.reaped ++ waits }
  let s := if s.queue = 0 then queueDestroy s else s
  { s with semaphores := false }.exit

inductive Command where
  | create (processType : UInt8)
  | kill (index : Int)
  | quit
  /-- `l`, `i`, and what is no command. -/
  | other
  deriving DecidableEq

/-- The C string in `command` after `read_command`, for what `fgets` has stored. -/
def readCommand (buffer : List UInt8) : List UInt8 := cutNewline buffer

/-- The tests of `main`. The result of `strtol` goes to an `int`. -/
def commandOf (command : List UInt8) : Command :=
  if command = ['+'.toUInt8] then .create '+'.toUInt8
  else if command = ['*'.toUInt8] then .create '*'.toUInt8
  else if command = ['l'.toUInt8] ∨ command = ['i'.toUInt8] then .other
  else if command.head? = some 'k'.toUInt8 ∧ isDigit (command.getD 1 0) then
    .kill (Int.bmod (strtol command.tail).1 (2 ^ 32))
  else if command = ['q'.toUInt8] then .quit
  else .other

/-- One round of the loop of `main`: what `fgets` stores, `none` at the end of the input; and what
`fork` and `wait` return in it. -/
structure Turn where
  buffer : Option (List UInt8)
  fork : Option Nat
  waits : List Child

/-- What `main` does for a command. -/
def perform (s : ParentState) (turn : Turn) : Command → Option ParentState
  | .create processType => createProcess s processType turn.fork
  | .kill index => some (killProcess s index)
  | .quit => if turn.waits.Perm s.children then some (cleanupAndExit s turn.waits) else none
  | .other => some s

/-- The loop of `main`. A round that does not end is no step. -/
def commandLoop (shmat : Address) : System ParentState Turn where
  init := .init shmat
  step s turn :=
    if s.running then
      match turn.buffer with
      | none => some s.exit
      | some buffer => perform s turn (commandOf (readCommand buffer))
    else none

theorem commandLoop_step {shmat : Address} {s : ParentState} {turn : Turn} {buffer : List UInt8}
    (hrun : s.running = true) (hbuffer : turn.buffer = some buffer) :
    (commandLoop shmat).step s turn = perform s turn (commandOf (readCommand buffer)) := by
  change (if _ then _ else _) = _
  rw [if_pos hrun, hbuffer]

theorem commandLoop_cases {shmat : Address} {s t : ParentState} {turn : Turn}
    (h : (commandLoop shmat).step s turn = some t) :
    s.running = true ∧ (turn.buffer = none ∧ t = s.exit ∨
      ∃ buffer, turn.buffer = some buffer ∧
        perform s turn (commandOf (readCommand buffer)) = some t) := by
  change (if _ then _ else _) = _ at h
  obtain ⟨hrun, h⟩ := Option.ite_none_right_eq_some.mp h
  refine ⟨hrun, ?_⟩
  cases hbuffer : turn.buffer with
  | none =>
    rw [hbuffer] at h
    exact .inl ⟨rfl, (Option.some.inj h).symm⟩
  | some buffer =>
    rw [hbuffer] at h
    exact .inr ⟨buffer, rfl, h⟩

/-- What creating and killing keep, a step that does not end the program keeps. -/
theorem step_running {shmat : Address} {Inv : ParentState → Prop}
    (hcreate : ∀ s t processType fork, Inv s → createProcess s processType fork = some t →
      t.running = true → Inv t)
    (hkill : ∀ s index, Inv s → Inv (killProcess s index)) {s t : ParentState} {turn : Turn}
    (hs : s.running = true → Inv s) (hstep : (commandLoop shmat).step s turn = some t)
    (hrun : t.running = true) : Inv t := by
  obtain ⟨hbefore, ⟨-, rfl⟩ | ⟨buffer, -, hcommand⟩⟩ := commandLoop_cases hstep
  · cases hrun
  · have hinv := hs hbefore
    cases hparse : commandOf (readCommand buffer) with
    | create processType =>
      rw [hparse] at hcommand
      exact hcreate s t processType turn.fork hinv hcommand hrun
    | kill index =>
      rw [hparse] at hcommand
      obtain rfl := Option.some.inj hcommand
      exact hkill s index hinv
    | quit =>
      rw [hparse] at hcommand
      obtain ⟨-, hexit⟩ := Option.ite_none_right_eq_some.mp hcommand
      obtain rfl := Option.some.inj hexit
      cases hrun
    | other =>
      rw [hparse] at hcommand
      obtain rfl := Option.some.inj hcommand
      exact hinv

theorem reach_running {shmat : Address} {Inv : ParentState → Prop} (h0 : Inv (.init shmat))
    (hcreate : ∀ s t processType fork, Inv s → createProcess s processType fork = some t →
      t.running = true → Inv t)
    (hkill : ∀ s index, Inv s → Inv (killProcess s index)) {s : ParentState}
    (hs : (commandLoop shmat).Reachable s) : s.running = true → Inv s := by
  induction hs with
  | init => exact fun _ => h0
  | step _ _ hstep ih => exact step_running hcreate hkill ih hstep

end Osisp.Lab4
