import Osisp.Lib.FrontPart
import Osisp.Lib.Transition

namespace Osisp.Lab3

open Osisp.Lib

def maxProcesses : Nat := 100

inductive Signal where
  | sigkill
  | sigusr1
  | sigusr2
  deriving DecidableEq

/-- A call of `kill`. -/
structure Sent where
  pid : Nat
  signal : Signal
  deriving DecidableEq

structure ParentState where
  allProcesses : Vector Nat maxProcesses
  processCount : Nat
  /-- The indices of `allProcesses` that were assigned to. -/
  writes : List Nat
  /-- The pids that `fork` returned. None of the children is waited for, so that they all differ. -/
  created : List Nat
  sent : List Sent
  running : Bool

def ParentState.init : ParentState where
  allProcesses := Vector.replicate maxProcesses 0
  processCount := 0
  writes := []
  created := []
  sent := []
  running := true

/-- `exit`, or the end of `main`. -/
def ParentState.exit (s : ParentState) : ParentState := { s with running := false }

/-- `allProcesses[process_count++] = pid`. Behind the end of the array it is not the array that is
written to. -/
def ParentState.append (s : ParentState) (pid : Nat) : ParentState :=
  { s with
    allProcesses :=
      if h : s.processCount < maxProcesses then s.allProcesses.set s.processCount pid
      else s.allProcesses
    processCount := s.processCount + 1
    writes := s.writes ++ [s.processCount] }

def ParentState.kill (s : ParentState) (pid : Nat) (signal : Signal) : ParentState :=
  { s with sent := s.sent ++ [⟨pid, signal⟩] }

/-- `create_child`; `fork` is what `fork` returns to the parent, `none` when it fails. -/
def createChild (s : ParentState) (fork : Option Nat) : Option ParentState :=
  match fork with
  | none => some s.exit
  | some pid =>
    if pid = 0 ∨ pid ∈ s.created then none
    else some { s.append pid with created := s.created ++ [pid] }

def killLastProcess (s : ParentState) : ParentState :=
  if 0 < s.processCount then
    let processCount := s.processCount - 1
    let pid := s.allProcesses.toList.getD processCount 0
    { s with processCount }.kill pid .sigkill
  else s

/-- Rounds of the loop of `kill_all_processes`. -/
def killRounds : Nat → ParentState → ParentState
  | 0, s => s
  | n + 1, s => killRounds n (killLastProcess s)

/-- `kill_all_processes`. Each round of its loop takes one off `process_count`. -/
def killAllProcesses (s : ParentState) : ParentState :=
  { killRounds s.processCount s with processCount := 0 }

theorem killLastProcess_count (s : ParentState) :
    (killLastProcess s).processCount = s.processCount - 1 := by
  rw [killLastProcess]
  split_ifs with h
  · rfl
  · omega

theorem killAllProcesses_eq (s : ParentState) :
    killAllProcesses s =
      if 0 < s.processCount then killAllProcesses (killLastProcess s)
      else { s with processCount := 0 } := by
  rw [killAllProcesses, killAllProcesses, killLastProcess_count]
  split_ifs with h
  · obtain ⟨n, hn⟩ : ∃ n, s.processCount = n + 1 := ⟨s.processCount - 1, by omega⟩
    rw [hn, Nat.add_sub_cancel, killRounds]
  · rw [Nat.eq_zero_of_not_pos h, killRounds]

def allowStdoutForAll (s : ParentState) (isAllow : Bool) : ParentState :=
  (List.range s.processCount).foldl (fun s i =>
    s.kill (s.allProcesses.toList.getD i 0) (if isAllow then .sigusr1 else .sigusr2)) s

inductive Command where
  | createChild
  | killLastProcess
  | showAllProcesses
  | killAllProcesses
  | allowStdoutForAll (isAllow : Bool)
  | quit
  /-- What is no command. -/
  | other
  deriving DecidableEq

/-- The tests of `main`. -/
def commandOf (symbol : List UInt8) : Command :=
  if symbol = ['+'.toUInt8] then .createChild
  else if symbol = ['-'.toUInt8] then .killLastProcess
  else if symbol = ['l'.toUInt8] then .showAllProcesses
  else if symbol = ['k'.toUInt8] then .killAllProcesses
  else if symbol = ['s'.toUInt8] then .allowStdoutForAll false
  else if symbol = ['g'.toUInt8] then .allowStdoutForAll true
  else if symbol = ['q'.toUInt8] then .quit
  else .other

/-- One round of the loop of `main`: the string that `scanf` stores, `none` when it stores none, and
what `fork` returns in it. -/
structure Turn where
  symbol : Option (List UInt8)
  fork : Option Nat

/-- What `main` does for a command. -/
def perform (s : ParentState) (fork : Option Nat) : Command → Option ParentState
  | .createChild => createChild s fork
  | .killLastProcess => some (killLastProcess s)
  | .showAllProcesses => some s
  | .killAllProcesses => some (killAllProcesses s)
  | .allowStdoutForAll isAllow => some (allowStdoutForAll s isAllow)
  | .quit => some (killAllProcesses s).exit
  | .other => some s

/-- The loop of `main`. -/
def parent : System ParentState Turn where
  init := .init
  step s turn :=
    if s.running then
      match turn.symbol with
      | none => some s
      | some symbol => perform s turn.fork (commandOf symbol)
    else none

theorem parent_cases {s t : ParentState} {turn : Turn} (h : parent.step s turn = some t) :
    s.running = true ∧ (turn.symbol = none ∧ t = s ∨
      ∃ symbol, turn.symbol = some symbol ∧ perform s turn.fork (commandOf symbol) = some t) := by
  change (if _ then _ else _) = _ at h
  obtain ⟨hrun, h⟩ := Option.ite_none_right_eq_some.mp h
  refine ⟨hrun, ?_⟩
  cases hsymbol : turn.symbol with
  | none =>
    rw [hsymbol] at h
    exact .inl ⟨rfl, (Option.some.inj h).symm⟩
  | some symbol =>
    rw [hsymbol] at h
    exact .inr ⟨symbol, rfl, h⟩

theorem commandOf_create {symbol : List UInt8} :
    commandOf symbol = .createChild ↔ symbol = ['+'.toUInt8] := by
  constructor
  · intro h
    by_contra hne
    rw [commandOf, if_neg hne] at h
    split_ifs at h
  · rintro rfl
    decide

end Osisp.Lab3
