import Osisp.Lib.Transition
import Osisp.Lib.Mutex
import Osisp.Lab4.RingBuffer

namespace Osisp.Lab4

open Osisp.Lib

inductive SemaphoreType where
  | elCount
  | freeSpace
  | queueAccess
  deriving DecidableEq, Repr

inductive ProcessType where
  | consumer
  | producer
  deriving DecidableEq, Repr

/-- The argument of the first `wait_semaphore` of the loop. -/
def ProcessType.first : ProcessType → SemaphoreType
  | .consumer => .elCount
  | .producer => .freeSpace

/-- The argument of the last `signal_semaphore` of the loop. -/
def ProcessType.last : ProcessType → SemaphoreType
  | .consumer => .freeSpace
  | .producer => .elCount

/-- Where a process stands in `producer_process` or `consumer_process`. -/
inductive Pc where
  /-- Forked, `signal` not called yet. -/
  | start
  | loopTest
  | waitFirst
  | waitAccess
  | generate
  /-- At the call of `enqueue` or `dequeue`. -/
  | call
  | signalAccess
  | signalLast
  | testMsg
  /-- In `calculate_hash`, before it adds `type`. -/
  | hashType
  /-- In `calculate_hash`, at the test of its loop. -/
  | hashData (i : Nat)
  | compare
  | delay
  | exited
  deriving DecidableEq, Repr

/-- The message a consumer took, with its number in the order of `enqueue`. -/
structure Taken where
  seq : Nat
  msg : Message

structure Process where
  type : ProcessType
  pc : Pc
  terminateFlag : Bool
  /-- A `SIGUSR1` was sent to the process and has not been delivered. -/
  pending : Bool
  /-- The variable `msg` of a producer. -/
  msg : Message
  /-- The variable `msg` of a consumer: the cell it points to. -/
  slot : Option Nat
  /-- The variable `hash` of `calculate_hash`. -/
  hash : UInt16
  /-- What was at the head of the queue at the call of `dequeue`. -/
  taken : Option Taken

/-- A forked process; its variable `msg` holds whatever was on the stack. -/
def Process.new (type : ProcessType) (stack : Message) : Process where
  type := type
  pc := .start
  terminateFlag := false
  pending := false
  msg := stack
  slot := none
  hash := 0
  taken := none

/-- The parent reads commands and waits, in `kill_process`, for the process it killed. -/
inductive Parent where
  | reading
  | waitpid (index pid : Nat)
  | exited
  deriving DecidableEq, Repr

/-- `table` is the array `processes` up to `processes_count`; a pid is an index of `processes`,
which keeps the exited ones. -/
structure State where
  queue : MessageQueue
  sem : SemaphoreType → Nat
  processes : List Process
  table : List Nat
  parent : Parent
  /-- The messages accepted by `enqueue`, in order. -/
  sent : List Message
  /-- The numbers of the messages whose hash was compared, and whether it agreed. -/
  verified : List (Nat × Bool)

def initSemaphores : SemaphoreType → Nat
  | .elCount => 0
  | .freeSpace => queueSize
  | .queueAccess => 1

def State.init : State where
  queue := queueInit
  sem := initSemaphores
  processes := []
  table := []
  parent := .reading
  sent := []
  verified := []

/-- `wait_semaphore`, when it is not interrupted: `none` while it blocks. -/
def waitSemaphore (sem : SemaphoreType → Nat) (semNum : SemaphoreType) :
    Option (SemaphoreType → Nat) :=
  if 0 < sem semNum then some (Function.update sem semNum (sem semNum - 1)) else none

def signalSemaphore (sem : SemaphoreType → Nat) (semNum : SemaphoreType) : SemaphoreType → Nat :=
  Function.update sem semNum (sem semNum + 1)

/-- What can happen next. The parent creates a process (`forked` is the outcome of `fork`),
kills one or goes on after `waitpid`. Process `p` goes on, `rand` being what `rand` returns; its
pending signal is delivered; or the signal is delivered while it is blocked in `semop`. -/
inductive Action where
  | create (type : ProcessType) (forked : Bool) (stack : Message)
  | kill (index : Int)
  | reap
  | process (p : Nat) (rand : Nat → Nat)
  | deliver (p : Nat)
  | interrupt (p : Nat)

def State.put (s : State) (p : Nat) (pr : Process) : State :=
  { s with processes := s.processes.set p pr }

/-- Where a process goes on when it has entered the section. -/
def ProcessType.entered : ProcessType → Pc
  | .consumer => .call
  | .producer => .generate

/-- Where a process goes on after its last `signal_semaphore`. -/
def ProcessType.left : ProcessType → Pc
  | .consumer => .testMsg
  | .producer => .delay

def processStep (s : State) (p : Nat) (pr : Process) (rand : Nat → Nat) : Option State :=
  match pr.pc with
  | .start => some (s.put p { pr with pc := .loopTest })
  | .loopTest =>
    if pr.terminateFlag then some (s.put p { pr with pc := .exited })
    else some (s.put p { pr with pc := .waitFirst })
  | .waitFirst =>
    (waitSemaphore s.sem pr.type.first).map fun sem =>
      { s.put p { pr with pc := .waitAccess } with sem := sem }
  | .waitAccess =>
    (waitSemaphore s.sem .queueAccess).map fun sem =>
      { s.put p { pr with pc := pr.type.entered } with sem := sem }
  | .generate => some (s.put p { pr with pc := .call, msg := generateMessage rand pr.msg })
  | .call =>
    match pr.type with
    | .producer =>
      some { s.put p { pr with pc := .signalAccess } with
        queue := enqueue s.queue pr.msg
        sent := if s.queue.freeSpace = 0 then s.sent else s.sent ++ [pr.msg] }
    | .consumer =>
      some { s.put p { pr with
          pc := .signalAccess
          slot := (dequeue s.queue).1
          taken := (dequeue s.queue).1.map fun slot =>
            ⟨s.queue.removedCount, s.queue.buffer slot⟩ } with
        queue := (dequeue s.queue).2 }
  | .signalAccess =>
    some { s.put p { pr with pc := .signalLast } with sem := signalSemaphore s.sem .queueAccess }
  | .signalLast =>
    some { s.put p { pr with pc := pr.type.left } with
      sem := signalSemaphore s.sem pr.type.last }
  | .testMsg =>
    if pr.slot.isSome then some (s.put p { pr with pc := .hashType, hash := 0 })
    else some (s.put p { pr with pc := .delay })
  | .hashType => pr.slot.map fun slot =>
    s.put p { pr with pc := .hashData 0, hash := pr.hash + (s.queue.buffer slot).type.toUInt16 }
  | .hashData i => pr.slot.map fun slot =>
    let msg := s.queue.buffer slot
    if i < msg.size.toNat then
      s.put p { pr with pc := .hashData (i + 1), hash := pr.hash + (msg.data.getD i 0).toUInt16 }
    else s.put p { pr with pc := .compare }
  | .compare => pr.slot.bind fun slot => pr.taken.map fun taken =>
    { s.put p { pr with pc := .delay } with
      verified := s.verified ++ [(taken.seq, pr.hash == (s.queue.buffer slot).hash)] }
  | .delay => some (s.put p { pr with pc := .loopTest })
  | .exited => none

/-- The handler sets `terminate_flag`; before `signal` is called the process dies. -/
def deliverStep (s : State) (p : Nat) (pr : Process) : Option State :=
  if pr.pending ∧ pr.pc ≠ .exited then
    if pr.pc = .start then some (s.put p { pr with pc := .exited, pending := false })
    else some (s.put p { pr with terminateFlag := true, pending := false })
  else none

/-- The handler runs in a blocked `semop`, which fails with `EINTR`; `wait_semaphore` returns
without having acquired anything. -/
def interruptStep (s : State) (p : Nat) (pr : Process) : Option State :=
  if pr.pending then
    match pr.pc with
    | .waitFirst =>
      if s.sem pr.type.first = 0 then
        some (s.put p { pr with pc := .waitAccess, terminateFlag := true, pending := false })
      else none
    | .waitAccess =>
      if s.sem .queueAccess = 0 then
        some (s.put p { pr with pc := pr.type.entered, terminateFlag := true, pending := false })
      else none
    | _ => none
  else none

/-- The program of lab4 with room for `limit` processes (`MAX_PROCESSES_COUNT`, 100). -/
def program (limit : Nat) : System State Action where
  init := .init
  step s
    | .create type forked stack =>
      if s.parent ≠ .reading then none
      else if s.table.length = limit then some s
      else if forked then
        some { s with
          processes := s.processes ++ [.new type stack]
          table := s.table ++ [s.processes.length] }
      else some { s with parent := .exited }
    | .kill index =>
      if s.parent ≠ .reading then none
      else if index < 0 then some s
      else
        match s.table[index.toNat]? with
        | none => some s
        | some pid => some { s with
            processes := s.processes.modify pid (fun pr => { pr with pending := true })
            parent := .waitpid index.toNat pid }
    | .reap =>
      match s.parent with
      | .waitpid index pid =>
        s.processes[pid]?.bind fun pr =>
          if pr.pc = .exited then
            some { s with table := s.table.eraseIdx index, parent := .reading }
          else none
      | _ => none
    | .process p rand => s.processes[p]?.bind fun pr => processStep s p pr rand
    | .deliver p => s.processes[p]?.bind (deliverStep s p)
    | .interrupt p => s.processes[p]?.bind (interruptStep s p)

/-- Between its wait and its signal on `QUEUE_ACCESS_SEM`. -/
def Pc.inAccess : Pc → Bool
  | .generate | .call | .signalAccess => true
  | _ => false

/-- Between its first `wait_semaphore` and its last `signal_semaphore`. -/
def Pc.inSection : Pc → Bool
  | .waitAccess | .generate | .call | .signalAccess | .signalLast => true
  | _ => false

end Osisp.Lab4
