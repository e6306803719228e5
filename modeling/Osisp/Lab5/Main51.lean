import Osisp.Lib.Transition
import Osisp.Lab5.Queue
import Osisp.Lab5.Threads

namespace Osisp.Lab51

open Osisp.Lab5 Osisp.Lib

/-- Where a thread stands in `producer_thread_processing` or `consumer_thread_processing`. -/
inductive Pc where
  | checkLock
  | checkTest
  | checkUnlock
  | termUnlock
  | closing
  | sleep
  | semWait
  | lockQueue
  | work
  | print
  | unlockQueue
  | semPost
  | ended
  /-- Ended by a cancellation while it held `queue_mutex`. -/
  | orphaned
  deriving DecidableEq, Repr

structure Thread where
  type : ThreadType
  ind : Nat
  pc : Pc
  /-- `pthread_cancel` has been called for it. -/
  cancel : Bool
  deriving DecidableEq, Repr

/-- Where main stands between two commands and inside one. -/
inductive MainPc where
  | idle
  | spawn (type : ThreadType) (ind : Nat)
  | closeLock (type : ThreadType) (ind : Nat)
  | closeTest (type : ThreadType) (ind : Nat)
  | closeRefuse (type : ThreadType)
  | closeCancel (type : ThreadType) (ind : Nat)
  | closeClear (type : ThreadType) (ind : Nat)
  | closeUnlock (type : ThreadType) (ind : Nat)
  | closeJoin (type : ThreadType) (ind : Nat)
  | closeRelock (type : ThreadType)
  | closeCount (type : ThreadType)
  | closeEnd (type : ThreadType)
  | reduceWait
  | reduceLock
  | reduceCall
  | reduceUnlock
  | expandLock
  | expandCall
  | expandUnlock
  | expandPost
  deriving DecidableEq, Repr

structure State (α : Type*) where
  queue : MessageQueue α
  freeSpaceSem : Nat
  itemsSem : Nat
  queueMutex : Option Party
  workingMutex : ThreadType → Option Party
  roster : ThreadType → Roster
  threads : List Thread
  main : MainPc

variable {α : Type*}

/-- `message_queue_init` and `sync_init`. -/
def State.init : State α where
  queue := queueInit
  freeSpaceSem := queueBaseSize
  itemsSem := 0
  queueMutex := none
  workingMutex := fun _ => none
  roster := fun _ => .empty
  threads := []
  main := .idle

/-- What can happen next. Main reads a command or goes on (`created` is the outcome of
`pthread_create`); thread `t` goes on (`m` is what `queue_generate_message` makes); thread
`t`, for which `pthread_cancel` was called, is cancelled at a cancellation point. -/
inductive Action (α : Type*) where
  | command (c : Command)
  | main (created : Bool)
  | thread (t : Nat) (m : α)
  | cancel (t : Nat)

def State.goto (s : State α) (t : Nat) (th : Thread) (pc : Pc) : State α :=
  { s with threads := s.threads.set t { th with pc := pc } }

def State.setWorking (s : State α) (type : ThreadType) (holder : Option Party) : State α :=
  { s with workingMutex := Function.update s.workingMutex type holder }

def State.setRoster (s : State α) (type : ThreadType) (r : Roster) : State α :=
  { s with roster := Function.update s.roster type r }

/-- `sem_wait` of the loop: a producer takes a free cell, a consumer an item. -/
def takeUnit (type : ThreadType) (s : State α) : Option (State α) :=
  match type with
  | .producer =>
    if 0 < s.freeSpaceSem then some { s with freeSpaceSem := s.freeSpaceSem - 1 } else none
  | .consumer => if 0 < s.itemsSem then some { s with itemsSem := s.itemsSem - 1 } else none

/-- `sem_post` of the loop: a producer gives an item, a consumer a free cell. -/
def giveUnit (type : ThreadType) (s : State α) : State α :=
  match type with
  | .producer => { s with itemsSem := s.itemsSem + 1 }
  | .consumer => { s with freeSpaceSem := s.freeSpaceSem + 1 }

/-- The queue operation of the thread. -/
def doWork (type : ThreadType) (m : α) (q : MessageQueue α) : MessageQueue α :=
  match type with
  | .producer => queuePush (some m) q
  | .consumer => (queuePop q).2

def threadStep (s : State α) (t : Nat) (th : Thread) (m : α) : Option (State α) :=
  match th.pc with
  | .checkLock =>
    if s.workingMutex th.type = none then
      some ((s.setWorking th.type (some (.thread t))).goto t th .checkTest)
    else none
  | .checkTest =>
    if (s.roster th.type).working th.ind then some (s.goto t th .checkUnlock)
    else some (s.goto t th .termUnlock)
  | .checkUnlock => some ((s.setWorking th.type none).goto t th .sleep)
  | .termUnlock => some ((s.setWorking th.type none).goto t th .closing)
  | .closing => some (s.goto t th .ended)
  | .sleep => some (s.goto t th .semWait)
  | .semWait => (takeUnit th.type s).map (fun s => s.goto t th .lockQueue)
  | .lockQueue =>
    if s.queueMutex = none then
      some { s.goto t th .work with queueMutex := some (.thread t) }
    else none
  | .work => some { s.goto t th .print with queue := doWork th.type m s.queue }
  | .print => some (s.goto t th .unlockQueue)
  | .unlockQueue => some { s.goto t th .semPost with queueMutex := none }
  | .semPost => some ((giveUnit th.type s).goto t th .checkLock)
  | .ended => none
  | .orphaned => none

/-- A cancelled thread ends in `sleep`, in `sem_wait` (and takes no unit) or while it
prints. -/
def cancelStep (s : State α) (t : Nat) (th : Thread) : Option (State α) :=
  if th.cancel then
    match th.pc with
    | .sleep => some (s.goto t th .ended)
    | .semWait => some (s.goto t th .ended)
    | .print => some (s.goto t th .orphaned)
    | _ => none
  else none

def commandStep (limit : Nat) (s : State α) : Command → Option (State α)
  | .create type =>
    let r := s.roster type
    if r.count < limit then
      let ind := r.firstFree limit
      some { s.setRoster type { r with working := Function.update r.working ind true } with
        main := .spawn type ind }
    else some s
  | .close type => some { s with main := .closeLock type ((s.roster type).count - 1) }
  | .reduce =>
    if (s.roster .consumer).count = 0 then some s else some { s with main := .reduceWait }
  | .expand => some { s with main := .expandLock }

def requestCancel (threads : List Thread) (t : Nat) : List Thread :=
  threads.modify t (fun th => { th with cancel := true })

/-- The test by which `close_thread_by_ind` decides to cancel. -/
def isStuck (type : ThreadType) (s : State α) : Bool :=
  match type with
  | .producer => (s.roster .consumer).count == 0 && s.queue.len == s.queue.maxLen
  | .consumer => (s.roster .producer).count == 0 && s.queue.len == 0

def Pc.isEnded : Pc → Bool
  | .ended | .orphaned => true
  | _ => false

def mainStep (limit : Nat) (s : State α) (created : Bool) : Option (State α) :=
  match s.main with
  | .idle => none
  | .spawn type ind =>
    let r := s.roster type
    if created then
      some { s.setRoster type { r with
          count := r.count + 1
          handle := Function.update r.handle ind s.threads.length } with
        threads := s.threads ++ [⟨type, ind, .checkLock, false⟩]
        main := .idle }
    else
      some { s.setRoster type { r with working := Function.update r.working ind false } with
        main := .idle }
  | .closeLock type ind =>
    if s.workingMutex type = none then
      some { s.setWorking type (some .main) with main := .closeTest type ind }
    else none
  | .closeTest type ind =>
    let r := s.roster type
    if 0 < r.count ∧ ind < limit ∧ r.working ind then
      some { s with main := .closeCancel type ind }
    else some { s with main := .closeRefuse type }
  | .closeRefuse type => some { s.setWorking type none with main := .idle }
  | .closeCancel type ind =>
    if isStuck type s then
      some { s with
        threads := requestCancel s.threads ((s.roster type).handle ind)
        main := .closeClear type ind }
    else some { s with main := .closeClear type ind }
  | .closeClear type ind =>
    let r := s.roster type
    some { s.setRoster type { r with working := Function.update r.working ind false } with
      main := .closeUnlock type ind }
  | .closeUnlock type ind => some { s.setWorking type none with main := .closeJoin type ind }
  | .closeJoin type ind =>
    match s.threads[(s.roster type).handle ind]? with
    | some th => if th.pc.isEnded then some { s with main := .closeRelock type } else none
    | none => none
  | .closeRelock type =>
    if s.workingMutex type = none then
      some { s.setWorking type (some .main) with main := .closeCount type }
    else none
  | .closeCount type =>
    let r := s.roster type
    some { s.setRoster type { r with count := r.count - 1 } with main := .closeEnd type }
  | .closeEnd type => some { s.setWorking type none with main := .idle }
  | .reduceWait =>
    if 0 < s.freeSpaceSem then
      some { s with freeSpaceSem := s.freeSpaceSem - 1, main := .reduceLock }
    else none
  | .reduceLock =>
    if s.queueMutex = none then
      some { s with queueMutex := some .main, main := .reduceCall }
    else none
  | .reduceCall => some { s with queue := queueReduce .lab51 s.queue, main := .reduceUnlock }
  | .reduceUnlock => some { s with queueMutex := none, main := .idle }
  | .expandLock =>
    if s.queueMutex = none then
      some { s with queueMutex := some .main, main := .expandCall }
    else none
  | .expandCall => some { s with queue := queueExpand s.queue, main := .expandUnlock }
  | .expandUnlock => some { s with queueMutex := none, main := .expandPost }
  | .expandPost => some { s with freeSpaceSem := s.freeSpaceSem + 1, main := .idle }

/-- The program of lab5/5.1 with room for `limit` threads of each type
(`MAX_PRODUCER_THREADS` and `MAX_CONSUMER_THREADS`, both 10 in the source). -/
def program (limit : Nat) : System (State α) (Action α) where
  init := .init
  step s
    | .command c => if s.main = .idle then commandStep limit s c else none
    | .main created => mainStep limit s created
    | .thread t m => s.threads[t]?.bind (fun th => threadStep s t th m)
    | .cancel t => s.threads[t]?.bind (cancelStep s t)

end Osisp.Lab51
