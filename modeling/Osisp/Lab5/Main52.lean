import Osisp.Lib.Transition
import Osisp.Lib.Mutex
import Osisp.Lab5.Queue
import Osisp.Lab5.Threads

namespace Osisp.Lab52

open Osisp.Lab5 Osisp.Lib

/-- The two calls of `checkTermProducer` (`checkTermConsumer`): at the top of the loop, and
inside the loop that waits for the queue. -/
inductive CheckSite where
  | loopTop
  | waitLoop
  deriving DecidableEq, Repr

/-- The argument `is_mutex_should_be_unlocked` of the two calls. -/
def CheckSite.isMutexShouldBeUnlocked : CheckSite → Bool
  | .loopTop => true
  | .waitLoop => true

/-- Where a thread stands in `producer_thread_processing` or `consumer_thread_processing`. -/
inductive Pc where
  | checkLock (site : CheckSite)
  | checkTest (site : CheckSite)
  | checkUnlock (site : CheckSite)
  | termUnlock (site : CheckSite)
  | termUnlockQueue (site : CheckSite)
  | closing
  | sleep
  | lockQueue
  | whileTest
  | condWait
  | waiting
  | reacquire
  | work
  | print
  | signal
  | unlockQueue
  /-- Cancelled in `pthread_cond_wait`, to end as soon as it has the mutex again. -/
  | cancelled
  | ended
  /-- Ended by a cancellation while it held `queue_mutex`. -/
  | orphaned
  deriving DecidableEq, Repr

structure Thread where
  type : ThreadType
  ind : Nat
  pc : Pc
  /-- `pthread_cancel` has been called for it. -/
  cancel : Bool
  deriving DecidableEq, Repr

/-- Where main stands between two commands and inside one. `ind` is the argument of
`close_thread_by_ind`, `wait` its variable `is_should_wait`. -/
inductive MainPc where
  | idle
  | spawn (type : ThreadType) (ind : Nat)
  | closeLock (type : ThreadType) (ind : Nat)
  | closeTest (type : ThreadType) (ind : Nat)
  | closeRefuse (type : ThreadType)
  | closeCancel (type : ThreadType) (ind : Nat)
  | closeClear (type : ThreadType) (ind : Nat) (wait : Bool)
  | closeUnlock (type : ThreadType) (ind : Nat) (wait : Bool)
  | closeBroadcast (type : ThreadType) (ind : Nat)
  | closeJoin (type : ThreadType) (ind : Nat)
  | closeRelock (type : ThreadType)
  | closeCount (type : ThreadType)
  | closeEnd (type : ThreadType)
  | reduceLock
  | reduceTest
  | reduceWait
  | reduceWaiting
  | reduceReacquire
  | reduceCall
  | reduceUnlock
  | expandLock
  | expandCall
  | expandUnlock
  | expandSignal
  deriving DecidableEq, Repr

structure State (α : Type*) where
  queue : MessageQueue α
  queueMutex : Option Party
  workingMutex : ThreadType → Option Party
  roster : ThreadType → Roster
  threads : List Thread
  main : MainPc

variable {α : Type*}

def State.init : State α where
  queue := queueInit
  queueMutex := none
  workingMutex := fun _ => none
  roster := fun _ => .empty
  threads := []
  main := .idle

/-- What can happen next. Main reads a command or goes on (`created` is the outcome of
`pthread_create`); thread `t` goes on (`m` is what `queue_generate_message` makes); thread
`t`, for which `pthread_cancel` was called, is cancelled at a cancellation point. -/
inductive Action (α : Type*) where
  | command (c : Command)
  | main (created : Bool)
  | thread (t : Nat) (m : α)
  | cancel (t : Nat)

/-- Thread `t` goes to `pc`. -/
def State.goto (s : State α) (t : Nat) (th : Thread) (pc : Pc) : State α :=
  { s with threads := s.threads.set t { th with pc := pc } }

def State.setWorking (s : State α) (type : ThreadType) (holder : Option Party) : State α :=
  { s with workingMutex := Function.update s.workingMutex type holder }

def State.setRoster (s : State α) (type : ThreadType) (r : Roster) : State α :=
  { s with roster := Function.update s.roster type r }

/-- What the thread waits for: the queue not full, or not empty. -/
def mustWait (type : ThreadType) (q : MessageQueue α) : Bool :=
  match type with
  | .producer => queueIsFull q
  | .consumer => queueIsEmpty q

/-- The queue operation of the thread. -/
def doWork (type : ThreadType) (m : α) (q : MessageQueue α) : MessageQueue α :=
  match type with
  | .producer => queuePush (some m) q
  | .consumer => (queuePop q).2

/-- One step of a thread. A waiting thread may go on at any time: `pthread_cond_wait` may
return without a signal, so the signals and broadcasts themselves change nothing here. -/
def threadStep (s : State α) (t : Nat) (th : Thread) (m : α) : Option (State α) :=
  match th.pc with
  | .checkLock site =>
    if s.workingMutex th.type = none then
      some ((s.setWorking th.type (some (.thread t))).goto t th (.checkTest site))
    else none
  | .checkTest site =>
    if (s.roster th.type).working th.ind then some (s.goto t th (.checkUnlock site))
    else some (s.goto t th (.termUnlock site))
  | .checkUnlock .loopTop => some ((s.setWorking th.type none).goto t th .sleep)
  | .checkUnlock .waitLoop => some ((s.setWorking th.type none).goto t th .condWait)
  | .termUnlock site => some ((s.setWorking th.type none).goto t th (.termUnlockQueue site))
  | .termUnlockQueue site =>
    if site.isMutexShouldBeUnlocked then
      some { s.goto t th .closing with queueMutex := none }
    else some (s.goto t th .closing)
  | .closing => some (s.goto t th .ended)
  | .sleep => some (s.goto t th .lockQueue)
  | .lockQueue =>
    if s.queueMutex = none then
      some { s.goto t th .whileTest with queueMutex := some (.thread t) }
    else none
  | .whileTest =>
    if mustWait th.type s.queue then some (s.goto t th (.checkLock .waitLoop))
    else some (s.goto t th .work)
  | .condWait => some { s.goto t th .waiting with queueMutex := none }
  | .waiting => some (s.goto t th .reacquire)
  | .reacquire =>
    if s.queueMutex = none then
      some { s.goto t th .whileTest with queueMutex := some (.thread t) }
    else none
  | .work => some { s.goto t th .print with queue := doWork th.type m s.queue }
  | .print => some (s.goto t th .signal)
  | .signal => some (s.goto t th .unlockQueue)
  | .unlockQueue => some { s.goto t th (.checkLock .loopTop) with queueMutex := none }
  | .cancelled =>
    if s.queueMutex = none then
      some { s.goto t th .orphaned with queueMutex := some (.thread t) }
    else none
  | .ended => none
  | .orphaned => none

/-- A cancelled thread ends in `sleep`, in `pthread_cond_wait` or while it prints. -/
def cancelStep (s : State α) (t : Nat) (th : Thread) : Option (State α) :=
  if th.cancel then
    match th.pc with
    | .sleep => some (s.goto t th .ended)
    | .waiting => some (s.goto t th .cancelled)
    | .print => some (s.goto t th .orphaned)
    | _ => none
  else none

/-- Main reads a command between two others. -/
def commandStep (limit : Nat) (s : State α) : Command → Option (State α)
  | .create type =>
    let r := s.roster type
    if r.count < limit then
      let ind := r.firstFree limit
      some { s.setRoster type { r with working := Function.update r.working ind true } with
        main := .spawn type ind }
    else some s
  | .close type => some { s with main := .closeLock type ((s.roster type).count - 1) }
  | .reduce =>
    if (s.roster .consumer).count = 0 then some s else some { s with main := .reduceLock }
  | .expand => some { s with main := .expandLock }

/-- The threads after `pthread_cancel` for thread `t`. -/
def requestCancel (threads : List Thread) (t : Nat) : List Thread :=
  threads.modify t (fun th => { th with cancel := true })

/-- The test by which `close_thread_by_ind` decides to cancel. -/
def isStuck (type : ThreadType) (s : State α) : Bool :=
  match type with
  | .producer => (s.roster .consumer).count == 0 && s.queue.len == s.queue.maxLen
  | .consumer => (s.roster .producer).count == 0 && s.queue.len == 0

def Pc.isEnded : Pc → Bool
  | .ended | .orphaned => true
  | _ => false

/-- The next step of main inside a command. -/
def mainStep (limit : Nat) (s : State α) (created : Bool) : Option (State α) :=
  match s.main with
  | .idle => none
  | .spawn type ind =>
    let r := s.roster type
    if created then
      some { s.setRoster type { r with
          count := r.count + 1
          handle := Function.update r.handle ind s.threads.length } with
        threads := s.threads ++ [⟨type, ind, .checkLock .loopTop, false⟩]
        main := .idle }
    else
      some { s.setRoster type { r with working := Function.update r.working ind false } with
        main := .idle }
  | .closeLock type ind =>
    if s.workingMutex type = none then
      some { s.setWorking type (some .main) with main := .closeTest type ind }
    else none
  | .closeTest type ind =>
    let r := s.roster type
    if 0 < r.count ∧ ind < limit ∧ r.working ind then
      some { s with main := .closeCancel type ind }
    else some { s with main := .closeRefuse type }
  | .closeRefuse type => some { s.setWorking type none with main := .idle }
  | .closeCancel type ind =>
    if isStuck type s then
      some { s with
        threads := requestCancel s.threads ((s.roster type).handle ind)
        main := .closeClear type ind false }
    else some { s with main := .closeClear type ind true }
  | .closeClear type ind wait =>
    let r := s.roster type
    some { s.setRoster type { r with working := Function.update r.working ind false } with
      main := .closeUnlock type ind wait }
  | .closeUnlock type ind wait =>
    some { s.setWorking type none with
      main := if wait then .closeBroadcast type ind else .closeRelock type }
  | .closeBroadcast type ind => some { s with main := .closeJoin type ind }
  | .closeJoin type ind =>
    match s.threads[(s.roster type).handle ind]? with
    | some th => if th.pc.isEnded then some { s with main := .closeRelock type } else none
    | none => none
  | .closeRelock type =>
    if s.workingMutex type = none then
      some { s.setWorking type (some .main) with main := .closeCount type }
    else none
  | .closeCount type =>
    let r := s.roster type
    some { s.setRoster type { r with count := r.count - 1 } with main := .closeEnd type }
  | .closeEnd type => some { s.setWorking type none with main := .idle }
  | .reduceLock =>
    if s.queueMutex = none then
      some { s with queueMutex := some .main, main := .reduceTest }
    else none
  | .reduceTest =>
    if queueIsFull s.queue then some { s with main := .reduceWait }
    else some { s with main := .reduceCall }
  | .reduceWait => some { s with queueMutex := none, main := .reduceWaiting }
  | .reduceWaiting => some { s with main := .reduceReacquire }
  | .reduceReacquire =>
    if s.queueMutex = none then
      some { s with queueMutex := some .main, main := .reduceTest }
    else none
  | .reduceCall => some { s with queue := queueReduce .lab52 s.queue, main := .reduceUnlock }
  | .reduceUnlock => some { s with queueMutex := none, main := .idle }
  | .expandLock =>
    if s.queueMutex = none then
      some { s with queueMutex := some .main, main := .expandCall }
    else none
  | .expandCall => some { s with queue := queueExpand s.queue, main := .expandUnlock }
  | .expandUnlock => some { s with queueMutex := none, main := .expandSignal }
  | .expandSignal => some { s with main := .idle }

/-- The program of lab5/5.2 with room for `limit` threads of each type
(`MAX_PRODUCER_THREADS` and `MAX_CONSUMER_THREADS`, both 10 in the source). -/
def program (limit : Nat) : System (State α) (Action α) where
  init := .init
  step s
    | .command c => if s.main = .idle then commandStep limit s c else none
    | .main created => mainStep limit s created
    | .thread t m => s.threads[t]?.bind (fun th => threadStep s t th m)
    | .cancel t => s.threads[t]?.bind (cancelStep s t)

/-- Where a thread holds `queue_mutex`: between an entry of `pthread_mutex_lock` or
`pthread_cond_wait` and the next exit. -/
def Pc.holdsQueue : Pc → Bool
  | .checkLock .waitLoop | .checkTest .waitLoop | .checkUnlock .waitLoop
  | .termUnlock .waitLoop | .termUnlockQueue .waitLoop
  | .whileTest | .condWait | .work | .print | .signal | .unlockQueue | .orphaned => true
  | _ => false

def MainPc.holdsQueue : MainPc → Bool
  | .reduceTest | .reduceWait | .reduceCall | .reduceUnlock | .expandCall | .expandUnlock => true
  | _ => false

/-- The party is inside a section entered by locking `queue_mutex`. -/
def Inside (s : State α) : Party → Prop
  | .main => s.main.holdsQueue
  | .thread t => At s.threads t (fun th => th.pc.holdsQueue)

/-- The party that calls `pthread_mutex_unlock(&queue_mutex)` in this step. -/
def unlocker (s : State α) : Action α → Option Party
  | .main _ => if s.main = .reduceUnlock ∨ s.main = .expandUnlock then some .main else none
  | .thread t _ =>
    match s.threads[t]? with
    | some th =>
      match th.pc with
      | .termUnlockQueue site => if site.isMutexShouldBeUnlocked then some (.thread t) else none
      | .unlockQueue => some (.thread t)
      | _ => none
    | none => none
  | _ => none

end Osisp.Lab52
