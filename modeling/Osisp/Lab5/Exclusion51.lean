import Osisp.Lab5.Closing51

namespace Osisp.Lab51

open Osisp.Lab5 Osisp.Lib

variable {α : Type*}

/-- The three mutexes of the program. -/
inductive Lock where
  | queue
  | working (type : ThreadType)
  deriving DecidableEq, Repr

def State.holder (s : State α) : Lock → Option Party
  | .queue => s.queueMutex
  | .working type => s.workingMutex type

def Pc.holdsQueue : Pc → Bool
  | .work | .print | .unlockQueue | .orphaned => true
  | _ => false

def MainPc.holdsQueue : MainPc → Bool
  | .reduceCall | .reduceUnlock | .expandCall | .expandUnlock => true
  | _ => false

/-- The party is inside a section of the mutex. -/
def Inside (s : State α) : Lock → Party → Prop
  | .queue, .main => s.main.holdsQueue
  | .queue, .thread t => At s.threads t (fun th => th.pc.holdsQueue)
  | .working type, p => InCheck type s p

/-- The mutex that a step unlocks, and who does. -/
def unlocker (s : State α) : Action α → Option (Lock × Party)
  | .main _ =>
    match s.main with
    | .reduceUnlock | .expandUnlock => some (.queue, .main)
    | .closeRefuse type | .closeUnlock type _ | .closeEnd type => some (.working type, .main)
    | _ => none
  | .thread t _ =>
    match s.threads[t]? with
    | some th =>
      match th.pc with
      | .unlockQueue => some (.queue, .thread t)
      | .checkUnlock | .termUnlock => some (.working th.type, .thread t)
      | _ => none
    | none => none
  | _ => none

theorem threadStep_queueMutex {s s' : State α} {t : Nat} {th : Thread} {m : α}
    (h : threadStep s t th m = some s') :
    ∃ pc, s'.threads = s.threads.set t { th with pc := pc } ∧ s'.main = s.main ∧
      MutexMove (.thread t) s.queueMutex s'.queueMutex th.pc.holdsQueue pc.holdsQueue ∧
      pc ≠ .orphaned := by
  obtain ⟨type, ind, pc, cancel⟩ := th
  cases pc <;> simp only [threadStep] at h
  case semWait =>
    obtain ⟨u, htake, rfl⟩ := Option.map_eq_some_iff.mp h
    obtain ⟨⟨free, items, rfl⟩, -⟩ := takeUnit_units htake
    exact ⟨_, rfl, rfl, .inl ⟨rfl, rfl⟩, by simp⟩
  case semPost =>
    cases type <;> cases h <;> exact ⟨_, rfl, rfl, .inl ⟨rfl, rfl⟩, by simp⟩
  case lockQueue =>
    split_ifs at h with hfree
    cases h
    exact ⟨_, rfl, rfl, .inr (.inl ⟨hfree, rfl, rfl, rfl⟩), by simp⟩
  case unlockQueue =>
    cases h
    exact ⟨_, rfl, rfl, .inr (.inr ⟨rfl, rfl, rfl⟩), by simp⟩
  case checkLock | checkTest =>
    split_ifs at h
    all_goals
      cases h
      exact ⟨_, rfl, rfl, .inl ⟨rfl, rfl⟩, by simp⟩
  case ended | orphaned => cases h
  all_goals
    cases h
    exact ⟨_, rfl, rfl, .inl ⟨rfl, rfl⟩, by simp⟩

theorem cancelStep_mutex {s s' : State α} {t : Nat} {th : Thread}
    (h : cancelStep s t th = some s') :
    ∃ pc, s' = s.goto t th pc ∧ pc.holdsQueue = th.pc.holdsQueue ∧
      pc.inCheck = th.pc.inCheck := by
  obtain ⟨type, ind, pc, cancel⟩ := th
  simp only [cancelStep] at h
  split_ifs at h
  cases pc <;> cases h <;> exact ⟨_, rfl, rfl, rfl⟩

theorem commandStep_queueMutex {limit : Nat} {s s' : State α} {c : Command}
    (hidle : s.main = .idle) (h : commandStep limit s c = some s') :
    s'.queueMutex = s.queueMutex ∧ s'.main.holdsQueue = false := by
  cases c <;> simp only [commandStep] at h
  case create | reduce =>
    split_ifs at h
    all_goals
      cases h
      simp [hidle, State.setRoster, MainPc.holdsQueue]
  case close | expand =>
    cases h
    simp [MainPc.holdsQueue]

theorem mainStep_queueMutex {limit : Nat} {s s' : State α} {created : Bool}
    (h : mainStep limit s created = some s') :
    MutexMove .main s.queueMutex s'.queueMutex s.main.holdsQueue s'.main.holdsQueue := by
  obtain ⟨queue, freeSpaceSem, itemsSem, queueMutex, workingMutex, roster, threads, main⟩ := s
  cases main <;> simp only [mainStep] at h
  case idle => cases h
  case closeJoin =>
    split at h
    · split_ifs at h
      cases h
      exact .inl ⟨rfl, rfl⟩
    · cases h
  case reduceLock | expandLock =>
    split_ifs at h with hfree
    cases h
    exact .inr (.inl ⟨hfree, rfl, rfl, rfl⟩)
  case reduceUnlock | expandUnlock =>
    cases h
    exact .inr (.inr ⟨rfl, rfl, rfl⟩)
  case spawn | closeLock | closeTest | closeCancel | closeRelock | reduceWait =>
    split_ifs at h
    all_goals
      cases h
      exact .inl ⟨rfl, rfl⟩
  all_goals
    cases h
    exact .inl ⟨rfl, rfl⟩

/-- Every mutex is held by whoever is inside one of its sections. -/
def Exclusive (s : State α) : Prop := ∀ lock, Guards (s.holder lock) (Inside s lock)

theorem init_exclusive : Exclusive (State.init : State α) := by
  intro lock p
  cases lock <;> cases p <;>
    simp [State.holder, State.init, Inside, InCheck, MainPc.inCheck, MainPc.holdsQueue, At]

/-- Main's steps move no thread in or out of a section. -/
theorem Exclusive.of_main {limit : Nat} {s s' : State α} (hi : Exclusive s)
    (hroll : s.roll.Move limit s'.roll)
    (hqueue : MutexMove .main s.queueMutex s'.queueMutex s.main.holdsQueue s'.main.holdsQueue)
    (hworking : ∀ type, MutexMove .main (s.workingMutex type) (s'.workingMutex type)
      (s.main.inCheck type) (s'.main.inCheck type)) : Exclusive s' := by
  intro lock
  cases lock with
  | queue =>
    apply hqueue.guards (hi .queue) Iff.rfl Iff.rfl
    intro q hq
    cases q with
    | main => exact absurd rfl hq
    | thread t =>
      exact hroll.at_iff (p := fun th : Thread => th.pc.holdsQueue = true)
        (fun ty ind hf => by cases hf) (fun a => Iff.rfl) t
  | working type =>
    apply (hworking type).guards (hi (.working type)) Iff.rfl Iff.rfl
    intro q hq
    cases q with
    | main => exact absurd rfl hq
    | thread t =>
      exact hroll.at_iff (p := fun th : Thread => th.type = type ∧ th.pc.inCheck = true)
        (fun ty ind hf => by cases hf.2) (fun a => Iff.rfl) t

/-- A step of a thread moves this thread alone. -/
theorem Exclusive.of_thread {s s' : State α} (hi : Exclusive s) {t : Nat} {th : Thread} {pc : Pc}
    (hth : s.threads[t]? = some th) (hset : s'.threads = s.threads.set t { th with pc := pc })
    (hmain : s'.main = s.main)
    (hqueue : MutexMove (.thread t) s.queueMutex s'.queueMutex th.pc.holdsQueue pc.holdsQueue)
    (hworking : ∀ type, MutexMove (.thread t) (s.workingMutex type) (s'.workingMutex type)
      (th.type = type ∧ th.pc.inCheck) (th.type = type ∧ pc.inCheck)) : Exclusive s' := by
  have hother (p : Thread → Prop) (u : Nat) (hu : Party.thread u ≠ Party.thread t) :
      At s'.threads u p ↔ At s.threads u p := by
    rw [hset]
    exact at_set_of_ne (fun h => hu (by rw [h])) _ _ _
  intro lock
  cases lock with
  | queue =>
    apply hqueue.guards (hi .queue) (at_of_getElem? hth _)
    · simp only [Inside, hset]
      exact at_set_self hth _ _
    · intro q hq
      cases q with
      | main => simp only [Inside, hmain]
      | thread u => exact hother _ u hq
  | working type =>
    apply (hworking type).guards (hi (.working type))
    · simp only [Inside, InCheck, at_of_getElem? hth, Bool.decide_and, Bool.and_eq_true,
        decide_eq_true_eq]
    · simp only [Inside, InCheck, hset, at_set_self hth, Bool.decide_and, Bool.and_eq_true,
        decide_eq_true_eq]
    · intro q hq
      cases q with
      | main => simp only [Inside, InCheck, hmain]
      | thread u => exact hother _ u hq

theorem step_exclusive {limit : Nat} {s s' : State α} {a : Action α} (hi : Exclusive s)
    (h : (program limit).step s a = some s') : Exclusive s' := by
  cases a with
  | command c =>
    simp only [program] at h
    split_ifs at h with hidle
    obtain ⟨hq, hm⟩ := commandStep_queueMutex hidle h
    have hwas : s.main.holdsQueue = false := by simp [hidle, MainPc.holdsQueue]
    exact hi.of_main (commandStep_move hidle h) (.inl ⟨hq, hm.trans hwas.symm⟩)
      (commandStep_mutex hidle h)
  | main created =>
    exact hi.of_main (mainStep_move h) (mainStep_queueMutex h) (mainStep_mutex h)
  | thread t m =>
    obtain ⟨th, hth, hstep⟩ := Option.bind_eq_some_iff.mp h
    obtain ⟨pc, hset, hmain, hqueue, -⟩ := threadStep_queueMutex hstep
    obtain ⟨pc', hmove⟩ := threadStep_move hstep
    have hpc : pc' = pc := by
      have hsame := hmove.threads.symm.trans hset
      have hat := congrArg (fun threads : List Thread => threads[t]?) hsame
      have ht : t < s.threads.length := (List.getElem?_eq_some_iff.mp hth).1
      simpa [ht] using hat
    subst hpc
    exact hi.of_thread hth hset hmain hqueue hmove.mutex
  | cancel t =>
    obtain ⟨th, hth, hstep⟩ := Option.bind_eq_some_iff.mp h
    obtain ⟨pc, rfl, hqueue, hcheck⟩ := cancelStep_mutex hstep
    have hworking (type : ThreadType) : MutexMove (.thread t) (s.workingMutex type)
        (s.workingMutex type) (th.type = type ∧ th.pc.inCheck) (th.type = type ∧ pc.inCheck) := by
      rw [hcheck]
      exact .inl ⟨rfl, rfl⟩
    have hset : (s.goto t th pc).threads = s.threads.set t { th with pc := pc } := rfl
    exact hi.of_thread hth hset rfl (.inl ⟨rfl, hqueue⟩) hworking

theorem reach_exclusive {limit : Nat} {s : State α} (h : (program limit).Reachable s) :
    Exclusive s :=
  h.invariant init_exclusive fun _ _ _ hi _ ht => step_exclusive hi ht

/-- Who unlocks a mutex is inside its section. -/
theorem unlocker_within {s : State α} {a : Action α} {lock : Lock} {p : Party}
    (h : unlocker s a = some (lock, p)) : Inside s lock p := by
  cases a with
  | command c => cases h
  | cancel t => cases h
  | main created =>
    simp only [unlocker] at h
    split at h
    all_goals cases h
    all_goals
      rename_i hm
      simp [Inside, InCheck, hm, MainPc.holdsQueue, MainPc.inCheck]
  | thread t m =>
    simp only [unlocker] at h
    split at h
    · rename_i th hth
      split at h
      all_goals cases h
      all_goals
        rename_i hpc
        simp only [Inside, InCheck]
        refine (at_of_getElem? hth _).mpr ?_
        simp [hpc, Pc.holdsQueue, Pc.inCheck]
    · cases h

/-- In every run, cancellations at any point included, who unlocks one of the three mutexes holds
it, and at most one party is inside the sections of a mutex. -/
theorem three_mutexes_exclude {limit : Nat} {s : State α} (h : (program limit).Reachable s) :
    (∀ a lock p, unlocker s a = some (lock, p) → s.holder lock = some p) ∧
    ∀ lock p q, Inside s lock p → Inside s lock q → p = q := by
  have hi := reach_exclusive h
  constructor
  · intro a lock p hu
    exact (hi lock p).mp (unlocker_within hu)
  · intro lock p q hp hq
    exact (hi lock).unique hp hq

/-- A producer is created and goes on until it is inside the section of `queue_mutex`. -/
def enterQueue : List (Action Nat) :=
  [.command (.create .producer), .main true] ++ List.replicate 6 (.thread 0 0)

theorem three_mutexes_exclude_working :
    ∃ s : State Nat, (program 10).Reachable s ∧ s.holder .queue = some (.thread 0) ∧
      ∀ p q, Inside s .queue p → Inside s .queue q → p = q := by
  obtain ⟨s, hs, hm⟩ := System.exists_reach_of_run (M := program 10) (fun _ _ => True)
    enterQueue (fun s => s.queueMutex == some (.thread 0)) (by decide) (by decide)
  exact ⟨s, hs, by simpa [State.holder] using hm, (three_mutexes_exclude hs).2 .queue⟩

end Osisp.Lab51
