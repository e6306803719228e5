import Osisp.Lib.History
import Osisp.Lab5.Delivery
import Osisp.Lab5.Bounds51

namespace Osisp.Lab51

open Osisp.Lab5 Osisp.Lib

variable {α : Type*}

def queueCall (s : State α) : Action α → List (QueueOp α)
  | .thread t m =>
    match s.threads[t]? with
    | some th =>
      if th.pc = .work then
        match th.type with
        | .producer => [.push m]
        | .consumer => [.pop]
      else []
    | none => []
  | .main _ =>
    match s.main with
    | .reduceCall => [.reduce]
    | .expandCall => [.expand]
    | _ => []
  | _ => []

/-- Only the work of a thread touches the queue. -/
theorem threadStep_queue {s s' : State α} {t : Nat} {th : Thread} {m : α}
    (h : threadStep s t th m = some s') (hpc : th.pc ≠ .work) : s'.queue = s.queue := by
  obtain ⟨type, ind, pc, cancel⟩ := th
  cases pc <;> simp only [threadStep] at h
  case work => exact absurd rfl hpc
  case semWait =>
    obtain ⟨u, htake, rfl⟩ := Option.map_eq_some_iff.mp h
    cases type <;> simp only [takeUnit] at htake <;> split_ifs at htake <;> cases htake <;> rfl
  case semPost => cases type <;> cases h <;> rfl
  case checkLock | checkTest | lockQueue =>
    split_ifs at h
    all_goals
      cases h
      rfl
  case ended | orphaned => cases h
  all_goals
    cases h
    rfl

theorem cancelStep_queue {s s' : State α} {t : Nat} {th : Thread}
    (h : cancelStep s t th = some s') : s'.queue = s.queue := by
  obtain ⟨pc, rfl, -, -⟩ := cancelStep_cases h
  rfl

/-- Of main's steps only the two calls touch the queue. -/
theorem mainStep_queue {limit : Nat} {s s' : State α} {created : Bool}
    (h : mainStep limit s created = some s') :
    (s.main = .reduceCall → s'.queue = queueReduce .lab51 s.queue) ∧
    (s.main = .expandCall → s'.queue = queueExpand s.queue) ∧
    (s.main ≠ .reduceCall → s.main ≠ .expandCall → s'.queue = s.queue) := by
  obtain ⟨queue, freeSpaceSem, itemsSem, queueMutex, workingMutex, roster, threads, main⟩ := s
  cases main <;> simp only [mainStep] at h
  case idle => cases h
  case closeJoin =>
    split at h
    · split_ifs at h
      cases h
      simp
    · cases h
  case spawn | closeLock | closeTest | closeCancel | closeRelock | reduceWait | reduceLock |
      expandLock =>
    split_ifs at h
    all_goals
      cases h
      simp [State.setWorking, State.setRoster]
  all_goals
    cases h
    simp [State.setWorking, State.setRoster]

/-- The calls made so far, and what the semaphores promise the next ones. -/
structure Serves (ops : List (QueueOp α)) (s : State α) : Prop where
  bounded : Bounded s
  serial : Serial .lab51 ops s.queue

theorem Serves.same {ops : List (QueueOp α)} {s s' : State α} (hi : Serves ops s)
    (hb : Bounded s') (hq : s'.queue = s.queue) : Serves (ops ++ []) s' := by
  rw [List.append_nil]
  refine ⟨hb, ?_⟩
  rw [hq]
  exact hi.serial

theorem step_serves {limit : Nat} (ops : List (QueueOp α)) (s : State α) (a : Action α)
    (s' : State α) (hi : Serves ops s) (h : (program limit).step s a = some s') :
    Serves (ops ++ queueCall s a) s' := by
  have hb : Bounded s' := step_bounded hi.bounded h
  cases a with
  | command c =>
    simp only [program] at h
    split_ifs at h
    exact hi.same hb (commandStep_cases h).2.1
  | main created =>
    obtain ⟨hreduce, hexpand, hother⟩ := mainStep_queue h
    by_cases hr : s.main = .reduceCall
    · simp only [queueCall, hr]
      refine ⟨hb, ?_⟩
      rw [hreduce hr]
      exact hi.serial.reduce
    · by_cases he : s.main = .expandCall
      · simp only [queueCall, he]
        refine ⟨hb, ?_⟩
        rw [hexpand he]
        exact hi.serial.expand
      · have hnone : queueCall s (.main created) = [] := by
          simp only [queueCall]
        rw [hnone]
        exact hi.same hb (hother hr he)
  | thread t m =>
    obtain ⟨th, hth, hstep⟩ := Option.bind_eq_some_iff.mp h
    by_cases hpc : th.pc = .work
    · obtain ⟨hroom, hitem⟩ := hi.bounded.work hth hpc
      have hqueue : s'.queue = doWork th.type m s.queue := by
        simp only [threadStep, hpc, Option.some.injEq] at hstep
        rw [← hstep]
      simp only [queueCall, hth, if_pos hpc]
      refine ⟨hb, ?_⟩
      rw [hqueue]
      cases htype : th.type with
      | producer => exact hi.serial.push m (hroom htype)
      | consumer => exact hi.serial.pop (hitem htype)
    · simp only [queueCall, hth, if_neg hpc]
      exact hi.same hb (threadStep_queue hstep hpc)
  | cancel t =>
    obtain ⟨th, hth, hstep⟩ := Option.bind_eq_some_iff.mp h
    exact hi.same hb (cancelStep_queue hstep)

theorem init_serves : Serves [] (State.init : State α) :=
  ⟨init_bounded, init_serial .lab51⟩

theorem run_serves {limit : Nat} {s : State α} (as : List (Action α))
    (h : (program limit).run .init as = some s) :
    Serves ((program limit).history queueCall .init as) s := by
  have halong : (program limit).Along (fun _ _ => True) (State.init : State α) as :=
    .of_forall (fun _ _ _ => trivial) _
  exact System.run_history (fun ops s a t hi _ ht => step_serves ops s a t hi ht) init_serves as
    halong h

/-- Whatever main does and wherever threads are cancelled, the threads' calls are those of one
caller, none refused; where they are sound, the messages leave in the order of their pushes. -/
theorem threads_deliver {limit : Nat} {s : State α} (as : List (Action α))
    (h : (program limit).run .init as = some s) :
    Serial .lab51 ((program limit).history queueCall .init as) s.queue ∧
    (Session.SoundRun .lab51 Session.init ((program limit).history queueCall .init as) →
      (Session.run .lab51 ((program limit).history queueCall .init as)).returned =
        (pushed ((program limit).history queueCall .init as)).take
          (pops ((program limit).history queueCall .init as)) ∧
      s.queue.fault = false) := by
  have hserial := (run_serves as h).serial
  refine ⟨hserial, ?_⟩
  intro hsound
  exact hserial.in_order hsound

/-- A producer pushes two messages and a consumer takes the first. -/
def pushTwice : List (Action Nat) :=
  [.command (.create .producer), .main true, .command (.create .consumer), .main true] ++
    List.replicate 10 (.thread 0 1) ++ List.replicate 10 (.thread 0 2) ++
    List.replicate 7 (.thread 1 0)

theorem threads_deliver_first :
    (Session.run .lab51 ((program 10).history queueCall .init pushTwice)).returned =
      (pushed ((program 10).history queueCall .init pushTwice)).take
        (pops ((program 10).history queueCall .init pushTwice)) := by
  obtain ⟨s, hs⟩ := Option.isSome_iff_exists.mp
    (show ((program 10).run .init pushTwice).isSome = true by decide)
  exact ((threads_deliver pushTwice hs).2 (by decide)).1

end Osisp.Lab51
