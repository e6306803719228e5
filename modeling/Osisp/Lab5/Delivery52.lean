import Osisp.Lib.History
import Osisp.Lab5.Delivery
import Osisp.Lab5.Exclusion52

namespace Osisp.Lab52

open Osisp.Lab5 Osisp.Lib

variable {α : Type*}

def queueCall (s : State α) : Action α → List (QueueOp α)
  | .thread t m =>
    match s.threads[t]? with
    | some th =>
      if th.pc = .work then
        match th.type with
        | .producer => [.push m]
        | .consumer => [.pop]
      else []
    | none => []
  | .main _ =>
    match s.main with
    | .reduceCall => [.reduce]
    | .expandCall => [.expand]
    | _ => []
  | _ => []

/-- Only the work of a thread touches the queue, and it follows a test of the queue. -/
theorem threadStep_queue {s s' : State α} {t : Nat} {th : Thread} {m : α}
    (h : threadStep s t th m = some s') :
    (th.pc = .work → s'.queue = doWork th.type m s.queue) ∧
    (th.pc ≠ .work → s'.queue = s.queue) ∧
    ∃ pc, s'.threads = s.threads.set t { th with pc := pc } ∧
      (pc = .work → mustWait th.type s'.queue = false) := by
  obtain ⟨type, ind, pc, cancel⟩ := th
  cases pc <;> simp only [threadStep] at h
  case whileTest =>
    split_ifs at h with hwait
    · cases h
      exact ⟨by simp, by simp [State.goto], _, rfl, by simp⟩
    · cases h
      refine ⟨by simp, by simp [State.goto], _, rfl, ?_⟩
      intro _
      simpa [State.goto] using hwait
  case work =>
    cases h
    exact ⟨by simp, by simp, _, rfl, by simp⟩
  case checkUnlock site =>
    cases site <;> cases h <;>
      exact ⟨by simp, by simp [State.goto, State.setWorking], _, rfl, by simp⟩
  case checkLock | checkTest | termUnlockQueue | lockQueue | reacquire | cancelled =>
    split_ifs at h
    all_goals
      cases h
      exact ⟨by simp, by simp [State.goto, State.setWorking], _, rfl, by simp⟩
  case ended | orphaned => cases h
  all_goals
    cases h
    exact ⟨by simp, by simp [State.goto, State.setWorking], _, rfl, by simp⟩

theorem cancelStep_queue {s s' : State α} {t : Nat} {th : Thread}
    (h : cancelStep s t th = some s') :
    s'.queue = s.queue ∧ ∃ pc, s'.threads = s.threads.set t { th with pc := pc } ∧ pc ≠ .work := by
  obtain ⟨type, ind, pc, cancel⟩ := th
  simp only [cancelStep] at h
  split_ifs at h
  cases pc <;> cases h <;> exact ⟨rfl, _, rfl, by simp⟩

/-- Of main's steps only the two calls touch the queue. -/
theorem mainStep_queue {limit : Nat} {s s' : State α} {created : Bool}
    (h : mainStep limit s created = some s') :
    (s.main = .reduceCall → s'.queue = queueReduce .lab52 s.queue) ∧
    (s.main = .expandCall → s'.queue = queueExpand s.queue) ∧
    (s.main ≠ .reduceCall → s.main ≠ .expandCall → s'.queue = s.queue) := by
  obtain ⟨queue, queueMutex, workingMutex, roster, threads, main⟩ := s
  cases main <;> simp only [mainStep] at h
  case idle => cases h
  case closeJoin =>
    split at h
    · split_ifs at h
      cases h
      simp
    · cases h
  case closeUnlock type ind wait =>
    cases wait <;> cases h <;> simp [State.setWorking]
  case spawn | closeLock | closeTest | closeCancel | closeRelock | reduceLock | reduceTest |
      reduceReacquire | expandLock =>
    split_ifs at h
    all_goals
      cases h
      simp [State.setWorking, State.setRoster]
  all_goals
    cases h
    simp [State.setWorking, State.setRoster]

theorem commandStep_queue {limit : Nat} {s s' : State α} {c : Command}
    (h : commandStep limit s c = some s') : s'.queue = s.queue ∧ s'.threads = s.threads := by
  refine ⟨?_, (commandStep_cases h).1⟩
  cases c <;> simp only [commandStep] at h
  case create | reduce =>
    split_ifs at h
    all_goals
      cases h
      rfl
  case close | expand =>
    cases h
    rfl

/-- The calls made so far. A thread that is about to work has tested the queue, which nobody
has touched since. -/
structure Serves (ops : List (QueueOp α)) (s : State α) : Prop where
  excludes : Excludes s
  serial : Serial .lab52 ops s.queue
  ready : ∀ (t : Nat) (th : Thread), s.threads[t]? = some th → th.pc = .work →
    mustWait th.type s.queue = false

section

variable {ops : List (QueueOp α)} {s s' : State α}

theorem Serves.same (hi : Serves ops s) (he : Excludes s') (hq : s'.queue = s.queue)
    (hready : ∀ (t : Nat) (th : Thread), s'.threads[t]? = some th → th.pc = .work →
      mustWait th.type s'.queue = false) : Serves (ops ++ []) s' := by
  rw [List.append_nil]
  refine ⟨he, ?_, hready⟩
  rw [hq]
  exact hi.serial

theorem Serves.touched (hi : Serves ops s) {p : Party} (hp : Inside s p) {u : Nat} {th : Thread}
    (hth : s.threads[u]? = some th) (hne : p ≠ .thread u) : th.pc ≠ .work := by
  intro hpc
  have hu : Inside s (.thread u) := (at_of_getElem? hth _).mpr (by simp [hpc, Pc.holdsQueue])
  exact hne (hi.excludes.guards.unique hp hu)

theorem Serves.room (hi : Serves ops s) {t : Nat} {th : Thread} (hth : s.threads[t]? = some th)
    (hpc : th.pc = .work) (htype : th.type = .producer) : s.queue.len < s.queue.maxLen := by
  have hwait := hi.ready t th hth hpc
  have hfits := hi.serial.fits
  simp only [mustWait, htype, queueIsFull, beq_eq_false_iff_ne] at hwait
  omega

theorem Serves.item (hi : Serves ops s) {t : Nat} {th : Thread} (hth : s.threads[t]? = some th)
    (hpc : th.pc = .work) (htype : th.type = .consumer) : 0 < s.queue.len := by
  have hwait := hi.ready t th hth hpc
  simp only [mustWait, htype, queueIsEmpty, beq_eq_false_iff_ne] at hwait
  omega

end

/-- Requests and new threads bring no thread to its work. -/
theorem TableMove.ready {q : MessageQueue α} {threads threads' : List Thread}
    (h : TableMove threads threads')
    (hi : ∀ (t : Nat) (th : Thread), threads[t]? = some th → th.pc = .work →
      mustWait th.type q = false) :
    ∀ (t : Nat) (th : Thread), threads'[t]? = some th → th.pc = .work →
      mustWait th.type q = false := by
  intro t th hth hpc
  rcases h with rfl | ⟨type, ind, rfl⟩ | ⟨u, rfl⟩
  · exact hi t th hth hpc
  · rcases entry_of_append hth with rfl | hold
    · cases hpc
    · exact hi t th hold hpc
  · simp only [requestCancel, List.getElem?_modify] at hth
    obtain ⟨th₀, hold, rfl⟩ := Option.map_eq_some_iff.mp hth
    have hwait := hi t th₀ hold
    split_ifs at hpc ⊢
    · exact hwait hpc
    · exact hwait hpc

theorem step_serves {limit : Nat} (ops : List (QueueOp α)) (s : State α) (a : Action α)
    (s' : State α) (hi : Serves ops s) (hg : Good s a)
    (h : (program limit).step s a = some s') : Serves (ops ++ queueCall s a) s' := by
  have he : Excludes s' := step_excludes hi.excludes hg h
  cases a with
  | command c =>
    simp only [program] at h
    split_ifs at h
    obtain ⟨hq, ht⟩ := commandStep_queue h
    apply hi.same he hq
    rw [ht, hq]
    exact hi.ready
  | main created =>
    obtain ⟨hreduce, hexpand, hother⟩ := mainStep_queue h
    obtain ⟨htable, -⟩ := mainStep_cases h
    have hinside (hin : s.main.holdsQueue = true) (t : Nat) (th : Thread)
        (hth : s.threads[t]? = some th) (hpc : th.pc = .work) :
        mustWait th.type s'.queue = false :=
      absurd hpc (hi.touched (p := .main) hin hth (by simp))
    by_cases hr : s.main = .reduceCall
    · simp only [queueCall, hr]
      refine ⟨he, ?_, htable.ready (hinside (by simp [hr, MainPc.holdsQueue]))⟩
      rw [hreduce hr]
      exact hi.serial.reduce
    · by_cases hx : s.main = .expandCall
      · simp only [queueCall, hx]
        refine ⟨he, ?_, htable.ready (hinside (by simp [hx, MainPc.holdsQueue]))⟩
        rw [hexpand hx]
        exact hi.serial.expand
      · have hnone : queueCall s (.main created) = [] := by
          simp only [queueCall]
        have hq := hother hr hx
        rw [hnone]
        apply hi.same he hq
        rw [hq]
        exact htable.ready hi.ready
  | thread t m =>
    obtain ⟨th, hth, hstep⟩ := Option.bind_eq_some_iff.mp h
    obtain ⟨hwork, hidle, pc, hset, hready⟩ := threadStep_queue hstep
    by_cases hpc : th.pc = .work
    · have hin : Inside s (.thread t) :=
        (at_of_getElem? hth _).mpr (by simp [hpc, Pc.holdsQueue])
      have hrest : ∀ (u : Nat) (x : Thread), s'.threads[u]? = some x → x.pc = .work →
          mustWait x.type s'.queue = false := by
        refine forall_entry_set hset hready fun u x hne hx hxpc => ?_
        exact absurd hxpc (hi.touched hin hx fun heq => hne (by cases heq; rfl))
      simp only [queueCall, hth, if_pos hpc]
      refine ⟨he, ?_, hrest⟩
      rw [hwork hpc]
      cases htype : th.type with
      | producer => exact hi.serial.push m (hi.room hth hpc htype)
      | consumer => exact hi.serial.pop (hi.item hth hpc htype)
    · have hq := hidle hpc
      simp only [queueCall, hth, if_neg hpc]
      apply hi.same he hq
      refine forall_entry_set hset hready fun u x _ hx hxpc => ?_
      rw [hq]
      exact hi.ready u x hx hxpc
  | cancel t =>
    obtain ⟨th, hth, hstep⟩ := Option.bind_eq_some_iff.mp h
    obtain ⟨hq, pc, hset, hpc⟩ := cancelStep_queue hstep
    apply hi.same he hq
    refine forall_entry_set hset (fun h => absurd h hpc) fun u x _ hx hxpc => ?_
    rw [hq]
    exact hi.ready u x hx hxpc

theorem init_serves : Serves [] (State.init : State α) where
  excludes := init_excludes
  serial := init_serial .lab52
  ready := by simp [State.init]

/-- In the runs in which no thread finds its flag down at the top of its loop, the calls that the
threads and main make are those of one caller: nobody pushes on a full queue or pops an empty one.
Where the calls are sound, the messages leave in the order of their pushes. -/
theorem guarded_calls_deliver {limit : Nat} {s : State α} (as : List (Action α))
    (hok : (program limit).Along Good .init as) (h : (program limit).run .init as = some s) :
    Serial .lab52 ((program limit).history queueCall .init as) s.queue ∧
    (Session.SoundRun .lab52 Session.init ((program limit).history queueCall .init as) →
      (Session.run .lab52 ((program limit).history queueCall .init as)).returned =
        (pushed ((program limit).history queueCall .init as)).take
          (pops ((program limit).history queueCall .init as)) ∧
      s.queue.fault = false) := by
  have hserves := System.run_history step_serves init_serves as hok h
  refine ⟨hserves.serial, ?_⟩
  intro hsound
  exact hserves.serial.in_order hsound

/-- A consumer waits for a message, a producer pushes two, and the consumer takes the first. -/
def pushWhileWaiting : List (Action Nat) :=
  [.command (.create .producer), .main true, .command (.create .consumer), .main true] ++
    List.replicate 10 (.thread 1 0) ++ List.replicate 11 (.thread 0 1) ++
    List.replicate 10 (.thread 0 2) ++ List.replicate 4 (.thread 1 0)

theorem guarded_calls_deliver_first :
    (Session.run .lab52 ((program 10).history queueCall .init pushWhileWaiting)).returned =
      (pushed ((program 10).history queueCall .init pushWhileWaiting)).take
        (pops ((program 10).history queueCall .init pushWhileWaiting)) := by
  obtain ⟨s, hs⟩ := Option.isSome_iff_exists.mp
    (show ((program 10).run .init pushWhileWaiting).isSome = true by decide)
  exact ((guarded_calls_deliver pushWhileWaiting (by decide) hs).2 (by decide)).1

end Osisp.Lab52
