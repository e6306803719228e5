import Osisp.Lab5.Exclusion52

namespace Osisp.Lab52

open Osisp.Lab5 Osisp.Lib

variable {α : Type*}

/-- A thread that ends, or that is going to end as soon as it has the mutex. -/
def Pc.isLost : Pc → Bool
  | .cancelled | .orphaned => true
  | _ => false

theorem Pc.runs_of_holds {pc : Pc} (hin : pc.holdsQueue = true) (hl : pc.isLost = false) :
    pc.isEnded = false := by
  cases pc <;> first | rfl | simp [Pc.holdsQueue, Pc.isLost] at hin hl

/-- A thread that is not cancelled moves on and takes the mutex, gives it back, or leaves it as it
is and stays on its side. -/
theorem threadStep_holder {s s' : State α} {t : Nat} {th : Thread} {m : α}
    (h : threadStep s t th m = some s') (hc : th.pc.isLost = false) :
    ∃ pc, s'.threads = s.threads.set t { th with pc := pc } ∧ pc.isLost = false ∧
      (s'.queueMutex = none ∨ s'.queueMutex = some (.thread t) ∧ pc.holdsQueue = true ∨
        s'.queueMutex = s.queueMutex ∧ pc.holdsQueue = th.pc.holdsQueue) := by
  obtain ⟨type, ind, pc, cancel⟩ := th
  cases pc <;> simp only [threadStep] at h
  case checkLock site =>
    split_ifs at h
    cases h
    exact ⟨_, rfl, rfl, .inr (.inr ⟨rfl, by cases site <;> rfl⟩)⟩
  case checkTest site =>
    split_ifs at h <;> cases h <;>
      exact ⟨_, rfl, rfl, .inr (.inr ⟨rfl, by cases site <;> rfl⟩)⟩
  case checkUnlock site =>
    cases site <;> cases h <;> exact ⟨_, rfl, rfl, .inr (.inr ⟨rfl, rfl⟩)⟩
  case termUnlock site =>
    cases h
    exact ⟨_, rfl, rfl, .inr (.inr ⟨rfl, by cases site <;> rfl⟩)⟩
  case termUnlockQueue site =>
    cases site <;> cases h <;> exact ⟨_, rfl, rfl, .inl rfl⟩
  case whileTest =>
    split_ifs at h <;> cases h <;> exact ⟨_, rfl, rfl, .inr (.inr ⟨rfl, rfl⟩)⟩
  case lockQueue | reacquire =>
    split_ifs at h
    cases h
    exact ⟨_, rfl, rfl, .inr (.inl ⟨rfl, rfl⟩)⟩
  case condWait | unlockQueue =>
    cases h
    exact ⟨_, rfl, rfl, .inl rfl⟩
  case closing | sleep | waiting | work | print | signal =>
    cases h
    exact ⟨_, rfl, rfl, .inr (.inr ⟨rfl, rfl⟩)⟩
  case cancelled | orphaned => cases hc
  case ended => cases h

/-- No cancellation meets a thread in `pthread_cond_wait`, nor one that prints with the mutex in
its hand. -/
def CancelsUnheld (s : State α) : Action α → Prop
  | .cancel t => ¬At s.threads t (fun th => th.pc = .waiting ∨ th.pc = .print)
  | _ => True

instance (s : State α) : (a : Action α) → Decidable (CancelsUnheld s a)
  | .cancel t => inferInstanceAs (Decidable (¬At s.threads t fun th => th.pc = .waiting ∨
      th.pc = .print))
  | .command _ | .main _ | .thread .. => isTrue trivial

/-- A thread that holds the mutex is inside, and no thread is lost. -/
structure Held (s : State α) : Prop where
  inside : ∀ t, s.queueMutex = some (.thread t) → At s.threads t (fun th => th.pc.holdsQueue)
  noneLost : ∀ t, ¬At s.threads t (fun th => th.pc.isLost)

theorem cancelStep_asleep {s s' : State α} {t : Nat} {th : Thread}
    (h : cancelStep s t th = some s') (hpc : ¬(th.pc = .waiting ∨ th.pc = .print)) :
    th.pc = .sleep ∧ s' = s.goto t th .ended := by
  obtain ⟨type, ind, pc, cancel⟩ := th
  simp only [cancelStep] at h
  split_ifs at h
  cases pc <;> simp only [reduceCtorEq] at h
  case sleep =>
    cases h
    exact ⟨rfl, rfl⟩
  case waiting => exact absurd (.inl rfl) hpc
  case print => exact absurd (.inr rfl) hpc

theorem step_held {limit : Nat} {s s' : State α} {a : Action α} (hi : Held s)
    (hgood : CancelsUnheld s a) (h : (program limit).step s a = some s') : Held s' := by
  cases a with
  | command c =>
    simp only [program] at h
    split_ifs at h
    obtain ⟨ht, hm, -⟩ := commandStep_cases h
    constructor <;> rw [ht]
    · rw [hm]
      exact hi.inside
    · exact hi.noneLost
  | main created =>
    obtain ⟨ht, hmove⟩ := mainStep_cases h
    refine ⟨fun t hh => ?_, fun t => ?_⟩
    · rw [ht.at_iff (p := fun pc => pc.holdsQueue = true) (by decide) t]
      rcases hmove with ⟨hm, -⟩ | ⟨-, hm, -⟩ | ⟨hm, -⟩ <;> rw [hm] at hh
      · exact hi.inside t hh
      · cases hh
      · cases hh
    · rw [ht.at_iff (p := fun pc => pc.isLost = true) (by decide) t]
      exact hi.noneLost t
  | thread t m =>
    obtain ⟨th, hth, hstep⟩ := Option.bind_eq_some_iff.mp h
    have hlost := hi.noneLost t
    rw [at_of_getElem? hth, Bool.not_eq_true] at hlost
    obtain ⟨pc, hset, hpc, hm⟩ := threadStep_holder hstep hlost
    refine ⟨fun u hh => ?_, fun u => ?_⟩ <;> rw [hset] <;> by_cases hu : t = u
    · subst hu
      rw [at_set_self hth]
      rcases hm with hm | ⟨-, hin⟩ | ⟨hm, hin⟩
      · rw [hm] at hh
        cases hh
      · exact hin
      · rw [hm] at hh
        exact hin ▸ (at_of_getElem? hth _).mp (hi.inside t hh)
    · rw [at_set_of_ne hu]
      rcases hm with hm | ⟨hm, -⟩ | ⟨hm, -⟩ <;> rw [hm] at hh
      · cases hh
      · cases hh
        exact absurd rfl hu
      · exact hi.inside u hh
    · subst hu
      rw [at_set_self hth]
      simp [hpc]
    · rw [at_set_of_ne hu]
      exact hi.noneLost u
  | cancel t =>
    obtain ⟨th, hth, hstep⟩ := Option.bind_eq_some_iff.mp h
    have hpc : ¬(th.pc = .waiting ∨ th.pc = .print) := by
      rwa [← at_of_getElem? hth (fun th => th.pc = .waiting ∨ th.pc = .print)]
    obtain ⟨hsleep, rfl⟩ := cancelStep_asleep hstep hpc
    refine ⟨fun u hh => ?_, fun u => ?_⟩ <;> simp only [State.goto] <;> by_cases hu : t = u
    · subst hu
      have hin := (at_of_getElem? hth _).mp (hi.inside t hh)
      rw [hsleep] at hin
      cases hin
    · rw [at_set_of_ne hu]
      exact hi.inside u hh
    · subst hu
      rw [at_set_self hth]
      simp [Pc.isLost]
    · rw [at_set_of_ne hu]
      exact hi.noneLost u

theorem init_held : Held (State.init : State α) where
  inside t h := by cases h
  noneLost t := by simp [At, State.init]

theorem reach_held {limit : Nat} {s : State α} (h : (program limit).Reach CancelsUnheld s) :
    Held s :=
  h.invariant init_held fun _ _ _ hi hg ht => step_held hi hg ht

/-- The holder of `queue_mutex`, if it is a thread, has not terminated. -/
def HolderRuns (s : State α) : Prop :=
  ∀ t, s.queueMutex = some (.thread t) → At s.threads t (fun th => th.pc.isEnded = false)

/-- `queue_mutex` is not orphaned as long as no cancellation is delivered inside
`pthread_cond_wait` or inside the section; an unlock by somebody who does not hold the mutex does
not change this. -/
theorem mutex_not_orphaned {limit : Nat} {s : State α}
    (h : (program limit).Reach CancelsUnheld s) : HolderRuns s := by
  intro t hh
  obtain ⟨hinside, hlost⟩ := reach_held h
  obtain ⟨th, hth, hin⟩ := hinside t hh
  have hl := hlost t
  rw [at_of_getElem? hth] at hl
  exact ⟨th, hth, Pc.runs_of_holds hin (by simpa using hl)⟩

/-- A consumer is created and waits, as there is no message. -/
def waitForItem : List (Action Nat) :=
  [.command (.create .consumer), .main true] ++ List.replicate 10 (.thread 0 0)

theorem mutex_not_orphaned_waiting :
    ∃ s : State Nat, s.queueMutex = some (.thread 0) ∧ HolderRuns s := by
  obtain ⟨s, hs, hm⟩ := System.exists_reach_of_run (M := program 10) CancelsUnheld
    (waitForItem.take 10) (fun s => s.queueMutex == some (.thread 0)) (by decide) (by decide)
  exact ⟨s, by simpa using hm, mutex_not_orphaned hs⟩

/-- The waiting consumer is closed: it is cancelled, has the mutex again, and ends with it. -/
theorem mutex_orphaned : ¬ ∀ s : State Nat, (program 10).Reachable s → HolderRuns s := by
  intro hall
  obtain ⟨s, hs, hm⟩ := System.exists_reach_of_run (M := program 10) (fun _ _ => True)
    (waitForItem ++ .command (.close .consumer) :: List.replicate 3 (.main true) ++
      [.cancel 0, .thread 0 0])
    (fun s => s.queueMutex == some (.thread 0) &&
      decide (At s.threads 0 (fun th => th.pc = .orphaned))) (by decide) (by decide)
  simp only [Bool.and_eq_true, beq_iff_eq, decide_eq_true_eq] at hm
  obtain ⟨hmutex, th, hth, hpc⟩ := hm
  have h := hall s hs 0 hmutex
  rw [at_of_getElem? hth, hpc] at h
  cases h

end Osisp.Lab52
