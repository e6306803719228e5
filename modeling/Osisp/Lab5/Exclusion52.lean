import Osisp.Lab5.Main52

namespace Osisp.Lab52

open Osisp.Lab5 Osisp.Lib

variable {α : Type*}

/-- A thread step moves this thread alone. It is a fair move of the mutex, except for the
unlock that follows a check at the top of the loop that found the flag of the thread down. -/
theorem threadStep_cases {s s' : State α} {t : Nat} {th : Thread} {m : α}
    (h : threadStep s t th m = some s') :
    ∃ pc, s'.threads = s.threads.set t { th with pc := pc } ∧ s'.main = s.main ∧
      (th.pc = .termUnlockQueue .loopTop ∨
        MutexMove (.thread t) s.queueMutex s'.queueMutex th.pc.holdsQueue pc.holdsQueue) ∧
      (pc = .termUnlock .loopTop →
        th.pc = .checkTest .loopTop ∧ (s.roster th.type).working th.ind = false) ∧
      (pc = .termUnlockQueue .loopTop → th.pc = .termUnlock .loopTop) := by
  obtain ⟨type, ind, pc, cancel⟩ := th
  cases pc <;> simp only [threadStep] at h
  case checkLock site =>
    split_ifs at h
    cases h
    exact ⟨_, rfl, rfl, .inr (.inl ⟨rfl, by cases site <;> rfl⟩), nofun, nofun⟩
  case checkTest site =>
    split_ifs at h with hw <;> cases h
    · exact ⟨_, rfl, rfl, .inr (.inl ⟨rfl, by cases site <;> rfl⟩), nofun, nofun⟩
    · refine ⟨_, rfl, rfl, .inr (.inl ⟨rfl, by cases site <;> rfl⟩), fun he => ?_, nofun⟩
      cases he
      exact ⟨rfl, by simpa using hw⟩
  case checkUnlock site =>
    cases site <;> cases h <;> exact ⟨_, rfl, rfl, .inr (.inl ⟨rfl, rfl⟩), nofun, nofun⟩
  case termUnlock site =>
    cases h
    refine ⟨_, rfl, rfl, .inr (.inl ⟨rfl, by cases site <;> rfl⟩), nofun, fun he => ?_⟩
    cases he
    rfl
  case termUnlockQueue site =>
    cases site <;> cases h
    · exact ⟨_, rfl, rfl, .inl rfl, nofun, nofun⟩
    · exact ⟨_, rfl, rfl, .inr (.inr (.inr ⟨rfl, rfl, rfl⟩)), nofun, nofun⟩
  case whileTest =>
    split_ifs at h <;> cases h <;>
      exact ⟨_, rfl, rfl, .inr (.inl ⟨rfl, rfl⟩), nofun, nofun⟩
  case lockQueue | reacquire | cancelled =>
    split_ifs at h with hfree
    cases h
    exact ⟨_, rfl, rfl, .inr (.inr (.inl ⟨hfree, rfl, rfl, rfl⟩)), nofun, nofun⟩
  case condWait | unlockQueue =>
    cases h
    exact ⟨_, rfl, rfl, .inr (.inr (.inr ⟨rfl, rfl, rfl⟩)), nofun, nofun⟩
  case closing | sleep | waiting | work | print | signal =>
    cases h
    exact ⟨_, rfl, rfl, .inr (.inl ⟨rfl, rfl⟩), nofun, nofun⟩
  case ended | orphaned => cases h

theorem cancelStep_cases {s s' : State α} {t : Nat} {th : Thread}
    (h : cancelStep s t th = some s') :
    ∃ pc, s'.threads = s.threads.set t { th with pc := pc } ∧ s'.main = s.main ∧
      s'.queueMutex = s.queueMutex ∧ pc.holdsQueue = th.pc.holdsQueue ∧
      pc ≠ .termUnlock .loopTop ∧ pc ≠ .termUnlockQueue .loopTop := by
  obtain ⟨type, ind, pc, cancel⟩ := th
  simp only [cancelStep] at h
  split_ifs at h
  cases pc <;> cases h <;> exact ⟨_, rfl, rfl, rfl, rfl, nofun, nofun⟩

/-- What a step of main may do to the table of threads: nothing, a new thread at the top of
its loop, or a request to cancel one. -/
def TableMove (threads threads' : List Thread) : Prop :=
  threads' = threads ∨
  (∃ type ind, threads' = threads ++ [⟨type, ind, .checkLock .loopTop, false⟩]) ∨
  ∃ t, threads' = requestCancel threads t

theorem commandStep_cases {limit : Nat} {s s' : State α} {c : Command}
    (h : commandStep limit s c = some s') :
    s'.threads = s.threads ∧ s'.queueMutex = s.queueMutex ∧
      (s' = s ∨ s'.main.holdsQueue = false) := by
  cases c <;> simp only [commandStep] at h
  case create | reduce =>
    split_ifs at h <;> cases h
    · exact ⟨rfl, rfl, by simp [MainPc.holdsQueue]⟩
    · exact ⟨rfl, rfl, by simp [MainPc.holdsQueue]⟩
  case close | expand =>
    cases h
    exact ⟨rfl, rfl, .inr rfl⟩

theorem mainStep_cases {limit : Nat} {s s' : State α} {created : Bool}
    (h : mainStep limit s created = some s') :
    TableMove s.threads s'.threads ∧
      MutexMove .main s.queueMutex s'.queueMutex s.main.holdsQueue s'.main.holdsQueue := by
  obtain ⟨queue, queueMutex, workingMutex, roster, threads, main⟩ := s
  cases main <;> simp only [mainStep] at h
  case idle => cases h
  case spawn type ind =>
    split_ifs at h <;> cases h
    · exact ⟨.inr (.inl ⟨type, ind, rfl⟩), .inl ⟨rfl, rfl⟩⟩
    · exact ⟨.inl rfl, .inl ⟨rfl, rfl⟩⟩
  case closeLock | closeRelock =>
    split_ifs at h
    cases h
    exact ⟨.inl rfl, .inl ⟨rfl, rfl⟩⟩
  case closeTest =>
    split_ifs at h <;> cases h <;> exact ⟨.inl rfl, .inl ⟨rfl, rfl⟩⟩
  case closeCancel type ind =>
    split_ifs at h <;> cases h
    · exact ⟨.inr (.inr ⟨_, rfl⟩), .inl ⟨rfl, rfl⟩⟩
    · exact ⟨.inl rfl, .inl ⟨rfl, rfl⟩⟩
  case closeUnlock type ind wait =>
    cases wait <;> cases h <;> exact ⟨.inl rfl, .inl ⟨rfl, rfl⟩⟩
  case closeJoin type ind =>
    split at h
    · split_ifs at h
      cases h
      exact ⟨.inl rfl, .inl ⟨rfl, rfl⟩⟩
    · cases h
  case reduceTest =>
    split_ifs at h <;> cases h <;> exact ⟨.inl rfl, .inl ⟨rfl, rfl⟩⟩
  case reduceLock | reduceReacquire | expandLock =>
    split_ifs at h with hfree
    cases h
    exact ⟨.inl rfl, .inr (.inl ⟨hfree, rfl, rfl, rfl⟩)⟩
  case reduceWait | reduceUnlock | expandUnlock =>
    cases h
    exact ⟨.inl rfl, .inr (.inr ⟨rfl, rfl, rfl⟩)⟩
  case closeRefuse | closeClear | closeBroadcast | closeCount | closeEnd | reduceWaiting |
      reduceCall | expandCall | expandSignal =>
    cases h
    exact ⟨.inl rfl, .inl ⟨rfl, rfl⟩⟩

/-- A table move leaves the threads that are inside inside, and moves none to the places of
`p` unless the top of the loop is one. -/
theorem TableMove.at_iff {threads threads' : List Thread} (h : TableMove threads threads')
    {p : Pc → Prop} (hp : ¬p (.checkLock .loopTop)) (t : Nat) :
    At threads' t (fun th => p th.pc) ↔ At threads t (fun th => p th.pc) := by
  rcases h with rfl | ⟨type, ind, rfl⟩ | ⟨u, rfl⟩
  · rfl
  · exact at_append_of_not (p := fun th : Thread => p th.pc) hp threads t
  · simp only [At, requestCancel, List.getElem?_modify]
    cases h : threads[t]? with
    | none => simp
    | some th => by_cases hu : u = t <;> simp [hu]

/-- The thread makes the check at the top of its loop and finds its flag down. -/
def FailsAtTop (s : State α) (th : Thread) : Prop :=
  th.pc = .checkTest .loopTop ∧ (s.roster th.type).working th.ind = false

/-- The step is not a failing check at the top of the loop. -/
def Good (s : State α) : Action α → Prop
  | .thread t _ => ¬At s.threads t (FailsAtTop s)
  | _ => True

instance (s : State α) (th : Thread) : Decidable (FailsAtTop s th) :=
  inferInstanceAs (Decidable (_ ∧ _))

instance (s : State α) : (a : Action α) → Decidable (Good s a)
  | .thread t _ => inferInstanceAs (Decidable (¬At s.threads t (FailsAtTop s)))
  | .command _ | .main _ | .cancel _ => isTrue trivial

/-- The places after a failed check at the top of the loop. -/
def Stray (pc : Pc) : Prop := pc = .termUnlock .loopTop ∨ pc = .termUnlockQueue .loopTop

/-- The mutex is held by whoever is inside, and no thread is about to give it back unheld. -/
structure Excludes (s : State α) : Prop where
  guards : Guards s.queueMutex (Inside s)
  noStray : ∀ t, ¬At s.threads t (fun th => Stray th.pc)

/-- One party of the table moves from `th.pc` to `pc`; the others stay. -/
theorem inside_set {s s' : State α} {t : Nat} {th : Thread} {pc : Pc}
    (ht : s.threads[t]? = some th) (hset : s'.threads = s.threads.set t { th with pc := pc })
    (hmain : s'.main = s.main) :
    (Inside s (.thread t) ↔ th.pc.holdsQueue = true) ∧
    (Inside s' (.thread t) ↔ pc.holdsQueue = true) ∧
    ∀ q, q ≠ .thread t → (Inside s' q ↔ Inside s q) := by
  refine ⟨at_of_getElem? ht _, ?_, fun q hq => ?_⟩
  · simp only [Inside, hset]
    exact at_set_self ht _ _
  · cases q with
    | main => simp only [Inside, hmain]
    | thread u =>
      simp only [Inside, hset]
      exact at_set_of_ne (fun h : t = u => hq (by rw [h])) _ _ _

theorem noStray_set {threads : List Thread} {t : Nat} {th : Thread} {pc : Pc}
    (h : ∀ u, ¬At threads u (fun th => Stray th.pc)) (ht : threads[t]? = some th)
    (hpc : ¬Stray pc) (u : Nat) :
    ¬At (threads.set t { th with pc := pc }) u (fun th => Stray th.pc) := by
  by_cases hu : t = u
  · subst hu
    rw [at_set_self ht]
    exact hpc
  · rw [at_set_of_ne hu]
    exact h u

theorem step_excludes {limit : Nat} {s s' : State α} {a : Action α} (hi : Excludes s)
    (hgood : Good s a) (h : (program limit).step s a = some s') : Excludes s' := by
  cases a with
  | command c =>
    simp only [program] at h
    split_ifs at h with hidle
    obtain ⟨ht, hm, hmain⟩ := commandStep_cases h
    refine ⟨?_, by rw [ht]; exact hi.noStray⟩
    have hwas : s.main.holdsQueue = false := by rw [hidle]; rfl
    have his : s'.main.holdsQueue = false := by
      rcases hmain with rfl | hmain
      · exact hwas
      · exact hmain
    have hmove : MutexMove Party.main s.queueMutex s'.queueMutex s.main.holdsQueue
        s'.main.holdsQueue := .inl ⟨hm, his.trans hwas.symm⟩
    apply hmove.guards hi.guards Iff.rfl Iff.rfl
    intro q hq
    cases q with
    | main => exact absurd rfl hq
    | thread t => simp only [Inside, ht]
  | main created =>
    obtain ⟨ht, hmove⟩ := mainStep_cases h
    refine ⟨hmove.guards hi.guards Iff.rfl Iff.rfl fun q hq => ?_, fun t => ?_⟩
    · cases q with
      | main => exact absurd rfl hq
      | thread t => exact ht.at_iff (p := fun pc => pc.holdsQueue = true) (by decide) t
    · rw [ht.at_iff (p := Stray) (by simp [Stray]) t]
      exact hi.noStray t
  | thread t m =>
    obtain ⟨th, hth, hstep⟩ := Option.bind_eq_some_iff.mp h
    obtain ⟨pc, hset, hmain, hmove, hfirst, hsecond⟩ := threadStep_cases hstep
    have hstray := hi.noStray t
    rw [at_of_getElem? hth] at hstray
    obtain ⟨hwas, his, hother⟩ := inside_set hth hset hmain
    refine ⟨?_, fun u => ?_⟩
    · rcases hmove with hbad | hmove
      · exact absurd (.inr hbad) hstray
      · exact hmove.guards hi.guards hwas his hother
    · rw [hset]
      refine noStray_set hi.noStray hth ?_ u
      rintro (rfl | rfl)
      · exact hgood ((at_of_getElem? hth _).mpr (hfirst rfl))
      · exact hstray (.inl (hsecond rfl))
  | cancel t =>
    obtain ⟨th, hth, hstep⟩ := Option.bind_eq_some_iff.mp h
    obtain ⟨pc, hset, hmain, hm, hpc, hfirst, hsecond⟩ := cancelStep_cases hstep
    obtain ⟨hwas, his, hother⟩ := inside_set hth hset hmain
    have hmove : MutexMove (.thread t) s.queueMutex s'.queueMutex th.pc.holdsQueue
        pc.holdsQueue := .inl ⟨hm, hpc⟩
    refine ⟨hmove.guards hi.guards hwas his hother, fun u => ?_⟩
    rw [hset]
    exact noStray_set hi.noStray hth (by rintro (h | h); exacts [hfirst h, hsecond h]) u

theorem init_excludes : Excludes (State.init : State α) where
  guards p := by cases p <;> simp [Inside, State.init, MainPc.holdsQueue, At]
  noStray t := by simp [At, State.init]

theorem reach_excludes {limit : Nat} {s : State α}
    (h : (program limit).Reach Good s) : Excludes s :=
  h.invariant init_excludes fun _ _ _ hi hg ht => step_excludes hi hg ht

/-- Who unlocks is inside, unless it follows a failed check at the top of the loop. -/
theorem unlocker_inside {s : State α} {a : Action α} {p : Party}
    (hs : ∀ t, ¬At s.threads t (fun th => Stray th.pc)) (h : unlocker s a = some p) :
    Inside s p := by
  cases a with
  | command c => cases h
  | cancel t => cases h
  | main created =>
    simp only [unlocker] at h
    split_ifs at h with hm
    cases h
    rcases hm with hm | hm <;> simp [Inside, hm, MainPc.holdsQueue]
  | thread t m =>
    simp only [unlocker] at h
    split at h
    · rename_i th hth
      have hstray := hs t
      rw [at_of_getElem? hth] at hstray
      split at h
      · rename_i site hpc
        split_ifs at h
        cases h
        cases site
        · exact absurd (.inr hpc) hstray
        · exact (at_of_getElem? hth _).mpr (by simp [hpc, Pc.holdsQueue])
      · rename_i hpc
        cases h
        exact (at_of_getElem? hth _).mpr (by simp [hpc, Pc.holdsQueue])
      · cases h
    · cases h

/-- Mutual exclusion in the runs in which no thread finds its flag down at the top of its
loop: who unlocks `queue_mutex` holds it, and at most one party is inside a section it
guards. -/
theorem mutual_exclusion {limit : Nat} {s : State α} (h : (program limit).Reach Good s) :
    (∀ a p, unlocker s a = some p → s.queueMutex = some p) ∧
    ∀ p q, Inside s p → Inside s q → p = q := by
  have hi := reach_excludes h
  exact ⟨fun a p hu => (hi.guards p).mp (unlocker_inside hi.noStray hu),
    fun p q hp hq => hi.guards.unique hp hq⟩

/-- A producer is created and goes on until it is inside the section. -/
def enterSection : List (Action Nat) :=
  [.command (.create .producer), .main true] ++ List.replicate 5 (.thread 0 0)

theorem mutual_exclusion_inside :
    ∃ s : State Nat, (program 10).Reach Good s ∧ s.queueMutex = some (.thread 0) ∧
      (∀ a p, unlocker s a = some p → s.queueMutex = some p) ∧
      ∀ p q, Inside s p → Inside s q → p = q := by
  obtain ⟨s, hs, hm⟩ := System.exists_reach_of_run (M := program 10) Good enterSection
    (fun s => s.queueMutex == some (.thread 0)) (by decide) (by decide)
  exact ⟨s, hs, by simpa using hm, mutual_exclusion hs⟩

/-- Two producers, the first inside the section. The second is being closed: it finds its
flag down at the top of its loop and calls the unlock of the mutex that the first one holds. -/
def strayUnlock : List (Action Nat) :=
  [.command (.create .producer), .main true, .command (.create .producer), .main true] ++
  List.replicate 5 (.thread 0 0) ++
  .command (.close .producer) :: List.replicate 5 (.main true) ++
  List.replicate 3 (.thread 1 0)

theorem unlock_not_by_holder :
    ¬∀ s : State Nat, (program 10).Reachable s →
      (∀ a p, unlocker s a = some p → s.queueMutex = some p) ∧
      ∀ p q, Inside s p → Inside s q → p = q := by
  intro h
  obtain ⟨s, hs, hm⟩ := System.exists_reach_of_run (M := program 10)
    (fun _ _ => True) strayUnlock
    (fun s => s.queueMutex == some (.thread 0) &&
      unlocker s (.thread 1 0) == some (.thread 1)) (by decide) (by decide)
  simp only [Bool.and_eq_true, beq_iff_eq] at hm
  have hu := (h s hs).1 _ _ hm.2
  rw [hm.1] at hu
  cases hu

end Osisp.Lab52
