import Osisp.Lab5.Closing51
import Osisp.Lab5.Reduce52

namespace Osisp.Lab5

open Osisp.Lib

/-- What `close_thread_by_ind(ind, type)` has done to the roster of the type when it returns, where
every lock and every join that it comes to returns. -/
def closeThreadByInd (limit : Nat) (r : Roster) (ind : Nat) : Roster :=
  if 0 < r.count ∧ ind < limit ∧ r.working ind then
    { r with working := Function.update r.working ind false, count := r.count - 1 }
  else r

/-- The `while` loop of `close_all_threads`; `none` where the fuel does not suffice. -/
def closeAllThreads (limit : Nat) : Nat → Roster → Option Roster
  | 0, _ => none
  | fuel + 1, r =>
    if 0 < r.count then closeAllThreads limit fuel (closeThreadByInd limit r (r.count - 1))
    else some r

/-- The rosters at the tests of that loop. -/
inductive Tested (limit : Nat) (r : Roster) : Roster → Prop
  | entry : Tested limit r r
  | next {r' : Roster} : Tested limit r r' → 0 < r'.count →
      Tested limit r (closeThreadByInd limit r' (r'.count - 1))

/-- Every iteration of the loop lowers the count, and the loop ends. -/
structure ClosesAll (limit : Nat) (r : Roster) : Prop where
  progress : ∀ r', Tested limit r r' → 0 < r'.count →
    (closeThreadByInd limit r' (r'.count - 1)).count < r'.count
  ends : ∃ fuel r', closeAllThreads limit fuel r = some r'

/-- The flags of all threads that are counted are up. -/
structure Filled (limit : Nat) (r : Roster) : Prop where
  le : r.count ≤ limit
  working : ∀ i, i < r.count → r.working i = true

theorem Filled.close {limit : Nat} {r : Roster} (h : Filled limit r) (hpos : 0 < r.count) :
    (closeThreadByInd limit r (r.count - 1)).count = r.count - 1 ∧
      Filled limit (closeThreadByInd limit r (r.count - 1)) := by
  have hle := h.le
  have hw := h.working (r.count - 1) (by omega)
  rw [closeThreadByInd, if_pos ⟨hpos, by omega, hw⟩]
  refine ⟨rfl, Nat.le_trans (Nat.sub_le _ _) hle, fun i hi => ?_⟩
  change i < r.count - 1 at hi
  change Function.update r.working (r.count - 1) false i = true
  rw [Function.update_of_ne (Nat.ne_of_lt hi)]
  exact h.working i (by omega)

theorem Filled.of_close {limit : Nat} {r : Roster} (hpos : 0 < r.count)
    (h : Filled limit (closeThreadByInd limit r (r.count - 1))) : Filled limit r := by
  unfold closeThreadByInd at h
  split_ifs at h with hlast
  · obtain ⟨-, hroom, hw⟩ := hlast
    refine ⟨by omega, fun i hi => ?_⟩
    rcases Nat.lt_or_ge i (r.count - 1) with hlt | hge
    · have hup : Function.update r.working (r.count - 1) false i = true := h.working i hlt
      rwa [Function.update_of_ne (Nat.ne_of_lt hlt)] at hup
    · obtain rfl : i = r.count - 1 := by omega
      exact hw
  · exact h

theorem Filled.tested {limit : Nat} {r r' : Roster} (h : Filled limit r)
    (ht : Tested limit r r') : Filled limit r' := by
  induction ht with
  | entry => exact h
  | next _ hpos ih => exact (ih.close hpos).2

theorem Filled.ends {limit : Nat} {r : Roster} (h : Filled limit r) :
    ∃ r', closeAllThreads limit (r.count + 1) r = some r' := by
  induction hn : r.count generalizing r with
  | zero => exact ⟨r, by simp [closeAllThreads, hn]⟩
  | succ n ih =>
    have hpos : 0 < r.count := by omega
    obtain ⟨hcount, hnext⟩ := h.close hpos
    obtain ⟨r', hr'⟩ := ih hnext (by omega)
    refine ⟨r', ?_⟩
    rw [closeAllThreads, if_pos hpos]
    exact hr'

theorem Filled.of_ends {limit fuel : Nat} {r r' : Roster}
    (h : closeAllThreads limit fuel r = some r') : Filled limit r := by
  induction fuel generalizing r with
  | zero => cases h
  | succ fuel ih =>
    rw [closeAllThreads] at h
    split_ifs at h with hpos
    · exact .of_close hpos (ih h)
    · exact ⟨by omega, fun i hi => absurd hi (by omega)⟩

theorem closesAll_iff_filled {limit : Nat} {r : Roster} : ClosesAll limit r ↔ Filled limit r := by
  constructor
  · intro h
    obtain ⟨fuel, r', hr'⟩ := h.ends
    exact .of_ends hr'
  · intro h
    refine ⟨fun r' ht hpos => ?_, _, h.ends⟩
    have hclose := ((h.tested ht).close hpos).1
    omega

section Interrupted

variable {A : Type*}

/-- The roster of the type that `termination_handler` finds when it interrupts main. Inside
`pthread_create` the new thread may have its handle already. -/
def Roll.Finds (s : Roll A) (type : ThreadType) (r : Roster) : Prop :=
  r = s.roster type ∨ ∃ ind, s.phase = .spawning type ind ∧
    r = { s.roster type with handle := Function.update (s.roster type).handle ind s.table.length }

/-- Main has cleared the flag of a thread of the type and not lowered the count yet. -/
def Phase.uncounted (type : ThreadType) : Phase → Bool
  | .cleared ty _ | .left ty => decide (ty = type)
  | _ => false

theorem Roll.Finds.same {s : Roll A} {type : ThreadType} {r : Roster} (h : s.Finds type r) :
    r.count = (s.roster type).count ∧ r.working = (s.roster type).working := by
  rcases h with rfl | ⟨ind, -, rfl⟩ <;> exact ⟨rfl, rfl⟩

variable [Worker A]

theorem Roll.Sound.filled_iff {limit : Nat} {s : Roll A} (hs : s.Sound) (hw : s.Within limit)
    {type : ThreadType} {r : Roster} (hr : s.Finds type r) :
    Filled limit r ↔ s.phase.uncounted type = false := by
  obtain ⟨hcount, hworking⟩ := hr.same
  have hup := hs.working type
  have hindexed := hs.indexed
  have hfilled : Filled limit r ↔
      (s.roster type).count ≤ s.phase.enrolled type (s.roster type).count := by
    constructor
    · intro h
      by_contra hlt
      have hlast := h.working ((s.roster type).count - 1) (by omega)
      rw [hworking, hup] at hlast
      omega
    · intro h
      refine ⟨by rw [hcount]; exact (hw type).1, fun i hi => ?_⟩
      rw [hworking, hup]
      omega
  rw [hfilled]
  cases hp : s.phase with
  | cleared ty ind | left ty =>
    rw [hp] at hindexed
    simp only [Phase.enrolled, Phase.uncounted, decide_eq_false_iff_not]
    split_ifs with hty
    · subst hty
      simp only [Phase.Indexed] at hindexed
      simp only [not_true_eq_false, iff_false]
      omega
    · simp [hty]
  | spawning ty ind =>
    simp only [Phase.enrolled, Phase.uncounted, iff_true]
    split_ifs <;> omega
  | steady | asked | chosen | marked => simp [Phase.enrolled, Phase.uncounted]

theorem Roll.Sound.closesAll_iff {limit : Nat} {s : Roll A} (hs : s.Sound) (hw : s.Within limit)
    {type : ThreadType} {r : Roster} (hr : s.Finds type r) :
    ClosesAll limit r ↔ s.phase.uncounted type = false :=
  closesAll_iff_filled.trans (hs.filled_iff hw hr)

end Interrupted

/-- The rosters when the call that main is in returns. -/
def Phase.upshot (limit : Nat) (roster : ThreadType → Roster) : Phase → ThreadType → Roster
  | .asked type ind =>
    Function.update roster type (closeThreadByInd limit (roster type) ind)
  | .chosen type ind | .marked type ind => Function.update roster type { roster type with
      working := Function.update (roster type).working ind false
      count := (roster type).count - 1 }
  | .cleared type _ | .left type => Function.update roster type { roster type with
      count := (roster type).count - 1 }
  | .steady | .spawning .. => roster

def Phase.creates : Phase → Bool
  | .spawning .. => true
  | _ => false

end Osisp.Lab5

namespace Osisp.Lab51

open Osisp.Lab5 Osisp.Lib

variable {α : Type*}

theorem mainStep_upshot {limit : Nat} {s s' : State α} {created : Bool}
    (hs : s.main.phase.creates = false) (h : mainStep limit s created = some s') :
    s'.main.phase.creates = false ∧
      s'.main.phase.upshot limit s'.roster = s.main.phase.upshot limit s.roster := by
  obtain ⟨queue, freeSpaceSem, itemsSem, queueMutex, workingMutex, roster, threads, main⟩ := s
  cases main <;> simp only [mainStep] at h
  case idle => cases h
  case spawn => cases hs
  case closeTest type ind =>
    split_ifs at h with htest <;> cases h
    · refine ⟨rfl, ?_⟩
      simp only [MainPc.phase, Phase.upshot, closeThreadByInd, if_pos htest]
    · refine ⟨rfl, ?_⟩
      simp only [MainPc.phase, Phase.upshot, closeThreadByInd, if_neg htest,
        Function.update_eq_self]
  case closeCancel =>
    split_ifs at h <;> cases h <;> exact ⟨rfl, rfl⟩
  case closeClear type ind =>
    cases h
    refine ⟨rfl, ?_⟩
    simp [MainPc.phase, Phase.upshot, State.setRoster]
  case closeJoin =>
    split at h
    · split_ifs at h
      cases h
      exact ⟨rfl, rfl⟩
    · cases h
  case closeLock | closeRelock | reduceWait | reduceLock | expandLock =>
    split_ifs at h
    cases h
    exact ⟨rfl, rfl⟩
  case closeRefuse | closeUnlock | closeCount | closeEnd | reduceCall | reduceUnlock | expandCall |
      expandUnlock | expandPost =>
    cases h
    exact ⟨rfl, rfl⟩

theorem step_upshot {limit : Nat} {s s' : State α} {a : Action α}
    (hs : s.main.phase.creates = false) (ha : ∀ c, a ≠ .command c)
    (h : (program limit).step s a = some s') : s'.main.phase.creates = false ∧
      s'.main.phase.upshot limit s'.roster = s.main.phase.upshot limit s.roster := by
  cases a with
  | command c => exact absurd rfl (ha c)
  | main created => exact mainStep_upshot hs h
  | thread t m =>
    obtain ⟨th, hth, hstep⟩ := Option.bind_eq_some_iff.mp h
    obtain ⟨pc, hm⟩ := threadStep_move hstep
    rw [hm.main, hm.roster]
    exact ⟨hs, rfl⟩
  | cancel t =>
    obtain ⟨th, hth, hstep⟩ := Option.bind_eq_some_iff.mp h
    obtain ⟨-, -, -, pc, rfl, -⟩ := cancelStep_ends hstep
    exact ⟨hs, rfl⟩

theorem close_thread_by_ind_returns {limit : Nat} {s s' : State α} {type : ThreadType} {ind : Nat}
    (hs : s.main = .closeLock type ind) (as : List (Action α)) (has : ∀ a ∈ as, ∀ c, a ≠ .command c)
    (h : (program limit).run s as = some s') (hidle : s'.main = .idle) :
    s'.roster = Function.update s.roster type (closeThreadByInd limit (s.roster type) ind) := by
  have hcreates : s.main.phase.creates = false := by
    rw [hs]
    rfl
  have hup := System.run_unchanged (fun u : State α => u.main.phase.upshot limit u.roster)
    (fun u a v hu ha hstep => step_upshot hu ha hstep) hcreates as has h
  rw [hidle, hs] at hup
  exact hup

end Osisp.Lab51

namespace Osisp.Lab52

open Osisp.Lab5 Osisp.Lib

variable {α : Type*}

theorem mainStep_upshot {limit : Nat} {s s' : State α} {created : Bool}
    (hs : s.main.phase.creates = false) (h : mainStep limit s created = some s') :
    s'.main.phase.creates = false ∧
      s'.main.phase.upshot limit s'.roster = s.main.phase.upshot limit s.roster := by
  obtain ⟨queue, queueMutex, workingMutex, roster, threads, main⟩ := s
  cases main <;> simp only [mainStep] at h
  case idle => cases h
  case spawn => cases hs
  case closeTest type ind =>
    split_ifs at h with htest <;> cases h
    · refine ⟨rfl, ?_⟩
      simp only [MainPc.phase, Phase.upshot, closeThreadByInd, if_pos htest]
    · refine ⟨rfl, ?_⟩
      simp only [MainPc.phase, Phase.upshot, closeThreadByInd, if_neg htest,
        Function.update_eq_self]
  case closeCancel =>
    split_ifs at h <;> cases h <;> exact ⟨rfl, rfl⟩
  case closeClear type ind wait =>
    cases h
    refine ⟨rfl, ?_⟩
    simp [MainPc.phase, Phase.upshot, State.setRoster]
  case closeUnlock type ind wait =>
    cases wait <;> cases h <;> exact ⟨rfl, rfl⟩
  case closeJoin =>
    split at h
    · split_ifs at h
      cases h
      exact ⟨rfl, rfl⟩
    · cases h
  case closeLock | closeRelock | reduceLock | reduceTest | reduceReacquire | expandLock =>
    split_ifs at h <;> cases h <;> exact ⟨rfl, rfl⟩
  case closeRefuse | closeBroadcast | closeCount | closeEnd | reduceWait | reduceWaiting |
      reduceCall | reduceUnlock | expandCall | expandUnlock | expandSignal =>
    cases h
    exact ⟨rfl, rfl⟩

theorem step_upshot {limit : Nat} {s s' : State α} {a : Action α}
    (hs : s.main.phase.creates = false) (ha : ∀ c, a ≠ .command c)
    (h : (program limit).step s a = some s') : s'.main.phase.creates = false ∧
      s'.main.phase.upshot limit s'.roster = s.main.phase.upshot limit s.roster := by
  cases a with
  | command c => exact absurd rfl (ha c)
  | main created => exact mainStep_upshot hs h
  | thread t m =>
    obtain ⟨th, hth, hstep⟩ := Option.bind_eq_some_iff.mp h
    obtain ⟨-, hroster, hmain, -⟩ := threadStep_duty hstep
    rw [hmain, hroster]
    exact ⟨hs, rfl⟩
  | cancel t =>
    obtain ⟨th, hth, hstep⟩ := Option.bind_eq_some_iff.mp h
    obtain ⟨-, pc, rfl⟩ := cancelStep_duty hstep
    exact ⟨hs, rfl⟩

theorem close_thread_by_ind_returns {limit : Nat} {s s' : State α} {type : ThreadType} {ind : Nat}
    (hs : s.main = .closeLock type ind) (as : List (Action α)) (has : ∀ a ∈ as, ∀ c, a ≠ .command c)
    (h : (program limit).run s as = some s') (hidle : s'.main = .idle) :
    s'.roster = Function.update s.roster type (closeThreadByInd limit (s.roster type) ind) := by
  have hcreates : s.main.phase.creates = false := by
    rw [hs]
    rfl
  have hup := System.run_unchanged (fun u : State α => u.main.phase.upshot limit u.roster)
    (fun u a v hu ha hstep => step_upshot hu ha hstep) hcreates as has h
  rw [hidle, hs] at hup
  exact hup

end Osisp.Lab52

namespace Osisp.Lab5

open Osisp.Lib

variable {α : Type*}

/-- After any commands, and wherever the signal interrupts main, `close_all_threads` closes all
threads of the type if and only if main is not between the two updates of `close_thread_by_ind`. -/
theorem close_all_threads_progress_iff (limit : Nat) :
    (∀ s : Lab51.State α, (Lab51.program limit).Reachable s → ∀ type r, s.roll.Finds type r →
      (ClosesAll limit r ↔ s.main.phase.uncounted type = false)) ∧
    (∀ s : Lab52.State α, (Lab52.program limit).Reachable s → ∀ type r, s.roll.Finds type r →
      (ClosesAll limit r ↔ s.main.phase.uncounted type = false)) := by
  constructor
  · intro s hs type r hr
    obtain ⟨hsound, hwithin⟩ := Lab51.reach_sound hs
    exact hsound.closesAll_iff hwithin hr
  · intro s hs type r hr
    obtain ⟨hsound, hwithin⟩ := Lab52.reach_sound hs
    exact hsound.closesAll_iff hwithin hr

/-- A signal inside `pthread_create` does no harm: the flag of the new thread is up, and it is not
counted. -/
theorem close_all_threads_progress_creating :
    (∃ s : Lab51.State Nat, (Lab51.program 10).Reachable s ∧ s.main = .spawn .producer 1 ∧
      ClosesAll 10 (s.roster .producer)) ∧
    (∃ s : Lab52.State Nat, (Lab52.program 10).Reachable s ∧ s.main = .spawn .producer 1 ∧
      ClosesAll 10 (s.roster .producer)) := by
  have hall := close_all_threads_progress_iff (α := Nat) 10
  constructor
  · obtain ⟨s, hs, hm⟩ := System.exists_reach_of_run (M := Lab51.program 10) (fun _ _ => True)
      ([.command (.create .producer), .main true, .command (.create .producer)] :
        List (Lab51.Action Nat))
      (fun s => s.main == .spawn .producer 1) (by decide) (by decide)
    have hmain : s.main = .spawn .producer 1 := by simpa using hm
    exact ⟨s, hs, hmain, (hall.1 s hs .producer _ (.inl rfl)).mpr (by rw [hmain]; rfl)⟩
  · obtain ⟨s, hs, hm⟩ := System.exists_reach_of_run (M := Lab52.program 10) (fun _ _ => True)
      ([.command (.create .producer), .main true, .command (.create .producer)] :
        List (Lab52.Action Nat))
      (fun s => s.main == .spawn .producer 1) (by decide) (by decide)
    have hmain : s.main = .spawn .producer 1 := by simpa using hm
    exact ⟨s, hs, hmain, (hall.2 s hs .producer _ (.inl rfl)).mpr (by rw [hmain]; rfl)⟩

/-- A signal while main waits in `pthread_join` for its only producer: all mutexes are free, the
count is 1 and the flag down, so the loop of the handler goes around forever. -/
theorem interrupted_join_goes_around :
    (¬ ∀ s : Lab51.State Nat, (Lab51.program 10).Reachable s →
      (∀ ty, s.workingMutex ty = none) → ∀ type, ClosesAll 10 (s.roster type)) ∧
    (¬ ∀ s : Lab52.State Nat, (Lab52.program 10).Reachable s →
      (∀ ty, s.workingMutex ty = none) → ∀ type, ClosesAll 10 (s.roster type)) := by
  constructor
  · intro hall
    obtain ⟨s, hs, hm⟩ := System.exists_reach_of_run (M := Lab51.program 10) (fun _ _ => True)
      ([.command (.create .producer), .main true, .command (.close .producer)] ++
        List.replicate 5 (.main true) : List (Lab51.Action Nat))
      (fun s => s.main == .closeJoin .producer 0 &&
        (s.workingMutex .producer == none && s.workingMutex .consumer == none))
      (by decide) (by decide)
    simp only [Bool.and_eq_true, beq_iff_eq] at hm
    obtain ⟨hmain, hprod, hcons⟩ := hm
    have hcloses := hall s hs (fun ty => by cases ty <;> assumption) .producer
    obtain ⟨hsound, hwithin⟩ := Lab51.reach_sound hs
    have hphase := (hsound.closesAll_iff hwithin (.inl rfl)).mp hcloses
    change s.main.phase.uncounted .producer = false at hphase
    rw [hmain] at hphase
    cases hphase
  · intro hall
    obtain ⟨s, hs, hm⟩ := System.exists_reach_of_run (M := Lab52.program 10) (fun _ _ => True)
      ([.command (.create .producer), .main true, .command (.close .producer)] ++
        List.replicate 6 (.main true) : List (Lab52.Action Nat))
      (fun s => s.main == .closeJoin .producer 0 &&
        (s.workingMutex .producer == none && s.workingMutex .consumer == none))
      (by decide) (by decide)
    simp only [Bool.and_eq_true, beq_iff_eq] at hm
    obtain ⟨hmain, hprod, hcons⟩ := hm
    have hcloses := hall s hs (fun ty => by cases ty <;> assumption) .producer
    obtain ⟨hsound, hwithin⟩ := Lab52.reach_sound hs
    have hphase := (hsound.closesAll_iff hwithin (.inl rfl)).mp hcloses
    change s.main.phase.uncounted .producer = false at hphase
    rw [hmain] at hphase
    cases hphase

end Osisp.Lab5
