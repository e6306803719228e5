import Osisp.Lab5.Main51
import Osisp.Lab5.Roll

namespace Osisp.Lab51

open Osisp.Lab5 Osisp.Lib

variable {α : Type*}

def Pc.leaving : Pc → Bool
  | .termUnlock | .closing | .ended | .orphaned => true
  | _ => false

instance : Worker Thread where
  type := Thread.type
  ind := Thread.ind
  onDuty th := th.cancel = false ∧ th.pc.leaving = false
  live th := th.pc.isEnded = false
  fresh type ind := ⟨type, ind, .checkLock, false⟩
  cancelled th := { th with cancel := true }
  type_fresh _ _ := rfl
  ind_fresh _ _ := rfl
  onDuty_fresh _ _ := ⟨rfl, rfl⟩
  type_cancelled _ := rfl
  ind_cancelled _ := rfl
  live_cancelled _ h := h

def MainPc.phase : MainPc → Phase
  | .spawn type ind => .spawning type ind
  | .closeLock type ind | .closeTest type ind => .asked type ind
  | .closeCancel type ind => .chosen type ind
  | .closeClear type ind => .marked type ind
  | .closeUnlock type ind | .closeJoin type ind => .cleared type ind
  | .closeRelock type | .closeCount type => .left type
  | _ => .steady

def State.roll (s : State α) : Roll Thread := ⟨s.main.phase, s.roster, s.threads⟩

theorem commandStep_move {limit : Nat} {s s' : State α} {c : Command} (hidle : s.main = .idle)
    (h : commandStep limit s c = some s') : s.roll.Move limit s'.roll := by
  obtain ⟨queue, freeSpaceSem, itemsSem, queueMutex, workingMutex, roster, threads, main⟩ := s
  obtain rfl : main = .idle := hidle
  cases c <;> simp only [commandStep] at h
  case create type =>
    split_ifs at h with hlt <;> cases h
    · exact .enlist type rfl hlt
    · exact .stay
  case close type =>
    cases h
    exact .ask type rfl
  case reduce =>
    split_ifs at h <;> cases h <;> exact .stay
  case expand =>
    cases h
    exact .stay

theorem mainStep_move {limit : Nat} {s s' : State α} {created : Bool}
    (h : mainStep limit s created = some s') : s.roll.Move limit s'.roll := by
  obtain ⟨queue, freeSpaceSem, itemsSem, queueMutex, workingMutex, roster, threads, main⟩ := s
  cases main <;> simp only [mainStep] at h
  case idle => cases h
  case spawn type ind =>
    split_ifs at h <;> cases h
    · exact .hired type ind rfl
    · exact .failed type ind rfl
  case closeTest type ind =>
    split_ifs at h with htest <;> cases h
    · exact .choose type ind rfl htest.1
    · exact .refuse type ind rfl
  case closeCancel type ind =>
    split_ifs at h <;> cases h
    · exact .cancel type ind rfl
    · exact .spare type ind rfl
  case closeClear type ind =>
    cases h
    exact .clear type ind rfl
  case closeJoin type ind =>
    split at h
    · split_ifs at h
      cases h
      exact .leave type ind rfl
    · cases h
  case closeCount type =>
    cases h
    exact .count type rfl
  case closeLock | closeRelock | reduceWait | reduceLock | expandLock =>
    split_ifs at h
    cases h
    exact .stay
  case closeRefuse | closeUnlock | closeEnd | reduceCall | reduceUnlock | expandCall |
      expandUnlock | expandPost =>
    cases h
    exact .stay

/-- Main leaves `pthread_join` only when the thread has ended. -/
theorem mainStep_leave {limit : Nat} {s s' : State α} {created : Bool}
    (h : mainStep limit s created = some s') {type : ThreadType} {ind : Nat}
    (hp : s.main.phase = .cleared type ind) (hp' : s'.main.phase = .left type) :
    ¬At s.threads ((s.roster type).handle ind) Worker.live := by
  obtain ⟨queue, freeSpaceSem, itemsSem, queueMutex, workingMutex, roster, threads, main⟩ := s
  cases main <;> simp only [MainPc.phase] at hp <;> cases hp <;> simp only [mainStep] at h
  case closeUnlock =>
    cases h
    cases hp'
  case closeJoin =>
    split at h
    · next th hth =>
      split_ifs at h with hend
      intro hl
      rw [at_of_getElem? hth] at hl
      simp [Worker.live, hend] at hl
    · cases h

/-- The value of the semaphore that a thread of the type waits for. -/
def State.units (s : State α) : ThreadType → Nat
  | .producer => s.freeSpaceSem
  | .consumer => s.itemsSem

def Pc.inCheck : Pc → Bool
  | .checkTest | .checkUnlock | .termUnlock => true
  | _ => false

def MainPc.inCheck (type : ThreadType) : MainPc → Bool
  | .closeTest ty _ | .closeRefuse ty | .closeCancel ty _ | .closeClear ty _ | .closeUnlock ty _
  | .closeCount ty | .closeEnd ty => decide (ty = type)
  | _ => false

/-- The party is inside a section of `producers_working_mutex`, or of the consumers' one. -/
def InCheck (type : ThreadType) (s : State α) : Party → Prop
  | .main => s.main.inCheck type
  | .thread t => At s.threads t (fun th => th.type = type ∧ th.pc.inCheck = true)

/-- What a step of thread `t` from `th` to `pc` does. -/
structure ThreadMove (s s' : State α) (t : Nat) (th : Thread) (pc : Pc) : Prop where
  threads : s'.threads = s.threads.set t { th with pc := pc }
  roster : s'.roster = s.roster
  main : s'.main = s.main
  live : th.pc.isEnded = false
  stays : (s.roster th.type).working th.ind = true → th.pc.leaving = false → pc.leaving = false
  checked : pc = .checkUnlock → (s.roster th.type).working th.ind = true
  toSleep : pc = .sleep → th.pc = .checkUnlock
  toWait : pc = .semWait → th.pc = .sleep
  mutex : ∀ type, MutexMove (.thread t) (s.workingMutex type) (s'.workingMutex type)
    (th.type = type ∧ th.pc.inCheck) (th.type = type ∧ pc.inCheck)
  units : ∀ type, s.units type ≤ s'.units type ∨
    th.type = type ∧ th.pc = .semWait ∧ s.units type = s'.units type + 1

/-- A step that leaves the `working` mutexes and the semaphores alone. -/
theorem ThreadMove.plain {s s' : State α} {t : Nat} {th : Thread} {pc : Pc}
    (hs : s' = { s.goto t th pc with queue := s'.queue, queueMutex := s'.queueMutex })
    (hlive : th.pc.isEnded = false)
    (hstays : (s.roster th.type).working th.ind = true → th.pc.leaving = false →
      pc.leaving = false)
    (hchecked : pc = .checkUnlock → (s.roster th.type).working th.ind = true)
    (htoSleep : pc ≠ .sleep) (htoWait : pc = .semWait → th.pc = .sleep)
    (hcheck : pc.inCheck = th.pc.inCheck) : ThreadMove s s' t th pc where
  threads := by rw [hs, State.goto]
  roster := by rw [hs, State.goto]
  main := by rw [hs, State.goto]
  live := hlive
  stays := hstays
  checked := hchecked
  toSleep h := absurd h htoSleep
  toWait := htoWait
  mutex type := by
    rw [hs, hcheck]
    exact .inl ⟨rfl, rfl⟩
  units type := by
    rw [hs]
    cases type <;> exact .inl (Nat.le_refl _)

/-- A step out of a section. -/
theorem ThreadMove.unlock {s s' : State α} {t : Nat} {th : Thread} {pc : Pc}
    (hs : s' = (s.setWorking th.type none).goto t th pc)
    (hin : th.pc = .checkUnlock ∧ pc = .sleep ∨ th.pc = .termUnlock ∧ pc = .closing) :
    ThreadMove s s' t th pc where
  threads := by rw [hs]; rfl
  roster := by rw [hs]; rfl
  main := by rw [hs]; rfl
  live := by rcases hin with ⟨h, -⟩ | ⟨h, -⟩ <;> rw [h] <;> rfl
  stays _ hstay := by
    rcases hin with ⟨-, rfl⟩ | ⟨h, -⟩
    · rfl
    · rw [h] at hstay
      cases hstay
  checked h := by rcases hin with ⟨-, rfl⟩ | ⟨-, rfl⟩ <;> cases h
  toSleep h := by
    rcases hin with ⟨hpc, -⟩ | ⟨-, rfl⟩
    · exact hpc
    · cases h
  toWait h := by rcases hin with ⟨-, rfl⟩ | ⟨-, rfl⟩ <;> cases h
  mutex ty := by
    have hmove := MutexMove.unlockAt s.workingMutex th.type (Party.thread t) ty
    rcases hin with ⟨h, rfl⟩ | ⟨h, rfl⟩ <;>
      simpa [hs, h, Pc.inCheck, State.goto, State.setWorking] using hmove
  units ty := by
    rw [hs]
    cases ty <;> exact .inl (Nat.le_refl _)

theorem takeUnit_units {s s' : State α} {type : ThreadType} (h : takeUnit type s = some s') :
    (∃ free items, s' = { s with freeSpaceSem := free, itemsSem := items }) ∧
      ∀ ty, s.units ty ≤ s'.units ty ∨ type = ty ∧ s.units ty = s'.units ty + 1 := by
  cases type <;> simp only [takeUnit] at h <;> split_ifs at h with hpos <;> cases h
  · refine ⟨⟨_, _, rfl⟩, fun ty => ?_⟩
    cases ty
    · exact .inr ⟨rfl, (Nat.sub_add_cancel hpos).symm⟩
    · exact .inl (Nat.le_refl _)
  · refine ⟨⟨_, _, rfl⟩, fun ty => ?_⟩
    cases ty
    · exact .inl (Nat.le_refl _)
    · exact .inr ⟨rfl, (Nat.sub_add_cancel hpos).symm⟩

theorem giveUnit_units (s : State α) (type ty : ThreadType) :
    s.units ty ≤ (giveUnit type s).units ty := by
  cases type <;> cases ty <;> simp [State.units, giveUnit]

theorem threadStep_move {s s' : State α} {t : Nat} {th : Thread} {m : α}
    (h : threadStep s t th m = some s') : ∃ pc, ThreadMove s s' t th pc := by
  obtain ⟨type, ind, pc, cancel⟩ := th
  cases pc <;> simp only [threadStep] at h
  case checkLock =>
    split_ifs at h with hfree
    cases h
    refine ⟨.checkTest, rfl, rfl, rfl, rfl, ?_, ?_, ?_, ?_, fun ty => ?_, fun ty => .inl ?_⟩
    case refine_5 =>
      simpa [Pc.inCheck, State.goto, State.setWorking] using
        MutexMove.lockAt hfree (Party.thread t) ty
    case refine_6 => exact Nat.le_refl _
    all_goals simp [Pc.leaving]
  case checkTest =>
    split_ifs at h with hw <;> cases h
    · exact ⟨.checkUnlock, .plain rfl rfl (fun _ _ => rfl) (fun _ => hw) (by simp) (by simp) rfl⟩
    · exact ⟨.termUnlock, .plain rfl rfl (fun hw' => absurd hw' hw) (by simp) (by simp) (by simp)
        rfl⟩
  case checkUnlock =>
    cases h
    exact ⟨.sleep, .unlock rfl (.inl ⟨rfl, rfl⟩)⟩
  case termUnlock =>
    cases h
    exact ⟨.closing, .unlock rfl (.inr ⟨rfl, rfl⟩)⟩
  case semWait =>
    obtain ⟨u, htake, rfl⟩ := Option.map_eq_some_iff.mp h
    obtain ⟨⟨free, items, rfl⟩, hunits⟩ := takeUnit_units htake
    refine ⟨.lockQueue, rfl, rfl, rfl, rfl, ?_, ?_, ?_, ?_, fun ty => .inl ⟨rfl, rfl⟩,
      fun ty => ?_⟩
    case refine_5 =>
      rcases hunits ty with hle | ⟨hty, heq⟩
      · exact .inl hle
      · exact .inr ⟨hty, rfl, heq⟩
    all_goals simp [Pc.leaving]
  case semPost =>
    cases h
    refine ⟨.checkLock, ?_, ?_, ?_, rfl, ?_, ?_, ?_, ?_, fun ty => .inl ⟨?_, rfl⟩,
      fun ty => .inl ?_⟩
    case refine_9 => exact giveUnit_units s type ty
    all_goals cases type <;> simp [State.goto, giveUnit, Pc.leaving]
  case lockQueue =>
    split_ifs at h
    cases h
    exact ⟨.work, .plain rfl rfl (fun _ _ => rfl) (by simp) (by simp) (by simp) rfl⟩
  case closing =>
    cases h
    exact ⟨.ended, .plain rfl rfl (fun _ hc => by cases hc) (by simp) (by simp) (by simp) rfl⟩
  case sleep | work | print | unlockQueue =>
    cases h
    exact ⟨_, .plain rfl rfl (fun _ _ => rfl) (by simp) (by simp) (by simp) rfl⟩
  case ended | orphaned => cases h

theorem cancelStep_ends {s s' : State α} {t : Nat} {th : Thread}
    (h : cancelStep s t th = some s') :
    th.cancel = true ∧ th.pc.isEnded = false ∧ th.pc.inCheck = false ∧
      ∃ pc, s' = s.goto t th pc ∧ pc.isEnded = true := by
  obtain ⟨type, ind, pc, cancel⟩ := th
  simp only [cancelStep] at h
  split_ifs at h with hc
  cases pc <;> cases h <;> exact ⟨hc, rfl, rfl, _, rfl, rfl⟩

theorem ThreadMove.roll_eq {s s' : State α} {t : Nat} {th : Thread} {pc : Pc}
    (hm : ThreadMove s s' t th pc) :
    s'.roll = { s.roll with table := s.roll.table.set t { th with pc := pc } } := by
  simp [State.roll, hm.threads, hm.roster, hm.main]

theorem ThreadMove.roll {s s' : State α} {t : Nat} {th : Thread} {pc : Pc}
    (hm : ThreadMove s s' t th pc) (hth : s.threads[t]? = some th) (limit : Nat) :
    s.roll.Step limit s'.roll := by
  rw [hm.roll_eq]
  exact .thread hth rfl rfl fun hw ho => ⟨ho.1, hm.stays hw ho.2⟩

theorem cancelStep_roll {s s' : State α} {t : Nat} {th : Thread} (hth : s.threads[t]? = some th)
    (h : cancelStep s t th = some s') (limit : Nat) : s.roll.Step limit s'.roll := by
  obtain ⟨hcancel, -, -, pc, rfl, -⟩ := cancelStep_ends h
  change s.roll.Step limit { s.roll with table := s.roll.table.set t { th with pc := pc } }
  refine .thread hth rfl rfl fun _ ho => ?_
  rw [ho.1] at hcancel
  cases hcancel

theorem step_roll {limit : Nat} {s s' : State α} {a : Action α}
    (h : (program limit).step s a = some s') : s.roll.Step limit s'.roll := by
  cases a with
  | command c =>
    simp only [program] at h
    split_ifs at h with hidle
    exact .main (commandStep_move hidle h)
  | main created => exact .main (mainStep_move h)
  | thread t m =>
    obtain ⟨th, hth, hstep⟩ := Option.bind_eq_some_iff.mp h
    obtain ⟨pc, hm⟩ := threadStep_move hstep
    exact hm.roll hth limit
  | cancel t =>
    obtain ⟨th, hth, hstep⟩ := Option.bind_eq_some_iff.mp h
    exact cancelStep_roll hth hstep limit

theorem init_sound : (State.init : State α).roll.Sound :=
  ⟨trivial, fun _ _ => by simp [State.roll, State.init, Roster.empty, MainPc.phase,
    Phase.enrolled], fun _ _ h => absurd h (Nat.not_lt_zero _)⟩

theorem reach_sound {limit : Nat} {s : State α} (h : (program limit).Reachable s) :
    s.roll.Sound ∧ s.roll.Within limit := by
  induction h with
  | init => exact ⟨init_sound, fun _ => ⟨Nat.zero_le _, fun _ h => by cases h⟩⟩
  | step _ _ ht ih => exact ⟨(step_roll ht).sound ih.1, (step_roll ht).within ih.2⟩

theorem commandStep_mutex {limit : Nat} {s s' : State α} {c : Command} (hidle : s.main = .idle)
    (h : commandStep limit s c = some s') (type : ThreadType) :
    MutexMove .main (s.workingMutex type) (s'.workingMutex type) (s.main.inCheck type)
      (s'.main.inCheck type) := by
  obtain ⟨queue, freeSpaceSem, itemsSem, queueMutex, workingMutex, roster, threads, main⟩ := s
  obtain rfl : main = .idle := hidle
  cases c <;> simp only [commandStep] at h
  case create | reduce =>
    split_ifs at h <;> cases h <;> exact .inl ⟨rfl, rfl⟩
  case close | expand =>
    cases h
    exact .inl ⟨rfl, rfl⟩

theorem mainStep_mutex {limit : Nat} {s s' : State α} {created : Bool}
    (h : mainStep limit s created = some s') (type : ThreadType) :
    MutexMove .main (s.workingMutex type) (s'.workingMutex type) (s.main.inCheck type)
      (s'.main.inCheck type) := by
  obtain ⟨queue, freeSpaceSem, itemsSem, queueMutex, workingMutex, roster, threads, main⟩ := s
  cases main <;> simp only [mainStep] at h
  case idle => cases h
  case closeLock | closeRelock =>
    split_ifs at h with hfree
    cases h
    exact .lockAt hfree _ _
  case closeRefuse | closeUnlock | closeEnd =>
    cases h
    exact .unlockAt _ _ _ _
  case closeJoin =>
    split at h
    · split_ifs at h
      cases h
      exact .inl ⟨rfl, rfl⟩
    · cases h
  case spawn | closeTest | closeCancel =>
    split_ifs at h <;> cases h <;> exact .inl ⟨rfl, rfl⟩
  case reduceWait | reduceLock | expandLock =>
    split_ifs at h
    cases h
    exact .inl ⟨rfl, rfl⟩
  case closeClear | closeCount | reduceCall | reduceUnlock | expandCall | expandUnlock |
      expandPost =>
    cases h
    exact .inl ⟨rfl, rfl⟩

/-- No thread of the type is left. -/
def State.noneLive (s : State α) (type : ThreadType) : Prop :=
  ∀ th ∈ s.threads, th.type = type → th.pc.isEnded = true

/-- The thread that main closes is not cancelled, has its `sem_wait` before it, and there is no
thread that will post the semaphore. -/
def Waits (s : State α) (type : ThreadType) (ind : Nat) : Prop :=
  At s.threads ((s.roster type).handle ind)
    (fun th => th.cancel = false ∧ (th.pc = .sleep ∨ th.pc = .semWait)) ∧ s.noneLive type.other

instance (s : State α) (type : ThreadType) : Decidable (s.noneLive type) :=
  inferInstanceAs (Decidable (∀ th ∈ s.threads, th.type = type → th.pc.isEnded = true))

instance (s : State α) (type : ThreadType) (ind : Nat) : Decidable (Waits s type ind) :=
  inferInstanceAs (Decidable (_ ∧ _))

/-- Main does not spare a thread that has no unit to take, and while main closes a thread that
needs a unit, no other thread takes the last one. -/
def Good (s : State α) : Action α → Prop
  | .main _ =>
    match s.main with
    | .closeCancel type ind => isStuck type s = false → Waits s type ind → 0 < s.units type
    | _ => True
  | .thread t _ =>
    match s.main.phase.closing with
    | some (type, ind) => Waits s type ind → t ≠ (s.roster type).handle ind →
      At s.threads t (fun th => th.type = type ∧ th.pc = .semWait) → 1 < s.units type
    | none => True
  | _ => True

def decidableSpared (s : State α) : (pc : MainPc) → Decidable (match pc with
    | .closeCancel type ind => isStuck type s = false → Waits s type ind → 0 < s.units type
    | _ => True)
  | .closeCancel type ind =>
    inferInstanceAs (Decidable (isStuck type s = false → Waits s type ind → 0 < s.units type))
  | .idle | .spawn .. | .closeLock .. | .closeTest .. | .closeRefuse _ | .closeClear ..
  | .closeUnlock .. | .closeJoin .. | .closeRelock _ | .closeCount _ | .closeEnd _ | .reduceWait
  | .reduceLock | .reduceCall | .reduceUnlock | .expandLock | .expandCall | .expandUnlock
  | .expandPost => isTrue trivial

def decidableLeft (s : State α) (t : Nat) :
    (closing : Option (ThreadType × Nat)) → Decidable (match closing with
      | some (type, ind) => Waits s type ind → t ≠ (s.roster type).handle ind →
        At s.threads t (fun th => th.type = type ∧ th.pc = .semWait) → 1 < s.units type
      | none => True)
  | some (type, ind) => inferInstanceAs (Decidable (Waits s type ind →
      t ≠ (s.roster type).handle ind →
      At s.threads t (fun th => th.type = type ∧ th.pc = .semWait) → 1 < s.units type))
  | none => isTrue trivial

instance (s : State α) : (a : Action α) → Decidable (Good s a)
  | .main _ => decidableSpared s s.main
  | .thread t _ => decidableLeft s t s.main.phase.closing
  | .command _ | .cancel _ => isTrue trivial

structure Safe (s : State α) : Prop where
  sound : s.roll.Sound
  known : s.roll.Known
  guards : ∀ type, Guards (s.workingMutex type) (InCheck type s)
  past : ∀ type ind, s.main.phase = .cleared type ind →
    ¬At s.threads ((s.roster type).handle ind) (fun th => th.pc = .checkUnlock)
  supply : ∀ type ind, s.main.phase.closing = some (type, ind) → Waits s type ind →
    0 < s.units type

theorem Pc.isEnded_of_leaving {pc : Pc} (h : pc.leaving = false) : pc.isEnded = false := by
  cases pc <;> first | rfl | cases h

theorem Safe.target {s : State α} (hi : Safe s) {type : ThreadType} {ind : Nat}
    (hc : s.main.phase.closing = some (type, ind)) :
    ind + 1 = (s.roster type).count ∧ At s.threads ((s.roster type).handle ind)
      (fun th => th.type = type ∧ th.ind = ind) := by
  have hind : ind + 1 = (s.roster type).count := by
    have h := hi.sound.indexed
    change s.main.phase.Indexed s.roster at h
    cases hp : s.main.phase <;> rw [hp] at hc h <;> cases hc
    · exact h
    · exact h
  obtain ⟨th, hth, hty, hid, -⟩ := hi.sound.manned type ind
    (show ind < (s.roster type).count by omega)
  exact ⟨hind, th, hth, hty, hid⟩

/-- While main closes a thread, those of the other type stay: none of them ends. -/
theorem Safe.noneLive_before {s s' : State α} (hi : Safe s) (hs' : s'.roll.Sound)
    (hroster : s'.roster = s.roster) (hmain : s'.main = s.main) {type : ThreadType} {ind : Nat}
    (hc : s.main.phase.closing = some (type, ind)) (hn : s'.noneLive type.other) :
    s.noneLive type.other := by
  intro th hth hty
  by_contra hl
  obtain ⟨u, hu⟩ := List.mem_iff_getElem?.mp hth
  obtain ⟨hh, hlt | hcl⟩ := hi.known u th hu (by simpa [Worker.live] using hl)
  · have hlt : th.ind < s.main.phase.staff th.type (s.roster th.type).count := hlt
    have hm := hs'.manned th.type th.ind (by
      change th.ind < (s'.roster th.type).count
      rw [hroster]
      exact Nat.lt_of_lt_of_le hlt (Phase.staff_le _ _ _).1)
    obtain ⟨y, hy, hyty, -, hduty⟩ := hm
    have hon : Worker.onDuty y := hduty (by
      change th.ind < s'.main.phase.staff th.type (s'.roster th.type).count
      rw [hroster, hmain]
      exact hlt)
    have hend := hn y (List.mem_of_getElem? hy) (hyty.trans hty)
    rw [Pc.isEnded_of_leaving hon.2] at hend
    cases hend
  · have hcl : s.main.phase.closing = some (th.type, th.ind) := hcl
    rw [hc, hty] at hcl
    cases type <;> cases hcl

theorem MainPc.inCheck_of_marked {m : MainPc} {type : ThreadType} {ind : Nat}
    (h : m.phase = .marked type ind) : m.inCheck type = true := by
  cases m <;> simp only [MainPc.phase] at h <;> cases h
  simp [MainPc.inCheck]

/-- The target is not on its way from a check to its sleep: main is inside the section, or has
taken the flag down there. -/
theorem Safe.target_checked {s : State α} (hi : Safe s) {type : ThreadType} {ind t : Nat}
    (hc : s.main.phase.closing = some (type, ind)) (ht : (s.roster type).handle ind = t)
    {th : Thread} (hth : s.threads[t]? = some th) : th.pc ≠ .checkUnlock := by
  intro hpc
  have hty : th.type = type := by
    have h := (hi.target hc).2
    rw [ht, at_of_getElem? hth] at h
    exact h.1
  cases hp : s.main.phase <;> rw [hp] at hc <;> cases hc
  · have hmain : InCheck type s .main := MainPc.inCheck_of_marked hp
    have hthread : InCheck type s (.thread t) :=
      (at_of_getElem? hth _).mpr ⟨hty, by rw [hpc]; rfl⟩
    have h := (hi.guards type).unique hmain hthread
    cases h
  · exact hi.past type ind hp (by rw [ht]; exact (at_of_getElem? hth _).mpr hpc)

theorem threadStep_safe {s s' : State α} {t : Nat} {th : Thread} {pc : Pc} {m : α}
    (hi : Safe s) (hth : s.threads[t]? = some th) (hm : ThreadMove s s' t th pc)
    (hgood : Good s (.thread t m)) : Safe s' := by
  have hsound : s'.roll.Sound := (hm.roll hth 0).sound hi.sound
  refine ⟨hsound, ?_, fun type => ?_, fun type ind hp => ?_, fun type ind hc hw => ?_⟩
  · rw [hm.roll_eq]
    exact hi.known.set hth rfl rfl fun _ => hm.live
  · apply (hm.mutex type).guards (hi.guards type)
    · simp only [InCheck, at_of_getElem? hth, decide_eq_true_eq]
    · simp only [InCheck, hm.threads, at_set_self hth, decide_eq_true_eq]
    · intro q hq
      cases q with
      | main => simp only [InCheck, hm.main]
      | thread u =>
        simp only [InCheck, hm.threads]
        exact at_set_of_ne (fun h : t = u => hq (by rw [h])) _ _ _
  · rw [hm.main] at hp
    have hc : s.main.phase.closing = some (type, ind) := by rw [hp]; rfl
    obtain ⟨hind, htarget⟩ := hi.target hc
    rw [hm.threads, hm.roster]
    by_cases hu : t = (s.roster type).handle ind
    · rw [← hu, at_set_self hth]
      rw [← hu, at_of_getElem? hth] at htarget
      intro hpc
      -- the flag of the target is down, so its check fails
      have hw := hm.checked hpc
      rw [htarget.1, htarget.2] at hw
      have hlt := (hi.sound.working type ind).mp hw
      change ind < s.main.phase.enrolled type (s.roster type).count at hlt
      rw [hp] at hlt
      simp only [Phase.enrolled, if_pos] at hlt
      omega
    · rw [at_set_of_ne hu]
      exact hi.past type ind hp
  · rw [hm.main] at hc
    obtain ⟨hind, htarget⟩ := hi.target hc
    have hnone := hi.noneLive_before hsound hm.roster hm.main hc hw.2
    have hat := hw.1
    rw [hm.threads, hm.roster] at hat
    by_cases hu : t = (s.roster type).handle ind
    · rw [← hu, at_set_self hth] at hat
      rcases hat with ⟨hcancel, hpc | hpc⟩
      · exact absurd (hm.toSleep hpc) (hi.target_checked hc hu.symm hth)
      · have hsleep := hm.toWait hpc
        have hsup := hi.supply type ind hc ⟨by
          rw [← hu, at_of_getElem? hth]
          exact ⟨hcancel, .inl hsleep⟩, hnone⟩
        rcases hm.units type with hle | ⟨-, hpc, -⟩
        · omega
        · rw [hsleep] at hpc
          cases hpc
    · rw [at_set_of_ne hu] at hat
      have hsup := hi.supply type ind hc ⟨hat, hnone⟩
      rcases hm.units type with hle | ⟨hty, hpc, heq⟩
      · omega
      · simp only [Good, hc] at hgood
        have h := hgood ⟨hat, hnone⟩ hu ((at_of_getElem? hth _).mpr ⟨hty, hpc⟩)
        omega

theorem cancelStep_safe {s s' : State α} {t : Nat} {th : Thread} (hi : Safe s)
    (hth : s.threads[t]? = some th) (h : cancelStep s t th = some s') : Safe s' := by
  have hsound := (cancelStep_roll hth h 0).sound hi.sound
  obtain ⟨hcancel, hlive, hcheck, pc, rfl, hend⟩ := cancelStep_ends h
  have hpc : pc.inCheck = false := by cases pc <;> first | rfl | cases hend
  refine ⟨hsound, ?_, fun type => ?_, fun type ind hp => ?_, fun type ind hc hw => ?_⟩
  · exact hi.known.set hth rfl rfl fun _ => hlive
  · have hmove : MutexMove (.thread t) (s.workingMutex type) (s.workingMutex type)
        (th.type = type ∧ th.pc.inCheck) (th.type = type ∧ pc.inCheck) :=
      .inl ⟨rfl, by rw [hcheck, hpc]⟩
    apply hmove.guards (hi.guards type)
    · simp only [InCheck, at_of_getElem? hth, decide_eq_true_eq]
    · simp only [InCheck, State.goto, at_set_self hth, decide_eq_true_eq]
    · intro q hq
      cases q with
      | main => exact Iff.rfl
      | thread u => exact at_set_of_ne (fun h : t = u => hq (by rw [h])) _ _ _
  · change ¬At (s.threads.set t { th with pc := pc }) ((s.roster type).handle ind) _
    by_cases hu : t = (s.roster type).handle ind
    · rw [← hu, at_set_self hth]
      intro hpc'
      change pc = .checkUnlock at hpc'
      rw [hpc'] at hend
      cases hend
    · rw [at_set_of_ne hu]
      exact hi.past type ind hp
  · have hnone := hi.noneLive_before hsound rfl rfl hc hw.2
    have hat : At (s.threads.set t { th with pc := pc }) ((s.roster type).handle ind) _ := hw.1
    by_cases hu : t = (s.roster type).handle ind
    · rw [← hu, at_set_self hth] at hat
      rw [hcancel] at hat
      cases hat.1
    · rw [at_set_of_ne hu] at hat
      exact hi.supply type ind hc ⟨hat, hnone⟩

/-- Where a step of main leaves a thread being closed, main has just decided about it, or nothing
changes for it. -/
theorem mainStep_closing {limit : Nat} {s s' : State α} {created : Bool}
    (h : mainStep limit s created = some s') {type : ThreadType} {ind : Nat}
    (hc : s'.main.phase.closing = some (type, ind)) :
    (s'.roster type).handle = (s.roster type).handle ∧ s'.units = s.units ∧
    ((s.main = .closeCancel type ind ∧ s'.main = .closeClear type ind ∧
        (isStuck type s = true ∧
          s'.threads = requestCancel s.threads ((s.roster type).handle ind) ∨
          isStuck type s = false ∧ s'.threads = s.threads)) ∨
      (s.main.phase.closing = some (type, ind) ∧ s'.threads = s.threads)) := by
  obtain ⟨queue, freeSpaceSem, itemsSem, queueMutex, workingMutex, roster, threads, main⟩ := s
  cases main <;> simp only [mainStep] at h
  case closeCancel ty i =>
    split_ifs at h with hstuck <;> cases h <;> cases hc
    · exact ⟨rfl, rfl, .inl ⟨rfl, rfl, .inl ⟨hstuck, rfl⟩⟩⟩
    · exact ⟨rfl, rfl, .inl ⟨rfl, rfl, .inr ⟨by simpa using hstuck, rfl⟩⟩⟩
  case closeClear ty i =>
    cases h
    cases hc
    exact ⟨by simp [State.setRoster], rfl, .inr ⟨rfl, rfl⟩⟩
  case closeUnlock ty i =>
    cases h
    cases hc
    exact ⟨rfl, rfl, .inr ⟨rfl, rfl⟩⟩
  case idle => cases h
  case closeJoin =>
    split at h
    · split_ifs at h
      cases h
      cases hc
    · cases h
  case spawn | closeTest | closeLock | closeRelock | reduceWait | reduceLock | expandLock =>
    split_ifs at h <;> cases h <;> cases hc
  case closeRefuse | closeCount | closeEnd | reduceCall | reduceUnlock | expandCall |
      expandUnlock | expandPost =>
    cases h
    cases hc

theorem Safe.guards_of_move {limit : Nat} {s s' : State α} (hi : Safe s)
    (hmove : s.roll.Move limit s'.roll) {type : ThreadType}
    (hmutex : MutexMove .main (s.workingMutex type) (s'.workingMutex type) (s.main.inCheck type)
      (s'.main.inCheck type)) : Guards (s'.workingMutex type) (InCheck type s') := by
  apply hmutex.guards (hi.guards type) Iff.rfl Iff.rfl
  intro q hq
  cases q with
  | main => exact absurd rfl hq
  | thread t =>
    exact hmove.at_iff (p := fun th : Thread => th.type = type ∧ th.pc.inCheck = true)
      (fun ty ind hf => by cases hf.2) (fun a => Iff.rfl) t

theorem commandStep_closing {limit : Nat} {s s' : State α} {c : Command} (hidle : s.main = .idle)
    (h : commandStep limit s c = some s') : s'.main.phase.closing = none := by
  cases c <;> simp only [commandStep] at h
  case create | reduce =>
    split_ifs at h <;> cases h <;> first | rfl | (rw [hidle]; rfl)
  case close | expand =>
    cases h
    rfl

theorem commandStep_safe {limit : Nat} {s s' : State α} {c : Command} (hi : Safe s)
    (hidle : s.main = .idle) (h : commandStep limit s c = some s') : Safe s' := by
  have hmove := commandStep_move hidle h
  have hnone := commandStep_closing hidle h
  refine ⟨hmove.sound hi.sound, hmove.known hi.sound hi.known fun type ind hp => ?_,
    fun type => hi.guards_of_move hmove (commandStep_mutex hidle h type), fun type ind hp => ?_,
    fun type ind hc => ?_⟩
  · change s.main.phase = _ at hp
    rw [hidle] at hp
    cases hp
  · rw [hp] at hnone
    cases hnone
  · rw [hnone] at hc
    cases hc

theorem mainStep_safe {limit : Nat} {s s' : State α} {created : Bool} (hi : Safe s)
    (h : mainStep limit s created = some s')
    (hgood : Good s (.main created)) : Safe s' := by
  have hmove := mainStep_move h
  refine ⟨hmove.sound hi.sound, hmove.known hi.sound hi.known fun _ _ => mainStep_leave h,
    fun type => ?_, fun type ind hp => ?_, fun type ind hc hw => ?_⟩
  · exact hi.guards_of_move hmove (mainStep_mutex h type)
  · have hc : s'.main.phase.closing = some (type, ind) := by rw [hp]; rfl
    obtain ⟨hh, -, ⟨-, hm', -⟩ | ⟨hc, ht⟩⟩ := mainStep_closing h hc
    · rw [hm'] at hp
      cases hp
    · rintro ⟨th, hth, hpc⟩
      rw [ht, hh] at hth
      exact hi.target_checked hc rfl hth hpc
  · obtain ⟨hh, hu, ⟨hm, -, ⟨-, ht⟩ | ⟨hstuck, ht⟩⟩ | ⟨hc, ht⟩⟩ := mainStep_closing h hc
    · have hat := hw.1
      rw [ht, hh, requestCancel, at_modify] at hat
      obtain ⟨th, -, hcancel, -⟩ := hat
      simp at hcancel
    · rw [hu]
      simp only [Good, hm] at hgood
      apply hgood hstuck
      simpa only [Waits, State.noneLive, hh, ht] using hw
    · rw [hu]
      apply hi.supply type ind hc
      simpa only [Waits, State.noneLive, hh, ht] using hw

theorem init_safe : Safe (State.init : State α) where
  sound := init_sound
  known t th h := by simp [State.roll, State.init] at h
  guards type p := by cases p <;> simp [InCheck, State.init, MainPc.inCheck, At]
  past type ind hp := by cases hp
  supply type ind hp := by cases hp

theorem step_safe {limit : Nat} {s s' : State α} {a : Action α} (hi : Safe s) (hg : Good s a)
    (h : (program limit).step s a = some s') : Safe s' := by
  cases a with
  | command c =>
    simp only [program] at h
    split_ifs at h with hidle
    exact commandStep_safe hi hidle h
  | main created => exact mainStep_safe hi h hg
  | thread t m =>
    obtain ⟨th, hth, hstep⟩ := Option.bind_eq_some_iff.mp h
    obtain ⟨pc, hm⟩ := threadStep_move hstep
    exact threadStep_safe hi hth hm hg
  | cancel t =>
    obtain ⟨th, hth, hstep⟩ := Option.bind_eq_some_iff.mp h
    exact cancelStep_safe hi hth hstep

theorem reach_safe {limit : Nat} {s : State α} (h : (program limit).Reach Good s) : Safe s :=
  h.invariant init_safe fun _ _ _ hi hg ht => step_safe hi hg ht

/-- Main waits in `pthread_join` for a thread that it has not cancelled, which waits for a unit
of its semaphore while there is none and nobody left to post one. -/
def Deadlocked (s : State α) : Prop :=
  match s.main with
  | .closeJoin type ind =>
    At s.threads ((s.roster type).handle ind)
      (fun th => th.type = type ∧ th.cancel = false ∧ th.pc = .semWait) ∧
    s.units type = 0 ∧ s.noneLive type.other
  | _ => False

instance (s : State α) : Decidable (Deadlocked s) := by
  unfold Deadlocked
  split <;> infer_instance

/-- Closing a thread deadlocks only where the decision whether to cancel it was wrong or was
overtaken: main spared a thread that had no unit to take, or another thread took the last one. -/
theorem close_never_deadlocks {limit : Nat} {s : State α} (h : (program limit).Reach Good s) :
    ¬Deadlocked s := by
  intro hd
  unfold Deadlocked at hd
  split at hd
  · next type ind hmain =>
    obtain ⟨⟨th, hth, -, hcancel, hpc⟩, hunits, hnone⟩ := hd
    have hc : s.main.phase.closing = some (type, ind) := by rw [hmain]; rfl
    have hpos := (reach_safe h).supply type ind hc ⟨⟨th, hth, hcancel, .inr hpc⟩, hnone⟩
    omega
  · exact hd

/-- Two consumers and a producer, whose message is the only one when the producer is closed. -/
def twoConsumers : List (Action Nat) :=
  [.command (.create .consumer), .main true, .command (.create .consumer), .main true,
    .command (.create .producer), .main true] ++
  List.replicate 10 (.thread 2 0) ++
  .command (.close .producer) :: List.replicate 5 (.main true) ++
  List.replicate 4 (.thread 2 0) ++ List.replicate 4 (.main true)

/-- Both consumers wait. Main closes the second one and does not cancel it, as there is a message;
the first one takes it. -/
def closeTaken : List (Action Nat) :=
  twoConsumers ++ List.replicate 4 (.thread 0 0) ++ List.replicate 4 (.thread 1 0) ++
  .command (.close .consumer) :: List.replicate 3 (.main true) ++
  .thread 0 0 :: List.replicate 2 (.main true)

/-- Without the theft the consumer being closed finds its unit. -/
theorem close_never_deadlocks_joining :
    ∃ s : State Nat, s.main = .closeJoin .consumer 1 ∧ ¬Deadlocked s := by
  obtain ⟨s, hs, hm⟩ := System.exists_reach_of_run (M := program 10) Good
    (twoConsumers ++ List.replicate 4 (.thread 1 0) ++
      .command (.close .consumer) :: List.replicate 5 (.main true))
    (fun s => s.main == .closeJoin .consumer 1) (by decide) (by decide)
  exact ⟨s, by simpa using hm, close_never_deadlocks hs⟩

/-- The consumer that stays takes the message that decided that the other is not cancelled. -/
theorem close_deadlocks :
    ¬ ∀ s : State Nat, (program 10).Reachable s → ¬Deadlocked s := by
  intro hall
  obtain ⟨s, hs, hm⟩ := System.exists_reach_of_run (M := program 10) (fun _ _ => True) closeTaken
    (fun s => decide (Deadlocked s)) (by decide) (by decide)
  exact hall s hs (of_decide_eq_true hm)

end Osisp.Lab51
