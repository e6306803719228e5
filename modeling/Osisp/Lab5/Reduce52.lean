import Osisp.Lab5.Main52
import Osisp.Lab5.QueueRing
import Osisp.Lab5.Roll

namespace Osisp.Lab52

open Osisp.Lab5 Osisp.Lib

variable {α : Type*}

def Pc.leaving : Pc → Bool
  | .termUnlock _ | .termUnlockQueue _ | .closing | .cancelled | .ended | .orphaned => true
  | _ => false

instance : Worker Thread where
  type := Thread.type
  ind := Thread.ind
  onDuty th := th.cancel = false ∧ th.pc.leaving = false
  live th := th.pc.isEnded = false
  fresh type ind := ⟨type, ind, .checkLock .loopTop, false⟩
  cancelled th := { th with cancel := true }
  type_fresh _ _ := rfl
  ind_fresh _ _ := rfl
  onDuty_fresh _ _ := ⟨rfl, rfl⟩
  type_cancelled _ := rfl
  ind_cancelled _ := rfl
  live_cancelled _ h := h

def MainPc.phase : MainPc → Phase
  | .spawn type ind => .spawning type ind
  | .closeLock type ind | .closeTest type ind => .asked type ind
  | .closeCancel type ind => .chosen type ind
  | .closeClear type ind _ => .marked type ind
  | .closeUnlock type ind _ | .closeBroadcast type ind | .closeJoin type ind => .cleared type ind
  | .closeRelock type | .closeCount type => .left type
  | _ => .steady

def State.roll (s : State α) : Roll Thread := ⟨s.main.phase, s.roster, s.threads⟩

theorem commandStep_move {limit : Nat} {s s' : State α} {c : Command} (hidle : s.main = .idle)
    (h : commandStep limit s c = some s') : s.roll.Move limit s'.roll := by
  obtain ⟨queue, queueMutex, workingMutex, roster, threads, main⟩ := s
  obtain rfl : main = .idle := hidle
  cases c <;> simp only [commandStep] at h
  case create type =>
    split_ifs at h with hlt <;> cases h
    · exact .enlist type rfl hlt
    · exact .stay
  case close type =>
    cases h
    exact .ask type rfl
  case reduce =>
    split_ifs at h <;> cases h <;> exact .stay
  case expand =>
    cases h
    exact .stay

theorem mainStep_move {limit : Nat} {s s' : State α} {created : Bool}
    (h : mainStep limit s created = some s') : s.roll.Move limit s'.roll := by
  obtain ⟨queue, queueMutex, workingMutex, roster, threads, main⟩ := s
  cases main <;> simp only [mainStep] at h
  case idle => cases h
  case spawn type ind =>
    split_ifs at h <;> cases h
    · exact .hired type ind rfl
    · exact .failed type ind rfl
  case closeTest type ind =>
    split_ifs at h with htest <;> cases h
    · exact .choose type ind rfl htest.1
    · exact .refuse type ind rfl
  case closeCancel type ind =>
    split_ifs at h <;> cases h
    · exact .cancel type ind rfl
    · exact .spare type ind rfl
  case closeClear type ind wait =>
    cases h
    exact .clear type ind rfl
  case closeUnlock type ind wait =>
    cases wait <;> cases h
    · exact .leave type ind rfl
    · exact .stay
  case closeJoin type ind =>
    split at h
    · split_ifs at h
      cases h
      exact .leave type ind rfl
    · cases h
  case closeCount type =>
    cases h
    exact .count type rfl
  case closeLock | closeRelock | reduceLock | reduceTest | reduceReacquire | expandLock =>
    split_ifs at h <;> cases h <;> exact .stay
  case closeRefuse | closeBroadcast | closeEnd | reduceWait | reduceWaiting | reduceCall |
      reduceUnlock | expandCall | expandUnlock | expandSignal =>
    cases h
    exact .stay

/-- A thread leaves its loop only when it finds its flag down. It changes the capacity never, and
the queue only where it works on it. -/
theorem threadStep_duty {s s' : State α} {t : Nat} {th : Thread} {m : α}
    (h : threadStep s t th m = some s') :
    (∃ pc, s'.threads = s.threads.set t { th with pc := pc } ∧
      ((s.roster th.type).working th.ind = true → th.pc.leaving = false → pc.leaving = false)) ∧
    s'.roster = s.roster ∧ s'.main = s.main ∧
    (s'.queue = s.queue ∨ th.pc = .work ∧ s'.queue = doWork th.type m s.queue) := by
  obtain ⟨type, ind, pc, cancel⟩ := th
  cases pc <;> simp only [threadStep] at h
  case checkTest site =>
    split_ifs at h with hw <;> cases h
    · exact ⟨⟨_, rfl, fun _ _ => rfl⟩, rfl, rfl, .inl rfl⟩
    · exact ⟨⟨_, rfl, fun hw' => absurd hw' hw⟩, rfl, rfl, .inl rfl⟩
  case checkLock | lockQueue | reacquire =>
    split_ifs at h
    cases h
    exact ⟨⟨_, rfl, fun _ _ => rfl⟩, rfl, rfl, .inl rfl⟩
  case whileTest =>
    split_ifs at h <;> cases h <;> exact ⟨⟨_, rfl, fun _ _ => rfl⟩, rfl, rfl, .inl rfl⟩
  case checkUnlock site =>
    cases site <;> cases h <;> exact ⟨⟨_, rfl, fun _ _ => rfl⟩, rfl, rfl, .inl rfl⟩
  case termUnlockQueue site =>
    cases site <;> cases h <;>
      exact ⟨⟨_, rfl, fun _ hl => by cases hl⟩, rfl, rfl, .inl rfl⟩
  case cancelled =>
    split_ifs at h
    cases h
    exact ⟨⟨_, rfl, fun _ hl => by cases hl⟩, rfl, rfl, .inl rfl⟩
  case termUnlock | closing =>
    cases h
    exact ⟨⟨_, rfl, fun _ hl => by cases hl⟩, rfl, rfl, .inl rfl⟩
  case work =>
    cases h
    exact ⟨⟨_, rfl, fun _ _ => rfl⟩, rfl, rfl, .inr ⟨rfl, rfl⟩⟩
  case sleep | condWait | waiting | print | signal | unlockQueue =>
    cases h
    exact ⟨⟨_, rfl, fun _ _ => rfl⟩, rfl, rfl, .inl rfl⟩
  case ended | orphaned => cases h

theorem cancelStep_duty {s s' : State α} {t : Nat} {th : Thread}
    (h : cancelStep s t th = some s') : th.cancel = true ∧ ∃ pc, s' = s.goto t th pc := by
  obtain ⟨type, ind, pc, cancel⟩ := th
  simp only [cancelStep] at h
  split_ifs at h with hc
  cases pc <;> cases h <;> exact ⟨hc, _, rfl⟩

theorem step_roll {limit : Nat} {s s' : State α} {a : Action α}
    (h : (program limit).step s a = some s') : s.roll.Step limit s'.roll := by
  cases a with
  | command c =>
    simp only [program] at h
    split_ifs at h with hidle
    exact .main (commandStep_move hidle h)
  | main created => exact .main (mainStep_move h)
  | thread t m =>
    obtain ⟨th, hth, hstep⟩ := Option.bind_eq_some_iff.mp h
    obtain ⟨⟨pc, hset, hstays⟩, hroster, hmain, -⟩ := threadStep_duty hstep
    have hroll : s'.roll = { s.roll with table := s.roll.table.set t { th with pc := pc } } := by
      simp [State.roll, hset, hroster, hmain]
    rw [hroll]
    exact .thread hth rfl rfl fun hw ho => ⟨ho.1, hstays hw ho.2⟩
  | cancel t =>
    obtain ⟨th, hth, hstep⟩ := Option.bind_eq_some_iff.mp h
    obtain ⟨hcancel, pc, rfl⟩ := cancelStep_duty hstep
    change s.roll.Step limit { s.roll with table := s.roll.table.set t { th with pc := pc } }
    refine .thread hth rfl rfl fun _ ho => ?_
    rw [ho.1] at hcancel
    cases hcancel

theorem init_sound : (State.init : State α).roll.Sound :=
  ⟨trivial, fun _ _ => by simp [State.roll, State.init, Roster.empty, MainPc.phase,
    Phase.enrolled], fun _ _ h => absurd h (Nat.not_lt_zero _)⟩

theorem reach_sound {limit : Nat} {s : State α} (h : (program limit).Reachable s) :
    s.roll.Sound ∧ s.roll.Within limit := by
  induction h with
  | init => exact ⟨init_sound, fun _ => ⟨Nat.zero_le _, fun _ h => by cases h⟩⟩
  | step _ _ ht ih => exact ⟨(step_roll ht).sound ih.1, (step_roll ht).within ih.2⟩

/-- Main is in `pthread_cond_wait` of the `r` command. -/
def MainPc.inReduceWait : MainPc → Bool
  | .reduceWait | .reduceWaiting | .reduceReacquire => true
  | _ => false

/-- Main is in the `r` command, up to its `queue_reduce`. -/
def MainPc.inReduceLoop : MainPc → Bool
  | .reduceLock | .reduceTest | .reduceWait | .reduceWaiting | .reduceReacquire => true
  | _ => false

/-- The loop of `r` does not test a queue without cells. -/
def TestsCells (s : State α) : Action α → Prop
  | .main _ => s.main = .reduceTest → 0 < s.queue.maxLen
  | _ => True

/-- No consumer takes the last message while main waits in `r`. -/
def LeavesMessage (s : State α) : Action α → Prop
  | .thread t _ => s.main.inReduceWait = true →
      At s.threads t (fun th => th.type = .consumer ∧ th.pc = .work) → 1 < s.queue.len
  | _ => True

instance (s : State α) : (a : Action α) → Decidable (TestsCells s a)
  | .main _ => inferInstanceAs (Decidable (s.main = .reduceTest → 0 < s.queue.maxLen))
  | .thread .. | .command _ | .cancel _ => isTrue trivial

instance (s : State α) : (a : Action α) → Decidable (LeavesMessage s a)
  | .thread t _ => inferInstanceAs (Decidable (s.main.inReduceWait = true →
      At s.threads t (fun th => th.type = .consumer ∧ th.pc = .work) → 1 < s.queue.len))
  | .main _ | .command _ | .cancel _ => isTrue trivial

structure Waited (s : State α) : Prop where
  sound : s.roll.Sound
  staffed : s.main.inReduceLoop = true → 0 < (s.roster .consumer).count
  cells : s.main.inReduceWait = true → 0 < s.queue.maxLen

theorem MainPc.loop_of_wait {m : MainPc} (h : m.inReduceWait = true) : m.inReduceLoop = true := by
  cases m <;> first | rfl | cases h

theorem commandStep_loop {limit : Nat} {s s' : State α} {c : Command} (hidle : s.main = .idle)
    (h : commandStep limit s c = some s') : s'.main.inReduceWait = false ∧ s'.queue = s.queue ∧
      (s'.main.inReduceLoop = true → 0 < (s'.roster .consumer).count) := by
  cases c <;> simp only [commandStep] at h
  case create =>
    split_ifs at h <;> cases h <;>
      simp [MainPc.inReduceWait, MainPc.inReduceLoop, hidle, State.setRoster]
  case reduce =>
    split_ifs at h with hc <;> cases h
    · simp [MainPc.inReduceWait, MainPc.inReduceLoop, hidle]
    · exact ⟨rfl, rfl, fun _ => Nat.pos_of_ne_zero hc⟩
  case close | expand =>
    cases h
    exact ⟨rfl, rfl, fun h => by cases h⟩

/-- Main comes to the wait from the test, which found the queue full, or is there already; on the
way nothing changes but the mutex. -/
theorem mainStep_loop {limit : Nat} {s s' : State α} {created : Bool}
    (h : mainStep limit s created = some s') :
    (s'.main.inReduceLoop = true → s.main.inReduceLoop = true ∧ s'.roster = s.roster ∧
      s'.queue = s.queue) ∧
    (s'.main.inReduceWait = true → s.main.inReduceWait = true ∨
      s.main = .reduceTest ∧ queueIsFull s.queue = true) := by
  obtain ⟨queue, queueMutex, workingMutex, roster, threads, main⟩ := s
  cases main <;> simp only [mainStep] at h
  case idle => cases h
  case closeJoin type ind =>
    split at h
    · split_ifs at h
      cases h
      constructor <;> intro h <;> cases h
    · cases h
  case reduceTest =>
    split_ifs at h with hfull <;> cases h
    · exact ⟨fun _ => ⟨rfl, rfl, rfl⟩, fun _ => .inr ⟨rfl, hfull⟩⟩
    · constructor <;> intro h <;> cases h
  case reduceReacquire =>
    split_ifs at h
    cases h
    exact ⟨fun _ => ⟨rfl, rfl, rfl⟩, (fun h => by cases h)⟩
  case reduceLock =>
    split_ifs at h
    cases h
    exact ⟨fun _ => ⟨rfl, rfl, rfl⟩, (fun h => by cases h)⟩
  case reduceWait | reduceWaiting =>
    cases h
    exact ⟨fun _ => ⟨rfl, rfl, rfl⟩, fun _ => .inl rfl⟩
  case closeUnlock type ind wait =>
    cases wait <;> cases h <;> constructor <;> intro h <;> cases h
  case spawn | closeLock | closeTest | closeCancel | closeRelock | expandLock =>
    split_ifs at h <;> cases h <;> constructor <;> intro h <;> cases h
  case closeRefuse | closeClear | closeBroadcast | closeCount | closeEnd | reduceCall |
      reduceUnlock | expandCall | expandUnlock | expandSignal =>
    cases h
    constructor <;> intro h <;> cases h

theorem doWork_maxLen (type : ThreadType) (m : α) (q : MessageQueue α) :
    (doWork type m q).maxLen = q.maxLen := by
  cases type
  · exact queuePush_maxLen _ _
  · exact queuePop_maxLen _

theorem step_waited {limit : Nat} {s s' : State α} {a : Action α} (hi : Waited s)
    (hgood : TestsCells s a) (h : (program limit).step s a = some s') : Waited s' := by
  have hsound := (step_roll h).sound hi.sound
  cases a with
  | command c =>
    simp only [program] at h
    split_ifs at h with hidle
    obtain ⟨hwait, -, hstaff⟩ := commandStep_loop hidle h
    refine ⟨hsound, hstaff, fun hw => ?_⟩
    rw [hwait] at hw
    cases hw
  | main created =>
    obtain ⟨hloop, hwait⟩ := mainStep_loop h
    refine ⟨hsound, fun hl => ?_, fun hw => ?_⟩
    · obtain ⟨hl, hroster, -⟩ := hloop hl
      rw [hroster]
      exact hi.staffed hl
    · rw [(hloop (MainPc.loop_of_wait hw)).2.2]
      rcases hwait hw with hw | ⟨hm, -⟩
      · exact hi.cells hw
      · exact hgood hm
  | thread t m =>
    obtain ⟨th, hth, hstep⟩ := Option.bind_eq_some_iff.mp h
    obtain ⟨-, hroster, hmain, hq⟩ := threadStep_duty hstep
    refine ⟨hsound, by rw [hroster, hmain]; exact hi.staffed, fun hw => ?_⟩
    rw [hmain] at hw
    rcases hq with hq | ⟨-, hq⟩
    · rw [hq]
      exact hi.cells hw
    · rw [hq, doWork_maxLen]
      exact hi.cells hw
  | cancel t =>
    obtain ⟨th, hth, hstep⟩ := Option.bind_eq_some_iff.mp h
    obtain ⟨-, pc, rfl⟩ := cancelStep_duty hstep
    exact ⟨hsound, hi.staffed, hi.cells⟩

theorem init_waited : Waited (State.init : State α) where
  sound := init_sound
  staffed h := by cases h
  cells h := by cases h

theorem reach_waited {limit : Nat} {s : State α} (h : (program limit).Reach TestsCells s) :
    Waited s :=
  h.invariant init_waited fun _ _ _ hi hg ht => step_waited hi hg ht

/-- The message that is there when main starts to wait stays until main goes on. -/
theorem step_message {limit : Nat} {s s' : State α} {a : Action α}
    (hi : s.main.inReduceWait = true → 0 < s.queue.len) (hcells : TestsCells s a)
    (hleaves : LeavesMessage s a) (h : (program limit).step s a = some s') :
    s'.main.inReduceWait = true → 0 < s'.queue.len := by
  intro hw
  cases a with
  | command c =>
    simp only [program] at h
    split_ifs at h with hidle
    rw [(commandStep_loop hidle h).1] at hw
    cases hw
  | main created =>
    obtain ⟨hloop, hwait⟩ := mainStep_loop h
    rw [(hloop (MainPc.loop_of_wait hw)).2.2]
    rcases hwait hw with hw | ⟨hm, hfull⟩
    · exact hi hw
    · have hlen : s.queue.len = s.queue.maxLen := by simpa [queueIsFull] using hfull
      rw [hlen]
      exact hcells hm
  | thread t m =>
    obtain ⟨th, hth, hstep⟩ := Option.bind_eq_some_iff.mp h
    obtain ⟨-, -, hmain, hq⟩ := threadStep_duty hstep
    rw [hmain] at hw
    have hpos := hi hw
    rcases hq with hq | ⟨hpc, hq⟩ <;> rw [hq]
    · exact hpos
    · cases hty : th.type with
      | producer =>
        change 0 < (queuePush (some m) s.queue).len
        rw [queuePush_len]
        split_ifs <;> omega
      | consumer =>
        have hone := hleaves hw ((at_of_getElem? hth _).mpr ⟨hty, hpc⟩)
        change 0 < (queuePop s.queue).2.len
        rw [queuePop_len]
        omega
  | cancel t =>
    obtain ⟨th, hth, hstep⟩ := Option.bind_eq_some_iff.mp h
    obtain ⟨-, pc, rfl⟩ := cancelStep_duty hstep
    exact hi hw

theorem reach_message {limit : Nat} {s : State α}
    (h : (program limit).Reach (fun s a => TestsCells s a ∧ LeavesMessage s a) s) :
    s.main.inReduceWait = true → 0 < s.queue.len := by
  induction h with
  | init => exact fun hw => by cases hw
  | step _ hg ht ih => exact step_message ih hg.1 hg.2 ht

/-- A consumer has been created and not closed: it is counted, and runs. -/
def HasConsumer (s : State α) : Prop :=
  0 < (s.roster .consumer).count ∧
    ∃ th ∈ s.threads, th.type = .consumer ∧ th.cancel = false ∧ th.pc.isEnded = false

theorem Waited.hasConsumer {s : State α} (hi : Waited s) (hw : s.main.inReduceWait = true) :
    HasConsumer s := by
  have hcount := hi.staffed (MainPc.loop_of_wait hw)
  refine ⟨hcount, ?_⟩
  obtain ⟨th, hth, hty, -, hduty⟩ := hi.sound.manned .consumer 0 hcount
  have hstaff : 0 < s.main.phase.staff .consumer (s.roster .consumer).count := by
    cases hm : s.main <;> rw [hm] at hw <;> first | exact hcount | cases hw
  obtain ⟨hcancel, hleaving⟩ := hduty hstaff
  refine ⟨th, List.mem_of_getElem? hth, hty, hcancel, ?_⟩
  cases hpc : th.pc <;> rw [hpc] at hleaving <;> first | rfl | cases hleaving

/-- As long as the loop of `r` does not test a queue without cells, main waits in it only for what
a consumer can do: the full queue has a message, and there is a consumer. The last message may be
gone only where a consumer has taken it in the meantime, and so has ended main's wait. -/
theorem reduce_never_waits_for_itself {limit : Nat} {s : State α}
    (h : (program limit).Reach TestsCells s) (hw : s.main.inReduceWait = true) :
    HasConsumer s ∧ (queueIsFull s.queue = true → 0 < s.queue.len) ∧
      ((program limit).Reach (fun s a => TestsCells s a ∧ LeavesMessage s a) s →
        0 < s.queue.len) := by
  have hi := reach_waited h
  refine ⟨hi.hasConsumer hw, fun hfull => ?_, fun hr => ?_⟩
  · have hlen : s.queue.len = s.queue.maxLen := by simpa [queueIsFull] using hfull
    rw [hlen]
    exact hi.cells hw
  · exact reach_message hr hw

/-- A consumer is created, and `r` is typed `n` times. -/
def reduceDown (n : Nat) : List (Action Nat) :=
  [.command (.create .consumer), .main true] ++
    (List.replicate n (.command .reduce :: List.replicate 4 (.main true))).flatten

/-- With one cell left and a message in it, the next `r` waits for the consumer. -/
theorem reduce_never_waits_for_itself_one :
    ∃ s : State Nat, s.main = .reduceWait ∧ HasConsumer s ∧ 0 < s.queue.len := by
  obtain ⟨s, hs, hm⟩ := System.exists_reach_of_run (M := program 10)
    (fun s a => TestsCells s a ∧ LeavesMessage s a)
    (reduceDown 9 ++ [.command (.create .producer), .main true] ++
      List.replicate 10 (.thread 1 0) ++ .command .reduce :: List.replicate 2 (.main true))
    (fun s => s.main == .reduceWait) (by decide) (by decide)
  have hmain : s.main = .reduceWait := by simpa using hm
  obtain ⟨hc, -, hl⟩ := reduce_never_waits_for_itself (hs.mono fun _ _ h => h.1)
    (by rw [hmain]; rfl)
  exact ⟨s, hmain, hc, hl hs⟩

/-- Ten times `r` leave no cell at all; the eleventh takes the empty queue for a full one. -/
theorem reduce_waits_for_itself : ¬ ∀ s : State Nat, (program 10).Reachable s →
    s.main.inReduceWait = true → HasConsumer s ∧ 0 < s.queue.len := by
  intro hall
  obtain ⟨s, hs, hm⟩ := System.exists_reach_of_run (M := program 10) (fun _ _ => True)
    (reduceDown 10 ++ .command .reduce :: List.replicate 3 (.main true))
    (fun s => s.main == .reduceWaiting && (s.queue.len == 0 && s.queue.maxLen == 0))
    (by decide) (by decide)
  simp only [Bool.and_eq_true, beq_iff_eq] at hm
  obtain ⟨hmain, hlen, -⟩ := hm
  have h := (hall s hs (by rw [hmain]; rfl)).2
  rw [hlen] at h
  cases h

end Osisp.Lab52
