import Osisp.Lib.Tally
import Osisp.Lib.Mutex
import Osisp.Lab5.QueueRing
import Osisp.Lab5.Main51

namespace Osisp.Lab51

open Osisp.Lab5 Osisp.Lib

variable {α : Type*}

/-- A free cell in hand: taken by a producer that has not pushed yet, or left by a pop and not
given back yet. -/
def Thread.space (th : Thread) : Nat :=
  match th.type, th.pc with
  | .producer, .lockQueue | .producer, .work => 1
  | .consumer, .print | .consumer, .unlockQueue | .consumer, .semPost => 1
  | _, _ => 0

/-- An item in hand: taken by a consumer that has not popped yet, or pushed and not announced
yet. -/
def Thread.items (th : Thread) : Nat :=
  match th.type, th.pc with
  | .consumer, .lockQueue | .consumer, .work => 1
  | .producer, .print | .producer, .unlockQueue | .producer, .semPost => 1
  | _, _ => 0

/-- Main has a free cell in hand between its wait and `queue_reduce`, and between
`queue_expand` and its post. -/
def MainPc.space : MainPc → Nat
  | .reduceLock | .reduceCall | .expandUnlock | .expandPost => 1
  | _ => 0

/-- The free cell that main waited for in vain: `queue_reduce` keeps the last cell, and main does
not post the unit it took. -/
def State.lostCell (s : State α) : Nat :=
  match s.main with
  | .reduceCall => if s.queue.maxLen = 1 then 1 else 0
  | _ => 0

/-- No more free cells are announced or in hand than the queue has, and no more items. Units
get lost (in a refused reduction, with a cancelled thread), so there may be fewer. -/
structure Bounded (s : State α) : Prop where
  space : s.freeSpaceSem + tally Thread.space s.threads + s.main.space + s.queue.len ≤
    s.queue.maxLen
  items : s.itemsSem + tally Thread.items s.threads ≤ s.queue.len

theorem Bounded.work {s : State α} (hb : Bounded s) {t : Nat} {th : Thread}
    (ht : s.threads[t]? = some th) (hpc : th.pc = .work) :
    (th.type = .producer → s.queue.len < s.queue.maxLen) ∧
    (th.type = .consumer → 0 < s.queue.len) := by
  have hspace := hb.space
  have hitems := hb.items
  have h1 := le_tally Thread.space ht
  have h2 := le_tally Thread.items ht
  constructor <;> intro htype
  · have hu : th.space = 1 := by simp [Thread.space, htype, hpc]
    omega
  · have hu : th.items = 1 := by simp [Thread.items, htype, hpc]
    omega

/-- A thread step moves this thread alone, and the units it has in hand change as the
semaphores and the queue do. -/
theorem threadStep_cases {s s' : State α} {t : Nat} {th : Thread} {m : α}
    (h : threadStep s t th m = some s')
    (hwork : th.pc = .work → (th.type = .producer → s.queue.len < s.queue.maxLen) ∧
      (th.type = .consumer → 0 < s.queue.len)) :
    ∃ pc, s'.threads = s.threads.set t { th with pc := pc } ∧ s'.main = s.main ∧
      s'.queue.maxLen = s.queue.maxLen ∧
      s'.freeSpaceSem + ({ th with pc := pc } : Thread).space + s'.queue.len =
        s.freeSpaceSem + th.space + s.queue.len ∧
      s'.itemsSem + ({ th with pc := pc } : Thread).items + s.queue.len =
        s.itemsSem + th.items + s'.queue.len := by
  obtain ⟨type, ind, pc, cancel⟩ := th
  cases pc <;> simp only [threadStep] at h
  case checkLock =>
    split_ifs at h
    cases h
    exact ⟨_, rfl, rfl, rfl, by cases type <;> rfl, by cases type <;> rfl⟩
  case checkTest =>
    split_ifs at h <;> cases h <;>
      exact ⟨_, rfl, rfl, rfl, by cases type <;> rfl, by cases type <;> rfl⟩
  case semWait =>
    cases type <;> simp only [takeUnit] at h <;> split_ifs at h <;> cases h <;>
      refine ⟨_, rfl, rfl, rfl, ?_, ?_⟩ <;> simp only [State.goto, Thread.space, Thread.items] <;>
      omega
  case lockQueue =>
    split_ifs at h
    cases h
    exact ⟨_, rfl, rfl, rfl, by cases type <;> rfl, by cases type <;> rfl⟩
  case work =>
    obtain ⟨hroom, hitem⟩ := hwork rfl
    cases type <;> cases h
    · have hl : (queuePush (some m) s.queue).len = s.queue.len + 1 := by
        rw [queuePush_len, if_pos (hroom rfl)]
      refine ⟨.print, rfl, rfl, queuePush_maxLen _ _, ?_, ?_⟩
      · change s.freeSpaceSem + 0 + (queuePush (some m) s.queue).len = s.freeSpaceSem + 1 + _
        omega
      · change s.itemsSem + 1 + s.queue.len = s.itemsSem + 0 + (queuePush (some m) s.queue).len
        omega
    · have hl : (queuePop s.queue).2.len = s.queue.len - 1 := queuePop_len s.queue
      have hpos := hitem rfl
      refine ⟨.print, rfl, rfl, queuePop_maxLen _, ?_, ?_⟩
      · change s.freeSpaceSem + 1 + (queuePop s.queue).2.len = s.freeSpaceSem + 0 + _
        omega
      · change s.itemsSem + 0 + s.queue.len = s.itemsSem + 1 + (queuePop s.queue).2.len
        omega
  case semPost =>
    cases type <;> cases h <;> refine ⟨_, rfl, rfl, rfl, ?_, ?_⟩ <;>
      simp only [State.goto, giveUnit, Thread.space, Thread.items]
  case checkUnlock | termUnlock | closing | sleep | print | unlockQueue =>
    cases h
    exact ⟨_, rfl, rfl, rfl, by cases type <;> rfl, by cases type <;> rfl⟩
  case ended | orphaned => cases h

theorem cancelStep_cases {s s' : State α} {t : Nat} {th : Thread}
    (h : cancelStep s t th = some s') :
    ∃ pc, s' = s.goto t th pc ∧ ({ th with pc := pc } : Thread).space = 0 ∧
      ({ th with pc := pc } : Thread).items = 0 := by
  obtain ⟨type, ind, pc, cancel⟩ := th
  simp only [cancelStep] at h
  split_ifs at h
  cases pc <;> cases h <;> exact ⟨_, rfl, by cases type <;> rfl, by cases type <;> rfl⟩

theorem commandStep_cases {limit : Nat} {s s' : State α} {c : Command}
    (h : commandStep limit s c = some s') :
    s'.threads = s.threads ∧ s'.queue = s.queue ∧ s'.freeSpaceSem = s.freeSpaceSem ∧
      s'.itemsSem = s.itemsSem ∧ (s'.main = s.main ∨ s'.main.space = 0) := by
  cases c <;> simp only [commandStep] at h
  case create | reduce =>
    split_ifs at h <;> cases h <;> exact ⟨rfl, rfl, rfl, rfl, by simp [MainPc.space]⟩
  case close | expand =>
    cases h
    exact ⟨rfl, rfl, rfl, rfl, .inr rfl⟩

/-- A step of main changes no thread's units, and its own as it changes `free_space_sem` and
the capacity, but for the cell lost in a refused reduction. A reduction needs the free cell that
main has taken for it. -/
theorem mainStep_cases {limit : Nat} {s s' : State α} {created : Bool}
    (h : mainStep limit s created = some s')
    (hroom : s.main = .reduceCall → s.queue.len < s.queue.maxLen) :
    tally Thread.space s'.threads = tally Thread.space s.threads ∧
      tally Thread.items s'.threads = tally Thread.items s.threads ∧
      s'.queue.len = s.queue.len ∧ s'.itemsSem = s.itemsSem ∧
      s'.freeSpaceSem + s'.main.space + s.queue.maxLen + s.lostCell =
        s.freeSpaceSem + s.main.space + s'.queue.maxLen := by
  obtain ⟨queue, freeSpaceSem, itemsSem, queueMutex, workingMutex, roster, threads, main⟩ := s
  have hcancel (t : Nat) :
      tally Thread.space (requestCancel threads t) = tally Thread.space threads ∧
      tally Thread.items (requestCancel threads t) = tally Thread.items threads :=
    ⟨tally_modify Thread.space (fun th => { th with cancel := true }) (fun _ => rfl) _ _,
      tally_modify Thread.items (fun th => { th with cancel := true }) (fun _ => rfl) _ _⟩
  cases main <;> simp only [mainStep] at h
  case idle => cases h
  case spawn type ind =>
    split_ifs at h <;> cases h
    · refine ⟨?_, ?_, rfl, rfl, rfl⟩ <;> cases type <;>
        simp [Thread.space, Thread.items]
    · exact ⟨rfl, rfl, rfl, rfl, rfl⟩
  case closeLock | closeRelock =>
    split_ifs at h
    cases h
    exact ⟨rfl, rfl, rfl, rfl, rfl⟩
  case closeTest =>
    split_ifs at h <;> cases h <;> exact ⟨rfl, rfl, rfl, rfl, rfl⟩
  case closeCancel type ind =>
    split_ifs at h <;> cases h
    · exact ⟨(hcancel _).1, (hcancel _).2, rfl, rfl, rfl⟩
    · exact ⟨rfl, rfl, rfl, rfl, rfl⟩
  case closeJoin type ind =>
    split at h
    · split_ifs at h
      cases h
      exact ⟨rfl, rfl, rfl, rfl, rfl⟩
    · cases h
  case reduceWait =>
    split_ifs at h
    cases h
    refine ⟨rfl, rfl, rfl, rfl, ?_⟩
    simp only [MainPc.space, State.lostCell]
    omega
  case reduceLock | expandLock =>
    split_ifs at h
    cases h
    exact ⟨rfl, rfl, rfl, rfl, rfl⟩
  case reduceCall =>
    cases h
    have hr : queue.len < queue.maxLen := hroom rfl
    have hm := queueReduce_maxLen .lab51 queue
    have hmin : Copy.lab51.minLen = 1 := rfl
    refine ⟨rfl, rfl, queueReduce_len _ _, rfl, ?_⟩
    simp only [MainPc.space, State.lostCell, hm, hmin]
    split_ifs <;> omega
  case expandCall =>
    cases h
    refine ⟨rfl, rfl, queueExpand_len _, rfl, ?_⟩
    simp only [MainPc.space, State.lostCell, queueExpand_maxLen]
    omega
  case expandPost =>
    cases h
    refine ⟨rfl, rfl, rfl, rfl, ?_⟩
    simp only [MainPc.space, State.lostCell]
    omega
  case closeRefuse | closeClear | closeUnlock | closeCount | closeEnd | reduceUnlock |
      expandUnlock =>
    cases h
    exact ⟨rfl, rfl, rfl, rfl, rfl⟩

/-- The free cells that are announced or in hand, and the cells that are in use. -/
def State.cells (s : State α) : Nat :=
  s.freeSpaceSem + tally Thread.space s.threads + s.main.space + s.queue.len

/-- The items that are announced or in hand. -/
def State.messages (s : State α) : Nat := s.itemsSem + tally Thread.items s.threads

/-- The cells a step loses: that of a refused reduction, or what a cancelled thread has in hand. -/
def lostSpace (s : State α) : Action α → Nat
  | .main _ => s.lostCell
  | .cancel t => s.threads[t]?.elim 0 Thread.space
  | _ => 0

def lostItems (s : State α) : Action α → Nat
  | .cancel t => s.threads[t]?.elim 0 Thread.items
  | _ => 0

/-- Every step keeps the balance of cells and of items, but for what it loses. -/
theorem step_balance {limit : Nat} {s s' : State α} {a : Action α} (hb : Bounded s)
    (h : (program limit).step s a = some s') :
    s'.cells + lostSpace s a + s.queue.maxLen = s.cells + s'.queue.maxLen ∧
      s'.messages + lostItems s a + s.queue.len = s.messages + s'.queue.len := by
  unfold State.cells State.messages
  cases a with
  | command c =>
    simp only [program] at h
    split_ifs at h with hidle
    obtain ⟨ht, hq, hf, hi, hm⟩ := commandStep_cases h
    have hmain : s'.main.space = s.main.space := by
      rcases hm with hm | hm
      · rw [hm]
      · rw [hm, hidle]
        rfl
    simp only [lostSpace, lostItems]
    constructor <;> rw [ht, hq] <;> omega
  | main created =>
    have hroom : s.main = .reduceCall → s.queue.len < s.queue.maxLen := by
      intro hm
      have hspace := hb.space
      rw [hm] at hspace
      simp only [MainPc.space] at hspace
      omega
    obtain ⟨h1, h2, hl, hi, hf⟩ := mainStep_cases h hroom
    simp only [lostSpace, lostItems]
    constructor <;> omega
  | thread t m =>
    obtain ⟨th, hth, hstep⟩ := Option.bind_eq_some_iff.mp h
    obtain ⟨pc, hset, hmain, hmax, h1, h2⟩ := threadStep_cases hstep (hb.work hth)
    have hs := tally_set Thread.space hth { th with pc := pc }
    have hi := tally_set Thread.items hth { th with pc := pc }
    simp only [lostSpace, lostItems, hset, hmain]
    constructor <;> omega
  | cancel t =>
    obtain ⟨th, hth, hstep⟩ := Option.bind_eq_some_iff.mp h
    obtain ⟨pc, rfl, h1, h2⟩ := cancelStep_cases hstep
    have hs := tally_set Thread.space hth { th with pc := pc }
    have hi := tally_set Thread.items hth { th with pc := pc }
    simp only [lostSpace, lostItems, hth, Option.elim_some, State.goto]
    constructor <;> omega

theorem step_bounded {limit : Nat} {s s' : State α} {a : Action α} (hb : Bounded s)
    (h : (program limit).step s a = some s') : Bounded s' := by
  obtain ⟨hcells, hmessages⟩ := step_balance hb h
  have hspace : s.cells ≤ s.queue.maxLen := hb.space
  have hitems : s.messages ≤ s.queue.len := hb.items
  constructor
  · show s'.cells ≤ s'.queue.maxLen
    omega
  · show s'.messages ≤ s'.queue.len
    omega

theorem init_bounded : Bounded (State.init : State α) :=
  ⟨Nat.le_refl _, Nat.le_refl _⟩

theorem reachable_bounded {limit : Nat} {s : State α} (h : (program limit).Reachable s) :
    Bounded s :=
  h.invariant init_bounded fun _ _ _ hi _ ht => step_bounded hi ht

/-- The semaphores protect the queue: a thread calls `queue_push` only while there is room, so
the push is accepted, and `queue_pop` only while there is a message. -/
theorem queue_calls_in_bounds {limit : Nat} {s : State α} (h : (program limit).Reachable s)
    {t : Nat} {th : Thread} (ht : s.threads[t]? = some th) (hpc : th.pc = .work) :
    (th.type = .producer → s.queue.len < s.queue.maxLen ∧
      ∀ m, (queuePush (some m) s.queue).len = s.queue.len + 1) ∧
    (th.type = .consumer → 0 < s.queue.len) := by
  obtain ⟨hroom, hitem⟩ := (reachable_bounded h).work ht hpc
  exact ⟨fun hp => ⟨hroom hp, fun m => by rw [queuePush_len, if_pos (hroom hp)]⟩, hitem⟩

/-- A producer is created and goes on to its first push. -/
def firstPush : List (Action Nat) :=
  [.command (.create .producer), .main true] ++ List.replicate 6 (.thread 0 0)

/-- It is through with it, and a consumer is created and goes on to its first pop. -/
def firstPop : List (Action Nat) :=
  firstPush ++ List.replicate 4 (.thread 0 0) ++ [.command (.create .consumer), .main true] ++
    List.replicate 6 (.thread 1 0)

theorem queue_calls_in_bounds_first :
    (∃ s : State Nat, (program 10).Reachable s ∧ s.threads[0]? = some ⟨.producer, 0, .work, false⟩ ∧
      s.queue.len < s.queue.maxLen ∧
        ∀ m, (queuePush (some m) s.queue).len = s.queue.len + 1) ∧
    ∃ s : State Nat, (program 10).Reachable s ∧ s.threads[1]? = some ⟨.consumer, 0, .work, false⟩ ∧
      0 < s.queue.len := by
  constructor
  · obtain ⟨s, hs, hm⟩ := System.exists_reach_of_run (M := program 10) (fun _ _ => True)
      firstPush (fun s => s.threads[0]? == some ⟨.producer, 0, .work, false⟩) (by decide)
      (by decide)
    have ht : s.threads[0]? = some ⟨.producer, 0, .work, false⟩ := by simpa using hm
    exact ⟨s, hs, ht, (queue_calls_in_bounds hs ht rfl).1 rfl⟩
  · obtain ⟨s, hs, hm⟩ := System.exists_reach_of_run (M := program 10) (fun _ _ => True)
      firstPop (fun s => s.threads[1]? == some ⟨.consumer, 0, .work, false⟩) (by decide)
      (by decide)
    have ht : s.threads[1]? = some ⟨.consumer, 0, .work, false⟩ := by simpa using hm
    exact ⟨s, hs, ht, (queue_calls_in_bounds hs ht rfl).2 rfl⟩

end Osisp.Lab51
