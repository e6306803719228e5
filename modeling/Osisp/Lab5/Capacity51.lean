import Osisp.Lab5.Bounds51

namespace Osisp.Lab51

open Osisp.Lab5 Osisp.Lib

variable {α : Type*}

/-- A cancellation meets its thread asleep or in `sem_wait`. -/
def CancelsAsleep (s : State α) (a : Action α) : Prop :=
  match a with
  | .cancel t => At s.threads t (fun th => th.pc = .sleep ∨ th.pc = .semWait)
  | _ => True

instance (s : State α) : (a : Action α) → Decidable (CancelsAsleep s a)
  | .cancel t => inferInstanceAs (Decidable (At s.threads t fun th => th.pc = .sleep ∨
      th.pc = .semWait))
  | .command _ | .main _ | .thread .. => isTrue trivial

/-- `queue_reduce` is not called on a queue of one cell. -/
def ReducesSpare (s : State α) (a : Action α) : Prop :=
  match a with
  | .main _ => s.main = .reduceCall → s.queue.maxLen ≠ 1
  | _ => True

instance (s : State α) : (a : Action α) → Decidable (ReducesSpare s a)
  | .main _ => inferInstanceAs (Decidable (s.main = .reduceCall → s.queue.maxLen ≠ 1))
  | .command _ | .thread .. | .cancel _ => isTrue trivial

/-- The thread has passed its `sem_wait` and not yet its `sem_post`. -/
def Thread.betweenUnits (th : Thread) : Bool :=
  match th.pc with
  | .lockQueue | .work | .print | .unlockQueue | .semPost => true
  | _ => false

theorem Thread.units_of_not_between {th : Thread} (h : th.betweenUnits = false) :
    th.space = 0 ∧ th.items = 0 := by
  obtain ⟨type, ind, pc, cancel⟩ := th
  cases pc <;> cases type <;> first | exact ⟨rfl, rfl⟩ | cases h

/-- Every free cell and every item is announced or in somebody's hand. -/
structure Exact (s : State α) : Prop where
  space : s.freeSpaceSem + tally Thread.space s.threads + s.main.space + s.queue.len =
    s.queue.maxLen
  items : s.itemsSem + tally Thread.items s.threads = s.queue.len

theorem Exact.bounded {s : State α} (he : Exact s) : Bounded s :=
  ⟨Nat.le_of_eq he.space, Nat.le_of_eq he.items⟩

/-- A step that follows both conditions loses nothing. -/
theorem lost_eq_zero {s : State α} {a : Action α} (hc : CancelsAsleep s a)
    (hr : ReducesSpare s a) : lostSpace s a = 0 ∧ lostItems s a = 0 := by
  cases a with
  | command c => exact ⟨rfl, rfl⟩
  | main created =>
    refine ⟨?_, rfl⟩
    show s.lostCell = 0
    unfold State.lostCell
    split
    · next hm => exact if_neg (hr hm)
    · rfl
  | thread t m => exact ⟨rfl, rfl⟩
  | cancel t =>
    obtain ⟨th, hth, hpc⟩ := hc
    have hasleep : th.betweenUnits = false := by
      rcases hpc with hp | hp <;> simp [Thread.betweenUnits, hp]
    obtain ⟨hspace, hitems⟩ := Thread.units_of_not_between hasleep
    simp only [lostSpace, lostItems, hth, Option.elim_some]
    exact ⟨hspace, hitems⟩

theorem step_exact {limit : Nat} {s s' : State α} {a : Action α} (he : Exact s)
    (hc : CancelsAsleep s a) (hr : ReducesSpare s a)
    (h : (program limit).step s a = some s') : Exact s' := by
  obtain ⟨hcells, hmessages⟩ := step_balance he.bounded h
  obtain ⟨hlostSpace, hlostItems⟩ := lost_eq_zero hc hr
  have hspace : s.cells = s.queue.maxLen := he.space
  have hitems : s.messages = s.queue.len := he.items
  constructor
  · show s'.cells = s'.queue.maxLen
    omega
  · show s'.messages = s'.queue.len
    omega

theorem init_exact : Exact (State.init : State α) := ⟨rfl, rfl⟩

theorem reach_exact {limit : Nat} {s : State α}
    (h : (program limit).Reach (fun s a => CancelsAsleep s a ∧ ReducesSpare s a) s) : Exact s :=
  h.invariant init_exact fun _ _ _ hi hg ht => step_exact hi hg.1 hg.2 ht

/-- Main is between two commands and no thread has a unit in hand. -/
def Settled (s : State α) : Prop :=
  s.main = .idle ∧ ∀ th ∈ s.threads, th.betweenUnits = false

instance (s : State α) : Decidable (Settled s) := inferInstanceAs (Decidable (_ ∧ _))

/-- As long as `r` does not come down to a queue of one cell, the semaphores of a settled state
say what the queue says, and every `r` is accepted: main is never left with a unit that belongs
to no cell. -/
theorem no_capacity_leak {limit : Nat} {s : State α}
    (h : (program limit).Reach (fun s a => CancelsAsleep s a ∧ ReducesSpare s a) s) :
    (Settled s → s.itemsSem = s.queue.len ∧ s.freeSpaceSem = s.queue.maxLen - s.queue.len) ∧
    (s.main = .reduceCall → s.queue.maxLen ≠ 1 →
      (queueReduce .lab51 s.queue).maxLen + 1 = s.queue.maxLen) := by
  obtain ⟨hspace, hitems⟩ := reach_exact h
  constructor
  · rintro ⟨hmain, hth⟩
    have h1 : tally Thread.space s.threads = 0 :=
      tally_eq_zero fun th ht => (Thread.units_of_not_between (hth th ht)).1
    have h2 : tally Thread.items s.threads = 0 :=
      tally_eq_zero fun th ht => (Thread.units_of_not_between (hth th ht)).2
    have h3 : s.main.space = 0 := by simp [hmain, MainPc.space]
    omega
  · intro hmain hmax
    have h1 : s.main.space = 1 := by simp [hmain, MainPc.space]
    have hmin : Copy.lab51.minLen = 1 := rfl
    rw [queueReduce_maxLen, if_neg (by omega)]
    omega

/-- A consumer is created, which finds nothing to do, and `r` is typed `n` times. -/
def reduceDown (n : Nat) : List (Action Nat) :=
  [.command (.create .consumer), .main true] ++
    (List.replicate n [.command .reduce, .main true, .main true, .main true, .main true]).flatten

theorem no_capacity_leak_nine :
    ∃ s : State Nat, s.freeSpaceSem = s.queue.maxLen - s.queue.len ∧ s.queue.maxLen = 1 := by
  obtain ⟨s, hs, hm⟩ := System.exists_reach_of_run (M := program 10)
    (fun s a => CancelsAsleep s a ∧ ReducesSpare s a) (reduceDown 9)
    (fun s => decide (Settled s) && s.queue.maxLen == 1) (by decide) (by decide)
  have hm : Settled s ∧ s.queue.maxLen = 1 := by simpa using hm
  exact ⟨s, ((no_capacity_leak hs).1 hm.1).2, hm.2⟩

/-- The tenth `r` takes the last unit and leaves the last cell: from then on the queue has a free
cell that no producer can ever take. -/
theorem capacity_leaks : ¬ ∀ s : State Nat, (program 10).Reach CancelsAsleep s → Settled s →
    s.itemsSem = s.queue.len ∧ s.freeSpaceSem = s.queue.maxLen - s.queue.len := by
  intro hall
  obtain ⟨s, hs, hm⟩ := System.exists_reach_of_run (M := program 10) CancelsAsleep
    (reduceDown 10) (fun s => decide (Settled s) && (s.freeSpaceSem == 0 && s.queue.len == 0 &&
      s.queue.maxLen == 1)) (by decide) (by decide)
  simp only [Bool.and_eq_true, decide_eq_true_eq, beq_iff_eq] at hm
  obtain ⟨hset, ⟨hf, hl⟩, hmax⟩ := hm
  have h := (hall s hs hset).2
  rw [hf, hl, hmax] at h
  cases h

end Osisp.Lab51
