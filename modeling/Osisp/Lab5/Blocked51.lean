import Osisp.Lab5.Exclusion51
import Osisp.Lab5.Capacity51
import Osisp.Lab5.Delivery51

namespace Osisp.Lab51

open Osisp.Lab5 Osisp.Lib

variable {α : Type*}

/-- What holds in the runs that lose no unit. -/
structure Orderly (s : State α) : Prop where
  exact : Exact s
  exclusive : Exclusive s
  intact : ∀ t, ¬At s.threads t (fun th => th.pc = .orphaned)
  room : 0 < s.queue.maxLen

theorem intact_set {threads : List Thread} {t : Nat} {th : Thread} {pc : Pc}
    (h : ∀ u, ¬At threads u (fun th => th.pc = .orphaned)) (ht : threads[t]? = some th)
    (hpc : pc ≠ .orphaned) (u : Nat) :
    ¬At (threads.set t { th with pc := pc }) u (fun th => th.pc = .orphaned) := by
  by_cases hu : t = u
  · subst hu
    rw [at_set_self ht]
    exact hpc
  · rw [at_set_of_ne hu]
    exact h u

theorem threadStep_room {s s' : State α} {t : Nat} {th : Thread} {m : α}
    (h : threadStep s t th m = some s') : s'.queue.maxLen = s.queue.maxLen := by
  by_cases hpc : th.pc = .work
  · simp only [threadStep, hpc, Option.some.injEq] at h
    rw [← h]
    cases htype : th.type <;> simp [doWork]
  · rw [threadStep_queue h hpc]

theorem mainStep_room {limit : Nat} {s s' : State α} {created : Bool}
    (h : mainStep limit s created = some s') (hroom : 0 < s.queue.maxLen) :
    0 < s'.queue.maxLen := by
  obtain ⟨hreduce, hexpand, hother⟩ := mainStep_queue h
  by_cases hr : s.main = .reduceCall
  · have hmin : Copy.lab51.minLen = 1 := rfl
    rw [hreduce hr, queueReduce_maxLen, hmin]
    split_ifs
    all_goals omega
  · by_cases hx : s.main = .expandCall
    · rw [hexpand hx, queueExpand_maxLen]
      omega
    · rw [hother hr hx]
      exact hroom

theorem intact_of_main {limit : Nat} {s s' : State α} (hroll : s.roll.Move limit s'.roll)
    (h : ∀ t, ¬At s.threads t (fun th => th.pc = .orphaned)) (t : Nat) :
    ¬At s'.threads t (fun th => th.pc = .orphaned) := by
  have hiff := hroll.at_iff (p := fun th : Thread => th.pc = .orphaned)
    (fun ty ind hf => by cases hf) (fun a => Iff.rfl) t
  exact fun hat => h t (hiff.mp hat)

theorem step_orderly {limit : Nat} {s s' : State α} {a : Action α} (hi : Orderly s)
    (hc : CancelsAsleep s a) (hr : ReducesSpare s a)
    (h : (program limit).step s a = some s') : Orderly s' := by
  have hexact := step_exact hi.exact hc hr h
  have hexclusive := step_exclusive hi.exclusive h
  cases a with
  | command c =>
    simp only [program] at h
    split_ifs at h with hidle
    refine ⟨hexact, hexclusive, intact_of_main (commandStep_move hidle h) hi.intact, ?_⟩
    rw [(commandStep_cases h).2.1]
    exact hi.room
  | main created =>
    exact ⟨hexact, hexclusive, intact_of_main (mainStep_move h) hi.intact,
      mainStep_room h hi.room⟩
  | thread t m =>
    obtain ⟨th, hth, hstep⟩ := Option.bind_eq_some_iff.mp h
    obtain ⟨pc, hset, -, -, hpc⟩ := threadStep_queueMutex hstep
    refine ⟨hexact, hexclusive, ?_, ?_⟩
    · rw [hset]
      exact intact_set hi.intact hth hpc
    · rw [threadStep_room hstep]
      exact hi.room
  | cancel t =>
    obtain ⟨th, hth, hstep⟩ := Option.bind_eq_some_iff.mp h
    have hasleep := (at_of_getElem? hth _).mp hc
    have hset : s' = s.goto t th .ended := by
      simp only [cancelStep] at hstep
      split_ifs at hstep
      rcases hasleep with hpc | hpc
      · simpa [hpc] using hstep.symm
      · simpa [hpc] using hstep.symm
    subst hset
    exact ⟨hexact, hexclusive, intact_set hi.intact hth (by simp), hi.room⟩

theorem init_orderly : Orderly (State.init : State α) where
  exact := init_exact
  exclusive := init_exclusive
  intact := by simp [State.init, At]
  room := by simp [State.init, queueInit, queueBaseSize]

theorem reach_orderly {limit : Nat} {s : State α}
    (h : (program limit).Reach (fun s a => CancelsAsleep s a ∧ ReducesSpare s a) s) :
    Orderly s :=
  h.invariant init_orderly fun _ _ _ hi hg ht => step_orderly hi hg.1 hg.2 ht

/-- What the semaphore that a thread waits for stands for is not there. -/
def Starved (q : MessageQueue α) : ThreadType → Prop
  | .producer => q.len = q.maxLen
  | .consumer => q.len = 0

/-- No thread can take a step. -/
def Blocked (s : State α) : Prop :=
  ∀ (t : Nat) (th : Thread), s.threads[t]? = some th → ∀ m, threadStep s t th m = none

theorem blocked_iff_step (limit : Nat) (s : State α) :
    Blocked s ↔ ∀ t m, (program limit).step s (.thread t m) = none := by
  simp only [program, Option.bind_eq_none_iff]
  constructor
  · intro h t m th hth
    exact h t th hth m
  · intro h t th hth m
    exact h t m th hth

/-- Only a lock and the wait for a unit hold a thread up. -/
theorem threadStep_isSome {s : State α} {t : Nat} {th : Thread} (m : α)
    (hlive : th.pc.isEnded = false)
    (hcheck : th.pc = .checkLock → s.workingMutex th.type = none)
    (hqueue : th.pc = .lockQueue → s.queueMutex = none)
    (hunit : th.pc = .semWait → 0 < s.units th.type) :
    (threadStep s t th m).isSome = true := by
  obtain ⟨type, ind, pc, cancel⟩ := th
  cases pc <;> simp only [threadStep]
  case checkLock => simp [hcheck rfl]
  case lockQueue => simp [hqueue rfl]
  case checkTest => split_ifs <;> simp
  case semWait =>
    have hpos := hunit rfl
    cases type <;> simp only [State.units] at hpos <;> simp [takeUnit, hpos]
  case ended | orphaned => cases hlive
  all_goals simp

section

variable [Inhabited α] {s : State α}

/-- A thread that can go on is not inside a section, so that the mutexes are free. -/
theorem Blocked.free (hb : Blocked s) (hi : Orderly s) (hidle : s.main = .idle) (lock : Lock) :
    s.holder lock = none := by
  cases hholder : s.holder lock with
  | none => rfl
  | some p =>
    have hin := (hi.exclusive lock p).mpr hholder
    exfalso
    cases p with
    | main => cases lock <;> simp [Inside, InCheck, hidle, MainPc.holdsQueue, MainPc.inCheck] at hin
    | thread t =>
      have hat : ∃ th, s.threads[t]? = some th ∧
          (th.pc.holdsQueue = true ∨ th.pc.inCheck = true) := by
        cases lock with
        | queue =>
          obtain ⟨th, hth, hq⟩ := hin
          exact ⟨th, hth, .inl hq⟩
        | working type =>
          obtain ⟨th, hth, -, hq⟩ := hin
          exact ⟨th, hth, .inr hq⟩
      obtain ⟨th, hth, hpc⟩ := hat
      have hnone := hb t th hth default
      have horphan : th.pc ≠ .orphaned := fun h => hi.intact t ⟨th, hth, h⟩
      have hsome : (threadStep s t th default).isSome = true := by
        apply threadStep_isSome
        all_goals
          obtain ⟨type, ind, pc, cancel⟩ := th
          cases pc <;> simp_all [Pc.holdsQueue, Pc.inCheck, Pc.isEnded]
      simp [hnone] at hsome

theorem Blocked.waits (hb : Blocked s) (hi : Orderly s) (hidle : s.main = .idle) {t : Nat}
    {th : Thread} (hth : s.threads[t]? = some th) (hended : th.pc ≠ .ended) :
    th.pc = .semWait ∧ s.units th.type = 0 := by
  have hnone := hb t th hth default
  by_contra hwait
  have hlive : th.pc.isEnded = false := by
    have horphan : th.pc ≠ .orphaned := fun h => hi.intact t ⟨th, hth, h⟩
    cases hpc : th.pc <;> simp_all [Pc.isEnded]
  have hsome : (threadStep s t th default).isSome = true := by
    refine threadStep_isSome default hlive ?_ ?_ ?_
    · intro _
      exact hb.free hi hidle (.working th.type)
    · intro _
      exact hb.free hi hidle .queue
    · intro hpc
      exact Nat.pos_of_ne_zero fun h => hwait ⟨hpc, h⟩
  simp [hnone] at hsome

end

theorem Exact.settled {s : State α} (he : Exact s) (hidle : s.main = .idle)
    (hth : ∀ th ∈ s.threads, th.betweenUnits = false) :
    s.itemsSem = s.queue.len ∧ s.freeSpaceSem + s.queue.len = s.queue.maxLen := by
  have hspace := he.space
  have hitems := he.items
  have h1 : tally Thread.space s.threads = 0 :=
    tally_eq_zero fun th ht => (Thread.units_of_not_between (hth th ht)).1
  have h2 : tally Thread.items s.threads = 0 :=
    tally_eq_zero fun th ht => (Thread.units_of_not_between (hth th ht)).2
  have h3 : s.main.space = 0 := by simp [hidle, MainPc.space]
  omega

theorem units_eq_zero_iff {s : State α} (type : ThreadType) (hitems : s.itemsSem = s.queue.len)
    (hspace : s.freeSpaceSem + s.queue.len = s.queue.maxLen) :
    s.units type = 0 ↔ Starved s.queue type := by
  cases type <;> simp only [State.units, Starved] <;> omega

/-- Between two commands of a run that loses no unit, the threads come to a halt only where each
that has not ended waits for the queue, so never while both kinds are left. -/
theorem threads_blocked_iff [Inhabited α] {limit : Nat} {s : State α}
    (h : (program limit).Reach (fun s a => CancelsAsleep s a ∧ ReducesSpare s a) s)
    (hidle : s.main = .idle) :
    ((∀ t m, (program limit).step s (.thread t m) = none) ↔
      ∀ th ∈ s.threads, th.pc = .ended ∨ th.pc = .semWait ∧ Starved s.queue th.type) ∧
    ((∃ th ∈ s.threads, th.type = .producer ∧ th.pc ≠ .ended) →
      (∃ th ∈ s.threads, th.type = .consumer ∧ th.pc ≠ .ended) →
      ∃ t m, (program limit).step s (.thread t m) ≠ none) := by
  have hi := reach_orderly h
  have hiff : Blocked s ↔
      ∀ th ∈ s.threads, th.pc = .ended ∨ th.pc = .semWait ∧ Starved s.queue th.type := by
    have hsettled (hall : ∀ th ∈ s.threads, th.pc = .ended ∨ th.pc = .semWait) :=
      hi.exact.settled hidle fun th hth => by
        rcases hall th hth with hpc | hpc <;> simp [Thread.betweenUnits, hpc]
    constructor
    · intro hb
      have hall : ∀ th ∈ s.threads, th.pc = .ended ∨ th.pc = .semWait ∧ s.units th.type = 0 := by
        intro th hth
        obtain ⟨t, ht⟩ := List.mem_iff_getElem?.mp hth
        by_cases hended : th.pc = .ended
        · exact .inl hended
        · exact .inr (hb.waits hi hidle ht hended)
      obtain ⟨hitems, hspace⟩ := hsettled fun th hth => (hall th hth).imp_right And.left
      intro th hth
      refine (hall th hth).imp_right fun hw => ⟨hw.1, ?_⟩
      exact (units_eq_zero_iff th.type hitems hspace).mp hw.2
    · intro hall t th hth m
      obtain ⟨hitems, hspace⟩ := hsettled fun th hth => (hall th hth).imp_right And.left
      rcases hall th (List.mem_of_getElem? hth) with hpc | ⟨hpc, hstarved⟩
      · simp [threadStep, hpc]
      · have hzero := (units_eq_zero_iff th.type hitems hspace).mpr hstarved
        cases htype : th.type <;> simp only [htype, State.units] at hzero <;>
          simp [threadStep, hpc, takeUnit, htype, hzero]
  rw [← blocked_iff_step limit s]
  refine ⟨hiff, ?_⟩
  rintro ⟨th, hth, htype, hended⟩ ⟨th', hth', htype', hended'⟩
  by_contra hnone
  simp only [not_exists, not_not] at hnone
  have hall := hiff.mp ((blocked_iff_step limit s).mpr hnone)
  have hfull := ((hall th hth).resolve_left hended).2
  have hempty := ((hall th' hth').resolve_left hended').2
  simp only [htype, Starved] at hfull
  simp only [htype', Starved] at hempty
  have hroom := hi.room
  omega

/-- A producer and a consumer are created; the consumer waits for a message. -/
def consumerWaits : List (Action Nat) :=
  [.command (.create .producer), .main true, .command (.create .consumer), .main true] ++
    List.replicate 4 (.thread 1 0)

theorem threads_blocked_iff_waiting :
    ∃ s : State Nat, (program 10).Reach (fun s a => CancelsAsleep s a ∧ ReducesSpare s a) s ∧
      ∃ t m, (program 10).step s (.thread t m) ≠ none := by
  obtain ⟨s, hs, hm⟩ := System.exists_reach_of_run (M := program 10)
    (fun (s : State Nat) a => CancelsAsleep s a ∧ ReducesSpare s a) consumerWaits
    (fun s => s.main == .idle &&
      s.threads.any (fun th => th.type == .producer && th.pc != .ended) &&
      s.threads.any (fun th => th.type == .consumer && th.pc != .ended)) (by decide) (by decide)
  simp only [Bool.and_eq_true, List.any_eq_true, beq_iff_eq, bne_iff_ne] at hm
  obtain ⟨⟨hidle, hproducer⟩, hconsumer⟩ := hm
  exact ⟨s, hs, (threads_blocked_iff hs hidle).2 hproducer hconsumer⟩

end Osisp.Lab51
