import Osisp.Lib.Tally
import Osisp.Lab4.Main

namespace Osisp.Lab4

open Osisp.Lib

/-- A unit taken by a wait, until the work on the queue or the signal that uses it up, or
produced by the work and not signalled yet. -/
def Process.units (pr : Process) (semNum : SemaphoreType) : Nat :=
  match semNum, pr.pc with
  | .queueAccess, .generate | .queueAccess, .call | .queueAccess, .signalAccess => 1
  | .queueAccess, _ => 0
  | _, .waitAccess | _, .generate | _, .call => if semNum = pr.type.first then 1 else 0
  | _, .signalAccess | _, .signalLast => if semNum = pr.type.last then 1 else 0
  | _, _ => 0

/-- Messages stand behind `EL_COUNT_SEM`, free cells behind `FREE_SPACE_SEM`, and the right to
enter behind `QUEUE_ACCESS_SEM`. -/
def backing (q : MessageQueue) : SemaphoreType → Nat
  | .elCount => q.count
  | .freeSpace => q.freeSpace
  | .queueAccess => 1

/-- Every unit is in its semaphore or in the hand of one process. -/
def Accounted (s : State) : Prop :=
  ∀ semNum, s.sem semNum + tally (fun pr => pr.units semNum) s.processes = backing s.queue semNum

theorem waitSemaphore_units {sem sem' : SemaphoreType → Nat} {semNum : SemaphoreType}
    (h : waitSemaphore sem semNum = some sem') (n : SemaphoreType) :
    sem' n + (if n = semNum then 1 else 0) = sem n := by
  unfold waitSemaphore at h
  split_ifs at h with hpos
  cases h
  by_cases hn : n = semNum
  · subst hn
    simp only [Function.update_self, if_true]
    omega
  · simp [hn]

theorem signalSemaphore_units (sem : SemaphoreType → Nat) (semNum n : SemaphoreType) :
    signalSemaphore sem semNum n = sem n + (if n = semNum then 1 else 0) := by
  unfold signalSemaphore
  by_cases hn : n = semNum
  · subst hn
    simp
  · simp [hn]

/-- A process that calls `enqueue` finds room and one that calls `dequeue` finds a message. -/
theorem Accounted.call {s : State} (ha : Accounted s) {p : Nat} {pr : Process}
    (hp : s.processes[p]? = some pr) (hpc : pr.pc = .call) :
    (pr.type = .producer → s.queue.freeSpace ≠ 0) ∧
    (pr.type = .consumer → s.queue.count ≠ 0) := by
  have hle (n : SemaphoreType) := le_tally (fun pr => pr.units n) hp
  constructor <;> intro htype
  · have hback := ha .freeSpace
    have hu : pr.units .freeSpace = 1 := by simp [Process.units, hpc, htype, ProcessType.first]
    have hl := hle .freeSpace
    simp only [backing] at hback
    omega
  · have hback := ha .elCount
    have hu : pr.units .elCount = 1 := by simp [Process.units, hpc, htype, ProcessType.first]
    have hl := hle .elCount
    simp only [backing] at hback
    omega

/-- A step of a process moves this process alone, and what it has in hand changes as the
semaphores and the queue do. -/
theorem processStep_cases {s s' : State} {p : Nat} {pr : Process} {rand : Nat → Nat}
    (h : processStep s p pr rand = some s')
    (hcall : pr.pc = .call → (pr.type = .producer → s.queue.freeSpace ≠ 0) ∧
      (pr.type = .consumer → s.queue.count ≠ 0)) :
    ∃ pr', s'.processes = s.processes.set p pr' ∧ ∀ n,
      s'.sem n + pr'.units n + backing s.queue n =
        s.sem n + pr.units n + backing s'.queue n := by
  obtain ⟨type, pc, flag, pending, msg, slot, hash, taken⟩ := pr
  cases pc <;> simp only [processStep] at h
  case start | generate | delay =>
    cases h
    exact ⟨_, rfl, fun n => by cases n <;> rfl⟩
  case loopTest | testMsg =>
    split_ifs at h <;> cases h <;> exact ⟨_, rfl, fun n => by cases n <;> rfl⟩
  case waitFirst =>
    obtain ⟨sem, hsem, rfl⟩ := Option.map_eq_some_iff.mp h
    refine ⟨_, rfl, fun n => ?_⟩
    have hu := waitSemaphore_units hsem n
    cases n <;> cases type <;> simp [Process.units, ProcessType.first, State.put] at hu ⊢ <;> omega
  case waitAccess =>
    obtain ⟨sem, hsem, rfl⟩ := Option.map_eq_some_iff.mp h
    refine ⟨_, rfl, fun n => ?_⟩
    have hu := waitSemaphore_units hsem n
    cases n <;> cases type <;>
      simp [Process.units, ProcessType.first, ProcessType.entered, State.put] at hu ⊢ <;> omega
  case call =>
    obtain ⟨hroom, hitem⟩ := hcall rfl
    cases type <;> cases h
    · have hpos := hitem rfl
      refine ⟨_, rfl, fun n => ?_⟩
      rw [dequeue, if_neg hpos]
      cases n <;> simp [Process.units, ProcessType.first, ProcessType.last, State.put, backing]
      · omega
      · omega
    · have hpos := hroom rfl
      refine ⟨_, rfl, fun n => ?_⟩
      rw [enqueue, if_neg hpos]
      cases n <;> simp [Process.units, ProcessType.first, ProcessType.last, State.put, backing]
      · omega
      · omega
  case signalAccess =>
    cases h
    refine ⟨_, rfl, fun n => ?_⟩
    simp only [signalSemaphore_units]
    cases n <;> cases type <;> simp [Process.units, ProcessType.last, State.put]
  case signalLast =>
    cases h
    refine ⟨_, rfl, fun n => ?_⟩
    simp only [signalSemaphore_units]
    cases n <;> cases type <;>
      simp [Process.units, ProcessType.last, ProcessType.left, State.put]
  case hashType =>
    obtain ⟨cell, -, rfl⟩ := Option.map_eq_some_iff.mp h
    exact ⟨_, rfl, fun n => by cases n <;> rfl⟩
  case hashData i =>
    obtain ⟨cell, -, rfl⟩ := Option.map_eq_some_iff.mp h
    split_ifs <;> exact ⟨_, rfl, fun n => by cases n <;> rfl⟩
  case compare =>
    obtain ⟨cell, -, h⟩ := Option.bind_eq_some_iff.mp h
    obtain ⟨t, -, rfl⟩ := Option.map_eq_some_iff.mp h
    exact ⟨_, rfl, fun n => by cases n <;> rfl⟩
  case exited => cases h

/-- What one step of the program does. -/
inductive ProgramMove (s s' : State) : Action → Prop
  /-- A command that the parent refuses. -/
  | refused {a : Action} (hs : s' = s) : ProgramMove s s' a
  | fork (type : ProcessType) (stack : Message) (hread : s.parent = .reading)
      (hs : s' = { s with
        processes := s.processes ++ [.new type stack]
        table := s.table ++ [s.processes.length] }) : ProgramMove s s' (.create type true stack)
  | forkFails (type : ProcessType) (stack : Message) (hread : s.parent = .reading)
      (hs : s' = { s with parent := .exited }) : ProgramMove s s' (.create type false stack)
  | kill (index : Int) (pid : Nat) (hread : s.parent = .reading)
      (hpid : s.table[index.toNat]? = some pid)
      (hs : s' = { s with
        processes := s.processes.modify pid (fun pr => { pr with pending := true })
        parent := .waitpid index.toNat pid }) : ProgramMove s s' (.kill index)
  | reap (index pid : Nat) (pr : Process) (hwait : s.parent = .waitpid index pid)
      (hp : s.processes[pid]? = some pr) (hexit : pr.pc = .exited)
      (hs : s' = { s with table := s.table.eraseIdx index, parent := .reading }) :
      ProgramMove s s' .reap
  | process (p : Nat) (rand : Nat → Nat) (pr : Process) (hp : s.processes[p]? = some pr)
      (hstep : processStep s p pr rand = some s') : ProgramMove s s' (.process p rand)
  | deliver (p : Nat) (pr : Process) (hp : s.processes[p]? = some pr)
      (hstep : deliverStep s p pr = some s') : ProgramMove s s' (.deliver p)
  | interrupt (p : Nat) (pr : Process) (hp : s.processes[p]? = some pr)
      (hstep : interruptStep s p pr = some s') : ProgramMove s s' (.interrupt p)

theorem step_cases {limit : Nat} {s s' : State} {a : Action}
    (h : (program limit).step s a = some s') : ProgramMove s s' a := by
  cases a with
  | create type forked stack =>
    simp only [program] at h
    split_ifs at h with hread hfull hforked
    · cases h
      exact .refused rfl
    · subst hforked
      exact .fork type stack (not_not.mp hread) (Option.some.inj h).symm
    · obtain rfl := Bool.eq_false_iff.mpr hforked
      exact .forkFails type stack (not_not.mp hread) (Option.some.inj h).symm
  | kill index =>
    simp only [program] at h
    split_ifs at h with hread hneg
    · cases h
      exact .refused rfl
    · split at h
      · cases h
        exact .refused rfl
      · rename_i pid hpid
        exact .kill index pid (not_not.mp hread) hpid (Option.some.inj h).symm
  | reap =>
    simp only [program] at h
    split at h
    · rename_i index pid hwait
      obtain ⟨pr, hp, h⟩ := Option.bind_eq_some_iff.mp h
      split_ifs at h with hexit
      exact .reap index pid pr hwait hp hexit (Option.some.inj h).symm
    · cases h
  | process p rand =>
    obtain ⟨pr, hp, hstep⟩ := Option.bind_eq_some_iff.mp h
    exact .process p rand pr hp hstep
  | deliver p =>
    obtain ⟨pr, hp, hstep⟩ := Option.bind_eq_some_iff.mp h
    exact .deliver p pr hp hstep
  | interrupt p =>
    obtain ⟨pr, hp, hstep⟩ := Option.bind_eq_some_iff.mp h
    exact .interrupt p pr hp hstep

theorem deliverStep_cases {s s' : State} {p : Nat} {pr : Process}
    (h : deliverStep s p pr = some s') :
    ∃ pr', s' = s.put p pr' ∧ ∀ n, pr'.units n = pr.units n := by
  obtain ⟨type, pc, flag, pending, msg, slot, hash, taken⟩ := pr
  simp only [deliverStep] at h
  split_ifs at h with hp hstart
  · cases h
    refine ⟨_, rfl, fun n => ?_⟩
    subst hstart
    cases n <;> rfl
  · cases h
    exact ⟨_, rfl, fun n => rfl⟩

/-- No handler runs in a blocked `semop`. -/
def NotInterrupt : Action → Prop
  | .interrupt _ => False
  | _ => True

instance : (a : Action) → Decidable (NotInterrupt a)
  | .interrupt _ => isFalse id
  | .create .. | .kill _ | .reap | .process .. | .deliver _ => isTrue trivial

theorem init_accounted : Accounted State.init := by
  intro n
  cases n <;> rfl

theorem step_accounted {limit : Nat} {s s' : State} {a : Action} (ha : Accounted s)
    (hgood : NotInterrupt a) (h : (program limit).step s a = some s') : Accounted s' := by
  cases step_cases h with
  | refused hs =>
    subst hs
    exact ha
  | fork type stack hread hs =>
    subst hs
    intro n
    have hn := ha n
    have hnew : (Process.new type stack).units n = 0 := by cases n <;> rfl
    simp only [tally_append, tally_cons, tally_nil, hnew]
    omega
  | forkFails type stack hread hs =>
    subst hs
    exact ha
  | kill index pid hread hpid hs =>
    subst hs
    intro n
    have hn := ha n
    rw [← hn]
    simp only [Nat.add_left_cancel_iff]
    exact tally_modify (fun pr : Process => pr.units n) (fun pr => { pr with pending := true })
      (fun _ => rfl) _ _
  | reap index pid pr hwait hp hexit hs =>
    subst hs
    exact ha
  | process p rand pr hp hstep =>
    obtain ⟨pr', hset, hunits⟩ := processStep_cases hstep (ha.call hp)
    intro n
    have hn := ha n
    have hu := hunits n
    have ht := tally_set (fun pr => pr.units n) hp pr'
    rw [hset]
    omega
  | deliver p pr hp hstep =>
    obtain ⟨pr', rfl, hunits⟩ := deliverStep_cases hstep
    intro n
    have hn := ha n
    have hu := hunits n
    have ht := tally_set (fun pr => pr.units n) hp pr'
    simp only [State.put]
    omega
  | interrupt p pr hp hstep => exact absurd hgood id

theorem reach_accounted {limit : Nat} {s : State}
    (h : (program limit).Reach (fun _ a => NotInterrupt a) s) : Accounted s :=
  h.invariant init_accounted fun _ _ _ hi hg ht => step_accounted hi hg ht

/-- What the semaphores are to show: at most one process between its wait and its signal on
`QUEUE_ACCESS_SEM`, and the queue's own counters while no process is in its section. -/
structure SemaphoresAgree (s : State) : Prop where
  access_le : s.sem .queueAccess ≤ 1
  exclusive : ∀ p p', At s.processes p (fun pr => pr.pc.inAccess) →
    At s.processes p' (fun pr => pr.pc.inAccess) → p = p'
  quiescent : (∀ pr ∈ s.processes, pr.pc.inSection = false) →
    s.sem .elCount = s.queue.count ∧ s.sem .freeSpace = s.queue.freeSpace

theorem units_of_inAccess {pr : Process} (h : pr.pc.inAccess = true) :
    pr.units .queueAccess = 1 := by
  obtain ⟨type, pc, flag, pending, msg, slot, hash, taken⟩ := pr
  cases pc <;> first | rfl | cases h

theorem units_of_not_inSection {pr : Process} (h : pr.pc.inSection = false)
    (semNum : SemaphoreType) : pr.units semNum = 0 := by
  obtain ⟨type, pc, flag, pending, msg, slot, hash, taken⟩ := pr
  cases pc <;> first | (cases semNum <;> rfl) | cases h

theorem Accounted.agree {s : State} (ha : Accounted s) : SemaphoresAgree s where
  access_le := by
    have h := ha .queueAccess
    simp only [backing] at h
    omega
  exclusive := by
    rintro p p' ⟨pr, hp, hin⟩ ⟨pr', hp', hin'⟩
    by_contra hne
    have hsum := add_le_tally (fun pr => pr.units .queueAccess) hne hp hp'
    have h := ha .queueAccess
    simp only [backing, units_of_inAccess hin, units_of_inAccess hin'] at h hsum
    omega
  quiescent := by
    intro hq
    have hzero (n : SemaphoreType) : tally (fun pr => pr.units n) s.processes = 0 :=
      tally_eq_zero fun pr hpr => units_of_not_inSection (hq pr hpr) n
    have hel := ha .elCount
    have hfree := ha .freeSpace
    rw [hzero] at hel hfree
    exact ⟨hel, hfree⟩

/-- The accounts survive kills in the runs in which no handler runs in a blocked `semop`. -/
theorem semaphores_agree {limit : Nat} {s : State}
    (h : (program limit).Reach (fun _ a => NotInterrupt a) s) : SemaphoresAgree s :=
  (reach_accounted h).agree

/-- A consumer is killed before it waits, and ends. -/
def killedConsumer : List Action :=
  [.create .consumer true .zero, .process 0 id, .kill 0, .deliver 0, .process 0 id, .reap]

theorem semaphores_agree_killed :
    ∃ s, (program 100).Reach (fun _ a => NotInterrupt a) s ∧ s.table = [] ∧
      s.processes.length = 1 ∧ SemaphoresAgree s := by
  obtain ⟨s, hs, hm⟩ := System.exists_reach_of_run (M := program 100)
    (fun _ a => NotInterrupt a) killedConsumer
    (fun s => s.table == [] && s.processes.length == 1) (by decide) (by decide)
  simp only [Bool.and_eq_true, beq_iff_eq] at hm
  exact ⟨s, hs, hm.1, hm.2, semaphores_agree hs⟩

/-- A consumer is killed while it waits for a message. It takes nothing from the empty queue
and signals a free cell that is not there. -/
def interruptedConsumer : List Action :=
  [.create .consumer true .zero, .process 0 id, .process 0 id, .kill 0, .interrupt 0] ++
  List.replicate 7 (.process 0 id) ++ [.reap]

theorem interrupted_not_agree : ¬∀ s, (program 100).Reachable s → SemaphoresAgree s := by
  intro h
  obtain ⟨s, hs, hm⟩ := System.exists_reach_of_run (M := program 100)
    (fun _ _ => True) interruptedConsumer
    (fun s => s.processes.all (fun pr => !pr.pc.inSection) && s.sem .freeSpace == 11 &&
      s.queue.freeSpace == 10) (by decide) (by decide)
  simp only [Bool.and_eq_true, List.all_eq_true, Bool.not_eq_true', beq_iff_eq] at hm
  have hq := ((h s hs).quiescent hm.1.1).2
  rw [hm.1.2, hm.2] at hq
  exact absurd hq (by decide)

end Osisp.Lab4
