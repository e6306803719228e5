import Osisp.Lib.Progress
import Osisp.Lab4.Delivery

namespace Osisp.Lab4

open Osisp.Lib

/-- A producer makes its message between its second wait and its call. -/
def ProcessType.extra : ProcessType → Nat
  | .producer => 1
  | .consumer => 0

/-- How many steps a process takes at most until it has called `enqueue` or `dequeue`, where it
does not wait. A consumer adds up to 255 bytes on its way. -/
def Process.rank (pr : Process) : Nat :=
  match pr.pc with
  | .exited => 0
  | .call => 1
  | .generate => 2
  | .waitAccess => 2 + pr.type.extra
  | .waitFirst => 3 + pr.type.extra
  | .loopTest => 4 + pr.type.extra
  | .start | .delay => 5 + pr.type.extra
  | .compare => 6 + pr.type.extra
  | .hashData i => 7 + pr.type.extra + (255 - i)
  | .hashType => 263 + pr.type.extra
  | .testMsg => 264 + pr.type.extra
  | .signalLast => if pr.type = .producer then 7 else 265
  | .signalAccess => if pr.type = .producer then 8 else 266

/-- The rank, and the delivery of a pending signal. -/
def Process.load (pr : Process) : Nat := pr.rank + if pr.pending then 1 else 0

theorem Process.load_le (pr : Process) : pr.load ≤ 267 := by
  have hrank : pr.rank ≤ 266 := by
    obtain ⟨type, pc, flag, pending, msg, slot, hash, taken⟩ := pr
    cases type <;> cases pc <;> simp [Process.rank, ProcessType.extra]
    all_goals omega
  unfold Process.load
  split_ifs <;> omega

/-- A step of a process brings it nearer to its call, or is its call. -/
inductive WorkStep (s s' : State) (p : Nat) (pr : Process) : Prop
  | nearer (pr' : Process) (hset : s'.processes = s.processes.set p pr')
      (hq : s'.queue = s.queue) (hload : pr'.load < pr.load)
  | enqueue (pr' : Process) (htype : pr.type = .producer) (hpc : pr.pc = .call)
      (hset : s'.processes = s.processes.set p pr') (hq : s'.queue = enqueue s.queue pr.msg)
      (hload : pr'.load = pr.load + 7)
  | dequeue (pr' : Process) (htype : pr.type = .consumer) (hpc : pr.pc = .call)
      (hset : s'.processes = s.processes.set p pr') (hq : s'.queue = (dequeue s.queue).2)
      (hload : pr'.load = pr.load + 265)

theorem processStep_work {s s' : State} {p : Nat} {pr : Process} {rand : Nat → Nat}
    (h : processStep s p pr rand = some s') : WorkStep s s' p pr := by
  obtain ⟨type, pc, flag, pending, msg, slot, hash, taken⟩ := pr
  cases pc <;> simp only [processStep] at h
  case start | delay | generate =>
    cases h
    refine .nearer _ rfl rfl ?_
    simp [Process.load, Process.rank]
  case loopTest | testMsg =>
    split_ifs at h
    all_goals
      cases h
      refine .nearer _ rfl rfl ?_
      simp [Process.load, Process.rank]
  case waitFirst =>
    obtain ⟨sem, -, rfl⟩ := Option.map_eq_some_iff.mp h
    refine .nearer _ rfl rfl ?_
    simp [Process.load, Process.rank]
  case waitAccess =>
    obtain ⟨sem, -, rfl⟩ := Option.map_eq_some_iff.mp h
    refine .nearer _ rfl rfl ?_
    cases type <;> simp [Process.load, Process.rank, ProcessType.entered, ProcessType.extra]
  case call =>
    cases type <;> cases h
    · refine .dequeue _ rfl rfl rfl rfl ?_
      simp [Process.load, Process.rank]
      omega
    · refine .enqueue _ rfl rfl rfl rfl ?_
      simp [Process.load, Process.rank]
      omega
  case signalAccess =>
    cases h
    refine .nearer _ rfl rfl ?_
    cases type <;> simp [Process.load, Process.rank]
  case signalLast =>
    cases h
    refine .nearer _ rfl rfl ?_
    cases type <;> simp [Process.load, Process.rank, ProcessType.left, ProcessType.extra]
  case hashType =>
    obtain ⟨cell, -, rfl⟩ := Option.map_eq_some_iff.mp h
    refine .nearer _ rfl rfl ?_
    simp [Process.load, Process.rank]
    omega
  case hashData i =>
    obtain ⟨cell, -, rfl⟩ := Option.map_eq_some_iff.mp h
    have hsize := (s.queue.buffer cell).size.toNat_lt
    by_cases hi : i < (s.queue.buffer cell).size.toNat
    · simp only [if_pos hi]
      refine .nearer _ rfl rfl ?_
      simp [Process.load, Process.rank]
      omega
    · simp only [if_neg hi]
      refine .nearer _ rfl rfl ?_
      simp [Process.load, Process.rank]
      omega
  case compare =>
    obtain ⟨cell, -, h⟩ := Option.bind_eq_some_iff.mp h
    obtain ⟨t, -, rfl⟩ := Option.map_eq_some_iff.mp h
    refine .nearer _ rfl rfl ?_
    simp [Process.load, Process.rank]
  case exited => cases h

/-- The parent gives no command and goes on from no wait. -/
def OfProcess : Action → Prop
  | .process .. | .deliver _ => True
  | _ => False

instance : (a : Action) → Decidable (OfProcess a)
  | .process .. | .deliver _ => isTrue trivial
  | .create .. | .kill _ | .reap | .interrupt _ => isFalse id

theorem OfProcess.notInterrupt {a : Action} (h : OfProcess a) : NotInterrupt a := by
  cases a <;> trivial

/-- What there is to do before the next message leaves the queue: each free cell takes a turn of
a producer, and every process has its way to its call. -/
def State.untilRemoved (s : State) : Nat :=
  8 * s.queue.freeSpace + tally Process.load s.processes

/-- What there is to do before the next message enters it. -/
def State.untilAdded (s : State) : Nat :=
  266 * s.queue.count + tally Process.load s.processes

/-- What the processes do with the queue at hand is paid for by the messages they move. -/
structure PaidStep (s s' : State) : Prop where
  processes : s'.processes.length = s.processes.length
  removed : System.Paid State.untilRemoved (fun s => s.queue.removedCount) 274 s s'
  added : System.Paid State.untilAdded (fun s => s.queue.addedCount) 274 s s'

theorem WorkStep.paid {s s' : State} {p : Nat} {pr : Process} (h : WorkStep s s' p pr)
    (hp : s.processes[p]? = some pr) (hcall : pr.pc = .call →
      (pr.type = .producer → s.queue.freeSpace ≠ 0) ∧
      (pr.type = .consumer → s.queue.count ≠ 0)) : PaidStep s s' := by
  cases h with
  | nearer pr' hset hq hload =>
    have hsum := tally_set Process.load hp pr'
    rw [← hset] at hsum
    refine ⟨by simp [hset], ?_, ?_⟩
    · simp only [System.Paid, State.untilRemoved, hq]
      omega
    · simp only [System.Paid, State.untilAdded, hq]
      omega
  | enqueue pr' htype hpc hset hq hload =>
    have hroom := (hcall hpc).1 htype
    have hsum := tally_set Process.load hp pr'
    rw [← hset] at hsum
    rw [Lab4.enqueue, if_neg hroom] at hq
    refine ⟨by simp [hset], ?_, ?_⟩
    · simp only [System.Paid, State.untilRemoved, hq]
      omega
    · simp only [System.Paid, State.untilAdded, hq]
      omega
  | dequeue pr' htype hpc hset hq hload =>
    have hitem := (hcall hpc).2 htype
    have hsum := tally_set Process.load hp pr'
    rw [← hset] at hsum
    rw [Lab4.dequeue, if_neg hitem] at hq
    refine ⟨by simp [hset], ?_, ?_⟩
    · simp only [System.Paid, State.untilRemoved, hq]
      omega
    · simp only [System.Paid, State.untilAdded, hq]
      omega

theorem deliverStep_work {s s' : State} {p : Nat} {pr : Process}
    (h : deliverStep s p pr = some s') : WorkStep s s' p pr := by
  obtain ⟨type, pc, flag, pending, msg, slot, hash, taken⟩ := pr
  simp only [deliverStep] at h
  split_ifs at h with hp hstart
  · cases h
    obtain rfl : pending = true := hp.1
    refine .nearer _ rfl rfl ?_
    simp [Process.load, Process.rank]
  · cases h
    obtain rfl : pending = true := hp.1
    refine .nearer _ rfl rfl ?_
    simp [Process.load, Process.rank]

theorem step_paid {limit : Nat} {s s' : State} {a : Action} (ha : Accounted s)
    (hok : OfProcess a) (h : (program limit).step s a = some s') : PaidStep s s' := by
  cases a with
  | process p rand =>
    obtain ⟨pr, hp, hstep⟩ := Option.bind_eq_some_iff.mp h
    exact (processStep_work hstep).paid hp (ha.call hp)
  | deliver p =>
    obtain ⟨pr, hp, hstep⟩ := Option.bind_eq_some_iff.mp h
    exact (deliverStep_work hstep).paid hp (ha.call hp)
  | create | kill | reap | interrupt => exact hok.elim

/-- The processes cannot go on for long without moving messages: in a run of their steps alone,
whatever the order, the length of the run bounds the messages added and removed from below. -/
theorem messages_moved {limit : Nat} {s t : State}
    (hs : (program limit).Reach (fun _ a => NotInterrupt a) s) (as : List Action)
    (hok : ∀ a ∈ as, OfProcess a) (h : (program limit).run s as = some t) :
    as.length ≤ 80 + 267 * s.processes.length +
      274 * (t.queue.removedCount - s.queue.removedCount) ∧
    as.length ≤ 2660 + 267 * s.processes.length +
      274 * (t.queue.addedCount - s.queue.addedCount) := by
  have ha := reach_accounted hs
  have hkeep (s : State) (a : Action) (t : State) (hi : Accounted s) (hok : OfProcess a)
      (h : (program limit).step s a = some t) : Accounted t :=
    step_accounted hi hok.notInterrupt h
  have hload : tally Process.load s.processes ≤ s.processes.length * 267 :=
    tally_le_mul fun pr _ => pr.load_le
  have hremoved := System.run_length_le hkeep (fun s a t hi hok h => (step_paid hi hok h).removed)
    ha as hok h
  have hadded := System.run_length_le hkeep (fun s a t hi hok h => (step_paid hi hok h).added)
    ha as hok h
  have hsum : s.queue.count + s.queue.freeSpace = 10 := (reach_ringOf hs).sum_eq
  simp only [State.untilRemoved] at hremoved
  simp only [State.untilAdded] at hadded
  omega

/-- A producer and a consumer after their creation. -/
def bothCreated : List Action := [.create .producer true .zero, .create .consumer true .zero]

theorem messages_moved_first :
    ∃ s t, (program 100).Reach (fun _ a => NotInterrupt a) s ∧
      (program 100).run s (List.replicate 8 (.process 0 id)) = some t ∧
      8 ≤ 80 + 267 * s.processes.length +
        274 * (t.queue.removedCount - s.queue.removedCount) := by
  obtain ⟨s, hs, hm⟩ := System.exists_reach_of_run (M := program 100)
    (fun _ a => NotInterrupt a) bothCreated
    (fun s => ((program 100).run s (List.replicate 8 (.process 0 id))).isSome)
    (by decide) (by decide)
  obtain ⟨t, ht⟩ := Option.isSome_iff_exists.mp hm
  have hok : ∀ a ∈ List.replicate 8 (Action.process 0 id), OfProcess a := by
    intro a ha
    rw [List.eq_of_mem_replicate ha]
    trivial
  exact ⟨s, t, hs, ht, (messages_moved hs _ hok ht).1⟩

/-- The hash of a message is computed from the cell that the process took, which is then noted. -/
def Process.HasCell (pr : Process) : Prop :=
  (pr.slot.isSome = pr.taken.isSome) ∧
  match pr.pc with
  | .hashType | .hashData _ | .compare => pr.slot.isSome = true
  | _ => True

theorem processStep_hasCell {s s' : State} {p : Nat} {pr : Process} {rand : Nat → Nat}
    (h : processStep s p pr rand = some s') (hc : pr.HasCell) :
    ∃ pr', s'.processes = s.processes.set p pr' ∧ pr'.HasCell := by
  obtain ⟨type, pc, flag, pending, msg, slot, hash, taken⟩ := pr
  obtain ⟨hsame, hcell⟩ := hc
  cases pc <;> simp only [processStep] at h
  case start | generate | signalAccess | delay =>
    cases h
    exact ⟨_, rfl, hsame, trivial⟩
  case loopTest =>
    split_ifs at h
    all_goals
      cases h
      exact ⟨_, rfl, hsame, trivial⟩
  case testMsg =>
    split_ifs at h with hslot
    · cases h
      exact ⟨_, rfl, hsame, hslot⟩
    · cases h
      exact ⟨_, rfl, hsame, trivial⟩
  case waitFirst =>
    obtain ⟨sem, -, rfl⟩ := Option.map_eq_some_iff.mp h
    exact ⟨_, rfl, hsame, trivial⟩
  case waitAccess =>
    obtain ⟨sem, -, rfl⟩ := Option.map_eq_some_iff.mp h
    cases type <;> exact ⟨_, rfl, hsame, trivial⟩
  case call =>
    cases type <;> cases h
    · exact ⟨_, rfl, by simp, trivial⟩
    · exact ⟨_, rfl, hsame, trivial⟩
  case signalLast =>
    cases h
    cases type <;> exact ⟨_, rfl, hsame, trivial⟩
  case hashType =>
    obtain ⟨cell, -, rfl⟩ := Option.map_eq_some_iff.mp h
    exact ⟨_, rfl, hsame, hcell⟩
  case hashData i =>
    obtain ⟨cell, -, rfl⟩ := Option.map_eq_some_iff.mp h
    split_ifs <;> exact ⟨_, rfl, hsame, hcell⟩
  case compare =>
    obtain ⟨cell, -, h⟩ := Option.bind_eq_some_iff.mp h
    obtain ⟨t, -, rfl⟩ := Option.map_eq_some_iff.mp h
    exact ⟨_, rfl, hsame, trivial⟩
  case exited => cases h

/-- Every process has noted what it took. -/
def HaveCells (s : State) : Prop :=
  ∀ (p : Nat) (pr : Process), s.processes[p]? = some pr → pr.HasCell

theorem init_haveCells : HaveCells State.init := by
  simp [HaveCells, State.init]

theorem step_haveCells {limit : Nat} {s s' : State} {a : Action} (hi : HaveCells s)
    (hok : NotInterrupt a) (h : (program limit).step s a = some s') : HaveCells s' := by
  cases step_cases h with
  | refused hs =>
    subst hs
    exact hi
  | fork type stack hread hs =>
    subst hs
    exact forall_entry_append ⟨rfl, trivial⟩ hi
  | forkFails type stack hread hs =>
    subst hs
    exact hi
  | kill index pid hread hpid hs =>
    subst hs
    intro p pr hp
    simp only [List.getElem?_modify] at hp
    obtain ⟨x, hx, rfl⟩ := Option.map_eq_some_iff.mp hp
    have hcell := hi p x hx
    split_ifs <;> exact hcell
  | reap index pid pr hwait hp hexit hs =>
    subst hs
    exact hi
  | process p rand pr hp hstep =>
    obtain ⟨pr', hset, hcell⟩ := processStep_hasCell hstep (hi p pr hp)
    exact forall_entry_set hset hcell fun u x _ hx => hi u x hx
  | deliver p pr hp hstep =>
    obtain ⟨hsame, hcell⟩ := hi p pr hp
    simp only [deliverStep] at hstep
    split_ifs at hstep with hpending hstart
    · cases hstep
      exact forall_entry_set rfl ⟨hsame, trivial⟩ fun u x _ hx => hi u x hx
    · cases hstep
      exact forall_entry_set rfl ⟨hsame, hcell⟩ fun u x _ hx => hi u x hx
  | interrupt p pr hp hstep => exact hok.elim

theorem reach_haveCells {limit : Nat} {s : State}
    (h : (program limit).Reach (fun _ a => NotInterrupt a) s) : HaveCells s := by
  apply h.invariant init_haveCells
  intro s a t hi hg ht
  exact step_haveCells hi hg ht

/-- The process is at its first `wait_semaphore`, and there is nothing for it in the queue. -/
def Process.AwaitsQueue (q : MessageQueue) (pr : Process) : Prop :=
  pr.pc = .waitFirst ∧
  match pr.type with
  | .producer => q.freeSpace = 0
  | .consumer => q.count = 0

theorem backing_first {q : MessageQueue} {pr : Process} (hpc : pr.pc = .waitFirst) :
    pr.AwaitsQueue q ↔ backing q pr.type.first = 0 := by
  unfold Process.AwaitsQueue
  cases htype : pr.type <;> simp [hpc, ProcessType.first, backing]

/-- Only a wait holds a process up. -/
theorem processStep_isSome {s : State} {p : Nat} {pr : Process} (hcell : pr.HasCell)
    (hexit : pr.pc ≠ .exited) (rand : Nat → Nat)
    (hfirst : pr.pc = .waitFirst → 0 < s.sem pr.type.first)
    (haccess : pr.pc = .waitAccess → 0 < s.sem .queueAccess) :
    (processStep s p pr rand).isSome = true := by
  obtain ⟨type, pc, flag, pending, msg, slot, hash, taken⟩ := pr
  obtain ⟨hsame, hcell⟩ := hcell
  cases pc <;> simp only [processStep]
  case waitFirst => simp [waitSemaphore, hfirst rfl]
  case waitAccess => simp [waitSemaphore, haccess rfl]
  case call => cases type <;> simp
  case loopTest | testMsg => split_ifs <;> simp
  case hashType | hashData => simpa using hcell
  case compare =>
    obtain ⟨cell, rfl⟩ := Option.isSome_iff_exists.mp hcell
    obtain ⟨t, rfl⟩ := Option.isSome_iff_exists.mp hsame.symm
    simp
  case exited => exact absurd rfl hexit
  all_goals simp

/-- No process can take a step, whatever `rand` returns. -/
def Blocked (s : State) : Prop :=
  ∀ (p : Nat) (pr : Process), s.processes[p]? = some pr → ∀ rand, processStep s p pr rand = none

theorem blocked_iff_step (limit : Nat) (s : State) :
    Blocked s ↔ ∀ p rand, (program limit).step s (.process p rand) = none := by
  simp only [program, Option.bind_eq_none_iff]
  constructor
  · intro h p rand pr hp
    exact h p pr hp rand
  · intro h p pr hp rand
    exact h p rand pr hp

section

variable {s : State}

/-- Who is between the wait and the signal on `QUEUE_ACCESS_SEM` can go on. -/
theorem Blocked.access (hb : Blocked s) (ha : Accounted s) (hc : HaveCells s) :
    0 < s.sem .queueAccess := by
  by_contra hzero
  have hunits : tally (fun pr => pr.units .queueAccess) s.processes = 0 := by
    apply tally_eq_zero
    intro pr hpr
    obtain ⟨p, hp⟩ := List.mem_iff_getElem?.mp hpr
    have hnone := hb p pr hp id
    by_contra hunits
    have hpc : pr.pc ≠ .exited ∧ pr.pc ≠ .waitFirst ∧ pr.pc ≠ .waitAccess := by
      refine ⟨?_, ?_, ?_⟩
      all_goals
        intro hpc
        simp [Process.units, hpc] at hunits
    have hsome := processStep_isSome (s := s) (p := p) (hc p pr hp) hpc.1 id
      (fun h => absurd h hpc.2.1) (fun h => absurd h hpc.2.2)
    simp [hnone] at hsome
  have haccess := ha .queueAccess
  simp only [hunits, backing] at haccess
  omega

theorem Blocked.waits (hb : Blocked s) (ha : Accounted s) (hc : HaveCells s) {p : Nat}
    {pr : Process} (hp : s.processes[p]? = some pr) (hexit : pr.pc ≠ .exited) :
    pr.pc = .waitFirst ∧ s.sem pr.type.first = 0 := by
  have hnone := hb p pr hp id
  have haccess := hb.access ha hc
  by_contra hwait
  have hsome := processStep_isSome (s := s) (p := p) (hc p pr hp) hexit id
    (fun hpc => Nat.pos_of_ne_zero fun hsem => hwait ⟨hpc, hsem⟩) (fun _ => haccess)
  simp [hnone] at hsome

theorem Blocked.sem_eq (hb : Blocked s) (ha : Accounted s) (hc : HaveCells s)
    (n : SemaphoreType) : s.sem n = backing s.queue n := by
  have hunits : tally (fun pr => pr.units n) s.processes = 0 := by
    apply tally_eq_zero
    intro pr hpr
    obtain ⟨p, hp⟩ := List.mem_iff_getElem?.mp hpr
    apply units_of_not_inSection
    by_cases hexit : pr.pc = .exited
    · simp [hexit, Pc.inSection]
    · simp [(hb.waits ha hc hp hexit).1, Pc.inSection]
  have hn := ha n
  omega

theorem blocked_of_waits (ha : Accounted s)
    (h : ∀ pr ∈ s.processes, pr.pc = .exited ∨ pr.AwaitsQueue s.queue) : Blocked s := by
  intro p pr hp rand
  rcases h pr (List.mem_of_getElem? hp) with hexit | hawait
  · simp [processStep, hexit]
  · have hn := ha pr.type.first
    rw [(backing_first hawait.1).mp hawait] at hn
    have hsem : s.sem pr.type.first = 0 := by omega
    simp [processStep, hawait.1, waitSemaphore, hsem]

end

/-- The processes come to a halt only where each that has not exited waits for the queue, so
never while a producer and a consumer are left. -/
theorem blocked_iff {limit : Nat} {s : State}
    (hs : (program limit).Reach (fun _ a => NotInterrupt a) s) :
    ((∀ p rand, (program limit).step s (.process p rand) = none) ↔
      ∀ pr ∈ s.processes, pr.pc = .exited ∨ pr.AwaitsQueue s.queue) ∧
    ((∃ pr ∈ s.processes, pr.type = .producer ∧ pr.pc ≠ .exited) →
      (∃ pr ∈ s.processes, pr.type = .consumer ∧ pr.pc ≠ .exited) →
      ∃ p rand, (program limit).step s (.process p rand) ≠ none) := by
  have ha := reach_accounted hs
  have hc := reach_haveCells hs
  have hiff : Blocked s ↔ ∀ pr ∈ s.processes, pr.pc = .exited ∨ pr.AwaitsQueue s.queue := by
    constructor
    · intro hb pr hpr
      obtain ⟨p, hp⟩ := List.mem_iff_getElem?.mp hpr
      by_cases hexit : pr.pc = .exited
      · exact .inl hexit
      · obtain ⟨hpc, hsem⟩ := hb.waits ha hc hp hexit
        rw [hb.sem_eq ha hc] at hsem
        exact .inr ((backing_first hpc).mpr hsem)
    · exact blocked_of_waits ha
  rw [← blocked_iff_step limit s]
  refine ⟨hiff, ?_⟩
  rintro ⟨pr, hpr, htype, hexit⟩ ⟨pr', hpr', htype', hexit'⟩
  by_contra hnone
  simp only [not_exists, not_not] at hnone
  have hall := hiff.mp ((blocked_iff_step limit s).mpr hnone)
  have hfree := ((hall pr hpr).resolve_left hexit).2
  have hcount := ((hall pr' hpr').resolve_left hexit').2
  simp only [htype] at hfree
  simp only [htype'] at hcount
  have hsum := (reach_ringOf hs).sum_eq
  simp [hfree, hcount, queueSize] at hsum

/-- With a producer and a consumer a process can always go on. -/
theorem blocked_iff_created :
    ∃ s, (program 100).Reach (fun _ a => NotInterrupt a) s ∧
      ∃ p rand, (program 100).step s (.process p rand) ≠ none := by
  obtain ⟨s, hs, hm⟩ := System.exists_reach_of_run (M := program 100)
    (fun _ a => NotInterrupt a) bothCreated
    (fun s => s.processes.any (fun pr => pr.type == .producer && pr.pc != .exited) &&
      s.processes.any (fun pr => pr.type == .consumer && pr.pc != .exited))
    (by decide) (by decide)
  simp only [Bool.and_eq_true, List.any_eq_true, beq_iff_eq, bne_iff_ne] at hm
  exact ⟨s, hs, (blocked_iff hs).2 hm.1 hm.2⟩

end Osisp.Lab4
