import Osisp.Lab4.Accounting

namespace Osisp.Lab4

open Osisp.Lib

/-- The semaphore of the `wait_semaphore` the process is at. -/
def Process.waitsOn (pr : Process) : Option SemaphoreType :=
  match pr.pc with
  | .waitFirst => some pr.type.first
  | .waitAccess => some .queueAccess
  | _ => none

/-- No child process but `p` exists. -/
def Alone (s : State) (p : Nat) : Prop :=
  ∀ q, q < s.processes.length → q ≠ p → At s.processes q (fun pr => pr.pc = .exited)

/-- The parent is in `waitpid` for a child whose handler has run, the child is blocked in
`semop`, and nobody is left to signal the semaphore. -/
def KillHangs (s : State) : Prop :=
  ∃ index p pr semNum, s.parent = .waitpid index p ∧ s.processes[p]? = some pr ∧
    pr.terminateFlag = true ∧ pr.waitsOn = some semNum ∧ s.sem semNum = 0 ∧ Alone s p

/-- The handler does not run after the test of `terminate_flag` and before a `semop` that only
another process could end, when there is no other process. -/
def HandlerInTime (s : State) : Action → Prop
  | .deliver p =>
    ¬(At s.processes p (fun pr => pr.pc = .waitFirst ∧ s.sem pr.type.first = 0) ∧ Alone s p)
  | _ => True

instance (s : State) (p : Nat) : Decidable (Alone s p) :=
  inferInstanceAs (Decidable (∀ q, q < s.processes.length → q ≠ p → At s.processes q _))

instance (s : State) : (a : Action) → Decidable (HandlerInTime s a)
  | .deliver _ => inferInstanceAs (Decidable (¬(At s.processes _ _ ∧ Alone s _)))
  | .create .. | .kill _ | .reap | .process .. | .interrupt _ => isTrue trivial

/-- A `SIGUSR1` is on its way to the process or has been handled. -/
def Process.marked (pr : Process) : Bool := pr.terminateFlag || pr.pending

/-- What holds while every handler runs in time. -/
structure Waited (s : State) : Prop where
  /-- Only the child the parent waits for has been killed and still exists. -/
  awaited : ∀ (p : Nat) (pr : Process), s.processes[p]? = some pr → pr.pc ≠ .exited →
    pr.marked = true → ∃ index, s.parent = .waitpid index p
  /-- A killed process at its first wait gets through it, or another process exists. -/
  led : ∀ (p : Nat) (pr : Process), s.processes[p]? = some pr → pr.pc = .waitFirst →
    pr.terminateFlag = true → s.sem pr.type.first = 0 → ¬Alone s p
  /-- The right to enter is in its semaphore or with a process inside. -/
  access : 1 ≤ s.sem .queueAccess + tally (fun pr => pr.units .queueAccess) s.processes

theorem units_of_exited {pr : Process} (h : pr.pc = .exited) (semNum : SemaphoreType) :
    pr.units semNum = 0 := by
  apply units_of_not_inSection
  rw [h]
  rfl

theorem Waited.not_hangs {s : State} (hw : Waited s) : ¬KillHangs s := by
  rintro ⟨index, p, pr, semNum, -, hp, hflag, hwait, hzero, halone⟩
  unfold Process.waitsOn at hwait
  split at hwait
  · rename_i hpc
    cases hwait
    exact hw.led p pr hp hpc hflag hzero halone
  · rename_i hpc
    cases hwait
    -- nobody is inside, so the unit of the semaphore is in it
    have hnone : tally (fun pr => pr.units .queueAccess) s.processes = 0 := by
      refine tally_eq_zero fun x hx => ?_
      obtain ⟨q, hq⟩ := List.mem_iff_getElem?.mp hx
      by_cases hqp : q = p
      · subst hqp
        obtain rfl : pr = x := Option.some.inj (hp.symm.trans hq)
        simp [Process.units, hpc]
      · have hexit := halone q (List.getElem?_eq_some_iff.mp hq).1 hqp
        exact units_of_exited ((at_of_getElem? hq _).mp hexit) _
    have haccess := hw.access
    omega
  · cases hwait

/-- A step of a process leaves the marks, keeps the unit of the queue's semaphore in the books,
and lets only a process that is not marked go on to its first wait. -/
theorem processStep_marks {s s' : State} {p : Nat} {pr : Process} {rand : Nat → Nat}
    (h : processStep s p pr rand = some s') :
    ∃ pr', s'.processes = s.processes.set p pr' ∧ s'.parent = s.parent ∧
      pr'.terminateFlag = pr.terminateFlag ∧ pr'.pending = pr.pending ∧ pr.pc ≠ .exited ∧
      (pr'.pc = .waitFirst → pr.terminateFlag = false) ∧
      (pr'.pc = .exited → pr.terminateFlag = true) ∧
      s'.sem .queueAccess + pr'.units .queueAccess =
        s.sem .queueAccess + pr.units .queueAccess := by
  obtain ⟨type, pc, flag, pending, msg, slot, hash, taken⟩ := pr
  cases pc <;> simp only [processStep] at h
  case start | generate | delay =>
    cases h
    exact ⟨_, rfl, rfl, rfl, rfl, by simp, by simp, by simp, rfl⟩
  case loopTest =>
    split_ifs at h with hflag
    · cases h
      exact ⟨_, rfl, rfl, rfl, rfl, by simp, by simp, fun _ => hflag, rfl⟩
    · cases h
      exact ⟨_, rfl, rfl, rfl, rfl, by simp, fun _ => by simpa using hflag, by simp, rfl⟩
  case testMsg =>
    split_ifs at h <;> cases h <;> exact ⟨_, rfl, rfl, rfl, rfl, by simp, by simp, by simp, rfl⟩
  case waitFirst =>
    obtain ⟨sem, hsem, rfl⟩ := Option.map_eq_some_iff.mp h
    refine ⟨_, rfl, rfl, rfl, rfl, by simp, by simp, by simp, ?_⟩
    have hu := waitSemaphore_units hsem .queueAccess
    cases type <;> simpa [Process.units, ProcessType.first, State.put] using hu
  case waitAccess =>
    obtain ⟨sem, hsem, rfl⟩ := Option.map_eq_some_iff.mp h
    refine ⟨_, rfl, rfl, rfl, rfl, by simp, ?_, ?_, ?_⟩
    · cases type <;> simp [ProcessType.entered]
    · cases type <;> simp [ProcessType.entered]
    · have hu := waitSemaphore_units hsem .queueAccess
      cases type <;> simpa [Process.units, ProcessType.entered, State.put] using hu
  case call =>
    cases type <;> cases h <;> exact ⟨_, rfl, rfl, rfl, rfl, by simp, by simp, by simp, rfl⟩
  case signalAccess =>
    cases h
    refine ⟨_, rfl, rfl, rfl, rfl, by simp, by simp, by simp, ?_⟩
    simp [signalSemaphore_units, Process.units]
  case signalLast =>
    cases h
    refine ⟨_, rfl, rfl, rfl, rfl, by simp, ?_, ?_, ?_⟩
    · cases type <;> simp [ProcessType.left]
    · cases type <;> simp [ProcessType.left]
    · cases type <;>
        simp [signalSemaphore_units, Process.units, ProcessType.last, ProcessType.left]
  case hashType =>
    obtain ⟨cell, -, rfl⟩ := Option.map_eq_some_iff.mp h
    exact ⟨_, rfl, rfl, rfl, rfl, by simp, by simp, by simp, rfl⟩
  case hashData i =>
    obtain ⟨cell, -, rfl⟩ := Option.map_eq_some_iff.mp h
    split_ifs <;> exact ⟨_, rfl, rfl, rfl, rfl, by simp, by simp, by simp, rfl⟩
  case compare =>
    obtain ⟨cell, -, h⟩ := Option.bind_eq_some_iff.mp h
    obtain ⟨t, -, rfl⟩ := Option.map_eq_some_iff.mp h
    exact ⟨_, rfl, rfl, rfl, rfl, by simp, by simp, by simp, rfl⟩
  case exited => cases h

/-- A handler that runs in a blocked `semop` takes the process past it. -/
theorem interruptStep_cases {s s' : State} {p : Nat} {pr : Process}
    (h : interruptStep s p pr = some s') :
    pr.pending = true ∧ pr.pc ≠ .exited ∧ ∃ pr', s' = s.put p pr' ∧ pr'.pc ≠ .waitFirst ∧
      pr'.pc ≠ .exited ∧ pr.units .queueAccess ≤ pr'.units .queueAccess := by
  obtain ⟨type, pc, flag, pending, msg, slot, hash, taken⟩ := pr
  simp only [interruptStep] at h
  by_cases hpend : pending = true
  · rw [if_pos hpend] at h
    cases pc <;> simp only [reduceCtorEq] at h
    case waitFirst =>
      split_ifs at h
      cases h
      exact ⟨hpend, by simp, _, rfl, by simp, by simp, Nat.zero_le _⟩
    case waitAccess =>
      split_ifs at h
      cases h
      refine ⟨hpend, by simp, _, rfl, ?_, ?_, Nat.zero_le _⟩ <;>
        cases type <;> simp [ProcessType.entered]
  · rw [if_neg hpend] at h
    cases h

theorem alone_set {s s' : State} {p : Nat} {pr' : Process}
    (hset : s'.processes = s.processes.set p pr') : Alone s' p ↔ Alone s p := by
  simp only [Alone, hset, List.length_set]
  exact forall_congr' fun q => forall_congr' fun _ =>
    forall_congr' fun hne => at_set_of_ne (Ne.symm hne) _ _ _

theorem Waited.unmarked {s : State} (hw : Waited s) (hread : s.parent = .reading) (p : Nat)
    (pr : Process) (hp : s.processes[p]? = some pr) (hlive : pr.pc ≠ .exited) :
    pr.marked = false := by
  by_contra hmark
  obtain ⟨index, hpar⟩ := hw.awaited p pr hp hlive (by simpa using hmark)
  rw [hread] at hpar
  cases hpar

theorem marked_of_flag {pr : Process} (h : pr.terminateFlag = true) : pr.marked = true := by
  rw [Process.marked, h, Bool.true_or]

theorem waited_of_unmarked {s : State}
    (h : ∀ (p : Nat) (pr : Process), s.processes[p]? = some pr → pr.pc ≠ .exited →
      pr.marked = false)
    (haccess : 1 ≤ s.sem .queueAccess + tally (fun pr => pr.units .queueAccess) s.processes) :
    Waited s where
  awaited p pr hp hlive hmark := by
    rw [h p pr hp hlive] at hmark
    cases hmark
  led p pr hp hpc hflag := by
    have hmark := h p pr hp (by rw [hpc]; exact Pc.noConfusion)
    rw [marked_of_flag hflag] at hmark
    cases hmark
  access := haccess

/-- The killed process itself moves; every other child that exists is unmarked. -/
theorem Waited.move {s s' : State} (hw : Waited s) {p : Nat} {pr pr' : Process}
    (hp : s.processes[p]? = some pr) (hset : s'.processes = s.processes.set p pr')
    (hparent : s'.parent = s.parent) (hlive : pr.pc ≠ .exited)
    (hmark : pr'.pc ≠ .exited → pr'.marked = true → pr.marked = true)
    (hexit : pr'.pc = .exited → pr.marked = true)
    (hled : pr'.pc = .waitFirst → pr'.terminateFlag = true → s'.sem pr'.type.first = 0 →
      ¬Alone s p)
    (haccess : s.sem .queueAccess + pr.units .queueAccess ≤
      s'.sem .queueAccess + pr'.units .queueAccess) : Waited s' where
  awaited := by
    rw [hparent]
    refine forall_entry_set hset (fun hl hm => ?_) fun q x _ hx => hw.awaited q x hx
    exact hw.awaited p pr hp hlive (hmark hl hm)
  led := by
    refine forall_entry_set hset (fun hpc hflag hzero => ?_) fun q x hne hx hpc hflag _ hal => ?_
    · rw [alone_set hset]
      exact hled hpc hflag hzero
    · -- another killed process means that this one is not, so it goes on existing
      have hlt : p < s'.processes.length := by
        rw [hset, List.length_set]
        exact (List.getElem?_eq_some_iff.mp hp).1
      have hgone := hal p hlt hne.symm
      rw [hset] at hgone
      have hdead := (at_set_self hp pr' _).mp hgone
      obtain ⟨i, hi⟩ := hw.awaited p pr hp hlive (hexit hdead)
      obtain ⟨j, hj⟩ := hw.awaited q x hx (by rw [hpc]; exact Pc.noConfusion)
        (marked_of_flag hflag)
      rw [hi] at hj
      exact hne (Parent.waitpid.inj hj).2.symm
  access := by
    have ht := tally_set (fun pr => pr.units .queueAccess) hp pr'
    have h := hw.access
    rw [hset]
    omega

theorem init_waited : Waited State.init where
  awaited p pr hp := by simp [State.init] at hp
  led p pr hp := by simp [State.init] at hp
  access := by decide

/-- The parent marks one child and waits for it; no other one that exists is marked. -/
theorem Waited.kill {s : State} (hw : Waited s) (hread : s.parent = .reading) (index pid : Nat) :
    Waited { s with
      processes := s.processes.modify pid (fun pr => { pr with pending := true })
      parent := .waitpid index pid } := by
  have hunmarked := hw.unmarked hread
  have hentry (q : Nat) (x : Process)
      (hx : (s.processes.modify pid fun pr => { pr with pending := true })[q]? = some x) :
      ∃ y, s.processes[q]? = some y ∧ x = if pid = q then { y with pending := true } else y := by
    rw [List.getElem?_modify] at hx
    obtain ⟨y, hy, rfl⟩ := Option.map_eq_some_iff.mp hx
    exact ⟨y, hy, by split_ifs <;> rfl⟩
  refine ⟨fun q x hx hlive hmark => ?_, fun q x hx hpc hflag => ?_, ?_⟩
  · obtain ⟨y, hy, rfl⟩ := hentry q x hx
    by_cases hq : pid = q
    · exact ⟨_, by rw [hq]⟩
    · rw [if_neg hq] at hlive hmark
      rw [hunmarked q y hy hlive] at hmark
      cases hmark
  · obtain ⟨y, hy, rfl⟩ := hentry q x hx
    have hflag' : y.terminateFlag = true := by split_ifs at hflag <;> exact hflag
    have hpc' : y.pc = .waitFirst := by split_ifs at hpc <;> exact hpc
    have hmark := hunmarked q y hy (by rw [hpc']; exact Pc.noConfusion)
    rw [marked_of_flag hflag'] at hmark
    cases hmark
  · have haccess := hw.access
    have ht := tally_modify (fun pr : Process => pr.units .queueAccess)
      (fun pr => { pr with pending := true }) (fun _ => rfl) s.processes pid
    simp only [ht]
    exact haccess

theorem Waited.reap {s : State} (hw : Waited s) {index pid : Nat} {pr : Process}
    (hwait : s.parent = .waitpid index pid) (hp : s.processes[pid]? = some pr)
    (hexit : pr.pc = .exited) :
    Waited { s with table := s.table.eraseIdx index, parent := .reading } := by
  refine waited_of_unmarked (fun q x hq hlive => ?_) hw.access
  by_contra hmark
  obtain ⟨i, hi⟩ := hw.awaited q x hq hlive (by simpa using hmark)
  rw [hwait] at hi
  obtain rfl := (Parent.waitpid.inj hi).2
  obtain rfl : pr = x := Option.some.inj (hp.symm.trans hq)
  exact hlive hexit

theorem marked_of_pending {pr : Process} (h : pr.pending = true) : pr.marked = true := by
  rw [Process.marked, h, Bool.or_true]

/-- The handler runs, in time. -/
theorem Waited.deliver {s s' : State} (hw : Waited s) {p : Nat} {pr : Process}
    (hp : s.processes[p]? = some pr) (hgood : HandlerInTime s (.deliver p))
    (h : deliverStep s p pr = some s') : Waited s' := by
  simp only [deliverStep] at h
  split_ifs at h with hpend hstart
  · cases h
    have hmark := marked_of_pending hpend.1
    refine hw.move hp rfl rfl hpend.2 (fun _ _ => hmark) (fun _ => hmark)
      (fun hpc => by cases hpc) ?_
    have hu : pr.units .queueAccess = 0 := units_of_not_inSection (by rw [hstart]; rfl) _
    rw [hu]
    exact Nat.le_add_right _ _
  · cases h
    have hmark := marked_of_pending hpend.1
    refine hw.move hp rfl rfl hpend.2 (fun _ _ => hmark) (fun _ => hmark)
      (fun hpc _ hzero halone => ?_) (Nat.le_refl _)
    exact hgood ⟨(at_of_getElem? hp _).mpr ⟨hpc, hzero⟩, halone⟩

theorem step_waited {limit : Nat} {s s' : State} {a : Action} (hw : Waited s)
    (hgood : HandlerInTime s a) (h : (program limit).step s a = some s') : Waited s' := by
  cases step_cases h with
  | refused hs =>
    subst hs
    exact hw
  | fork type stack hread hs =>
    subst hs
    have hunmarked := hw.unmarked hread
    refine waited_of_unmarked (fun p pr hp hlive => ?_) ?_
    · rcases entry_of_append hp with rfl | hp
      · rfl
      · exact hunmarked p pr hp hlive
    · have haccess := hw.access
      simp only [tally_append]
      omega
  | forkFails type stack hread hs =>
    subst hs
    exact waited_of_unmarked (hw.unmarked hread) hw.access
  | kill index pid hread hpid hs =>
    subst hs
    exact hw.kill hread index.toNat pid
  | reap index pid pr hwait hp hexit hs =>
    subst hs
    exact hw.reap hwait hp hexit
  | process p rand pr hp hstep =>
    obtain ⟨pr', hset, hparent, hflag, hpending, hlive, hfirst, hexit, hunits⟩ :=
      processStep_marks hstep
    have hmark : pr'.marked = pr.marked := by rw [Process.marked, hflag, hpending, Process.marked]
    refine hw.move hp hset hparent hlive (fun _ hm => hmark ▸ hm)
      (fun hpc => marked_of_flag (hexit hpc)) (fun hpc hf => ?_) (Nat.le_of_eq hunits.symm)
    rw [hflag, hfirst hpc] at hf
    cases hf
  | deliver p pr hp hstep => exact hw.deliver hp hgood hstep
  | interrupt p pr hp hstep =>
    obtain ⟨hpend, hlive, pr', rfl, hfirst, hexit, hunits⟩ := interruptStep_cases hstep
    have hmark := marked_of_pending hpend
    exact hw.move hp rfl rfl hlive (fun _ _ => hmark) (fun hpc => absurd hpc hexit)
      (fun hpc => absurd hpc hfirst) (Nat.add_le_add_left hunits _)

theorem reach_waited {limit : Nat} {s : State}
    (h : (program limit).Reach HandlerInTime s) : Waited s :=
  h.invariant init_waited fun _ _ _ hi hg ht => step_waited hi hg ht

/-- Killing a process ends in every run whose handlers all run in time, and one handler that
does not is enough to hang it. -/
theorem kill_ends_iff {limit : Nat} {s : State} (h : (program limit).Reach HandlerInTime s) :
    ¬KillHangs s ∧ ∀ a t, (program limit).step s a = some t →
      (¬KillHangs t ↔ HandlerInTime s a) := by
  have hw := reach_waited h
  refine ⟨hw.not_hangs, fun a t ht => ⟨fun hend => ?_, fun hgood => ?_⟩⟩
  · cases a with
    | deliver p =>
      rintro ⟨⟨pr, hp, hpc, hzero⟩, halone⟩
      apply hend
      obtain ⟨pr', hp', hstep⟩ := Option.bind_eq_some_iff.mp ht
      obtain rfl : pr = pr' := Option.some.inj (hp.symm.trans hp')
      simp only [deliverStep] at hstep
      split_ifs at hstep with hpend hstart
      · rw [hpc] at hstart
        cases hstart
      · cases hstep
        obtain ⟨index, hpar⟩ := hw.awaited p pr hp hpend.2 (marked_of_pending hpend.1)
        have hlt := (List.getElem?_eq_some_iff.mp hp).1
        exact ⟨index, p, _, pr.type.first, hpar, List.getElem?_set_self hlt, rfl,
          by simp only [Process.waitsOn, hpc], hzero, (alone_set rfl).mpr halone⟩
    | create | kill | reap | process | interrupt => exact trivial
  · exact (step_waited hw hgood ht).not_hangs

/-- The handler of a consumer runs when the consumer has tested `terminate_flag` and has not
called `semop` yet. -/
def lateHandler : List Action :=
  [.create .consumer true .zero, .process 0 id, .process 0 id, .kill 0, .deliver 0]

theorem kill_ends_iff_killed :
    ∃ s, (program 100).Reach HandlerInTime s ∧ s.table = [] ∧ s.processes.length = 1 ∧
      ¬KillHangs s ∧ ∀ a t, (program 100).step s a = some t →
        (¬KillHangs t ↔ HandlerInTime s a) := by
  obtain ⟨s, hs, hm⟩ := System.exists_reach_of_run (M := program 100) HandlerInTime
    killedConsumer (fun s => s.table == [] && s.processes.length == 1) (by decide) (by decide)
  simp only [Bool.and_eq_true, beq_iff_eq] at hm
  exact ⟨s, hs, hm.1, hm.2, kill_ends_iff hs⟩

theorem lateHandler_hangs : ¬∀ s, (program 100).Reachable s → ¬KillHangs s := by
  intro h
  obtain ⟨s, hs, hm⟩ := System.exists_reach_of_run (M := program 100) (fun _ _ => True)
    lateHandler (fun s => s.parent == .waitpid 0 0 && s.sem .elCount == 0 &&
      decide (At s.processes 0 (fun pr => pr.terminateFlag = true ∧
        pr.waitsOn = some .elCount)) && decide (Alone s 0)) (by decide) (by decide)
  simp only [Bool.and_eq_true, beq_iff_eq, decide_eq_true_eq] at hm
  obtain ⟨⟨⟨hpar, hzero⟩, pr, hp, hflag, hwait⟩, halone⟩ := hm
  exact h s hs ⟨0, 0, pr, .elCount, hpar, hp, hflag, hwait, hzero, halone⟩

end Osisp.Lab4
