import Osisp.Lab4.KillCommand

namespace Osisp.Lab4

open Osisp.Lib

/-- All children that were not killed have been terminated and waited for, and what the children
shared is gone. -/
structure LeavesNothing (t : ParentState) : Prop where
  children : ∀ c ∈ t.created, (c, Signal.sigusr1) ∉ t.signals →
    (c, Signal.sigterm) ∈ t.signals ∧ c ∈ t.reaped
  semaphores : t.semaphores = false
  segment : t.segment.attached = false ∧ t.segment.marked = true

/-- What the parent has set up. -/
structure Equipped (shmat : Address) (s : ParentState) : Prop where
  queue : s.queue = shmat.val
  semaphores : s.semaphores = true
  segment : s.segment = ⟨true, false⟩

theorem kill_keeps (s : ParentState) (pid : Nat) (sig : Signal) :
    (s.kill pid sig).queue = s.queue ∧ (s.kill pid sig).semaphores = s.semaphores ∧
      (s.kill pid sig).segment = s.segment ∧ (s.kill pid sig).children = s.children := by
  unfold ParentState.kill
  cases s.children.find? (·.pid = pid) with
  | none => exact ⟨rfl, rfl, rfl, rfl⟩
  | some c => exact ⟨rfl, rfl, rfl, rfl⟩

theorem waitpid_keeps (s : ParentState) (pid : Nat) :
    (s.waitpid pid).queue = s.queue ∧ (s.waitpid pid).semaphores = s.semaphores ∧
      (s.waitpid pid).segment = s.segment := by
  unfold ParentState.waitpid
  cases s.children.find? (·.pid = pid) with
  | none => exact ⟨rfl, rfl, rfl⟩
  | some c => exact ⟨rfl, rfl, rfl⟩

variable {shmat : Address} {s t : ParentState}

theorem Equipped.kill (h : Equipped shmat s) (index : Int) :
    Equipped shmat (killProcess s index) := by
  unfold killProcess
  split_ifs
  · exact h
  · dsimp only
    split_ifs
    · exact h
    · generalize s.table.processes.toList.getD index.toNat 0 = pid
      obtain ⟨hqueue, hsem, hsegment, -⟩ := kill_keeps s pid .sigusr1
      obtain ⟨hqueue', hsem', hsegment'⟩ := waitpid_keeps (s.kill pid .sigusr1) pid
      refine ⟨?_, ?_, ?_⟩
      · exact hqueue'.trans (hqueue.trans h.queue)
      · exact hsem'.trans (hsem.trans h.semaphores)
      · exact hsegment'.trans (hsegment.trans h.segment)

theorem Equipped.create (h : Equipped shmat s) {processType : UInt8} {fork : Option Nat}
    (hstep : createProcess s processType fork = some t) (hrun : t.running = true) :
    Equipped shmat t := by
  unfold createProcess at hstep
  split_ifs at hstep
  · cases fork with
    | none =>
      obtain rfl := Option.some.inj hstep
      cases hrun
    | some pid =>
      obtain ⟨-, hstep⟩ := Option.ite_none_left_eq_some.mp hstep
      obtain rfl := Option.some.inj hstep
      exact ⟨h.queue, h.semaphores, h.segment⟩
  · obtain rfl := Option.some.inj hstep
    exact h

theorem reach_equipped (h : (commandLoop shmat).Reachable s) :
    s.running = true → Equipped shmat s := by
  refine reach_running ⟨rfl, rfl, rfl⟩ ?_ (fun _ index he => he.kill index) h
  intro s t processType fork he hstep hrun
  exact he.create hstep hrun

/-- The loop over the table signals one child after the other. -/
theorem foldl_terminate (hnodup : (s.children.map Child.pid).Nodup)
    (hne : ∀ c ∈ s.children, c.pid ≠ 0) (cs : List Child) (hcs : ∀ c ∈ cs, c ∈ s.children) :
    (cs.map Child.pid).foldl (fun s pid => if pid ≠ 0 then s.kill pid .sigterm else s) s =
      { s with signals := s.signals ++ cs.map fun c => (c, .sigterm) } := by
  induction cs generalizing s with
  | nil =>
    rw [List.map_nil, List.map_nil, List.append_nil]
    rfl
  | cons c cs ih =>
    have hc := hcs c List.mem_cons_self
    have hkill : s.kill c.pid .sigterm = { s with signals := s.signals ++ [(c, .sigterm)] } := by
      rw [ParentState.kill, find_pid hnodup hc]
    have hrest := ih (s := { s with signals := s.signals ++ [(c, .sigterm)] }) hnodup hne
      fun d hd => hcs d (List.mem_cons_of_mem c hd)
    rw [List.map_cons, List.foldl_cons, if_pos (hne c hc), hkill, hrest, List.append_assoc]
    rfl

theorem terminateAll_eq (h : Consistent s) :
    terminateAll s = { s with signals := s.signals ++ s.children.map fun c => (c, .sigterm) } := by
  have hpids : s.table.entries.map Prod.fst = s.children.map Child.pid := by
    rw [h.entries, List.map_map]
    rfl
  rw [terminateAll, hpids]
  exact foldl_terminate h.pids_nodup h.pid_ne s.children fun c hc => hc

theorem cleanupAndExit_eq (hc : Consistent s) (he : Equipped shmat s) (waits : List Child) :
    cleanupAndExit s waits = { s with
      children := []
      signals := s.signals ++ s.children.map fun c => (c, .sigterm)
      reaped := s.reaped ++ waits
      semaphores := false
      segment := ⟨false, false⟩
      running := false } := by
  have hqueue : s.queue ≠ 0 := by
    rw [he.queue]
    exact shmat.property
  rw [cleanupAndExit, terminateAll_eq hc]
  simp only [if_neg hqueue, ParentState.exit, he.segment]

theorem quit_cases (hs : (commandLoop shmat).Reachable s) {turn : Turn} {buffer : List UInt8}
    (hbuffer : turn.buffer = some buffer) (hquit : readCommand buffer = ['q'.toUInt8])
    (hstep : (commandLoop shmat).step s turn = some t) :
    Consistent s ∧ Equipped shmat s ∧ turn.waits.Perm s.children ∧
      t = cleanupAndExit s turn.waits := by
  have hparse : commandOf ['q'.toUInt8] = .quit := by decide
  have hrun := (commandLoop_cases hstep).1
  rw [commandLoop_step hrun hbuffer, hquit, hparse] at hstep
  obtain ⟨hperm, hexit⟩ := Option.ite_none_right_eq_some.mp hstep
  exact ⟨reach_consistent hs hrun, reach_equipped hs hrun, hperm, (Option.some.inj hexit).symm⟩

/-- After every run that ends with `q` the children and the semaphores are gone, and the segment
stays in the system. -/
theorem quit_leaves_segment (hs : (commandLoop shmat).Reachable s) {turn : Turn}
    {buffer : List UInt8} (hbuffer : turn.buffer = some buffer)
    (hquit : readCommand buffer = ['q'.toUInt8])
    (hstep : (commandLoop shmat).step s turn = some t) :
    (∀ c ∈ t.created, (c, Signal.sigusr1) ∉ t.signals →
      (c, Signal.sigterm) ∈ t.signals ∧ c ∈ t.reaped) ∧
    t.semaphores = false ∧ t.segment.marked = false ∧ ¬LeavesNothing t := by
  obtain ⟨hc, he, hperm, rfl⟩ := quit_cases hs hbuffer hquit hstep
  rw [cleanupAndExit_eq hc he]
  refine ⟨fun c hcreated hkept => ?_, rfl, rfl, fun h => by cases h.segment.2⟩
  have hunkilled : (c, Signal.sigusr1) ∉ s.signals := fun hmem =>
    hkept (List.mem_append_left _ hmem)
  have halive : c ∈ s.children := by
    rw [← hc.alive]
    exact List.mem_filter.mpr ⟨hcreated, by simpa using hunkilled⟩
  constructor
  · exact List.mem_append_right _ (List.mem_map_of_mem halive)
  · exact List.mem_append_right _ (hperm.mem_iff.mpr halive)

/-- The round that ends the program after `+`. -/
def lastRound : Turn := ⟨some (line "q"), none, [firstChild]⟩

theorem lastRound_step :
    (commandLoop someAddress).step oneConsumer lastRound =
      some (cleanupAndExit oneConsumer [firstChild]) := by
  have hread : commandOf (readCommand (line "q")) = .quit := by decide
  have hstep : (commandLoop someAddress).step oneConsumer lastRound = _ :=
    commandLoop_step rfl rfl
  rw [hread] at hstep
  exact hstep

theorem quit_leaves_segment_one : ¬LeavesNothing (cleanupAndExit oneConsumer [firstChild]) := by
  have hread : readCommand (line "q") = ['q'.toUInt8] := by decide
  have hbuffer : lastRound.buffer = some (line "q") := rfl
  exact (quit_leaves_segment oneConsumer_reachable hbuffer hread lastRound_step).2.2.2

/-- After `+` and `q` the segment is not marked for removal. -/
theorem segment_left :
    (commandLoop someAddress).Reachable (cleanupAndExit oneConsumer [firstChild]) ∧
      ¬LeavesNothing (cleanupAndExit oneConsumer [firstChild]) := by
  refine ⟨.step oneConsumer_reachable trivial lastRound_step, fun h => ?_⟩
  have hmarked := h.segment.2
  rw [cleanupAndExit_eq (reach_consistent oneConsumer_reachable rfl)
    (reach_equipped oneConsumer_reachable rfl)] at hmarked
  cases hmarked

end Osisp.Lab4
