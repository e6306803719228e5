import Osisp.Lib.FrontPart
import Osisp.Lab4.ProcessTable

namespace Osisp.Lab4

open Osisp.Lib

/-- The processes created and not yet killed, in the order of their creation. -/
def ParentState.notKilled (s : ParentState) : List Child :=
  s.created.filter fun c => (c, Signal.sigusr1) ∉ s.signals

/-- The arrays hold the living children, and these are the processes not killed. -/
structure Consistent (s : ParentState) : Prop where
  pids : s.table.processes.toList.take s.table.processesCount = s.children.map Child.pid
  types : s.table.processesTypes.toList.take s.table.processesCount = s.children.map Child.type
  pids_nodup : (s.children.map Child.pid).Nodup
  pid_ne : ∀ c ∈ s.children, c.pid ≠ 0
  numbers : s.created.map Child.number = List.range s.created.length
  alive : s.notKilled = s.children
  gone : ∀ c ∈ s.created, c ∉ s.children → c ∈ s.reaped
  signalled : ∀ p ∈ s.signals, p.1 ∈ s.created

theorem length_take_processes (t : ProcessTable) :
    (t.processes.toList.take t.processesCount).length = t.processesCount := by
  rw [List.length_take, Vector.length_toList]
  exact Nat.min_eq_left t.count_le

theorem Consistent.count {s : ParentState} (h : Consistent s) :
    s.table.processesCount = s.children.length := by
  have hlen := congrArg List.length h.pids
  rwa [length_take_processes, List.length_map] at hlen

theorem Consistent.entries {s : ParentState} (h : Consistent s) :
    s.table.entries = s.children.map fun c => (c.pid, c.type) := by
  rw [ProcessTable.entries, h.pids, h.types, List.zip_map']

theorem Consistent.children_nodup {s : ParentState} (h : Consistent s) : s.children.Nodup :=
  List.Nodup.of_map Child.pid h.pids_nodup

theorem Consistent.mem_created {s : ParentState} (h : Consistent s) {c : Child}
    (hc : c ∈ s.children) : c ∈ s.created := by
  rw [← h.alive] at hc
  exact List.mem_of_mem_filter hc

theorem consistent_init (shmat : Address) : Consistent (.init shmat) where
  pids := rfl
  types := rfl
  pids_nodup := List.nodup_nil
  pid_ne := by simp [ParentState.init]
  numbers := rfl
  alive := rfl
  gone := by simp [ParentState.init]
  signalled := by simp [ParentState.init]

theorem find_pid {children : List Child} (hnodup : (children.map Child.pid).Nodup) {c : Child}
    (hc : c ∈ children) : children.find? (·.pid = c.pid) = some c := by
  induction children with
  | nil => cases hc
  | cons d children ih =>
    rw [List.map_cons, List.nodup_cons] at hnodup
    rcases List.mem_cons.mp hc with rfl | hc
    · rw [List.find?_cons_of_pos (by simp)]
    · have hne : d.pid ≠ c.pid := fun h => hnodup.1 (h ▸ List.mem_map_of_mem hc)
      rw [List.find?_cons_of_neg (by simpa using hne)]
      exact ih hnodup.2 hc

theorem Consistent.erase {s : ParentState} (h : Consistent s) {n : Nat} {c : Child}
    (hc : s.children[n]? = some c) : s.children.erase c = s.children.eraseIdx n := by
  obtain ⟨hn, rfl⟩ := List.getElem?_eq_some_iff.mp hc
  exact h.children_nodup.erase_getElem n hn

/-- `kill_process` with the index of a process. -/
theorem killProcess_of_getElem? {s : ParentState} (h : Consistent s) {n : Nat} {c : Child}
    (hc : s.children[n]? = some c) :
    killProcess s n = { s with
      table := s.table.remove n
      children := s.children.eraseIdx n
      signals := s.signals ++ [(c, .sigusr1)]
      reaped := s.reaped ++ [c] } := by
  obtain ⟨hn, -⟩ := List.getElem?_eq_some_iff.mp hc
  have hmem : c ∈ s.children := List.mem_of_getElem? hc
  have hfind := find_pid h.pids_nodup hmem
  have hcount := h.count
  have hindex : ¬((n : Int) < 0 ∨ (s.table.processesCount : Int) ≤ n) := by omega
  have hpid : s.table.processes.toList.getD n 0 = c.pid := by
    have htake := congrArg (fun pids => pids[n]?) h.pids
    have hlt : n < s.table.processesCount := by omega
    simp only [List.getElem?_take, List.getElem?_map, hc] at htake
    rw [if_pos hlt] at htake
    rw [List.getD_eq_getElem?_getD, htake]
    rfl
  rw [killProcess, if_neg hindex]
  simp only [Int.toNat_natCast, hpid, if_neg (h.pid_ne c hmem), ParentState.kill, hfind,
    ParentState.waitpid, h.erase hc]

theorem killProcess_invalid {s : ParentState} {index : Int}
    (h : index < 0 ∨ (s.table.processesCount : Int) ≤ index) : killProcess s index = s := by
  rw [killProcess, if_pos h]

/-- A process that is killed is taken out of the arrays and of the living ones. -/
theorem Consistent.kill {s : ParentState} (h : Consistent s) (index : Int) :
    Consistent (killProcess s index) := by
  by_cases hvalid : index < 0 ∨ (s.table.processesCount : Int) ≤ index
  · rw [killProcess_invalid hvalid]
    exact h
  · obtain ⟨n, rfl⟩ : ∃ n : Nat, index = n := ⟨index.toNat, by omega⟩
    have hcount := h.count
    have hn : n < s.children.length := by omega
    obtain ⟨c, hc⟩ : ∃ c, s.children[n]? = some c := ⟨_, List.getElem?_eq_getElem hn⟩
    have hmem : c ∈ s.children := List.mem_of_getElem? hc
    rw [killProcess_of_getElem? h hc]
    have hsub : ∀ c ∈ s.children.eraseIdx n, c ∈ s.children := fun c hc =>
      (List.eraseIdx_sublist _ _).subset hc
    refine ⟨?_, ?_, ?_, fun c hc => h.pid_ne c (hsub c hc), h.numbers, ?_, ?_, ?_⟩
    · change (shiftOut _ _ _).toList.take (s.table.processesCount - 1) = _
      rw [take_shiftOut _ (by omega) s.table.count_le, h.pids, List.eraseIdx_map]
    · change (shiftOut _ _ _).toList.take (s.table.processesCount - 1) = _
      rw [take_shiftOut _ (by omega) s.table.count_le, h.types, List.eraseIdx_map]
    · rw [← List.eraseIdx_map]
      exact h.pids_nodup.eraseIdx n
    · have hnew : (s.created.filter fun d => (d, Signal.sigusr1) ∉ s.signals ++ [(c, .sigusr1)]) =
          s.notKilled.filter (· != c) := by
        rw [ParentState.notKilled, List.filter_filter]
        apply List.filter_congr
        intro d _
        by_cases hself : d = c <;> simp [hself]
      change (s.created.filter fun d => (d, Signal.sigusr1) ∉ s.signals ++ [(c, .sigusr1)]) = _
      rw [hnew, h.alive, ← h.children_nodup.erase_eq_filter]
      exact h.erase hc
    · intro d hcreated hgone
      change d ∉ s.children.eraseIdx n at hgone
      rw [← h.erase hc] at hgone
      by_cases hself : d = c
      · exact List.mem_append_right _ (List.mem_singleton.mpr hself)
      · have hnot : d ∉ s.children := fun hd => hgone ((List.mem_erase_of_ne hself).mpr hd)
        exact List.mem_append_left _ (h.gone d hcreated hnot)
    · intro p hp
      rcases List.mem_append.mp hp with hp | hp
      · exact h.signalled p hp
      · rw [List.mem_singleton.mp hp]
        exact h.mem_created hmem

/-- A process that is created comes last, in the arrays and of the living ones. -/
theorem Consistent.create {s t : ParentState} (h : Consistent s) {processType : UInt8}
    {fork : Option Nat} (hstep : createProcess s processType fork = some t)
    (hrun : t.running = true) : Consistent t := by
  rw [createProcess] at hstep
  by_cases hroom : s.table.processesCount < maxProcessesCount
  · rw [dif_pos hroom] at hstep
    cases fork with
    | none =>
      obtain rfl := Option.some.inj hstep
      cases hrun
    | some pid =>
      dsimp only at hstep
      by_cases hpid : pid = 0 ∨ pid ∈ s.children.map Child.pid
      · rw [if_pos hpid] at hstep
        cases hstep
      rw [if_neg hpid] at hstep
      obtain rfl := Option.some.inj hstep
      obtain ⟨hne, hfresh⟩ := not_or.mp hpid
      generalize createdType processType = type
      have hnumber : ∀ c ∈ s.created, c.number ≠ s.created.length := by
        intro c hc heq
        have hrange : c.number ∈ s.created.map Child.number := List.mem_map_of_mem hc
        rw [h.numbers, List.mem_range] at hrange
        omega
      have hnew : (⟨s.created.length, pid, type⟩ : Child) ∉ s.created := fun hc => hnumber _ hc rfl
      refine ⟨?_, ?_, ?_, ?_, ?_, ?_, ?_, ?_⟩
      · change (s.table.processes.set _ pid).toList.take (s.table.processesCount + 1) = _
        rw [take_set _ hroom, h.pids, List.map_append]
        rfl
      · change (s.table.processesTypes.set _ type).toList.take (s.table.processesCount + 1) = _
        rw [take_set _ hroom, h.types, List.map_append]
        rfl
      · rw [List.map_append, List.nodup_append]
        refine ⟨h.pids_nodup, List.nodup_singleton _, ?_⟩
        intro a ha b hb heq
        obtain rfl := List.mem_singleton.mp hb
        exact hfresh (heq ▸ ha)
      · intro c hc
        rcases List.mem_append.mp hc with hc | hc
        · exact h.pid_ne c hc
        · rw [List.mem_singleton.mp hc]
          exact hne
      · rw [List.map_append, h.numbers, List.length_append, List.length_singleton,
          List.range_succ]
        rfl
      · have hunsent : (⟨s.created.length, pid, type⟩, Signal.sigusr1) ∉ s.signals :=
          fun hp => hnew (h.signalled _ hp)
        rw [← h.alive]
        simp only [ParentState.notKilled, List.filter_append]
        congr 1
        simp [hunsent]
      · intro c hc hgone
        rcases List.mem_append.mp hc with hc | hc
        · exact h.gone c hc fun hin => hgone (List.mem_append_left _ hin)
        · exact absurd (List.mem_append_right _ hc) hgone
      · intro p hp
        exact List.mem_append_left _ (h.signalled p hp)
  · rw [dif_neg hroom] at hstep
    obtain rfl := Option.some.inj hstep
    exact h

theorem reach_consistent {shmat : Address} {s : ParentState}
    (h : (commandLoop shmat).Reachable s) : s.running = true → Consistent s := by
  refine reach_running (consistent_init shmat) ?_ (fun _ index hc => hc.kill index) h
  intro s t processType fork hc hstep hrun
  exact hc.create hstep hrun

theorem commandOf_kill {digits : List UInt8} (hne : digits ≠ []) (hlen : digits.length ≤ 14)
    (hdigits : ∀ d ∈ digits, isDigit d = true) :
    commandOf ('k'.toUInt8 :: digits) = .kill (Int.bmod (digitsValue digits) (2 ^ 32)) := by
  have hvalue := strtol_digits hne (by omega) hdigits
  obtain ⟨d, ds, rfl⟩ := List.exists_cons_of_ne_nil hne
  have hother : ∀ c : UInt8, ¬('k'.toUInt8 :: d :: ds = [c]) := fun c h => by cases h
  have hkill : ('k'.toUInt8 :: d :: ds).head? = some 'k'.toUInt8 ∧
      isDigit (('k'.toUInt8 :: d :: ds).getD 1 0) = true := ⟨rfl, hdigits d List.mem_cons_self⟩
  rw [commandOf, if_neg (hother _), if_neg (hother _), if_neg (not_or.mpr ⟨hother _, hother _⟩),
    if_pos hkill, List.tail_cons, hvalue]

/-- The command `k` with the number `n` does what it says. -/
structure KillsNamed (n : Nat) (s t : ParentState) : Prop where
  named : n < s.table.processesCount → ∃ c, s.notKilled[n]? = some c ∧
    t.signals = s.signals ++ [(c, .sigusr1)] ∧ t.notKilled = s.notKilled.eraseIdx n ∧
    t.table.entries = s.table.entries.eraseIdx n
  beyond : s.table.processesCount ≤ n → t.signals = s.signals ∧ t.table = s.table

/-- The index that a number becomes is the number itself, or it is wrong unless the lower 32 bits of
the number are the index of a process. -/
theorem int32_index (n count : Nat) (hcount : count ≤ maxProcessesCount) :
    (n < count ∧ Int.bmod n (2 ^ 32) = n) ∨
      (count ≤ n ∧ (n < 2 ^ 32 ∨ count ≤ n % 2 ^ 32) ∧
        (Int.bmod n (2 ^ 32) < 0 ∨ (count : Int) ≤ Int.bmod n (2 ^ 32))) ∨
      (count ≤ n ∧ ¬(n < 2 ^ 32 ∨ count ≤ n % 2 ^ 32) ∧
        Int.bmod n (2 ^ 32) = (n % 2 ^ 32 : Nat)) := by
  rw [Int.bmod_def]
  rw [maxProcessesCount] at hcount
  split_ifs <;> omega

/-- The command `k` kills the process it names, unless its number is so long that it becomes the
index of a process by losing its upper bits. -/
theorem kill_command_iff {shmat : Address} {s : ParentState}
    (hs : (commandLoop shmat).Reachable s) (hrun : s.running = true) {digits buffer : List UInt8}
    (hne : digits ≠ []) (hlen : digits.length ≤ 14) (hdigits : ∀ d ∈ digits, isDigit d = true)
    {turn : Turn} (hbuffer : turn.buffer = some buffer)
    (hread : readCommand buffer = 'k'.toUInt8 :: digits) :
    ∃ t, (commandLoop shmat).step s turn = some t ∧
      (KillsNamed (digitsValue digits) s t ↔
        digitsValue digits < 2 ^ 32 ∨ s.table.processesCount ≤ digitsValue digits % 2 ^ 32) := by
  have hc := reach_consistent hs hrun
  have hcount := hc.count
  refine ⟨killProcess s (Int.bmod (digitsValue digits) (2 ^ 32)), ?_, ?_⟩
  · rw [commandLoop_step hrun hbuffer, hread, commandOf_kill hne hlen hdigits]
    rfl
  generalize digitsValue digits = n
  have hkills : ∀ {m : Nat} {c : Child}, s.children[m]? = some c →
      (killProcess s m).signals = s.signals ++ [(c, .sigusr1)] := fun hm => by
    rw [killProcess_of_getElem? hc hm]
  rcases int32_index n s.table.processesCount s.table.count_le with
    ⟨hlt, hindex⟩ | ⟨hle, hcond, hinvalid⟩ | ⟨hle, hcond, hindex⟩
  · rw [hindex]
    refine iff_of_true ⟨fun _ => ?_, fun hle => absurd hlt (by omega)⟩ (.inl ?_)
    · obtain ⟨c, hget⟩ : ∃ c, s.children[n]? = some c :=
        ⟨_, List.getElem?_eq_getElem (by omega)⟩
      have hnext := hc.kill n
      refine ⟨c, by rw [hc.alive]; exact hget, hkills hget, ?_, ?_⟩
      · rw [hnext.alive, hc.alive, killProcess_of_getElem? hc hget]
      · rw [hnext.entries, hc.entries, killProcess_of_getElem? hc hget, List.eraseIdx_map]
    · have hmax := s.table.count_le
      rw [maxProcessesCount] at hmax
      omega
  · rw [killProcess_invalid hinvalid]
    exact iff_of_true ⟨fun hlt => absurd hlt (by omega), fun _ => ⟨rfl, rfl⟩⟩ hcond
  · refine iff_of_false (fun h => ?_) hcond
    obtain ⟨c, hget⟩ : ∃ c, s.children[n % 2 ^ 32]? = some c :=
      ⟨_, List.getElem?_eq_getElem (by omega)⟩
    have hsignals := (h.beyond hle).1
    rw [hindex, hkills hget] at hsignals
    have hlength := congrArg List.length hsignals
    simp at hlength

/-- What `fgets` stores of a line. -/
def line (command : String) : List UInt8 := (command.toList ++ ['\n']).map Char.toUInt8

def someAddress : Address := ⟨4096, by decide⟩

def firstChild : Child := ⟨0, 10, .consumer⟩

/-- After `+`. -/
def oneConsumer : ParentState :=
  { ParentState.init someAddress with
    table := ProcessTable.empty.add (by decide) 10 .consumer
    children := [firstChild]
    created := [firstChild] }

/-- A round with a line for which `wait` has nothing to do. -/
def round (command : String) (fork : Option Nat) : Turn := ⟨some (line command), fork, []⟩

theorem oneConsumer_reachable : (commandLoop someAddress).Reachable oneConsumer := by
  have hread : commandOf (readCommand (line "+")) = .create '+'.toUInt8 := by decide
  have hstep : (commandLoop someAddress).step (.init someAddress) (round "+" (some 10)) = _ :=
    commandLoop_step rfl rfl
  rw [hread] at hstep
  exact .step .init trivial hstep

theorem kill_command_iff_first :
    ∃ t, (commandLoop someAddress).step oneConsumer (round "k0" none) = some t ∧
      KillsNamed (digitsValue [48]) oneConsumer t := by
  have hread : readCommand (line "k0") = 'k'.toUInt8 :: [48] := by decide
  have hdigits : ∀ d ∈ [48], isDigit d = true := List.forall_mem_singleton.mpr rfl
  have hbuffer : (round "k0" none).buffer = some (line "k0") := rfl
  obtain ⟨t, hstep, hiff⟩ :=
    kill_command_iff oneConsumer_reachable rfl (List.cons_ne_nil _ _) (by decide) hdigits
      hbuffer hread
  exact ⟨t, hstep, hiff.mpr (.inl (by decide))⟩

/-- With one process, `k4294967296` kills it. -/
theorem long_number_kills_first :
    (commandLoop someAddress).Reachable oneConsumer ∧
      ∃ t, (commandLoop someAddress).step oneConsumer (round "k4294967296" none) = some t ∧
        t.signals = [(firstChild, .sigusr1)] ∧ ¬KillsNamed 4294967296 oneConsumer t := by
  have hread : commandOf (readCommand (line "k4294967296")) = .kill (0 : Nat) := by decide
  have hfirst : oneConsumer.children[0]? = some firstChild := rfl
  have hkill := killProcess_of_getElem? (reach_consistent oneConsumer_reachable rfl) hfirst
  have hsignals : (killProcess oneConsumer (0 : Nat)).signals = [(firstChild, .sigusr1)] := by
    rw [hkill]
    rfl
  have hstep : (commandLoop someAddress).step oneConsumer (round "k4294967296" none) = _ :=
    commandLoop_step rfl rfl
  rw [hread] at hstep
  refine ⟨oneConsumer_reachable, _, hstep, hsignals, fun h => ?_⟩
  have hsame := (h.beyond (by decide)).1
  rw [hsignals] at hsame
  cases hsame

end Osisp.Lab4
