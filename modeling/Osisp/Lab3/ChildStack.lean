import Mathlib.Data.List.Nodup
import Osisp.Lab3.Parent

namespace Osisp.Lab3

open Osisp.Lib

/-- The children that were not killed, in the order of their creation. -/
def ParentState.notKilled (s : ParentState) : List Nat :=
  s.created.filter fun pid => ⟨pid, .sigkill⟩ ∉ s.sent

/-- The array lists the children that were not killed, and no other memory was written to; `q` kills
each of them once. -/
structure Faithful (s : ParentState) : Prop where
  inside : ∀ i ∈ s.writes, i < maxProcesses
  table : s.allProcesses.toList.take s.processCount = s.notKilled
  quits : s.running = true → ∀ fork, ∃ t new,
    parent.step s ⟨some ['q'.toUInt8], fork⟩ = some t ∧ t.sent = s.sent ++ new ∧
      ∀ pid ∈ s.notKilled, new.count ⟨pid, .sigkill⟩ = 1

/-- A new child finds room in the array. -/
def Room (s : ParentState) (turn : Turn) : Prop :=
  turn.symbol = some ['+'.toUInt8] → turn.fork.isSome → s.processCount < maxProcesses

/-- What the commands keep as long as there is room. -/
structure Sound (s : ParentState) : Prop where
  count_le : s.processCount ≤ maxProcesses
  inside : ∀ i ∈ s.writes, i < maxProcesses
  table : s.allProcesses.toList.take s.processCount = s.notKilled
  created_nodup : s.created.Nodup
  killed : ∀ x ∈ s.sent, x.signal = .sigkill → x.pid ∈ s.created

variable {s t : ParentState}

theorem init_sound : Sound .init where
  count_le := Nat.zero_le _
  inside := by simp [ParentState.init]
  table := rfl
  created_nodup := List.nodup_nil
  killed := by simp [ParentState.init]

theorem Sound.notKilled_nodup (h : Sound s) : s.notKilled.Nodup := h.created_nodup.filter _

theorem notKilled_kill (s : ParentState) (pid : Nat) :
    (s.kill pid .sigkill).notKilled = s.notKilled.filter (· ≠ pid) := by
  rw [ParentState.notKilled, ParentState.notKilled, List.filter_filter]
  apply List.filter_congr
  intro other _
  by_cases hself : other = pid <;> simp [ParentState.kill, hself]

theorem notKilled_send (s : ParentState) {new : List Sent} (hnew : ∀ x ∈ new, x.signal ≠ .sigkill) :
    { s with sent := s.sent ++ new }.notKilled = s.notKilled := by
  rw [ParentState.notKilled, ParentState.notKilled]
  apply List.filter_congr
  intro pid _
  have hother : ⟨pid, .sigkill⟩ ∉ new := fun h => hnew _ h rfl
  simp [hother]

theorem Sound.create (h : Sound s) {fork : Option Nat}
    (hroom : fork.isSome → s.processCount < maxProcesses)
    (hstep : createChild s fork = some t) : Sound t := by
  cases fork with
  | none =>
    obtain rfl := Option.some.inj hstep
    exact ⟨h.count_le, h.inside, h.table, h.created_nodup, h.killed⟩
  | some pid =>
    have hlt := hroom rfl
    obtain ⟨hpid, hstep⟩ := Option.ite_none_left_eq_some.mp hstep
    obtain ⟨-, hfresh⟩ := not_or.mp hpid
    obtain rfl := Option.some.inj hstep
    refine ⟨hlt, ?_, ?_, ?_, ?_⟩
    · intro i hi
      rcases List.mem_append.mp hi with hi | hi
      · exact h.inside i hi
      · rw [List.mem_singleton.mp hi]
        exact hlt
    · have hunsent : (⟨pid, .sigkill⟩ : Sent) ∉ s.sent := fun hx => hfresh (h.killed _ hx rfl)
      change (dite _ _ _ : Vector Nat maxProcesses).toList.take (s.processCount + 1) =
        (s.created ++ [pid]).filter _
      rw [dif_pos hlt, take_set _ hlt, h.table, List.filter_append]
      congr 1
      simp [ParentState.append, hunsent]
    · rw [List.nodup_append]
      refine ⟨h.created_nodup, List.nodup_singleton _, ?_⟩
      intro a ha b hb heq
      obtain rfl := List.mem_singleton.mp hb
      exact hfresh (heq ▸ ha)
    · intro x hx hkill
      exact List.mem_append_left _ (h.killed x hx hkill)

/-- `kill_last_process` kills the youngest child of the array and takes it off. -/
theorem Sound.killLast (h : Sound s) {n : Nat} (hn : s.processCount = n + 1) :
    ∃ pid, killLastProcess s =
        { s with processCount := n, sent := s.sent ++ [⟨pid, .sigkill⟩] } ∧
      s.notKilled = (killLastProcess s).notKilled ++ [pid] ∧ Sound (killLastProcess s) := by
  have hle := h.count_le
  let pid := s.allProcesses.toList.getD n 0
  let u := { s with processCount := n }.kill pid .sigkill
  have hkill : killLastProcess s = u := by
    rw [killLastProcess, hn, if_pos (Nat.succ_pos n), Nat.add_sub_cancel]
  have hsplit : s.notKilled = s.allProcesses.toList.take n ++ [pid] := by
    rw [← h.table, hn]
    exact take_last _ (by omega) 0
  have hmem : pid ∈ s.notKilled := by
    rw [hsplit]
    exact List.mem_append_right _ (List.mem_singleton_self pid)
  have hrest : u.notKilled = s.allProcesses.toList.take n := by
    have hfilter : u.notKilled = s.notKilled.filter (· ≠ pid) := notKilled_kill _ pid
    have hself : [pid].filter (· ≠ pid) = [] := by simp
    have hnodup := h.notKilled_nodup
    rw [hsplit, List.nodup_append] at hnodup
    rw [hfilter, hsplit, List.filter_append, hself, List.append_nil, List.filter_eq_self]
    intro other hother
    exact decide_eq_true (hnodup.2.2 other hother pid (List.mem_singleton_self pid))
  rw [hkill]
  refine ⟨pid, rfl, ?_, ?_, h.inside, hrest.symm, h.created_nodup, ?_⟩
  · rw [hrest]
    exact hsplit
  · change n ≤ _
    omega
  · intro x hx hsigkill
    rcases List.mem_append.mp hx with hx | hx
    · exact h.killed x hx hsigkill
    · rw [List.mem_singleton.mp hx]
      exact List.mem_of_mem_filter hmem

/-- The loop of `kill_all_processes` kills the children of the array from the youngest one on. -/
theorem Sound.killRounds (h : Sound s) {n : Nat} (hn : s.processCount = n) :
    Sound (killRounds n s) ∧ killRounds n s = { s with
      processCount := 0
      sent := s.sent ++ s.notKilled.reverse.map fun pid => ⟨pid, .sigkill⟩ } := by
  induction n generalizing s with
  | zero =>
    have hnone : s.notKilled = [] := by
      rw [← h.table, hn, List.take_zero]
    have hself : { s with processCount := 0 } = s := by rw [← hn]
    refine ⟨h, ?_⟩
    rw [hnone, List.reverse_nil, List.map_nil, List.append_nil]
    exact hself.symm
  | succ n ih =>
    obtain ⟨pid, hkill, hsplit, hsound⟩ := h.killLast hn
    obtain ⟨hend, heq⟩ := ih hsound (by rw [hkill])
    refine ⟨hend, ?_⟩
    rw [Lab3.killRounds, heq, hsplit, List.reverse_append, List.map_append, ← List.append_assoc]
    generalize (killLastProcess s).notKilled = rest
    rw [hkill]
    rfl

theorem Sound.killAll (h : Sound s) :
    Sound (killAllProcesses s) ∧ (killAllProcesses s).sent =
      s.sent ++ s.notKilled.reverse.map fun pid => ⟨pid, .sigkill⟩ := by
  obtain ⟨hend, heq⟩ := h.killRounds rfl
  have hall : killAllProcesses s = Lab3.killRounds s.processCount s := by
    rw [killAllProcesses, heq]
  rw [hall]
  refine ⟨hend, ?_⟩
  rw [heq]

theorem foldl_kill (signal : Signal) (is : List Nat) :
    is.foldl (fun s i => s.kill (s.allProcesses.toList.getD i 0) signal) s =
      { s with sent := s.sent ++ is.map fun i => ⟨s.allProcesses.toList.getD i 0, signal⟩ } := by
  induction is generalizing s with
  | nil =>
    rw [List.map_nil, List.append_nil]
    rfl
  | cons i is ih =>
    rw [List.foldl_cons, ih, List.map_cons]
    simp only [ParentState.kill, List.append_assoc, List.singleton_append]

theorem Sound.allow (h : Sound s) (isAllow : Bool) : Sound (allowStdoutForAll s isAllow) := by
  have hsignal : ∀ x ∈ (List.range s.processCount).map fun i =>
      (⟨s.allProcesses.toList.getD i 0, if isAllow then .sigusr1 else .sigusr2⟩ : Sent),
      x.signal ≠ .sigkill := by
    intro x hx
    obtain ⟨i, -, rfl⟩ := List.mem_map.mp hx
    dsimp only
    split_ifs <;> exact Signal.noConfusion
  rw [allowStdoutForAll, foldl_kill]
  refine ⟨h.count_le, h.inside, ?_, h.created_nodup, ?_⟩
  · exact h.table.trans (notKilled_send s hsignal).symm
  · intro x hx hsigkill
    rcases List.mem_append.mp hx with hx | hx
    · exact h.killed x hx hsigkill
    · exact absurd hsigkill (hsignal x hx)

theorem Sound.exit (h : Sound s) : Sound s.exit :=
  ⟨h.count_le, h.inside, h.table, h.created_nodup, h.killed⟩

theorem step_sound {turn : Turn} (h : Sound s) (hroom : Room s turn)
    (hstep : parent.step s turn = some t) : Sound t := by
  obtain ⟨-, ⟨-, rfl⟩ | ⟨symbol, hsymbol, hperform⟩⟩ := parent_cases hstep
  · exact h
  · cases hcommand : commandOf symbol with
    | createChild =>
      rw [hcommand] at hperform
      rw [commandOf_create] at hcommand
      exact h.create (hroom (hsymbol.trans (congrArg some hcommand))) hperform
    | killLastProcess =>
      rw [hcommand] at hperform
      obtain rfl := Option.some.inj hperform
      cases hn : s.processCount with
      | zero =>
        rw [killLastProcess, hn, if_neg (Nat.lt_irrefl 0)]
        exact h
      | succ n =>
        obtain ⟨-, -, -, hsound⟩ := h.killLast hn
        exact hsound
    | showAllProcesses | other =>
      rw [hcommand] at hperform
      obtain rfl := Option.some.inj hperform
      exact h
    | killAllProcesses =>
      rw [hcommand] at hperform
      obtain rfl := Option.some.inj hperform
      exact h.killAll.1
    | allowStdoutForAll isAllow =>
      rw [hcommand] at hperform
      obtain rfl := Option.some.inj hperform
      exact h.allow isAllow
    | quit =>
      rw [hcommand] at hperform
      obtain rfl := Option.some.inj hperform
      exact h.killAll.1.exit

theorem reach_sound (h : parent.Reach Room s) : Sound s :=
  h.invariant init_sound fun _ _ _ hs hroom hstep => step_sound hs hroom hstep

theorem Sound.quits (h : Sound s) (hrun : s.running = true) (fork : Option Nat) :
    ∃ t new, parent.step s ⟨some ['q'.toUInt8], fork⟩ = some t ∧ t.sent = s.sent ++ new ∧
      ∀ pid ∈ s.notKilled, new.count ⟨pid, .sigkill⟩ = 1 := by
  have hquit : commandOf ['q'.toUInt8] = .quit := by decide
  have hstep : parent.step s ⟨some ['q'.toUInt8], fork⟩ = some (killAllProcesses s).exit := by
    change (if _ then perform s fork (commandOf _) else _) = _
    rw [if_pos hrun, hquit]
    rfl
  refine ⟨_, _, hstep, h.killAll.2, fun pid hpid => ?_⟩
  have hinj : Function.Injective fun pid : Nat => (⟨pid, .sigkill⟩ : Sent) :=
    fun a b hab => congrArg Sent.pid hab
  rw [List.map_reverse, List.count_reverse]
  exact List.count_eq_one_of_mem (h.notKilled_nodup.map hinj) (List.mem_map_of_mem hpid)

theorem Sound.faithful (h : Sound s) : Faithful s := ⟨h.inside, h.table, h.quits⟩

theorem killRounds_writes (n : Nat) (s : ParentState) : (killRounds n s).writes = s.writes := by
  induction n generalizing s with
  | zero => rfl
  | succ n ih =>
    rw [killRounds, ih, killLastProcess]
    split_ifs <;> rfl

theorem createChild_writes {fork : Option Nat} (h : createChild s fork = some t) :
    s.writes <+: t.writes ∧ (fork.isSome → s.processCount ∈ t.writes) := by
  cases fork with
  | none =>
    obtain rfl := Option.some.inj h
    exact ⟨List.prefix_rfl, fun hsome => by cases hsome⟩
  | some pid =>
    obtain ⟨-, h⟩ := Option.ite_none_left_eq_some.mp h
    obtain rfl := Option.some.inj h
    exact ⟨List.prefix_append _ _, fun _ => List.mem_append_right _ (List.mem_singleton_self _)⟩

theorem step_writes {turn : Turn} (h : parent.step s turn = some t) :
    s.writes <+: t.writes ∧ (turn.symbol = some ['+'.toUInt8] → turn.fork.isSome →
      s.processCount ∈ t.writes) := by
  obtain ⟨-, ⟨hnone, rfl⟩ | ⟨symbol, hsymbol, hperform⟩⟩ := parent_cases h
  · exact ⟨List.prefix_rfl, fun hplus => by rw [hnone] at hplus; cases hplus⟩
  · by_cases hplus : symbol = ['+'.toUInt8]
    · rw [commandOf_create.mpr hplus] at hperform
      obtain ⟨hwrites, hcreate⟩ := createChild_writes hperform
      exact ⟨hwrites, fun _ => hcreate⟩
    · have hsame : t.writes = s.writes := by
        cases hcommand : commandOf symbol with
        | createChild => exact absurd (commandOf_create.mp hcommand) hplus
        | killLastProcess =>
          rw [hcommand] at hperform
          obtain rfl := Option.some.inj hperform
          exact killRounds_writes 1 s
        | showAllProcesses | other =>
          rw [hcommand] at hperform
          obtain rfl := Option.some.inj hperform
          rfl
        | killAllProcesses | quit =>
          rw [hcommand] at hperform
          obtain rfl := Option.some.inj hperform
          exact killRounds_writes s.processCount s
        | allowStdoutForAll isAllow =>
          rw [hcommand] at hperform
          obtain rfl := Option.some.inj hperform
          rw [allowStdoutForAll, foldl_kill]
      rw [hsame, hsymbol]
      exact ⟨List.prefix_rfl, fun h => absurd (Option.some.inj h) hplus⟩

theorem run_writes {turns : List Turn} (h : parent.run s turns = some t) :
    s.writes <+: t.writes := by
  induction turns generalizing s with
  | nil =>
    obtain rfl := Option.some.inj h
    exact List.prefix_rfl
  | cons turn turns ih =>
    obtain ⟨u, hu, hrest⟩ := Option.bind_eq_some_iff.mp h
    exact (step_writes hu).1.trans (ih hrest)

theorem along_of_inside {turns : List Turn} (h : parent.run s turns = some t)
    (hinside : ∀ i ∈ t.writes, i < maxProcesses) : parent.Along Room s turns := by
  induction turns generalizing s with
  | nil => trivial
  | cons turn turns ih =>
    obtain ⟨u, hu, hrest⟩ := Option.bind_eq_some_iff.mp h
    rw [System.Along, hu]
    refine ⟨fun hplus hfork => ?_, ih hrest⟩
    have hwritten := (step_writes hu).2 hplus hfork
    exact hinside _ ((run_writes hrest).subset hwritten)

/-- The array of children is faithful after a run, if and only if no child is created while it is
full. -/
theorem process_table_faithful_iff {turns : List Turn} (h : parent.run parent.init turns = some s) :
    Faithful s ↔ parent.Along Room parent.init turns := by
  constructor
  · intro hfaithful
    exact along_of_inside h hfaithful.inside
  · intro hroom
    exact (reach_sound (System.Reach.of_run .init turns hroom h)).faithful

/-- The command `+`, for a child with this pid. -/
def plus (pid : Nat) : Turn := ⟨some ['+'.toUInt8], some pid⟩

/-- Two children are created, both are sent the signal of `s`, the last one is killed, and two more
are created. -/
def fewChildren : List Turn :=
  [plus 10, plus 11, ⟨some ['s'.toUInt8], none⟩, ⟨some ['-'.toUInt8], none⟩, plus 12, plus 13]

theorem process_table_faithful_few :
    ∃ s, parent.run parent.init fewChildren = some s ∧ s.sent.length = 3 ∧
      s.allProcesses.toList.take s.processCount = [10, 12, 13] ∧ Faithful s := by
  have hrun : parent.run parent.init fewChildren = some _ := rfl
  have hs : ['s'.toUInt8] ≠ ['+'.toUInt8] := by decide
  have hminus : ['-'.toUInt8] ≠ ['+'.toUInt8] := by decide
  refine ⟨_, hrun, by decide, by decide, (process_table_faithful_iff hrun).mpr ?_⟩
  exact ⟨fun _ _ => by decide, fun _ _ => by decide, fun h => absurd (Option.some.inj h) hs,
    fun h => absurd (Option.some.inj h) hminus, fun _ _ => by decide, fun _ _ => by decide,
    trivial⟩

/-- The 101st child without a kill is written behind the array. -/
theorem hundred_and_first_outside :
    ∃ s, parent.run parent.init ((List.range 101).map fun i => plus (i + 1)) = some s ∧
      100 ∈ s.writes ∧ ¬Faithful s := by
  have hwrites : (parent.run parent.init ((List.range 101).map fun i => plus (i + 1))).any
      (fun s => s.writes.contains 100) = true := by decide +kernel
  obtain ⟨s, hrun, hmem⟩ := (Option.any_eq_true _ _).mp hwrites
  have hwritten : 100 ∈ s.writes := by simpa using hmem
  exact ⟨s, hrun, hwritten, fun h => absurd (h.inside 100 hwritten) (Nat.lt_irrefl 100)⟩

end Osisp.Lab3
