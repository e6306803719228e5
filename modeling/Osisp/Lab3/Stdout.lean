import Mathlib.Data.List.GetD
import Osisp.Lab3.Children
import Osisp.Lib.Mutex

namespace Osisp.Lab3

open Osisp.Lib

/-- The signal of `allow_stdout_for_all`. -/
def usrSignal (isAllow : Bool) : Signal := if isAllow then .sigusr1 else .sigusr2

theorem usrSignal_ne (isAllow : Bool) : usrSignal isAllow ≠ usrSignal !isAllow := by
  cases isAllow <;> simp [usrSignal]

theorem usrSignal_ne_sigkill (isAllow : Bool) : usrSignal isAllow ≠ .sigkill := by
  cases isAllow <;> simp [usrSignal]

section Parent

variable {s t : ParentState}

theorem Sound.allow_sent (h : Sound s) (isAllow : Bool) :
    (allowStdoutForAll s isAllow).sent =
      s.sent ++ s.notKilled.map fun pid => ⟨pid, usrSignal isAllow⟩ := by
  have htable : (List.range s.processCount).map (fun i => s.allProcesses.toList.getD i 0) =
      s.notKilled := by
    rw [← h.table]
    have hcount := h.count_le
    apply List.ext_getElem
    · simp [hcount]
    · intro i hi hi'
      have hlt : i < s.allProcesses.toList.length := by
        rw [List.length_map, List.length_range] at hi
        rw [Vector.length_toList]
        omega
      rw [List.getElem_map, List.getElem_range, List.getElem_take]
      exact List.getD_eq_getElem _ _ hlt
  rw [allowStdoutForAll, foldl_kill, ← htable, List.map_map]
  rfl

/-- What a turn of the parent sends and whom it creates. -/
theorem turn_frame {turn : Turn} (h : Sound s) (hstep : parent.step s turn = some t) :
    ∃ new born, t.sent = s.sent ++ new ∧ t.created = s.created ++ born ∧
      (∀ pid ∈ born, pid ∉ s.created ∧ new = []) ∧
      ((∀ x ∈ new, x.signal = .sigkill) ∧
          (∀ isAllow, turn.symbol.map commandOf ≠ some (.allowStdoutForAll isAllow)) ∨
        ∃ isAllow, turn.symbol.map commandOf = some (.allowStdoutForAll isAllow) ∧ born = [] ∧
          new = s.notKilled.map fun pid => ⟨pid, usrSignal isAllow⟩) := by
  obtain ⟨-, ⟨hsymbol, rfl⟩ | ⟨symbol, hsymbol, hperform⟩⟩ := parent_cases hstep
  · exact ⟨[], [], by simp, by simp, by simp, .inl ⟨by simp, by simp [hsymbol]⟩⟩
  have hkill : t.sent = s.sent ++ s.notKilled.reverse.map (fun pid => ⟨pid, .sigkill⟩) →
      ∃ new, t.sent = s.sent ++ new ∧ ∀ x ∈ new, x.signal = .sigkill := by
    intro hsent
    refine ⟨_, hsent, ?_⟩
    intro x hx
    obtain ⟨pid, -, rfl⟩ := List.mem_map.mp hx
    rfl
  have hcreated : (killAllProcesses s).created = s.created := by
    obtain ⟨-, heq⟩ := h.killRounds rfl
    rw [killAllProcesses, heq]
  rw [hsymbol, Option.map_some]
  cases hcommand : commandOf symbol with
  | createChild =>
    rw [hcommand] at hperform
    cases hfork : turn.fork with
    | none =>
      rw [hfork] at hperform
      obtain rfl := Option.some.inj hperform
      exact ⟨[], [], by simp [ParentState.exit], by simp [ParentState.exit], by simp,
        .inl ⟨by simp, by simp⟩⟩
    | some pid =>
      rw [hfork] at hperform
      obtain ⟨hpid, hperform⟩ := Option.ite_none_left_eq_some.mp hperform
      obtain rfl := Option.some.inj hperform
      refine ⟨[], [pid], by simp [ParentState.append], rfl, ?_, .inl ⟨by simp, by simp⟩⟩
      intro p hp
      rw [List.mem_singleton.mp hp]
      exact ⟨(not_or.mp hpid).2, rfl⟩
  | killLastProcess =>
    rw [hcommand] at hperform
    obtain rfl := Option.some.inj hperform
    cases hn : s.processCount with
    | zero =>
      rw [killLastProcess, hn, if_neg (Nat.lt_irrefl 0)]
      exact ⟨[], [], by simp, by simp, by simp, .inl ⟨by simp, by simp⟩⟩
    | succ n =>
      obtain ⟨pid, heq, -⟩ := h.killLast hn
      rw [heq]
      exact ⟨[⟨pid, .sigkill⟩], [], rfl, by simp, by simp, .inl ⟨by simp, by simp⟩⟩
  | showAllProcesses | other =>
    rw [hcommand] at hperform
    obtain rfl := Option.some.inj hperform
    exact ⟨[], [], by simp, by simp, by simp, .inl ⟨by simp, by simp⟩⟩
  | killAllProcesses =>
    rw [hcommand] at hperform
    obtain rfl := Option.some.inj hperform
    obtain ⟨new, hsent, hnew⟩ := hkill h.killAll.2
    exact ⟨new, [], hsent, by simp [hcreated], by simp, .inl ⟨hnew, by simp⟩⟩
  | quit =>
    rw [hcommand] at hperform
    obtain rfl := Option.some.inj hperform
    obtain ⟨new, hsent, hnew⟩ := hkill h.killAll.2
    exact ⟨new, [], hsent, by simp [ParentState.exit, hcreated], by simp, .inl ⟨hnew, by simp⟩⟩
  | allowStdoutForAll isAllow =>
    rw [hcommand] at hperform
    obtain rfl := Option.some.inj hperform
    refine ⟨_, [], h.allow_sent isAllow, ?_, by simp, .inr ⟨isAllow, rfl, rfl, rfl⟩⟩
    rw [allowStdoutForAll, foldl_kill, List.append_nil]

end Parent

/-- The child will have the flag when its signals have arrived. -/
def Child.Settles (isStdoutOpen : Bool) (c : Child) : Prop :=
  c.pending (usrSignal !isStdoutOpen) = false ∧
  (c.pending (usrSignal isStdoutOpen) = true ∨ c.isStdoutOpen = isStdoutOpen)

/-- The child is dead or killed, or it is in the table of the parent and will have its flag. -/
def Follows (f : Family) (c : Child) : Prop :=
  c.pc = .dead ∨ c.pending .sigkill = true ∨
    ⟨c.pid, .sigkill⟩ ∉ f.parent.sent ∧ c.Settles f.isStdoutOpen

/-- The parent's table has room, and its signals have arrived before it sends the next ones. -/
def Prompt (f : Family) : Event → Prop
  | .turn turn => Room f.parent turn ∧
    ((∃ isAllow, turn.symbol.map commandOf = some (.allowStdoutForAll isAllow)) →
      ∀ c ∈ f.children, c.pc ≠ .dead → ∀ signal, c.pending signal = true → signal = .sigkill)
  | _ => True

structure Agreed (f : Family) : Prop where
  sound : Sound f.parent
  pids : f.children.map Child.pid = f.parent.created
  follows : ∀ c ∈ f.children, Follows f c

section Steps

variable {f g : Family} {c c' : Child}

theorem Follows.same (h : Follows f c) (hlive : c.pc ≠ .dead) (hpid : c'.pid = c.pid)
    (hpending : c'.pending = c.pending) (hopen : c'.isStdoutOpen = c.isStdoutOpen) :
    Follows f c' := by
  rcases h with hdead | hkill | ⟨hsent, hsettles⟩
  · exact absurd hdead hlive
  · exact .inr (.inl (hpending ▸ hkill))
  · refine .inr (.inr ⟨hpid ▸ hsent, ?_⟩)
    rwa [Child.Settles, hpending, hopen]

theorem step_frame (hstep : c.step = some c') :
    c'.pid = c.pid ∧ c'.pending = c.pending ∧ c'.isStdoutOpen = c.isStdoutOpen := by
  unfold Child.step at hstep
  split at hstep
  case h_3 | h_9 | h_10 => split_ifs at hstep <;> cases hstep <;> simp
  case h_12 => cases hstep
  all_goals
    cases hstep
    simp

theorem Follows.step (h : Follows f c) (hstep : c.step = some c') : Follows f c' := by
  have hlive : c.pc ≠ .dead := by
    intro hdead
    simp [Child.step, hdead] at hstep
  obtain ⟨hpid, hpending, hopen⟩ := step_frame hstep
  exact h.same hlive hpid hpending hopen

theorem Follows.alarm (h : Follows f c) (hstep : c.alarm = some c') : Follows f c' := by
  obtain ⟨⟨-, hlive⟩, hstep⟩ := Option.ite_none_right_eq_some.mp hstep
  cases hstep
  exact h.same hlive rfl rfl rfl

/-- A signal arrives: it is the one that sets the flag of the parent, or it ends the child. -/
theorem Follows.deliver {signal : Signal} (h : Follows f c)
    (hstep : c.deliver signal = some c') : Follows f c' := by
  obtain ⟨⟨hpending, hlive⟩, hstep⟩ := Option.ite_none_right_eq_some.mp hstep
  dsimp only at hstep
  split_ifs at hstep with hhandles
  · cases hstep
    have husr : signal ≠ .sigkill := by
      rintro rfl
      cases hhandles
    rcases h with hdead | hkill | ⟨hsent, hother, hflag⟩
    · exact absurd hdead hlive
    · refine .inr (.inl ?_)
      simp [Function.update_of_ne (Ne.symm husr), hkill]
    · refine .inr (.inr ⟨hsent, ?_, .inr ?_⟩)
      · by_cases hsame : usrSignal (!f.isStdoutOpen) = signal
        · simp [hsame]
        · simp [Function.update_of_ne hsame, hother]
      · -- the other signal is not pending
        have hsignal : signal = usrSignal f.isStdoutOpen := by
          cases hopen : f.isStdoutOpen <;> cases signal <;> simp_all [usrSignal]
        rw [hsignal]
        cases f.isStdoutOpen <;> simp [usrSignal]
  · cases hstep
    exact .inl rfl

/-- Signals that only kill. -/
theorem Follows.killed {isStdoutOpen : Bool} {parent : ParentState} {new : List Sent}
    (h : Follows f c) (hnew : ∀ x ∈ new, x.signal = .sigkill)
    (hsent : parent.sent = f.parent.sent ++ new) (hopen : isStdoutOpen = f.isStdoutOpen)
    (children : List Child) : Follows ⟨parent, isStdoutOpen, children⟩ (c.receive new) := by
  rcases h with hdead | hkill | ⟨hspared, hother, hflag⟩
  · exact .inl hdead
  · exact .inr (.inl (by simp [Child.receive, hkill]))
  · by_cases hkill : ⟨c.pid, .sigkill⟩ ∈ new
    · exact .inr (.inl (by simp [Child.receive, hkill]))
    · have husr : ∀ isAllow, (⟨c.pid, usrSignal isAllow⟩ : Sent) ∉ new := by
        intro isAllow hmem
        exact usrSignal_ne_sigkill isAllow (hnew _ hmem)
      refine .inr (.inr ⟨?_, ?_, ?_⟩)
      · rw [hsent]
        exact List.not_mem_append hspared hkill
      · simp [Child.receive, hopen, hother, husr]
      · simp only [Child.receive, hopen]
        exact hflag.imp (fun hp => by simp [hp]) id

/-- The signal of `allow_stdout_for_all`, when no other is on its way. -/
theorem Follows.allowed {isAllow : Bool} {parent : ParentState} (h : Follows f c)
    (hpid : c.pid ∈ f.parent.created)
    (harrived : c.pc ≠ .dead → ∀ signal, c.pending signal = true → signal = .sigkill)
    (hsent : parent.sent = f.parent.sent ++
      f.parent.notKilled.map fun pid => ⟨pid, usrSignal isAllow⟩) (children : List Child) :
    Follows ⟨parent, isAllow, children⟩
      (c.receive (f.parent.notKilled.map fun pid => ⟨pid, usrSignal isAllow⟩)) := by
  rcases h with hdead | hkill | ⟨hspared, -⟩
  · exact .inl hdead
  · exact .inr (.inl (by simp [Child.receive, hkill]))
  · by_cases hdead : c.pc = .dead
    · exact .inl hdead
    have hmem : c.pid ∈ f.parent.notKilled := by
      rw [ParentState.notKilled, List.mem_filter]
      exact ⟨hpid, by simpa using hspared⟩
    have hquiet : c.pending (usrSignal !isAllow) = false := by
      by_contra hpending
      rw [Bool.not_eq_false] at hpending
      exact usrSignal_ne_sigkill _ (harrived hdead _ hpending)
    refine .inr (.inr ⟨?_, ?_, .inl ?_⟩)
    · rw [hsent]
      refine List.not_mem_append hspared ?_
      simp [usrSignal_ne_sigkill]
    · simp [Child.receive, hquiet, usrSignal_ne isAllow]
    · simp [Child.receive, hmem]

/-- A turn of the parent. -/
theorem Agreed.turn {turn : Turn} {parent : ParentState} (h : Agreed f)
    (hprompt : Prompt f (.turn turn)) (hstep : Lab3.parent.step f.parent turn = some parent) :
    Agreed (f.afterTurn turn parent) := by
  obtain ⟨hroom, harrived⟩ := hprompt
  obtain ⟨new, born, hsent, hcreated, hfresh, hnew⟩ := turn_frame h.sound hstep
  have hdrop : parent.sent.drop f.parent.sent.length = new := by
    rw [hsent, List.drop_left]
  have hborn : parent.created.drop f.parent.created.length = born := by
    rw [hcreated, List.drop_left]
  refine ⟨step_sound h.sound hroom hstep, ?_, ?_⟩
  · simp only [Family.afterTurn, hborn, List.map_append, List.map_map]
    rw [hcreated, ← h.pids]
    congr 1
    · exact List.map_id'' (fun _ => rfl) born
  · intro x hx
    simp only [Family.afterTurn, hdrop, hborn] at hx ⊢
    rcases List.mem_append.mp hx with hx | hx
    · obtain ⟨c, hc, rfl⟩ := List.mem_map.mp hx
      rcases hnew with ⟨hkills, hcommand⟩ | ⟨isAllow, hcommand, -, rfl⟩
      · refine (h.follows c hc).killed hkills hsent ?_ _
        unfold flagAfter
        split
        · rename_i isAllow hallow
          exact absurd hallow (hcommand isAllow)
        · rfl
      · have hpid : c.pid ∈ f.parent.created := h.pids ▸ List.mem_map_of_mem hc
        have hflag : flagAfter f.isStdoutOpen turn.symbol = isAllow := by
          rw [flagAfter, hcommand]
        rw [hflag]
        exact (h.follows c hc).allowed hpid (harrived ⟨isAllow, hcommand⟩ c hc) hsent _
    · obtain ⟨pid, hpid, rfl⟩ := List.mem_map.mp hx
      obtain ⟨hnot, rfl⟩ := hfresh pid hpid
      refine .inr (.inr ⟨?_, rfl, .inr rfl⟩)
      rw [hsent, List.append_nil]
      exact fun hmem => hnot (h.sound.killed _ hmem rfl)

theorem Agreed.act {k : Nat} {step : Child → Option Child} (h : Agreed f)
    (hpid : ∀ c c', step c = some c' → c'.pid = c.pid)
    (hfollows : ∀ c c', Follows f c → step c = some c' → Follows f c')
    (hstep : f.act k step = some g) : Agreed g := by
  obtain ⟨c, c', hc, hc', rfl⟩ := act_eq hstep
  refine ⟨h.sound, ?_, ?_⟩
  · rw [List.map_set, hpid c c' hc', ← h.pids]
    apply set_of_getElem?
    rw [List.getElem?_map, hc]
    rfl
  · intro x hx
    rcases List.mem_or_eq_of_mem_set hx with hx | rfl
    · exact h.follows x hx
    · exact hfollows c x (h.follows c (List.mem_of_getElem? hc)) hc'

theorem step_agreed {event : Event} (h : Agreed f) (hprompt : Prompt f event)
    (hstep : family.step f event = some g) : Agreed g := by
  cases event with
  | turn turn =>
    obtain ⟨parent, hparent, rfl⟩ := Option.map_eq_some_iff.mp hstep
    exact h.turn hprompt hparent
  | child k =>
    exact h.act (fun _ _ hc => (step_frame hc).1) (fun _ _ hc => hc.step) hstep
  | alarm k =>
    refine h.act ?_ (fun _ _ hc => hc.alarm) hstep
    intro c c' hc
    obtain ⟨-, hc⟩ := Option.ite_none_right_eq_some.mp hc
    cases hc
    rfl
  | deliver k signal =>
    refine h.act ?_ (fun _ _ hc => hc.deliver) hstep
    intro c c' hc
    obtain ⟨-, hc⟩ := Option.ite_none_right_eq_some.mp hc
    dsimp only at hc
    split_ifs at hc <;> cases hc <;> rfl

theorem reach_agreed (h : family.Reach Prompt f) : Agreed f := by
  refine h.invariant ⟨init_sound, rfl, List.forall_mem_nil _⟩ ?_
  intro f event g hf hprompt hstep
  exact step_agreed hf hprompt hstep

end Steps

/-- As long as the signals of one `s` or `g` have arrived before the next is given, every child is
dead, or has been killed, or is in the table of the parent and has its `is_stdout_open` once its
signals have arrived: no child is left behind, in whatever order the processes run. -/
theorem stdout_follows_commands {f : Family} (h : family.Reach Prompt f) {c : Child}
    (hc : c ∈ f.children) :
    c.pc = .dead ∨ c.pending .sigkill = true ∨
    c.pid ∈ f.parent.allProcesses.toList.take f.parent.processCount ∧
      (∀ signal, c.pending signal = true → signal = usrSignal f.isStdoutOpen) ∧
      ((∀ signal, c.pending signal = false) → c.isStdoutOpen = f.isStdoutOpen) := by
  have hagreed := reach_agreed h
  rcases hagreed.follows c hc with hdead | hkill | ⟨hspared, hother, hflag⟩
  · exact .inl hdead
  · exact .inr (.inl hkill)
  · by_cases hkill : c.pending .sigkill = true
    · exact .inr (.inl hkill)
    refine .inr (.inr ⟨?_, ?_, ?_⟩)
    · rw [hagreed.sound.table, ParentState.notKilled, List.mem_filter]
      exact ⟨hagreed.pids ▸ List.mem_map_of_mem hc, by simpa using hspared⟩
    · intro signal hpending
      cases hopen : f.isStdoutOpen <;> cases signal <;> simp_all [usrSignal]
    · intro hnone
      refine hflag.resolve_left ?_
      simp [hnone]

theorem prompt_plus {f : Family} (hroom : f.parent.processCount < maxProcesses)
    (fork : Option Nat) : Prompt f (.turn ⟨some ['+'.toUInt8], fork⟩) := by
  refine ⟨fun _ _ => hroom, ?_⟩
  rintro ⟨isAllow, hcommand⟩
  have hplus : commandOf ['+'.toUInt8] = .createChild := by decide
  simp [hplus] at hcommand

theorem prompt_quiet {f : Family} (hquiet : ∀ c ∈ f.children, ∀ signal, c.pending signal = false)
    {symbol : List UInt8} (hsymbol : symbol ≠ ['+'.toUInt8]) (fork : Option Nat) :
    Prompt f (.turn ⟨some symbol, fork⟩) := by
  refine ⟨fun h => absurd (Option.some.inj h) hsymbol, ?_⟩
  intro _ c hc _ signal hpending
  rw [hquiet c hc signal] at hpending
  cases hpending

theorem family_step {f g : Family} {good : Family → Event → Prop} (event : Event)
    (hf : family.Reach good f) (hg : good f event) (h : family.step f event = some g) :
    family.Reach good g := .step hf hg h

/-- A child that hears an `s`. -/
theorem stdout_follows_commands_closed : ∃ f c, family.Reach Prompt f ∧ c ∈ f.children ∧
    f.isStdoutOpen = false ∧ c.isStdoutOpen = f.isStdoutOpen := by
  have h₁ : family.Reach Prompt _ :=
    family_step (.turn ⟨some ['+'.toUInt8], some 7⟩) .init (prompt_plus (by decide) (some 7)) rfl
  have h₂ : family.Reach Prompt _ := family_step (.child 0) h₁ trivial rfl
  have h₃ : family.Reach Prompt _ := family_step (.child 0) h₂ trivial rfl
  have h₄ : family.Reach Prompt _ := family_step (.turn ⟨some ['s'.toUInt8], none⟩) h₃
    (prompt_quiet (fun c hc signal => by rw [List.mem_singleton.mp hc]; rfl) (by decide) none) rfl
  have h₅ : family.Reach Prompt _ := family_step (.deliver 0 .sigusr2) h₄ trivial rfl
  refine ⟨_, _, h₅, List.mem_cons_self, rfl, ?_⟩
  rcases stdout_follows_commands h₅ List.mem_cons_self with hdead | hkill | ⟨-, -, hopen⟩
  · cases hdead
  · cases hkill
  · apply hopen
    intro signal
    cases signal <;> rfl

/-- The parent's table has room. -/
def Roomy (f : Family) : Event → Prop
  | .turn turn => Room f.parent turn
  | _ => True

theorem reach_sound_family {f : Family} (h : family.Reach Roomy f) : Sound f.parent := by
  induction h with
  | init => exact init_sound
  | @step f g event _ hroom hstep hf =>
    cases event with
    | turn turn =>
      obtain ⟨parent, hparent, rfl⟩ := Option.map_eq_some_iff.mp hstep
      exact step_sound hf hroom hparent
    | child k | alarm k | deliver k signal =>
      obtain ⟨c, c', -, -, rfl⟩ := act_eq hstep
      exact hf

theorem turn_eq {f : Family} (hrun : f.parent.running = true) {symbol : List UInt8}
    {command : Command} (hcommand : commandOf symbol = command) (fork : Option Nat) :
    family.step f (.turn ⟨some symbol, fork⟩) =
      (perform f.parent fork command).map (f.afterTurn ⟨some symbol, fork⟩) := by
  change (parent.step f.parent _).map _ = _
  congr 1
  change (if _ then perform f.parent fork (commandOf symbol) else none) = _
  rw [if_pos hrun, hcommand]

/-- The family after `s` or `g`. -/
def Family.afterAllow (f : Family) (isAllow : Bool) : Family where
  parent := allowStdoutForAll f.parent isAllow
  isStdoutOpen := isAllow
  children := f.children.map
    (Child.receive (f.parent.notKilled.map fun pid => ⟨pid, usrSignal isAllow⟩))

theorem allow_turn {f : Family} (hsound : Sound f.parent) (hrun : f.parent.running = true)
    {symbol : List UInt8} {isAllow : Bool}
    (hcommand : commandOf symbol = .allowStdoutForAll isAllow) (fork : Option Nat) :
    family.step f (.turn ⟨some symbol, fork⟩) = some (f.afterAllow isAllow) := by
  have hflag : flagAfter f.isStdoutOpen (some symbol) = isAllow := by
    rw [flagAfter, Option.map_some, hcommand]
  have hcreated : (allowStdoutForAll f.parent isAllow).created = f.parent.created := by
    rw [allowStdoutForAll, foldl_kill]
  rw [turn_eq hrun hcommand, perform, Option.map_some, Family.afterTurn, hflag, hsound.allow_sent,
    List.drop_left, hcreated, List.drop_length, List.map_nil, List.append_nil]
  rfl

theorem allow_notKilled {s : ParentState} (hsound : Sound s) (isAllow : Bool) :
    (allowStdoutForAll s isAllow).notKilled = s.notKilled := by
  have hcount : (allowStdoutForAll s isAllow).processCount = s.processCount ∧
      (allowStdoutForAll s isAllow).allProcesses = s.allProcesses := by
    rw [allowStdoutForAll, foldl_kill]
    simp
  rw [← (hsound.allow isAllow).table, ← hsound.table, hcount.1, hcount.2]

theorem act_step {f : Family} {k : Nat} {c c' : Child} {step : Child → Option Child}
    (hc : f.children[k]? = some c) (hstep : step c = some c') :
    f.act k step = some { f with children := f.children.set k c' } := by
  simp [Family.act, hc, hstep]

theorem afterAllow_child {f : Family} {k : Nat} {c : Child} (hc : f.children[k]? = some c)
    (isAllow : Bool) : (f.afterAllow isAllow).children[k]? =
      some (c.receive (f.parent.notKilled.map fun pid => ⟨pid, usrSignal isAllow⟩)) := by
  simp [Family.afterAllow, hc]

theorem handles_eq {c c' : Child} (h : c'.pc = c.pc) (signal : Signal) :
    c'.handles signal = c.handles signal := by
  cases signal <;> simp [Child.handles, h]

/-- A child with a handler hears a signal of `allow_stdout_for_all`. -/
theorem deliver_usr {c : Child} (hlive : c.pc ≠ .dead) {isAllow : Bool}
    (hhandles : c.handles (usrSignal isAllow) = true)
    (hpending : c.pending (usrSignal isAllow) = true) :
    ∃ c', c.deliver (usrSignal isAllow) = some c' ∧ c'.isStdoutOpen = isAllow ∧ c'.pc = c.pc ∧
      c'.pending = Function.update c.pending (usrSignal isAllow) false := by
  refine ⟨{ c with
    pending := Function.update c.pending (usrSignal isAllow) false
    isStdoutOpen := isAllow }, ?_, rfl, rfl, rfl⟩
  have hsame : Child.handles { c with
      pending := Function.update c.pending (usrSignal isAllow) false } (usrSignal isAllow) = true :=
    (handles_eq rfl _).trans hhandles
  rw [Child.deliver, if_pos ⟨hpending, hlive⟩]
  dsimp only
  rw [if_pos hsame]
  cases isAllow <;> rfl

/-- Both signals are pending, and the one of `s` arrives last. -/
theorem deliver_both {c : Child} (hlive : c.pc ≠ .dead)
    (hhandles : ∀ isAllow, c.handles (usrSignal isAllow) = true)
    (hpending : ∀ isAllow, c.pending (usrSignal isAllow) = true)
    (hspared : c.pending .sigkill = false) :
    ∃ c₁ c₂, c.deliver .sigusr1 = some c₁ ∧ c₁.deliver .sigusr2 = some c₂ ∧
      c₂.isStdoutOpen = false ∧ c₂.pc = c.pc ∧ ∀ signal, c₂.pending signal = false := by
  obtain ⟨c₁, h₁, -, hpc₁, hpending₁⟩ := deliver_usr hlive (hhandles true) (hpending true)
  have hhandles₁ : c₁.handles (usrSignal false) = true := by
    rw [handles_eq hpc₁]
    exact hhandles false
  have hleft : c₁.pending (usrSignal false) = true := by
    have hne : usrSignal false ≠ usrSignal true := usrSignal_ne false
    rw [hpending₁, Function.update_of_ne hne]
    exact hpending false
  obtain ⟨c₂, h₂, hopen, hpc₂, hpending₂⟩ := deliver_usr (hpc₁ ▸ hlive) hhandles₁ hleft
  refine ⟨c₁, c₂, h₁, h₂, hopen, hpc₂.trans hpc₁, ?_⟩
  intro signal
  cases signal <;> simp [hpending₂, hpending₁, usrSignal, hspared]

/-- From every state with a child that hears the signals, an `s` and a `g` in quick succession can
leave the child with `is_stdout_open` at 0, although `g` was last and its signal has arrived: both
signals were pending at once, and they have no order. -/
theorem last_command_lost {f : Family} (h : family.Reach Roomy f)
    (hrun : f.parent.running = true) {k : Nat} {c : Child} (hc : f.children[k]? = some c)
    (hlive : c.pc ≠ .dead) (hhandles : ∀ isAllow, c.handles (usrSignal isAllow) = true)
    (hquiet : ∀ signal, c.pending signal = false)
    (htable : c.pid ∈ f.parent.allProcesses.toList.take f.parent.processCount) :
    ∃ g c', family.run f [.turn ⟨some ['s'.toUInt8], none⟩, .turn ⟨some ['g'.toUInt8], none⟩,
        .deliver k .sigusr1, .deliver k .sigusr2] = some g ∧
      g.children[k]? = some c' ∧ g.isStdoutOpen = true ∧ c'.isStdoutOpen = false ∧
      c'.pc = c.pc ∧ ∀ signal, c'.pending signal = false := by
  have hsound := reach_sound_family h
  rw [hsound.table] at htable
  have hs : family.step f (.turn ⟨some ['s'.toUInt8], none⟩) = some (f.afterAllow false) :=
    allow_turn hsound hrun (by decide) none
  have hrun' : (f.afterAllow false).parent.running = true := by
    rw [← hrun, Family.afterAllow, allowStdoutForAll, foldl_kill]
  have hg : family.step (f.afterAllow false) (.turn ⟨some ['g'.toUInt8], none⟩) =
      some ((f.afterAllow false).afterAllow true) :=
    allow_turn (hsound.allow false) hrun' (by decide) none
  have hsame : (f.afterAllow false).parent.notKilled = f.parent.notKilled :=
    allow_notKilled hsound false
  have hboth := afterAllow_child (afterAllow_child hc false) true
  rw [hsame] at hboth
  obtain ⟨c₁, c₂, h₁, h₂, hopen, hpc, hnone⟩ := deliver_both (c := (c.receive
    (f.parent.notKilled.map fun pid => ⟨pid, usrSignal false⟩)).receive
      (f.parent.notKilled.map fun pid => ⟨pid, usrSignal true⟩)) hlive hhandles
    (by
      intro isAllow
      cases isAllow <;> simp [Child.receive, htable, usrSignal])
    (by simp [Child.receive, hquiet, usrSignal])
  let f₂ := (f.afterAllow false).afterAllow true
  let f₃ : Family := { f₂ with children := f₂.children.set k c₁ }
  let f₄ : Family := { f₃ with children := f₃.children.set k c₂ }
  have hlt : k < f₂.children.length := (List.getElem?_eq_some_iff.mp hboth).1
  have hlt' : k < f₃.children.length := by
    rwa [List.length_set]
  have hthird : family.step f₂ (.deliver k .sigusr1) = some f₃ := act_step hboth h₁
  have hfourth : family.step f₃ (.deliver k .sigusr2) = some f₄ :=
    act_step (List.getElem?_set_self hlt) h₂
  refine ⟨f₄, c₂, ?_, List.getElem?_set_self hlt', rfl, hopen, hpc, hnone⟩
  simp only [System.run, hs, hg, Option.bind_some]
  rw [hthird, Option.bind_some, hfourth, Option.bind_some]

theorem last_command_lost_first : ∃ f g c', family.run f
      [.turn ⟨some ['s'.toUInt8], none⟩, .turn ⟨some ['g'.toUInt8], none⟩,
        .deliver 0 .sigusr1, .deliver 0 .sigusr2] = some g ∧
    g.children[0]? = some c' ∧ g.isStdoutOpen = true ∧ c'.isStdoutOpen = false := by
  have hroom : Room ParentState.init ⟨some ['+'.toUInt8], some 7⟩ := fun _ _ => by decide
  have h₁ : family.Reach Roomy _ :=
    family_step (.turn ⟨some ['+'.toUInt8], some 7⟩) .init hroom rfl
  have h₂ : family.Reach Roomy _ := family_step (.child 0) h₁ trivial rfl
  have h₃ : family.Reach Roomy _ := family_step (.child 0) h₂ trivial rfl
  obtain ⟨g, c', hg, hc', hopen, hclosed, -⟩ := last_command_lost h₃ rfl (k := 0) rfl nofun
    (fun isAllow => by cases isAllow <;> rfl) (fun _ => rfl) (by decide)
  exact ⟨_, g, c', hg, hc', hopen, hclosed⟩

theorem deliver_young (isStdoutOpen : Bool) {pid : Nat} {pids : List Nat} (hpid : pid ∈ pids) :
    ∃ c, ((Child.new isStdoutOpen pid).receive (pids.map fun pid =>
        ⟨pid, usrSignal false⟩)).deliver .sigusr2 = some c ∧
      c.pid = pid ∧ c.pc = .dead ∧ c.printed = none := by
  have hpending : ((Child.new isStdoutOpen pid).receive (pids.map fun pid =>
      ⟨pid, usrSignal false⟩)).pending .sigusr2 = true := by
    simp [Child.receive, Child.new, usrSignal, hpid]
  have hlive : ((Child.new isStdoutOpen pid).receive (pids.map fun pid =>
      ⟨pid, usrSignal false⟩)).pc ≠ .dead := by
    simp [Child.receive, Child.new]
  rw [Child.deliver, if_pos ⟨hpending, hlive⟩]
  exact ⟨_, rfl, rfl, rfl, rfl⟩

/-- From every state a child can be created and hear an `s` before it has its handlers, and then it
ends without a word, although the parent goes on to list it. -/
theorem young_child_dies {f : Family} (h : family.Reach Roomy f) (hrun : f.parent.running = true)
    (hroom : f.parent.processCount < maxProcesses) {pid : Nat} (hpid : pid ≠ 0)
    (hfresh : pid ∉ f.parent.created) :
    ∃ g c, family.run f [.turn ⟨some ['+'.toUInt8], some pid⟩, .turn ⟨some ['s'.toUInt8], none⟩,
        .deliver f.children.length .sigusr2] = some g ∧
      g.children[f.children.length]? = some c ∧ c.pid = pid ∧ c.pc = .dead ∧ c.printed = none ∧
      pid ∈ g.parent.allProcesses.toList.take g.parent.processCount := by
  have hsound := reach_sound_family h
  -- the child is created
  let parent : ParentState :=
    { f.parent.append pid with created := f.parent.created ++ [pid] }
  have hcreate : createChild f.parent (some pid) = some parent := by
    rw [createChild, if_neg (not_or.mpr ⟨hpid, hfresh⟩)]
  let f₁ := f.afterTurn ⟨some ['+'.toUInt8], some pid⟩ parent
  have hplus : family.step f (.turn ⟨some ['+'.toUInt8], some pid⟩) = some f₁ := by
    have hcommand : commandOf ['+'.toUInt8] = .createChild := by decide
    rw [turn_eq hrun hcommand, perform, hcreate, Option.map_some]
  have hsound₁ : Sound f₁.parent := hsound.create (fun _ => hroom) hcreate
  have hnew : f₁.children[f.children.length]? =
      some (Child.new (flagAfter f.isStdoutOpen (some ['+'.toUInt8])) pid) := by
    have hborn : parent.created.drop f.parent.created.length = [pid] := List.drop_left
    simp only [f₁, Family.afterTurn, hborn]
    simp
  have hmem : pid ∈ f₁.parent.notKilled := by
    rw [ParentState.notKilled, List.mem_filter]
    refine ⟨List.mem_append_right _ (List.mem_singleton_self pid), ?_⟩
    have hspared : ⟨pid, .sigkill⟩ ∉ f.parent.sent := fun hmem => hfresh (hsound.killed _ hmem rfl)
    exact decide_eq_true hspared
  -- the signal is sent and arrives
  have hs : family.step f₁ (.turn ⟨some ['s'.toUInt8], none⟩) = some (f₁.afterAllow false) :=
    allow_turn hsound₁ hrun (by decide) none
  have hchild := afterAllow_child hnew false
  obtain ⟨c, hc, hcpid, hdead, hprinted⟩ := deliver_young (flagAfter f.isStdoutOpen
    (some ['+'.toUInt8])) hmem
  let f₃ : Family := { f₁.afterAllow false with
    children := (f₁.afterAllow false).children.set f.children.length c }
  have hdeliver : family.step (f₁.afterAllow false) (.deliver f.children.length .sigusr2) =
      some f₃ := act_step hchild hc
  have hlt := (List.getElem?_eq_some_iff.mp hchild).1
  refine ⟨f₃, c, ?_, List.getElem?_set_self hlt, hcpid, hdead, hprinted, ?_⟩
  · simp only [System.run, hplus, hs, Option.bind_some]
    rw [hdeliver, Option.bind_some]
  · have htable := (hsound₁.allow false).table
    have hsame := allow_notKilled hsound₁ false
    have hlisted : pid ∈ (allowStdoutForAll f₁.parent false).allProcesses.toList.take
        (allowStdoutForAll f₁.parent false).processCount := by
      rw [htable, hsame]
      exact hmem
    exact hlisted

theorem young_child_dies_first : ∃ g c, family.run family.init
      [.turn ⟨some ['+'.toUInt8], some 7⟩, .turn ⟨some ['s'.toUInt8], none⟩,
        .deliver 0 .sigusr2] = some g ∧
    g.children[0]? = some c ∧ c.pc = .dead ∧ c.printed = none := by
  obtain ⟨g, c, hg, hc, -, hdead, hprinted, -⟩ :=
    young_child_dies .init rfl (by decide) (by decide : 7 ≠ 0) (by simp [family, ParentState.init])
  exact ⟨g, c, hg, hc, hdead, hprinted⟩

end Osisp.Lab3
