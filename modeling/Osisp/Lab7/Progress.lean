import Osisp.Lib.Progress
import Osisp.Lab7.CompareAndSwap

namespace Osisp.Lab7

open Osisp.Lib Osisp.Lib.Stdio

/-- The editor is in `do_put` and has not written yet. -/
def Pc.beforeWrite : Pc → Bool
  | .putTest | .putQuery | .putLock | .putReread | .putCompare | .putConflict | .putWrite => true
  | _ => false

/-- The steps up to the end of the command, where the record has not changed. -/
def Pc.rank : Pc → Nat
  | .putTest | .putConflict => 11
  | .putQuery => 10
  | .putLock => 9
  | .putReread => 8
  | .putCompare => 7
  | .putWrite => 6
  | .putUnlock => 5
  | .putPrint => 4
  | .putFail => 3
  | .getRead _ => 1
  | .command | .getNumber | .getName | .getAddress | .getSemester | .exited => 0

/-- The editor will find a conflict. -/
def Editor.stale (disk : List Record) (ed : Editor) : Nat :=
  if ed.pc.beforeWrite = true ∧ disk[ed.lastRecNo]? ≠ some ed.origRec then 1 else 0

/-- The editor has something to write that changes the record. -/
def Editor.dirty (ed : Editor) : Nat :=
  if ed.pc.beforeWrite = true ∧ ed.origRec ≠ ed.workRec then 1 else 0

/-- The work left to one of `n` editors. A conflict costs five steps and leaves nothing that
changes the record; a write that changes it may cause one conflict for each editor. -/
def Editor.load (disk : List Record) (n : Nat) (ed : Editor) : Nat :=
  ed.pc.rank + 5 * ed.stale disk + 5 * n * ed.dirty

def State.work (s : State) : Nat :=
  tally (Editor.load s.disk s.editors.length) s.editors

theorem Editor.stale_le (disk : List Record) (ed : Editor) : ed.stale disk ≤ 1 := by
  unfold Editor.stale
  split_ifs <;> omega

theorem Editor.dirty_le (ed : Editor) : ed.dirty ≤ 1 := by
  unfold Editor.dirty
  split_ifs <;> omega

theorem Editor.load_le (disk : List Record) (n : Nat) (ed : Editor) :
    ed.load disk n ≤ 16 + 5 * n := by
  have hrank : ed.pc.rank ≤ 11 := by cases ed.pc <;> simp [Pc.rank]
  have hstale := ed.stale_le disk
  have hdirty : 5 * n * ed.dirty ≤ 5 * n * 1 := Nat.mul_le_mul_left _ ed.dirty_le
  unfold Editor.load
  omega

/-- A step towards the end of the command that keeps the records of the editor. -/
theorem Editor.load_lt {ed ed' : Editor} (disk : List Record) (n : Nat)
    (hrank : ed'.pc.rank < ed.pc.rank)
    (hbefore : ed'.pc.beforeWrite = true → ed.pc.beforeWrite = true ∧
      ed'.lastRecNo = ed.lastRecNo ∧ ed'.origRec = ed.origRec ∧ ed'.workRec = ed.workRec) :
    ed'.load disk n < ed.load disk n := by
  have hstale : ed'.stale disk ≤ ed.stale disk := by
    by_cases hpc : ed'.pc.beforeWrite = true
    · obtain ⟨hbefore, hrec, horig, -⟩ := hbefore hpc
      simp [Editor.stale, hpc, hbefore, hrec, horig]
    · simp [Editor.stale, hpc]
  have hdirty : ed'.dirty ≤ ed.dirty := by
    by_cases hpc : ed'.pc.beforeWrite = true
    · obtain ⟨hbefore, -, horig, hwork⟩ := hbefore hpc
      simp [Editor.dirty, hpc, hbefore, horig, hwork]
    · simp [Editor.dirty, hpc]
  have hmul : 5 * n * ed'.dirty ≤ 5 * n * ed.dirty := Nat.mul_le_mul_left _ hdirty
  unfold Editor.load
  omega

/-- A conflict leaves the editor with what it found on disk. -/
theorem Editor.load_conflict {ed : Editor} {disk : List Record} (n : Nat)
    (hpc : ed.pc = .putCompare) (hdisk : disk[ed.lastRecNo]? = some ed.current)
    (hne : ed.current ≠ ed.origRec) :
    ({ ed with
      pc := .putConflict
      origRec := ed.current
      workRec := ed.current
      conflict := some ed.current } : Editor).load disk n < ed.load disk n := by
  have hstale : ed.stale disk = 1 := by simp [Editor.stale, hpc, Pc.beforeWrite, hdisk, hne]
  have hload : 12 ≤ ed.load disk n := by
    have hrank : ed.pc.rank = 7 := by simp [hpc, Pc.rank]
    unfold Editor.load
    omega
  have hafter : ({ ed with
      pc := .putConflict
      origRec := ed.current
      workRec := ed.current
      conflict := some ed.current } : Editor).load disk n = 11 := by
    simp [Editor.load, Editor.stale, Editor.dirty, hdisk, Pc.rank]
  omega

/-- A step of `do_get` or `do_put` leaves the editor less to do, or changes a record. -/
inductive WorkMove (s s' : State) (e : Nat) (ed : Editor) : Prop
  | nearer (ed' : Editor) (hset : s'.editors = s.editors.set e ed') (hdisk : s'.disk = s.disk)
      (hload : ed'.load s.disk s.editors.length < ed.load s.disk s.editors.length)
  | write (ed' : Editor) (hset : s'.editors = s.editors.set e ed') (hpc : ed.pc = .putWrite)
      (hdirty : ed.origRec ≠ ed.workRec) (hpc' : ed'.pc = .putUnlock)

theorem unlockRec_frame (s : State) (e r : Nat) :
    (s.unlockRec e r).editors = s.editors ∧ (s.unlockRec e r).disk = s.disk := by
  unfold State.unlockRec
  split_ifs <;> exact ⟨rfl, rfl⟩

theorem goStep_work {s s' : State} {e : Nat} {ed : Editor} {ok : Bool}
    (hfresh : Fresh s.disk ed) (h : goStep s e ed ok = some s') : WorkMove s s' e ed := by
  obtain ⟨pc, orig, work, recNo, hasWork, current, built, conflict, put⟩ := ed
  cases pc <;> simp only [goStep] at h
  case getRead rn =>
    split at h
    · cases h
    · split_ifs at h
      all_goals
        cases h
        refine .nearer _ rfl rfl (Editor.load_lt _ _ ?_ ?_)
        all_goals simp [Pc.rank, Pc.beforeWrite]
  case putTest | putQuery | putLock =>
    split_ifs at h
    all_goals
      cases h
      refine .nearer _ rfl rfl (Editor.load_lt _ _ ?_ ?_)
      all_goals simp [Pc.rank, Pc.beforeWrite]
  case putReread =>
    split at h
    · cases h
    · split_ifs at h
      all_goals
        cases h
        refine .nearer _ rfl rfl (Editor.load_lt _ _ ?_ ?_)
        all_goals simp [Pc.rank, Pc.beforeWrite]
  case putCompare =>
    split_ifs at h with hne
    · cases h
      exact .nearer _ rfl rfl (Editor.load_conflict _ rfl (hfresh.1 rfl) hne)
    · cases h
      refine .nearer _ rfl rfl (Editor.load_lt _ _ ?_ ?_)
      all_goals simp [Pc.rank, Pc.beforeWrite]
  case putConflict | putFail | putUnlock =>
    cases h
    obtain ⟨heditors, hdisk⟩ := unlockRec_frame s e recNo
    refine .nearer _ (congrArg (fun es : List Editor => es.set e _) heditors) hdisk
      (Editor.load_lt _ _ ?_ ?_)
    all_goals simp [Pc.rank, Pc.beforeWrite]
  case putWrite =>
    split_ifs at h
    · cases h
      by_cases hdirty : orig = work
      · -- the write leaves the record as it is
        subst hdirty
        have hdisk : s.disk.set recNo orig = s.disk := set_of_getElem? (hfresh.2 rfl)
        refine .nearer _ rfl hdisk (Editor.load_lt _ _ ?_ ?_)
        all_goals simp [Pc.rank, Pc.beforeWrite]
      · exact .write _ rfl rfl hdirty rfl
    · cases h
      refine .nearer _ rfl rfl (Editor.load_lt _ _ ?_ ?_)
      all_goals simp [Pc.rank, Pc.beforeWrite]
  case putPrint =>
    cases h
    refine .nearer _ rfl rfl (Editor.load_lt _ _ ?_ ?_)
    all_goals simp [Pc.rank, Pc.beforeWrite]
  case command | getNumber | getName | getAddress | getSemester | exited => cases h

/-- A write that changes a record takes one such write off the list, which pays for a conflict of
every editor. -/
theorem WorkMove.work_lt {s s' : State} {e : Nat} {ed : Editor} (hm : WorkMove s s' e ed)
    (he : s.editors[e]? = some ed) :
    s'.editors.length = s.editors.length ∧ s'.work + 1 ≤ s.work := by
  cases hm with
  | nearer ed' hset hdisk hload =>
    have hlength : s'.editors.length = s.editors.length := by simp [hset]
    have hsum := tally_set (Editor.load s.disk s.editors.length) he ed'
    refine ⟨hlength, ?_⟩
    unfold State.work
    rw [hlength, hdisk, hset]
    omega
  | write ed' hset hpc hdirty hpc' =>
    have hlength : s'.editors.length = s.editors.length := by simp [hset]
    have hsum := tally_set (Editor.load s'.disk s.editors.length) he ed'
    have hothers : tally (Editor.load s'.disk s.editors.length) s.editors ≤
        tally (Editor.load s.disk s.editors.length) s.editors + s.editors.length * 5 := by
      apply tally_le_add
      intro x _
      have hx := x.stale_le s'.disk
      unfold Editor.load
      omega
    have hnew : ed'.load s'.disk s.editors.length = 5 := by
      simp [Editor.load, Editor.stale, Editor.dirty, hpc', Pc.rank, Pc.beforeWrite]
    have hold : 6 + 5 * s.editors.length ≤ ed.load s'.disk s.editors.length := by
      have hone : ed.dirty = 1 := by simp [Editor.dirty, hpc, Pc.beforeWrite, hdirty]
      have hrank : ed.pc.rank = 6 := by simp [hpc, Pc.rank]
      unfold Editor.load
      rw [hone, hrank]
      omega
    refine ⟨hlength, ?_⟩
    unfold State.work
    rw [hlength, hset]
    omega

/-- No editor reads a command, a number or a line. -/
def IsGo : Action → Prop
  | .go .. => True
  | _ => False

/-- A run without input is no longer than the work that the editors have left. -/
theorem run_work {disk : List Record} {s t : State} (hs : (program disk).Reachable s)
    (as : List Action) (hok : ∀ a ∈ as, IsGo a) (h : (program disk).run s as = some t) :
    as.length ≤ s.work := by
  have hpaid (s : State) (a : Action) (t : State) (hi : Linked disk s) (hok : IsGo a)
      (h : (program disk).step s a = some t) : System.Paid State.work (fun _ => 0) 0 s t := by
    cases a with
    | go e ok =>
      obtain ⟨ed, he, hstep⟩ := Option.bind_eq_some_iff.mp h
      have hwork := ((goStep_work (hi.fresh e ed he) hstep).work_lt he).2
      simpa [System.Paid] using hwork
    | start | command | number | line => exact hok.elim
  have hkeep (s : State) (a : Action) (t : State) (hi : Linked disk s) (_ : IsGo a)
      (h : (program disk).step s a = some t) : Linked disk t := step_linked hi h
  have hlength := System.run_length_le hkeep hpaid (reachable_linked hs) as hok h
  simpa using hlength

/-- However many editors put at the same time and however their steps fall, every `do_put` comes
to its end: the retries after conflicts cannot go on, since a retry has nothing of its own to
write. -/
theorem puts_end {disk : List Record} {s t : State} (hs : (program disk).Reachable s)
    (as : List Action) (hok : ∀ a ∈ as, IsGo a) (h : (program disk).run s as = some t) :
    as.length ≤ s.editors.length * (16 + 5 * s.editors.length) := by
  have hwork := run_work hs as hok h
  have hbound : s.work ≤ s.editors.length * (16 + 5 * s.editors.length) :=
    tally_le_mul fun ed _ => ed.load_le _ _
  omega

/-- One editor fetches record 0 and enters another name. -/
def editedOnce : List Action := .start :: edit 0 [65, newline] ++ [.command 0 .put]

theorem puts_end_once :
    ∃ s t, (program [.zero]).Reachable s ∧ (program [.zero]).run s (going 0 8) = some t ∧
      8 ≤ s.editors.length * (16 + 5 * s.editors.length) := by
  obtain ⟨s, hs, hm⟩ := System.exists_reach_of_run (M := program [.zero]) (fun _ _ => True)
    editedOnce (fun s => ((program [.zero]).run s (going 0 8)).isSome) (by decide +kernel)
    (by decide +kernel)
  obtain ⟨t, ht⟩ := Option.isSome_iff_exists.mp hm
  have hok : ∀ a ∈ going 0 8, IsGo a := by
    intro a ha
    rw [List.eq_of_mem_replicate ha]
    trivial
  exact ⟨s, t, hs, ht, puts_end hs _ hok ht⟩

structure Editor.InFile (disk : List Record) (ed : Editor) : Prop where
  read : ∀ rn, ed.pc = .getRead rn → rn < disk.length
  work : ed.hasWork = true → ed.lastRecNo < disk.length
  putting : ed.pc.beforeWrite = true → ed.pc ≠ .putTest → ed.hasWork = true

theorem Editor.InFile.stay {ed : Editor} {disk disk' : List Record} (hi : ed.InFile disk)
    (hlen : disk'.length = disk.length) : ed.InFile disk' := by
  refine ⟨?_, ?_, hi.putting⟩
  · rw [hlen]
    exact hi.read
  · rw [hlen]
    exact hi.work

theorem Editor.InFile.walk {ed ed' : Editor} {disk : List Record} (hi : ed.InFile disk)
    (hrec : ed'.lastRecNo = ed.lastRecNo) (hwork : ed'.hasWork = true → ed.hasWork = true)
    (hread : ∀ rn, ed'.pc = .getRead rn → rn < disk.length)
    (hput : ed'.pc.beforeWrite = true → ed'.pc ≠ .putTest → ed'.hasWork = true) :
    ed'.InFile disk := by
  refine ⟨hread, ?_, hput⟩
  intro h
  rw [hrec]
  exact hi.work (hwork h)

/-- A step changes one editor at most, and no step changes the length of the file. -/
def Keeps (s s' : State) (e : Nat) : Prop :=
  s'.disk.length = s.disk.length ∧
  ∃ ed', s'.editors = s.editors.set e ed' ∧ ed'.InFile s.disk

theorem commandStep_keeps {s s' : State} {e : Nat} {ed : Editor} {c : Command}
    (he : s.editors[e]? = some ed) (hi : ed.InFile s.disk)
    (h : commandStep s e ed c = some s') : Keeps s s' e := by
  unfold commandStep at h
  split at h
  · cases c
    case other =>
      cases h
      exact ⟨rfl, ed, (set_of_getElem? he).symm, hi⟩
    all_goals
      cases h
      refine ⟨rfl, _, rfl, hi.walk rfl (fun h => h) ?_ ?_⟩
      all_goals simp [Pc.beforeWrite]
  · cases h

theorem numberStep_keeps {s s' : State} {e : Nat} {ed : Editor} {rn : Option Int}
    (hi : ed.InFile s.disk) (h : numberStep s e ed rn = some s') : Keeps s s' e := by
  unfold numberStep at h
  split at h
  · cases rn with
    | none =>
      cases h
      refine ⟨rfl, _, rfl, hi.walk rfl (fun h => h) ?_ ?_⟩
      all_goals simp [Pc.beforeWrite]
    | some rn =>
      simp only at h
      split_ifs at h with hrange
      · cases h
        refine ⟨rfl, _, rfl, hi.walk rfl (fun h => h) ?_ ?_⟩
        all_goals simp [Pc.beforeWrite]
      · cases h
        refine ⟨rfl, _, rfl, hi.walk rfl (fun h => h) ?_ ?_⟩
        · intro n hn
          cases hn
          omega
        · simp [Pc.beforeWrite]
  · cases h

theorem lineStep_keeps {s : State} {e : Nat} {ed : Editor}
    {enter : List UInt8 → Record → Option Record} {next : Pc} {buf : Option (List UInt8)}
    (he : s.editors[e]? = some ed) (hi : ed.InFile s.disk) (hnext : next.beforeWrite = false)
    (hread : ∀ rn, next ≠ .getRead rn) : Keeps s (lineStep s e ed enter next buf) e := by
  have hstop : ({ ed with pc := .command } : Editor).InFile s.disk :=
    hi.walk rfl (fun h => h) nofun (by simp [Pc.beforeWrite])
  have hgo : ({ ed with pc := next } : Editor).InFile s.disk :=
    hi.walk rfl (fun h => h) (fun rn h => absurd h (hread rn)) (by simp [hnext])
  unfold lineStep
  cases buf with
  | none => exact ⟨rfl, _, rfl, hstop⟩
  | some buf =>
    simp only
    split_ifs
    · exact ⟨rfl, _, rfl, hgo⟩
    · cases enter buf ed.workRec with
      | none => exact ⟨rfl, ed, (set_of_getElem? he).symm, hi⟩
      | some rec => exact ⟨rfl, _, rfl, hgo.read, hgo.work, hgo.putting⟩

theorem goStep_keeps {s s' : State} {e : Nat} {ed : Editor} {ok : Bool}
    (hi : ed.InFile s.disk) (h : goStep s e ed ok = some s') : Keeps s s' e := by
  obtain ⟨pc, orig, work, recNo, hasWork, current, built, conflict, put⟩ := ed
  cases pc <;> simp only [goStep] at h
  case getRead rn =>
    have hrn := hi.read rn rfl
    split at h
    · cases h
    · split_ifs at h
      · cases h
        exact ⟨rfl, _, rfl, by simp, fun _ => hrn, by simp [Pc.beforeWrite]⟩
      · cases h
        exact ⟨rfl, _, rfl, hi.walk rfl (fun h => h) (by simp) (by simp [Pc.beforeWrite])⟩
  case putTest =>
    split_ifs at h with hwork
    · cases h
      exact ⟨rfl, _, rfl, hi.walk rfl (fun h => h) (by simp) (by simp [Pc.beforeWrite])⟩
    · cases h
      exact ⟨rfl, _, rfl, hi.walk rfl (by simp) (by simp) (by simp [Pc.beforeWrite])⟩
    · cases h
      exact ⟨rfl, _, rfl, hi.walk rfl (fun h => h) (by simp) fun _ _ => by simpa using hwork⟩
  case putQuery | putLock =>
    have hwork := hi.putting rfl (by simp)
    split_ifs at h
    all_goals
      cases h
      exact ⟨rfl, _, rfl, hi.walk rfl (fun h => h) (by simp) fun _ _ => hwork⟩
  case putReread =>
    have hwork := hi.putting rfl (by simp)
    split at h
    · cases h
    · split_ifs at h
      all_goals
        cases h
        exact ⟨rfl, _, rfl, hi.walk rfl (fun h => h) (by simp) fun _ _ => hwork⟩
  case putCompare =>
    have hwork := hi.putting rfl (by simp)
    split_ifs at h
    all_goals
      cases h
      exact ⟨rfl, _, rfl, hi.walk rfl (fun h => h) (by simp) fun _ _ => hwork⟩
  case putConflict =>
    have hwork := hi.putting rfl (by simp)
    obtain ⟨heditors, hdisk⟩ := unlockRec_frame s e recNo
    cases h
    refine ⟨congrArg List.length hdisk, _, congrArg (fun es : List Editor => es.set e _) heditors,
      hi.walk rfl (fun h => h) (by simp) fun _ _ => hwork⟩
  case putFail | putUnlock =>
    obtain ⟨heditors, hdisk⟩ := unlockRec_frame s e recNo
    cases h
    exact ⟨congrArg List.length hdisk, _, congrArg (fun es : List Editor => es.set e _) heditors,
      hi.walk rfl (fun h => h) (by simp) (by simp [Pc.beforeWrite])⟩
  case putWrite =>
    split_ifs at h
    · cases h
      exact ⟨by simp, _, rfl, hi.walk rfl (fun h => h) (by simp) (by simp [Pc.beforeWrite])⟩
    · cases h
      exact ⟨rfl, _, rfl, hi.walk rfl (fun h => h) (by simp) (by simp [Pc.beforeWrite])⟩
  case putPrint =>
    cases h
    exact ⟨rfl, _, rfl, hi.walk rfl (by simp) (by simp) (by simp [Pc.beforeWrite])⟩
  case command | getNumber | getName | getAddress | getSemester | exited => cases h

def AllInFile (s : State) : Prop :=
  ∀ (e : Nat) (ed : Editor), s.editors[e]? = some ed → ed.InFile s.disk

theorem Keeps.all {s s' : State} {e : Nat} (hk : Keeps s s' e) (hi : AllInFile s) :
    AllInFile s' := by
  obtain ⟨hlen, ed', hset, hed'⟩ := hk
  exact forall_entry_set hset (hed'.stay hlen) fun u x _ hx => (hi u x hx).stay hlen

theorem step_inFile {disk : List Record} {s s' : State} {a : Action} (hi : AllInFile s)
    (h : (program disk).step s a = some s') : AllInFile s' := by
  cases a with
  | start =>
    cases h
    have hnew : Editor.new.InFile s.disk := ⟨nofun, nofun, by simp [Editor.new, Pc.beforeWrite]⟩
    exact forall_entry_append hnew hi
  | command e c =>
    obtain ⟨ed, he, hstep⟩ := Option.bind_eq_some_iff.mp h
    exact (commandStep_keeps he (hi e ed he) hstep).all hi
  | number e rn =>
    obtain ⟨ed, he, hstep⟩ := Option.bind_eq_some_iff.mp h
    exact (numberStep_keeps (hi e ed he) hstep).all hi
  | line e buf =>
    obtain ⟨ed, he, hstep⟩ := Option.bind_eq_some_iff.mp h
    split at hstep <;> cases hstep
    all_goals exact (lineStep_keeps he (hi e ed he) rfl (by simp)).all hi
  | go e ok =>
    obtain ⟨ed, he, hstep⟩ := Option.bind_eq_some_iff.mp h
    exact (goStep_keeps (hi e ed he) hstep).all hi

theorem reachable_inFile {disk : List Record} {s : State} (h : (program disk).Reachable s) :
    AllInFile s := by
  apply h.invariant
  · simp [AllInFile, program, State.init]
  · intro s a t hi _ ht
    exact step_inFile hi ht

/-- The editor is in the reading part of `do_get`, or in `do_put`. -/
def Pc.busy : Pc → Bool
  | .getRead _ | .putTest | .putQuery | .putLock | .putReread | .putCompare | .putConflict
  | .putWrite | .putFail | .putUnlock | .putPrint => true
  | _ => false

/-- Only the lock of its record holds a busy editor up. -/
theorem goStep_isSome {s : State} {e : Nat} {ed : Editor} (hi : ed.InFile s.disk)
    (hbusy : ed.pc.busy = true) (hlock : ed.pc = .putLock → s.locks ed.lastRecNo = none) :
    (goStep s e ed true).isSome = true := by
  obtain ⟨pc, orig, work, recNo, hasWork, current, built, conflict, put⟩ := ed
  cases pc <;> simp only [goStep]
  case getRead rn =>
    have hrn := hi.read rn rfl
    simp [List.getElem?_eq_getElem hrn]
  case putReread =>
    have hrn := hi.work (hi.putting rfl (by simp))
    simp [List.getElem?_eq_getElem hrn]
  case putLock => simp [hlock rfl]
  case putTest | putCompare => split_ifs <;> simp
  case command | getNumber | getName | getAddress | getSemester | exited => cases hbusy
  all_goals simp

/-- An editor in `do_put` can go on, unless it waits for a record that another editor has locked,
and that editor can go on: nobody waits while holding a lock, so there is no cycle of waits. -/
theorem put_waits_for_running {disk : List Record} {s : State}
    (h : (program disk).Reachable s) {e : Nat} {ed : Editor} (he : s.editors[e]? = some ed)
    (hbusy : ed.pc.busy = true) :
    (∃ s', (program disk).step s (.go e true) = some s') ∨
    ed.pc = .putLock ∧ ∃ e' ed', e' ≠ e ∧ s.locks ed.lastRecNo = some e' ∧
      s.editors[e']? = some ed' ∧ ed'.holds ed.lastRecNo = true ∧
      ∃ s', (program disk).step s (.go e' true) = some s' := by
  have hi := reachable_linked h
  have hfile := reachable_inFile h
  have hstep (e : Nat) (ed : Editor) (he : s.editors[e]? = some ed) (hbusy : ed.pc.busy = true)
      (hlock : ed.pc = .putLock → s.locks ed.lastRecNo = none) :
      ∃ s', (program disk).step s (.go e true) = some s' := by
    have hsome := goStep_isSome (e := e) (hfile e ed he) hbusy hlock
    obtain ⟨s', hs'⟩ := Option.isSome_iff_exists.mp hsome
    exact ⟨s', by simp [program, he, hs']⟩
  by_cases hpc : ed.pc = .putLock
  · cases hholder : s.locks ed.lastRecNo with
    | none => exact .inl (hstep e ed he hbusy fun _ => hholder)
    | some e' =>
      obtain ⟨ed', he', hholds⟩ := (hi.guards ed.lastRecNo e').mpr hholder
      have hlocked : ed'.pc.locked = true := by
        simp only [Editor.holds, Bool.and_eq_true] at hholds
        exact hholds.1
      have hne : e' ≠ e := by
        rintro rfl
        obtain rfl : ed = ed' := Option.some.inj (he.symm.trans he')
        simp [hpc, Pc.locked] at hlocked
      have hrun : ed'.pc.busy = true ∧ ed'.pc ≠ .putLock := by
        revert hlocked
        cases ed'.pc <;> simp [Pc.locked, Pc.busy]
      exact .inr ⟨hpc, e', ed', hne, rfl, he', hholds,
        hstep e' ed' he' hrun.1 fun h => absurd h hrun.2⟩
  · exact .inl (hstep e ed he hbusy fun h => absurd h hpc)

/-- Two editors put the same record: the second waits for the first. -/
def secondWaits : List Action :=
  [.start, .start] ++ edit 0 [65, newline] ++ edit 1 [66, newline] ++
    .command 0 .put :: going 0 3 ++ .command 1 .put :: going 1 2

theorem put_waits_for_running_second :
    ∃ s ed, (program [.zero]).Reachable s ∧ s.editors[1]? = some ed ∧
      (program [.zero]).step s (.go 1 true) = none ∧
      ((∃ s', (program [.zero]).step s (.go 1 true) = some s') ∨
        ed.pc = .putLock ∧ ∃ e' ed', e' ≠ 1 ∧ s.locks ed.lastRecNo = some e' ∧
          s.editors[e']? = some ed' ∧ ed'.holds ed.lastRecNo = true ∧
          ∃ s', (program [.zero]).step s (.go e' true) = some s') := by
  obtain ⟨s, hs, hm⟩ := System.exists_reach_of_run (M := program [.zero]) (fun _ _ => True)
    secondWaits (fun s => s.editors[1]?.any (fun ed => ed.pc.busy) &&
      ((program [.zero]).step s (.go 1 true)).isNone) (by decide +kernel) (by decide +kernel)
  simp only [Bool.and_eq_true, Option.isNone_iff_eq_none] at hm
  obtain ⟨ed, he, hbusy⟩ := (Option.any_eq_true _ _).mp hm.1
  exact ⟨s, ed, hs, he, hm.2, put_waits_for_running hs he hbusy⟩

end Osisp.Lab7
