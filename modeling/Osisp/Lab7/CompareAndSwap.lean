import Osisp.Lib.Tally
import Osisp.Lab7.Editor

namespace Osisp.Lab7

open Osisp.Lib Osisp.Lib.Stdio

/-- What one step of an editor does. -/
inductive EditorMove (s s' : State) (e : Nat) (ed : Editor) : Prop
  | stay (hs : s' = s)
  /-- A step outside the lock that changes no record. -/
  | walk (pc' : Pc) (hasWork' : Bool)
      (hs : s' = s.put e { ed with pc := pc', hasWork := hasWork' })
      (hlocked : ed.pc.locked = false) (hlocked' : pc'.locked = false)
      (hreport : ed.pc.reporting = false) (hreport' : pc'.reporting = false)
      (henter : pc'.entering = true → ed.pc.entering = true)
  | fetch (rn : Nat) (rec : Record) (hpc : ed.pc = .getRead rn) (hrec : s.disk[rn]? = some rec)
      (hs : s' = s.put e { ed with
        pc := .getName
        origRec := rec
        workRec := rec
        lastRecNo := rn
        hasWork := true
        built := rec
        conflict := none })
  | enter (pc' : Pc) (rec : Record) (hpc : ed.pc.entering = true)
      (hlocked' : pc'.locked = false) (hreport' : pc'.reporting = false)
      (hs : s' = s.put e { ed with pc := pc', workRec := rec, built := rec })
  | lock (hpc : ed.pc = .putLock) (hfree : s.locks ed.lastRecNo = none)
      (hs : s' = (s.setLock ed.lastRecNo (some e)).put e { ed with pc := .putReread })
  | reread (rec : Record) (hpc : ed.pc = .putReread) (hrec : s.disk[ed.lastRecNo]? = some rec)
      (hs : s' = s.put e { ed with pc := .putCompare, current := rec })
  | agree (hpc : ed.pc = .putCompare) (heq : ed.current = ed.origRec)
      (hs : s' = s.put e { ed with pc := .putWrite })
  | conflict (hpc : ed.pc = .putCompare) (hne : ed.current ≠ ed.origRec)
      (hs : s' = s.put e { ed with
        pc := .putConflict
        origRec := ed.current
        workRec := ed.current
        conflict := some ed.current })
  | fail (hlocked : ed.pc.locked = true) (hreport : ed.pc.reporting = false)
      (hs : s' = s.put e { ed with pc := .putFail })
  | unlock (pc' : Pc) (hs : s' = (s.unlockRec e ed.lastRecNo).put e { ed with pc := pc' })
      (hlocked : ed.pc.locked = true) (hlocked' : pc'.locked = false)
      (hreport : pc'.reporting = ed.pc.reporting) (henter : pc'.entering = false)
  | write (put : Put) (hpc : ed.pc = .putWrite)
      (hput : put = { editor := e
                      recNo := ed.lastRecNo
                      replaced := (s.disk[ed.lastRecNo]?).getD .zero
                      stored := ed.workRec
                      built := ed.built
                      conflict := ed.conflict })
      (hs : s' = { s.put e { ed with pc := .putUnlock, put := some put } with
        disk := s.disk.set ed.lastRecNo ed.workRec
        puts := s.puts ++ [put] })
  | print (hpc : ed.pc = .putPrint)
      (hs : s' = { s.put e { ed with pc := .command, hasWork := false } with
        updated := s.updated ++ ed.put.toList })

theorem commandStep_move {s s' : State} {e : Nat} {ed : Editor} {c : Command}
    (h : commandStep s e ed c = some s') : EditorMove s s' e ed := by
  obtain ⟨pc, orig, work, recNo, hasWork, current, built, conflict, put⟩ := ed
  cases pc <;> simp only [commandStep] at h
  case command =>
    cases c
    case other =>
      cases h
      exact .stay rfl
    all_goals
      cases h
      exact .walk _ hasWork rfl rfl rfl rfl rfl nofun
  all_goals cases h

theorem numberStep_move {s s' : State} {e : Nat} {ed : Editor} {rn : Option Int}
    (h : numberStep s e ed rn = some s') : EditorMove s s' e ed := by
  obtain ⟨pc, orig, work, recNo, hasWork, current, built, conflict, put⟩ := ed
  cases pc <;> simp only [numberStep] at h
  case getNumber =>
    cases rn with
    | none =>
      cases h
      exact .walk _ hasWork rfl rfl rfl rfl rfl nofun
    | some rn =>
      simp only at h
      split_ifs at h <;> cases h <;> exact .walk _ hasWork rfl rfl rfl rfl rfl nofun
  all_goals cases h

theorem lineStep_move {s : State} {e : Nat} {ed : Editor}
    {enter : List UInt8 → Record → Option Record} {next : Pc} {buf : Option (List UInt8)}
    (hpc : ed.pc.entering = true) (hlocked : next.locked = false)
    (hreport : next.reporting = false) :
    EditorMove s (lineStep s e ed enter next buf) e ed := by
  have hout : ed.pc.locked = false ∧ ed.pc.reporting = false := by
    revert hpc
    cases ed.pc <;> simp [Pc.entering, Pc.locked, Pc.reporting]
  unfold lineStep
  cases buf with
  | none => exact .walk _ ed.hasWork rfl hout.1 rfl hout.2 rfl fun _ => hpc
  | some buf =>
    simp only
    split_ifs
    · exact .walk _ ed.hasWork rfl hout.1 hlocked hout.2 hreport fun _ => hpc
    · cases enter buf ed.workRec with
      | none => exact .stay rfl
      | some rec => exact .enter _ rec hpc hlocked hreport rfl

theorem goStep_move {s s' : State} {e : Nat} {ed : Editor} {ok : Bool}
    (h : goStep s e ed ok = some s') : EditorMove s s' e ed := by
  obtain ⟨pc, orig, work, recNo, hasWork, current, built, conflict, put⟩ := ed
  cases pc <;> simp only [goStep] at h
  case getRead rn =>
    split at h
    · cases h
    · rename_i rec hrec
      split_ifs at h <;> cases h
      · exact .fetch rn rec rfl hrec rfl
      · exact .walk _ hasWork rfl rfl rfl rfl rfl nofun
  case putTest =>
    split_ifs at h <;> cases h <;> exact .walk _ _ rfl rfl rfl rfl rfl nofun
  case putQuery =>
    split_ifs at h <;> cases h <;> exact .walk _ hasWork rfl rfl rfl rfl rfl nofun
  case putLock =>
    split_ifs at h with hok hfree <;> cases h
    · exact .lock rfl hfree rfl
    · exact .walk _ hasWork rfl rfl rfl rfl rfl nofun
  case putReread =>
    split at h
    · cases h
    · rename_i rec hrec
      split_ifs at h <;> cases h
      · exact .reread rec rfl hrec rfl
      · exact .fail rfl rfl rfl
  case putCompare =>
    split_ifs at h with hne <;> cases h
    · exact .conflict rfl hne rfl
    · exact .agree rfl (not_not.mp hne) rfl
  case putConflict | putFail | putUnlock =>
    cases h
    exact .unlock _ rfl rfl rfl rfl rfl
  case putWrite =>
    split_ifs at h <;> cases h
    · exact .write _ rfl rfl rfl
    · exact .fail rfl rfl rfl
  case putPrint =>
    cases h
    exact .print rfl rfl
  case command | getNumber | getName | getAddress | getSemester | exited => cases h

/-- The editor that takes a step. -/
def Action.actor : Action → Option Nat
  | .start => none
  | .command e _ | .number e _ | .line e _ | .go e _ => some e

/-- A step either starts an editor or is a move of one. -/
theorem step_cases {disk : List Record} {s s' : State} {a : Action}
    (h : (program disk).step s a = some s') :
    s' = { s with editors := s.editors ++ [.new] } ∨
    ∃ e ed, a.actor = some e ∧ s.editors[e]? = some ed ∧ EditorMove s s' e ed := by
  cases a with
  | start =>
    cases h
    exact .inl rfl
  | command e c =>
    obtain ⟨ed, he, hstep⟩ := Option.bind_eq_some_iff.mp h
    exact .inr ⟨e, ed, rfl, he, commandStep_move hstep⟩
  | number e rn =>
    obtain ⟨ed, he, hstep⟩ := Option.bind_eq_some_iff.mp h
    exact .inr ⟨e, ed, rfl, he, numberStep_move hstep⟩
  | line e buf =>
    obtain ⟨ed, he, hstep⟩ := Option.bind_eq_some_iff.mp h
    refine .inr ⟨e, ed, rfl, he, ?_⟩
    split at hstep <;> cases hstep
    all_goals
      rename_i hpc
      exact lineStep_move (by rw [hpc]; rfl) rfl rfl
  | go e ok =>
    obtain ⟨ed, he, hstep⟩ := Option.bind_eq_some_iff.mp h
    exact .inr ⟨e, ed, rfl, he, goStep_move hstep⟩

/-- The write as a compare-and-swap on the file. -/
def Put.cas (p : Put) : Cas Record := ⟨p.recNo, p.replaced, p.stored⟩

/-- What an editor has read under the lock is what is on disk, and before it writes this is
its `orig_rec`. -/
def Fresh (disk : List Record) (ed : Editor) : Prop :=
  (ed.pc = .putCompare → disk[ed.lastRecNo]? = some ed.current) ∧
  (ed.pc = .putWrite → disk[ed.lastRecNo]? = some ed.origRec)

def Editor.reports (p : Put) (ed : Editor) : Nat :=
  if ed.pc.reporting = true ∧ ed.put = some p then 1 else 0

structure Linked (disk : List Record) (s : State) : Prop where
  guards : ∀ r, Guards (s.locks r) (fun e => At s.editors e (fun ed => ed.holds r = true))
  fresh : ∀ (e : Nat) (ed : Editor), s.editors[e]? = some ed → Fresh s.disk ed
  history : Cas.replay disk (s.puts.map Put.cas) = some s.disk
  counted : ∀ p, s.puts.count p = s.updated.count p + tally (Editor.reports p) s.editors

section

variable {disk : List Record} {s s' : State} {e : Nat} {ed ed' : Editor}

theorem holds_of_not_locked (h : ed.pc.locked = false) (r : Nat) : ed.holds r = false := by
  simp [Editor.holds, h]

theorem Linked.guards_set (hi : Linked disk s) (he : s.editors[e]? = some ed)
    (hset : s'.editors = s.editors.set e ed')
    (hmove : ∀ r, MutexMove e (s.locks r) (s'.locks r) (ed.holds r) (ed'.holds r)) (r : Nat) :
    Guards (s'.locks r) (fun e => At s'.editors e (fun ed => ed.holds r = true)) := by
  refine (hmove r).guards (hi.guards r) (at_of_getElem? he _) ?_ fun q hq => ?_
  · rw [hset]
    exact at_set_self he _ _
  · rw [hset]
    exact at_set_of_ne (Ne.symm hq) _ _ _

theorem Linked.unique (hi : Linked disk s) {u : Nat} {x : Editor} (he : s.editors[e]? = some ed)
    (hu : s.editors[u]? = some x) (hed : ed.pc.locked = true) (hx : x.pc.locked = true)
    (hr : x.lastRecNo = ed.lastRecNo) : e = u := by
  refine (hi.guards ed.lastRecNo).unique ?_ ?_
  · exact (at_of_getElem? he _).mpr (by simp [Editor.holds, hed])
  · exact (at_of_getElem? hu _).mpr (by simp [Editor.holds, hx, hr])

theorem Linked.locked (hi : Linked disk s) (he : s.editors[e]? = some ed)
    (hed : ed.pc.locked = true) : s.locks ed.lastRecNo = some e :=
  (hi.guards ed.lastRecNo e).mp ((at_of_getElem? he _).mpr (by simp [Editor.holds, hed]))

/-- A step that neither writes nor reports. -/
theorem Linked.quiet (hi : Linked disk s) (he : s.editors[e]? = some ed)
    (hset : s'.editors = s.editors.set e ed') (hdisk : s'.disk = s.disk)
    (hputs : s'.puts = s.puts) (hupdated : s'.updated = s.updated)
    (hmove : ∀ r, MutexMove e (s.locks r) (s'.locks r) (ed.holds r) (ed'.holds r))
    (hfresh : Fresh s.disk ed') (hreport : ed'.pc.reporting = ed.pc.reporting)
    (hput : ed'.put = ed.put) : Linked disk s' where
  guards := hi.guards_set he hset hmove
  fresh := by
    rw [hdisk]
    exact forall_entry_set hset hfresh fun u x _ hx => hi.fresh u x hx
  history := by rw [hputs, hdisk]; exact hi.history
  counted p := by
    have ht := tally_set (Editor.reports p) he ed'
    have hsame : ed'.reports p = ed.reports p := by simp only [Editor.reports, hreport, hput]
    rw [hputs, hupdated, hset, hi.counted p]
    omega

theorem mutexMove_of_locked (hlocked : ed'.pc.locked = ed.pc.locked)
    (hrec : ed.pc.locked = true → ed'.lastRecNo = ed.lastRecNo) (r : Nat) :
    MutexMove e (s.locks r) (s.locks r) (ed.holds r) (ed'.holds r) := by
  refine .inl ⟨rfl, ?_⟩
  cases h : ed.pc.locked with
  | false => rw [holds_of_not_locked h, holds_of_not_locked (hlocked.trans h)]
  | true => simp only [Editor.holds, hlocked, hrec h]

theorem mutexMove_of_lock (hpc : ed.pc.locked = false) (hpc' : ed'.pc.locked = true)
    (hrec : ed'.lastRecNo = ed.lastRecNo) (hfree : s.locks ed.lastRecNo = none) (r : Nat) :
    MutexMove e (s.locks r) ((s.setLock ed.lastRecNo (some e)).locks r) (ed.holds r)
      (ed'.holds r) := by
  by_cases hr : r = ed.lastRecNo
  · subst hr
    refine .inr (.inl ⟨hfree, by simp [State.setLock], holds_of_not_locked hpc _, ?_⟩)
    simp [Editor.holds, hpc', hrec]
  · refine .inl ⟨by simp [State.setLock, hr], ?_⟩
    rw [holds_of_not_locked hpc]
    simp [Editor.holds, hrec, Ne.symm hr]

theorem mutexMove_of_unlock (hpc : ed.pc.locked = true) (hpc' : ed'.pc.locked = false)
    (hheld : s.locks ed.lastRecNo = some e) (r : Nat) :
    MutexMove e (s.locks r) ((s.unlockRec e ed.lastRecNo).locks r) (ed.holds r)
      (ed'.holds r) := by
  rw [State.unlockRec, if_pos hheld]
  by_cases hr : r = ed.lastRecNo
  · subst hr
    refine .inr (.inr ⟨by simp [State.setLock], ?_, holds_of_not_locked hpc' _⟩)
    simp [Editor.holds, hpc]
  · refine .inl ⟨by simp [State.setLock, hr], ?_⟩
    rw [holds_of_not_locked hpc']
    simp [Editor.holds, Ne.symm hr]

theorem fresh_of_not_locked (h : ed.pc.locked = false) (disk : List Record) : Fresh disk ed :=
  ⟨fun hpc => absurd h (by simp [hpc, Pc.locked]),
    fun hpc => absurd h (by simp [hpc, Pc.locked])⟩

/-- The editor that writes replaces its own `orig_rec`, and no other editor has read the
record under the lock. -/
theorem Linked.write (hi : Linked disk s) (he : s.editors[e]? = some ed) {put : Put}
    (hpc : ed.pc = .putWrite)
    (hput : put = { editor := e
                    recNo := ed.lastRecNo
                    replaced := (s.disk[ed.lastRecNo]?).getD .zero
                    stored := ed.workRec
                    built := ed.built
                    conflict := ed.conflict }) :
    Linked disk { s.put e { ed with pc := .putUnlock, put := some put } with
      disk := s.disk.set ed.lastRecNo ed.workRec
      puts := s.puts ++ [put] } := by
  have hlocked : ed.pc.locked = true := by rw [hpc]; rfl
  have hdisk := (hi.fresh e ed he).2 hpc
  have hcas : put.cas = ⟨ed.lastRecNo, ed.origRec, ed.workRec⟩ := by
    rw [hput, hdisk]
    rfl
  refine ⟨hi.guards_set he rfl (mutexMove_of_locked hlocked.symm fun _ => rfl), ?_, ?_, fun p => ?_⟩
  · refine forall_entry_set rfl ⟨nofun, nofun⟩ fun u x hne hx => ?_
    have hother : x.pc.locked = true → ed.lastRecNo ≠ x.lastRecNo := fun hl hr =>
      hne (hi.unique he hx hlocked hl hr.symm).symm
    obtain ⟨hc, hw⟩ := hi.fresh u x hx
    constructor <;> intro hxpc
    · rw [List.getElem?_set_ne (hother (by rw [hxpc]; rfl))]
      exact hc hxpc
    · rw [List.getElem?_set_ne (hother (by rw [hxpc]; rfl))]
      exact hw hxpc
  · have hsnoc := Cas.replay_snoc hi.history (c := put.cas) (by rw [hcas]; exact hdisk)
    rw [hcas] at hsnoc
    rw [List.map_append, List.map_singleton, hcas]
    exact hsnoc
  · have ht := tally_set (Editor.reports p) he { ed with pc := .putUnlock, put := some put }
    have hwas : ed.reports p = 0 := by simp [Editor.reports, hpc, Pc.reporting]
    have his : ({ ed with pc := .putUnlock, put := some put } : Editor).reports p =
        [put].count p := by
      simp [Editor.reports, Pc.reporting, List.count_singleton]
    have hc := hi.counted p
    simp only [List.count_append, State.put]
    omega

theorem Linked.print (hi : Linked disk s) (he : s.editors[e]? = some ed) (hpc : ed.pc = .putPrint) :
    Linked disk { s.put e { ed with pc := .command, hasWork := false } with
      updated := s.updated ++ ed.put.toList } := by
  have hlocked : ed.pc.locked = false := by rw [hpc]; rfl
  refine ⟨hi.guards_set he rfl (mutexMove_of_locked hlocked.symm fun _ => rfl), ?_, hi.history,
    fun p => ?_⟩
  · exact forall_entry_set rfl ⟨nofun, nofun⟩ fun u x _ hx => hi.fresh u x hx
  · have ht := tally_set (Editor.reports p) he { ed with pc := .command, hasWork := false }
    have hwas : ed.reports p = ed.put.toList.count p := by
      cases hput : ed.put <;> simp [Editor.reports, hpc, Pc.reporting, hput, List.count_singleton]
    have his : ({ ed with pc := .command, hasWork := false } : Editor).reports p = 0 := rfl
    have hc := hi.counted p
    simp only [List.count_append, State.put]
    omega

theorem Linked.move (hi : Linked disk s) (he : s.editors[e]? = some ed)
    (hm : EditorMove s s' e ed) : Linked disk s' := by
  have hfresh := hi.fresh e ed he
  cases hm with
  | stay hs => exact hs ▸ hi
  | walk pc' hasWork' hs hlocked hlocked' hreport hreport' henter =>
    subst hs
    exact hi.quiet he rfl rfl rfl rfl
      (mutexMove_of_locked (hlocked'.trans hlocked.symm) fun _ => rfl)
      (fresh_of_not_locked hlocked' _) (hreport'.trans hreport.symm) rfl
  | fetch rn rec hpc hrec hs =>
    subst hs
    have hlocked : ed.pc.locked = false := by rw [hpc]; rfl
    have hreport : ed.pc.reporting = false := by rw [hpc]; rfl
    exact hi.quiet he rfl rfl rfl rfl
      (mutexMove_of_locked hlocked.symm fun h => by rw [hlocked] at h; cases h)
      ⟨nofun, nofun⟩ hreport.symm rfl
  | enter pc' rec hpc hlocked' hreport' hs =>
    subst hs
    have hout : ed.pc.locked = false ∧ ed.pc.reporting = false := by
      revert hpc
      cases ed.pc <;> simp [Pc.entering, Pc.locked, Pc.reporting]
    exact hi.quiet he rfl rfl rfl rfl
      (mutexMove_of_locked (hlocked'.trans hout.1.symm) fun _ => rfl)
      (fresh_of_not_locked hlocked' _) (hreport'.trans hout.2.symm) rfl
  | lock hpc hfree hs =>
    subst hs
    have hlocked : ed.pc.locked = false := by rw [hpc]; rfl
    have hreport : ed.pc.reporting = false := by rw [hpc]; rfl
    exact hi.quiet he rfl rfl rfl rfl (mutexMove_of_lock hlocked rfl rfl hfree)
      ⟨nofun, nofun⟩ hreport.symm rfl
  | reread rec hpc hrec hs =>
    subst hs
    have hlocked : ed.pc.locked = true := by rw [hpc]; rfl
    have hreport : ed.pc.reporting = false := by rw [hpc]; rfl
    exact hi.quiet he rfl rfl rfl rfl (mutexMove_of_locked hlocked.symm fun _ => rfl)
      ⟨fun _ => hrec, nofun⟩ hreport.symm rfl
  | agree hpc heq hs =>
    subst hs
    have hlocked : ed.pc.locked = true := by rw [hpc]; rfl
    have hreport : ed.pc.reporting = false := by rw [hpc]; rfl
    have hdisk := hfresh.1 hpc
    rw [heq] at hdisk
    exact hi.quiet he rfl rfl rfl rfl (mutexMove_of_locked hlocked.symm fun _ => rfl)
      ⟨nofun, fun _ => hdisk⟩ hreport.symm rfl
  | conflict hpc hne hs =>
    subst hs
    have hlocked : ed.pc.locked = true := by rw [hpc]; rfl
    have hreport : ed.pc.reporting = false := by rw [hpc]; rfl
    exact hi.quiet he rfl rfl rfl rfl (mutexMove_of_locked hlocked.symm fun _ => rfl)
      ⟨nofun, nofun⟩ hreport.symm rfl
  | fail hlocked hreport hs =>
    subst hs
    exact hi.quiet he rfl rfl rfl rfl (mutexMove_of_locked hlocked.symm fun _ => rfl)
      ⟨nofun, nofun⟩ hreport.symm rfl
  | unlock pc' hs hlocked hlocked' hreport henter =>
    subst hs
    have hheld := hi.locked he hlocked
    have hmove (r : Nat) : MutexMove e (s.locks r) ((s.unlockRec e ed.lastRecNo).locks r)
        (ed.holds r) (({ ed with pc := pc' } : Editor).holds r) :=
      mutexMove_of_unlock hlocked hlocked' hheld r
    refine hi.quiet he ?_ ?_ ?_ ?_ hmove (fresh_of_not_locked hlocked' _) hreport rfl <;>
      simp only [State.unlockRec, if_pos hheld, State.setLock, State.put]
  | write put hpc hput hs => exact hs ▸ hi.write he hpc hput
  | print hpc hs => exact hs ▸ hi.print he hpc

theorem Linked.start (hi : Linked disk s) :
    Linked disk { s with editors := s.editors ++ [.new] } := by
  have hlocked : Editor.new.pc.locked = false := rfl
  refine ⟨fun r e => ?_, ?_, hi.history, fun p => ?_⟩
  · refine (at_append_of_not ?_ _ _).trans (hi.guards r e)
    simp [holds_of_not_locked hlocked]
  · exact forall_entry_append (fresh_of_not_locked hlocked _) hi.fresh
  · have hidle : Editor.new.reports p = 0 := rfl
    simp only [tally_append, tally_cons, tally_nil, hidle, Nat.add_zero]
    exact hi.counted p

end

theorem init_linked (disk : List Record) : Linked disk (State.init disk) where
  guards r e := by simp [State.init, At]
  fresh := by simp [State.init]
  history := rfl
  counted := by simp [State.init]

theorem step_linked {disk : List Record} {s s' : State} {a : Action} (hi : Linked disk s)
    (h : (program disk).step s a = some s') : Linked disk s' := by
  rcases step_cases h with rfl | ⟨e, ed, -, he, hm⟩
  · exact hi.start
  · exact hi.move he hm

theorem reachable_linked {disk : List Record} {s : State} (h : (program disk).Reachable s) :
    Linked disk s :=
  h.invariant (init_linked disk) fun _ _ _ hi _ ht => step_linked hi ht

/-- A change of a record on disk replaces the `orig_rec` of the editor that takes the step by
its `work_rec`. -/
theorem EditorMove.disk {disk : List Record} {s s' : State} {e : Nat} {ed : Editor}
    (hm : EditorMove s s' e ed) (hi : Linked disk s) (he : s.editors[e]? = some ed) {r : Nat}
    (hr : s'.disk[r]? ≠ s.disk[r]?) :
    ed.lastRecNo = r ∧ s.disk[r]? = some ed.origRec ∧ s'.disk[r]? = some ed.workRec := by
  cases hm with
  | write put hpc hput hs =>
    subst hs
    have hdisk := (hi.fresh e ed he).2 hpc
    by_cases hrec : ed.lastRecNo = r
    · subst hrec
      exact ⟨rfl, hdisk, List.getElem?_set_self (List.getElem?_eq_some_iff.mp hdisk).1⟩
    · exact absurd (List.getElem?_set_ne hrec) hr
  | unlock pc' hs hlocked =>
    subst hs
    rw [State.unlockRec, if_pos (hi.locked he hlocked)] at hr
    exact absurd rfl hr
  | stay hs | walk _ _ hs | fetch _ _ _ _ hs | enter _ _ _ _ _ hs | lock _ _ hs | reread _ _ _ hs
  | agree _ _ hs | conflict _ _ hs | fail _ _ hs | print _ hs =>
    subst hs
    exact absurd rfl hr

/-- Editor `e` fetches record 0 and enters the name `name`, keeping the rest. -/
def edit (e : Nat) (name : List UInt8) : List Action :=
  [.command e .get, .number e (some 0), .go e true, .line e (some name),
    .line e (some [newline]), .line e (some [newline])]

/-- Editor `e` goes on for `n` steps whose system calls succeed. -/
def going (e n : Nat) : List Action := List.replicate n (.go e true)

/-- Two editors, one after the other, change record 0 of a file with one record. -/
def twoUpdates : List Action :=
  [.start, .start] ++ edit 0 [65, newline] ++ .command 0 .put :: going 0 8 ++
    edit 1 [66, newline] ++ .command 1 .put :: going 1 8

end Osisp.Lab7
