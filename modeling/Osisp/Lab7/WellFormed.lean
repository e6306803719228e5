import Osisp.Lib.Mutex
import Osisp.Lab7.CompareAndSwap
import Osisp.Lab7.Generation

namespace Osisp.Lab7

open Osisp.Lib

/-- The places where the editor builds `work_rec`, or is on its way to write it. -/
def Pc.carries : Pc → Bool
  | .getName | .getAddress | .getSemester
  | .putQuery | .putLock | .putReread | .putCompare | .putConflict | .putWrite => true
  | _ => false

/-- Before the first `do_get` the records of an editor are zero; then `has_work` is down. -/
structure Editor.Sound (ed : Editor) : Prop where
  work : ed.pc.carries = true ∨ ed.hasWork = true → ed.workRec.WellFormed
  current : ed.pc = .putCompare → ed.current.WellFormed

/-- Well-formed records on disk and in the hands of the editors. -/
structure Kept (s : State) : Prop where
  disk : ∀ r ∈ s.disk, r.WellFormed
  editors : ∀ (e : Nat) (ed : Editor), s.editors[e]? = some ed → ed.Sound

section

variable {s s' : State} {e : Nat} {ed ed' : Editor}

theorem Kept.put (hk : Kept s) (hs : ed'.Sound) : Kept (s.put e ed') := by
  refine ⟨hk.disk, ?_⟩
  have hset : (s.put e ed').editors = s.editors.set e ed' := rfl
  exact forall_entry_set hset hs fun u x _ hx => hk.editors u x hx

theorem Kept.setLock (hk : Kept s) (r : Nat) (holder : Option Nat) : Kept (s.setLock r holder) :=
  ⟨hk.disk, hk.editors⟩

theorem Kept.unlockRec (hk : Kept s) (r : Nat) : Kept (s.unlockRec e r) := by
  unfold State.unlockRec
  split_ifs
  · exact hk.setLock r none
  · exact hk

theorem Editor.Sound.rest (hs : ed.Sound) {pc : Pc} {hasWork : Bool} (hpc : pc.carries = false)
    (hwork : hasWork = true → ed.hasWork = true) :
    ({ ed with pc := pc, hasWork := hasWork } : Editor).Sound := by
  refine ⟨fun h => ?_, fun h => ?_⟩
  · rcases h with h | h
    · rw [hpc] at h
      cases h
    · exact hs.work (.inr (hwork h))
  · rw [show pc = .putCompare from h] at hpc
    cases hpc

theorem Editor.Sound.carry (hs : ed.Sound) {pc : Pc} {hasWork : Bool}
    (hold : ed.pc.carries = true ∨ ed.hasWork = true) (hpc : pc ≠ .putCompare) :
    ({ ed with pc := pc, hasWork := hasWork } : Editor).Sound :=
  ⟨fun _ => hs.work hold, fun h => absurd h hpc⟩

theorem commandStep_kept {c : Command} (hk : Kept s) (hs : ed.Sound)
    (h : commandStep s e ed c = some s') : Kept s' := by
  unfold commandStep at h
  split at h
  · cases c <;> simp only at h
    case other =>
      cases h
      exact hk
    all_goals
      cases h
      apply hk.put
      exact hs.rest rfl id
  · cases h

theorem numberStep_kept {rn : Option Int} (hk : Kept s) (hs : ed.Sound)
    (h : numberStep s e ed rn = some s') : Kept s' := by
  unfold numberStep at h
  split at h
  · cases rn <;> simp only at h
    case none =>
      cases h
      apply hk.put
      exact hs.rest rfl id
    case some rn =>
      split_ifs at h <;> cases h <;> apply hk.put
      · exact hs.rest rfl id
      · exact hs.rest rfl id
  · cases h

/-- A prompt: whatever is typed, `work_rec` stays well formed, also where the input ends. -/
theorem lineStep_kept {enter : List UInt8 → Record → Option Record} {next : Pc}
    {buf : Option (List UInt8)} (hk : Kept s) (hs : ed.Sound) (hpc : ed.pc.carries = true)
    (hnext : next ≠ .putCompare)
    (henter : ∀ buf rec rec', rec.WellFormed → enter buf rec = some rec' → rec'.WellFormed) :
    Kept (lineStep s e ed enter next buf) := by
  unfold lineStep
  cases buf with
  | none =>
    apply hk.put
    exact hs.rest rfl id
  | some buf =>
    simp only
    split_ifs
    · apply hk.put
      exact hs.carry (.inl hpc) hnext
    · split
      · exact hk
      · next rec hrec =>
        apply hk.put
        exact ⟨fun _ => henter buf _ rec (hs.work (.inl hpc)) hrec, fun h => absurd h hnext⟩

theorem goStep_kept {ok : Bool} (hk : Kept s) (hs : ed.Sound)
    (h : goStep s e ed ok = some s') : Kept s' := by
  obtain ⟨pc, orig, work, recNo, hasWork, current, built, conflict, put⟩ := ed
  cases pc <;> simp only [goStep] at h
  case getRead rn =>
    split at h
    · cases h
    · next rec hrec =>
      have hw : rec.WellFormed := hk.disk rec (List.mem_of_getElem? hrec)
      split_ifs at h <;> cases h <;> apply hk.put
      · exact ⟨fun _ => hw, (fun hpc => by cases hpc)⟩
      · exact hs.rest rfl id
  case putTest =>
    split_ifs at h with hwork heq <;> cases h <;> apply hk.put
    · exact hs.rest rfl id
    · exact hs.rest rfl (fun h => by cases h)
    · exact hs.carry (.inr (by simpa using hwork)) (by decide)
  case putQuery =>
    split_ifs at h <;> cases h <;> apply hk.put
    · exact hs.carry (.inl rfl) (by decide)
    · exact hs.rest rfl id
  case putLock =>
    split_ifs at h <;> cases h
    · apply (hk.setLock _ _).put
      exact hs.carry (.inl rfl) (by decide)
    · apply hk.put
      exact hs.rest rfl id
  case putReread =>
    split at h
    · cases h
    · next rec hrec =>
      have hw : rec.WellFormed := hk.disk rec (List.mem_of_getElem? hrec)
      split_ifs at h <;> cases h <;> apply hk.put
      · exact ⟨fun _ => hs.work (.inl rfl), fun _ => hw⟩
      · exact hs.rest rfl id
  case putCompare =>
    -- a conflict takes over the record of another editor, which was on disk
    have hw := hs.current rfl
    split_ifs at h <;> cases h <;> apply hk.put
    · exact ⟨fun _ => hw, (fun hpc => by cases hpc)⟩
    · exact hs.carry (.inl rfl) (by decide)
  case putConflict =>
    cases h
    apply (hk.unlockRec _).put
    exact hs.carry (.inl rfl) (by decide)
  case putWrite =>
    have hw := hs.work (.inl rfl)
    split_ifs at h <;> cases h
    · refine ⟨fun r hr => ?_, (hk.put ?_).editors⟩
      · rcases List.mem_or_eq_of_mem_set hr with hr | rfl
        · exact hk.disk r hr
        · exact hw
      · exact ⟨fun _ => hw, (fun hpc => by cases hpc)⟩
    · apply hk.put
      exact hs.rest rfl id
  case putFail | putUnlock =>
    cases h
    apply (hk.unlockRec _).put
    exact hs.rest rfl id
  case putPrint =>
    cases h
    exact ⟨hk.disk, (hk.put (hs.rest rfl fun h => by cases h)).editors⟩
  case command | getNumber | getName | getAddress | getSemester | exited => cases h

end

theorem step_kept {disk : List Record} {s s' : State} {a : Action} (hk : Kept s)
    (h : (program disk).step s a = some s') : Kept s' := by
  cases a with
  | start =>
    cases h
    refine ⟨hk.disk, fun e ed hed => ?_⟩
    rcases entry_of_append hed with rfl | hed
    · refine ⟨fun h => ?_, fun h => by cases h⟩
      rcases h with h | h <;> cases h
    · exact hk.editors e ed hed
  | command e c =>
    obtain ⟨ed, he, hstep⟩ := Option.bind_eq_some_iff.mp h
    exact commandStep_kept hk (hk.editors e ed he) hstep
  | number e rn =>
    obtain ⟨ed, he, hstep⟩ := Option.bind_eq_some_iff.mp h
    exact numberStep_kept hk (hk.editors e ed he) hstep
  | line e buf =>
    obtain ⟨ed, he, hstep⟩ := Option.bind_eq_some_iff.mp h
    have hs := hk.editors e ed he
    split at hstep <;> cases hstep
    · next hpc =>
      apply lineStep_kept hk hs (by rw [hpc]; rfl) (by decide)
      intro _ _ _
      exact enterName_wellFormed
    · next hpc =>
      apply lineStep_kept hk hs (by rw [hpc]; rfl) (by decide)
      intro _ _ _
      exact enterAddress_wellFormed
    · next hpc =>
      apply lineStep_kept hk hs (by rw [hpc]; rfl) (by decide)
      intro _ _ _
      exact enterSemester_wellFormed
  | go e ok =>
    obtain ⟨ed, he, hstep⟩ := Option.bind_eq_some_iff.mp h
    exact goStep_kept hk (hk.editors e ed he) hstep

/-- The records of the data file stay well formed: from a file that `generation` wrote, with any
accepted number of records and whatever was in its variable `rec` before. -/
theorem records_stay_wellFormed {arg : List UInt8} {rec : Record} {disk : List Record}
    (hgen : generation arg rec = some disk) {s : State} (h : (program disk).Reachable s) :
    ∀ r ∈ s.disk, r.WellFormed := by
  have hinit : Kept (program disk).init :=
    ⟨generation_wellFormed hgen, fun e ed he => by simp [program, State.init] at he⟩
  exact (h.invariant hinit fun _ _ _ hi _ ht => step_kept hi ht).disk

/-- A file of 10 records whose first record two users have changed, one after the other. -/
theorem records_stay_wellFormed_ten :
    ∃ disk, generation (ascii "10") .zero = some disk ∧ ∃ s, (program disk).Reachable s ∧
      s.updated.length = 2 ∧ s.disk ≠ disk ∧ ∀ r ∈ s.disk, r.WellFormed := by
  have hgen : generation (ascii "10") .zero = some (writeRecords .zero 0 10) := by rfl
  obtain ⟨s, hs, hm⟩ := System.exists_reach_of_run (M := program (writeRecords .zero 0 10))
    (fun _ _ => True) twoUpdates
    (fun s => s.updated.length == 2 && s.disk != writeRecords .zero 0 10) (by decide +kernel)
    (by decide +kernel)
  simp only [Bool.and_eq_true, beq_iff_eq, bne_iff_ne] at hm
  exact ⟨_, hgen, s, hs, hm.1, hm.2, records_stay_wellFormed hgen hs⟩

end Osisp.Lab7
