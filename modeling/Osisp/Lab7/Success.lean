import Osisp.Lab7.CompareAndSwap

namespace Osisp.Lab7

open Osisp.Lib Osisp.Lib.Stdio

/-- `work_rec` is what the user entered, or what the last conflict put in its place; while the
user enters it there has been no conflict. -/
structure Editor.Tracked (ed : Editor) : Prop where
  entering : ed.pc.entering = true → ed.conflict = none
  own : ed.conflict = none → ed.workRec = ed.built
  theirs : ∀ rec, ed.conflict = some rec → ed.workRec = rec

/-- No conflict has put a record in the place of the user's edit but one equal to it, and none
is about to. -/
structure Editor.Clean (ed : Editor) : Prop where
  conflict : ∀ rec, ed.conflict = some rec → rec = ed.built
  current : ed.pc = .putCompare → ed.current = ed.origRec ∨ ed.current = ed.built

/-- The write stores the user's edit exactly where no conflict has put another record in its
place. -/
def Put.Exact (p : Put) : Prop :=
  p.stored = p.built ↔ ∀ rec, p.conflict = some rec → rec = p.built

/-- The re-read of `do_put` finds on disk what `do_get` fetched, or what the user entered. -/
def Editor.Unchanged (disk : List Record) (ed : Editor) : Prop :=
  ed.pc = .putReread →
    disk[ed.lastRecNo]? = some ed.origRec ∨ disk[ed.lastRecNo]? = some ed.built

instance (disk : List Record) (ed : Editor) : Decidable (ed.Unchanged disk) :=
  inferInstanceAs (Decidable (_ → _))

section

variable {ed ed' : Editor}

theorem Editor.Tracked.exact (ht : ed.Tracked) :
    ed.workRec = ed.built ↔ ∀ rec, ed.conflict = some rec → rec = ed.built := by
  cases hc : ed.conflict with
  | none => simp [ht.own hc]
  | some rec => simp [ht.theirs rec hc]

theorem Editor.Tracked.keep (ht : ed.Tracked) (hwork : ed'.workRec = ed.workRec)
    (hbuilt : ed'.built = ed.built) (hconflict : ed'.conflict = ed.conflict)
    (henter : ed'.pc.entering = true → ed.pc.entering = true) : ed'.Tracked where
  entering h := hconflict.trans (ht.entering (henter h))
  own h := by rw [hwork, hbuilt]; exact ht.own (hconflict.symm.trans h)
  theirs rec h := hwork.trans (ht.theirs rec (hconflict.symm.trans h))

theorem Editor.Clean.keep (hc : ed.Clean) (hbuilt : ed'.built = ed.built)
    (hconflict : ed'.conflict = ed.conflict) (hpc : ed'.pc ≠ .putCompare) : ed'.Clean where
  conflict rec h := by rw [hbuilt]; exact hc.conflict rec (hconflict.symm.trans h)
  current h := absurd h hpc

theorem ne_putCompare_of_not_locked {pc : Pc} (h : pc.locked = false) : pc ≠ .putCompare := by
  rintro rfl
  cases h

variable {s s' : State} {e : Nat}

theorem EditorMove.tracked (hm : EditorMove s s' e ed) (he : s.editors[e]? = some ed)
    (ht : ed.Tracked) : ∃ ed', s'.editors = s.editors.set e ed' ∧ ed'.Tracked ∧
      (ed.Unchanged s.disk → ed.Clean → ed'.Clean) := by
  cases hm with
  | stay hs =>
    subst hs
    exact ⟨ed, (set_of_getElem? he).symm, ht, fun _ hc => hc⟩
  | walk pc' hasWork' hs hlocked hlocked' hreport hreport' henter =>
    subst hs
    exact ⟨_, rfl, ht.keep rfl rfl rfl henter,
      fun _ hc => hc.keep rfl rfl (ne_putCompare_of_not_locked hlocked')⟩
  | fetch rn rec hpc hrec hs =>
    subst hs
    refine ⟨_, rfl, ⟨fun _ => rfl, fun _ => rfl, ?_⟩, fun _ _ => ⟨?_, ?_⟩⟩
    · intro rec' h
      cases h
    · intro rec' h
      cases h
    · intro h
      cases h
  | enter pc' rec hpc hlocked' hreport' hs =>
    subst hs
    have hc := ht.entering hpc
    refine ⟨_, rfl, ⟨fun _ => hc, fun _ => rfl, fun rec' h => ?_⟩, fun _ _ => ⟨fun rec' h => ?_,
      fun h => absurd h (ne_putCompare_of_not_locked hlocked')⟩⟩ <;>
    · have h : ed.conflict = some rec' := h
      rw [hc] at h
      cases h
  | lock hpc hfree hs =>
    subst hs
    exact ⟨_, rfl, ht.keep rfl rfl rfl (fun h => by cases h),
      fun _ hc => hc.keep rfl rfl (fun h => by cases h)⟩
  | reread rec hpc hrec hs =>
    subst hs
    refine ⟨_, rfl, ht.keep rfl rfl rfl (fun h => by cases h),
      fun hu hc => ⟨hc.conflict, fun _ => ?_⟩⟩
    have hu := hu hpc
    rw [hrec] at hu
    simpa using hu
  | agree hpc heq hs =>
    subst hs
    exact ⟨_, rfl, ht.keep rfl rfl rfl (fun h => by cases h),
      fun _ hc => hc.keep rfl rfl (fun h => by cases h)⟩
  | conflict hpc hne hs =>
    subst hs
    refine ⟨_, rfl, ⟨(fun h => by cases h), (fun h => by cases h), fun rec h => Option.some.inj h⟩,
      fun _ hc => ⟨?_, fun h => by cases h⟩⟩
    intro rec h
    rcases hc.current hpc with horig | hbuilt
    · exact absurd horig hne
    · exact (Option.some.inj h).symm.trans hbuilt
  | fail hlocked hreport hs =>
    subst hs
    exact ⟨_, rfl, ht.keep rfl rfl rfl (fun h => by cases h),
      fun _ hc => hc.keep rfl rfl (fun h => by cases h)⟩
  | unlock pc' hs hlocked hlocked' hreport henter =>
    subst hs
    refine ⟨{ ed with pc := pc' }, ?_, ht.keep rfl rfl rfl fun h => ?_,
      fun _ hc => hc.keep rfl rfl (ne_putCompare_of_not_locked hlocked')⟩
    · simp only [State.unlockRec]
      split_ifs <;> rfl
    · rw [henter] at h
      cases h
  | write put hpc hput hs =>
    subst hs
    exact ⟨_, rfl, ht.keep rfl rfl rfl (fun h => by cases h),
      fun _ hc => hc.keep rfl rfl (fun h => by cases h)⟩
  | print hpc hs =>
    subst hs
    exact ⟨_, rfl, ht.keep rfl rfl rfl (fun h => by cases h),
      fun _ hc => hc.keep rfl rfl (fun h => by cases h)⟩

/-- A new write is one of the moving editor's edit. -/
theorem EditorMove.puts (hm : EditorMove s s' e ed) {p : Put} (hp : p ∈ s'.puts) :
    p ∈ s.puts ∨ p.stored = ed.workRec ∧ p.built = ed.built ∧ p.conflict = ed.conflict := by
  cases hm with
  | write put hpc hput hs =>
    subst hs
    rcases List.mem_append.mp hp with hp | hp
    · exact .inl hp
    · rw [List.mem_singleton.mp hp, hput]
      exact .inr ⟨rfl, rfl, rfl⟩
  | unlock pc' hs =>
    subst hs
    simp only [State.unlockRec] at hp
    split_ifs at hp <;> exact .inl hp
  | stay hs | walk _ _ hs | fetch _ _ _ _ hs | enter _ _ _ _ _ hs | lock _ _ hs | reread _ _ _ hs
  | agree _ _ hs | conflict _ _ hs | fail _ _ hs | print _ hs =>
    subst hs
    exact .inl hp

end

/-- The step is not a re-read of `do_put` that finds another record than the one fetched. -/
def Good (s : State) (a : Action) : Prop :=
  ∀ e ∈ a.actor, ∀ ed ∈ s.editors[e]?, ed.Unchanged s.disk

instance (s : State) (a : Action) : Decidable (Good s a) :=
  inferInstanceAs (Decidable (∀ e ∈ a.actor, ∀ ed ∈ s.editors[e]?, ed.Unchanged s.disk))

/-- The edits of all editors and all writes so far. -/
structure Edits (s : State) : Prop where
  tracked : ∀ (e : Nat) (ed : Editor), s.editors[e]? = some ed → ed.Tracked
  exact : ∀ p ∈ s.puts, p.Exact

structure CleanEdits (s : State) : Prop extends Edits s where
  clean : ∀ (e : Nat) (ed : Editor), s.editors[e]? = some ed → ed.Clean
  intact : ∀ p ∈ s.puts, ∀ rec, p.conflict = some rec → rec = p.built

theorem new_tracked : Editor.new.Tracked := ⟨nofun, fun _ => rfl, nofun⟩

theorem new_clean : Editor.new.Clean := ⟨nofun, nofun⟩

theorem init_edits (disk : List Record) : CleanEdits (State.init disk) where
  tracked := by simp [State.init]
  exact := by simp [State.init]
  clean := by simp [State.init]
  intact := by simp [State.init]

theorem step_edits {disk : List Record} {s s' : State} {a : Action} (hi : Edits s)
    (h : (program disk).step s a = some s') : Edits s' := by
  rcases step_cases h with rfl | ⟨e, ed, -, he, hm⟩
  · exact ⟨forall_entry_append new_tracked hi.tracked, hi.exact⟩
  · have ht := hi.tracked e ed he
    obtain ⟨ed', hset, ht', -⟩ := hm.tracked he ht
    refine ⟨forall_entry_set hset ht' fun u x _ hx => hi.tracked u x hx, fun p hp => ?_⟩
    rcases hm.puts hp with hp | ⟨hstored, hbuilt, hconflict⟩
    · exact hi.exact p hp
    · rw [Put.Exact, hstored, hbuilt, hconflict]
      exact ht.exact

theorem step_cleanEdits {disk : List Record} {s s' : State} {a : Action} (hi : CleanEdits s)
    (hgood : Good s a) (h : (program disk).step s a = some s') : CleanEdits s' := by
  have hedits := step_edits hi.toEdits h
  rcases step_cases h with rfl | ⟨e, ed, ha, he, hm⟩
  · exact ⟨hedits, forall_entry_append new_clean hi.clean, hi.intact⟩
  · obtain ⟨ed', hset, -, hc'⟩ := hm.tracked he (hi.tracked e ed he)
    have hc := hi.clean e ed he
    refine ⟨hedits, forall_entry_set hset (hc' (hgood e ha ed he) hc) fun u x _ hx =>
      hi.clean u x hx, fun p hp => ?_⟩
    rcases hm.puts hp with hp | ⟨hstored, hbuilt, hconflict⟩
    · exact hi.intact p hp
    · rw [hbuilt, hconflict]
      exact hc.conflict

theorem reachable_edits {disk : List Record} {s : State} (h : (program disk).Reachable s) :
    Edits s :=
  h.invariant (init_edits disk).toEdits fun _ _ _ hi _ ht => step_edits hi ht

theorem reach_cleanEdits {disk : List Record} {s : State} (h : (program disk).Reach Good s) :
    CleanEdits s :=
  h.invariant (init_edits disk) fun _ _ _ hi hg ht => step_cleanEdits hi hg ht

theorem Linked.mem_puts {disk : List Record} {s : State} (hi : Linked disk s) {p : Put}
    (hp : p ∈ s.updated) : p ∈ s.puts := by
  have hc := hi.counted p
  have hpos := List.count_pos_iff.mpr hp
  exact List.count_pos_iff.mp (by omega)

/-- A put that reports success has stored the user's edit, in the runs in which no re-read
finds a changed record. In any run it has stored it exactly where no conflict put another record
in its place. -/
theorem put_stores_edit (disk : List Record) :
    (∀ s, (program disk).Reach Good s → ∀ p ∈ s.updated, p.stored = p.built) ∧
    ∀ s, (program disk).Reachable s → ∀ p ∈ s.updated,
      (p.stored = p.built ↔ ∀ rec, p.conflict = some rec → rec = p.built) := by
  constructor
  · intro s hs p hp
    have hi := reach_cleanEdits hs
    have hmem := (reachable_linked hs.reachable).mem_puts hp
    exact (hi.exact p hmem).mpr (hi.intact p hmem)
  · intro s hs p hp
    exact (reachable_edits hs).exact p ((reachable_linked hs).mem_puts hp)

theorem put_stores_edit_twice :
    ∃ s, (program [.zero]).Reach Good s ∧ s.updated.length = 2 ∧
      (∀ p ∈ s.updated, p.stored = p.built) ∧
      ∀ p ∈ s.updated, (p.stored = p.built ↔ ∀ rec, p.conflict = some rec → rec = p.built) := by
  obtain ⟨s, hs, hm⟩ := System.exists_reach_of_run (M := program [.zero]) Good twoUpdates
    (fun s => s.updated.length == 2) (by decide +kernel) (by decide +kernel)
  exact ⟨s, hs, by simpa using hm, (put_stores_edit [.zero]).1 s hs,
    (put_stores_edit [.zero]).2 s hs.reachable⟩

/-- Both editors fetch record 0 and enter a name. The second one puts its edit; the first one
finds the conflict, retries and reports success. -/
def lostEdit : List Action :=
  [.start, .start] ++ edit 0 [65, newline] ++ edit 1 [66, newline] ++
    .command 1 .put :: going 1 8 ++ .command 0 .put :: going 0 13

theorem reported_edit_lost :
    ¬∀ disk s, (program disk).Reachable s → ∀ p ∈ s.updated, p.stored = p.built := by
  intro h
  obtain ⟨s, hs, hm⟩ := System.exists_reach_of_run (M := program [.zero]) (fun _ _ => True)
    lostEdit (fun s => s.updated.any fun p => p.stored != p.built) (by decide +kernel)
    (by decide +kernel)
  obtain ⟨p, hp, hne⟩ := List.any_eq_true.mp hm
  exact (bne_iff_ne.mp hne) (h _ s hs p hp)

end Osisp.Lab7
