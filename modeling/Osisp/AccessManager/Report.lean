import Osisp.AccessManager.Copies
import Osisp.AccessManager.Jobs
import Osisp.AccessManager.Output

namespace Osisp.AccessManager

open Osisp.Lib Osisp.Lib.Stdio

/-- The copy directory, and `output` of every program. -/
structure Session where
  dir : Dir
  output : Nat → Option Content

/-- `print_output_and_remove` for the program of this number. -/
def Session.readOutput (s : Session) (name : FileName) (p : Nat) : Session where
  dir := printOutputAndRemove name s.dir
  output := Function.update s.output p (addOutput (s.output p) (s.dir.lookup name))

/-- The body of the inner loop of `main`, as `runPair`, with the outputs. -/
def runJob (w : World) (s : Session) (j : Pair) : Session :=
  let calls := undisturbed j.file.content.isSome (w.creates j.modname)
  let (result, dst) := copyFile calls (j.file.content.getD []) (s.dir.lookup j.modname)
  let dir := setFile s.dir j.modname dst
  if result ≠ 0 then { s with dir }
  else
    let beforeHash := getMd5Hash w dir j.modname
    let dir := executeProgram w j dir
    let afterHash := getMd5Hash w dir j.modname
    let dir :=
      if beforeHash.isSome ∧ afterHash.isSome ∧ beforeHash = afterHash then dir.erase j.modname
      else dir
    { s with dir }.readOutput j.tempOut j.index

/-- The two loops of `main`. -/
def runJobs (w : World) (namelist : List DirEntry) (programs : List ProgramInfo) : Session :=
  namelist.foldl (fun s file =>
    if !file.regular then s
    else programs.zipIdx.foldl (fun s (prog, p) =>
      if prog.accepts file.name then runJob w s ⟨file, p, prog⟩ else s) s) ⟨∅, fun _ => none⟩

def bytes (s : List Char) : Content := s.map Char.toUInt8

theorem runJobs_eq (w : World) (namelist : List DirEntry) (programs : List ProgramInfo) :
    runJobs w namelist programs =
      (pairs namelist programs).foldl (runJob w) ⟨∅, fun _ => none⟩ := by
  rw [runJobs, pairs]
  generalize (⟨∅, fun _ => none⟩ : Session) = s
  induction namelist generalizing s with
  | nil => rfl
  | cons file namelist ih =>
    rw [List.foldl_cons, ih]
    cases hreg : file.regular with
    | false => simp [hreg]
    | true => simp [hreg, List.foldl_map, List.foldl_filter]

theorem runJob_dir (w : World) (s : Session) (j : Pair) :
    (runJob w s j).dir = runPair w s.dir j := by
  simp only [runJob, runPair]
  split <;> rfl

theorem foldl_runJob_dir (w : World) (js : List Pair) (s : Session) :
    (js.foldl (runJob w) s).dir = js.foldl (runPair w) s.dir := by
  induction js generalizing s with
  | nil => rfl
  | cons j js ih =>
    rw [List.foldl_cons, ih, runJob_dir]
    rfl

theorem main_eq_runJobs (w : World) (namelist : List DirEntry) (programs : List ProgramInfo) :
    main w namelist programs =
      let dir := (runJobs w namelist programs).dir
      if dir.entries.isEmpty then none else some dir := by
  rw [main_eq, runJobs_eq, foldl_runJob_dir]

/-- The names in the copy directory are names that can be created. -/
def Made (w : World) (dir : Dir) : Prop :=
  ∀ name, (dir.lookup name).isSome = true → w.creates name = true

/-- The output file of the pair. -/
def Pair.printed (w : World) (j : Pair) : Printed := ⟨j.index, w.output j⟩

section Output

variable {w : World} {dir : Dir} {j : Pair}

theorem Made.insert (h : Made w dir) {name : FileName} (hname : w.creates name = true)
    (c : Content) : Made w (dir.insert name c) := by
  intro other hother
  by_cases heq : other = name
  · rw [heq]
    exact hname
  · rw [AList.lookup_insert_ne heq] at hother
    exact h other hother

theorem Made.erase (h : Made w dir) (name : FileName) : Made w (dir.erase name) := by
  intro other hother
  by_cases heq : other = name
  · rw [heq, AList.lookup_erase] at hother
    cases hother
  · rw [AList.lookup_erase_ne heq] at hother
    exact h other hother

theorem Made.setFile (h : Made w dir) {name : FileName} {v : Option Content}
    (hname : v.isSome = true → w.creates name = true) : Made w (setFile dir name v) := by
  cases v with
  | none => exact h.erase name
  | some c => exact h.insert (hname rfl) c

theorem Made.executeProgram (h : Made w dir) (hname : w.creates j.modname = true) :
    Made w (executeProgram w j dir) := by
  unfold AccessManager.executeProgram
  split_ifs with hout
  · exact h
  · have hout : w.creates j.tempOut = true := by simpa using hout
    have hopened := h.insert hout []
    dsimp only
    split
    · exact hopened.insert hout _
    · exact (hopened.setFile fun _ => hname).insert hout _

theorem Made.printOutputAndRemove (h : Made w dir) (name : FileName) :
    Made w (printOutputAndRemove name dir) := by
  unfold AccessManager.printOutputAndRemove
  split_ifs
  · exact h.erase name
  · exact h

/-- The copy directory before the output is read. -/
def Pair.tested (w : World) (j : Pair) (dir : Dir) (c : Content) : Dir :=
  let after := executeProgram w j (dir.insert j.modname c)
  if (getMd5Hash w after j.modname).isSome ∧
      some (w.md5 c) = getMd5Hash w after j.modname then after.erase j.modname
  else after

theorem runJob_copied {s : Session} {c : Content} (hcreate : w.creates j.modname = true)
    (hfile : j.file.content = some c) :
    runJob w s j = { s with dir := j.tested w s.dir c }.readOutput j.tempOut j.index := by
  have hcopy := copyFile_undisturbed c (s.dir.lookup j.modname)
  have hbefore : getMd5Hash w (s.dir.insert j.modname c) j.modname = some (w.md5 c) := by
    rw [getMd5Hash, AList.lookup_insert]
    rfl
  simp only [runJob, Pair.tested, hfile, hcreate, Option.isSome_some, Option.getD_some, hcopy,
    setFile, hbefore, true_and, ne_eq, not_true_eq_false, if_false]

theorem runJob_skipped {s : Session}
    (h : ¬(j.file.content.isSome = true ∧ w.creates j.modname = true)) :
    runJob w s j = ⟨setFile s.dir j.modname
      (if w.creates j.modname then some [] else s.dir.lookup j.modname), s.output⟩ := by
  cases hread : j.file.content.isSome <;> cases hcreate : w.creates j.modname
  · simp [runJob, copyFile, undisturbed, hread, hcreate]
  · simp [runJob, copyFile, undisturbed, hread, hcreate]
  · simp [runJob, copyFile, undisturbed, hread, hcreate]
  · exact absurd ⟨hread, hcreate⟩ h

theorem Made.tested (h : Made w dir) (hcreate : w.creates j.modname = true) (c : Content) :
    Made w (j.tested w dir c) := by
  have hrun := (h.insert hcreate c).executeProgram (j := j) hcreate
  rw [Pair.tested]
  split_ifs
  · exact hrun.erase j.modname
  · exact hrun

theorem Made.runJob {s : Session} (h : Made w s.dir) (j : Pair) : Made w (runJob w s j).dir := by
  by_cases hrun : j.file.content.isSome = true ∧ w.creates j.modname = true
  · obtain ⟨c, hfile⟩ := Option.isSome_iff_exists.mp hrun.1
    rw [runJob_copied hrun.2 hfile]
    exact (h.tested hrun.2 c).printOutputAndRemove _
  · rw [runJob_skipped hrun]
    apply h.setFile
    split_ifs with hcreate
    · exact fun _ => hcreate
    · exact h j.modname

end Output

section Left

variable {w : World} {dir : Dir} {j : Pair} {name : FileName} {c' : Content}

/-- What there is after a pair was there before, or the pair's program has made it, or the file of
the pair could not be read. -/
theorem runPair_left (h : (runPair w dir j).lookup name = some c') :
    dir.lookup name = some c' ∨
      j.modname = name ∧ (j.Changed w c' ∨ j.file.content = none ∧ c' = []) := by
  have hjob := runJob_dir w ⟨dir, fun _ => none⟩ j
  rw [← hjob] at h
  by_cases hrun : j.file.content.isSome = true ∧ w.creates j.modname = true
  · obtain ⟨c, hfile⟩ := Option.isSome_iff_exists.mp hrun.1
    rw [runJob_copied hrun.2 hfile] at h
    change (printOutputAndRemove j.tempOut (j.tested w dir c)).lookup name = some c' at h
    rw [printOutputAndRemove_lookup] at h
    split_ifs at h with hout
    by_cases hname : name = j.modname
    · subst hname
      right
      have hcopy : (dir.insert j.modname c).lookup j.modname = some c := AList.lookup_insert dir
      have hafter := executeProgram_lookup_self w j _ hcopy
      rw [Pair.tested] at h
      split_ifs at h with htest
      · rw [AList.lookup_erase] at h
        cases h
      · rw [hafter] at h
        refine ⟨rfl, .inl ⟨hrun.2, c, hfile, h, ?_⟩⟩
        rintro rfl
        apply htest
        rw [getMd5Hash, hafter, h]
        exact ⟨rfl, rfl⟩
    · left
      have hafter := executeProgram_lookup_ne w j (dir.insert j.modname c) hname hout
      rw [AList.lookup_insert_ne hname] at hafter
      rw [Pair.tested] at h
      split_ifs at h
      · rw [AList.lookup_erase_ne hname, hafter] at h
        exact h
      · exact hafter.symm.trans h
  · rw [runJob_skipped hrun] at h
    change (setFile dir j.modname _).lookup name = some c' at h
    by_cases hname : name = j.modname
    · subst hname
      rw [lookup_setFile_self] at h
      split_ifs at h with hcreate
      · right
        have hread : j.file.content = none := by
          by_contra hsome
          exact hrun ⟨Option.isSome_iff_ne_none.mpr hsome, hcreate⟩
        exact ⟨rfl, .inr ⟨hread, (Option.some.inj h).symm⟩⟩
      · exact .inl h
    · rw [lookup_setFile_ne hname] at h
      exact .inl h

theorem foldl_runPair_left (js : List Pair)
    (h : (js.foldl (runPair w) ∅).lookup name = some c') :
    ∃ j ∈ js, j.modname = name ∧ (j.Changed w c' ∨ j.file.content = none ∧ c' = []) := by
  induction js using List.reverseRecOn with
  | nil =>
    rw [List.foldl_nil, AList.lookup_empty] at h
    cases h
  | append_singleton js j ih =>
    rw [List.foldl_append, List.foldl_cons, List.foldl_nil] at h
    rcases runPair_left h with hbefore | hj
    · obtain ⟨i, hi, hleft⟩ := ih hbefore
      exact ⟨i, List.mem_append_left _ hi, hleft⟩
    · exact ⟨j, List.mem_append_right _ List.mem_cons_self, hj⟩

/-- Every file that `main` leaves in the copy directory, which was empty, is a copy that a program
asked for has changed, or the empty copy of a file that cannot be read: no unchanged copy and no
output file stays, whether or not MD5 collides. -/
theorem copies_left {namelist : List DirEntry} {programs : List ProgramInfo}
    (h : main w namelist programs = some dir) (hname : dir.lookup name = some c') :
    ∃ j ∈ wanted namelist programs, j.modname = name ∧
      (j.Changed w c' ∨ j.file.content = none ∧ c' = []) := by
  rw [main_eq] at h
  dsimp only at h
  split_ifs at h
  obtain rfl := Option.some.inj h
  rw [← pairs_eq_wanted]
  exact foldl_runPair_left _ hname

end Left

theorem copies_left_mark : ∃ j ∈ wanted twoStems [markProgram], j.modname = "b_mark".toList ∧
    (j.Changed markWorld [0x32, 0x21] ∨ j.file.content = none ∧ [0x32, 0x21] = ([] : Content)) := by
  have hpairs : pairs twoStems [markProgram] =
      [⟨⟨"a.c".toList, true, some [0x31]⟩, 0, markProgram⟩,
        ⟨⟨"b.c".toList, true, some [0x32]⟩, 0, markProgram⟩] := rfl
  have hmd5 : ∀ j ∈ pairs twoStems [markProgram], NoCollision markWorld j := by
    intro j hj
    rw [hpairs] at hj
    rcases List.mem_pair.mp hj with rfl | rfl
    · exact noCollision_mark (.inl rfl)
    · exact noCollision_mark (.inr rfl)
  obtain ⟨dir, hmain, hcopy⟩ : ∃ dir, main markWorld twoStems [markProgram] = some dir ∧
      dir.lookup "b_mark".toList = some [0x32, 0x21] := by
    rw [main_lookup hmd5]
    decide
  exact copies_left hmain hcopy

end Osisp.AccessManager
