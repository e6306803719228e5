import Osisp.AccessManager.Main
import Osisp.Lib.LastWriter

namespace Osisp.AccessManager

open Osisp.Lib

/-- What the program leaves of its copy `c`. It does not run when `temp_out` cannot be made. -/
def Pair.result (w : World) (j : Pair) (c : Content) : Option Content :=
  if w.creates j.tempOut then w.execvp j (j.prog.args ++ [j.modname]) c else some c

/-- The copy was made, and the program made `c'` of it. -/
def Pair.Changed (w : World) (j : Pair) (c' : Content) : Prop :=
  w.creates j.modname = true ∧ ∃ c, j.file.content = some c ∧ j.result w c = some c' ∧ c' ≠ c

/-- The pair comes to this name of the copy directory, with its copy or with its output. -/
def Pair.touches (w : World) (j : Pair) (name : FileName) : Bool :=
  w.creates j.modname &&
    (decide (name = j.modname) || j.file.content.isSome && decide (name = j.tempOut))

/-- What there is under such a name when the pair is done. -/
def Pair.leaves (w : World) (j : Pair) (name : FileName) : Option Content :=
  if name = j.modname then
    match j.file.content with
    | none => some []
    | some c => if j.result w c = some c then none else j.result w c
  else none

/-- MD5 tells the copy before the program from the copy after it. -/
def NoCollision (w : World) (j : Pair) : Prop :=
  ∀ c c', j.file.content = some c → j.result w c = some c' → w.md5 c = w.md5 c' → c = c'

theorem Pair.tempOut_ne (j : Pair) : j.tempOut ≠ j.modname := by
  intro h
  have hlen := congrArg List.length h
  rw [Pair.tempOut, List.length_append] at hlen
  have hout : ".out".toList.length = 4 := by decide
  omega

section Pair

variable (w : World) (j : Pair) (dir : Dir)

theorem executeProgram_lookup_self {c : Content} (h : dir.lookup j.modname = some c) :
    (executeProgram w j dir).lookup j.modname = j.result w c := by
  unfold executeProgram Pair.result
  by_cases hout : w.creates j.tempOut = true
  · have hcopy : (dir.insert j.tempOut []).lookup j.modname = some c := by
      rw [AList.lookup_insert_ne j.tempOut_ne.symm, h]
    simp only [hout, Bool.not_true, Bool.false_eq_true, if_false, if_true, hcopy]
    rw [AList.lookup_insert_ne j.tempOut_ne.symm, lookup_setFile_self]
  · rw [Bool.not_eq_true] at hout
    simp only [hout, Bool.not_false, if_true, Bool.false_eq_true, if_false]
    exact h

theorem executeProgram_lookup_ne {name : FileName} (hcopy : name ≠ j.modname)
    (hout : name ≠ j.tempOut) : (executeProgram w j dir).lookup name = dir.lookup name := by
  unfold executeProgram
  split
  · rfl
  · dsimp only
    split
    · rw [AList.lookup_insert_ne hout, AList.lookup_insert_ne hout]
    · rw [AList.lookup_insert_ne hout, lookup_setFile_ne hcopy, AList.lookup_insert_ne hout]

theorem printOutputAndRemove_lookup (removed name : FileName) :
    (printOutputAndRemove removed dir).lookup name =
      if name = removed then none else dir.lookup name := by
  unfold printOutputAndRemove
  by_cases hname : name = removed
  · subst hname
    rw [if_pos rfl]
    split
    · exact AList.lookup_erase name dir
    · rename_i hnone
      exact Option.not_isSome_iff_eq_none.mp hnone
  · rw [if_neg hname]
    split
    · exact AList.lookup_erase_ne hname
    · rfl

end Pair

/-- The copy is taken away again where its bytes are the old ones. -/
theorem runPair_copied (w : World) {j : Pair} (hmd5 : NoCollision w j) (dir : Dir) {c : Content}
    (hcreate : w.creates j.modname = true) (hfile : j.file.content = some c) :
    runPair w dir j = printOutputAndRemove j.tempOut
      (if j.result w c = some c then
        (executeProgram w j (dir.insert j.modname c)).erase j.modname
      else executeProgram w j (dir.insert j.modname c)) := by
  have hcopy := copyFile_undisturbed c (dir.lookup j.modname)
  have hbefore : (dir.insert j.modname c).lookup j.modname = some c := AList.lookup_insert dir
  have hafter := executeProgram_lookup_self w j _ hbefore
  have hhash : ((j.result w c).map w.md5).isSome ∧ some (w.md5 c) = (j.result w c).map w.md5 ↔
      j.result w c = some c := by
    cases hresult : j.result w c with
    | none => simp
    | some c' =>
      simp only [Option.map_some, Option.isSome_some, true_and, Option.some.injEq]
      constructor
      · intro hsame
        exact (hmd5 c c' hfile hresult hsame).symm
      · rintro rfl
        rfl
  simp only [runPair, hfile, hcreate, Option.isSome_some, Option.getD_some, hcopy, setFile,
    getMd5Hash, hbefore, hafter, Option.map_some, true_and, hhash]
  rw [if_neg (by decide)]

/-- A pair leaves what it should under the names it comes to, and the other names alone. -/
theorem runPair_lookup (w : World) {j : Pair} (hmd5 : NoCollision w j) (dir : Dir)
    (name : FileName) :
    (runPair w dir j).lookup name =
      if j.touches w name then j.leaves w name else dir.lookup name := by
  by_cases hcreate : w.creates j.modname = true
  · cases hfile : j.file.content with
    | none =>
      have hrun : runPair w dir j = dir.insert j.modname [] := by
        simp [runPair, copyFile, undisturbed, hfile, hcreate, setFile]
      rw [hrun]
      by_cases hname : name = j.modname
      · subst hname
        simp [Pair.touches, Pair.leaves, hcreate, hfile]
      · simp [Pair.touches, hcreate, hfile, hname]
    | some c =>
      rw [runPair_copied w hmd5 dir hcreate hfile, printOutputAndRemove_lookup]
      simp only [Pair.touches, Pair.leaves, hcreate, hfile, Option.isSome_some, Bool.true_and,
        Bool.or_eq_true, decide_eq_true_eq]
      by_cases hout : name = j.tempOut
      · subst hout
        rw [if_pos rfl, if_pos (.inr rfl), if_neg j.tempOut_ne]
      · rw [if_neg hout]
        by_cases hname : name = j.modname
        · subst hname
          have htouch : j.modname = j.modname ∨ j.modname = j.tempOut := .inl rfl
          rw [if_pos htouch, if_pos rfl]
          by_cases hsame : j.result w c = some c
          · rw [if_pos hsame, if_pos hsame, AList.lookup_erase]
          · rw [if_neg hsame, if_neg hsame]
            exact executeProgram_lookup_self w j _ (AList.lookup_insert dir)
        · have hother : ¬(name = j.modname ∨ name = j.tempOut) := not_or.mpr ⟨hname, hout⟩
          rw [if_neg hother]
          split
          · rw [AList.lookup_erase_ne hname, executeProgram_lookup_ne w j _ hname hout,
              AList.lookup_insert_ne hname]
          · rw [executeProgram_lookup_ne w j _ hname hout, AList.lookup_insert_ne hname]
  · rw [Bool.not_eq_true] at hcreate
    have hrun : runPair w dir j = setFile dir j.modname (dir.lookup j.modname) := by
      simp [runPair, copyFile, undisturbed, hcreate]
    rw [hrun, Pair.touches, hcreate]
    by_cases hname : name = j.modname
    · rw [hname, lookup_setFile_self]
      rfl
    · rw [lookup_setFile_ne hname]
      rfl

theorem Pair.Changed.touches {w : World} {j : Pair} {c' : Content} (h : j.Changed w c') :
    j.touches w j.modname = true := by
  simp [Pair.touches, h.1]

theorem Pair.Changed.leaves {w : World} {j : Pair} {c' : Content} (h : j.Changed w c') :
    j.leaves w j.modname = some c' := by
  obtain ⟨-, c, hfile, hresult, hne⟩ := h
  have hother : ¬some c' = some c := fun heq => hne (Option.some.inj heq)
  rw [Pair.leaves, if_pos rfl, hfile]
  simp only [hresult, if_neg hother]

/-- What is in the copy directory that `main` leaves. -/
theorem main_lookup {w : World} {namelist : List DirEntry} {programs : List ProgramInfo}
    (hmd5 : ∀ j ∈ pairs namelist programs, NoCollision w j) {name : FileName} {c : Content} :
    (∃ dir, main w namelist programs = some dir ∧ dir.lookup name = some c) ↔
      leftBy (Pair.touches w) (Pair.leaves w) (pairs namelist programs) name none = some c := by
  have hfinal : ((pairs namelist programs).foldl (runPair w) ∅).lookup name =
      leftBy (Pair.touches w) (Pair.leaves w) (pairs namelist programs) name none :=
    lookup_foldl (fun (dir : Dir) name => dir.lookup name) _
      (fun j hj dir name => runPair_lookup w (hmd5 j hj) dir name) ∅ name
  rw [main_eq, ← hfinal]
  dsimp only
  split
  · rename_i hempty
    have hnone : (pairs namelist programs).foldl (runPair w) ∅ = (∅ : Dir) :=
      AList.ext (List.isEmpty_iff.mp hempty)
    rw [hnone]
    simp
  · simp

/-- MD5 of the contents "1", "2", "1!" and "2!". -/
def md5Table (c : Content) : List Char :=
  if c = [0x31] then "c4ca4238a0b923820dcc509a6f75849b".toList
  else if c = [0x32] then "c81e728d9d4c2f636f067f89cc14862c".toList
  else if c = [0x31, 0x21] then "4f2778cb785a50e3874e3ef54cf2116a".toList
  else if c = [0x32, 0x21] then "ca8fc61b554172e2e0270a361d3a4b3a".toList
  else []

/-- Every program puts an exclamation mark at the end of its copy. -/
def markWorld : World where
  creates name := decide (name.length ≤ 255) && decide ('/' ∉ name)
  md5 := md5Table
  execvp _ _ copy := some (copy ++ [0x21])
  output _ := []

def markProgram : ProgramInfo := ⟨"mark".toList, ["mark".toList], []⟩

theorem noCollision_mark {j : Pair}
    (h : j.file.content = some [0x31] ∨ j.file.content = some [0x32]) :
    NoCollision markWorld j := by
  intro c c' hfile hresult
  rw [Pair.result] at hresult
  split at hresult
  · cases hresult
    rcases h with h | h
    · obtain rfl := Option.some.inj (hfile.symm.trans h)
      decide
    · obtain rfl := Option.some.inj (hfile.symm.trans h)
      decide
  · intro _
    exact Option.some.inj hresult

/-- Files with different stems. -/
def twoStems : List DirEntry :=
  [⟨"a.c".toList, true, some [0x31]⟩, ⟨"b.c".toList, true, some [0x32]⟩]

end Osisp.AccessManager
