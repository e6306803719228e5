import Mathlib.Data.List.Infix
import Osisp.AccessManager.Main

namespace Osisp.AccessManager

open Osisp.Lib

/-- The file is one the program is asked for: it has one of the patterns in its name, or there
are none. -/
def ProgramInfo.Wants (prog : ProgramInfo) (filename : FileName) : Prop :=
  prog.filePatterns = [] ∨ ∃ pattern ∈ prog.filePatterns, pattern <:+: filename

instance (prog : ProgramInfo) (filename : FileName) : Decidable (prog.Wants filename) :=
  inferInstanceAs (Decidable (prog.filePatterns = [] ∨
    ∃ pattern ∈ prog.filePatterns, pattern <:+: filename))

/-- The jobs asked for: files in the order of `scandir`, programs in that of the command line. -/
def wanted (namelist : List DirEntry) (programs : List ProgramInfo) : List Pair :=
  (namelist.filter DirEntry.regular).flatMap fun file =>
    (programs.zipIdx.filter fun (prog, _) => prog.Wants file.name).map fun (prog, p) =>
      ⟨file, p, prog⟩

def Pair.copyResult (w : World) (dir : Dir) (j : Pair) : Int :=
  (copyFile (undisturbed j.file.content.isSome (w.creates j.modname))
    (j.file.content.getD []) (dir.lookup j.modname)).1

/-- `runPair`, with the pairs for which `execute_program` was called. -/
def logPair (w : World) (s : Dir × List Pair) (j : Pair) : Dir × List Pair :=
  (runPair w s.1 j, if j.copyResult w s.1 ≠ 0 then s.2 else s.2 ++ [j])

/-- The two loops of `main`. -/
def mainLog (w : World) (namelist : List DirEntry) (programs : List ProgramInfo) :
    Dir × List Pair :=
  namelist.foldl (fun s file =>
    if !file.regular then s
    else programs.zipIdx.foldl (fun s (prog, p) =>
      if prog.accepts file.name then logPair w s ⟨file, p, prog⟩ else s) s) (∅, [])

/-- The pairs for which `main` calls `execute_program`, in the order of the calls. -/
def executed (w : World) (namelist : List DirEntry) (programs : List ProgramInfo) : List Pair :=
  (mainLog w namelist programs).2

theorem mainLog_eq (w : World) (namelist : List DirEntry) (programs : List ProgramInfo) :
    mainLog w namelist programs = (pairs namelist programs).foldl (logPair w) (∅, []) := by
  rw [mainLog, pairs]
  generalize ((∅, []) : Dir × List Pair) = s
  induction namelist generalizing s with
  | nil => rfl
  | cons file namelist ih =>
    rw [List.foldl_cons, ih]
    cases hreg : file.regular with
    | false => simp [hreg]
    | true => simp [hreg, List.foldl_map, List.foldl_filter]

theorem foldl_logPair_fst (w : World) (js : List Pair) (s : Dir × List Pair) :
    (js.foldl (logPair w) s).1 = js.foldl (runPair w) s.1 := by
  induction js generalizing s with
  | nil => rfl
  | cons j js ih => exact ih (logPair w s j)

theorem main_eq_mainLog (w : World) (namelist : List DirEntry) (programs : List ProgramInfo) :
    main w namelist programs =
      let dir := (mainLog w namelist programs).1
      if dir.entries.isEmpty then none else some dir := by
  rw [main_eq, mainLog_eq, foldl_logPair_fst]

theorem copyResult_eq_zero {w : World} {dir : Dir} {j : Pair} :
    j.copyResult w dir = 0 ↔ j.file.content.isSome = true ∧ w.creates j.modname = true := by
  unfold Pair.copyResult copyFile undisturbed
  cases j.file.content.isSome <;> cases w.creates j.modname <;> simp

theorem foldl_logPair_snd (w : World) (js : List Pair) (s : Dir × List Pair) :
    (js.foldl (logPair w) s).2 =
      s.2 ++ js.filter (fun j => j.file.content.isSome && w.creates j.modname) := by
  induction js generalizing s with
  | nil => simp
  | cons j js ih =>
    rw [List.foldl_cons, ih, logPair, List.filter_cons]
    by_cases h : j.copyResult w s.1 = 0
    · have hcopy := copyResult_eq_zero.mp h
      simp [h, hcopy.1, hcopy.2]
    · have hskip : (j.file.content.isSome && w.creates j.modname) = false := by
        rw [Bool.eq_false_iff, ne_eq, Bool.and_eq_true]
        intro hcopy
        exact h (copyResult_eq_zero.mpr hcopy)
      simp [h, hskip]

theorem strstr_iff {s pattern : List Char} : strstr s pattern = true ↔ pattern <:+: s := by
  rw [strstr, List.any_eq_true]
  constructor
  · rintro ⟨t, ht, hpre⟩
    exact (List.isPrefixOf_iff_prefix.mp hpre).isInfix.trans
      ((List.mem_tails t s).mp ht).isInfix
  · intro h
    obtain ⟨t, hpre, hsuf⟩ := List.infix_iff_prefix_suffix.mp h
    exact ⟨t, (List.mem_tails t s).mpr hsuf, List.isPrefixOf_iff_prefix.mpr hpre⟩

theorem accepts_iff {prog : ProgramInfo} {filename : FileName} :
    prog.accepts filename = true ↔ prog.Wants filename := by
  simp only [ProgramInfo.accepts, ProgramInfo.Wants, Bool.or_eq_true, List.isEmpty_iff,
    List.any_eq_true, strstr_iff]

theorem pairs_eq_wanted (namelist : List DirEntry) (programs : List ProgramInfo) :
    pairs namelist programs = wanted namelist programs := by
  have haccepts (file : DirEntry) : (fun x : ProgramInfo × Nat => x.1.accepts file.name) =
      fun x => decide (x.1.Wants file.name) := by
    funext x
    rw [Bool.eq_iff_iff, accepts_iff, decide_eq_true_iff]
  simp only [pairs, wanted, haccepts]

/-- Among the jobs asked for, those are run whose file can be read and whose copy has a name that
can be created. -/
theorem executed_eq (w : World) (namelist : List DirEntry) (programs : List ProgramInfo) :
    executed w namelist programs = (wanted namelist programs).filter
      (fun j => j.file.content.isSome && w.creates j.modname) := by
  rw [executed, mainLog_eq, foldl_logPair_snd, pairs_eq_wanted]
  exact List.nil_append _

theorem mem_wanted {namelist : List DirEntry} {programs : List ProgramInfo} {j : Pair}
    (h : j ∈ wanted namelist programs) : j.file ∈ namelist ∧ j.file.regular = true := by
  obtain ⟨file, hfile, hj⟩ := List.mem_flatMap.mp h
  obtain ⟨⟨prog, p⟩, -, rfl⟩ := List.mem_map.mp hj
  exact List.mem_filter.mp hfile

def nameMax : Nat := 255

/-- A copy directory that can be written and has no directories in it: there is no place in it
for a name with a slash. -/
def FlatDir (w : World) : Prop :=
  ∀ name, name ≠ [] → name ≠ ['.'] → name ≠ ['.', '.'] →
    (w.creates name = true ↔ '/' ∉ name ∧ name.length ≤ nameMax)

theorem underscore_mem_modname (j : Pair) : '_' ∈ j.modname := by
  simp [Pair.modname, modifyFilename]

theorem slash_mem_modname {j : Pair} (hfile : '/' ∉ j.file.name) :
    '/' ∈ j.modname ↔ '/' ∈ j.prog.name := by
  have hstem : ∀ n, '/' ∉ j.file.name.take n := fun n h => hfile (List.mem_of_mem_take h)
  unfold Pair.modname modifyFilename
  cases strrchr j.file.name '.' with
  | none => simp [hfile]
  | some ext => simp [hstem]

theorem FlatDir.creates_iff {w : World} (hflat : FlatDir w) {j : Pair}
    (hfile : '/' ∉ j.file.name) :
    w.creates j.modname = true ↔ '/' ∉ j.prog.name ∧ j.modname.length ≤ nameMax := by
  have hmem := underscore_mem_modname j
  rw [hflat j.modname (List.ne_nil_of_mem hmem), slash_mem_modname hfile]
  · intro h
    rw [h] at hmem
    exact absurd hmem (by decide)
  · intro h
    rw [h] at hmem
    exact absurd hmem (by decide)

/-- The access manager runs the jobs asked for exactly when the copy of each has a name that can
be created. That excludes a program given as a path, whose slashes get into the name, unless the
copy directory happens to have a directory there. -/
theorem executed_eq_wanted_iff (w : World) (namelist : List DirEntry)
    (programs : List ProgramInfo)
    (hread : ∀ file ∈ namelist, file.regular = true → file.content.isSome = true) :
    (executed w namelist programs = wanted namelist programs ↔
      ∀ j ∈ wanted namelist programs, w.creates j.modname = true) ∧
    (FlatDir w → (∀ file ∈ namelist, '/' ∉ file.name) →
      (executed w namelist programs = wanted namelist programs ↔
        ∀ j ∈ wanted namelist programs, '/' ∉ j.prog.name ∧ j.modname.length ≤ nameMax)) := by
  have hiff : executed w namelist programs = wanted namelist programs ↔
      ∀ j ∈ wanted namelist programs, w.creates j.modname = true := by
    rw [executed_eq, List.filter_eq_self]
    refine forall₂_congr fun j hj => ?_
    obtain ⟨hmem, hreg⟩ := mem_wanted hj
    rw [hread j.file hmem hreg, Bool.true_and]
  refine ⟨hiff, fun hflat hnames => hiff.trans (forall₂_congr fun j hj => ?_)⟩
  exact hflat.creates_iff (hnames j.file (mem_wanted hj).1)

/-- Programs found in the search path, into a new copy directory. -/
def flatWorld : World where
  creates name := decide ('/' ∉ name) && decide (name.length ≤ nameMax)
  md5 c := c.map (fun b => Char.ofNat b.toNat)
  execvp _ _ copy := some copy
  output _ := []

def textFiles : List DirEntry :=
  [⟨"a.txt".toList, true, some [0x31]⟩, ⟨"copy".toList, false, none⟩,
    ⟨"b.txt".toList, true, some [0x32]⟩]

theorem executed_eq_wanted_iff_cat :
    (executed flatWorld textFiles [⟨"cat".toList, ["cat".toList], ["a".toList]⟩] =
        wanted textFiles [⟨"cat".toList, ["cat".toList], ["a".toList]⟩] ↔
      ∀ j ∈ wanted textFiles [⟨"cat".toList, ["cat".toList], ["a".toList]⟩],
        flatWorld.creates j.modname = true) ∧
    (executed flatWorld textFiles [⟨"cat".toList, ["cat".toList], ["a".toList]⟩] =
        wanted textFiles [⟨"cat".toList, ["cat".toList], ["a".toList]⟩] ↔
      ∀ j ∈ wanted textFiles [⟨"cat".toList, ["cat".toList], ["a".toList]⟩],
        '/' ∉ j.prog.name ∧ j.modname.length ≤ nameMax) :=
  have h := executed_eq_wanted_iff flatWorld textFiles
    [⟨"cat".toList, ["cat".toList], ["a".toList]⟩] (by decide)
  ⟨h.1, h.2 (fun name _ _ _ => by simp [flatWorld]) (by decide)⟩

/-- `/bin/cat` is run on no file: `copy/a_/bin/cat` cannot be created. -/
theorem path_not_executed :
    ¬∀ (w : World) (namelist : List DirEntry) (programs : List ProgramInfo), FlatDir w →
      (∀ file ∈ namelist, file.regular = true → file.content.isSome = true) →
      executed w namelist programs = wanted namelist programs := by
  intro h
  have hall := h flatWorld textFiles [⟨"/bin/cat".toList, ["/bin/cat".toList], []⟩]
    (fun name _ _ _ => by simp [flatWorld]) (by decide)
  rw [executed_eq] at hall
  exact absurd (congrArg List.length hall) (by decide)

end Osisp.AccessManager
