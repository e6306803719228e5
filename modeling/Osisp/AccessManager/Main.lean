import Mathlib.Data.List.AList
import Osisp.Lib.FileSystem

namespace Osisp.AccessManager

open Osisp.Lib

abbrev Content := List UInt8

/-- An entry of `scandir`. `content` is `none` for a file that cannot be opened. -/
structure DirEntry where
  name : FileName
  regular : Bool
  content : Option Content

/-- `ProgramInfo`; the first of the `args` is the name. -/
structure ProgramInfo where
  name : FileName
  args : List (List Char)
  filePatterns : List FileName

/-- The files of the copy directory. -/
abbrev Dir := AList (fun _ : FileName => Content)

def bufferSize : Nat := 1024

/-- What the file calls of `copy_file` do: which `fopen` succeeds; how many bytes the `k`-th `fread`
returns, if it is asked for them and there are as many; and whether the `i`-th byte that is handed
to `fwrite` gets into the file. `fwrite` may only put it into the buffer of `out`, so that a disk
which is full shows when the buffer is, or at `fclose`. -/
structure CopyCalls where
  openIn : Bool
  openOut : Bool
  fread : Nat → Nat
  written : Nat → Bool

/-- The loop of `copy_file` from its `k`-th `fread` on: the bytes that are handed to `fwrite`. -/
def copyLoop (fread : Nat → Nat) (k : Nat) (rest handed : Content) : Content :=
  let n := min (fread k) (min bufferSize rest.length)
  if n = 0 then handed
  else copyLoop fread (k + 1) (rest.drop n) (handed ++ rest.take n)
termination_by rest.length
decreasing_by
  rw [List.length_drop]
  omega

/-- `fclose` of the destination: what has got into the file of all that was handed to `fwrite`. -/
def fclose (written : Nat → Bool) (handed : Content) : Content :=
  (handed.zipIdx.filter fun (_, i) => written i).map Prod.fst

/-- `copy_file`: its result, and what the destination is afterwards. -/
def copyFile (calls : CopyCalls) (src : Content) (dst : Option Content) : Int × Option Content :=
  if !calls.openIn || !calls.openOut then (-1, if calls.openOut then some [] else dst)
  else (0, some (fclose calls.written (copyLoop calls.fread 0 src [])))

/-- The calls for a file that can be read and a disk with room. -/
def undisturbed (openIn openOut : Bool) : CopyCalls :=
  ⟨openIn, openOut, fun _ => bufferSize, fun _ => true⟩

/-- `strrchr`: the place of the last `c`. -/
def strrchr (s : List Char) (c : Char) : Option Nat :=
  (s.reverse.idxOf? c).map (fun i => s.length - 1 - i)

def modifyFilename (filename progname : FileName) : FileName :=
  let base := match strrchr filename '.' with
    | some ext => filename.take ext
    | none => filename
  base ++ '_' :: progname

example : modifyFilename "a.tar.gz".toList "sed".toList = "a.tar_sed".toList := by decide

/-- `strstr` finds something. -/
def strstr (s pattern : List Char) : Bool := s.tails.any (pattern.isPrefixOf ·)

/-- The test of the program's patterns in `main`. -/
def ProgramInfo.accepts (prog : ProgramInfo) (filename : FileName) : Bool :=
  prog.filePatterns.isEmpty || prog.filePatterns.any (strstr filename ·)

/-- A file and a program that `main` brings together, with the number of the program. -/
structure Pair where
  file : DirEntry
  index : Nat
  prog : ProgramInfo

/-- What the program does not decide. A started program has its way with the bytes of its copy,
which stays readable and which it may also remove, and prints something. -/
structure World where
  /-- a file of this name can be created in the copy directory -/
  creates : FileName → Bool
  md5 : Content → List Char
  execvp : Pair → List (List Char) → Content → Option Content
  output : Pair → Content

/-- `modname`, the name of the copy. -/
def Pair.modname (j : Pair) : FileName := modifyFilename j.file.name j.prog.name

def Pair.tempOut (j : Pair) : FileName := j.modname ++ ".out".toList

/-- `get_md5_hash` of a file of the copy directory. -/
def getMd5Hash (w : World) (dir : Dir) (name : FileName) : Option (List Char) :=
  (dir.lookup name).map w.md5

/-- Gives a name its new content, or takes it away. -/
def setFile (dir : Dir) (name : FileName) : Option Content → Dir
  | some c => dir.insert name c
  | none => dir.erase name

/-- `execute_program` and the `wait` for it. The child opens `temp_out` before the program runs,
and ends if it cannot. -/
def executeProgram (w : World) (j : Pair) (dir : Dir) : Dir :=
  if !w.creates j.tempOut then dir
  else
    let dir := dir.insert j.tempOut []
    match dir.lookup j.modname with
    | none => dir.insert j.tempOut (w.output j)
    | some copy =>
      let dir := setFile dir j.modname (w.execvp j (j.prog.args ++ [j.modname]) copy)
      dir.insert j.tempOut (w.output j)

/-- `print_output_and_remove`, without the printing. -/
def printOutputAndRemove (name : FileName) (dir : Dir) : Dir :=
  if (dir.lookup name).isSome then dir.erase name else dir

/-- The body of the inner loop of `main`, for a file that the program accepts. -/
def runPair (w : World) (dir : Dir) (j : Pair) : Dir :=
  let calls := undisturbed j.file.content.isSome (w.creates j.modname)
  let (result, dst) := copyFile calls (j.file.content.getD []) (dir.lookup j.modname)
  let dir := setFile dir j.modname dst
  if result ≠ 0 then dir
  else
    let beforeHash := getMd5Hash w dir j.modname
    let dir := executeProgram w j dir
    let afterHash := getMd5Hash w dir j.modname
    let dir :=
      if beforeHash.isSome ∧ afterHash.isSome ∧ beforeHash = afterHash then dir.erase j.modname
      else dir
    printOutputAndRemove j.tempOut dir

/-- The loop of `main` over the programs. -/
def runPrograms (w : World) (programs : List ProgramInfo) (file : DirEntry) (dir : Dir) : Dir :=
  programs.zipIdx.foldl (fun dir (prog, p) =>
    if prog.accepts file.name then runPair w dir ⟨file, p, prog⟩ else dir) dir

/-- `main`, from the loop over the files on: the copy directory it leaves, `none` where it has
removed it. -/
def main (w : World) (namelist : List DirEntry) (programs : List ProgramInfo) : Option Dir :=
  let dir := namelist.foldl (fun dir file =>
    if !file.regular then dir else runPrograms w programs file dir) ∅
  if dir.entries.isEmpty then none else some dir

/-- The pairs in the order in which `main` comes to them. -/
def pairs (namelist : List DirEntry) (programs : List ProgramInfo) : List Pair :=
  (namelist.filter DirEntry.regular).flatMap fun file =>
    (programs.zipIdx.filter fun (prog, _) => prog.accepts file.name).map fun (prog, p) =>
      ⟨file, p, prog⟩

theorem runPrograms_eq (w : World) (programs : List ProgramInfo) (file : DirEntry) (dir : Dir) :
    runPrograms w programs file dir =
      ((programs.zipIdx.filter fun (prog, _) => prog.accepts file.name).map fun (prog, p) =>
        (⟨file, p, prog⟩ : Pair)).foldl (runPair w) dir := by
  rw [runPrograms, List.foldl_map, List.foldl_filter]

/-- The two loops go through the pairs. -/
theorem main_eq (w : World) (namelist : List DirEntry) (programs : List ProgramInfo) :
    main w namelist programs =
      let dir := (pairs namelist programs).foldl (runPair w) ∅
      if dir.entries.isEmpty then none else some dir := by
  have hloop : ∀ dir : Dir, namelist.foldl (fun dir file =>
      if !file.regular then dir else runPrograms w programs file dir) dir =
        (pairs namelist programs).foldl (runPair w) dir := by
    induction namelist with
    | nil => exact fun _ => rfl
    | cons file namelist ih =>
      intro dir
      rw [List.foldl_cons, ih, pairs, pairs]
      cases hreg : file.regular with
      | false => simp [hreg]
      | true => simp [hreg, runPrograms_eq]
  rw [main, hloop]

theorem copyLoop_full (k : Nat) (rest handed : Content) :
    copyLoop (fun _ => bufferSize) k rest handed = handed ++ rest := by
  fun_induction copyLoop (fun _ => bufferSize) k rest handed with
  | case1 k rest handed n hn =>
    have hsize : 0 < bufferSize := by decide
    have hlen : rest.length = 0 := by omega
    rw [List.length_eq_zero_iff.mp hlen, List.append_nil]
  | case2 k rest handed n hn ih =>
    rw [ih, List.append_assoc, List.take_append_drop]

theorem fclose_all {written : Nat → Bool} {handed : Content}
    (h : ∀ i < handed.length, written i = true) : fclose written handed = handed := by
  have hall : (handed.zipIdx.filter fun (_, i) => written i) = handed.zipIdx :=
    List.filter_eq_self.mpr fun x hx => h x.2 (List.snd_lt_of_mem_zipIdx hx)
  rw [fclose, hall, List.zipIdx_map_fst]

theorem copyFile_undisturbed (src : Content) (dst : Option Content) :
    copyFile (undisturbed true true) src dst = (0, some src) := by
  have hloop : copyLoop (fun _ => bufferSize) 0 src [] = src := copyLoop_full 0 src []
  have hclose : fclose (fun _ => true) src = src := fclose_all fun _ _ => rfl
  simp only [copyFile, undisturbed, hloop, hclose]
  rfl

@[simp] theorem lookup_setFile_self (dir : Dir) (name : FileName) (v : Option Content) :
    (setFile dir name v).lookup name = v := by
  cases v with
  | none => exact AList.lookup_erase name dir
  | some c => exact AList.lookup_insert dir

@[simp] theorem lookup_setFile_ne {name t : FileName} (h : t ≠ name) (dir : Dir)
    (v : Option Content) : (setFile dir name v).lookup t = dir.lookup t := by
  cases v with
  | none => exact AList.lookup_erase_ne h
  | some c => exact AList.lookup_insert_ne h

end Osisp.AccessManager
