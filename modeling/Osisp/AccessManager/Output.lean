import Osisp.AccessManager.Main
import Osisp.Lib.Stdio

namespace Osisp.AccessManager

open Osisp.Lib Osisp.Lib.Stdio

/-- The loop of `print_output_and_remove` over the lines of a file: `strcat` behind what `output`
holds. -/
def collect (content : Content) : Content :=
  (fgetsAll bufferSize content).foldl (fun output line => output ++ cString line) []

/-- What `print_output_and_remove` makes of `prog->output`, which is `NULL` at first. `file` is
`none` where `fopen` fails. -/
def addOutput (output : Option Content) (file : Option Content) : Option Content :=
  match file, output with
  | none, _ => output
  | some content, none => some (collect content)
  | some content, some sofar => some (sofar ++ collect content)

/-- An output file that `main` has a program's output collected from. -/
structure Printed where
  /-- The number of the program. -/
  index : Nat
  content : Content

/-- `output` of all programs after the jobs. -/
def outputs (jobs : List Printed) : Nat → Option Content :=
  jobs.foldl (fun output j =>
    Function.update output j.index (addOutput (output j.index) (some j.content))) fun _ => none

/-- The output files of one program, in the order of its jobs. -/
def filesOf (p : Nat) (jobs : List Printed) : List Content :=
  (jobs.filter (·.index = p)).map Printed.content

theorem collect_eq (content : Content) :
    collect content = (fgetsAll bufferSize content).flatMap cString := by
  rw [collect, List.flatMap_def]
  generalize fgetsAll bufferSize content = lines
  suffices h : ∀ output : Content,
      lines.foldl (fun output line => output ++ cString line) output =
        output ++ (lines.map cString).flatten by
    exact h []
  induction lines with
  | nil => exact fun output => (List.append_nil output).symm
  | cons line lines ih =>
    intro output
    rw [List.foldl_cons, ih, List.map_cons, List.flatten_cons, List.append_assoc]

theorem collect_complete_iff (content : Content) : collect content = content ↔ 0 ∉ content := by
  have hflat : (fgetsAll bufferSize content).flatten = content :=
    fgetsAll_flatten (by decide) content
  have hiff := flatMap_cString_eq_iff (fgetsAll bufferSize content)
  rwa [hflat, ← collect_eq] at hiff

theorem zero_notMem_collect (content : Content) : 0 ∉ collect content := by
  rw [collect_eq]
  intro h
  obtain ⟨line, -, hline⟩ := List.mem_flatMap.mp h
  exact nul_notMem_cString line hline

/-- The jobs of the other programs do not matter. -/
theorem outputs_eq (jobs : List Printed) (p : Nat) :
    (outputs jobs p).getD [] = (filesOf p jobs).flatMap collect := by
  induction jobs using List.reverseRecOn with
  | nil => rfl
  | append_singleton jobs j ih =>
    have hstep : outputs (jobs ++ [j]) = Function.update (outputs jobs) j.index
        (addOutput (outputs jobs j.index) (some j.content)) := by
      rw [outputs, List.foldl_append]
      rfl
    rw [hstep, filesOf, List.filter_append, List.map_append, List.flatMap_append, ← filesOf, ← ih]
    by_cases hp : j.index = p
    · subst hp
      rw [Function.update_self, List.filter_cons_of_pos (by simp), List.filter_nil,
        List.map_singleton, List.flatMap_singleton]
      cases outputs jobs j.index with
      | none => exact (List.nil_append _).symm
      | some sofar => rfl
    · rw [Function.update_of_ne (Ne.symm hp), List.filter_cons_of_neg (by simpa using hp),
        List.filter_nil, List.map_nil, List.flatMap_nil, List.append_nil]

/-- The output of a program is complete exactly if there is no NUL in it. -/
theorem output_complete_iff (jobs : List Printed) (p : Nat) :
    (outputs jobs p).getD [] = (filesOf p jobs).flatten ↔
      ∀ content ∈ filesOf p jobs, 0 ∉ content := by
  rw [outputs_eq]
  constructor
  · intro h content hcontent hzero
    have hmem : (0 : UInt8) ∈ (filesOf p jobs).flatten :=
      List.mem_flatten.mpr ⟨content, hcontent, hzero⟩
    rw [← h] at hmem
    obtain ⟨other, -, hother⟩ := List.mem_flatMap.mp hmem
    exact zero_notMem_collect other hother
  · intro h
    have hself : ∀ content ∈ filesOf p jobs, collect content = content := fun content hcontent =>
      (collect_complete_iff content).mpr (h content hcontent)
    rw [List.flatMap_congr hself, List.flatMap_id']

/-- Of the bytes `A`, NUL, `B` and a newline only the first one is kept. -/
theorem output_cut_at_nul : (outputs [⟨0, [65, 0, 66, 10]⟩] 0).getD [] = [65] ∧
    (outputs [⟨0, [65, 0, 66, 10]⟩] 0).getD [] ≠ (filesOf 0 [⟨0, [65, 0, 66, 10]⟩]).flatten := by
  have hout : (outputs [⟨0, [65, 0, 66, 10]⟩] 0).getD [] = [65] := by
    rw [outputs_eq]
    simp [filesOf, collect_eq, fgetsAll, bufferSize, fgets, takeThrough, newline, nul, cString]
  refine ⟨hout, ?_⟩
  rw [hout]
  decide

end Osisp.AccessManager
