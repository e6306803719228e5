import Mathlib.Data.Char
import Mathlib.Data.List.Lex
import Osisp.Lab1.Preorder

namespace Osisp.Lab1

/-- A comparison that orders all paths. -/
structure Consistent (cmp : Text → Text → Int) : Prop where
  antisymm : ∀ a b, cmp a b < 0 ↔ 0 < cmp b a
  trans : ∀ a b c, cmp a b ≤ 0 → cmp b c ≤ 0 → cmp a c ≤ 0

/-- What `main` takes from the C library and its environment: whether `POSIXLY_CORRECT` is set, and
how `strcoll` compares and `qsort` sorts. -/
structure Library where
  posixlyCorrect : Bool
  strcoll : Text → Text → Int
  strcoll_consistent : Consistent strcoll
  qsort : (Text → Text → Int) → List Text → List Text
  qsort_perm : ∀ (cmp : Text → Text → Int) (files : List Text),
    Consistent cmp → (qsort cmp files).Perm files
  qsort_sorted : ∀ (cmp : Text → Text → Int) (files : List Text),
    Consistent cmp → (qsort cmp files).Pairwise fun a b => cmp a b ≤ 0

/-- `compare`, for the paths that its arguments point to. -/
def compare (lib : Library) (a b : Text) : Int := lib.strcoll a b

/-- The options that `getopt` knows. -/
def optstring : List Char := ['s', 'l', 'd', 'f']

/-- The calls of `getopt` for the arguments: the options it returns, and the arguments that are
left over for `argv[optind]` and what follows. -/
def getopt (lib : Library) : List Text → List Char × List Text
  | [] => ([], [])
  | ['-', '-'] :: args => ([], args)
  | ('-' :: c :: cs) :: args => (c :: cs ++ (getopt lib args).1, (getopt lib args).2)
  | arg :: args =>
    if lib.posixlyCorrect then ([], arg :: args)
    else ((getopt lib args).1, arg :: (getopt lib args).2)

/-- `show_links`, `show_dirs` and `show_files` after the options. -/
def flagsOf (opts : List Char) : Flags :=
  ⟨opts.contains 'l', opts.contains 'd', opts.contains 'f'⟩

def dirPath (lib : Library) (args : List Text) : Text := (getopt lib args).2.head?.getD ['.']

/-- How `main` ends, and the lines it has printed. -/
structure Ended where
  success : Bool
  printed : List Text

/-- `main` with the arguments behind the name of the program, where so many directories can be open
at a time. -/
def main (lib : Library) (calls : Calls) (args : List Text) (dirs : Nat) : Ended :=
  let opts := (getopt lib args).1
  if opts.any (!optstring.contains ·) then ⟨false, []⟩
  else
    match dirwalk calls (flagsOf opts) dirs (dirPath lib args) .empty with
    | (false, _) => ⟨false, []⟩
    | (true, st) =>
      ⟨true, if opts.contains 's' then lib.qsort (compare lib) st.paths else st.paths⟩

/-- The paths of a tree that the options ask for, in preorder. -/
def selected (lib : Library) (args : List Text) (forest : Forest) : List Text :=
  ((forest.preorder (dirPath lib args)).filter
    fun e => (flagsOf (getopt lib args).1).matchType e.type).map Found.path

/-- The directory can be walked to its end, and holds the tree. -/
structure Listed (calls : Calls) (path : Text) (forest : Forest) : Prop where
  strdup : ∀ k, calls.strdup k = true
  opens : calls.opendir path ≠ none
  shown : Shows calls path forest
  valid : forest.Valid
  short : ∀ e ∈ forest.preorder path, e.path.length < pathMax

section Main

variable {lib : Library} {calls calls' : Calls} {args : List Text} {forest forest' : Forest}

theorem dirwalk_ended (hstrdup : ∀ k, calls.strdup k = true) (flags : Flags) {path : Text}
    (hopen : calls.opendir path ≠ none) (dirs : Nat) (st : Files) :
    (dirwalk calls flags (dirs + 1) path st).1 = true := by
  obtain ⟨names, hnames⟩ := Option.ne_none_iff_exists'.mp hopen
  rw [dirwalk, hnames]
  exact readLoop_ended hstrdup names

theorem selected_nodup (lib : Library) (args : List Text) (hvalid : forest.Valid) :
    (selected lib args forest).Nodup := by
  have hsub : (selected lib args forest).Sublist
      ((forest.preorder (dirPath lib args)).map Found.path) := List.filter_sublist.map _
  exact (Forest.preorder_nodup hvalid (dirPath lib args)).sublist hsub

/-- What is printed of a tree. -/
theorem main_eq (hopts : ∀ opt ∈ (getopt lib args).1, opt ∈ optstring)
    (h : Listed calls (dirPath lib args) forest) {dirs : Nat} (hdirs : forest.depth < dirs) :
    main lib calls args dirs = ⟨true,
      let files := (selected lib args forest).take maxFiles
      if (getopt lib args).1.contains 's' then lib.qsort (compare lib) files else files⟩ := by
  have hknown : ((getopt lib args).1.any (!optstring.contains ·)) = false := by
    simpa using hopts
  have hvisits := visits_eq_preorder hdirs h.short
  have hsafe : Safe calls (flagsOf (getopt lib args).1) (forest.visits dirs (dirPath lib args))
      .empty := by
    rw [hvisits]
    exact safe_short h.short .empty
  have hwalk := dirwalk_collect h.strdup h.shown hsafe
  have hended : (dirwalk calls (flagsOf (getopt lib args).1) dirs (dirPath lib args) .empty).1 =
      true := by
    obtain ⟨dirs, rfl⟩ : ∃ d, dirs = d + 1 := ⟨dirs - 1, by omega⟩
    exact dirwalk_ended h.strdup _ h.opens dirs _
  have hpaths : (collect (flagsOf (getopt lib args).1) (forest.preorder (dirPath lib args))
      .empty).paths = (selected lib args forest).take maxFiles := collect_paths h.short
  rw [hvisits] at hwalk
  simp only [main, hknown, Bool.false_eq_true, if_false]
  cases hrun : dirwalk calls (flagsOf (getopt lib args).1) dirs (dirPath lib args) .empty with
  | mk ended st =>
    rw [hrun] at hended hwalk
    obtain rfl : ended = true := hended
    obtain rfl : st = collect (flagsOf (getopt lib args).1)
      (forest.preorder (dirPath lib args)) .empty := hwalk
    simp only [hpaths]

theorem compare_consistent (lib : Library) : Consistent (compare lib) := lib.strcoll_consistent

/-- Sorting leaves no choice where different paths compare as different. -/
theorem qsort_unique {files files' : List Text} (hperm : files.Perm files')
    (hties : ∀ a ∈ files, ∀ b ∈ files, compare lib a b = 0 → a = b) :
    lib.qsort (compare lib) files = lib.qsort (compare lib) files' := by
  have hconsistent := compare_consistent lib
  have hmem := lib.qsort_perm (compare lib) files hconsistent
  have hmem' := lib.qsort_perm (compare lib) files' hconsistent
  refine List.Perm.eq_of_pairwise ?_ (lib.qsort_sorted _ files hconsistent)
    (lib.qsort_sorted _ files' hconsistent) (hmem.trans (hperm.trans hmem'.symm))
  intro a b ha hb hab hba
  refine hties a (hmem.mem_iff.mp ha) b (hperm.mem_iff.mpr (hmem'.mem_iff.mp hb)) ?_
  have hle : compare lib a b ≤ 0 := hab
  have hanti : compare lib a b < 0 ↔ 0 < compare lib b a := hconsistent.antisymm a b
  have hge : compare lib b a ≤ 0 := hba
  omega

/-- With `-s`, what is printed of a directory does not depend on the order in which its entries and
those of the directories below are read: all of those asked for are printed once, in the order of
the locale. -/
theorem sorted_listing (hopts : ∀ opt ∈ (getopt lib args).1, opt ∈ optstring)
    (hsort : 's' ∈ (getopt lib args).1) (h : Listed calls (dirPath lib args) forest)
    (h' : Listed calls' (dirPath lib args) forest')
    (hsame : ∀ e, e ∈ forest.preorder (dirPath lib args) ↔ e ∈ forest'.preorder (dirPath lib args))
    (hfew : (selected lib args forest).length ≤ maxFiles)
    (hties : ∀ a ∈ selected lib args forest,
      ∀ b ∈ selected lib args forest, lib.strcoll a b = 0 → a = b)
    {dirs dirs' : Nat} (hdirs : forest.depth < dirs) (hdirs' : forest'.depth < dirs') :
    ∃ files, main lib calls args dirs = ⟨true, files⟩ ∧
      main lib calls' args dirs' = ⟨true, files⟩ ∧
      files.Perm (selected lib args forest) ∧
      files.Pairwise fun a b => lib.strcoll a b < 0 := by
  have hnodup := selected_nodup lib args h.valid
  have hnodup' := selected_nodup lib args h'.valid
  have hperm : (selected lib args forest).Perm
      (selected lib args forest') := by
    refine (List.perm_ext_iff_of_nodup hnodup hnodup').mpr fun path => ?_
    simp only [selected, List.mem_map, List.mem_filter, hsame]
  have hflag : (getopt lib args).1.contains 's' = true := List.contains_iff_mem.mpr hsort
  have hmain := main_eq hopts h hdirs
  have hmain' := main_eq hopts h' hdirs'
  rw [List.take_of_length_le hfew] at hmain
  rw [List.take_of_length_le (hperm.length_eq ▸ hfew)] at hmain'
  simp only [hflag, if_true] at hmain hmain'
  rw [← qsort_unique hperm hties] at hmain'
  have hconsistent := compare_consistent lib
  have hsorted := lib.qsort_perm (compare lib) (selected lib args forest) hconsistent
  refine ⟨_, hmain, hmain', hsorted, ?_⟩
  have hdistinct := hsorted.nodup_iff.mpr hnodup
  refine ((lib.qsort_sorted _ _ hconsistent).and hdistinct).imp_of_mem ?_
  intro a b ha hb hab
  have hzero : lib.strcoll a b ≠ 0 := fun h0 =>
    hab.2 (hties a (hsorted.mem_iff.mp ha) b (hsorted.mem_iff.mp hb) h0)
  have hle : lib.strcoll a b ≤ 0 := hab.1
  omega

end Main

def byChars (a b : Text) : Int := if a = b then 0 else if a < b then -1 else 1

theorem byChars_le {a b : Text} : byChars a b ≤ 0 ↔ a ≤ b := by
  rw [byChars]
  split_ifs with heq hlt
  · simp [heq]
  · simp [le_of_lt hlt]
  · have hgt := lt_of_le_of_ne (not_lt.mp hlt) (Ne.symm heq)
    simp [hgt]

theorem byChars_neg {a b : Text} : byChars a b < 0 ↔ a < b := by
  rw [byChars]
  split_ifs with heq hlt
  · simp [heq]
  · simp [hlt]
  · simp [hlt]

theorem byChars_pos {a b : Text} : 0 < byChars a b ↔ b < a := by
  rw [← Int.not_le, ← not_le]
  exact not_congr byChars_le

theorem byChars_consistent : Consistent byChars where
  antisymm _ _ := byChars_neg.trans byChars_pos.symm
  trans _ _ _ hab hbc := byChars_le.mpr ((byChars_le.mp hab).trans (byChars_le.mp hbc))

def localeC : Library where
  posixlyCorrect := false
  strcoll := byChars
  strcoll_consistent := byChars_consistent
  qsort cmp files := files.mergeSort fun a b => cmp a b ≤ 0
  qsort_perm cmp files _ := List.mergeSort_perm files _
  qsort_sorted cmp files hcmp := by
    refine (List.pairwise_mergeSort ?_ ?_ files).imp of_decide_eq_true
    · intro a b c hab hbc
      exact decide_eq_true (hcmp.trans a b c (of_decide_eq_true hab) (of_decide_eq_true hbc))
    · intro a b
      have hanti := hcmp.antisymm b a
      simp only [Bool.or_eq_true, decide_eq_true_eq]
      omega

theorem link_not_directory : FileType.link ≠ .directory := by decide

/-- `sampleForest` with its entries in another order. -/
def turnedForest : Forest :=
  .dir ['b'] (.leaf ['c'] ⟨.link, link_not_directory⟩ .nil) (.leaf ['a'] regularFile .nil)

def turnedCalls : Calls where
  opendir path :=
    if path = ['d'] then some [['.'], ['b'], ['.', '.'], ['a']]
    else if path = ['d', '/', 'b'] then some [['c'], ['.', '.'], ['.']]
    else none
  lstat := sampleCalls.lstat
  strdup _ := true

theorem turnedCalls_shows : Shows turnedCalls ['d'] turnedForest := by
  refine ⟨by decide, fun _ => ⟨by decide, by decide, fun _ => by decide, ?_⟩,
    fun _ => by decide, ?_⟩
  · trivial
  · trivial

theorem sample_listed : Listed sampleCalls ['d'] sampleForest where
  strdup _ := rfl
  opens := by decide
  shown := sampleCalls_shows
  valid := by simp [sampleForest, Forest.Valid, Forest.names]
  short := by simp [sampleForest, Forest.preorder, joined, pathMax]

theorem turned_listed : Listed turnedCalls ['d'] turnedForest where
  strdup _ := rfl
  opens := by decide
  shown := turnedCalls_shows
  valid := by simp [turnedForest, Forest.Valid, Forest.names]
  short := by simp [turnedForest, Forest.preorder, joined, pathMax]

/-- `lab1 d -s` -/
def sampleArgs : List Text := [['d'], ['-', 's']]

theorem sorted_listing_turned : ∃ files,
    main localeC sampleCalls sampleArgs 2 = ⟨true, files⟩ ∧
      main localeC turnedCalls sampleArgs 2 = ⟨true, files⟩ ∧
      files.Perm (selected localeC sampleArgs sampleForest) ∧
      files.Pairwise fun a b => byChars a b < 0 := by
  have hsame : ∀ e, e ∈ sampleForest.preorder ['d'] ↔ e ∈ turnedForest.preorder ['d'] := by
    intro e
    simp only [sampleForest, turnedForest, Forest.preorder, List.mem_cons, List.mem_append,
      List.not_mem_nil, or_false]
    tauto
  have hopts : ∀ opt ∈ (getopt localeC sampleArgs).1, opt ∈ optstring := by
    have hread : (getopt localeC sampleArgs).1 = ['s'] := rfl
    rw [hread, List.forall_mem_singleton]
    exact List.mem_cons_self
  refine sorted_listing hopts (by decide) sample_listed turned_listed hsame (by decide) ?_
    (by decide) (by decide)
  intro a _ b _ h
  have hle : byChars a b ≤ 0 := Int.le_of_eq h
  have hlt : ¬byChars a b < 0 := Int.not_lt.mpr (Int.le_of_eq h.symm)
  exact le_antisymm (byChars_le.mp hle) (not_lt.mp fun hab => hlt (byChars_neg.mpr hab))

end Osisp.Lab1
