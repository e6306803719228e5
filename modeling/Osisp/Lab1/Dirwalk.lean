import Mathlib.Data.List.Basic
import Mathlib.Data.List.Nodup
import Osisp.Lib.Terminated

namespace Osisp.Lab1

abbrev Text := List Char

/-- `PATH_MAX` and `MAX_FILES` -/
def pathMax : Nat := 4096

def maxFiles : Nat := 10000

inductive FileType where
  | link
  | directory
  | regular
  | other
  deriving DecidableEq

/-- `show_links`, `show_dirs` and `show_files` -/
structure Flags where
  links : Bool
  dirs : Bool
  files : Bool

def Flags.matchType (flags : Flags) (type : FileType) : Bool :=
  (flags.links && type == .link || flags.dirs && type == .directory ||
    flags.files && type == .regular) || !(flags.links || flags.dirs || flags.files)

/-- What the calls return: the names of `readdir` where `opendir` succeeds while a descriptor is
left, what `lstat` says of a path, and whether the `k`-th `strdup` succeeds. -/
structure Calls where
  opendir : Text → Option (List Text)
  lstat : Text → Option FileType
  strdup : Nat → Bool

/-- A path that was stored, and the full path of the entry that it was stored for. -/
structure Stored where
  entry : Text
  path : Text

/-- The array `files` up to `*count`; the indices written to; and how often `strdup` was called. -/
structure Files where
  stored : List Stored
  writes : List Nat
  strdups : Nat

def Files.empty : Files := ⟨[], [], 0⟩

/-- The first `*count` elements of `files`. -/
def Files.paths (st : Files) : List Text := st.stored.map Stored.path

/-- `files[*count] = strdup(..)` and `(*count)++` -/
def Files.store (st : Files) (entry path : Text) : Files :=
  ⟨st.stored ++ [⟨entry, path⟩], st.writes ++ [st.stored.length], st.strdups + 1⟩

/-- The assignment alone, of a `NULL`. -/
def Files.fail (st : Files) : Files :=
  ⟨st.stored, st.writes ++ [st.stored.length], st.strdups + 1⟩

/-- A name in a directory. -/
def joined (path name : Text) : Text :=
  if path.getLast? = some '/' then path ++ name else path ++ '/' :: name

/-- The buffer `fullpath`; `snprintf` cuts the path off at its end. -/
def cut (path : Text) : Text := path.take (pathMax - 1)

def isDot (name : Text) : Bool := name == ['.'] || name == ['.', '.']

/-- The body of the loop for one name: whether the loop goes on, and the files. `walk` is the call
of `dirwalk` in it, whose result is not looked at. -/
def visitName (calls : Calls) (flags : Flags) (walk : Text → Files → Files) (path name : Text)
    (st : Files) : Bool × Files :=
  if isDot name then (true, st)
  else
    let fullpath := cut (joined path name)
    -- "Path too long"
    if pathMax ≤ fullpath.length then (true, st)
    else
      match calls.lstat fullpath with
      | none => (true, st)
      | some type =>
        if flags.matchType type && !calls.strdup st.strdups then (false, st.fail)
        else
          let st := if flags.matchType type then st.store (joined path name) fullpath else st
          (true, if type = .directory then walk fullpath st else st)

/-- The loop over the names that `readdir` returns: whether 0 is returned, and the files. -/
def readLoop (calls : Calls) (flags : Flags) (walk : Text → Files → Files) (path : Text) :
    List Text → Files → Bool × Files
  | [], st => (true, st)
  | name :: names, st =>
    if maxFiles ≤ st.stored.length then (true, st)
    else
      match visitName calls flags walk path name st with
      | (false, st) => (false, st)
      | (true, st) => readLoop calls flags walk path names st

/-- `dirwalk`: whether it returns 0, and the files. `dirs` is the number of directories that can
still be opened: each call keeps its own open until it returns. -/
def dirwalk (calls : Calls) (flags : Flags) : Nat → Text → Files → Bool × Files
  | 0, _, st => (false, st)
  | dirs + 1, path, st =>
    match calls.opendir path with
    | none => (false, st)
    | some names =>
      readLoop calls flags (fun path st => (dirwalk calls flags dirs path st).2) path names st

/-- The call of `dirwalk` in the loop. -/
abbrev walkBelow (calls : Calls) (flags : Flags) (dirs : Nat) (path : Text) (st : Files) : Files :=
  (dirwalk calls flags dirs path st).2

/-- The names in a directory, none if it cannot be opened. -/
def listing (calls : Calls) (path : Text) : List Text := (calls.opendir path).getD []

/-- The type of something that is no directory. -/
abbrev LeafType := {type : FileType // type ≠ .directory}

/-- The entries of a directory in the order of `readdir`, with those below them. -/
inductive Forest where
  | nil
  | leaf (name : Text) (type : LeafType) (rest : Forest)
  | dir (name : Text) (entries rest : Forest)

/-- A path and the type of what is there. -/
structure Found where
  path : Text
  type : FileType

def Forest.names : Forest → List Text
  | .nil => []
  | .leaf name _ rest => name :: rest.names
  | .dir name _ rest => name :: rest.names

/-- How many directories lie one inside the other. -/
def Forest.depth : Forest → Nat
  | .nil => 0
  | .leaf _ _ rest => rest.depth
  | .dir _ entries rest => max (entries.depth + 1) rest.depth

/-- All entries below a directory, each directory before what is in it. -/
def Forest.preorder : Forest → Text → List Found
  | .nil, _ => []
  | .leaf name type rest, path => ⟨joined path name, type⟩ :: rest.preorder path
  | .dir name entries rest, path =>
    ⟨joined path name, .directory⟩ :: (entries.preorder (joined path name) ++ rest.preorder path)

/-- The names of a directory are names, and different ones. -/
def Forest.Valid : Forest → Prop
  | .nil => True
  | .leaf name _ rest => name ≠ [] ∧ '/' ∉ name ∧ name ∉ rest.names ∧ rest.Valid
  | .dir name entries rest =>
    name ≠ [] ∧ '/' ∉ name ∧ name ∉ rest.names ∧ entries.Valid ∧ rest.Valid

/-- A name is an entry of the tree; `lstat` has to succeed unless the path is too long for it. -/
def visible (calls : Calls) (path name : Text) : Bool :=
  !isDot name && (pathMax ≤ (joined path name).length || (calls.lstat (joined path name)).isSome)

/-- The calls show the entries of a tree below a path, as far as the paths are not too long. -/
def Forest.Shown (calls : Calls) : Forest → Text → Prop
  | .nil, _ => True
  | .leaf name type rest, path =>
    ((joined path name).length < pathMax → calls.lstat (joined path name) = some type.val) ∧
      rest.Shown calls path
  | .dir name entries rest, path =>
    ((joined path name).length < pathMax → calls.lstat (joined path name) = some .directory ∧
      (listing calls (joined path name)).filter (visible calls (joined path name)) = entries.names ∧
      entries.Shown calls (joined path name)) ∧
      rest.Shown calls path

/-- The directory at `path` holds the tree. -/
structure Shows (calls : Calls) (path : Text) (forest : Forest) : Prop where
  names : (listing calls path).filter (visible calls path) = forest.names
  entries : forest.Shown calls path

/-- A path with a slash behind it, if there is none. -/
def slashed (path : Text) : Text := if path.getLast? = some '/' then path else path ++ ['/']

theorem joined_eq (path name : Text) : joined path name = slashed path ++ name := by
  rw [joined, slashed]
  split_ifs
  · rfl
  · rw [List.append_assoc]
    rfl

theorem slashed_joined {name : Text} (path : Text) (hne : name ≠ []) (hslash : '/' ∉ name) :
    slashed (joined path name) = slashed path ++ name ++ ['/'] := by
  have hlast : (joined path name).getLast? ≠ some '/' := by
    rw [joined_eq, List.getLast?_append_of_ne_nil _ hne]
    intro h
    exact hslash (List.mem_of_getLast? h)
  rw [slashed, if_neg hlast, joined_eq]

/-- A path of the tree begins with a name of its top directory. -/
theorem Forest.preorder_name {forest : Forest} (hvalid : forest.Valid) {path : Text} {e : Found}
    (he : e ∈ forest.preorder path) :
    ∃ name ∈ forest.names, '/' ∉ name ∧ ∃ t, (t = [] ∨ t.head? = some '/') ∧
      e.path = slashed path ++ name ++ t := by
  induction forest generalizing path with
  | nil => cases he
  | leaf name type rest ih =>
    rcases List.mem_cons.mp he with rfl | he
    · refine ⟨name, List.mem_cons_self, hvalid.2.1, [], .inl rfl, ?_⟩
      rw [List.append_nil, ← joined_eq]
    · obtain ⟨other, hmem, hrest⟩ := ih hvalid.2.2.2 he
      exact ⟨other, List.mem_cons_of_mem _ hmem, hrest⟩
  | dir name entries rest ihentries ihrest =>
    rcases List.mem_cons.mp he with rfl | he
    · refine ⟨name, List.mem_cons_self, hvalid.2.1, [], .inl rfl, ?_⟩
      rw [List.append_nil, ← joined_eq]
    · rcases List.mem_append.mp he with he | he
      · obtain ⟨inner, -, -, t, -, hpath⟩ := ihentries hvalid.2.2.2.1 he
        refine ⟨name, List.mem_cons_self, hvalid.2.1, '/' :: (inner ++ t), .inr rfl, ?_⟩
        rw [hpath, slashed_joined path hvalid.1 hvalid.2.1]
        simp only [List.append_assoc, List.cons_append, List.nil_append]
      · obtain ⟨other, hmem, hrest⟩ := ihrest hvalid.2.2.2.2 he
        exact ⟨other, List.mem_cons_of_mem _ hmem, hrest⟩

theorem name_unique {a b s t : Text} (ha : '/' ∉ a) (hb : '/' ∉ b)
    (hs : s = [] ∨ s.head? = some '/') (ht : t = [] ∨ t.head? = some '/')
    (h : a ++ s = b ++ t) : a = b := by
  have hread : ∀ {c u : Text}, '/' ∉ c → (u = [] ∨ u.head? = some '/') →
      (c ++ u).takeWhile (· ≠ '/') = c := by
    intro c u hc hu
    rw [Lib.takeWhile_ne_append hc]
    rcases hu with rfl | hu
    · exact List.append_nil c
    · obtain ⟨u, rfl⟩ : ∃ v, u = '/' :: v := ⟨_, List.eq_cons_of_mem_head? hu⟩
      rw [List.takeWhile_cons_of_neg (by simp), List.append_nil]
  rw [← hread ha hs, h, hread hb ht]

theorem Forest.path_ne {rest : Forest} (hvalid : rest.Valid) {path name t : Text}
    (hslash : '/' ∉ name) (hname : name ∉ rest.names) (ht : t = [] ∨ t.head? = some '/')
    {e : Found} (he : e ∈ rest.preorder path) : e.path ≠ slashed path ++ name ++ t := by
  intro heq
  obtain ⟨other, hmem, hother, u, hu, hpath⟩ := preorder_name hvalid he
  rw [hpath, List.append_assoc, List.append_assoc] at heq
  have hsame := name_unique hother hslash hu ht (List.append_cancel_left heq)
  exact hname (hsame ▸ hmem)

/-- Every path occurs once. -/
theorem Forest.preorder_nodup {forest : Forest} (hvalid : forest.Valid) (path : Text) :
    ((forest.preorder path).map Found.path).Nodup := by
  induction forest generalizing path with
  | nil => exact List.nodup_nil
  | leaf name type rest ih =>
    obtain ⟨-, hslash, hname, hrest⟩ := hvalid
    rw [preorder, List.map_cons, List.nodup_cons]
    refine ⟨fun hmem => ?_, ih hrest path⟩
    obtain ⟨e, he, heq⟩ := List.mem_map.mp hmem
    refine path_ne hrest hslash hname (.inl rfl) he ?_
    rw [List.append_nil, ← joined_eq]
    exact heq
  | dir name entries rest ihentries ihrest =>
    obtain ⟨hne, hslash, hname, hentries, hrest⟩ := hvalid
    rw [preorder, List.map_cons, List.map_append, List.nodup_cons, List.nodup_append]
    have hbelow : ∀ e ∈ entries.preorder (joined path name),
        ∃ t, e.path = slashed path ++ name ++ '/' :: t := by
      intro e he
      obtain ⟨inner, -, -, t, -, hpath⟩ := preorder_name hentries he
      refine ⟨inner ++ t, ?_⟩
      rw [hpath, slashed_joined path hne hslash]
      simp only [List.append_assoc, List.cons_append, List.nil_append]
    refine ⟨fun hmem => ?_, ihentries hentries _, ihrest hrest path, ?_⟩
    · rcases List.mem_append.mp hmem with hmem | hmem
      · obtain ⟨e, he, heq⟩ := List.mem_map.mp hmem
        obtain ⟨t, hpath⟩ := hbelow e he
        rw [hpath, joined_eq] at heq
        have hlength := congrArg List.length heq
        simp at hlength
      · obtain ⟨e, he, heq⟩ := List.mem_map.mp hmem
        refine path_ne hrest hslash hname (.inl rfl) he ?_
        rw [List.append_nil, ← joined_eq]
        exact heq
    · intro a ha b hb heq
      obtain ⟨e, he, rfl⟩ := List.mem_map.mp ha
      obtain ⟨f, hf, rfl⟩ := List.mem_map.mp hb
      obtain ⟨t, hpath⟩ := hbelow e he
      exact path_ne hrest hslash hname (.inr rfl) hf (heq.symm.trans hpath)

end Osisp.Lab1
