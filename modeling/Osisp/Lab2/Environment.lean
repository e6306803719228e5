import Osisp.Lib.Stdio

namespace Osisp.Lab2

open Osisp.Lib Osisp.Lib.Stdio

/-- A C string. -/
abbrev Text := List UInt8

/-- The byte of `=`. -/
def equals : UInt8 := 61

/-- `getenv`: the value behind the name in the first string that begins with the name and `=`. The
empty name has no value. -/
def getenv (environ : List Text) (name : Text) : Option Text :=
  if name = [] then none
  else (environ.find? ((name ++ [equals]).isPrefixOf ·)).map (·.drop (name.length + 1))

/-- The name of the variable that a string of the environment sets. -/
def variableName (entry : Text) : Option Text :=
  if equals ∈ entry then some (entry.takeWhile (· ≠ equals)) else none

def lineSize : Nat := 256

/-- The lines of the file `env`, as the loops see them. -/
def envLines (file : List UInt8) : List Text := (fgetsAll lineSize file).map cutNewline

/-- What `snprintf` makes of a line and the value that was found. -/
def entryOf (line value : Text) : Text := line ++ equals :: value

def envpSize : Nat := 100

/-- An assignment `envp[index] = value`; `NULL` is `none`. -/
structure Assign where
  index : Nat
  value : Option Text

/-- What the calls in `spawn_child` return: whether `access` allows the child to be executed, the
content of the file `env` if it can be opened, and whether the `k`-th `malloc` succeeds. -/
structure Calls where
  access : Bool
  env : Option (List UInt8)
  malloc : Nat → Bool

/-- What `envp` is filled with, and whether the child is started then. -/
structure Filled where
  writes : List Assign
  started : Bool

def Filled.before (a : Assign) (f : Filled) : Filled := ⟨a :: f.writes, f.started⟩

/-- The loop of `read_env_file` with `count`. The program ends when `malloc` fails. -/
def readLoop (environ : List Text) (malloc : Nat → Bool) : List Text → Nat → Filled
  | [], count => ⟨[⟨count, none⟩], true⟩
  | line :: lines, count =>
    match getenv environ line with
    | none => readLoop environ malloc lines count
    | some value =>
      if malloc count then
        (readLoop environ malloc lines (count + 1)).before ⟨count, some (entryOf line value)⟩
      else ⟨[⟨count, none⟩], false⟩

def readEnvFile (environ : List Text) (calls : Calls) : Filled :=
  match calls.env with
  | none => ⟨[], false⟩
  | some file => readLoop environ calls.malloc (envLines file) 0

/-- The loop of `spawn_child` over `environ`, with `env_count`. -/
def copyLoop : List Text → Nat → Filled
  | [], count => ⟨[⟨count, none⟩], true⟩
  | entry :: environ, count => (copyLoop environ (count + 1)).before ⟨count, some entry⟩

/-- The `mode` of a child: `+` gives it the variables of the file, `*` all of them. -/
inductive Mode where
  | plus
  | star
  deriving DecidableEq

def childPath : Text := "CHILD_PATH".toList.map Char.toUInt8

def spawnChild (mode : Mode) (environ : List Text) (calls : Calls) : Filled :=
  if getenv environ childPath = none then ⟨[], false⟩
  else if !calls.access then ⟨[], false⟩
  else
    match mode with
    | .plus => readEnvFile environ calls
    | .star => copyLoop environ 0

/-- The array after an assignment. One behind its end is not one to the array. -/
def store (envp : Vector (Option Text) envpSize) (a : Assign) : Vector (Option Text) envpSize :=
  envp.setIfInBounds a.index a.value

/-- The strings that `execve` takes from the array, up to the `NULL`. -/
def execStrings (envp : Vector (Option Text) envpSize) : List Text :=
  (envp.toList.takeWhile Option.isSome).reduceOption

/-- The environment of the child; `stack` is what was in the array before. -/
def childEnviron (stack : Vector (Option Text) envpSize) (filled : Filled) : List Text :=
  execStrings (filled.writes.foldl store stack)

/-- `print_env_vars_from_file` in a child with this environment: what each `printf` prints, without
the newline. -/
def printEnvVarsFromFile (environ : List Text) (file : List UInt8) : List Text :=
  (envLines file).filterMap fun line => (getenv environ line).map (entryOf line)

def setLines (environ : List Text) (file : List UInt8) : List Text :=
  (envLines file).filter fun line => (getenv environ line).isSome

/-- What the parent puts into `envp`. -/
def wanted (environ : List Text) (lines : List Text) : List Text :=
  lines.filterMap fun line => (getenv environ line).map (entryOf line)

section Lookup

variable {environ : List Text} {line value : Text}

theorem entryOf_mem (h : getenv environ line = some value) : entryOf line value ∈ environ := by
  rw [getenv] at h
  obtain ⟨-, h⟩ := Option.ite_none_left_eq_some.mp h
  obtain ⟨entry, hfind, rfl⟩ := Option.map_eq_some_iff.mp h
  have hmem := List.mem_of_find?_eq_some hfind
  have hpre := List.isPrefixOf_iff_prefix.mp (List.find?_some hfind)
  obtain ⟨rest, rfl⟩ := hpre
  have hdrop : (line ++ [equals] ++ rest).drop (line.length + 1) = rest := by
    rw [List.drop_append_of_le_length (by simp)]
    simp
  rw [hdrop, entryOf]
  simpa using hmem

theorem variableName_entryOf (line value : Text) :
    variableName (entryOf line value) = some ((line ++ [equals]).takeWhile (· ≠ equals)) := by
  have hmem : equals ∈ line ++ equals :: value := by simp
  rw [variableName, entryOf, if_pos hmem]
  congr 1
  induction line with
  | nil => simp
  | cons c line ih =>
    by_cases hc : c = equals
    · simp [hc]
    · simp only [List.cons_append]
      rw [List.takeWhile_cons_of_pos (by simpa using hc),
        List.takeWhile_cons_of_pos (by simpa using hc), ih (by simp)]

/-- Two strings of the environment for the same name are one. -/
theorem entry_unique (hnames : (environ.filterMap variableName).Nodup) {v w : Text}
    (hv : entryOf line v ∈ environ) (hw : entryOf line w ∈ environ) : v = w := by
  have hsame : entryOf line v = entryOf line w := by
    induction environ with
    | nil => cases hv
    | cons entry environ ih =>
      have hstep : ∀ u w : Text, entry = entryOf line u → entryOf line w ∈ environ → False := by
        intro u w hentry hmem
        rw [List.filterMap_cons, hentry, variableName_entryOf, List.nodup_cons] at hnames
        exact hnames.1 (List.mem_filterMap.mpr ⟨_, hmem, variableName_entryOf line w⟩)
      have hrest : (environ.filterMap variableName).Nodup :=
        hnames.sublist ((List.sublist_cons_self entry environ).filterMap variableName)
      rcases List.mem_cons.mp hv with heqv | hv
      · rcases List.mem_cons.mp hw with heqw | hw
        · exact heqv.trans heqw.symm
        · exact (hstep v w heqv.symm hw).elim
      · rcases List.mem_cons.mp hw with heqw | hw
        · exact (hstep w v heqw.symm hv).elim
        · exact ih hrest hv hw
  exact (List.cons.inj (List.append_cancel_left hsame)).2

theorem getenv_of_mem (hne : line ≠ []) (hmem : entryOf line value ∈ environ)
    (hunique : ∀ other, entryOf line other ∈ environ → other = value) :
    getenv environ line = some value := by
  have hsome : (environ.find? ((line ++ [equals]).isPrefixOf ·)).isSome = true := by
    rw [List.find?_isSome]
    refine ⟨_, hmem, List.isPrefixOf_iff_prefix.mpr ⟨value, ?_⟩⟩
    simp [entryOf]
  obtain ⟨entry, hfind⟩ := Option.isSome_iff_exists.mp hsome
  have hfound : getenv environ line = some (entry.drop (line.length + 1)) := by
    rw [getenv, if_neg hne, hfind]
    rfl
  rw [hfound, hunique _ (entryOf_mem hfound)]

theorem ne_nil_of_getenv (h : getenv environ line = some value) : line ≠ [] := by
  intro hnil
  rw [getenv, if_pos hnil] at h
  cases h

/-- In an environment with some of the strings, and with this one if it was there, the lookup gives
the same. -/
theorem getenv_of_subset (hnames : (environ.filterMap variableName).Nodup) {part : List Text}
    (hsub : ∀ entry ∈ part, entry ∈ environ)
    (hkept : ∀ value, getenv environ line = some value → entryOf line value ∈ part) :
    getenv part line = getenv environ line := by
  cases hfull : getenv environ line with
  | none =>
    cases hpart : getenv part line with
    | none => rfl
    | some value =>
      have hne := ne_nil_of_getenv hpart
      have hmem := hsub _ (entryOf_mem hpart)
      have hfound := getenv_of_mem hne hmem fun other hother => entry_unique hnames hother hmem
      rw [hfull] at hfound
      cases hfound
  | some value =>
    have hmem := entryOf_mem hfull
    refine getenv_of_mem (ne_nil_of_getenv hfull) (hkept value hfull) fun other hother => ?_
    exact entry_unique hnames (hsub _ hother) hmem

end Lookup

/-- Where the loop of `read_env_file` comes to its end, it has copied the strings that it found. -/
theorem readLoop_started {environ : List Text} {malloc : Nat → Bool} {lines : List Text}
    {count : Nat} (h : (readLoop environ malloc lines count).started = true) :
    readLoop environ malloc lines count = copyLoop (wanted environ lines) count := by
  induction lines generalizing count with
  | nil => rfl
  | cons line lines ih =>
    unfold readLoop at h ⊢
    cases hfind : getenv environ line with
    | none =>
      have hskip : wanted environ (line :: lines) = wanted environ lines := by
        rw [wanted, List.filterMap_cons, hfind]
        rfl
      rw [hfind] at h
      rw [hskip]
      exact ih h
    | some value =>
      have htake : wanted environ (line :: lines) =
          entryOf line value :: wanted environ lines := by
        rw [wanted, List.filterMap_cons, hfind]
        rfl
      simp only [hfind] at h
      dsimp only
      split_ifs at h ⊢
      rw [htake, copyLoop, ih h]

theorem toList_store {before : List Text} {cell : Option Text} {rest : List (Option Text)}
    {envp : Vector (Option Text) envpSize} (henvp : envp.toList = before.map some ++ cell :: rest)
    (value : Option Text) :
    (store envp ⟨before.length, value⟩).toList = before.map some ++ value :: rest := by
  have hcell : (before.map some).length = before.length := List.length_map _
  change (envp.setIfInBounds before.length value).toList = _
  rw [Vector.toList_setIfInBounds, henvp, List.set_append_right _ _ (Nat.le_of_eq hcell), hcell,
    Nat.sub_self, List.set_cons_zero]

theorem execStrings_of_toList {before : List Text} {rest : List (Option Text)}
    {envp : Vector (Option Text) envpSize} (henvp : envp.toList = before.map some ++ none :: rest) :
    execStrings envp = before := by
  have hall : ∀ cell ∈ before.map some, Option.isSome cell = true := by
    intro cell hcell
    obtain ⟨entry, -, rfl⟩ := List.mem_map.mp hcell
    rfl
  have hnull : ¬Option.isSome (none : Option Text) = true := by decide
  rw [execStrings, henvp, List.takeWhile_append_of_pos hall, List.takeWhile_cons_of_neg hnull,
    List.append_nil]
  change (before.map some).filterMap id = before
  rw [List.filterMap_map]
  exact List.filterMap_some

/-- The strings that were copied into the array come out again, if there is room for them and the
`NULL`. -/
theorem execStrings_copyLoop (entries : List Text) {before : List Text}
    {rest : List (Option Text)} {envp : Vector (Option Text) envpSize}
    (henvp : envp.toList = before.map some ++ rest) (hroom : entries.length < rest.length) :
    execStrings ((copyLoop entries before.length).writes.foldl store envp) =
      before ++ entries := by
  induction entries generalizing before rest envp with
  | nil =>
    obtain ⟨cell, rest, rfl⟩ := List.exists_cons_of_length_pos hroom
    rw [List.append_nil]
    exact execStrings_of_toList (toList_store henvp none)
  | cons entry entries ih =>
    obtain ⟨cell, rest, rfl⟩ := List.exists_cons_of_length_pos (Nat.zero_lt_of_lt hroom)
    have hstored : (store envp ⟨before.length, some entry⟩).toList =
        (before ++ [entry]).map some ++ rest := by
      rw [toList_store henvp, List.map_append, List.append_assoc]
      rfl
    have hnext := ih hstored (Nat.lt_of_succ_lt_succ hroom)
    rw [List.length_append, List.length_singleton, List.append_assoc] at hnext
    exact hnext

/-- The lookups in the child's environment and in the parent's agree on the lines. -/
theorem printed_eq_wanted {environ : List Text} (hnames : (environ.filterMap variableName).Nodup)
    (file : List UInt8) :
    printEnvVarsFromFile (wanted environ (envLines file)) file =
      wanted environ (envLines file) := by
  have hsub : ∀ entry ∈ wanted environ (envLines file), entry ∈ environ := by
    intro entry hentry
    obtain ⟨line, -, hline⟩ := List.mem_filterMap.mp hentry
    obtain ⟨value, hvalue, rfl⟩ := Option.map_eq_some_iff.mp hline
    exact entryOf_mem hvalue
  rw [printEnvVarsFromFile]
  apply List.filterMap_congr
  intro line hline
  have hkept : ∀ value, getenv environ line = some value →
      entryOf line value ∈ wanted environ (envLines file) := fun value hvalue =>
    List.mem_filterMap.mpr ⟨line, hline, by rw [hvalue, Option.map_some]⟩
  rw [getenv_of_subset hnames hsub hkept]

theorem length_wanted (environ : List Text) (lines : List Text) :
    (wanted environ lines).length =
      (lines.filter fun line => (getenv environ line).isSome).length := by
  induction lines with
  | nil => rfl
  | cons line lines ih =>
    rw [wanted, List.filterMap_cons, List.filter_cons]
    cases getenv environ line with
    | none => exact ih
    | some value => exact congrArg Nat.succ ih

/-- A child that was started by `+` has the strings of `env` in its environment, in the order of the
file, and prints them. -/
theorem child_prints_envp {environ : List Text} {calls : Calls} {file : List UInt8}
    (hnames : (environ.filterMap variableName).Nodup) (hfile : calls.env = some file)
    (hroom : (setLines environ file).length ≤ 99)
    (hstarted : (spawnChild .plus environ calls).started = true)
    (stack : Vector (Option Text) envpSize) :
    childEnviron stack (spawnChild .plus environ calls) =
        (envLines file).filterMap (fun line => (getenv environ line).map (entryOf line)) ∧
      printEnvVarsFromFile (childEnviron stack (spawnChild .plus environ calls)) file =
        childEnviron stack (spawnChild .plus environ calls) := by
  have hspawn : spawnChild .plus environ calls = copyLoop (wanted environ (envLines file)) 0 := by
    unfold spawnChild at hstarted ⊢
    split_ifs at hstarted ⊢
    rw [readEnvFile, hfile] at hstarted
    rw [readEnvFile, hfile]
    exact readLoop_started hstarted
  have hlength : (wanted environ (envLines file)).length < stack.toList.length := by
    rw [length_wanted, Vector.length_toList]
    exact Nat.lt_succ_of_le hroom
  have hchild : childEnviron stack (spawnChild .plus environ calls) =
      wanted environ (envLines file) := by
    rw [childEnviron, hspawn]
    have hcells : stack.toList = ([] : List Text).map some ++ stack.toList := rfl
    exact execStrings_copyLoop _ hcells hlength
  rw [hchild]
  exact ⟨rfl, printed_eq_wanted hnames file⟩

/-- `CHILD_PATH=/` and `A=B=C`. -/
def sampleEnviron : List Text := [childPath ++ [61, 47], [65, 61, 66, 61, 67]]

/-- The lines `A=B`, `X` and `A`. -/
def sampleFile : List UInt8 := [65, 61, 66, 10, 88, 10, 65, 10]

def sampleCalls : Calls := ⟨true, some sampleFile, fun _ => true⟩

theorem sampleFile_lines : envLines sampleFile = [[65, 61, 66], [88], [65]] := by
  simp [envLines, sampleFile, fgetsAll, fgets, takeThrough, lineSize, newline, nul, cutNewline,
    cString]

/-- Both `A=B` and `A` are found, with the same string. -/
theorem child_prints_envp_sample :
    printEnvVarsFromFile (childEnviron (Vector.replicate envpSize none)
      (spawnChild .plus sampleEnviron sampleCalls)) sampleFile =
        [[65, 61, 66, 61, 67], [65, 61, 66, 61, 67]] := by
  have hroom : (setLines sampleEnviron sampleFile).length ≤ 99 := by
    rw [setLines, sampleFile_lines]
    decide
  have hstarted : (spawnChild .plus sampleEnviron sampleCalls).started = true := by
    have hread : readEnvFile sampleEnviron sampleCalls =
        readLoop sampleEnviron (fun _ => true) [[65, 61, 66], [88], [65]] 0 :=
      congrArg (readLoop sampleEnviron (fun _ => true) · 0) sampleFile_lines
    rw [spawnChild, if_neg (by decide), if_neg (by decide)]
    change (readEnvFile sampleEnviron sampleCalls).started = true
    rw [hread]
    decide
  obtain ⟨henvp, hprinted⟩ :=
    child_prints_envp (by decide) rfl hroom hstarted (Vector.replicate envpSize none)
  rw [hprinted, henvp, sampleFile_lines]
  decide

end Osisp.Lab2
