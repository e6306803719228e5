import Osisp.Lab2.EnvpBounds

namespace Osisp.Lab2

open Osisp.Lib Osisp.Lib.Stdio

def lcCollate : Text := "LC_COLLATE".toList.map Char.toUInt8

/-- `setenv` with `overwrite`: the first string for the name is replaced; if there is none, a new
one is added. -/
def setenv (name value : Text) : List Text → List Text
  | [] => [entryOf name value]
  | entry :: environ =>
    if (name ++ [equals]).isPrefixOf entry then entryOf name value :: environ
    else entry :: setenv name value environ

/-- The environment in which `main` calls `print_env_vars`. -/
def collateC (environ : List Text) : List Text := setenv lcCollate [67] environ

/-- The environment afterwards. -/
def restored (environ : List Text) : List Text :=
  match getenv environ lcCollate with
  | some value => setenv lcCollate value (collateC environ)
  | none => collateC environ

def maxChild : Nat := 100

/-- What the calls in a call of `spawn_child` return; `runs` says that `fork` and `execve`
succeed. -/
structure Spawn where
  calls : Calls
  runs : Bool

/-- A child that runs, with what `envp` was filled with and the file `env`. -/
structure Child where
  num : Nat
  mode : Mode
  filled : Filled
  env : Option (List UInt8)

/-- `child_name`, with two digits. -/
def childName (num : Nat) : Text :=
  ("child_".toList ++ [Nat.digitChar (num / 10), Nat.digitChar (num % 10)]).map Char.toUInt8

/-- The lines that `main` of the child prints after the first one. A child in mode `+` has the name
of the file as its argument. -/
def Child.printed (c : Child) (stack : Vector (Option Text) envpSize) : List Text :=
  match c.mode with
  | .plus => printEnvVarsFromFile (childEnviron stack c.filled) (c.env.getD [])
  | .star => childEnviron stack c.filled

/-- How the loop ends: with `q`, by `exit` in `read_env_file`, or not at all, when `getchar` returns
`EOF` for ever. A run is followed up to the first write behind `envp`. -/
inductive Ending where
  | quit
  | failure
  | endless
  | overrun
  deriving DecidableEq

/-- `+` and `*` -/
def modeOf (command : UInt8) : Option Mode :=
  if command = 43 then some .plus else if command = 42 then some .star else none

/-- `read_env_file` is called and calls `exit`. -/
def exits (mode : Mode) (environ : List Text) (calls : Calls) : Bool :=
  mode == .plus && (getenv environ childPath).isSome && calls.access &&
    !(readEnvFile environ calls).started

/-- The loop of `main`, with `child_num`. -/
def commandLoop (environ : List Text) (spawns : Nat → Spawn) :
    List UInt8 → Nat → List Child × Ending
  | [], _ => ([], .endless)
  | command :: input, num =>
    match modeOf command with
    | some mode =>
      if num < maxChild then
        let calls := (spawns num).calls
        if InBounds (spawnChild mode environ calls) then
          if exits mode environ calls then ([], .failure)
          else
            let rest := commandLoop environ spawns input (num + 1)
            if (spawnChild mode environ calls).started && (spawns num).runs then
              (⟨num, mode, spawnChild mode environ calls, calls.env⟩ :: rest.1, rest.2)
            else rest
        else ([], .overrun)
      else commandLoop environ spawns input num
    | none =>
      -- `q`
      if command = 113 then ([], .quit) else commandLoop environ spawns input num

/-- What `main` prints itself, the children, and how it ends. -/
structure Run where
  printed : List Text
  children : List Child
  ending : Ending

/-- `main` of the parent. -/
def main (environ : List Text) (spawns : Nat → Spawn) (stdin : List UInt8) : Run :=
  let loop := commandLoop (restored environ) spawns stdin 0
  ⟨collateC environ, loop.1, loop.2⟩

/-- The environment that the parent was started with; `LC_COLLATE` is set to `C` if it was not
set. -/
def kept (environ : List Text) : List Text :=
  if (getenv environ lcCollate).isSome then environ else environ ++ [entryOf lcCollate [67]]

section Setenv

variable {environ : List Text} {name value : Text}

theorem setenv_new (hne : name ≠ []) (h : getenv environ name = none) (value : Text) :
    setenv name value environ = environ ++ [entryOf name value] := by
  rw [getenv, if_neg hne, Option.map_eq_none_iff, List.find?_eq_none] at h
  induction environ with
  | nil => rfl
  | cons entry environ ih =>
    rw [setenv, if_neg (h entry List.mem_cons_self), List.cons_append,
      ih fun other hother => h other (List.mem_cons_of_mem _ hother)]

/-- Setting a variable to what it was undoes the change. -/
theorem setenv_restore (h : getenv environ name = some value) (other : Text) :
    setenv name value (setenv name other environ) = environ := by
  have hne := ne_nil_of_getenv h
  induction environ with
  | nil =>
    rw [getenv, if_neg hne] at h
    cases h
  | cons entry environ ih =>
    rw [getenv, if_neg hne] at h
    by_cases hpre : (name ++ [equals]).isPrefixOf entry = true
    · have hself : (name ++ [equals]).isPrefixOf (entryOf name other) = true := by
        rw [List.isPrefixOf_iff_prefix]
        exact ⟨other, by simp [entryOf]⟩
      rw [List.find?_cons_of_pos (by exact hpre)] at h
      have hentry : entryOf name value = entry := by
        obtain ⟨rest, rfl⟩ := List.isPrefixOf_iff_prefix.mp hpre
        obtain rfl := Option.some.inj h
        simp [entryOf]
      rw [setenv, if_pos hpre, setenv, if_pos hself, hentry]
    · rw [List.find?_cons_of_neg (by exact hpre)] at h
      rw [setenv, if_neg hpre, setenv, if_neg hpre, ih]
      rw [getenv, if_neg hne]
      exact h

theorem isPrefixOf_of_variableName {entry : Text} (h : variableName entry = some name) :
    (name ++ [equals]).isPrefixOf entry = true := by
  rw [variableName] at h
  split_ifs at h with hmem
  obtain ⟨before, behind, rfl, hbefore⟩ := List.eq_append_cons_of_mem hmem
  rw [takeWhile_ne_append hbefore, List.takeWhile_cons_of_neg (by simp), List.append_nil] at h
  obtain rfl := Option.some.inj h
  rw [List.isPrefixOf_iff_prefix]
  exact ⟨behind, by simp⟩

theorem lcCollate_ne_nil : lcCollate ≠ [] := by decide

theorem restored_eq_kept (environ : List Text) : restored environ = kept environ := by
  rw [restored, kept]
  cases h : getenv environ lcCollate with
  | none => exact setenv_new lcCollate_ne_nil h [67]
  | some value => exact setenv_restore h [67]

/-- The names are different still. -/
theorem kept_nodup (hnames : (environ.filterMap variableName).Nodup) :
    ((kept environ).filterMap variableName).Nodup := by
  rw [kept]
  cases h : getenv environ lcCollate with
  | some value => exact hnames
  | none =>
    have hnew : variableName (entryOf lcCollate [67]) = some lcCollate := by decide
    rw [Option.isSome_none, if_neg Bool.false_ne_true, List.filterMap_append, List.filterMap_cons,
      hnew, List.filterMap_nil, List.nodup_append]
    refine ⟨hnames, by simp, ?_⟩
    intro a ha b hb
    rw [List.mem_singleton.mp hb]
    rintro rfl
    obtain ⟨entry, hentry, hvar⟩ := List.mem_filterMap.mp ha
    rw [getenv, if_neg lcCollate_ne_nil, Option.map_eq_none_iff, List.find?_eq_none] at h
    exact h entry hentry (isPrefixOf_of_variableName hvar)

end Setenv

/-- What a child of the run prints, with the environment that is meant for it. -/
def Child.wants (environ : List Text) (c : Child) : List Text :=
  match c.mode with
  | .plus => wanted environ (envLines (c.env.getD []))
  | .star => environ

/-- A child that was started in this environment. -/
structure Child.Made (environ : List Text) (spawns : Nat → Spawn) (c : Child) : Prop where
  lt : c.num < maxChild
  filled : c.filled = spawnChild c.mode environ (spawns c.num).calls
  env : c.env = (spawns c.num).calls.env
  started : c.filled.started = true
  bounds : InBounds c.filled

section Loop

variable {environ : List Text} {spawns : Nat → Spawn}

/-- The children of the loop from `num` on. -/
theorem commandLoop_children (input : List UInt8) (num : Nat) :
    (commandLoop environ spawns input num).1.Pairwise (fun a b => a.num < b.num) ∧
      ∀ c ∈ (commandLoop environ spawns input num).1, num ≤ c.num ∧ c.Made environ spawns := by
  induction input generalizing num with
  | nil => exact ⟨List.Pairwise.nil, fun c hc => by cases hc⟩
  | cons command input ih =>
    have hskip := ih num
    have hnone : (([], .failure) : List Child × Ending).1.Pairwise (fun a b => a.num < b.num) ∧
        ∀ c ∈ ([] : List Child), num ≤ c.num ∧ c.Made environ spawns :=
      ⟨List.Pairwise.nil, fun c hc => by cases hc⟩
    rw [commandLoop]
    cases hmode : modeOf command with
    | none =>
      dsimp only
      split_ifs
      · exact hnone
      · exact hskip
    | some mode =>
      dsimp only
      split_ifs with hroom hbounds hexits hstarted
      · exact hnone
      · obtain ⟨hpair, hmade⟩ := ih (num + 1)
        obtain ⟨hstarted, -⟩ := Bool.and_eq_true_iff.mp hstarted
        refine ⟨List.pairwise_cons.mpr ⟨fun c hc => (hmade c hc).1, hpair⟩, ?_⟩
        intro c hc
        rcases List.mem_cons.mp hc with rfl | hc
        · exact ⟨Nat.le_refl num, hroom, rfl, rfl, hstarted, hbounds⟩
        · exact ⟨Nat.le_of_succ_le (hmade c hc).1, (hmade c hc).2⟩
      · obtain ⟨hpair, hmade⟩ := ih (num + 1)
        exact ⟨hpair, fun c hc => ⟨Nat.le_of_succ_le (hmade c hc).1, (hmade c hc).2⟩⟩
      · exact hnone
      · exact hskip

/-- A child prints what is meant for it. -/
theorem Child.Made.printed {c : Child} (hc : c.Made environ spawns)
    (hnames : (environ.filterMap variableName).Nodup) (stack : Vector (Option Text) envpSize) :
    c.printed stack = c.wants environ := by
  obtain ⟨num, mode, filled, env⟩ := c
  have hfilled : filled = spawnChild mode environ (spawns num).calls := hc.filled
  have henv : env = (spawns num).calls.env := hc.env
  have hstarted : filled.started = true := hc.started
  have hbounds : InBounds filled := hc.bounds
  have hloop : ∀ entries : List Text, filled = copyLoop entries 0 →
      childEnviron stack filled = entries := by
    intro entries hcopy
    rw [hcopy, inBounds_range (copyLoop_indices entries 0)] at hbounds
    have hcells : stack.toList = ([] : List Text).map some ++ stack.toList := rfl
    rw [hcopy]
    refine execStrings_copyLoop entries hcells ?_
    rw [Vector.length_toList]
    exact Nat.lt_succ_of_le hbounds
  rw [hfilled] at hstarted
  unfold spawnChild at hstarted
  split_ifs at hstarted with hpath haccess
  cases mode with
  | star =>
    have hcopy : filled = copyLoop environ 0 := by
      rw [hfilled, spawnChild, if_neg hpath, if_neg haccess]
    exact hloop environ hcopy
  | plus =>
    have hread : filled = readEnvFile environ (spawns num).calls := by
      rw [hfilled, spawnChild, if_neg hpath, if_neg haccess]
    change (readEnvFile environ (spawns num).calls).started = true at hstarted
    change printEnvVarsFromFile (childEnviron stack filled) (env.getD []) =
      wanted environ (envLines (env.getD []))
    cases hfile : (spawns num).calls.env with
    | none =>
      rw [readEnvFile, hfile] at hstarted
      cases hstarted
    | some file =>
      rw [readEnvFile, hfile] at hstarted hread
      obtain rfl : env = some file := henv.trans hfile
      rw [hloop _ (hread.trans (readLoop_started hstarted))]
      exact printed_eq_wanted hnames file

end Loop

theorem childName_injective {a b : Nat} (ha : a < maxChild) (hb : b < maxChild)
    (h : childName a = childName b) : a = b := by
  have hdigit : ∀ i < 10, ∀ j < 10,
      (Nat.digitChar i).toUInt8 = (Nat.digitChar j).toUInt8 → i = j := by decide
  rw [childName, childName, List.map_append, List.map_append] at h
  obtain ⟨htens, hrest⟩ := List.cons.inj (List.append_cancel_left h)
  obtain ⟨hones, -⟩ := List.cons.inj hrest
  have htens := hdigit (a / 10) (Nat.div_lt_of_lt_mul ha) (b / 10) (Nat.div_lt_of_lt_mul hb) htens
  have hones := hdigit (a % 10) (Nat.mod_lt a (by decide)) (b % 10) (Nat.mod_lt b (by decide)) hones
  rw [← Nat.div_add_mod a 10, ← Nat.div_add_mod b 10, htens, hones]

/-- Whatever is typed and whichever calls of `spawn_child` fail, the children that are started
before anything is written behind `envp` have different names, and each prints what the command asks
for of the environment that the parent was started with: all of it, or what is set of the variables
in the file. Only `LC_COLLATE` is `C` for them if it was not set. -/
theorem children_print {environ : List Text} (hnames : (environ.filterMap variableName).Nodup)
    (spawns : Nat → Spawn) (stdin : List UInt8) :
    (main environ spawns stdin).children.Pairwise (fun a b => childName a.num ≠ childName b.num) ∧
      ∀ c ∈ (main environ spawns stdin).children, ∀ stack,
        c.printed stack = c.wants (kept environ) := by
  obtain ⟨hpair, hmade⟩ : (commandLoop (kept environ) spawns stdin 0).1.Pairwise
      (fun a b => a.num < b.num) ∧ ∀ c ∈ (commandLoop (kept environ) spawns stdin 0).1,
        0 ≤ c.num ∧ c.Made (kept environ) spawns := commandLoop_children stdin 0
  have hchildren : (main environ spawns stdin).children =
      (commandLoop (kept environ) spawns stdin 0).1 := by
    rw [main, restored_eq_kept]
  rw [hchildren]
  refine ⟨hpair.imp_of_mem ?_, fun c hc stack => ?_⟩
  · intro a b ha hb hlt heq
    have hsame := childName_injective (hmade a ha).2.lt (hmade b hb).2.lt heq
    exact absurd hsame (Nat.ne_of_lt hlt)
  · exact (hmade c hc).2.printed (kept_nodup hnames) stack

def starChild : Child := ⟨0, .star, copyLoop (kept sampleEnviron) 0, some sampleFile⟩

theorem children_print_star :
    starChild ∈ (main sampleEnviron (fun _ => ⟨sampleCalls, true⟩) [42, 113]).children ∧
      ∀ stack, starChild.printed stack = sampleEnviron ++ [entryOf lcCollate [67]] := by
  have hnames : (sampleEnviron.filterMap variableName).Nodup := by decide
  have hmem : starChild ∈ (main sampleEnviron (fun _ => ⟨sampleCalls, true⟩) [42, 113]).children :=
    List.mem_singleton.mpr rfl
  exact ⟨hmem, (children_print hnames _ [42, 113]).2 starChild hmem⟩

end Osisp.Lab2
