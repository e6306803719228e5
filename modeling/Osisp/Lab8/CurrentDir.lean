import Osisp.Lib.Transition
import Osisp.Lab8.Reply

namespace Osisp.Lab8

open Osisp.Lib Osisp.Lib.Stdio

/-- What `realpath` is documented to do: it returns the canonical path of the file the argument
names, as a C string that fits into `PATH_MAX`, or it fails. -/
structure Documented {fs : FileSystem} (rp : Realpath fs) : Prop where
  resolves : ∀ s r, rp.call s = some r → ∃ path, fs.resolve s = some path ∧ r = absolute path
  noNul : ∀ s r, rp.call s = some r → nul ∉ r
  short : ∀ s r, rp.call s = some r → r.length < pathMax

/-- A `LIST` at `cwd` opens a directory of the tree below `dir`, if any. -/
def ListsServed {fs : FileSystem} (rp : Realpath fs) (dir : List FileName) (cwd : List Char) :
    Prop :=
  ∀ path, buildPath rp.call (absolute dir) cwd ['.'] = some path →
    ∃ below, path = absolute (dir ++ below) ∧ fs.entry (dir ++ below) = some .directory

/-- What `CD t` is resolved to, where `t` is neither `/` nor `..`. -/
def Target (fs : FileSystem) (root cwd : List Char) (path : List FileName) : Command → Prop
  | .cd t => strcasecmpEqual t ['/'] = false ∧ strcasecmpEqual t ['.', '.'] = false ∧
      fs.resolve (joined root cwd t) = some path
  | _ => False

/-- The command does not lead to a file of the tree, nor into a sibling of the root with a longer
name. -/
def ToDirectory (fs : FileSystem) (dir : List FileName) (cwd cmd : List Char) : Prop :=
  ∀ path, Target fs (absolute dir) cwd path (commandOf (trim cmd)) →
    ¬(dir <+: path ∧ fs.entry path = some .file) ∧ ¬BelowLongerSibling dir path

/-- `cwd` is the way from the root to a directory below it, name by name. -/
structure Canonical (fs : FileSystem) (dir below : List FileName) (cwd : List Char) : Prop where
  cwd_eq : cwd = ['/'].intercalate below
  directory : fs.entry (dir ++ below) = some .directory
  short : (absolute (dir ++ below)).length < pathMax

/-- What `CD` cuts off the end of `cwd` for `..` is the last name. -/
theorem cut_intercalate {path : List FileName} (h : ∀ name ∈ path, ValidName name) :
    (((['/'].intercalate path).reverse.dropWhile (· ≠ '/')).drop 1).reverse =
      ['/'].intercalate path.dropLast := by
  rcases List.eq_nil_or_concat path with rfl | ⟨parent, last, rfl⟩
  · rfl
  · rw [List.concat_eq_append] at h ⊢
    have hlast : ∀ c ∈ last.reverse, (decide (c ≠ '/')) = true := by
      intro c hc
      have hvalid := (h last (by simp)).2.2.2
      simpa using fun heq : c = '/' => hvalid (heq ▸ List.mem_reverse.mp hc)
    have hdrop : last.reverse.dropWhile (· ≠ '/') = [] := List.dropWhile_eq_nil_iff.mpr hlast
    rw [List.dropLast_concat]
    by_cases hparent : parent = []
    · subst hparent
      rw [List.nil_append, List.intercalate_singleton, hdrop]
      rfl
    · have hcat : ['/'].intercalate (parent ++ [last]) =
          ['/'].intercalate parent ++ '/' :: last := by
        have hne : parent ++ [last] ≠ [] := by simp
        have hall := flatMap_slash hne
        rw [List.flatMap_append, flatMap_slash hparent, List.flatMap_singleton,
          List.cons_append] at hall
        exact (List.cons.inj hall).2.symm
      rw [hcat, List.reverse_append, List.reverse_cons, List.append_assoc, List.dropWhile_append,
        hdrop]
      simp

/-- What `CD` takes from a path below the root. -/
theorem suffix_absolute (dir : List FileName) {below : List FileName}
    (h : ∀ name ∈ below, ValidName name) :
    (if ((absolute (dir ++ below)).drop (absolute dir).length).head? = some '/' then
        ((absolute (dir ++ below)).drop (absolute dir).length).drop 1
      else (absolute (dir ++ below)).drop (absolute dir).length) = ['/'].intercalate below := by
  by_cases hbelow : below = []
  · subst hbelow
    simp
  by_cases hroot : dir = []
  · subst hroot
    have hdrop : (absolute ([] ++ below)).drop (absolute []).length = ['/'].intercalate below := by
      rw [List.nil_append, absolute_of_ne_nil hbelow, flatMap_slash hbelow]
      rfl
    rw [hdrop, if_neg]
    obtain ⟨name, rest, rfl⟩ := List.exists_cons_of_ne_nil hbelow
    obtain ⟨hne, -, -, hslash⟩ := h name List.mem_cons_self
    obtain ⟨c, name, rfl⟩ := List.exists_cons_of_ne_nil hne
    have hc : c ≠ '/' := fun heq => hslash (heq ▸ List.mem_cons_self)
    cases rest with
    | nil => simpa using hc
    | cons next rest => simpa [List.intercalate_cons_cons] using hc
  · have hdrop : (absolute (dir ++ below)).drop (absolute dir).length =
        '/' :: ['/'].intercalate below := by
      rw [absolute_of_ne_nil hroot, absolute_of_ne_nil (by simp [hroot]), List.flatMap_append,
        List.drop_left, flatMap_slash hbelow]
    rw [hdrop]
    rfl

theorem changeDir_above {t : List Char} (hslash : strcasecmpEqual t ['/'] = false)
    (hdots : strcasecmpEqual t ['.', '.'] = true) (env : Env) (root : List Char)
    {below : List FileName} (hbelow : ∀ name ∈ below, ValidName name) :
    changeDir env root (['/'].intercalate below) t = ['/'].intercalate below.dropLast := by
  rw [changeDir, hslash, if_neg Bool.false_ne_true, if_pos hdots]
  exact cut_intercalate hbelow

theorem changeDir_stays {env : Env} {root cwd t : List Char}
    (hslash : strcasecmpEqual t ['/'] = false) (hdots : strcasecmpEqual t ['.', '.'] = false)
    (hbuild : buildPath env.realpath root cwd t = none) : changeDir env root cwd t = cwd := by
  rw [changeDir, hslash, if_neg Bool.false_ne_true, hdots, if_neg Bool.false_ne_true, hbuild]

/-- `CD t` where it comes to a path below the root. -/
theorem changeDir_below {env : Env} {dir below : List FileName} {cwd t : List Char}
    (hslash : strcasecmpEqual t ['/'] = false) (hdots : strcasecmpEqual t ['.', '.'] = false)
    (hbuild : buildPath env.realpath (absolute dir) cwd t = some (absolute (dir ++ below)))
    (hbelow : ∀ name ∈ below, ValidName name) (hnul : nul ∉ absolute (dir ++ below))
    (hshort : (absolute (dir ++ below)).length < pathMax) :
    changeDir env (absolute dir) cwd t = ['/'].intercalate below := by
  have hmem : ∀ c ∈ ['/'].intercalate below, c ∈ absolute (dir ++ below) := by
    intro c hc
    rw [← suffix_absolute dir hbelow] at hc
    split_ifs at hc
    · exact List.mem_of_mem_drop (List.mem_of_mem_drop hc)
    · exact List.mem_of_mem_drop hc
  have hstring : cString (['/'].intercalate below) = ['/'].intercalate below :=
    sendall_eq fun h => hnul (hmem nul h)
  have hlen : (['/'].intercalate below).length < pathMax := by
    refine Nat.lt_of_le_of_lt ?_ hshort
    rw [← suffix_absolute dir hbelow]
    split_ifs
    · rw [List.length_drop, List.length_drop]
      omega
    · rw [List.length_drop]
      omega
  rw [changeDir, hslash, if_neg Bool.false_ne_true, hdots, if_neg Bool.false_ne_true, hbuild]
  dsimp only
  rw [suffix_absolute dir hbelow, hstring, if_pos hlen]

section Session

variable {fs : FileSystem} {dir below : List FileName} {cwd : List Char}

theorem Canonical.valid (h : Canonical fs dir below cwd) :
    (∀ name ∈ dir, ValidName name) ∧ ∀ name ∈ below, ValidName name := by
  have hentry : fs.entry (dir ++ below) ≠ none := by
    rw [h.directory]
    exact Option.some_ne_none _
  have hall := FileSystem.valid_of_entry hentry
  exact ⟨fun name hmem => hall name (List.mem_append_left _ hmem),
    fun name hmem => hall name (List.mem_append_right _ hmem)⟩

theorem Canonical.names (h : Canonical fs dir below cwd) :
    ((absolute dir).splitOn '/' ++ cwd.splitOn '/').filter (· ≠ []) = dir ++ below := by
  obtain ⟨hdir, hbelow⟩ := h.valid
  rw [List.filter_append, split_absolute hdir, h.cwd_eq, split_intercalate hbelow]

/-- `root/cwd/.` is not cut off by `snprintf`. -/
theorem Canonical.joined_dot (h : Canonical fs dir below cwd) :
    joined (absolute dir) cwd ['.'] = absolute dir ++ '/' :: (cwd ++ '/' :: ['.']) := by
  have hshort := h.short
  have hlen : (absolute dir).length + cwd.length ≤ (absolute (dir ++ below)).length + 1 := by
    rw [h.cwd_eq]
    by_cases hbelow : below = []
    · subst hbelow
      simp
    · have hlist : (absolute below).length = (['/'].intercalate below).length + 1 := by
        rw [absolute_of_ne_nil hbelow, flatMap_slash hbelow, List.length_cons]
      by_cases hroot : dir = []
      · subst hroot
        have hone : (absolute []).length = 1 := rfl
        rw [List.nil_append]
        omega
      · have hboth : dir ++ below ≠ [] := by simp [hroot]
        rw [absolute_of_ne_nil hroot, absolute_of_ne_nil hboth, List.flatMap_append,
          List.length_append, flatMap_slash hbelow, List.length_cons]
        omega
  have htarget : ¬['.'].head? = some '/' := by decide
  rw [joined, if_neg htarget, List.take_of_length_le]
  · simp
  · have hbuf : pathBuf = pathMax + 257 := rfl
    simp only [List.length_append, List.length_cons, List.length_nil]
    omega

theorem Canonical.lists (h : Canonical fs dir below cwd) {rp : Realpath fs} (hrp : Documented rp) :
    ListsServed rp dir cwd := by
  intro path hpath
  obtain ⟨hcall, -⟩ := buildPath_eq_some.mp hpath
  obtain ⟨found, hfound, rfl⟩ := hrp.resolves _ _ hcall
  have hresolve := FileSystem.resolve_directories ((absolute dir).splitOn '/' ++ cwd.splitOn '/')
    [['.']] (head_append_absolute dir ('/' :: (cwd ++ '/' :: ['.'])))
    (by rw [List.splitOn_append_cons_self, List.splitOn_append_cons_self, List.append_assoc]; rfl)
    (by simp) (by rw [h.names]; exact h.directory)
  rw [h.names, ← h.joined_dot, hfound, Option.some.injEq] at hresolve
  exact ⟨below, by rw [hresolve], h.directory⟩

/-- `CD` keeps `cwd` the way to a directory of the tree. -/
theorem Canonical.changeDir (h : Canonical fs dir below cwd) {rp : Realpath fs}
    (hrp : Documented rp) {env : Env} (henv : env.realpath = rp.call) {t : List Char}
    (hgood : ∀ path, Target fs (absolute dir) cwd path (.cd t) →
      ¬(dir <+: path ∧ fs.entry path = some .file) ∧ ¬BelowLongerSibling dir path) :
    ∃ below', Canonical fs dir below' (changeDir env (absolute dir) cwd t) := by
  obtain ⟨hdir, hbelow⟩ := h.valid
  by_cases hslash : strcasecmpEqual t ['/'] = true
  · have hempty : Lab8.changeDir env (absolute dir) cwd t = [] := by
      rw [Lab8.changeDir, if_pos hslash]
    rw [hempty]
    refine ⟨[], rfl, ?_, ?_⟩
    · rw [List.append_nil]
      exact FileSystem.directory_of_append _ h.directory
    · rw [List.append_nil]
      exact Nat.lt_of_le_of_lt absolute_length_le h.short
  rw [Bool.not_eq_true] at hslash
  by_cases hdots : strcasecmpEqual t ['.', '.'] = true
  · obtain ⟨last, hlast⟩ := List.dropLast_prefix below
    have hsplit : dir ++ below = dir ++ below.dropLast ++ last := by
      rw [List.append_assoc, hlast]
    refine ⟨below.dropLast, ?_, ?_, ?_⟩
    · rw [h.cwd_eq]
      exact changeDir_above hslash hdots env _ hbelow
    · exact FileSystem.directory_of_append _ (hsplit ▸ h.directory)
    · exact Nat.lt_of_le_of_lt absolute_length_le (hsplit ▸ h.short)
  · rw [Bool.not_eq_true] at hdots
    cases hbuild : buildPath env.realpath (absolute dir) cwd t with
    | none =>
      rw [changeDir_stays hslash hdots hbuild]
      exact ⟨below, h⟩
    | some newp =>
      obtain ⟨hcall, hprefix⟩ := buildPath_eq_some.mp (henv ▸ hbuild)
      obtain ⟨path, hresolve, rfl⟩ := hrp.resolves _ _ hcall
      obtain ⟨hfile, hsibling⟩ := hgood path ⟨hslash, hdots, hresolve⟩
      have hreal := FileSystem.resolve_real hresolve
      have hpath := FileSystem.valid_of_entry hreal.entry_ne_none
      -- what passes the comparison is below the root or in a sibling
      have hinside : dir <+: path := by
        by_cases hroot : dir = []
        · subst hroot
          exact List.nil_prefix
        · exact (absolute_prefix_cases hdir hpath hroot hprefix).resolve_right hsibling
      obtain ⟨below', rfl⟩ := hinside
      have hshort := hrp.short _ _ hcall
      refine ⟨below', ?_, ?_, hshort⟩
      · exact changeDir_below hslash hdots hbuild
          (fun name hmem => hpath name (List.mem_append_right _ hmem)) (hrp.noNul _ _ hcall) hshort
      · exact hreal.resolve_right fun h => hfile ⟨List.prefix_append _ _, h⟩

theorem Canonical.nextCwd (h : Canonical fs dir below cwd) {rp : Realpath fs}
    (hrp : Documented rp) {env : Env} (henv : env.realpath = rp.call) {cmd : List Char}
    (hgood : ToDirectory fs dir cwd cmd) :
    ∃ below', Canonical fs dir below'
      (Lab8.nextCwd env (absolute dir) cwd (commandOf (trim cmd))) := by
  unfold ToDirectory at hgood
  cases hcmd : commandOf (trim cmd) with
  | cd t =>
    rw [hcmd] at hgood
    exact h.changeDir hrp henv hgood
  | _ => exact ⟨below, h⟩

end Session

/-- The directory `/r` with a directory `d` and a file `f`. -/
def smallTree : FileSystem where
  entry path :=
    if path = [] ∨ path = [['r']] ∨ path = [['r'], ['d']] then some .directory
    else if path = [['r'], ['f']] then some .file
    else none
  root := by simp
  parent path name h := by
    have hpath : path ++ [name] = [['r']] ∨ path ++ [name] = [['r'], ['d']] ∨
        path ++ [name] = [['r'], ['f']] := by
      by_contra hn
      obtain ⟨h1, h2, h3⟩ : _ ∧ _ ∧ _ := by simpa only [not_or] using hn
      simp [h1, h2, h3] at h
    rcases hpath with hpath | hpath | hpath
    · have hlast : path ++ [name] = [] ++ [['r']] := hpath
      obtain ⟨rfl, rfl⟩ := List.append_singleton_inj.mp hlast
      simp [ValidName]
    · have hlast : path ++ [name] = [['r']] ++ [['d']] := hpath
      obtain ⟨rfl, rfl⟩ := List.append_singleton_inj.mp hlast
      simp [ValidName]
    · have hlast : path ++ [name] = [['r']] ++ [['f']] := hpath
      obtain ⟨rfl, rfl⟩ := List.append_singleton_inj.mp hlast
      simp [ValidName]

theorem smallTree_real {path : List FileName} (h : smallTree.Real path) :
    path = [] ∨ path = [['r']] ∨ path = [['r'], ['d']] ∨ path = [['r'], ['f']] := by
  by_contra hn
  simp only [not_or] at hn
  obtain ⟨h1, h2, h3, h4⟩ := hn
  simp [FileSystem.Real, smallTree, h1, h2, h3, h4] at h

theorem smallTree_documented : Documented (Realpath.ofResolve smallTree) := by
  have hcall : ∀ s r, (Realpath.ofResolve smallTree).call s = some r →
      ∃ path, smallTree.resolve s = some path ∧ r = absolute path := by
    intro s r h
    obtain ⟨path, hpath, rfl⟩ := Option.map_eq_some_iff.mp h
    exact ⟨path, hpath, rfl⟩
  refine ⟨hcall, fun s r h => ?_, fun s r h => ?_⟩ <;>
    obtain ⟨path, hpath, rfl⟩ := hcall s r h <;>
    rcases smallTree_real (FileSystem.resolve_real hpath) with rfl | rfl | rfl | rfl <;> decide

def smallEnv : Env :=
  ⟨(Realpath.ofResolve smallTree).call, fun _ => none, fun _ => none, fun _ => none⟩

end Osisp.Lab8
