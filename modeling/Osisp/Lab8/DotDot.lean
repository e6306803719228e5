import Osisp.Lab8.CurrentDir

namespace Osisp.Lab8

open Osisp.Lib Osisp.Lib.Stdio

/-- What `realpath` is documented to do for a path that names something: it succeeds, unless the
path or the result is too long. -/
def Succeeds {fs : FileSystem} (rp : Realpath fs) : Prop :=
  ∀ s path, s.length < pathMax → fs.resolve s = some path → (absolute path).length < pathMax →
    rp.call s = some (absolute path)

section

variable {fs : FileSystem} {dir below : List FileName}

/-- `root/cwd/../` names the directory above. -/
theorem resolve_cwd_above (h : fs.entry (dir ++ below) = some .directory) :
    fs.resolve (absolute dir ++ '/' :: (['/'].intercalate below ++ ['/', '.', '.', '/'])) =
      some (dir ++ below).dropLast := by
  have hentry : fs.entry (dir ++ below) ≠ none := by
    rw [h]
    exact Option.some_ne_none _
  have hvalid := FileSystem.valid_of_entry hentry
  have hnames : ((absolute dir).splitOn '/' ++ (['/'].intercalate below).splitOn '/').filter
      (· ≠ []) = dir ++ below := by
    rw [List.filter_append,
      split_absolute fun name hmem => hvalid name (List.mem_append_left _ hmem),
      split_intercalate fun name hmem => hvalid name (List.mem_append_right _ hmem)]
  have hdirectory := h
  rw [← hnames] at hdirectory
  rw [← hnames]
  refine FileSystem.resolve_above _ (head_append_absolute dir _) ?_ hdirectory
  rw [List.splitOn_append_cons_self, List.splitOn_append_cons_self, List.append_assoc]
  rfl

/-- The path of a directory is no beginning of the path of the one above it. -/
theorem not_prefix_above (hdir : ∀ name ∈ dir, ValidName name) (hne : dir ≠ []) :
    ¬absolute dir <+: absolute dir.dropLast := by
  intro h
  rcases List.eq_nil_or_concat dir with rfl | ⟨parent, last, rfl⟩
  · exact hne rfl
  · rw [List.concat_eq_append] at h hdir
    have hpos := List.length_pos_of_ne_nil (hdir last (by simp)).1
    have hlen := h.length_le
    rw [List.dropLast_concat, absolute_of_ne_nil (by simp), List.flatMap_append,
      List.flatMap_singleton, List.length_append, List.length_cons] at hlen
    by_cases hparent : parent = []
    · subst hparent
      change 0 + (last.length + 1) ≤ 1 at hlen
      omega
    · rw [absolute_of_ne_nil hparent] at hlen
      omega

/-- `CD ..` does what `CD ../` does: it leads to the directory above as long as `realpath` can
find that, and stays at the root of the served tree. -/
theorem changeDir_dots_eq {rp : Realpath fs} (hrp : Documented rp) (hfound : Succeeds rp)
    {env : Env} (henv : env.realpath = rp.call) (h : fs.entry (dir ++ below) = some .directory)
    (hlen : (absolute dir ++ '/' :: (['/'].intercalate below ++ ['/', '.', '.', '/'])).length <
      pathMax) :
    changeDir env (absolute dir) (['/'].intercalate below) ['.', '.'] =
      changeDir env (absolute dir) (['/'].intercalate below) ['.', '.', '/'] := by
  have hslash : strcasecmpEqual ['.', '.', '/'] ['/'] = false := by decide
  have hdots : strcasecmpEqual ['.', '.', '/'] ['.', '.'] = false := by decide
  have hentry : fs.entry (dir ++ below) ≠ none := by
    rw [h]
    exact Option.some_ne_none _
  have hvalid := FileSystem.valid_of_entry hentry
  have hbelow : ∀ name ∈ below, ValidName name :=
    fun name hmem => hvalid name (List.mem_append_right _ hmem)
  rw [changeDir_above (by decide) (by decide) env _ hbelow]
  -- the joined path is not cut off, and `realpath` finds the directory above
  have hjoin : joined (absolute dir) (['/'].intercalate below) ['.', '.', '/'] =
      absolute dir ++ '/' :: (['/'].intercalate below ++ ['/', '.', '.', '/']) := by
    have htarget : ¬['.', '.', '/'].head? = some '/' := by decide
    rw [joined, if_neg htarget, List.append_assoc]
    apply List.take_of_length_le
    have hbuf : pathBuf = pathMax + 257 := rfl
    rw [List.cons_append]
    omega
  have hcall : env.realpath (joined (absolute dir) (['/'].intercalate below) ['.', '.', '/']) =
      some (absolute (dir ++ below).dropLast) := by
    obtain ⟨last, hlast⟩ := List.dropLast_prefix (dir ++ below)
    have hshort : (absolute (dir ++ below).dropLast).length < pathMax := by
      have habove := (absolute_extends (dir ++ below).dropLast last).length_le
      have hall := length_absolute_append dir below
      rw [hlast] at habove
      rw [List.length_append, List.length_cons, List.length_append] at hlen
      omega
    rw [hjoin, henv]
    exact hfound _ _ hlen (resolve_cwd_above h) hshort
  have hnul := hrp.noNul _ _ (henv ▸ hcall)
  have hshort := hrp.short _ _ (henv ▸ hcall)
  by_cases hcwd : below = []
  · subst hcwd
    rw [List.append_nil] at hcall hvalid hnul hshort
    by_cases hroot : dir = []
    · -- the directory above `/` is `/`
      subst hroot
      have hbuild : buildPath env.realpath (absolute []) (['/'].intercalate []) ['.', '.', '/'] =
          some (absolute ([] ++ [])) := buildPath_eq_some.mpr ⟨hcall, List.prefix_rfl⟩
      exact (changeDir_below hslash hdots hbuild (List.forall_mem_nil _) hnul hshort).symm
    · have hbuild : buildPath env.realpath (absolute dir) (['/'].intercalate []) ['.', '.', '/'] =
          none := by
        rw [Option.eq_none_iff_forall_ne_some]
        intro out hout
        obtain ⟨hreal, hprefix⟩ := buildPath_eq_some.mp hout
        rw [hcall, Option.some.injEq] at hreal
        rw [← hreal] at hprefix
        exact not_prefix_above hvalid hroot hprefix
      exact (changeDir_stays hslash hdots hbuild).symm
  · rw [List.dropLast_append_of_ne_nil hcwd] at hcall hnul hshort
    have hbuild : buildPath env.realpath (absolute dir) (['/'].intercalate below)
        ['.', '.', '/'] = some (absolute (dir ++ below.dropLast)) :=
      buildPath_eq_some.mpr ⟨hcall, absolute_extends dir below.dropLast⟩
    refine (changeDir_below hslash hdots hbuild ?_ hnul hshort).symm
    intro name hmem
    exact hbelow name (List.dropLast_subset below hmem)

end

theorem changeDir_dots_eq_subdirectory :
    changeDir smallEnv (absolute [['r']]) ['d'] ['.', '.'] =
      changeDir smallEnv (absolute [['r']]) ['d'] ['.', '.', '/'] := by
  have hentry : smallTree.entry ([['r']] ++ [['d']]) = some .directory := by decide
  refine changeDir_dots_eq smallTree_documented ?_ rfl hentry (by decide)
  intro s path _ hpath _
  show (smallTree.resolve s).map absolute = _
  rw [hpath]
  rfl

/-- Directories one in the other. -/
def chain (names : List FileName) (h : ∀ name ∈ names, ValidName name) : FileSystem where
  entry path := if path <+: names then some .directory else none
  root := if_pos List.nil_prefix
  parent path name hentry := by
    by_cases hpath : path ++ [name] <+: names
    · refine ⟨if_pos ((List.prefix_append path [name]).trans hpath), h name ?_⟩
      exact hpath.subset (List.mem_append_right _ (List.mem_singleton_self name))
    · exact absurd (if_neg hpath) hentry

/-- A `realpath` that does what is documented: it fails where the path names nothing, or the path or
the result has `PATH_MAX` bytes. -/
def Realpath.limited (fs : FileSystem) : Realpath fs where
  call s :=
    if s.length < pathMax then
      (fs.resolve s).bind fun path =>
        if (absolute path).length < pathMax then some (absolute path) else none
    else none
  canonical s r h := by
    obtain ⟨-, h⟩ := Option.ite_none_right_eq_some.mp h
    obtain ⟨path, hpath, h⟩ := Option.bind_eq_some_iff.mp h
    obtain ⟨-, hr⟩ := Option.ite_none_right_eq_some.mp h
    exact ⟨path, FileSystem.resolve_real hpath, (Option.some.inj hr).symm⟩

theorem limited_documented {names : List FileName} (h : ∀ name ∈ names, ValidName name)
    (hnul : nul ∉ absolute names) : Documented (Realpath.limited (chain names h)) := by
  have hcall : ∀ s r, (Realpath.limited (chain names h)).call s = some r →
      ∃ path, (chain names h).resolve s = some path ∧ r = absolute path ∧ r.length < pathMax := by
    intro s r hr
    obtain ⟨-, hr⟩ := Option.ite_none_right_eq_some.mp hr
    obtain ⟨path, hpath, hr⟩ := Option.bind_eq_some_iff.mp hr
    obtain ⟨hlen, hr⟩ := Option.ite_none_right_eq_some.mp hr
    obtain rfl := Option.some.inj hr
    exact ⟨path, hpath, rfl, hlen⟩
  refine ⟨fun s r hr => ?_, fun s r hr => ?_, fun s r hr => ?_⟩ <;>
    obtain ⟨path, hpath, rfl, hlen⟩ := hcall s r hr
  · exact ⟨path, hpath, rfl⟩
  · -- what is found lies on the chain
    have hentry := (FileSystem.resolve_real hpath).entry_ne_none
    have hprefix : path <+: names := by
      by_contra hnot
      exact hentry (if_neg hnot)
    obtain ⟨below, rfl⟩ := hprefix
    intro hmem
    exact hnul ((absolute_extends path below).subset hmem)
  · exact hlen

theorem limited_succeeds (fs : FileSystem) : Succeeds (Realpath.limited fs) := by
  intro s path hlen hpath hshort
  show (if s.length < pathMax then (fs.resolve s).bind fun path =>
    if (absolute path).length < pathMax then some (absolute path) else none else none) = _
  rw [if_pos hlen, hpath, Option.bind_some, if_pos hshort]

/-- Names of `m` letters. -/
def deep (k m : Nat) : List FileName := List.replicate k (List.replicate m 'd')

theorem deep_mem {k m : Nat} {name : FileName} (h : name ∈ deep k m) {c : Char} (hc : c ∈ name) :
    c = 'd' := by
  rw [List.eq_of_mem_replicate h] at hc
  exact List.eq_of_mem_replicate hc

theorem deep_valid (k m : Nat) : ∀ name ∈ deep k (m + 1), ValidName name := by
  intro name hname
  have hslash : '/' ∉ name := fun hmem => absurd (deep_mem hname hmem) (by decide)
  have hdot : '.' ∉ name := fun hmem => absurd (deep_mem hname hmem) (by decide)
  have hne : name ≠ [] := by
    rw [List.eq_of_mem_replicate hname, List.replicate_succ]
    exact List.cons_ne_nil _ _
  exact ⟨hne, fun h => hdot (by simp [h]), fun h => hdot (by simp [h]), hslash⟩

theorem length_deep (k m : Nat) : (absolute (deep (k + 1) m)).length = (k + 1) * (m + 1) := by
  have hflat : ∀ k, ((deep k m).flatMap fun name => '/' :: name).length = k * (m + 1) := by
    intro k
    induction k with
    | zero => rw [Nat.zero_mul]; rfl
    | succ k ih =>
      rw [deep, List.replicate_succ, List.flatMap_cons, List.length_append, ← deep, ih,
        List.length_cons, List.length_replicate, Nat.succ_mul, Nat.add_comm]
  rw [absolute_of_ne_nil (by simp [deep, List.replicate_succ]), hflat]

theorem nul_notMem_deep (k m : Nat) : nul ∉ absolute (deep (k + 1) m) := by
  rw [absolute_of_ne_nil (by simp [deep, List.replicate_succ])]
  intro h
  obtain ⟨name, hname, hmem⟩ := List.mem_flatMap.mp h
  rcases List.mem_cons.mp hmem with h | h
  · exact absurd h (by decide)
  · exact absurd (deep_mem hname h) (by decide)

/-- From a directory whose own path is not too long, `CD ..` leads away and `CD ../` does not. -/
theorem dots_differ {names : List FileName} (hvalid : ∀ name ∈ names, ValidName name)
    (hne : names ≠ []) (hlong : pathMax ≤ (absolute names).length + 5) {env : Env}
    (henv : env.realpath = (Realpath.limited (chain names hvalid)).call) :
    changeDir env (absolute []) (['/'].intercalate names) ['.', '.'] ≠
      changeDir env (absolute []) (['/'].intercalate names) ['.', '.', '/'] := by
  have hcwd : (absolute names).length = (['/'].intercalate names).length + 1 := by
    rw [absolute_of_ne_nil hne, flatMap_slash hne, List.length_cons]
  have hjoin :
      pathMax ≤ (joined (absolute []) (['/'].intercalate names) ['.', '.', '/']).length := by
    have htarget : ¬['.', '.', '/'].head? = some '/' := by decide
    have hbuf : pathBuf = pathMax + 257 := rfl
    rw [joined, if_neg htarget, List.length_take, List.length_append, List.length_append,
      List.length_cons, List.length_cons, List.length_cons]
    change pathMax ≤ min (pathBuf - 1) (1 + ((['/'].intercalate names).length + 1) + 4)
    omega
  have hbuild : buildPath env.realpath (absolute []) (['/'].intercalate names) ['.', '.', '/'] =
      none := by
    rw [Option.eq_none_iff_forall_ne_some]
    intro out hout
    obtain ⟨hreal, -⟩ := buildPath_eq_some.mp hout
    rw [henv] at hreal
    obtain ⟨hfits, -⟩ := Option.ite_none_right_eq_some.mp hreal
    omega
  rw [changeDir_above (by decide) (by decide) env _ hvalid,
    changeDir_stays (by decide) (by decide) hbuild]
  intro heq
  have hsame := split_intercalate fun name hmem => hvalid name (List.dropLast_subset names hmem)
  rw [heq, split_intercalate hvalid] at hsame
  have hcount := congrArg List.length hsame
  rw [List.length_dropLast] at hcount
  have hpos := List.length_pos_of_ne_nil hne
  omega

theorem not_dots_eq {names : List FileName} (hvalid : ∀ name ∈ names, ValidName name)
    (hne : names ≠ []) (hnul : nul ∉ absolute names)
    (hlong : pathMax ≤ (absolute names).length + 5) (hshort : (absolute names).length < pathMax) :
    ∃ (fs : FileSystem) (rp : Realpath fs) (env : Env) (dir below : List FileName),
      Documented rp ∧ Succeeds rp ∧ env.realpath = rp.call ∧
      fs.entry (dir ++ below) = some .directory ∧ (absolute (dir ++ below)).length < pathMax ∧
      changeDir env (absolute dir) (['/'].intercalate below) ['.', '.'] ≠
        changeDir env (absolute dir) (['/'].intercalate below) ['.', '.', '/'] := by
  let rp := Realpath.limited (chain names hvalid)
  exact ⟨chain names hvalid, rp, ⟨rp.call, fun _ => none, fun _ => none, fun _ => none⟩, [], names,
    limited_documented hvalid hnul, limited_succeeds _, rfl, if_pos List.prefix_rfl, hshort,
    dots_differ hvalid hne hlong rfl⟩

/-- With 21 names of 194 letters the path of the directory has 4095 bytes, and with `/../` behind
it and the slash of the root twice more than `realpath` takes. -/
theorem deep_dots_differ :
    ¬∀ (fs : FileSystem) (rp : Realpath fs), Documented rp → Succeeds rp →
      ∀ env : Env, env.realpath = rp.call → ∀ dir below : List FileName,
      fs.entry (dir ++ below) = some .directory → (absolute (dir ++ below)).length < pathMax →
      changeDir env (absolute dir) (['/'].intercalate below) ['.', '.'] =
        changeDir env (absolute dir) (['/'].intercalate below) ['.', '.', '/'] := by
  intro h
  have hlen : (absolute (deep (20 + 1) (193 + 1))).length = 4095 := length_deep 20 194
  have hlong : pathMax ≤ (absolute (deep (20 + 1) (193 + 1))).length + 5 := by
    rw [hlen]
    unfold pathMax
    omega
  have hshort : (absolute (deep (20 + 1) (193 + 1))).length < pathMax := by
    rw [hlen]
    unfold pathMax
    omega
  have hne : deep (20 + 1) (193 + 1) ≠ [] := List.cons_ne_nil _ _
  obtain ⟨fs, rp, env, dir, below, hdocumented, hsucceeds, henv, hentry, hlt, hdiffer⟩ :=
    not_dots_eq (deep_valid (20 + 1) 193) hne (nul_notMem_deep 20 194) hlong hshort
  exact hdiffer (h fs rp hdocumented hsucceeds env henv dir below hentry hlt)

end Osisp.Lab8
