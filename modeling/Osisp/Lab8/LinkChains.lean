import Osisp.Lab8.DotDot
import Osisp.Lab8.LineBuffer

namespace Osisp.Lab8

open Osisp.Lib Osisp.Lib.Stdio

/-- What `lstat` says of an entry. -/
def kindOf : Entry → FileKind
  | .directory => .dir
  | .file => .other
  | .link _ => .link

/-- What `readlink` reads of an entry. -/
def targetOf : Entry → Option (List Char)
  | .link target => some target
  | _ => none

/-- The calls of the server on a file system. `lstat` and `readlink` fail where a path names nothing
and where it has `PATH_MAX` bytes; `readdir` has the entries of a directory in an order of its
own. -/
def Env.onFs {fs : FileSystem} (rp : Realpath fs) (readdir : List Char → Option (List FileName)) :
    Env where
  realpath := rp.call
  readdir := readdir
  lstat s :=
    if s.length < pathMax then ((fs.place s).bind fs.entry).map kindOf else none
  readlink s :=
    if s.length < pathMax then ((fs.place s).bind fs.entry).bind targetOf else none

/-- `root/cwd/target`; `root/cwd` is the directory that is listed. -/
def below (root cwd target : List Char) : List Char := root ++ '/' :: cwd ++ '/' :: target

def linkLine (name linkto : List Char) : List Char := name ++ " --> ".toList ++ linkto ++ ['\n']

/-- The line of a link to a link. -/
def chainLine (name second : List Char) : List Char := name ++ " -->> ".toList ++ second ++ ['\n']

/-- `LIST` goes through the directory `here`. -/
structure Lists (env : Env) (root cwd : List Char) (here : List FileName)
    (names : List FileName) : Prop where
  path : buildPath env.realpath root cwd ['.'] = some (absolute here)
  readdir : env.readdir (absolute here) = some names

/-- A link of the directory `here` whose target is relative and is at `place`, inside the root
`dir`. -/
structure LinksInside (fs : FileSystem) (dir here : List FileName) (cwd : List Char)
    (name : FileName) (linkto : List Char) (place : List FileName) : Prop where
  link : fs.entry (here ++ [name]) = some (.link linkto)
  relative : linkto.head? ≠ some '/'
  placed : fs.place (below (absolute dir) cwd linkto) = some place
  inside : dir <+: place

/-- The target is a link again, and leads to something inside the root. -/
def LinksAgain (fs : FileSystem) (dir : List FileName) (cwd linkto : List Char)
    (place : List FileName) (second : List Char) : Prop :=
  fs.entry place = some (.link second) ∧
    ∃ path, fs.resolve (below (absolute dir) cwd linkto) = some path ∧ dir <+: path

/-- The target is no link. -/
def LinksOnce (fs : FileSystem) (place : List FileName) : Prop :=
  ∀ second, fs.entry place ≠ some (.link second)

/-- What the entry is shown as tells a link to a link from another one. -/
structure ShowsChain (fs : FileSystem) (dir : List FileName) (cwd : List Char) (name : FileName)
    (linkto : List Char) (place : List FileName) (shown : Option (List Char)) : Prop where
  again : ∀ second, LinksAgain fs dir cwd linkto place second → shown = some (chainLine name second)
  once : LinksOnce fs place → shown = some (linkLine name linkto)

/-- The calls succeed that a line for the entry takes: `lstat` of its path, and `realpath` of the
joined path, which `build_path` cuts off at the end of its buffer, with a result that begins with
the root. -/
structure CallsSucceed {fs : FileSystem} (rp : Realpath fs) (dir here : List FileName)
    (cwd : List Char) (name : FileName) (linkto : List Char) : Prop where
  full : (absolute here ++ '/' :: name).length < pathMax
  found : ∃ out, rp.call (joined (absolute dir) cwd linkto) = some out ∧ absolute dir <+: out

section Listed

variable {fs : FileSystem} {rp : Realpath fs} {readdir : List Char → Option (List FileName)}
variable {dir here place path : List FileName} {cwd linkto : List Char} {name : FileName}

/-- They succeed for a link that leads to a place inside the root by paths that are not too long. -/
theorem CallsSucceed.of_short (hfound : Succeeds rp) (honce : LinksOnce fs place)
    (hlink : LinksInside fs dir here cwd name linkto place)
    (hfull : (absolute here ++ '/' :: name).length < pathMax)
    (htarget : (below (absolute dir) cwd linkto).length < pathMax)
    (hplace : (absolute place).length < pathMax) : CallsSucceed rp dir here cwd name linkto := by
  have hjoined : joined (absolute dir) cwd linkto = below (absolute dir) cwd linkto := by
    have hbuf : pathMax ≤ pathBuf - 1 := by decide
    rw [joined, if_neg hlink.relative]
    exact List.take_of_length_le (Nat.le_trans (Nat.le_of_lt htarget) hbuf)
  obtain ⟨e, he⟩ := Option.ne_none_iff_exists'.mp (FileSystem.place_entry hlink.placed)
  have hresolved := FileSystem.resolve_of_place (fun target h => honce target (h ▸ he)) he
    hlink.placed
  refine ⟨hfull, absolute place, ?_, ?_⟩
  · rw [hjoined]
    exact hfound _ _ htarget hresolved hplace
  · obtain ⟨more, rfl⟩ := hlink.inside
    exact absolute_extends dir more

/-- What `realpath` returns is never a link for `lstat`. -/
theorem lstat_resolved {s out : List Char} (hcall : rp.call s = some out) :
    (Env.onFs rp readdir).lstat out ≠ some .link := by
  obtain ⟨path, hreal, rfl⟩ := rp.canonical s out hcall
  have hplace := FileSystem.place_absolute hreal.entry_ne_none
  change (if _ then _ else none) ≠ _
  rw [hplace, Option.bind_some]
  split_ifs
  · rcases hreal with hdir | hfile
    · rw [hdir]
      decide
    · rw [hfile]
      decide
  · intro h
    cases h

/-- A link is shown with one arrow, whatever it leads through, or not at all. -/
theorem listEntry_link (henv : (Env.onFs rp readdir).WithinLimits)
    (hname : name.length ≤ nameMax ∧ nul ∉ name)
    (hhere : (absolute here).length < pathMax)
    (hlink : fs.entry (here ++ [name]) = some (.link linkto)) :
    listEntry (Env.onFs rp readdir) (absolute dir) cwd (absolute here) name =
      if (absolute here ++ '/' :: name).length < pathMax ∧
        (buildPath rp.call (absolute dir) cwd linkto).isSome
      then linkLine name linkto else [] := by
  have hentry : fs.entry (here ++ [name]) ≠ none := by simp [hlink]
  obtain ⟨-, -, hdot, hdots, -⟩ := fs.parent here name hentry
  have hplace := FileSystem.place_child hentry
  have hbuf : ¬pathBuf ≤ (absolute here).length + 1 + name.length := by
    have hsize : pathBuf = pathMax + nameMax + 2 := rfl
    omega
  have hlstat : (Env.onFs rp readdir).lstat (absolute here ++ '/' :: name) =
      if (absolute here ++ '/' :: name).length < pathMax then some .link else none := by
    change (if _ then ((fs.place _).bind fs.entry).map kindOf else none) = _
    rw [hplace, Option.bind_some, hlink]
    rfl
  rw [listEntry, if_neg (not_or.mpr ⟨hdot, hdots⟩), if_neg hbuf]
  dsimp only
  by_cases hfull : (absolute here ++ '/' :: name).length < pathMax
  · have hread : (Env.onFs rp readdir).readlink (absolute here ++ '/' :: name) = some linkto := by
      change (if _ then ((fs.place _).bind fs.entry).bind targetOf else none) = _
      rw [if_pos hfull, hplace, Option.bind_some, hlink]
      rfl
    obtain ⟨htarget, hnul⟩ := henv.target_lt _ _ hread
    have hcut : linkto.take (pathBuf - 1) = linkto := by
      apply List.take_of_length_le
      have hsize : pathMax ≤ pathBuf - 1 := by decide
      omega
    have hrealpath : (Env.onFs rp readdir).realpath = rp.call := rfl
    rw [if_pos hfull] at hlstat
    simp only [hlstat, hread, hcut, hrealpath]
    cases hbuilt : buildPath rp.call (absolute dir) cwd linkto with
    | none => simp
    | some out =>
      have hlast : (Env.onFs rp readdir).lstat out ≠ some .link :=
        lstat_resolved (buildPath_eq_some.mp hbuilt).1
      simp only [if_neg hlast, hfull, Option.isSome_some, and_self, if_true]
      rw [sendall_eq hname.2, sendall_eq hnul]
      rfl
  · rw [if_neg hfull] at hlstat
    simp only [hlstat]
    rw [if_neg (fun h => hfull h.1)]

theorem linkLine_ne_chainLine (linkto second : List Char) :
    linkLine name linkto ≠ chainLine name second := by
  intro h
  simp only [linkLine, chainLine, List.append_assoc] at h
  have harrow := List.append_cancel_left h
  simp at harrow

theorem linkLine_ne_nil : linkLine name linkto ≠ [] := by
  intro h
  simp [linkLine] at h

theorem chainLine_ne_nil (second : List Char) : chainLine name second ≠ [] := by
  intro h
  simp [chainLine] at h

/-- A link is shown as it should be exactly if its target is no link that leads inside the root and,
where it is no link at all, the calls succeed. -/
theorem list_shows_chain_iff (henv : (Env.onFs rp readdir).WithinLimits) {names : List FileName}
    (hlists : Lists (Env.onFs rp readdir) (absolute dir) cwd here names) {i : Nat}
    (hname : names[i]? = some name) (hlink : LinksInside fs dir here cwd name linkto place) :
    ShowsChain fs dir cwd name linkto place
        (listed (Env.onFs rp readdir) (absolute dir) cwd)[i]? ↔
      (∀ second, ¬LinksAgain fs dir cwd linkto place second) ∧
        (LinksOnce fs place → CallsSucceed rp dir here cwd name linkto) := by
  have hmem : name ∈ names := List.mem_of_getElem? hname
  have hlimits := henv.name_le _ _ hlists.readdir name hmem
  have hhere := henv.path_lt _ _ (buildPath_eq_some.mp hlists.path).1
  have hshown : (listed (Env.onFs rp readdir) (absolute dir) cwd)[i]? =
      some (listEntry (Env.onFs rp readdir) (absolute dir) cwd (absolute here) name) := by
    rw [listed, hlists.path]
    simp only [hlists.readdir]
    rw [List.getElem?_map, hname, Option.map_some]
  have hline : listEntry (Env.onFs rp readdir) (absolute dir) cwd (absolute here) name = _ :=
    listEntry_link henv hlimits hhere hlink.link
  have hcalls : ((absolute here ++ '/' :: name).length < pathMax ∧
      (buildPath rp.call (absolute dir) cwd linkto).isSome) ↔
        CallsSucceed rp dir here cwd name linkto := by
    simp only [Option.isSome_iff_exists, buildPath_eq_some]
    exact ⟨fun h => ⟨h.1, h.2⟩, fun h => ⟨h.full, h.found⟩⟩
  rw [hshown, hline]
  constructor
  · intro hshows
    refine ⟨fun second hagain => ?_, fun honce => ?_⟩
    · have hsecond := Option.some.inj (hshows.again second hagain)
      split_ifs at hsecond
      · exact linkLine_ne_chainLine linkto second hsecond
      · exact chainLine_ne_nil second hsecond.symm
    · have hfirst := Option.some.inj (hshows.once honce)
      split_ifs at hfirst with hboth
      · exact hcalls.mp hboth
      · exact absurd hfirst.symm linkLine_ne_nil
  · rintro ⟨hagain, hsucceed⟩
    refine ⟨fun second h => absurd h (hagain second), fun honce => ?_⟩
    rw [if_pos (hcalls.mpr (hsucceed honce))]

end Listed

/-- The directory `/r` with a file `f`, a link `a` to `f` and a link `b` to `a`. -/
def linkTree : FileSystem where
  entry path :=
    if path = [] ∨ path = [['r']] then some .directory
    else if path = [['r'], ['f']] then some .file
    else if path = [['r'], ['a']] then some (.link ['f'])
    else if path = [['r'], ['b']] then some (.link ['a'])
    else none
  root := by simp
  parent path name h := by
    have hpath : path ++ [name] = [] ++ [['r']] ∨ path ++ [name] = [['r']] ++ [['f']] ∨
        path ++ [name] = [['r']] ++ [['a']] ∨ path ++ [name] = [['r']] ++ [['b']] := by
      by_contra hn
      simp only [List.nil_append, List.cons_append, not_or] at hn
      simp [hn] at h
    rcases hpath with hpath | hpath | hpath | hpath
    all_goals
      obtain ⟨rfl, rfl⟩ := List.append_singleton_inj.mp hpath
      simp [ValidName]

def linkNames : List FileName := [['a'], ['.'], ['b'], ['f'], ['.', '.']]

def linkTreeEnv : Env := Env.onFs (Realpath.ofResolve linkTree) fun _ => some linkNames

theorem linkTree_short {path : List FileName} (h : linkTree.entry path ≠ none) :
    (absolute path).length < pathMax := by
  simp only [linkTree] at h
  split_ifs at h with hdir hfile ha hb
  · rcases hdir with rfl | rfl <;> decide
  · subst hfile
    decide
  · subst ha
    decide
  · subst hb
    decide
  · exact absurd rfl h

theorem linkTree_succeeds : Succeeds (Realpath.ofResolve linkTree) := by
  intro s path _ hpath _
  change (linkTree.resolve s).map absolute = _
  rw [hpath]
  rfl

theorem linkTreeEnv_withinLimits : linkTreeEnv.WithinLimits where
  path_lt s r h := by
    obtain ⟨path, hreal, rfl⟩ := (Realpath.ofResolve linkTree).canonical s r h
    exact linkTree_short hreal.entry_ne_none
  name_le dir names h := by
    obtain rfl := Option.some.inj h
    decide
  target_lt s target h := by
    obtain ⟨-, h⟩ := Option.ite_none_right_eq_some.mp h
    obtain ⟨e, he, htarget⟩ := Option.bind_eq_some_iff.mp h
    obtain ⟨path, -, hentry⟩ := Option.bind_eq_some_iff.mp he
    simp only [linkTree] at hentry
    split_ifs at hentry <;> obtain rfl := Option.some.inj hentry <;>
      simp only [targetOf, Option.some.injEq, reduceCtorEq] at htarget <;> subst htarget <;> decide

theorem linkTree_lists : Lists linkTreeEnv (absolute [['r']]) [] [['r']] linkNames where
  path := by decide
  readdir := rfl

theorem list_shows_chain_once :
    ShowsChain linkTree [['r']] [] ['a'] ['f'] [['r'], ['f']]
      (listed linkTreeEnv (absolute [['r']]) [])[0]? := by
  have hlink : LinksInside linkTree [['r']] [['r']] [] ['a'] ['f'] [['r'], ['f']] :=
    ⟨rfl, by decide, by decide, by decide⟩
  refine (list_shows_chain_iff linkTreeEnv_withinLimits linkTree_lists rfl hlink).mpr
    ⟨fun second hagain => ?_, fun honce => ?_⟩
  · cases hagain.1
  · exact .of_short linkTree_succeeds honce hlink (by decide) (by decide) (by decide)

/-- `b` leads to the link `a`, and is shown as `b --> a` and not as `b -->> f`. -/
theorem second_link_not_shown :
    LinksInside linkTree [['r']] [['r']] [] ['b'] ['a'] [['r'], ['a']] ∧
      (listed linkTreeEnv (absolute [['r']]) [])[2]? = some (linkLine ['b'] ['a']) ∧
      ¬ShowsChain linkTree [['r']] [] ['b'] ['a'] [['r'], ['a']]
        (listed linkTreeEnv (absolute [['r']]) [])[2]? := by
  have hshown : (listed linkTreeEnv (absolute [['r']]) [])[2]? = some (linkLine ['b'] ['a']) := by
    decide
  have hagain : LinksAgain linkTree [['r']] [] ['a'] [['r'], ['a']] ['f'] :=
    ⟨by decide, [['r'], ['f']], by decide, by decide⟩
  refine ⟨⟨by decide, by decide, by decide, by decide⟩, hshown, fun h => ?_⟩
  have hsecond := h.again ['f'] hagain
  rw [hshown] at hsecond
  exact linkLine_ne_chainLine ['a'] ['f'] (Option.some.inj hsecond)

end Osisp.Lab8
