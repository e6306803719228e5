import Mathlib.Data.List.Basic
import Mathlib.Data.List.Induction

namespace Osisp.Lib

abbrev FileName := List Char

/-- What a directory entry may be called; `.` and `..` are not entries of their own. -/
def ValidName (name : FileName) : Prop :=
  name ≠ [] ∧ name ≠ ['.'] ∧ name ≠ ['.', '.'] ∧ '/' ∉ name

inductive Entry where
  | directory
  | file
  | link (target : List Char)
  deriving DecidableEq, Repr

/-- What there is at each path, a path being the names on the way from the root directory. Only
a directory has entries below it. -/
structure FileSystem where
  entry : List FileName → Option Entry
  root : entry [] = some .directory
  parent : ∀ (path : List FileName) (name : FileName), entry (path ++ [name]) ≠ none →
    entry path = some .directory ∧ ValidName name

/-- The absolute path string of a list of names. -/
def absolute (path : List FileName) : List Char :=
  if path = [] then ['/'] else path.flatMap (fun name => '/' :: name)

/-- `path` leads to or below a sibling of `dir` whose name begins with the name of `dir` and is
longer. -/
def BelowLongerSibling (dir path : List FileName) : Prop :=
  ∃ parent name more below, more ≠ [] ∧ dir = parent ++ [name] ∧
    path = parent ++ (name ++ more) :: below

theorem flatMap_slash_cases (path : List FileName) :
    path.flatMap (fun name => '/' :: name) = [] ∨
      ∃ s, path.flatMap (fun name => '/' :: name) = '/' :: s := by
  cases path with
  | nil => exact .inl rfl
  | cons name path => exact .inr ⟨_, rfl⟩

theorem prefix_of_append_prefix {r p s t : List Char} (hr : '/' ∉ r) (h : r ++ s <+: p ++ t)
    (ht : t = [] ∨ ∃ t', t = '/' :: t') : r <+: p := by
  have hle : r <+: p ++ t := (List.prefix_append r s).trans h
  rcases List.prefix_or_prefix_of_prefix hle (List.prefix_append p t) with hrp | ⟨u, rfl⟩
  · exact hrp
  · have hu : u <+: t := (List.prefix_append_right_inj p).mp hle
    cases u with
    | nil => simp
    | cons c u =>
      rcases ht with rfl | ⟨t', rfl⟩
      · exact absurd hu.length_le (by simp)
      · obtain ⟨rfl, -⟩ := List.cons_prefix_cons.mp hu
        exact absurd (by simp) hr

theorem eq_of_append_slash_prefix {r p s t : List Char} (hr : '/' ∉ r) (hp : '/' ∉ p)
    (h : r ++ '/' :: s <+: p ++ t) (ht : t = [] ∨ ∃ t', t = '/' :: t') :
    r = p ∧ '/' :: s <+: t := by
  obtain ⟨u, rfl⟩ := prefix_of_append_prefix hr h ht
  rw [List.append_assoc, List.prefix_append_right_inj] at h
  cases u with
  | nil => exact ⟨by simp, by simpa using h⟩
  | cons c u =>
    obtain ⟨rfl, -⟩ := List.cons_prefix_cons.mp h
    exact absurd (by simp) hp

/-- One canonical path is a prefix of another as a string where it is one as a list of names, or
where the other leads below a sibling with a longer name. -/
theorem below_of_prefix {dir path : List FileName} (hdir : ∀ name ∈ dir, ValidName name)
    (hpath : ∀ name ∈ path, ValidName name) (hne : dir ≠ [])
    (h : dir.flatMap (fun name => '/' :: name) <+: path.flatMap (fun name => '/' :: name)) :
    dir <+: path ∨ BelowLongerSibling dir path := by
  induction dir generalizing path with
  | nil => exact absurd rfl hne
  | cons r dir ih =>
    have hr := (hdir r (by simp)).2.2.2
    cases path with
    | nil => exact absurd h.length_le (by simp)
    | cons p path =>
      have hp := (hpath p (by simp)).2.2.2
      simp only [List.flatMap_cons, List.cons_append, List.cons_prefix_cons, true_and] at h
      by_cases hlast : dir = []
      · subst hlast
        obtain ⟨more, rfl⟩ := prefix_of_append_prefix hr h (flatMap_slash_cases path)
        cases more with
        | nil => exact .inl ⟨path, by simp⟩
        | cons c more => exact .inr ⟨[], r, c :: more, path, by simp, by simp, by simp⟩
      · obtain ⟨q, dir, rfl⟩ := List.exists_cons_of_ne_nil hlast
        obtain ⟨rfl, hrest⟩ := eq_of_append_slash_prefix hr hp h (flatMap_slash_cases path)
        have hbelow := ih (fun name hn => hdir name (by simp [hn]))
          (fun name hn => hpath name (by simp [hn])) (by simp) hrest
        rcases hbelow with hpre | ⟨parent, name, more, below, hmore, hd, hp⟩
        · exact .inl (List.cons_prefix_cons.mpr ⟨rfl, hpre⟩)
        · exact .inr ⟨r :: parent, name, more, below, hmore, by simp [hd], by simp [hp]⟩

theorem absolute_of_ne_nil {path : List FileName} (h : path ≠ []) :
    absolute path = path.flatMap (fun name => '/' :: name) := if_neg h

theorem absolute_prefix_cases {dir path : List FileName} (hdir : ∀ name ∈ dir, ValidName name)
    (hpath : ∀ name ∈ path, ValidName name) (hne : dir ≠ [])
    (h : absolute dir <+: absolute path) : dir <+: path ∨ BelowLongerSibling dir path := by
  by_cases hroot : path = []
  · -- only a name could make the path of `dir` longer than a slash
    subst hroot
    obtain ⟨r, dir, rfl⟩ := List.exists_cons_of_ne_nil hne
    have hr := (hdir r (by simp)).1
    have hpos : 0 < r.length := List.length_pos_iff.mpr hr
    have hlen := h.length_le
    rw [absolute_of_ne_nil hne, List.flatMap_cons, List.length_append, List.length_cons] at hlen
    change r.length + 1 + _ ≤ 1 at hlen
    omega
  · rw [absolute_of_ne_nil hne, absolute_of_ne_nil hroot] at h
    exact below_of_prefix hdir hpath hne h

theorem absolute_of_belowLongerSibling {dir path : List FileName}
    (h : BelowLongerSibling dir path) : ∃ c s, absolute path = absolute dir ++ c :: s ∧
      ∃ name ∈ path, c ∈ name := by
  obtain ⟨parent, name, more, below, hmore, rfl, rfl⟩ := h
  obtain ⟨c, more, rfl⟩ := List.exists_cons_of_ne_nil hmore
  refine ⟨c, more ++ below.flatMap (fun name => '/' :: name), ?_, name ++ c :: more, by simp,
    by simp⟩
  rw [absolute_of_ne_nil (by simp), absolute_of_ne_nil (by simp)]
  simp

theorem flatMap_slash {path : List FileName} (h : path ≠ []) :
    path.flatMap (fun name => '/' :: name) = '/' :: ['/'].intercalate path := by
  induction path with
  | nil => exact absurd rfl h
  | cons name path ih =>
    rw [List.flatMap_cons]
    by_cases hlast : path = []
    · subst hlast
      simp
    · obtain ⟨next, rest, rfl⟩ := List.exists_cons_of_ne_nil hlast
      rw [ih hlast, List.intercalate_cons_cons]
      simp

theorem filter_valid {path : List FileName} (h : ∀ name ∈ path, ValidName name) :
    path.filter (· ≠ []) = path := by
  rw [List.filter_eq_self]
  intro name hmem
  simpa using (h name hmem).1

theorem split_intercalate {path : List FileName} (h : ∀ name ∈ path, ValidName name) :
    ((['/'].intercalate path).splitOn '/').filter (· ≠ []) = path := by
  by_cases hroot : path = []
  · subst hroot
    rfl
  · rw [List.splitOn_intercalate '/' (fun name hmem => (h name hmem).2.2.2) hroot]
    exact filter_valid h

theorem split_absolute {path : List FileName} (h : ∀ name ∈ path, ValidName name) :
    ((absolute path).splitOn '/').filter (· ≠ []) = path := by
  by_cases hroot : path = []
  · subst hroot
    decide
  · have hslash : absolute path = [] ++ '/' :: ['/'].intercalate path := by
      rw [absolute_of_ne_nil hroot, flatMap_slash hroot, List.nil_append]
    rw [hslash, List.splitOn_append_cons_self, List.filter_append, split_intercalate h]
    rfl

theorem absolute_head (path : List FileName) : (absolute path).head? = some '/' := by
  cases path with
  | nil => rfl
  | cons name path => simp [absolute]

theorem absolute_extends (path below : List FileName) :
    absolute path <+: absolute (path ++ below) := by
  by_cases hroot : path = []
  · subst hroot
    obtain ⟨s, hs⟩ : ∃ s, absolute ([] ++ below) = '/' :: s :=
      ⟨_, List.eq_cons_of_mem_head? (absolute_head _)⟩
    rw [hs]
    exact ⟨s, rfl⟩
  · rw [absolute_of_ne_nil hroot, absolute_of_ne_nil (by simp [hroot]), List.flatMap_append]
    exact List.prefix_append _ _

theorem absolute_length_le {path below : List FileName} :
    (absolute path).length ≤ (absolute (path ++ below)).length :=
  (absolute_extends path below).length_le

/-- The names below a path, with slashes between them, and what they add to its string. -/
theorem length_absolute_append (path below : List FileName) :
    (absolute (path ++ below)).length ≤
      (absolute path).length + (['/'].intercalate below).length + 1 := by
  by_cases hbelow : below = []
  · subst hbelow
    rw [List.append_nil]
    omega
  · have hall : path ++ below ≠ [] := by simp [hbelow]
    rw [absolute_of_ne_nil hall, List.flatMap_append, List.length_append, flatMap_slash hbelow,
      List.length_cons]
    by_cases hroot : path = []
    · subst hroot
      rw [List.flatMap_nil, List.length_nil]
      omega
    · rw [absolute_of_ne_nil hroot]
      omega

theorem head_append_absolute (dir : List FileName) (s : List Char) :
    (absolute dir ++ s).head? = some '/' := by
  rw [List.head?_append, absolute_head]
  rfl

namespace FileSystem

variable (fs : FileSystem)

/-- Something other than a symbolic link is at the path; all above it are directories. -/
def Real (path : List FileName) : Prop :=
  fs.entry path = some .directory ∨ fs.entry path = some .file

variable {fs} in
theorem valid_of_entry {path : List FileName} (h : fs.entry path ≠ none) :
    ∀ name ∈ path, ValidName name := by
  induction path using List.reverseRecOn with
  | nil => simp
  | append_singleton path name ih =>
    obtain ⟨hparent, hname⟩ := fs.parent path name h
    intro other hmem
    rcases List.mem_append.mp hmem with hmem | hmem
    · exact ih (by rw [hparent]; simp) other hmem
    · rw [List.mem_singleton.mp hmem]
      exact hname

variable {fs} in
theorem Real.entry_ne_none {path : List FileName} (h : fs.Real path) : fs.entry path ≠ none := by
  rcases h with h | h <;> simp [h]

/-- Follows the names from the directory `cur`; `follow` goes on behind a symbolic link. -/
def walkWith (follow : List FileName → List FileName → Option (List FileName)) :
    List FileName → List FileName → Option (List FileName)
  | cur, [] => some cur
  | cur, name :: rest =>
    if fs.entry cur ≠ some .directory then none
    else if name = [] ∨ name = ['.'] then walkWith follow cur rest
    else if name = ['.', '.'] then walkWith follow cur.dropLast rest
    else
      match fs.entry (cur ++ [name]) with
      | none => none
      | some (.link target) =>
        follow (if target.head? = some '/' then [] else cur) (target.splitOn '/' ++ rest)
      | some _ => walkWith follow (cur ++ [name]) rest

/-- Follows the names through at most `links` symbolic links. -/
def walk : Nat → List FileName → List FileName → Option (List FileName)
  | 0 => fs.walkWith fun _ _ => none
  | links + 1 => fs.walkWith (walk links)

/-- The file that an absolute path names, through at most 40 symbolic links. -/
def resolve (s : List Char) : Option (List FileName) :=
  if s.head? = some '/' then fs.walk 40 [] (s.splitOn '/') else none

/-- What an absolute path names if a symbolic link at its end is not followed. -/
def place (s : List Char) : Option (List FileName) :=
  if s.head? = some '/' then
    let names := s.splitOn '/'
    match names.getLast? with
    | none => none
    | some name =>
      if name = [] ∨ name = ['.'] ∨ name = ['.', '.'] then fs.walk 40 [] names
      else
        (fs.walk 40 [] names.dropLast).bind fun cur =>
          if fs.entry (cur ++ [name]) = none then none else some (cur ++ [name])
  else none

variable {fs}

theorem real_dropLast {path : List FileName} (h : fs.entry path = some .directory) :
    fs.entry path.dropLast = some .directory := by
  induction path using List.reverseRecOn with
  | nil => exact fs.root
  | append_singleton path name ih =>
    rw [List.dropLast_concat]
    exact (fs.parent path name (by simp [h])).1

theorem walkWith_real {follow : List FileName → List FileName → Option (List FileName)}
    (hfollow : ∀ cur rest path, fs.Real cur → follow cur rest = some path → fs.Real path)
    {cur rest path : List FileName} (hcur : fs.Real cur)
    (h : fs.walkWith follow cur rest = some path) : fs.Real path := by
  induction rest generalizing cur with
  | nil =>
    obtain rfl : cur = path := Option.some.inj h
    exact hcur
  | cons name rest ih =>
    unfold walkWith at h
    split_ifs at h with hdir hdot hdots
    · exact ih hcur h
    · exact ih (.inl (real_dropLast (not_not.mp hdir))) h
    · split at h
      · cases h
      · refine hfollow _ _ _ ?_ h
        split_ifs
        · exact .inl fs.root
        · exact hcur
      · rename_i e hlink hentry
        refine ih ?_ h
        cases e with
        | directory => exact .inl hentry
        | file => exact .inr hentry
        | link target => exact absurd rfl (hlink target)

theorem walk_real {links : Nat} {cur rest path : List FileName} (hcur : fs.Real cur)
    (h : fs.walk links cur rest = some path) : fs.Real path := by
  induction links generalizing cur rest path with
  | zero => exact walkWith_real (fun _ _ _ _ h => by cases h) hcur h
  | succ links ih => exact walkWith_real (fun cur rest path hcur h => ih hcur h) hcur h

theorem resolve_real {s : List Char} {path : List FileName} (h : fs.resolve s = some path) :
    fs.Real path := by
  unfold resolve at h
  split_ifs at h
  exact walk_real (.inl fs.root) h

theorem directory_of_append {path : List FileName} (below : List FileName)
    (h : fs.entry (path ++ below) = some .directory) : fs.entry path = some .directory := by
  induction below using List.reverseRecOn with
  | nil => simpa using h
  | append_singleton below name ih =>
    rw [← List.append_assoc] at h
    exact ih (fs.parent (path ++ below) name (by rw [h]; exact Option.some_ne_none _)).1

/-- Names that lead through directories, with empty ones between them, are followed without a
symbolic link. -/
theorem walkWith_directories
    {follow : List FileName → List FileName → Option (List FileName)}
    {cur names : List FileName} (rest : List FileName)
    (h : fs.entry (cur ++ names.filter (· ≠ [])) = some .directory) :
    fs.walkWith follow cur (names ++ rest) =
      fs.walkWith follow (cur ++ names.filter (· ≠ [])) rest := by
  induction names generalizing cur with
  | nil => simp
  | cons name names ih =>
    have hcur := directory_of_append _ h
    rw [List.cons_append, walkWith, if_neg (not_not.mpr hcur)]
    by_cases hempty : name = []
    · subst hempty
      rw [if_pos (.inl rfl)]
      exact ih (by simpa using h)
    · have hfilter : (name :: names).filter (· ≠ []) = name :: names.filter (· ≠ []) := by
        simp [hempty]
      rw [hfilter] at h ⊢
      have hname : fs.entry (cur ++ [name]) = some .directory := by
        apply directory_of_append (names.filter (· ≠ []))
        rw [List.append_assoc]
        exact h
      obtain ⟨-, -, hdot, hdots, -⟩ := fs.parent cur name (by simp [hname])
      have hplain : ¬(name = [] ∨ name = ['.']) := not_or.mpr ⟨hempty, hdot⟩
      rw [if_neg hplain, if_neg hdots, hname]
      have hnext : fs.entry (cur ++ [name] ++ names.filter (· ≠ [])) = some .directory := by
        rw [List.append_assoc]
        exact h
      have hrest := ih hnext
      rw [List.append_assoc] at hrest
      exact hrest

/-- A string of such names, with dots behind them, names the directory. -/
theorem resolve_directories {s : List Char} (names dots : List FileName)
    (habs : s.head? = some '/') (hsplit : s.splitOn '/' = names ++ dots)
    (hdots : ∀ name ∈ dots, name = [] ∨ name = ['.'])
    (h : fs.entry (names.filter (· ≠ [])) = some .directory) :
    fs.resolve s = some (names.filter (· ≠ [])) := by
  have hstay : ∀ dots : List FileName, (∀ name ∈ dots, name = [] ∨ name = ['.']) →
      fs.walkWith (fs.walk 39) (names.filter (· ≠ [])) dots = some (names.filter (· ≠ [])) := by
    intro dots hdots
    induction dots with
    | nil => rfl
    | cons name dots ih =>
      obtain ⟨hname, hrest⟩ := List.forall_mem_cons.mp hdots
      rw [walkWith, if_neg (not_not.mpr h), if_pos hname]
      exact ih hrest
  rw [resolve, if_pos habs, hsplit]
  change fs.walkWith (fs.walk 39) [] (names ++ dots) = _
  rw [walkWith_directories dots h, List.nil_append]
  exact hstay dots hdots

theorem resolve_above {s : List Char} (names : List FileName) (habs : s.head? = some '/')
    (hsplit : s.splitOn '/' = names ++ [['.', '.'], []])
    (h : fs.entry (names.filter (· ≠ [])) = some .directory) :
    fs.resolve s = some (names.filter (· ≠ [])).dropLast := by
  have hdots : ¬(['.', '.'] = [] ∨ ['.', '.'] = ['.']) := by decide
  rw [resolve, if_pos habs, hsplit]
  change fs.walkWith (fs.walk 39) [] (names ++ [['.', '.'], []]) = _
  rw [walkWith_directories _ h, List.nil_append, walkWith, if_neg (not_not.mpr h), if_neg hdots,
    if_pos rfl, walkWith, if_neg (not_not.mpr (real_dropLast h)), if_pos (.inl rfl), walkWith]

/-- A name behind what is followed already, for something other than a symbolic link. -/
theorem walkWith_last {follow : List FileName → List FileName → Option (List FileName)}
    {path : List FileName} {name : FileName} {e : Entry} (he : ∀ target, e ≠ .link target)
    (hentry : fs.entry (path ++ [name]) = some e)
    (hfollow : ∀ cur rest, follow cur rest = some path →
      follow cur (rest ++ [name]) = some (path ++ [name]))
    {cur names : List FileName} (h : fs.walkWith follow cur names = some path) :
    fs.walkWith follow cur (names ++ [name]) = some (path ++ [name]) := by
  obtain ⟨hdir, hne, hdot, hdots, -⟩ := fs.parent path name (by simp [hentry])
  induction names generalizing cur with
  | nil =>
    obtain rfl : cur = path := Option.some.inj h
    rw [List.nil_append, walkWith, if_neg (not_not.mpr hdir), if_neg (not_or.mpr ⟨hne, hdot⟩),
      if_neg hdots, hentry]
    cases e with
    | directory => rfl
    | file => rfl
    | link target => exact absurd rfl (he target)
  | cons next names ih =>
    rw [List.cons_append]
    unfold walkWith at h ⊢
    split_ifs at h ⊢ with hcur hstay hup
    · exact ih h
    · exact ih h
    · split at h
      · cases h
      · rename_i target hlink
        rw [← List.append_assoc]
        exact hfollow _ _ h
      · exact ih h

theorem walk_last {links : Nat} {path : List FileName} {name : FileName} {e : Entry}
    (he : ∀ target, e ≠ .link target) (hentry : fs.entry (path ++ [name]) = some e)
    {cur names : List FileName} (h : fs.walk links cur names = some path) :
    fs.walk links cur (names ++ [name]) = some (path ++ [name]) := by
  induction links generalizing cur names with
  | zero => exact walkWith_last he hentry (fun _ _ h => by cases h) h
  | succ links ih => exact walkWith_last he hentry (fun _ _ h => ih h) h

/-- Where no symbolic link is at the end, following one makes no difference. -/
theorem resolve_of_place {s : List Char} {path : List FileName} {e : Entry}
    (he : ∀ target, e ≠ .link target) (hentry : fs.entry path = some e)
    (h : fs.place s = some path) : fs.resolve s = some path := by
  unfold place at h
  unfold resolve
  split_ifs at h ⊢
  dsimp only at h
  split at h
  · cases h
  · rename_i name hlast
    split_ifs at h
    · exact h
    · obtain ⟨cur, hwalk, hend⟩ := Option.bind_eq_some_iff.mp h
      split_ifs at hend
      obtain rfl := Option.some.inj hend
      have hnames : (s.splitOn '/').dropLast ++ [name] = s.splitOn '/' :=
        List.dropLast_append_getLast? name hlast
      rw [← hnames]
      exact walk_last he hentry hwalk

theorem place_entry {s : List Char} {path : List FileName} (h : fs.place s = some path) :
    fs.entry path ≠ none := by
  unfold place at h
  split_ifs at h
  dsimp only at h
  split at h
  · cases h
  · split_ifs at h
    · exact (walk_real (.inl fs.root) h).entry_ne_none
    · obtain ⟨cur, -, hend⟩ := Option.bind_eq_some_iff.mp h
      split_ifs at hend with hnone
      obtain rfl := Option.some.inj hend
      exact hnone

/-- A name in a directory is there, whether or not it is a symbolic link. -/
theorem place_append {dir : List Char} {path : List FileName} {name : FileName}
    (habs : (dir ++ '/' :: name).head? = some '/')
    (hsplit : (dir.splitOn '/').filter (· ≠ []) = path)
    (hentry : fs.entry (path ++ [name]) ≠ none) :
    fs.place (dir ++ '/' :: name) = some (path ++ [name]) := by
  obtain ⟨hdir, hne, hdot, hdots, hslash⟩ := fs.parent path name hentry
  have hnames : (dir ++ '/' :: name).splitOn '/' = dir.splitOn '/' ++ [name] := by
    rw [List.splitOn_append_cons_self, List.splitOn_eq_singleton hslash]
  have hwalk : fs.walk 40 [] (dir.splitOn '/') = some path := by
    have hnames : fs.entry ([] ++ (dir.splitOn '/').filter (· ≠ [])) = some .directory := by
      rw [hsplit]
      exact hdir
    have hfollow : fs.walk 40 [] (dir.splitOn '/' ++ []) = _ := walkWith_directories [] hnames
    rwa [List.append_nil, hsplit] at hfollow
  have hplain : ¬(name = [] ∨ name = ['.'] ∨ name = ['.', '.']) := by
    rintro (h | h | h)
    · exact hne h
    · exact hdot h
    · exact hdots h
  rw [place, if_pos habs]
  simp only [hnames, List.getLast?_concat, List.dropLast_concat, if_neg hplain, hwalk,
    Option.bind_some, if_neg hentry]

theorem place_child {path : List FileName} {name : FileName}
    (hentry : fs.entry (path ++ [name]) ≠ none) :
    fs.place (absolute path ++ '/' :: name) = some (path ++ [name]) := by
  have hvalid : ∀ part ∈ path, ValidName part := fun part hpart =>
    valid_of_entry hentry part (List.mem_append_left _ hpart)
  exact place_append (head_append_absolute path _) (split_absolute hvalid) hentry

theorem place_absolute {path : List FileName} (hentry : fs.entry path ≠ none) :
    fs.place (absolute path) = some path := by
  induction path using List.reverseRecOn with
  | nil =>
    have hfollow : fs.walk 40 [] ([[], []] ++ []) = _ := walkWith_directories [] fs.root
    exact hfollow
  | append_singleton path name _ =>
    by_cases hroot : path = []
    · subst hroot
      have hone : absolute ([] ++ [name]) = [] ++ '/' :: name := by
        rw [absolute_of_ne_nil (by simp)]
        simp
      rw [hone]
      exact place_append rfl rfl hentry
    · have hlast : absolute (path ++ [name]) = absolute path ++ '/' :: name := by
        rw [absolute_of_ne_nil (by simp), absolute_of_ne_nil hroot]
        simp
      rw [hlast]
      exact place_child hentry

end FileSystem

end Osisp.Lib
