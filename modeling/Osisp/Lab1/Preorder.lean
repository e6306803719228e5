import Osisp.Lab1.Dirwalk

namespace Osisp.Lab1

/-- The entries that a walk with so many descriptors comes to: it does not go below a path that is
too long, nor into a directory that cannot be opened. -/
def Forest.visits : Forest → Nat → Text → List Found
  | _, 0, _ => []
  | .nil, _ + 1, _ => []
  | .leaf name type rest, dirs + 1, path =>
    ⟨joined path name, type⟩ :: rest.visits (dirs + 1) path
  | .dir name entries rest, dirs + 1, path =>
    ⟨joined path name, .directory⟩ ::
      ((if (joined path name).length < pathMax then entries.visits dirs (joined path name)
        else []) ++ rest.visits (dirs + 1) path)

/-- The entry is stored if there is room. -/
def wanted (flags : Flags) (e : Found) : Bool :=
  flags.matchType e.type && decide (e.path.length < pathMax)

/-- What an entry adds to the files. -/
def Files.visit (flags : Flags) (st : Files) (e : Found) : Files :=
  if st.stored.length < maxFiles ∧ wanted flags e = true then st.store e.path e.path else st

/-- What a list of entries adds to the files. -/
def collect (flags : Flags) (es : List Found) (st : Files) : Files :=
  es.foldl (Files.visit flags) st

/-- Nothing comes of a path that has been cut off: there is nothing, or it is of no type that is
asked for. -/
def Harmless (calls : Calls) (flags : Flags) (fullpath : Text) : Prop :=
  ∀ type, calls.lstat fullpath = some type → flags.matchType type = false

/-- Of the entries that the walk comes to while there is room, those whose paths are too long are
harmless. -/
def Safe (calls : Calls) (flags : Flags) : List Found → Files → Prop
  | [], _ => True
  | e :: es, st =>
    (st.stored.length < maxFiles → pathMax ≤ e.path.length → Harmless calls flags (cut e.path)) ∧
      Safe calls flags es (st.visit flags e)

section Visits

variable {calls : Calls} {flags : Flags}

theorem visit_full {st : Files} (h : maxFiles ≤ st.stored.length) (e : Found) :
    st.visit flags e = st := if_neg fun hroom => absurd hroom.1 (Nat.not_lt.mpr h)

theorem visit_long {e : Found} (h : pathMax ≤ e.path.length) (st : Files) :
    st.visit flags e = st := by
  refine if_neg fun hroom => ?_
  have hshort := hroom.2
  simp only [wanted, Bool.and_eq_true, decide_eq_true_eq] at hshort
  exact absurd hshort.2 (Nat.not_lt.mpr h)

theorem collect_append (es fs : List Found) (st : Files) :
    collect flags (es ++ fs) st = collect flags fs (collect flags es st) := List.foldl_append

theorem collect_full {st : Files} (h : maxFiles ≤ st.stored.length) (es : List Found) :
    collect flags es st = st := by
  induction es with
  | nil => rfl
  | cons e es ih => exact (congrArg (collect flags es) (visit_full h e)).trans ih

theorem safe_append (es fs : List Found) (st : Files) :
    Safe calls flags (es ++ fs) st ↔
      Safe calls flags es st ∧ Safe calls flags fs (collect flags es st) := by
  induction es generalizing st with
  | nil => exact (iff_of_eq (true_and _)).symm
  | cons e es ih =>
    rw [List.cons_append, Safe, Safe, ih, and_assoc]
    rfl

theorem safe_short {es : List Found} (h : ∀ e ∈ es, e.path.length < pathMax) (st : Files) :
    Safe calls flags es st := by
  induction es generalizing st with
  | nil => trivial
  | cons e es ih =>
    refine ⟨fun _ hlong => absurd (h e List.mem_cons_self) (Nat.not_lt.mpr hlong), ?_⟩
    exact ih (fun f hf => h f (List.mem_cons_of_mem _ hf)) _

/-- The files that are stored in the end. -/
theorem collect_stored (es : List Found) (st : Files) :
    (collect flags es st).stored =
      st.stored ++ ((es.filter (wanted flags)).map fun e => ⟨e.path, e.path⟩).take
        (maxFiles - st.stored.length) := by
  induction es generalizing st with
  | nil => simp [collect]
  | cons e es ih =>
    have hnext : collect flags (e :: es) st = collect flags es (st.visit flags e) := rfl
    rw [hnext, ih, List.filter_cons]
    by_cases hroom : st.stored.length < maxFiles
    · by_cases hwanted : wanted flags e = true
      · have hvisit : st.visit flags e = st.store e.path e.path := if_pos ⟨hroom, hwanted⟩
        have hleft : maxFiles - st.stored.length = maxFiles - (st.stored.length + 1) + 1 := by
          omega
        rw [hvisit, if_pos hwanted, List.map_cons, hleft, List.take_succ_cons]
        change st.stored ++ [_] ++ List.take (maxFiles - (st.stored ++ [_]).length) _ = _
        rw [List.append_assoc, List.length_append]
        rfl
      · have hvisit : st.visit flags e = st := if_neg fun h => hwanted h.2
        rw [hvisit, if_neg hwanted]
    · have hfull := Nat.not_lt.mp hroom
      rw [visit_full hfull, Nat.sub_eq_zero_of_le hfull, List.take_zero, List.take_zero]

end Visits

section Loop

variable {calls : Calls} {flags : Flags} {walk : Text → Files → Files} {path name : Text}
variable {st : Files}

theorem readLoop_full (h : maxFiles ≤ st.stored.length) (names : List Text) :
    readLoop calls flags walk path names st = (true, st) := by
  cases names with
  | nil => rfl
  | cons name names => exact if_pos h

theorem readLoop_cons (h : st.stored.length < maxFiles) (names : List Text) :
    readLoop calls flags walk path (name :: names) st =
      match visitName calls flags walk path name st with
      | (false, st) => (false, st)
      | (true, st) => readLoop calls flags walk path names st :=
  if_neg (Nat.not_le.mpr h)

theorem cut_short {path : Text} (h : path.length < pathMax) : cut path = path := by
  apply List.take_of_length_le
  omega

theorem cut_long {path : Text} (h : pathMax ≤ path.length) : (cut path).length = pathMax - 1 := by
  rw [cut, List.length_take]
  omega

theorem length_cut_lt (path : Text) : (cut path).length < pathMax := by
  have hpos : 0 < pathMax := by decide
  rw [cut, List.length_take]
  omega

theorem cut_joined {fullpath : Text} (hlen : fullpath.length = pathMax - 1) (name : Text) :
    cut (joined fullpath name) = fullpath := by
  rw [joined, cut]
  split_ifs
  · rw [← hlen, List.take_left]
  · rw [← hlen, List.take_left]

/-- The body of the loop for a name that is not passed over: the path always fits after it has been
cut off. -/
theorem visitName_plain (hdot : isDot name = false) :
    visitName calls flags walk path name st =
      match calls.lstat (cut (joined path name)) with
      | none => (true, st)
      | some type =>
        if flags.matchType type && !calls.strdup st.strdups then (false, st.fail)
        else
          let st := if flags.matchType type then
            st.store (joined path name) (cut (joined path name)) else st
          (true, if type = .directory then walk (cut (joined path name)) st else st) := by
  have hlen := length_cut_lt (joined path name)
  rw [visitName, if_neg (by rw [hdot]; exact Bool.false_ne_true)]
  exact if_neg (Nat.not_le.mpr hlen)

/-- Where `strdup` succeeds the loop is not left. -/
theorem visitName_eq (hdot : isDot name = false) (hstrdup : ∀ k, calls.strdup k = true) :
    visitName calls flags walk path name st =
      match calls.lstat (cut (joined path name)) with
      | none => (true, st)
      | some type =>
        let st := if flags.matchType type then st.store (joined path name) (cut (joined path name))
          else st
        (true, if type = .directory then walk (cut (joined path name)) st else st) := by
  rw [visitName_plain hdot]
  cases calls.lstat (cut (joined path name)) with
  | none => rfl
  | some type =>
    dsimp only
    rw [hstrdup, Bool.not_true, Bool.and_false, if_neg Bool.false_ne_true]

theorem visitName_goesOn (hstrdup : ∀ k, calls.strdup k = true) :
    (visitName calls flags walk path name st).1 = true := by
  cases hdot : isDot name with
  | true => rw [visitName, if_pos hdot]
  | false =>
    rw [visitName_eq hdot hstrdup]
    cases calls.lstat (cut (joined path name)) with
    | none => rfl
    | some type => rfl

theorem readLoop_next (hstrdup : ∀ k, calls.strdup k = true) (h : st.stored.length < maxFiles)
    (names : List Text) :
    readLoop calls flags walk path (name :: names) st =
      readLoop calls flags walk path names (visitName calls flags walk path name st).2 := by
  have hgoes : (visitName calls flags walk path name st).1 = true := visitName_goesOn hstrdup
  rw [readLoop_cons h]
  cases hvisit : visitName calls flags walk path name st with
  | mk goesOn u =>
    rw [hvisit] at hgoes
    obtain rfl : goesOn = true := hgoes
    rfl

theorem readLoop_ended (hstrdup : ∀ k, calls.strdup k = true) (names : List Text) :
    (readLoop calls flags walk path names st).1 = true := by
  induction names generalizing st with
  | nil => rfl
  | cons name names ih =>
    by_cases hroom : st.stored.length < maxFiles
    · rw [readLoop_next hstrdup hroom]
      exact ih
    · rw [readLoop_full (Nat.not_lt.mp hroom)]

theorem visitName_invisible (h : visible calls path name = false) :
    visitName calls flags walk path name st = (true, st) := by
  rw [visible, Bool.and_eq_false_iff] at h
  rw [visitName]
  rcases h with hdot | hnone
  · rw [if_pos (by simpa using hdot)]
  · obtain ⟨hshort, hlstat⟩ := Bool.or_eq_false_iff.mp hnone
    have hlen : (joined path name).length < pathMax := by simpa using hshort
    have hfail : calls.lstat (joined path name) = none := by simpa using hlstat
    dsimp only
    rw [cut_short hlen, hfail]
    split_ifs <;> rfl

theorem readLoop_invisible {before : List Text} (h : ∀ n ∈ before, visible calls path n = false)
    (names : List Text) :
    readLoop calls flags walk path (before ++ names) st =
      readLoop calls flags walk path names st := by
  induction before with
  | nil => rfl
  | cons n before ih =>
    by_cases hroom : st.stored.length < maxFiles
    · rw [List.cons_append, readLoop_cons hroom, visitName_invisible (h n List.mem_cons_self)]
      exact ih fun m hm => h m (List.mem_cons_of_mem _ hm)
    · rw [readLoop_full (Nat.not_lt.mp hroom), readLoop_full (Nat.not_lt.mp hroom)]

theorem visitName_leaf (hdot : isDot name = false) (hstrdup : ∀ k, calls.strdup k = true)
    (hroom : st.stored.length < maxFiles) (hshort : (joined path name).length < pathMax)
    {type : FileType} (htype : type ≠ .directory)
    (hlstat : calls.lstat (joined path name) = some type) :
    (visitName calls flags walk path name st).2 = st.visit flags ⟨joined path name, type⟩ := by
  rw [visitName_eq hdot hstrdup, cut_short hshort, hlstat]
  dsimp only
  rw [if_neg htype, Files.visit]
  simp [wanted, hroom, hshort]

theorem visitName_dir (hdot : isDot name = false) (hstrdup : ∀ k, calls.strdup k = true)
    (hroom : st.stored.length < maxFiles) (hshort : (joined path name).length < pathMax)
    (hlstat : calls.lstat (joined path name) = some .directory) :
    (visitName calls flags walk path name st).2 =
      walk (joined path name) (st.visit flags ⟨joined path name, .directory⟩) := by
  rw [visitName_eq hdot hstrdup, cut_short hshort, hlstat]
  dsimp only
  rw [if_pos rfl, Files.visit]
  simp [wanted, hroom, hshort]

theorem dirwalk_succ (calls : Calls) (flags : Flags) (dirs : Nat) (path : Text) (st : Files) :
    (dirwalk calls flags (dirs + 1) path st).2 =
      (readLoop calls flags (walkBelow calls flags dirs) path (listing calls path) st).2 := by
  rw [dirwalk, listing]
  cases calls.opendir path with
  | none => rfl
  | some names => rfl

/-- A directory whose path just fits and whose type is not asked for: every entry leads to the
directory itself, until no descriptor is left. -/
theorem dirwalk_cut (hstrdup : ∀ k, calls.strdup k = true) {fullpath : Text}
    (hlen : fullpath.length = pathMax - 1) (hlstat : calls.lstat fullpath = some .directory)
    (hmatch : flags.matchType .directory = false) (dirs : Nat) :
    (dirwalk calls flags dirs fullpath st).2 = st := by
  induction dirs with
  | zero => rfl
  | succ dirs ih =>
    have hbody : ∀ name, (visitName calls flags (walkBelow calls flags dirs) fullpath name st).2 =
        st := by
      intro name
      cases hdot : isDot name with
      | true => rw [visitName, if_pos hdot]
      | false =>
        rw [visitName_eq hdot hstrdup, cut_joined hlen, hlstat]
        dsimp only
        rw [hmatch, if_neg Bool.false_ne_true, if_pos rfl]
        exact ih
    rw [dirwalk_succ]
    induction listing calls fullpath with
    | nil => rfl
    | cons name names ihnames =>
      by_cases hroom : st.stored.length < maxFiles
      · rw [readLoop_next hstrdup hroom, hbody]
        exact ihnames
      · rw [readLoop_full (Nat.not_lt.mp hroom)]

/-- The body of the loop for an entry whose path is too long and harmless. -/
theorem visitName_harmless {dirs : Nat} (hdot : isDot name = false)
    (hstrdup : ∀ k, calls.strdup k = true) (hlong : pathMax ≤ (joined path name).length)
    (h : Harmless calls flags (cut (joined path name))) :
    (visitName calls flags (walkBelow calls flags dirs) path name st).2 = st := by
  rw [visitName_eq hdot hstrdup]
  cases hlstat : calls.lstat (cut (joined path name)) with
  | none => rfl
  | some type =>
    have hmatch := h type hlstat
    dsimp only
    rw [hmatch, if_neg Bool.false_ne_true]
    split_ifs with htype
    · subst htype
      exact dirwalk_cut hstrdup (cut_long hlong) hlstat hmatch dirs
    · rfl

/-- The body of the loop for an entry that is no directory, if nothing comes of its path being
cut off. -/
theorem visitName_leaf_safe {dirs : Nat} (hdot : isDot name = false)
    (hstrdup : ∀ k, calls.strdup k = true) (hroom : st.stored.length < maxFiles) {type : LeafType}
    (hlstat : (joined path name).length < pathMax →
      calls.lstat (joined path name) = some type.val)
    (hharm : pathMax ≤ (joined path name).length →
      Harmless calls flags (cut (joined path name))) :
    (visitName calls flags (walkBelow calls flags dirs) path name st).2 =
      st.visit flags ⟨joined path name, type⟩ := by
  by_cases hshort : (joined path name).length < pathMax
  · exact visitName_leaf hdot hstrdup hroom hshort type.property (hlstat hshort)
  · have hlong := Nat.not_lt.mp hshort
    rw [visit_long hlong]
    exact visitName_harmless hdot hstrdup hlong (hharm hlong)

end Loop

section Walk

variable {calls : Calls} {flags : Flags}

theorem split_names {path : Text} {names : List Text} {name : Text} {rest : List Text}
    (h : names.filter (visible calls path) = name :: rest) :
    ∃ before behind, names = before ++ name :: behind ∧
      (∀ n ∈ before, visible calls path n = false) ∧ isDot name = false ∧
      behind.filter (visible calls path) = rest := by
  obtain ⟨before, behind, hnames, hbefore, hname, hrest⟩ := List.filter_eq_cons_iff.mp h
  refine ⟨before, behind, hnames, fun n hn => by simpa using hbefore n hn, ?_, hrest⟩
  rw [visible, Bool.and_eq_true] at hname
  simpa using hname.1

/-- The walk stores the entries in preorder, as long as nothing comes of the paths that are cut
off. -/
theorem readLoop_collect (hstrdup : ∀ k, calls.strdup k = true) {forest : Forest} {path : Text}
    {names : List Text} {dirs : Nat} {st : Files}
    (hnames : names.filter (visible calls path) = forest.names)
    (hshown : forest.Shown calls path)
    (hsafe : Safe calls flags (forest.visits (dirs + 1) path) st) :
    (readLoop calls flags (walkBelow calls flags dirs) path names st).2 =
      collect flags (forest.visits (dirs + 1) path) st := by
  induction forest generalizing path names dirs st with
  | nil =>
    have hinvisible : ∀ n ∈ names, visible calls path n = false := fun n hn => by
      simpa using List.filter_eq_nil_iff.mp hnames n hn
    have hnone : readLoop calls flags (walkBelow calls flags dirs) path (names ++ []) st =
        (true, st) := readLoop_invisible hinvisible []
    rw [List.append_nil] at hnone
    rw [hnone]
    rfl
  | leaf name type rest ih =>
    obtain ⟨before, behind, rfl, hbefore, hdot, hrest⟩ := split_names hnames
    rw [readLoop_invisible hbefore]
    by_cases hroom : st.stored.length < maxFiles
    · obtain ⟨hfirst, hnext⟩ := hsafe
      rw [readLoop_next hstrdup hroom,
        visitName_leaf_safe hdot hstrdup hroom hshown.1 (hfirst hroom)]
      exact ih hrest hshown.2 hnext
    · rw [readLoop_full (Nat.not_lt.mp hroom), collect_full (Nat.not_lt.mp hroom)]
  | dir name entries rest ihentries ihrest =>
    obtain ⟨before, behind, rfl, hbefore, hdot, hrest⟩ := split_names hnames
    rw [readLoop_invisible hbefore]
    by_cases hroom : st.stored.length < maxFiles
    · rw [readLoop_next hstrdup hroom]
      obtain ⟨hfirst, hnext⟩ := hsafe
      obtain ⟨hbelow, hafter⟩ := (safe_append _ _ _).mp hnext
      have hcollect : collect flags ((Forest.dir name entries rest).visits (dirs + 1) path) st =
          collect flags (rest.visits (dirs + 1) path) (collect flags
            (if (joined path name).length < pathMax then entries.visits dirs (joined path name)
              else [])
            (st.visit flags ⟨joined path name, .directory⟩)) := collect_append _ _ _
      rw [hcollect]
      by_cases hshort : (joined path name).length < pathMax
      · obtain ⟨hlstat, hlisting, hentries⟩ := hshown.1 hshort
        rw [if_pos hshort] at hbelow hafter ⊢
        have hwalk : walkBelow calls flags dirs (joined path name)
            (st.visit flags ⟨joined path name, .directory⟩) =
              collect flags (entries.visits dirs (joined path name))
                (st.visit flags ⟨joined path name, .directory⟩) := by
          cases dirs with
          | zero =>
            rw [Forest.visits]
            rfl
          | succ dirs =>
            rw [walkBelow, dirwalk_succ]
            exact ihentries hlisting hentries hbelow
        rw [visitName_dir hdot hstrdup hroom hshort hlstat, hwalk]
        exact ihrest hrest hshown.2 hafter
      · have hlong := Nat.not_lt.mp hshort
        rw [if_neg hshort] at hafter ⊢
        have hvisit : st.visit flags ⟨joined path name, .directory⟩ = st := visit_long hlong st
        rw [hvisit] at hafter ⊢
        rw [visitName_harmless hdot hstrdup hlong (hfirst hroom hlong)]
        exact ihrest hrest hshown.2 hafter
    · rw [readLoop_full (Nat.not_lt.mp hroom), collect_full (Nat.not_lt.mp hroom)]

theorem visits_zero (forest : Forest) (path : Text) : forest.visits 0 path = [] := by
  cases forest <;> rfl

theorem dirwalk_collect (hstrdup : ∀ k, calls.strdup k = true) {forest : Forest} {path : Text}
    (hshows : Shows calls path forest) {dirs : Nat} {st : Files}
    (hsafe : Safe calls flags (forest.visits dirs path) st) :
    (dirwalk calls flags dirs path st).2 = collect flags (forest.visits dirs path) st := by
  cases dirs with
  | zero =>
    rw [visits_zero]
    rfl
  | succ dirs =>
    rw [dirwalk_succ]
    exact readLoop_collect hstrdup hshows.names hshows.entries hsafe

end Walk

section Invariant

variable {calls : Calls} {flags : Flags} {Inv : Files → Prop}

/-- What both assignments to `files` keep while there is room. -/
structure Kept (Inv : Files → Prop) : Prop where
  store : ∀ st entry path, st.stored.length < maxFiles → Inv st → Inv (st.store entry path)
  fail : ∀ st, st.stored.length < maxFiles → Inv st → Inv st.fail

theorem visitName_kept (hkept : Kept Inv) {walk : Text → Files → Files}
    (hwalk : ∀ path st, Inv st → Inv (walk path st)) (path name : Text) {st : Files}
    (hroom : st.stored.length < maxFiles) (hst : Inv st) :
    Inv (visitName calls flags walk path name st).2 := by
  cases hdot : isDot name with
  | true =>
    rw [visitName, if_pos hdot]
    exact hst
  | false =>
    rw [visitName_plain hdot]
    cases calls.lstat (cut (joined path name)) with
    | none => exact hst
    | some type =>
      have hstored : Inv (if flags.matchType type then
          st.store (joined path name) (cut (joined path name)) else st) := by
        split_ifs
        · exact hkept.store st _ _ hroom hst
        · exact hst
      dsimp only
      by_cases hfail : (flags.matchType type && !calls.strdup st.strdups) = true
      · rw [if_pos hfail]
        exact hkept.fail st hroom hst
      · rw [if_neg hfail]
        by_cases hdir : type = .directory
        · rw [if_pos hdir]
          exact hwalk _ _ hstored
        · rw [if_neg hdir]
          exact hstored

theorem readLoop_kept (hkept : Kept Inv) {walk : Text → Files → Files}
    (hwalk : ∀ path st, Inv st → Inv (walk path st)) (path : Text) (names : List Text) {st : Files}
    (hst : Inv st) : Inv (readLoop calls flags walk path names st).2 := by
  induction names generalizing st with
  | nil => exact hst
  | cons name names ih =>
    by_cases hroom : st.stored.length < maxFiles
    · have hkeeps : Inv (visitName calls flags walk path name st).2 :=
        visitName_kept hkept hwalk path name hroom hst
      rw [readLoop_cons hroom]
      cases hvisit : visitName calls flags walk path name st with
      | mk goesOn u =>
        rw [hvisit] at hkeeps
        cases goesOn with
        | false => exact hkeeps
        | true => exact ih hkeeps
    · rw [readLoop_full (Nat.not_lt.mp hroom)]
      exact hst

theorem dirwalk_kept (hkept : Kept Inv) (dirs : Nat) (path : Text) {st : Files} (hst : Inv st) :
    Inv (dirwalk calls flags dirs path st).2 := by
  induction dirs generalizing path st with
  | zero => exact hst
  | succ dirs ih =>
    rw [dirwalk_succ]
    exact readLoop_kept hkept (fun path _ hst => ih path hst) path _ hst

theorem dirwalk_writes (calls : Calls) (flags : Flags) (dirs : Nat) (path : Text) :
    ∀ i ∈ (dirwalk calls flags dirs path .empty).2.writes, i < maxFiles := by
  have hkept : Kept fun st => ∀ i ∈ st.writes, i < maxFiles := by
    have hnext : ∀ st : Files, st.stored.length < maxFiles → (∀ i ∈ st.writes, i < maxFiles) →
        ∀ i ∈ st.writes ++ [st.stored.length], i < maxFiles := by
      intro st hroom hst i hi
      rcases List.mem_append.mp hi with hi | hi
      · exact hst i hi
      · rw [List.mem_singleton.mp hi]
        exact hroom
    exact ⟨fun st _ _ => hnext st, hnext⟩
  exact dirwalk_kept hkept dirs path fun i hi => by cases hi

end Invariant

/-- With a descriptor for each directory on the way down, the walk comes to all entries. -/
theorem visits_eq_preorder {forest : Forest} {path : Text} {dirs : Nat}
    (hdirs : forest.depth < dirs) (h : ∀ e ∈ forest.preorder path, e.path.length < pathMax) :
    forest.visits dirs path = forest.preorder path := by
  induction forest generalizing path dirs with
  | nil => cases dirs <;> rfl
  | leaf name type rest ih =>
    obtain ⟨dirs, rfl⟩ : ∃ d, dirs = d + 1 := ⟨dirs - 1, by omega⟩
    rw [Forest.visits, Forest.preorder, ih hdirs fun e he => h e (List.mem_cons_of_mem _ he)]
  | dir name entries rest ihentries ihrest =>
    obtain ⟨hinner, hrestDepth⟩ := Nat.max_lt.mp hdirs
    obtain ⟨dirs, rfl⟩ : ∃ d, dirs = d + 1 := ⟨dirs - 1, by omega⟩
    have hshort : (joined path name).length < pathMax := h _ List.mem_cons_self
    have hbelow := ihentries (Nat.lt_of_succ_lt_succ hinner) fun e he =>
      h e (List.mem_cons_of_mem _ (List.mem_append_left _ he))
    have hrest := ihrest hrestDepth fun e he =>
      h e (List.mem_cons_of_mem _ (List.mem_append_right _ he))
    rw [Forest.visits, Forest.preorder, if_pos hshort, hbelow, hrest]

theorem collect_paths {flags : Flags} {forest : Forest} {path : Text}
    (hshort : ∀ e ∈ forest.preorder path, e.path.length < pathMax) :
    (collect flags (forest.preorder path) .empty).paths =
      (((forest.preorder path).filter fun e => flags.matchType e.type).map Found.path).take
        maxFiles := by
  have hwanted : (forest.preorder path).filter (wanted flags) =
      (forest.preorder path).filter fun e => flags.matchType e.type := by
    apply List.filter_congr
    intro e he
    rw [wanted, decide_eq_true (hshort e he), Bool.and_true]
  rw [Files.paths, collect_stored, hwanted, List.map_append, List.map_take, List.map_map]
  rfl

/-- Where no path is too long, `dirwalk` stores the selected entries in preorder, up to the size of
the array, each once and inside the array. -/
theorem dirwalk_preorder {calls : Calls} {flags : Flags} (hstrdup : ∀ k, calls.strdup k = true)
    {forest : Forest} (hvalid : forest.Valid) {path : Text} (hshows : Shows calls path forest)
    (hshort : ∀ e ∈ forest.preorder path, e.path.length < pathMax) :
    ∃ st, (∀ dirs, forest.depth < dirs → (dirwalk calls flags dirs path .empty).2 = st) ∧
      st.paths = (((forest.preorder path).filter fun e => flags.matchType e.type).map
        Found.path).take maxFiles ∧
      st.paths.Nodup ∧ ∀ i ∈ st.writes, i < maxFiles := by
  have hwalk : ∀ dirs, forest.depth < dirs → (dirwalk calls flags dirs path .empty).2 =
      collect flags (forest.preorder path) .empty := by
    intro dirs hdirs
    have hvisits := visits_eq_preorder hdirs hshort
    have hsafe : Safe calls flags (forest.visits dirs path) .empty := by
      rw [hvisits]
      exact safe_short hshort .empty
    rw [dirwalk_collect hstrdup hshows hsafe, hvisits]
  refine ⟨_, hwalk, collect_paths hshort, ?_, ?_⟩
  · rw [collect_paths hshort]
    have hsub : (((forest.preorder path).filter fun e => flags.matchType e.type).map
        Found.path).Sublist ((forest.preorder path).map Found.path) := List.filter_sublist.map _
    exact (Forest.preorder_nodup hvalid path).sublist ((List.take_sublist _ _).trans hsub)
  · rw [← hwalk _ (Nat.lt_succ_self _)]
    exact dirwalk_writes calls flags _ path

def regularFile : LeafType := ⟨.regular, by decide⟩

/-- A directory with a regular file `a` and a directory `b` with a link `c`. -/
def sampleForest : Forest :=
  .leaf ['a'] regularFile (.dir ['b'] (.leaf ['c'] ⟨.link, by decide⟩ .nil) .nil)

def sampleCalls : Calls where
  opendir path :=
    if path = ['d'] then some [['a'], ['.', '.'], ['b'], ['.']]
    else if path = ['d', '/', 'b'] then some [['.'], ['.', '.'], ['c']]
    else none
  lstat path :=
    if path = ['d', '/', 'a'] then some .regular
    else if path = ['d', '/', 'b'] then some .directory
    else if path = ['d', '/', 'b', '/', 'c'] then some .link
    else none
  strdup _ := true

theorem sampleCalls_shows : Shows sampleCalls ['d'] sampleForest := by
  refine ⟨by decide, fun _ => by decide,
    fun _ => ⟨by decide, by decide, fun _ => by decide, ?_⟩, ?_⟩
  · trivial
  · trivial

theorem dirwalk_preorder_sample :
    ∃ st, (dirwalk sampleCalls ⟨true, true, false⟩ 2 ['d'] .empty).2 = st ∧
      st.paths = [['d', '/', 'b'], ['d', '/', 'b', '/', 'c']] := by
  have hvalid : sampleForest.Valid := by
    simp [sampleForest, Forest.Valid, Forest.names]
  have hshort : ∀ e ∈ sampleForest.preorder ['d'], e.path.length < pathMax := by
    simp [sampleForest, Forest.preorder, joined, pathMax]
  obtain ⟨st, hwalk, hpaths, -⟩ :=
    dirwalk_preorder (fun _ => rfl) hvalid sampleCalls_shows hshort
  exact ⟨st, hwalk 2 (by decide), hpaths.trans (by decide)⟩

end Osisp.Lab1
