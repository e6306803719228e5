import Osisp.Lab8.Framing
import Osisp.Lab8.ReadLine

namespace Osisp.Lab8

open Osisp.Lib Osisp.Lib.Stdio

/-- The limits of the system: for the paths of `realpath`, for names and for link targets. -/
structure Env.WithinLimits (env : Env) : Prop where
  path_lt : ∀ path real, env.realpath path = some real → real.length < pathMax
  name_le : ∀ dir names, env.readdir dir = some names →
    ∀ name ∈ names, name.length ≤ nameMax ∧ nul ∉ name
  target_lt : ∀ path target, env.readlink path = some target →
    target.length < pathMax ∧ nul ∉ target

/-- The line that `handle_list` composes for a link `name` in the directory at `path`. -/
inductive ShowsLink (env : Env) (root cwd path : List Char) (name : FileName) :
    List Char → Prop where
  | target {target resolved : List Char}
      (link : env.lstat (path ++ '/' :: name) = some .link)
      (read : env.readlink (path ++ '/' :: name) = some target)
      (built : buildPath env.realpath root cwd target = some resolved)
      (last : env.lstat resolved ≠ some .link) :
      ShowsLink env root cwd path name (name ++ " --> ".toList ++ target)
  | second {target resolved target' : List Char}
      (link : env.lstat (path ++ '/' :: name) = some .link)
      (read : env.readlink (path ++ '/' :: name) = some target)
      (built : buildPath env.realpath root cwd target = some resolved)
      (again : env.lstat resolved = some .link)
      (read' : env.readlink resolved = some target') :
      ShowsLink env root cwd path name (name ++ " -->> ".toList ++ target')

/-- A line of what `LIST` shows of a link, whose name or target may hold newlines. -/
def ListsLink (env : Env) (root cwd l : List Char) : Prop :=
  ∃ path names name line, buildPath env.realpath root cwd ['.'] = some path ∧
    env.readdir path = some names ∧ name ∈ names ∧ ShowsLink env root cwd path name line ∧
    l ∈ line.splitOn '\n'

/-- The commands that `client_thread` answers, with the file system and the `cwd` of each. -/
def answered (root cwd : List Char) :
    List (List Char × Env) → List (Env × List Char × Command)
  | [] => []
  | (chunk, env) :: rest =>
    if chunk = [] then []
    else
      let cmd := cmdOf chunk
      if cmd = [] then answered root cwd rest
      else if isQuit cmd then [(env, cwd, .quit)]
      else
        (env, cwd, commandOf cmd) :: answered root (nextCwd env root cwd (commandOf cmd)) rest

/-- A line of a link that one of the commands lists. -/
def LinkLine (root : List Char) (cmds : List (List Char × Env)) (l : List Char) : Prop :=
  ∃ env cwd, (env, cwd, .list) ∈ answered root [] cmds ∧ ListsLink env root cwd l

def serverLines (root : List Char) (cmds : List (List Char × Env)) : List (List Char) :=
  textLines (greeting ++ (clientThreadReplies root [] cmds).flatMap Reply.text)

theorem length_le_of_mem_splitOn {s l : List Char} (h : l ∈ s.splitOn '\n') :
    l.length ≤ s.length := by
  obtain ⟨p, ps, hsplit, -, -, hs, -⟩ := splitOn_spec '\n' s
  rw [hsplit] at h
  rw [hs, List.length_append]
  rcases List.mem_cons.mp h with rfl | h
  · omega
  · have hpart : ('\n' :: l).Sublist (ps.flatMap fun q => '\n' :: q) :=
      List.sublist_flatten_of_mem (List.mem_map_of_mem h)
    have hlen := hpart.length_le
    rw [List.length_cons] at hlen
    omega

theorem length_le_of_mem_textLines {s l : List Char} (hs : nul ∉ s)
    (h : l ∈ textLines (s ++ ['\n'])) : l.length ≤ s.length := by
  rw [(whole_newline hs).2] at h
  exact length_le_of_mem_splitOn h

theorem length_sendall_le (s : List Char) : (sendall s).length ≤ s.length :=
  (List.takeWhile_sublist _).length_le

theorem length_cmdOf_le (chunk : List Char) : (cmdOf chunk).length ≤ chunk.length := by
  have hstring : ((cString chunk).takeWhile (· ≠ '\n')).length ≤ chunk.length :=
    ((List.takeWhile_sublist _).trans (List.takeWhile_sublist _)).length_le
  have htrim : (cmdOf chunk).length ≤ ((cString chunk).takeWhile (· ≠ '\n')).length :=
    ((List.rdropWhile_prefix _ _).sublist.trans (List.dropWhile_sublist _)).length_le
  exact htrim.trans hstring

/-- What is listed for an entry: nothing, a link, or its name. -/
theorem listEntry_cases {env : Env} (henv : env.WithinLimits) (root cwd path : List Char)
    {name : FileName} (hname : nul ∉ name) :
    listEntry env root cwd path name = [] ∨
    (∃ line, ShowsLink env root cwd path name line ∧ nul ∉ line ∧
      listEntry env root cwd path name = line ++ ['\n']) ∨
    listEntry env root cwd path name = name ++ ['/'] ++ ['\n'] ∨
    listEntry env root cwd path name = name ++ ['\n'] := by
  have hend : sendall ['\n'] = ['\n'] := by decide
  have hdir : sendall "/\n".toList = ['/'] ++ ['\n'] := by decide
  have harrow : sendall " --> ".toList = " --> ".toList := by decide
  have harrow' : sendall " -->> ".toList = " -->> ".toList := by decide
  have hcut : ∀ path target, env.readlink path = some target →
      target.take (pathBuf - 1) = target := by
    intro path target htarget
    apply List.take_of_length_le
    have hlen := (henv.target_lt _ _ htarget).1
    unfold pathBuf pathMax nameMax at *
    omega
  unfold listEntry
  split_ifs with hdots hroom
  · exact .inl rfl
  · exact .inl rfl
  dsimp only
  split
  · exact .inl rfl
  · rw [sendall_eq hname, hdir, ← List.append_assoc]
    exact .inr (.inr (.inl rfl))
  · rename_i hlink
    split
    · exact .inl rfl
    rename_i target hread
    rw [hcut _ _ hread]
    split
    · exact .inl rfl
    rename_i resolved hbuilt
    split_ifs with hagain
    · split
      · exact .inl rfl
      rename_i target' hread'
      rw [hcut _ _ hread']
      split_ifs with hnone
      · exact .inl rfl
      · have hnul := (henv.target_lt _ _ hread').2
        rw [sendall_eq hname, harrow', sendall_eq hnul, hend]
        refine .inr (.inl ⟨_, .second hlink hread hbuilt hagain hread', ?_, rfl⟩)
        simp only [List.mem_append, not_or]
        exact ⟨⟨hname, by decide⟩, hnul⟩
    · have hnul := (henv.target_lt _ _ hread).2
      rw [sendall_eq hname, harrow, sendall_eq hnul, hend]
      refine .inr (.inl ⟨_, .target hlink hread hbuilt hagain, ?_, rfl⟩)
      simp only [List.mem_append, not_or]
      exact ⟨⟨hname, by decide⟩, hnul⟩
  · rw [sendall_eq hname, hend]
    exact .inr (.inr (.inr rfl))

/-- A line of a listing has room unless it is one of a link. -/
theorem handleList_lines {env : Env} (henv : env.WithinLimits) (root cwd : List Char)
    {l : List Char} (hl : l ∈ textLines (handleList env root cwd)) :
    l.length < bufSize ∨ ListsLink env root cwd l := by
  have hlines := (flatten_whole (listed_whole env root cwd)).2
  rw [handleList, hlines, List.mem_flatMap] at hl
  obtain ⟨entry, hentry, hl⟩ := hl
  unfold listed at hentry
  split at hentry
  · cases hentry
  rename_i path hpath
  split at hentry
  · cases hentry
  rename_i names hnames
  obtain ⟨name, hname, rfl⟩ := List.mem_map.mp hentry
  obtain ⟨hlen, hnul⟩ := henv.name_le path names hnames name hname
  rcases listEntry_cases henv root cwd path hnul with h | ⟨line, hline, hlinenul, h⟩ | h | h
  · rw [h] at hl
    cases hl
  · rw [h, (whole_newline hlinenul).2] at hl
    exact .inr ⟨path, names, name, line, hpath, hnames, hname, hline, hl⟩
  · have hdir : nul ∉ name ++ ['/'] := List.not_mem_append hnul (by decide)
    rw [h] at hl
    have hle := length_le_of_mem_textLines hdir hl
    rw [List.length_append, List.length_singleton] at hle
    unfold nameMax at hlen
    unfold bufSize
    exact .inl (by omega)
  · rw [h] at hl
    have hle := length_le_of_mem_textLines hnul hl
    unfold nameMax at hlen
    unfold bufSize
    exact .inl (by omega)

/-- A current directory that is a C string with room for its prompt. -/
def CwdFits (cwd : List Char) : Prop := nul ∉ cwd ∧ cwd.length + 1 < bufSize

theorem CwdFits.next {env : Env} (henv : env.WithinLimits) {root cwd : List Char}
    (hroot : root ≠ []) (h : CwdFits cwd) (cmd : Command) : CwdFits (nextCwd env root cwd cmd) := by
  refine ⟨nul_notMem_nextCwd env root h.1 cmd, ?_⟩
  cases cmd with
  | cd t =>
    change (changeDir env root cwd t).length + 1 < bufSize
    have hlen := h.2
    unfold changeDir
    split_ifs
    · rw [List.length_nil]
      omega
    · -- the cut leaves a part of it
      have hdrop := ((List.drop_sublist 1 (cwd.reverse.dropWhile (· ≠ '/'))).trans
        (List.dropWhile_sublist _)).length_le
      rw [List.length_reverse] at hdrop ⊢
      omega
    · split
      · exact hlen
      rename_i newp hnewp
      dsimp only
      -- the root is taken off, so that one byte less than a path is left
      have hpath := henv.path_lt _ _ (buildPath_eq_some.mp hnewp).1
      have hpos := List.length_pos_of_ne_nil hroot
      have htail : (if (newp.drop root.length).head? = some '/' then
          (newp.drop root.length).drop 1 else newp.drop root.length).length ≤
          newp.length - root.length := by
        split_ifs
        · rw [List.length_drop, List.length_drop]
          omega
        · rw [List.length_drop]
      generalize (if (newp.drop root.length).head? = some '/' then
        (newp.drop root.length).drop 1 else newp.drop root.length) = rel at htail
      have hrel := length_sendall_le rel
      unfold pathMax at hpath
      unfold sendall at hrel
      split
      · unfold bufSize
        omega
      · exact hlen
  | _ => exact h.2

/-- What is sent for one of the commands that are answered. -/
def answerText (root : List Char) : Env × List Char × Command → List Char
  | (env, cwd, cmd) =>
    replyBody env root cwd cmd ++
      if cmd = .quit then [] else sendPrompt (nextCwd env root cwd cmd)

theorem clientThreadReplies_answered (root cwd : List Char) (cmds : List (List Char × Env)) :
    (clientThreadReplies root cwd cmds).flatMap Reply.text =
      (answered root cwd cmds).flatMap (answerText root) := by
  induction cmds generalizing cwd with
  | nil => rfl
  | cons c cmds ih =>
    obtain ⟨chunk, env⟩ := c
    rw [clientThreadReplies, answered]
    split_ifs with hclosed
    · rfl
    · dsimp only
      split_ifs with hblank hquit
      · exact ih cwd
      · rw [List.flatMap_singleton, List.flatMap_singleton, answerText, if_pos rfl,
          List.append_nil]
      · have hcmd : commandOf (cmdOf chunk) ≠ .quit := fun h => hquit (by rw [isQuit, h]; rfl)
        rw [List.flatMap_cons, List.flatMap_cons, ih, answerText, if_neg hcmd]

/-- What is true of a command that is answered: `ECHO` has an argument from one `recv`. -/
def Answers (env : Env) (cwd : List Char) (cmd : Command) : Prop :=
  env.WithinLimits ∧ CwdFits cwd ∧ ∀ arg, cmd = .echo arg → arg.length < bufSize

theorem answered_answers {root cwd : List Char} (hroot : root ≠ []) (hcwd : CwdFits cwd)
    {cmds : List (List Char × Env)}
    (hcmds : ∀ c ∈ cmds, c.1.length < bufSize ∧ c.2.WithinLimits) :
    ∀ a ∈ answered root cwd cmds, Answers a.1 a.2.1 a.2.2 := by
  induction cmds generalizing cwd with
  | nil => exact List.forall_mem_nil _
  | cons c cmds ih =>
    obtain ⟨chunk, env⟩ := c
    obtain ⟨⟨hchunk, henv⟩, hcmds⟩ := List.forall_mem_cons.mp hcmds
    have hecho : ∀ arg, commandOf (cmdOf chunk) = .echo arg → arg.length < bufSize := by
      intro arg harg
      have hdrop := congrArg List.length (commandOf_echo harg)
      have hle := length_cmdOf_le chunk
      rw [List.length_drop] at hdrop
      change chunk.length < bufSize at hchunk
      omega
    rw [answered]
    split_ifs with hclosed
    · exact List.forall_mem_nil _
    · dsimp only
      split_ifs with hblank hquit
      · exact ih hcwd hcmds
      · rw [List.forall_mem_singleton]
        exact ⟨henv, hcwd, nofun⟩
      · rw [List.forall_mem_cons]
        exact ⟨⟨henv, hcwd, hecho⟩, ih (hcwd.next henv hroot _) hcmds⟩

/-- A line of an answer has room unless `LIST` shows a link on it. -/
theorem answerText_lines {root : List Char} (hroot : root ≠ []) {env : Env} {cwd : List Char}
    {cmd : Command} (h : Answers env cwd cmd) :
    Whole (answerText root (env, cwd, cmd)) ∧
      ∀ l ∈ textLines (answerText root (env, cwd, cmd)),
        l.length < bufSize ∨ cmd = .list ∧ ListsLink env root cwd l := by
  obtain ⟨henv, hcwd, hecho⟩ := h
  have hbody : ∀ l ∈ textLines (replyBody env root cwd cmd),
      l.length < bufSize ∨ cmd = .list ∧ ListsLink env root cwd l := by
    intro l hl
    cases cmd with
    | echo arg =>
      have hlen := length_le_of_mem_textLines (nul_notMem_sendall arg) hl
      have harg := hecho arg rfl
      have hle := length_sendall_le arg
      exact .inl (by omega)
    | list =>
      exact (handleList_lines henv root cwd hl).imp_right fun h => ⟨rfl, h⟩
    | quit =>
      have hbye : textLines (sendall "BYE\n".toList) = [bye] := by decide
      change l ∈ textLines (sendall "BYE\n".toList) at hl
      rw [hbye, List.mem_singleton] at hl
      exact .inl (by rw [hl]; decide)
    | info =>
      have hinfo : textLines handleInfo = ["Hello from 'myserver'".toList] := by decide
      change l ∈ textLines handleInfo at hl
      rw [hinfo, List.mem_singleton] at hl
      exact .inl (by rw [hl]; decide)
    | cd t =>
      change l ∈ textLines [] at hl
      cases hl
    | unknown =>
      have hunknown : textLines (sendall "Unknown command\n".toList) =
          ["Unknown command".toList] := by decide
      change l ∈ textLines (sendall "Unknown command\n".toList) at hl
      rw [hunknown, List.mem_singleton] at hl
      exact .inl (by rw [hl]; decide)
  have hwhole := replyBody_whole env root cwd cmd
  rw [answerText]
  split_ifs with hquit
  · rw [List.append_nil]
    exact ⟨hwhole, hbody⟩
  · obtain ⟨hnul, hlen⟩ := hcwd.next henv hroot cmd
    have hprompt : nul ∉ nextCwd env root cwd cmd ++ ['>'] := List.not_mem_append hnul (by decide)
    obtain ⟨hall, hlines⟩ := hwhole.append (whole_newline hprompt).1
    rw [← sendPrompt_eq hnul] at hall hlines
    refine ⟨hall, fun l hl => ?_⟩
    rw [hlines, List.mem_append] at hl
    rcases hl with hl | hl
    · exact hbody l hl
    · rw [sendPrompt_eq hnul] at hl
      have hle := length_le_of_mem_textLines hprompt hl
      rw [List.length_append, List.length_singleton] at hle
      exact .inl (by omega)

/-- Every line that the server sends has room, but those of links. -/
theorem serverLines_short {root : List Char} (hroot : root ≠ []) {cmds : List (List Char × Env)}
    (hcmds : ∀ c ∈ cmds, c.1.length < bufSize ∧ c.2.WithinLimits) :
    Whole (greeting ++ (clientThreadReplies root [] cmds).flatMap Reply.text) ∧
      ∀ l ∈ serverLines root cmds, l.length < bufSize ∨ LinkLine root cmds l := by
  have hgreeting : textLines greeting = ["Hello from 'myserver'".toList, ['>']] := by decide
  have hfirst : Whole greeting :=
    ⟨⟨["Hello from 'myserver'".toList, ['>']], by decide, by decide⟩, by decide⟩
  have hempty : CwdFits [] := ⟨List.not_mem_nil, by decide⟩
  have hall := answered_answers hroot hempty hcmds
  have hwhole : ∀ t ∈ (answered root [] cmds).map (answerText root), Whole t := by
    intro t ht
    obtain ⟨a, ha, rfl⟩ := List.mem_map.mp ht
    exact (answerText_lines hroot (hall a ha)).1
  obtain ⟨hanswers, hlines⟩ := flatten_whole hwhole
  obtain ⟨htext, htextLines⟩ := hfirst.append hanswers
  rw [serverLines, clientThreadReplies_answered, List.flatMap_def, htextLines, hlines]
  refine ⟨htext, fun l hl => ?_⟩
  rcases List.mem_append.mp hl with hl | hl
  · rw [hgreeting] at hl
    have hshort : ∀ l ∈ ["Hello from 'myserver'".toList, ['>']], l.length < bufSize := by decide
    exact .inl (hshort l hl)
  · obtain ⟨t, ht, hl⟩ := List.mem_flatMap.mp hl
    obtain ⟨a, ha, rfl⟩ := List.mem_map.mp ht
    obtain ⟨env, cwd, cmd⟩ := a
    rcases (answerText_lines hroot (hall _ ha)).2 l hl with hshort | ⟨rfl, hlink⟩
    · exact .inl hshort
    · exact .inr ⟨env, cwd, ha, hlink⟩

/-- However many lines the client reads, and in whatever chunks they arrive, it writes within the
array exactly when no line of a link among them is too long. -/
theorem readLine_in_bounds_iff (malloc : Nat → Vector Char bufSize) {root : List Char}
    (hroot : root ≠ []) (cmds : List (List Char × Env))
    (hcmds : ∀ c ∈ cmds, c.1.length < bufSize ∧ c.2.WithinLimits) (chunks : List Chunk)
    (hsplit : stream chunks = greeting ++ (clientThreadReplies root [] cmds).flatMap Reply.text)
    (n : Nat) :
    (∀ oi, .overflow oi ∉ calls malloc n .initial chunks) ↔
      ∀ l ∈ (serverLines root cmds).take n, LinkLine root cmds l → l.length < bufSize := by
  obtain ⟨hwhole, hshort⟩ := serverLines_short hroot hcmds
  obtain ⟨hlines, hclean⟩ := hwhole.lines
  have hstream : Statics.initial.unread ++ stream chunks =
      (serverLines root cmds).flatMap (· ++ ['\n']) := hsplit.trans hlines
  rw [calls_overflow_iff malloc (fun l hl => (hclean l hl).1) hstream]
  constructor
  · intro h l hl _
    exact h l hl
  · intro h l hl
    rcases hshort l (List.mem_of_mem_take hl) with hfits | hlink
    · exact hfits
    · exact h l hl hlink

theorem emptyEnv_withinLimits : emptyEnv.WithinLimits where
  path_lt _ _ h := by cases h
  name_le _ _ h := by cases h
  target_lt _ _ h := by cases h

theorem readLine_in_bounds_echo :
    (∀ oi, .overflow oi ∉ calls (fun _ => Vector.replicate bufSize '?') 4 .initial
      [⟨"Hello from 'myserver'\n>\nh".toList, by decide, by decide⟩,
        ⟨"i\n>\n".toList, by decide, by decide⟩]) ↔
      ∀ l ∈ (serverLines ['/'] [("ECHO hi\n".toList, emptyEnv)]).take 4,
        LinkLine ['/'] [("ECHO hi\n".toList, emptyEnv)] l → l.length < bufSize := by
  refine readLine_in_bounds_iff _ (by decide) _ ?_ _ (by decide) 4
  rw [List.forall_mem_singleton]
  exact ⟨by decide, emptyEnv_withinLimits⟩

def linkName (k : Nat) : FileName := List.replicate k 'n'

def linkTarget (k : Nat) : List Char := (List.replicate k ['.', '/']).flatten

def srv : List Char := ['/', 's', 'r', 'v']

/-- The file system in which `/srv` holds nothing but this link. -/
def linkEnv (name target : List Char) : Env where
  realpath path :=
    if path ∈ [srv ++ ['/', '/', '.'], srv ++ '/' :: '/' :: target] then some srv else none
  readdir path := if path = srv then some [['.'], ['.', '.'], name] else none
  lstat path :=
    if path = srv ++ '/' :: name then some .link else if path = srv then some .dir else none
  readlink path := if path = srv ++ '/' :: name then some target else none

theorem length_linkTarget (k : Nat) : (linkTarget k).length = 2 * k := by
  induction k with
  | zero => rfl
  | succ k ih =>
    rw [linkTarget, List.replicate_succ, List.flatten_cons, List.length_append, ← linkTarget, ih]
    exact (Nat.mul_succ 2 k).symm ▸ Nat.add_comm 2 (2 * k)

theorem link_clean {c : Char} (hc : c ∈ [nul, '\n']) (k m : Nat) :
    c ∉ linkName k ∧ c ∉ linkTarget m := by
  have hnot : ∀ c ∈ [nul, '\n'], c ≠ 'n' ∧ c ∉ ['.', '/'] := by
    simp only [List.forall_mem_cons]
    exact ⟨by decide, by decide, List.forall_mem_nil _⟩
  refine ⟨fun hmem => (hnot c hc).1 (List.eq_of_mem_replicate hmem), fun hmem => ?_⟩
  obtain ⟨part, hpart, hmem⟩ := List.mem_flatten.mp hmem
  rw [List.eq_of_mem_replicate hpart] at hmem
  exact (hnot c hc).2 hmem

theorem linkEnv_withinLimits {k m : Nat} (hk : k ≤ nameMax) (hm : 2 * m < pathMax) :
    (linkEnv (linkName k) (linkTarget m)).WithinLimits where
  path_lt path real h := by
    obtain ⟨-, hreal⟩ := Option.ite_none_right_eq_some.mp h
    rw [← Option.some.inj hreal]
    decide
  name_le dir names h := by
    obtain ⟨-, hnames⟩ := Option.ite_none_right_eq_some.mp h
    rw [← Option.some.inj hnames]
    simp only [List.forall_mem_cons]
    refine ⟨by decide, by decide, ⟨?_, ?_⟩, List.forall_mem_nil _⟩
    · rwa [linkName, List.length_replicate]
    · exact (link_clean List.mem_cons_self k m).1
  target_lt path target h := by
    obtain ⟨-, htarget⟩ := Option.ite_none_right_eq_some.mp h
    rw [← Option.some.inj htarget, length_linkTarget]
    exact ⟨hm, (link_clean List.mem_cons_self k m).2⟩

/-- What `LIST` shows of it. -/
theorem handleList_linkEnv {name target : List Char} (hdots : ¬(name = ['.'] ∨ name = ['.', '.']))
    (hname : name.length ≤ nameMax ∧ nul ∉ name)
    (htarget : target.length < pathMax ∧ nul ∉ target) (hrel : target.head? ≠ some '/') :
    handleList (linkEnv name target) srv [] = name ++ " --> ".toList ++ target ++ ['\n'] := by
  have hsrv : srv.length = 4 := rfl
  have hhere : buildPath (linkEnv name target).realpath srv [] ['.'] = some srv := by
    have hjoin : joined srv [] ['.'] = srv ++ ['/', '/', '.'] := by decide
    refine buildPath_eq_some.mpr ⟨?_, List.prefix_rfl⟩
    rw [hjoin]
    show (if srv ++ ['/', '/', '.'] ∈ [srv ++ ['/', '/', '.'], srv ++ '/' :: '/' :: target]
      then some srv else none) = _
    rw [if_pos List.mem_cons_self]
  have hjoin : joined srv [] target = srv ++ '/' :: '/' :: target := by
    rw [joined, if_neg hrel]
    apply List.take_of_length_le
    simp only [List.length_append, List.length_cons, hsrv, List.length_nil]
    unfold pathMax at htarget
    unfold pathBuf pathMax nameMax
    omega
  have hthere : buildPath (linkEnv name target).realpath srv [] target = some srv := by
    refine buildPath_eq_some.mpr ⟨?_, List.prefix_rfl⟩
    rw [hjoin]
    exact if_pos (List.mem_cons_of_mem _ List.mem_cons_self)
  have hne : srv ≠ srv ++ '/' :: name := by
    intro h
    have hlen := congrArg List.length h
    rw [List.length_append, List.length_cons] at hlen
    omega
  have hlink : (linkEnv name target).lstat (srv ++ '/' :: name) = some .link := if_pos rfl
  have hread : (linkEnv name target).readlink (srv ++ '/' :: name) = some target := if_pos rfl
  have hdir : (linkEnv name target).lstat srv = some .dir := by
    show (if srv = srv ++ '/' :: name then some FileKind.link
      else if srv = srv then some .dir else none) = some .dir
    rw [if_neg hne, if_pos rfl]
  have hroom : ¬pathBuf ≤ srv.length + 1 + name.length := by
    have hlen := hname.1
    unfold nameMax at hlen
    unfold pathBuf pathMax nameMax
    omega
  have hcut : target.take (pathBuf - 1) = target := by
    apply List.take_of_length_le
    have hlen := htarget.1
    unfold pathMax at hlen
    unfold pathBuf pathMax nameMax
    omega
  have hentry : listEntry (linkEnv name target) srv [] srv name =
      name ++ " --> ".toList ++ target ++ ['\n'] := by
    rw [listEntry, if_neg hdots, if_neg hroom]
    simp only [hlink, hread, hcut, hthere, hdir]
    rw [if_neg (by decide), sendall_eq hname.2, sendall_eq htarget.2]
    rfl
  have hlisted : listed (linkEnv name target) srv [] =
      [[], [], name ++ " --> ".toList ++ target ++ ['\n']] := by
    have hnames : (linkEnv name target).readdir srv = some [['.'], ['.', '.'], name] := by
      show (if srv = srv then some [['.'], ['.', '.'], name] else none) = _
      rw [if_pos rfl]
    rw [listed, hhere]
    simp only [hnames, List.map_cons, hentry]
    rfl
  rw [handleList, hlisted, List.flatten_cons, List.flatten_cons, List.flatten_singleton]
  rfl

/-- The server's answer to `LIST` in it. -/
theorem replies_linkEnv {name target : List Char} (hdots : ¬(name = ['.'] ∨ name = ['.', '.']))
    (hname : name.length ≤ nameMax ∧ nul ∉ name)
    (htarget : target.length < pathMax ∧ nul ∉ target) (hrel : target.head? ≠ some '/') :
    (clientThreadReplies srv [] [("LIST\n".toList, linkEnv name target)]).flatMap Reply.text =
      name ++ " --> ".toList ++ target ++ ['\n'] ++ ['>', '\n'] := by
  have hcmd : cmdOf "LIST\n".toList = "LIST".toList := by decide
  have hcommand : commandOf "LIST".toList = .list := by decide
  have hanswered : answered srv [] [("LIST\n".toList, linkEnv name target)] =
      [(linkEnv name target, [], .list)] := by
    rw [answered, if_neg (by decide), hcmd]
    simp only [hcommand, isQuit]
    rfl
  have hprompt : sendPrompt [] = ['>', '\n'] := by decide
  rw [clientThreadReplies_answered, hanswered, List.flatMap_singleton, answerText,
    if_neg (by decide)]
  show handleList (linkEnv name target) srv [] ++ sendPrompt [] = _
  rw [handleList_linkEnv hdots hname htarget hrel, hprompt]

/-- A line of a link that is too long is the third one, and is written over the end. -/
theorem linkEnv_overflows {name target : List Char} (hdots : ¬(name = ['.'] ∨ name = ['.', '.']))
    (hname : name.length ≤ nameMax ∧ nul ∉ name) (hnonempty : name ≠ [])
    (htarget : target.length < pathMax - 10 ∧ nul ∉ target) (hrel : target.head? ≠ some '/')
    (hline : '\n' ∉ name ∧ '\n' ∉ target) (hlong : bufSize ≤ name.length + 5 + target.length)
    (malloc : Nat → Vector Char bufSize) : ∃ chunks : List Chunk,
      stream chunks = greeting ++ (clientThreadReplies srv []
        [("LIST\n".toList, linkEnv name target)]).flatMap Reply.text ∧
      ∃ oi, .overflow oi ∈ calls malloc 3 .initial chunks := by
  have hlimits : name.length ≤ 255 ∧ target.length < 4086 := ⟨hname.1, htarget.1⟩
  have hpath : target.length < pathMax := Nat.lt_of_lt_of_le htarget.1 (Nat.sub_le _ _)
  have hnameFits : name.length ≤ bufSize := hname.1.trans (by decide)
  have hrestFits : (" --> ".toList ++ target ++ ['\n', '>', '\n']).length ≤ bufSize := by
    rw [List.length_append, List.length_append]
    show 5 + target.length + 3 ≤ 4096
    omega
  -- the greeting, the name, and the rest of the line with the prompt
  let chunks : List Chunk :=
    [⟨greeting, by decide, by decide⟩, ⟨name, hnonempty, hnameFits⟩,
      ⟨" --> ".toList ++ target ++ ['\n', '>', '\n'], by simp, hrestFits⟩]
  have hstream : stream chunks =
      greeting ++ (name ++ " --> ".toList ++ target ++ ['\n'] ++ ['>', '\n']) := by
    show greeting ++ (name ++ (" --> ".toList ++ target ++ ['\n', '>', '\n'] ++ [])) = _
    simp only [List.append_assoc, List.append_nil]
    rfl
  refine ⟨chunks, ?_, ?_⟩
  · rw [hstream, replies_linkEnv hdots hname ⟨hpath, htarget.2⟩ hrel]
  · have hgreeting : greeting = "Hello from 'myserver'".toList ++ ['\n'] ++ (['>'] ++ ['\n']) := by
      decide
    have hlines : Statics.initial.unread ++ stream chunks =
        ["Hello from 'myserver'".toList, ['>'], name ++ " --> ".toList ++ target,
          ['>']].flatMap (· ++ ['\n']) := by
      rw [hstream, hgreeting, Statics.unread_initial]
      simp only [List.flatMap_cons, List.flatMap_nil, List.append_assoc, List.nil_append,
        List.append_nil]
      rfl
    have hclean : ∀ l ∈ ["Hello from 'myserver'".toList, ['>'], name ++ " --> ".toList ++ target,
        ['>']], '\n' ∉ l := by
      simp only [List.forall_mem_cons, List.mem_append, not_or]
      exact ⟨by decide, by decide, ⟨⟨hline.1, by decide⟩, hline.2⟩, by decide,
        List.forall_mem_nil _⟩
    by_contra hnone
    have hfits := (calls_overflow_iff malloc hclean hlines 3).mp fun oi hoi => hnone ⟨oi, hoi⟩
    have hshort := hfits (name ++ " --> ".toList ++ target)
      (List.mem_cons_of_mem _ (List.mem_cons_of_mem _ List.mem_cons_self))
    rw [List.length_append, List.length_append] at hshort
    change name.length + 5 + target.length < bufSize at hshort
    omega

/-- The line of a link with a name of 255 bytes and a target of 3900 is 4160 bytes long. -/
theorem long_link_overflows :
    ¬∀ (malloc : Nat → Vector Char bufSize) (root : List Char), root ≠ [] →
      ∀ cmds : List (List Char × Env), (∀ c ∈ cmds, c.1.length < bufSize ∧ c.2.WithinLimits) →
      ∀ chunks : List Chunk,
      stream chunks = greeting ++ (clientThreadReplies root [] cmds).flatMap Reply.text →
      ∀ n oi, .overflow oi ∉ calls malloc n .initial chunks := by
  intro h
  have hname : (linkName 255).length = 255 := List.length_replicate
  have htarget : (linkTarget 1950).length = 3900 := length_linkTarget 1950
  have hnul := link_clean (List.mem_cons_self : nul ∈ [nul, '\n']) 255 1950
  have hline := link_clean (List.mem_cons_of_mem nul (List.mem_singleton_self '\n')) 255 1950
  have hdots : ¬(linkName 255 = ['.'] ∨ linkName 255 = ['.', '.']) := by
    rintro (h | h)
    · rw [h] at hname
      cases hname
    · rw [h] at hname
      cases hname
  have hrel : (linkTarget 1950).head? ≠ some '/' := by
    rw [linkTarget, List.replicate_succ]
    intro h
    exact absurd (Option.some.inj h) (by decide)
  have hshort : (linkTarget 1950).length < pathMax - 10 := by
    rw [htarget]
    unfold pathMax
    omega
  have hlong : bufSize ≤ (linkName 255).length + 5 + (linkTarget 1950).length := by
    rw [hname, htarget]
    unfold bufSize
    omega
  obtain ⟨chunks, hsplit, oi, hover⟩ := linkEnv_overflows hdots ⟨hname.le, hnul.1⟩
    (List.ne_nil_of_length_eq_add_one hname) ⟨hshort, hnul.2⟩ hrel hline hlong
    (fun _ => Vector.replicate bufSize nul)
  refine h _ srv (by decide) [("LIST\n".toList, linkEnv (linkName 255) (linkTarget 1950))] ?_
    chunks hsplit 3 oi hover
  rw [List.forall_mem_singleton]
  exact ⟨by decide, linkEnv_withinLimits (by decide) (by decide)⟩

end Osisp.Lab8
