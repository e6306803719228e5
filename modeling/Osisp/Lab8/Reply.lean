import Osisp.Lab8.BuildPath
import Osisp.Lab8.ClientThread

namespace Osisp.Lab8

open Osisp.Lib Osisp.Lib.Stdio

/-- What `lstat` tells of a file. -/
inductive FileKind where
  | dir
  | link
  | other
  deriving DecidableEq

/-- The file system as the server finds it when it deals with a command. `readdir` is `none` where
`opendir` fails. -/
structure Env where
  realpath : List Char → Option (List Char)
  readdir : List Char → Option (List FileName)
  lstat : List Char → Option FileKind
  readlink : List Char → Option (List Char)

/-- `sendall` sends a C string. -/
def sendall (s : List Char) : List Char := cString s

def handleEcho (arg : List Char) : List Char := sendall arg ++ sendall ['\n']

def handleInfo : List Char := sendall "Hello from 'myserver'\n".toList

/-- The body of the loop of `handle_list`, for the directory at `path`. -/
def listEntry (env : Env) (root cwd path : List Char) (name : FileName) : List Char :=
  if name = ['.'] ∨ name = ['.', '.'] then []
  else if pathBuf ≤ path.length + 1 + name.length then []
  else
    let full := path ++ '/' :: name
    match env.lstat full with
    | none => []
    | some .dir => sendall name ++ sendall "/\n".toList
    | some .link =>
      match env.readlink full with
      | none => []
      | some link =>
        let linkto := link.take (pathBuf - 1)
        match buildPath env.realpath root cwd linkto with
        | none => []
        | some target =>
          if env.lstat target = some .link then
            match env.readlink target with
            | none => []
            | some link2 =>
              let real2 := link2.take (pathBuf - 1)
              if real2 = [] then []
              else sendall name ++ sendall " -->> ".toList ++ sendall real2 ++ sendall ['\n']
          else sendall name ++ sendall " --> ".toList ++ sendall linkto ++ sendall ['\n']
    | some .other => sendall name ++ sendall ['\n']

/-- The entries that `handle_list` goes through, each with what is sent for it. -/
def listed (env : Env) (root cwd : List Char) : List (List Char) :=
  match buildPath env.realpath root cwd ['.'] with
  | none => []
  | some path =>
    match env.readdir path with
    | none => []
    | some names => names.map (listEntry env root cwd path)

def handleList (env : Env) (root cwd : List Char) : List Char := (listed env root cwd).flatten

/-- The current directory after `CD t`. -/
def changeDir (env : Env) (root cwd t : List Char) : List Char :=
  if strcasecmpEqual t ['/'] then []
  -- cut at the last slash, or emptied
  else if strcasecmpEqual t ['.', '.'] then ((cwd.reverse.dropWhile (· ≠ '/')).drop 1).reverse
  else
    match buildPath env.realpath root cwd t with
    | none => cwd
    | some newp =>
      let rel := newp.drop root.length
      let rel := cString (if rel.head? = some '/' then rel.drop 1 else rel)
      if rel.length < pathMax then rel else cwd

/-- `cwd` after a command. -/
def nextCwd (env : Env) (root cwd : List Char) : Command → List Char
  | .cd t => changeDir env root cwd t
  | _ => cwd

/-- What is sent for a command before the prompt. -/
def replyBody (env : Env) (root cwd : List Char) : Command → List Char
  | .echo arg => handleEcho arg
  | .quit => sendall "BYE\n".toList
  | .info => handleInfo
  | .cd _ => []
  | .list => handleList env root cwd
  | .unknown => sendall "Unknown command\n".toList

def sendPrompt (cwd : List Char) : List Char :=
  if cwd = [] then sendall ">\n".toList else sendall cwd ++ sendall ">\n".toList

/-- What is sent for one command, and `cwd` afterwards. -/
structure Reply where
  text : List Char
  cwd : List Char

/-- What `client_thread` sends before its loop. -/
def greeting : List Char := handleInfo ++ sendall ">\n".toList

/-- The loop of `client_thread` on the chunks that `recv` returns: what it sends for each. -/
def clientThreadReplies (root cwd : List Char) : List (List Char × Env) → List Reply
  | [] => []
  | (chunk, env) :: rest =>
    if chunk = [] then []
    else
      let cmd := cmdOf chunk
      if cmd = [] then clientThreadReplies root cwd rest
      else if isQuit cmd then [⟨replyBody env root cwd .quit, cwd⟩]
      else
        let cwd' := nextCwd env root cwd (commandOf cmd)
        ⟨replyBody env root cwd (commandOf cmd) ++ sendPrompt cwd', cwd'⟩ ::
          clientThreadReplies root cwd' rest

def textLines (text : List Char) : List (List Char) := (text.splitOn '\n').dropLast

/-- Every line ends with a newline, and there is no NUL. -/
structure Whole (text : List Char) : Prop where
  ends : ∃ lines : List (List Char), (∀ l ∈ lines, '\n' ∉ l) ∧ text = lines.flatMap (· ++ ['\n'])
  noNul : nul ∉ text

theorem textLines_flatMap {lines : List (List Char)} (h : ∀ l ∈ lines, '\n' ∉ l) :
    textLines (lines.flatMap (· ++ ['\n'])) = lines := by
  rw [textLines, splitOn_lines h, List.dropLast_concat]

theorem Whole.lines {text : List Char} (h : Whole text) :
    text = (textLines text).flatMap (· ++ ['\n']) ∧ ∀ l ∈ textLines text, '\n' ∉ l ∧ nul ∉ l := by
  obtain ⟨⟨lines, hlines, rfl⟩, hnul⟩ := h
  rw [textLines_flatMap hlines]
  refine ⟨rfl, fun l hl => ⟨hlines l hl, fun hmem => hnul ?_⟩⟩
  exact List.mem_flatMap.mpr ⟨l, hl, List.mem_append_left _ hmem⟩

theorem Whole.nil : Whole [] := ⟨⟨[], by simp, rfl⟩, by simp⟩

theorem Whole.append {a b : List Char} (ha : Whole a) (hb : Whole b) :
    Whole (a ++ b) ∧ textLines (a ++ b) = textLines a ++ textLines b := by
  obtain ⟨⟨as, has, rfl⟩, hna⟩ := ha
  obtain ⟨⟨bs, hbs, rfl⟩, hnb⟩ := hb
  have hall : ∀ l ∈ as ++ bs, '\n' ∉ l := by
    intro l hl
    rcases List.mem_append.mp hl with hl | hl
    · exact has l hl
    · exact hbs l hl
  rw [← List.flatMap_append, textLines_flatMap hall, textLines_flatMap has, textLines_flatMap hbs]
  refine ⟨⟨⟨as ++ bs, hall, rfl⟩, ?_⟩, rfl⟩
  rw [List.flatMap_append]
  exact List.not_mem_append hna hnb

/-- Anything with a newline behind it. -/
theorem whole_newline {s : List Char} (hs : nul ∉ s) :
    Whole (s ++ ['\n']) ∧ textLines (s ++ ['\n']) = s.splitOn '\n' := by
  obtain ⟨p, ps, hsplit, hp, hps, htext, -⟩ := splitOn_spec '\n' s
  have hlines : ∀ l ∈ p :: ps, '\n' ∉ l := by
    intro l hl
    rcases List.mem_cons.mp hl with rfl | hl
    · exact hp
    · exact hps l hl
  have hjoin : ∀ q : List Char, q ++ ps.flatMap (fun q => '\n' :: q) ++ ['\n'] =
      (q :: ps).flatMap (· ++ ['\n']) := by
    clear hsplit hps htext hlines
    induction ps with
    | nil => simp
    | cons q' ps ih =>
      intro q
      have hrest := ih q'
      rw [List.flatMap_cons, List.flatMap_cons, ← hrest]
      simp
  have htext' : s ++ ['\n'] = (p :: ps).flatMap (· ++ ['\n']) := by
    rw [← hjoin p, ← htext]
  refine ⟨⟨⟨p :: ps, hlines, htext'⟩, ?_⟩, ?_⟩
  · exact List.not_mem_append hs (by decide)
  · rw [htext', textLines_flatMap hlines, hsplit]

theorem nul_notMem_sendall (s : List Char) : nul ∉ sendall s := notMem_takeWhile_ne nul s

theorem sendall_eq {s : List Char} (h : nul ∉ s) : sendall s = s := takeWhile_ne_eq_self_iff.mpr h

/-- What is sent for an entry is nothing or ends with a newline. -/
theorem listEntry_whole (env : Env) (root cwd path : List Char) (name : FileName) :
    Whole (listEntry env root cwd path name) := by
  have hend : sendall ['\n'] = ['\n'] := by decide
  have hdir : sendall "/\n".toList = ['/'] ++ ['\n'] := by decide
  have hname := nul_notMem_sendall name
  have hlink : ∀ arrow target : List Char,
      Whole (sendall name ++ sendall arrow ++ sendall target ++ sendall ['\n']) := by
    intro arrow target
    rw [hend]
    refine (whole_newline ?_).1
    simp only [List.mem_append, not_or]
    exact ⟨⟨hname, nul_notMem_sendall arrow⟩, nul_notMem_sendall target⟩
  unfold listEntry
  split
  · exact .nil
  split
  · exact .nil
  dsimp only
  split
  · exact .nil
  · rw [hdir, ← List.append_assoc]
    refine (whole_newline ?_).1
    exact List.not_mem_append hname (by decide)
  · split
    · exact .nil
    split
    · exact .nil
    split
    · split
      · exact .nil
      split
      · exact .nil
      · exact hlink " -->> ".toList _
    · exact hlink " --> ".toList _
  · rw [hend]
    exact (whole_newline hname).1

theorem flatten_whole {texts : List (List Char)} (h : ∀ t ∈ texts, Whole t) :
    Whole texts.flatten ∧ textLines texts.flatten = texts.flatMap textLines := by
  induction texts with
  | nil => exact ⟨.nil, rfl⟩
  | cons t texts ih =>
    obtain ⟨hrest, hlines⟩ := ih fun t ht => h t (List.mem_cons_of_mem _ ht)
    obtain ⟨hall, happend⟩ := (h t List.mem_cons_self).append hrest
    rw [List.flatten_cons, List.flatMap_cons, happend, hlines]
    exact ⟨hall, rfl⟩

theorem listed_whole (env : Env) (root cwd : List Char) :
    ∀ t ∈ listed env root cwd, Whole t := by
  unfold listed
  split
  · simp
  · split
    · simp
    · intro t ht
      obtain ⟨name, -, rfl⟩ := List.mem_map.mp ht
      exact listEntry_whole env root cwd _ name

/-- What comes before a prompt is whole lines. -/
theorem replyBody_whole (env : Env) (root cwd : List Char) (cmd : Command) :
    Whole (replyBody env root cwd cmd) := by
  have hword : ∀ s : List Char, s ++ ['\n'] = sendall (s ++ ['\n']) →
      Whole (sendall (s ++ ['\n'])) := by
    intro s hs
    have hnul := nul_notMem_sendall (s ++ ['\n'])
    rw [← hs] at hnul ⊢
    exact (whole_newline fun h => hnul (List.mem_append_left _ h)).1
  cases cmd with
  | echo arg => exact (whole_newline (nul_notMem_sendall arg)).1
  | quit => exact hword "BYE".toList (by decide)
  | info => exact hword "Hello from 'myserver'".toList (by decide)
  | cd t => exact .nil
  | list => exact (flatten_whole (listed_whole env root cwd)).1
  | unknown => exact hword "Unknown command".toList (by decide)

/-- `cwd` is a C string. -/
theorem nul_notMem_nextCwd (env : Env) (root : List Char) {cwd : List Char} (h : nul ∉ cwd)
    (cmd : Command) : nul ∉ nextCwd env root cwd cmd := by
  cases cmd with
  | cd t =>
    change nul ∉ changeDir env root cwd t
    unfold changeDir
    split
    · simp
    split
    · intro hmem
      rw [List.mem_reverse] at hmem
      have hcut := (List.dropWhile_sublist _).subset (List.mem_of_mem_drop hmem)
      exact h (List.mem_reverse.mp hcut)
    · split
      · exact h
      · rename_i newp _
        dsimp only
        generalize (if (newp.drop root.length).head? = some '/' then
          (newp.drop root.length).drop 1 else newp.drop root.length) = rel
        split
        · exact nul_notMem_sendall rel
        · exact h
  | _ => exact h

theorem sendPrompt_sendall (cwd : List Char) :
    sendPrompt cwd = sendall cwd ++ ['>'] ++ ['\n'] := by
  have hend : sendall ">\n".toList = ['>'] ++ ['\n'] := by decide
  unfold sendPrompt
  split
  · rename_i hnone
    rw [hnone, hend]
    rfl
  · rw [hend, List.append_assoc]

theorem sendPrompt_eq {cwd : List Char} (h : nul ∉ cwd) :
    sendPrompt cwd = cwd ++ ['>'] ++ ['\n'] := by
  rw [sendPrompt_sendall, sendall_eq h]

end Osisp.Lab8
