import Osisp.Lab8.HandleServer

namespace Osisp.Lab8

open Osisp.Lib Osisp.Lib.Stdio

/-- A line that `handle_server` prints and reads on, and that `read_line` has room for. -/
def Plain (l : List Char) : Prop := isPrompt l = false ∧ l ≠ bye ∧ l.length < bufSize

instance (l : List Char) : Decidable (Plain l) := inferInstanceAs (Decidable (_ ∧ _))

/-- What is sent for the command at `cwd` has no line that looks like a frame, and the prompt
behind it is one line. -/
def Framed (env : Env) (root cwd : List Char) (cmd : Command) : Prop :=
  (match cmd with
    | .echo arg => Plain arg
    | .list => ∀ entry ∈ listed env root cwd, ∀ l ∈ textLines entry, Plain l
    | _ => True) ∧
  '\n' ∉ nextCwd env root cwd cmd ∧ (nextCwd env root cwd cmd).length + 1 < bufSize

/-- So it is for every command, in the current directory it finds. -/
def FramedFrom (root : List Char) : List Char → List (List Char × Env) → Prop
  | _, [] => True
  | cwd, (cmd, env) :: rest =>
    Framed env root cwd (commandOf (trim cmd)) ∧
      FramedFrom root (nextCwd env root cwd (commandOf (trim cmd))) rest

/-- A command line that is not blank and no `QUIT`. -/
structure Asks (cmd : List Char) : Prop where
  oneLine : '\n' ∉ cmd
  noNul : nul ∉ cmd
  notBlank : trim cmd ≠ []
  notQuit : isQuit (trim cmd) = false

/-- The replies to the commands, each of which arrives in one chunk. -/
def repliesTo (root cwd : List Char) (cmds : List (List Char × Env)) : List Reply :=
  clientThreadReplies root cwd (cmds.map fun (cmd, env) => (cmd ++ ['\n'], env))

/-- Lines that one call of `handle_server` reads up to its prompt. -/
def WellFramed (lines : List (List Char)) : Prop :=
  ∃ body p, lines = body ++ [p] ∧ (∀ l ∈ body, Plain l) ∧ isPrompt p = true ∧ p.length < bufSize

theorem frame_of_wellFramed {lines : List (List Char)} (h : WellFramed lines)
    (rest : List (List Char)) : frame (lines ++ rest) = (lines, .prompt, rest) := by
  obtain ⟨body, p, rfl, hbody, hp, hlen⟩ := h
  induction body with
  | nil =>
    have hfits : ¬bufSize ≤ p.length := by omega
    rw [List.nil_append, List.singleton_append, frame, if_neg hfits, if_pos hp]
  | cons l body ih =>
    obtain ⟨hprompt, hbye, hshort⟩ := hbody l List.mem_cons_self
    have hfits : ¬bufSize ≤ l.length := by omega
    have hrest := ih fun x hx => hbody x (List.mem_cons_of_mem _ hx)
    rw [List.cons_append, List.cons_append, frame, if_neg hfits, hprompt, if_neg Bool.false_ne_true,
      if_neg hbye, hrest]

theorem wellFramed_of_frame {lines read rest : List (List Char)}
    (h : frame lines = (read, .prompt, rest)) : WellFramed read ∧ lines = read ++ rest := by
  induction lines generalizing read with
  | nil => cases h
  | cons l ls ih =>
    rw [frame] at h
    split at h
    · cases h
    rename_i hfits
    split at h
    · rename_i hprompt
      cases h
      exact ⟨⟨[], l, rfl, by simp, hprompt, Nat.lt_of_not_le hfits⟩, rfl⟩
    rename_i hprompt
    split at h
    · cases h
    rename_i hbye
    rcases hframe : frame ls with ⟨read', outcome, rest'⟩
    rw [hframe] at h
    cases h
    obtain ⟨⟨body, p, rfl, hbody, hp, hlen⟩, rfl⟩ := ih hframe
    refine ⟨⟨l :: body, p, rfl, ?_, hp, hlen⟩, rfl⟩
    intro x hx
    rcases List.mem_cons.mp hx with rfl | hx
    · exact ⟨Bool.eq_false_iff.mpr hprompt, hbye, Nat.lt_of_not_le hfits⟩
    · exact hbody x hx

/-- Every call reads its own reply exactly where every reply is well framed. -/
theorem frames_iff (replies : List (List (List Char))) :
    frames replies.length replies.flatten = replies.map (fun lines => (lines, .prompt)) ↔
      ∀ lines ∈ replies, WellFramed lines := by
  induction replies with
  | nil => simp [frames]
  | cons lines replies ih =>
    rw [List.forall_mem_cons, ← ih, List.length_cons, List.flatten_cons, List.map_cons, frames]
    constructor
    · intro h
      rcases hframe : frame (lines ++ replies.flatten) with ⟨read, outcome, next⟩
      rw [hframe] at h
      obtain ⟨hhead, htail⟩ := List.cons.inj h
      obtain ⟨rfl, rfl⟩ := Prod.mk.inj hhead
      obtain ⟨hwell, hsplit⟩ := wellFramed_of_frame hframe
      obtain rfl := List.append_cancel_left hsplit
      exact ⟨hwell, by simpa using htail⟩
    · rintro ⟨hwell, hrest⟩
      rw [frame_of_wellFramed hwell]
      simp [hrest]

/-- A reply is well framed, and ends with its prompt, exactly where no line before the prompt
looks like a frame and the prompt is one line. -/
theorem reply_wellFramed_iff {body cwd : List Char} (hbody : Whole body) (hcwd : nul ∉ cwd) :
    (WellFramed (textLines (body ++ sendPrompt cwd)) ∧
      (textLines (body ++ sendPrompt cwd)).getLast? = some (cwd ++ ['>'])) ↔
    (∀ l ∈ textLines body, Plain l) ∧ '\n' ∉ cwd ∧ cwd.length + 1 < bufSize := by
  have hnul : nul ∉ cwd ++ ['>'] := List.not_mem_append hcwd (by decide)
  obtain ⟨hwhole, hlines⟩ := whole_newline hnul
  rw [sendPrompt_eq hcwd, (hbody.append hwhole).2, hlines]
  have hone : '\n' ∉ cwd → (cwd ++ ['>']).splitOn '\n' = [cwd ++ ['>']] := by
    intro hline
    apply List.splitOn_eq_singleton
    exact List.not_mem_append hline (by decide)
  have hprompt : isPrompt (cwd ++ ['>']) = true := by simp [isPrompt]
  constructor
  · rintro ⟨⟨body', p, hsplit, hplain, -, hlen⟩, hlast⟩
    rw [hsplit, List.getLast?_concat, Option.some.injEq] at hlast
    subst hlast
    have hline : '\n' ∉ cwd := by
      intro hmem
      have hin : cwd ++ ['>'] ∈ textLines body ++ (cwd ++ ['>']).splitOn '\n' := by
        rw [hsplit]
        simp
      have hclean := (hbody.append hwhole).1.lines.2
      rw [(hbody.append hwhole).2, hlines] at hclean
      exact (hclean _ hin).1 (List.mem_append_left _ hmem)
    rw [hone hline] at hsplit
    obtain ⟨rfl, -⟩ := List.append_inj' hsplit rfl
    rw [List.length_append] at hlen
    exact ⟨hplain, hline, hlen⟩
  · rintro ⟨hplain, hline, hlen⟩
    rw [hone hline]
    refine ⟨⟨textLines body, cwd ++ ['>'], rfl, hplain, hprompt, ?_⟩, List.getLast?_concat⟩
    rw [List.length_append]
    exact hlen

theorem trim_subset (s : List Char) : trim s ⊆ s := by
  intro c hc
  exact (List.dropWhile_sublist _).subset ((List.rdropWhile_prefix _ _).subset hc)

theorem commandOf_echo {cmd arg : List Char} (h : commandOf cmd = .echo arg) :
    arg = cmd.drop 5 := by
  unfold commandOf at h
  split at h
  · cases h
    rfl
  iterate 4
    split at h
    · cases h
  cases h

/-- The lines of what comes before the prompt, command by command. -/
theorem replyBody_plain_iff (env : Env) (root cwd : List Char) {cmd : List Char}
    (h : Asks cmd) :
    (∀ l ∈ textLines (replyBody env root cwd (commandOf (trim cmd))), Plain l) ↔
      match commandOf (trim cmd) with
      | .echo arg => Plain arg
      | .list => ∀ entry ∈ listed env root cwd, ∀ l ∈ textLines entry, Plain l
      | _ => True := by
  have hone : ∀ s : List Char, '\n' ∉ s → nul ∉ s → textLines (s ++ ['\n']) = [s] := by
    intro s hline hnul
    rw [(whole_newline hnul).2, List.splitOn_eq_singleton hline]
  cases hcmd : commandOf (trim cmd) with
  | echo arg =>
    have harg := commandOf_echo hcmd
    have hin : ∀ c ∈ arg, c ∈ cmd := by
      intro c hc
      rw [harg] at hc
      exact trim_subset cmd (List.mem_of_mem_drop hc)
    have hnul : nul ∉ arg := fun hc => h.noNul (hin _ hc)
    have htext : replyBody env root cwd (.echo arg) = arg ++ ['\n'] := by
      change sendall arg ++ sendall ['\n'] = _
      rw [sendall_eq hnul, sendall_eq (by decide)]
    rw [htext, hone arg (fun hc => h.oneLine (hin _ hc)) hnul, List.forall_mem_singleton]
  | quit =>
    have hquit := h.notQuit
    rw [isQuit, hcmd] at hquit
    cases hquit
  | info =>
    have htext : handleInfo = "Hello from 'myserver'".toList ++ ['\n'] := by decide
    change (∀ l ∈ textLines handleInfo, Plain l) ↔ _
    rw [htext, hone _ (by decide) (by decide), List.forall_mem_singleton]
    exact iff_of_true (by decide) trivial
  | cd t => simp [replyBody, textLines]
  | list =>
    have hlist := (flatten_whole (listed_whole env root cwd)).2
    change (∀ l ∈ textLines (listed env root cwd).flatten, Plain l) ↔ _
    rw [hlist]
    simp only [List.forall_mem_flatMap]
  | unknown =>
    have htext : sendall "Unknown command\n".toList = "Unknown command".toList ++ ['\n'] := by
      decide
    change (∀ l ∈ textLines (sendall "Unknown command\n".toList), Plain l) ↔ _
    rw [htext, hone _ (by decide) (by decide), List.forall_mem_singleton]
    exact iff_of_true (by decide) trivial

theorem repliesTo_cons (root cwd : List Char) {cmd : List Char} (h : Asks cmd) (env : Env)
    (rest : List (List Char × Env)) :
    repliesTo root cwd ((cmd, env) :: rest) =
      let cwd' := nextCwd env root cwd (commandOf (trim cmd))
      ⟨replyBody env root cwd (commandOf (trim cmd)) ++ sendPrompt cwd', cwd'⟩ ::
        repliesTo root cwd' rest := by
  have hcmd : cmdOf (cmd ++ ['\n']) = trim cmd := by
    rw [cmdOf_append (.inr ⟨[], rfl⟩), cmdOf_eq_trim h.oneLine h.noNul]
  rw [repliesTo, List.map_cons, clientThreadReplies, if_neg (by simp), hcmd, if_neg h.notBlank,
    if_neg (by simp [h.notQuit])]
  rfl

theorem repliesTo_length {root cwd : List Char} {cmds : List (List Char × Env)}
    (hcmds : ∀ c ∈ cmds, Asks c.1) : (repliesTo root cwd cmds).length = cmds.length := by
  induction cmds generalizing cwd with
  | nil => rfl
  | cons c cmds ih =>
    obtain ⟨hc, hrest⟩ := List.forall_mem_cons.mp hcmds
    rw [repliesTo_cons root cwd hc, List.length_cons, ih hrest, List.length_cons]

/-- Every reply is whole lines. -/
theorem repliesTo_whole {root cwd : List Char} (hcwd : nul ∉ cwd)
    {cmds : List (List Char × Env)} (hcmds : ∀ c ∈ cmds, Asks c.1) :
    ∀ r ∈ repliesTo root cwd cmds, Whole r.text := by
  induction cmds generalizing cwd with
  | nil => simp [repliesTo, clientThreadReplies]
  | cons c cmds ih =>
    obtain ⟨cmd, env⟩ := c
    obtain ⟨hc, hrest⟩ := List.forall_mem_cons.mp hcmds
    have hnext := nul_notMem_nextCwd env root hcwd (commandOf (trim cmd))
    rw [repliesTo_cons root cwd hc]
    intro r hr
    rcases List.mem_cons.mp hr with rfl | hr
    · have hnul : nul ∉ nextCwd env root cwd (commandOf (trim cmd)) ++ ['>'] :=
        List.not_mem_append hnext (by decide)
      have hprompt := (whole_newline hnul).1
      rw [← sendPrompt_eq hnext] at hprompt
      exact ((replyBody_whole env root cwd _).append hprompt).1
    · exact ih hnext hrest r hr

/-- The replies are well framed and end with their prompts where the commands are harmless. -/
theorem repliesTo_wellFramed_iff {root cwd : List Char} (hcwd : nul ∉ cwd)
    {cmds : List (List Char × Env)} (hcmds : ∀ c ∈ cmds, Asks c.1) :
    (∀ r ∈ repliesTo root cwd cmds, WellFramed (textLines r.text) ∧
      (textLines r.text).getLast? = some (r.cwd ++ ['>'])) ↔ FramedFrom root cwd cmds := by
  induction cmds generalizing cwd with
  | nil => simp [repliesTo, clientThreadReplies, FramedFrom]
  | cons c cmds ih =>
    obtain ⟨cmd, env⟩ := c
    obtain ⟨hc, hrest⟩ := List.forall_mem_cons.mp hcmds
    have hnext := nul_notMem_nextCwd env root hcwd (commandOf (trim cmd))
    rw [repliesTo_cons root cwd hc, List.forall_mem_cons, ih hnext hrest,
      reply_wellFramed_iff (replyBody_whole env root cwd _) hnext,
      replyBody_plain_iff env root cwd hc]
    rfl

/-- The client reads each reply with one call, up to the prompt of its own command, exactly where
no line of a reply looks like a frame. -/
theorem replies_framed (root : List Char) (cmds : List (List Char × Env))
    (hcmds : ∀ c ∈ cmds, Asks c.1) (chunks : List (List Char))
    (hchunks : ∀ chunk ∈ chunks, chunk ≠ [])
    (hsplit : chunks.flatten = greeting ++ (repliesTo root [] cmds).flatMap Reply.text) :
    (session (cmds.length + 1) ⟨[], chunks⟩ =
        (textLines greeting, .prompt) ::
          (repliesTo root [] cmds).map (fun r => (textLines r.text, .prompt)) ∧
      ∀ r ∈ repliesTo root [] cmds,
        (textLines r.text).getLast? = some (r.cwd ++ ['>'])) ↔
    FramedFrom root [] cmds := by
  have hgreeting : textLines greeting = ["Hello from 'myserver'".toList, ['>']] := by decide
  have hfirst : WellFramed (textLines greeting) := by
    refine ⟨["Hello from 'myserver'".toList], ['>'], hgreeting, ?_, by decide, by decide⟩
    simp only [List.forall_mem_singleton]
    decide
  have hwhole : ∀ r ∈ repliesTo root [] cmds, Whole r.text := repliesTo_whole (by simp) hcmds
  let all : List (List (List Char)) :=
    textLines greeting :: (repliesTo root [] cmds).map (fun r => textLines r.text)
  have hlength : all.length = cmds.length + 1 := by
    rw [List.length_cons, List.length_map, repliesTo_length hcmds]
  have hgreetingWhole : Whole greeting :=
    ⟨⟨["Hello from 'myserver'".toList, ['>']], by decide, by decide⟩, by decide⟩
  have hlines : ∀ l ∈ all.flatten, '\n' ∉ l ∧ nul ∉ l := by
    intro l hl
    rw [List.flatten_cons, List.mem_append] at hl
    rcases hl with hl | hl
    · exact hgreetingWhole.lines.2 l hl
    · obtain ⟨lines, hr, hl⟩ := List.mem_flatten.mp hl
      obtain ⟨r, hr', rfl⟩ := List.mem_map.mp hr
      exact (hwhole r hr').lines.2 l hl
  have hinput : (⟨[], chunks⟩ : Input).rest = all.flatten.flatMap (· ++ ['\n']) := by
    have htexts : (repliesTo root [] cmds).flatMap Reply.text =
        ((repliesTo root [] cmds).map fun r => textLines r.text).flatten.flatMap
          (· ++ ['\n']) := by
      rw [← List.flatMap_def, List.flatMap_assoc]
      exact List.flatMap_congr fun r hr => (hwhole r hr).lines.1
    rw [List.flatten_cons, List.flatMap_append, ← hgreetingWhole.lines.1, ← htexts, ← hsplit]
    rfl
  have hflow : (⟨[], chunks⟩ : Input).Flowing := hchunks
  have hsession := session_eq hlines hflow hinput (cmds.length + 1)
  have hexpected : (textLines greeting, Outcome.prompt) ::
      (repliesTo root [] cmds).map (fun r => (textLines r.text, Outcome.prompt)) =
        all.map (fun lines => (lines, .prompt)) := by
    rw [List.map_cons, List.map_map]
    rfl
  rw [hsession, hexpected, ← hlength, frames_iff, List.forall_mem_cons, List.forall_mem_map,
    ← repliesTo_wellFramed_iff (by simp) hcmds]
  constructor
  · rintro ⟨⟨-, hframed⟩, hlast⟩ r hr
    exact ⟨hframed r hr, hlast r hr⟩
  · intro h
    exact ⟨⟨hfirst, fun r hr => (h r hr).1⟩, fun r hr => (h r hr).2⟩

/-- A file system in which nothing is found. -/
def emptyEnv : Env := ⟨fun _ => none, fun _ => none, fun _ => none, fun _ => none⟩

theorem replies_framed_echo :
    session 2 ⟨[], ["Hello from 'mys".toList, "erver'\n>\nhi".toList, "\n>\n".toList]⟩ =
      [(["Hello from 'myserver'".toList, ['>']], .prompt), (["hi".toList, ['>']], .prompt)] := by
  have hasks : Asks "ECHO hi".toList := ⟨by decide, by decide, by decide, by decide⟩
  have hcommand : commandOf (trim "ECHO hi".toList) = .echo "hi".toList := by decide
  have hframed : FramedFrom [] [] [("ECHO hi".toList, emptyEnv)] := by
    unfold FramedFrom Framed
    rw [hcommand]
    exact ⟨⟨by decide, by decide, by decide⟩, trivial⟩
  have hall := ((replies_framed [] [("ECHO hi".toList, emptyEnv)]
    (fun c hc => by rw [List.mem_singleton.mp hc]; exact hasks)
    ["Hello from 'mys".toList, "erver'\n>\nhi".toList, "\n>\n".toList] (by decide)
    (by decide)).mpr hframed).1
  rw [List.length_singleton] at hall
  rw [hall]
  decide

/-- An echoed line that ends like a prompt is taken for one, and the prompt is left for the next
call. -/
theorem echo_taken_for_prompt : Asks "ECHO a>".toList ∧
    ["Hello from 'myserver'\n>\na>\n>\n".toList].flatten =
      greeting ++ (repliesTo [] [] [("ECHO a>".toList, emptyEnv)]).flatMap Reply.text ∧
    session 2 ⟨[], ["Hello from 'myserver'\n>\na>\n>\n".toList]⟩ ≠
      (textLines greeting, .prompt) :: (repliesTo [] [] [("ECHO a>".toList, emptyEnv)]).map
        (fun r => (textLines r.text, .prompt)) := by
  refine ⟨⟨by decide, by decide, by decide, by decide⟩, by decide, ?_⟩
  have hlines : ∀ l ∈ ["Hello from 'myserver'".toList, ['>'], ['a', '>'], ['>']],
      '\n' ∉ l ∧ nul ∉ l := by decide
  rw [session_eq hlines (by unfold Input.Flowing; decide) (by decide)]
  decide

end Osisp.Lab8
