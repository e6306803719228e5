import Osisp.Lab8.Connection

namespace Osisp.Lab8

open Osisp.Lib Osisp.Lib.Stdio

def cwdAfter (root cwd : List Char) (cmds : List (List Char × Env)) : List Char :=
  cmds.foldl (fun cwd (cmd, env) => nextCwd env root cwd (commandOf (trim cmd))) cwd

/-- The lines that a client prints for its commands: those of the greeting and of the replies, up
to their prompts. -/
def transcript (root : List Char) (cmds : List (List Char × Env)) : List (List Char) :=
  (textLines greeting).dropLast ++
    (repliesTo root [] cmds).flatMap fun r => (textLines r.text).dropLast

theorem cwdAfter_concat (root cwd : List Char) (cmds : List (List Char × Env)) (cmd : List Char)
    (env : Env) : cwdAfter root cwd (cmds ++ [(cmd, env)]) =
      nextCwd env root (cwdAfter root cwd cmds) (commandOf (trim cmd)) := by
  simp [cwdAfter]

theorem nul_notMem_cwdAfter (root : List Char) {cwd : List Char} (h : nul ∉ cwd)
    (cmds : List (List Char × Env)) : nul ∉ cwdAfter root cwd cmds := by
  induction cmds generalizing cwd with
  | nil => exact h
  | cons c cmds ih => exact ih (nul_notMem_nextCwd c.2 root h (commandOf (trim c.1)))

/-- The reply to one command more. -/
theorem repliesTo_concat (root : List Char) {cwd : List Char} {cmds : List (List Char × Env)}
    (hcmds : ∀ c ∈ cmds, Asks c.1) {cmd : List Char} (hcmd : Asks cmd) (env : Env) :
    repliesTo root cwd (cmds ++ [(cmd, env)]) = repliesTo root cwd cmds ++
      [⟨replyBody env root (cwdAfter root cwd cmds) (commandOf (trim cmd)) ++
          sendPrompt (cwdAfter root cwd (cmds ++ [(cmd, env)])),
        cwdAfter root cwd (cmds ++ [(cmd, env)])⟩] := by
  induction cmds generalizing cwd with
  | nil =>
    rw [List.nil_append, repliesTo_cons root cwd hcmd]
    rfl
  | cons c cmds ih =>
    obtain ⟨hc, hrest⟩ := List.forall_mem_cons.mp hcmds
    rw [List.cons_append, repliesTo_cons root cwd hc, repliesTo_cons root cwd hc]
    simp only [ih hrest]
    rfl

/-- Lines on their way to a prompt. -/
structure Incoming (body : List (List Char)) (p : List Char) : Prop where
  plain : ∀ l ∈ body, Plain l
  clean : ∀ l ∈ body ++ [p], '\n' ∉ l ∧ nul ∉ l
  prompt : isPrompt p = true
  short : p.length < bufSize

def textOf (lines : List (List Char)) : List Char := lines.flatMap (· ++ ['\n'])

theorem textOf_cons (l : List Char) (lines : List (List Char)) :
    textOf (l :: lines) = l ++ '\n' :: textOf lines := by
  simp [textOf]

/-- What the server sends for a command: the lines that the client prints, and its prompt. -/
theorem reply_incoming {env : Env} {root cwd cmd : List Char} (hcmd : Asks cmd) (hcwd : nul ∉ cwd)
    (hframed : Framed env root cwd (commandOf (trim cmd))) :
    let next := nextCwd env root cwd (commandOf (trim cmd))
    let text := replyBody env root cwd (commandOf (trim cmd)) ++ sendPrompt next
    text = textOf ((textLines text).dropLast ++ [next ++ ['>']]) ∧
      Incoming (textLines text).dropLast (next ++ ['>']) := by
  intro next text
  obtain ⟨hbody, hline, hshort⟩ := hframed
  have hplain := (replyBody_plain_iff env root cwd hcmd).mpr hbody
  have hnul : nul ∉ next := nul_notMem_nextCwd env root hcwd _
  have hwhole := replyBody_whole env root cwd (commandOf (trim cmd))
  have hprompt : nul ∉ next ++ ['>'] := List.not_mem_append hnul (by decide)
  have hone : '\n' ∉ next ++ ['>'] := List.not_mem_append hline (by decide)
  obtain ⟨hend, hlast⟩ := whole_newline hprompt
  rw [List.splitOn_eq_singleton hone] at hlast
  have hlines : textLines text =
      textLines (replyBody env root cwd (commandOf (trim cmd))) ++ [next ++ ['>']] := by
    simp only [text]
    rw [sendPrompt_eq hnul, (hwhole.append hend).2, hlast]
  have htext : Whole text := by
    simp only [text]
    rw [sendPrompt_eq hnul]
    exact (hwhole.append hend).1
  obtain ⟨heq, hclean⟩ := htext.lines
  rw [hlines] at hclean
  rw [hlines, List.dropLast_concat, ← hlines]
  refine ⟨heq, hplain, hclean, ?_, ?_⟩
  · simp [isPrompt]
  · simpa using hshort

theorem greeting_incoming : greeting = textOf ((textLines greeting).dropLast ++ [['>']]) ∧
    Incoming (textLines greeting).dropLast ['>'] := by
  have hlines : textLines greeting = ["Hello from 'myserver'".toList, ['>']] := by decide
  rw [hlines]
  refine ⟨by decide, ?_, ?_, by decide, by decide⟩
  · simp only [List.dropLast_cons_cons, List.dropLast_singleton, List.forall_mem_singleton]
    decide
  · decide

/-- What the client has still to read as lines. -/
def State.unread (s : State) : List Char :=
  s.client.out ++ s.client.buf ++ s.toClient ++ s.server.pending

/-- The newline that has followed the last command. -/
def ClientPc.newlineSent : ClientPc → List Char
  | .newline => []
  | _ => ['\n']

/-- The client has sent a command and no prompt for it has come. -/
def ClientPc.waits (pc : ClientPc) : Prop := pc = .newline ∨ pc = .handleServer

/-- A state between the client and the server after the replies to `cmds`. -/
inductive Phase (root : List Char) (cmds : List (List Char × Env)) (s : State) : Prop
  /-- The client asks for the next command. -/
  | input (hpc : s.client.pc = .input) (hserver : s.server.pc = .running) (hunread : s.unread = [])
      (hprinted : s.client.printed = transcript root cmds)
      (hprompt : s.client.prompt = some (s.server.cwd ++ ['>']))
      (hsent : s.sent = cmds.map Prod.fst) (hstream : s.toServer = [] ∨ s.toServer = ['\n'])
  /-- A command is on its way. -/
  | asking (line before : List Char) (hpc : s.client.pc.waits) (hserver : s.server.pc = .running)
      (hunread : s.unread = []) (hprinted : s.client.printed = transcript root cmds)
      (hsent : s.sent = cmds.map Prod.fst ++ [line]) (hline : Sendable line)
      (hblank : trim line ≠ []) (hbefore : before = [] ∨ before = ['\n'])
      (hstream : s.toServer = before ++ line ++ s.client.pc.newlineSent)
  /-- A reply, or the greeting, is on its way. -/
  | reading (body : List (List Char)) (p : List Char) (hpc : s.client.pc.waits)
      (hserver : s.server.pc = .running) (hunread : s.unread = textOf (body ++ [p]))
      (hincoming : Incoming body p) (hp : p = s.server.cwd ++ ['>'])
      (hprinted : s.client.printed ++ body = transcript root cmds)
      (hsent : s.sent = cmds.map Prod.fst)
      (hstream : s.toServer = [] ∨ s.client.pc = .handleServer ∧ s.toServer = ['\n'])
  /-- The reply to `QUIT` is on its way. -/
  | quitting (line : List Char) (hpc : s.client.pc.waits) (hserver : s.server.pc ≠ .running)
      (hclosed : s.server.pc = .closed → s.server.pending = [])
      (hunread : s.unread = textOf [bye]) (hprinted : s.client.printed = transcript root cmds)
      (hsent : s.sent = cmds.map Prod.fst ++ [line]) (hquit : isQuit (trim line) = true)
  /-- The client has read the reply to `QUIT`. -/
  | quit (line : List Char) (hpc : s.client.pc = .exited) (hserver : s.server.pc ≠ .running)
      (hpending : s.server.pending = [])
      (hprinted : s.client.printed = transcript root cmds ++ [bye])
      (hsent : s.sent = cmds.map Prod.fst ++ [line]) (hquit : isQuit (trim line) = true)
  /-- There was no line left. -/
  | ended (hpc : s.client.pc = .exited) (hserver : s.server.pc ≠ .quitting)
      (hpending : s.server.pending = []) (hprinted : s.client.printed = transcript root cmds)
      (hsent : s.sent = cmds.map Prod.fst) (htodo : s.client.todo = [])
      (hstream : s.toServer = [] ∨ s.toServer = ['\n'])

/-- What holds in a state after the replies to `cmds`. -/
structure Between (root : List Char) (cmds : List (List Char × Env)) (s : State) : Prop where
  asks : ∀ c ∈ cmds, Asks c.1
  cwd : s.server.cwd = cwdAfter root [] cmds
  noNewline : '\n' ∉ s.client.out
  phase : Phase root cmds s

/-- What holds at the prompt of the client. -/
theorem Between.at_input {root : List Char} {cmds : List (List Char × Env)} {s : State}
    (hb : Between root cmds s) (hpc : s.client.pc = .input) :
    s.server.pc = .running ∧ s.unread = [] ∧ s.client.printed = transcript root cmds ∧
      s.client.prompt = some (s.server.cwd ++ ['>']) ∧ s.sent = cmds.map Prod.fst ∧
      (s.toServer = [] ∨ s.toServer = ['\n']) := by
  cases hb.phase with
  | input _ hserver hunread hprinted hprompt hsent hstream =>
    exact ⟨hserver, hunread, hprinted, hprompt, hsent, hstream⟩
  | asking _ _ hwaits | reading _ _ hwaits | quitting _ hwaits =>
    rw [hpc] at hwaits
    rcases hwaits with hwaits | hwaits <;> cases hwaits
  | quit _ hexited | ended hexited =>
    rw [hpc] at hexited
    cases hexited

/-- A `recv` of the server ends where a `send` of the client ended, and does not go on behind a
newline. -/
def WholeRecv (stream : List Char) (n : Nat) : Prop :=
  '\n' ∉ (stream.take n).dropLast ∧
  ((stream.take n).getLast? = some '\n' ∨ ∀ c ∈ (stream.drop n).head?, c = '\n')

/-- The steps between which nothing goes wrong: no line is blank, no command is split or joined to
the newline before it, and no line of a reply looks like a frame. -/
def Orderly (root : List Char) (s : State) : Action → Prop
  | .sendCmd => ∀ line ∈ s.client.todo.head?, trim line ≠ []
  | .serverRecv n env =>
    let cmd := cmdOf (s.toServer.take n)
    WholeRecv s.toServer n ∧ (cmd ≠ [] → Framed env root s.server.cwd (commandOf cmd))
  | _ => True

theorem take_newline {stream : List Char} (h : stream = [] ∨ stream = ['\n']) {n : Nat}
    (hpos : 0 < n) (hn : n ≤ stream.length) : stream.take n = ['\n'] ∧ stream.drop n = [] := by
  rcases h with rfl | rfl
  · rw [List.length_nil] at hn
    omega
  · obtain rfl : n = 1 := by
      rw [List.length_singleton] at hn
      omega
    simp

theorem wholeRecv_newline {line rest : List Char} (hne : line ≠ []) {n : Nat} (hpos : 0 < n)
    (h : WholeRecv ('\n' :: (line ++ rest)) n) :
    ('\n' :: (line ++ rest)).take n = ['\n'] ∧ ('\n' :: (line ++ rest)).drop n = line ++ rest := by
  obtain ⟨c, line, rfl⟩ := List.exists_cons_of_ne_nil hne
  obtain ⟨m, rfl⟩ : ∃ m, n = m + 1 := ⟨n - 1, by omega⟩
  cases m with
  | zero => simp
  | succ m =>
    have hjoin := h.1
    simp at hjoin

/-- A command comes whole, with its newline or without. -/
theorem wholeRecv_line {cmd rest : List Char} (hcmd : '\n' ∉ cmd) {n : Nat}
    (h : WholeRecv (cmd ++ rest) n) :
    ∃ got left, rest = got ++ left ∧ (cmd ++ rest).take n = cmd ++ got ∧
      (cmd ++ rest).drop n = left := by
  have hlong : cmd.length ≤ n := by
    by_contra hshort
    have hlt : n < cmd.length := by omega
    have htake : (cmd ++ rest).take n = cmd.take n :=
      List.take_append_of_le_length (Nat.le_of_lt hlt)
    have hdrop : (cmd ++ rest).drop n = cmd[n] :: (cmd.drop (n + 1) ++ rest) := by
      rw [List.drop_append_of_le_length (Nat.le_of_lt hlt), List.drop_eq_getElem_cons hlt]
      rfl
    rcases h.2 with hlast | hhead
    · rw [htake] at hlast
      exact hcmd (List.mem_of_mem_take (List.mem_of_getLast? hlast))
    · rw [hdrop] at hhead
      have hc : cmd[n] = '\n' := hhead _ rfl
      exact hcmd (hc ▸ List.getElem_mem hlt)
  refine ⟨rest.take (n - cmd.length), rest.drop (n - cmd.length), ?_, ?_, ?_⟩
  · rw [List.take_append_drop]
  · rw [List.take_append, List.take_of_length_le hlong]
  · rw [List.drop_append, List.drop_of_length_le hlong, List.nil_append]

theorem cmdOf_line {line got left : List Char} (hline : Sendable line)
    (hrest : got ++ left = [] ∨ got ++ left = ['\n']) : cmdOf (line ++ got) = trim line := by
  have hgot : got = [] ∨ ∃ t, got = '\n' :: t := by
    rcases hrest with h | h
    · exact .inl (List.append_eq_nil_iff.mp h).1
    · cases got with
      | nil => exact .inl rfl
      | cons c got => exact .inr ⟨got, by rw [(List.cons.inj h).1]⟩
  rw [cmdOf_append hgot, cmdOf_eq_trim hline.oneLine hline.noNul]

theorem cmdOf_newline : cmdOf ['\n'] = [] := by decide

theorem Phase.move {root : List Char} {cmds : List (List Char × Env)} {s t : State}
    (h : Phase root cmds s) (hpc : t.client.pc = s.client.pc)
    (hprinted : t.client.printed = s.client.printed) (hprompt : t.client.prompt = s.client.prompt)
    (htodo : t.client.todo = s.client.todo) (hserver : t.server.pc = s.server.pc)
    (hcwd : t.server.cwd = s.server.cwd) (hstream : t.toServer = s.toServer)
    (hsent : t.sent = s.sent) (hunread : t.unread = s.unread)
    (hpending : s.server.pending = [] → t.server.pending = []) : Phase root cmds t := by
  cases h with
  | input h₁ h₂ h₃ h₄ h₅ h₆ h₇ => apply Phase.input <;> simp_all
  | asking line before h₁ h₂ h₃ h₄ h₅ h₆ h₇ h₈ h₉ => apply Phase.asking line before <;> simp_all
  | reading body p h₁ h₂ h₃ h₄ h₅ h₆ h₇ h₈ => apply Phase.reading body p <;> simp_all
  | quitting line h₁ h₂ h₃ h₄ h₅ h₆ h₇ => apply Phase.quitting line <;> simp_all
  | quit line h₁ h₂ h₃ h₄ h₅ h₆ => apply Phase.quit line <;> simp_all
  | ended h₁ h₂ h₃ h₄ h₅ h₆ h₇ => apply Phase.ended <;> simp_all

section Client

variable {root : List Char} {cmds : List (List Char × Env)} {s t : State}

/-- The next line is sent. -/
theorem sendCmd_between (hb : Between root cmds s) (hg : Orderly root s .sendCmd)
    (hsend : ∀ line ∈ s.client.todo, Sendable line) (h : step root s .sendCmd = some t) :
    Between root cmds t := by
  simp only [step] at h
  split at h
  · cases h
  · rename_i line todo htodo
    have hline : Sendable line := hsend line (htodo ▸ List.mem_cons_self)
    have hblank : trim line ≠ [] := hg line (by simp [htodo])
    split_ifs at h with hpc
    cases h
    obtain ⟨hserver, hunread, hprinted, -, hsent, hstream⟩ := hb.at_input hpc
    refine ⟨hb.asks, hb.cwd, hb.noNewline, ?_⟩
    refine .asking line s.toServer (.inl rfl) hserver hunread hprinted ?_ hline hblank hstream ?_
    · simp [hsent]
    · simp [ClientPc.newlineSent]

/-- Its newline follows it. -/
theorem sendNewline_between (hb : Between root cmds s) (h : step root s .sendNewline = some t) :
    Between root cmds t := by
  simp only [step] at h
  split_ifs at h with hpc
  cases h
  refine ⟨hb.asks, hb.cwd, hb.noNewline, ?_⟩
  cases hb.phase with
  | input hinput =>
    rw [hpc] at hinput
    cases hinput
  | asking line before _ hserver hunread hprinted hsent hline hblank hbefore hstream =>
    refine .asking line before (.inr rfl) hserver hunread hprinted hsent hline hblank hbefore ?_
    simp [hstream, hpc, ClientPc.newlineSent]
  | reading body p _ hserver hunread hincoming hp hprinted hsent hstream =>
    refine .reading body p (.inr rfl) hserver hunread hincoming hp hprinted hsent ?_
    simp [hpc] at hstream
    simp [hstream]
  | quitting line _ hserver hclosed hunread hprinted hsent hquit =>
    exact .quitting line (.inr rfl) hserver hclosed hunread hprinted hsent hquit
  | quit _ hexited | ended hexited =>
    rw [hpc] at hexited
    cases hexited

theorem endOfInput_between (hb : Between root cmds s) (h : step root s .endOfInput = some t) :
    Between root cmds t := by
  simp only [step] at h
  split_ifs at h with hcond
  obtain ⟨hpc, htodo⟩ := hcond
  cases h
  obtain ⟨hserver, hunread, hprinted, -, hsent, hstream⟩ := hb.at_input hpc
  have hpending : s.server.pending = [] := (List.append_eq_nil_iff.mp hunread).2
  refine ⟨hb.asks, hb.cwd, hb.noNewline, ?_⟩
  exact .ended rfl (by simp [hserver]) hpending hprinted hsent htodo hstream

theorem clientRecv_between {n : Nat} (hb : Between root cmds s)
    (h : step root s (.clientRecv n) = some t) : Between root cmds t := by
  simp only [step] at h
  split_ifs at h with hcond
  obtain ⟨-, hbuf, -⟩ := hcond
  cases h
  refine ⟨hb.asks, hb.cwd, hb.noNewline, ?_⟩
  refine hb.phase.move rfl rfl rfl rfl rfl rfl rfl rfl ?_ id
  simp [State.unread, hbuf]

theorem clientClosed_between (hb : Between root cmds s)
    (h : step root s .clientClosed = some t) : Between root cmds t := by
  simp only [step] at h
  split_ifs at h with hcond
  obtain ⟨hpc, hbuf, hflight, hclosed⟩ := hcond
  exfalso
  cases hb.phase with
  | input _ hserver | asking _ _ _ hserver | reading _ _ _ hserver =>
    rw [hclosed] at hserver
    cases hserver
  | quitting _ _ _ hnone hunread =>
    -- the newline of the reply would be in the line so far
    have hout : s.client.out = textOf [bye] := by
      simpa [State.unread, hbuf, hflight, hnone hclosed] using hunread
    apply hb.noNewline
    rw [hout]
    decide
  | quit _ hexited | ended hexited =>
    rw [hpc] at hexited
    cases hexited

/-- The byte that `read_line` takes is one of the next line, or its newline. -/
theorem readByte_line {c : ClientState} {ch : Char} {buf more l rest : List Char}
    (hout : '\n' ∉ c.out) (hl : '\n' ∉ l ∧ nul ∉ l) (hshort : l.length < bufSize)
    (h : c.out ++ ch :: more = l ++ '\n' :: rest) :
    (ch = '\n' ∧ more = rest ∧ c.readByte ch buf = { c with buf, out := [] }.endLine l) ∨
    (ch ≠ '\n' ∧ c.readByte ch buf = { c with buf, out := c.out ++ [ch] }) := by
  by_cases hch : ch = '\n'
  · subst hch
    obtain ⟨hsame, hmore⟩ := line_unique hout hl.1 h
    have hroom : ¬bufSize ≤ c.out.length := by
      rw [hsame]
      omega
    have hstring : cString c.out = l := by
      rw [hsame]
      exact sendall_eq hl.2
    refine .inl ⟨rfl, hmore, ?_⟩
    rw [ClientState.readByte, if_neg hroom, if_pos rfl, hstring]
  · have hnone : '\n' ∉ c.out ++ [ch] := List.not_mem_append hout (by simpa using Ne.symm hch)
    have hjoin : (c.out ++ [ch]) ++ more = l ++ '\n' :: rest := by
      rw [List.append_assoc]
      exact h
    obtain ⟨l', hl', -⟩ := line_beyond hnone hjoin
    have hroom : ¬bufSize ≤ c.out.length := by
      have hlen := congrArg List.length hl'
      simp only [List.length_append, List.length_singleton] at hlen
      omega
    refine .inr ⟨hch, ?_⟩
    rw [ClientState.readByte, if_neg hroom, if_neg hch]

theorem endLine_plain {c : ClientState} {l : List Char} (hl : Plain l) :
    c.endLine l = { c with printed := c.printed ++ [l] } := by
  rw [ClientState.endLine, hl.1, if_neg Bool.false_ne_true, if_neg hl.2.1]

theorem endLine_prompt {c : ClientState} {l : List Char} (hl : isPrompt l = true) :
    c.endLine l = { c with pc := .input, prompt := some l } := by
  rw [ClientState.endLine, if_pos hl]

theorem endLine_bye (c : ClientState) :
    c.endLine bye = { c with pc := .exited, printed := c.printed ++ [bye] } := rfl

theorem clientByte_move {ch : Char} {buf : List Char} (hb : Between root cmds s)
    (hbuf : s.client.buf = ch :: buf) (hch : ch ≠ '\n') :
    Between root cmds { s with client := { s.client with buf, out := s.client.out ++ [ch] } } := by
  refine ⟨hb.asks, hb.cwd, List.not_mem_append hb.noNewline (by simpa using Ne.symm hch), ?_⟩
  refine hb.phase.move rfl rfl rfl rfl rfl rfl rfl rfl ?_ id
  simp [State.unread, hbuf]

theorem unread_cons {ch : Char} {buf : List Char} (hbuf : s.client.buf = ch :: buf) :
    s.unread = s.client.out ++ ch :: (buf ++ s.toClient ++ s.server.pending) := by
  simp [State.unread, hbuf]

/-- A byte of a reply: the client prints a line of it, or comes to its prompt. -/
theorem clientByte_reading {ch : Char} {buf : List Char} {body : List (List Char)} {p : List Char}
    (hb : Between root cmds s) (hbuf : s.client.buf = ch :: buf)
    (hpc : s.client.pc = .handleServer) (hserver : s.server.pc = .running)
    (hunread : s.unread = textOf (body ++ [p])) (hincoming : Incoming body p)
    (hp : p = s.server.cwd ++ ['>']) (hprinted : s.client.printed ++ body = transcript root cmds)
    (hsent : s.sent = cmds.map Prod.fst)
    (hstream : s.toServer = [] ∨ s.client.pc = .handleServer ∧ s.toServer = ['\n']) :
    Between root cmds { s with client := s.client.readByte ch buf } ∧
    ((s.client.readByte ch buf).pc = .input ∨ (s.client.readByte ch buf).pc = .handleServer) := by
  rw [unread_cons hbuf] at hunread
  cases body with
  | nil =>
    rw [List.nil_append, textOf_cons] at hunread
    have hclean := hincoming.clean p (by simp)
    rcases readByte_line hb.noNewline hclean hincoming.short hunread with
      ⟨-, hrest, hread⟩ | ⟨hch, hread⟩
    · rw [endLine_prompt hincoming.prompt] at hread
      rw [hread]
      refine ⟨⟨hb.asks, hb.cwd, by simp, ?_⟩, .inl rfl⟩
      refine .input rfl hserver hrest ?_ (by rw [hp]) hsent (hstream.imp_right And.right)
      rw [← hprinted, List.append_nil]
    · rw [hread]
      exact ⟨clientByte_move hb hbuf hch, .inr hpc⟩
  | cons l body =>
    rw [List.cons_append, textOf_cons] at hunread
    have hplain := hincoming.plain l List.mem_cons_self
    have hclean := hincoming.clean l (by simp)
    rcases readByte_line hb.noNewline hclean hplain.2.2 hunread with
      ⟨-, hrest, hread⟩ | ⟨hch, hread⟩
    · rw [endLine_plain hplain] at hread
      rw [hread]
      refine ⟨⟨hb.asks, hb.cwd, by simp, ?_⟩, .inr hpc⟩
      refine .reading body p (.inr hpc) hserver hrest ?_ hp ?_ hsent hstream
      · refine ⟨fun x hx => hincoming.plain x (List.mem_cons_of_mem l hx), ?_, hincoming.prompt,
          hincoming.short⟩
        exact fun x hx => hincoming.clean x (List.mem_cons_of_mem l hx)
      · rw [← hprinted, List.append_assoc]
        rfl
    · rw [hread]
      exact ⟨clientByte_move hb hbuf hch, .inr hpc⟩

theorem clientByte_between (hb : Between root cmds s) (h : step root s .clientByte = some t) :
    Between root cmds t := by
  simp only [step] at h
  split at h
  · cases h
  rename_i ch buf hbuf
  split_ifs at h with hpc
  cases h
  cases hb.phase with
  | input hother | quit _ hother | ended hother =>
    rw [hpc] at hother
    cases hother
  | asking _ _ _ _ hunread =>
    rw [unread_cons hbuf] at hunread
    simp at hunread
  | reading body p _ hserver hunread hincoming hp hprinted hsent hstream =>
    exact (clientByte_reading hb hbuf hpc hserver hunread hincoming hp hprinted hsent hstream).1
  | quitting line _ hserver _ hunread hprinted hsent hquit =>
    rw [unread_cons hbuf, textOf_cons] at hunread
    rcases readByte_line hb.noNewline (by decide) (by decide) hunread with
      ⟨-, hrest, hread⟩ | ⟨hch, hread⟩
    · rw [endLine_bye] at hread
      rw [hread]
      refine ⟨hb.asks, hb.cwd, by simp, ?_⟩
      refine .quit line rfl hserver ?_ (by rw [hprinted]) hsent hquit
      exact (List.append_eq_nil_iff.mp hrest).2
    · rw [hread]
      exact clientByte_move hb hbuf hch

end Client

section Server

variable {root : List Char} {cmds : List (List Char × Env)} {s t : State}

theorem serverSend_between {n : Nat} (hb : Between root cmds s)
    (h : step root s (.serverSend n) = some t) : Between root cmds t := by
  simp only [step] at h
  split_ifs at h
  cases h
  refine ⟨hb.asks, hb.cwd, hb.noNewline, ?_⟩
  refine hb.phase.move rfl rfl rfl rfl rfl rfl rfl rfl ?_ fun hnone => by simp [hnone]
  simp [State.unread]

/-- No `send` fails, since the client is there until it has read everything. -/
theorem serverDrop_between (hb : Between root cmds s) (h : step root s .serverDrop = some t) :
    Between root cmds t := by
  simp only [step] at h
  split_ifs at h with hcond
  obtain ⟨hpending, hexited⟩ := hcond
  exfalso
  cases hb.phase with
  | input hpc =>
    rw [hexited] at hpc
    cases hpc
  | asking _ _ hwaits | reading _ _ hwaits | quitting _ hwaits =>
    rw [hexited] at hwaits
    rcases hwaits with hwaits | hwaits <;> cases hwaits
  | quit _ _ _ hnone | ended _ _ hnone => exact hpending hnone

theorem serverClose_between (hb : Between root cmds s) (h : step root s .serverClose = some t) :
    Between root cmds t := by
  simp only [step] at h
  split_ifs at h with hcond
  obtain ⟨hpending, hend⟩ := hcond
  cases h
  refine ⟨hb.asks, hb.cwd, hb.noNewline, ?_⟩
  cases hb.phase with
  | input hpc hserver =>
    simp [hpc, hserver] at hend
  | asking _ _ hwaits hserver | reading _ _ hwaits hserver =>
    rcases hwaits with hpc | hpc <;> simp [hpc, hserver] at hend
  | quitting line hwaits _ _ hunread hprinted hsent hquit =>
    exact .quitting line hwaits nofun (fun _ => hpending) hunread hprinted hsent hquit
  | quit line hpc _ _ hprinted hsent hquit =>
    exact .quit line hpc nofun hpending hprinted hsent hquit
  | ended hpc _ _ hprinted hsent htodo hstream =>
    exact .ended hpc nofun hpending hprinted hsent htodo hstream

theorem dispatch_newline (root : List Char) (v : ServerState) (env : Env) :
    v.dispatch root ['\n'] env = v := by
  rw [ServerState.dispatch]
  simp [cmdOf_newline]

/-- A command that is no `QUIT` is answered. -/
theorem answer_between {line left before : List Char} {env : Env} (hb : Between root cmds s)
    (hwaits : s.client.pc.waits) (hserver : s.server.pc = .running) (hunread : s.unread = [])
    (hprinted : s.client.printed = transcript root cmds)
    (hsent : s.sent = cmds.map Prod.fst ++ [line]) (hasks : Asks line)
    (hleft : s.client.pc.newlineSent = before ++ left)
    (hframed : Framed env root s.server.cwd (commandOf (trim line))) :
    let cwd := nextCwd env root s.server.cwd (commandOf (trim line))
    let pending := replyBody env root s.server.cwd (commandOf (trim line)) ++ sendPrompt cwd
    Between root (cmds ++ [(line, env)]) { s with
      server := { s.server with cwd, pending }
      toServer := left
      replied := s.replied + pending.length } := by
  intro cwd pending
  have hcwd : cwd = cwdAfter root [] (cmds ++ [(line, env)]) := by
    rw [cwdAfter_concat, ← hb.cwd]
  have hnul : nul ∉ s.server.cwd := by
    rw [hb.cwd]
    exact nul_notMem_cwdAfter root List.not_mem_nil cmds
  obtain ⟨htext, hincoming⟩ := reply_incoming hasks hnul hframed
  have hnone : s.client.out ++ s.client.buf ++ s.toClient = [] :=
    (List.append_eq_nil_iff.mp hunread).1
  refine ⟨?_, hcwd, hb.noNewline, ?_⟩
  · intro c hc
    rcases List.mem_append.mp hc with hc | hc
    · exact hb.asks c hc
    · rw [List.mem_singleton.mp hc]
      exact hasks
  · refine .reading _ _ hwaits hserver ?_ hincoming rfl ?_ ?_ ?_
    · rw [← htext]
      simp only [State.unread, hnone, List.nil_append]
      rfl
    · rw [hprinted, transcript, transcript, repliesTo_concat root hb.asks hasks env, ← hb.cwd,
        ← hcwd, List.flatMap_append, List.flatMap_singleton, List.append_assoc]
    · rw [hsent, List.map_append]
      rfl
    · rcases hwaits with hpc | hpc
      · rw [hpc] at hleft
        exact .inl (List.append_eq_nil_iff.mp hleft.symm).2
      · have hone : ['\n'] = before ++ left := by
          rw [hpc] at hleft
          exact hleft
        cases before with
        | nil => exact .inr ⟨hpc, hone.symm⟩
        | cons c before => exact .inl (List.append_eq_nil_iff.mp (List.cons.inj hone).2.symm).2

theorem serverRecv_between {n : Nat} {env : Env} (hb : Between root cmds s)
    (hg : Orderly root s (.serverRecv n env)) (h : step root s (.serverRecv n env) = some t) :
    ∃ cmds', Between root cmds' t := by
  simp only [step] at h
  split_ifs at h with hcond
  obtain ⟨hrunning, hpending, hpos, -, hn⟩ := hcond
  obtain ⟨hwhole, hframed⟩ := hg
  cases h
  have hnewline : s.toServer = [] ∨ s.toServer = ['\n'] →
      s.toServer.drop n = [] ∧ s.server.dispatch root (s.toServer.take n) env = s.server := by
    intro hstream
    obtain ⟨htake, hdrop⟩ := take_newline hstream hpos hn
    rw [htake]
    exact ⟨hdrop, dispatch_newline root s.server env⟩
  cases hb.phase with
  | input hpc hserver hunread hprinted hprompt hsent hstream =>
    obtain ⟨hdrop, hsame⟩ := hnewline hstream
    rw [hsame, hdrop]
    refine ⟨cmds, hb.asks, hb.cwd, hb.noNewline, ?_⟩
    exact .input hpc hserver hunread hprinted hprompt hsent (.inl rfl)
  | reading body p hwaits hserver hunread hincoming hp hprinted hsent hstream =>
    obtain ⟨hdrop, hsame⟩ := hnewline (hstream.imp_right And.right)
    rw [hsame, hdrop]
    refine ⟨cmds, hb.asks, hb.cwd, hb.noNewline, ?_⟩
    exact .reading body p hwaits hserver hunread hincoming hp hprinted hsent (.inl rfl)
  | ended hpc hserver hnone hprinted hsent htodo hstream =>
    obtain ⟨hdrop, hsame⟩ := hnewline hstream
    rw [hsame, hdrop]
    refine ⟨cmds, hb.asks, hb.cwd, hb.noNewline, ?_⟩
    exact .ended hpc hserver hnone hprinted hsent htodo (.inl rfl)
  | quitting _ _ hserver | quit _ _ hserver => exact absurd hrunning hserver
  | asking line before hwaits hserver hunread hprinted hsent hline hblank hbefore hstream =>
    rcases hbefore with rfl | rfl
    · -- the command, with its newline or without
      rw [List.nil_append] at hstream
      rw [hstream] at hwhole hframed ⊢
      obtain ⟨got, left, hrest, htake, hdrop⟩ := wholeRecv_line hline.oneLine hwhole
      have htail : got ++ left = [] ∨ got ++ left = ['\n'] := by
        rw [← hrest]
        rcases hwaits with hpc | hpc <;> simp [hpc, ClientPc.newlineSent]
      have hcmd := cmdOf_line hline htail
      rw [htake, hcmd] at hframed
      rw [htake, hdrop, ServerState.dispatch, hcmd, if_neg hblank]
      by_cases hquit : isQuit (trim line) = true
      · rw [if_pos hquit]
        refine ⟨cmds, hb.asks, hb.cwd, hb.noNewline, ?_⟩
        refine .quitting line hwaits nofun nofun ?_ hprinted hsent hquit
        simp only [State.unread, (List.append_eq_nil_iff.mp hunread).1, List.nil_append]
        rfl
      · rw [if_neg hquit]
        have hasks : Asks line := ⟨hline.oneLine, hline.noNul, hblank, by simpa using hquit⟩
        exact ⟨_, answer_between hb hwaits hserver hunread hprinted hsent hasks hrest
          (hframed hblank)⟩
    · -- the newline before it
      have hassoc : ['\n'] ++ line ++ s.client.pc.newlineSent =
          '\n' :: (line ++ s.client.pc.newlineSent) := rfl
      rw [hstream, hassoc] at hwhole ⊢
      obtain ⟨htake, hdrop⟩ := wholeRecv_newline hline.nonempty hpos hwhole
      rw [htake, hdrop, dispatch_newline]
      refine ⟨cmds, hb.asks, hb.cwd, hb.noNewline, ?_⟩
      exact .asking line [] hwaits hserver hunread hprinted hsent hline hblank (.inl rfl) rfl

end Server

section Runs

variable {root : List Char} {s t : State}

theorem step_between {cmds : List (List Char × Env)} {a : Action} (hb : Between root cmds s)
    (hg : Orderly root s a) (hsend : ∀ line ∈ s.client.todo, Sendable line)
    (h : step root s a = some t) : ∃ cmds', Between root cmds' t := by
  cases a with
  | sendCmd => exact ⟨cmds, sendCmd_between hb hg hsend h⟩
  | sendNewline => exact ⟨cmds, sendNewline_between hb h⟩
  | endOfInput => exact ⟨cmds, endOfInput_between hb h⟩
  | clientRecv n => exact ⟨cmds, clientRecv_between hb h⟩
  | clientByte => exact ⟨cmds, clientByte_between hb h⟩
  | clientClosed => exact ⟨cmds, clientClosed_between hb h⟩
  | serverRecv n env => exact serverRecv_between hb hg h
  | serverSend n => exact ⟨cmds, serverSend_between hb h⟩
  | serverDrop => exact ⟨cmds, serverDrop_between hb h⟩
  | serverClose => exact ⟨cmds, serverClose_between hb h⟩

theorem readByte_todo (c : ClientState) (ch : Char) (buf : List Char) :
    (c.readByte ch buf).todo = c.todo := by
  unfold ClientState.readByte ClientState.endLine
  split_ifs <;> rfl

/-- A line is sent or still to be sent. -/
theorem step_lines {a : Action} (h : step root s a = some t) :
    t.sent ++ t.client.todo = s.sent ++ s.client.todo := by
  cases a with
  | sendCmd =>
    simp only [step] at h
    split at h
    · cases h
    · rename_i line todo htodo
      split_ifs at h
      cases h
      simp [htodo]
  | clientByte =>
    simp only [step] at h
    split at h
    · cases h
    · split_ifs at h
      cases h
      rw [readByte_todo]
  | _ =>
    simp only [step] at h
    split_ifs at h
    cases h
    rfl

variable {fopen : List Char → Option (List Char)} {stdin : List Char}

theorem reachable_lines (h : (connection root fopen stdin).Reachable s) :
    s.sent ++ s.client.todo = sentLines fopen stdin := by
  induction h with
  | init => rfl
  | step _ _ ht ih => exact (step_lines ht).trans ih

theorem init_between (root : List Char) (todo : List (List Char)) :
    Between root [] (State.init todo) := by
  obtain ⟨htext, hincoming⟩ := greeting_incoming
  refine ⟨by simp, rfl, List.not_mem_nil, ?_⟩
  refine .reading _ ['>'] (.inr rfl) rfl htext hincoming rfl ?_ rfl (.inl rfl)
  simp [transcript, repliesTo, clientThreadReplies, State.init]

theorem reach_between (h : (connection root fopen stdin).Reach (Orderly root) s) :
    ∃ cmds, Between root cmds s := by
  induction h with
  | init => exact ⟨[], init_between root _⟩
  | @step s t a hs hg ht ih =>
    obtain ⟨cmds, hb⟩ := ih
    refine step_between hb hg ?_ ht
    intro line hline
    have hmem := List.mem_append_right s.sent hline
    rw [reachable_lines hs.reachable] at hmem
    exact sentLines_sendable hmem

end Runs

end Osisp.Lab8
