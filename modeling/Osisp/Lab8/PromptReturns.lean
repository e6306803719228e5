import Osisp.Lab8.StopAndWait
import Osisp.Lib.Progress

namespace Osisp.Lab8

open Osisp.Lib Osisp.Lib.Stdio

/-- A step that the client and the server take without a new line. -/
def Action.own : Action → Bool
  | .sendCmd | .endOfInput => false
  | _ => true

/-- A step that brings a reply to the client. -/
def Action.delivers : Action → Bool
  | .clientRecv _ | .clientByte | .serverSend _ => true
  | _ => false

/-- No command is split or joined to the newline before it. -/
def Delivered (s : State) : Action → Prop
  | .serverRecv n _ => WholeRecv s.toServer n
  | _ => True

def ClientPc.weight : ClientPc → Nat
  | .handleServer => 1
  | .newline => 3
  | _ => 0

def ServerPc.weight : ServerPc → Nat
  | .running => 2
  | .quitting => 1
  | .closed => 0

/-- A byte of a reply is sent, received and read, a byte of a command is received. -/
def State.weight (s : State) : Nat :=
  s.client.pc.weight + s.client.buf.length + 2 * s.toClient.length + s.server.pc.weight +
    3 * s.server.pending.length + s.toServer.length

section Steps

variable {root : List Char} {s t : State}

theorem readByte_weight {c : ClientState} (hpc : c.pc = .handleServer) {ch : Char}
    {buf : List Char} (hbuf : c.buf = ch :: buf) :
    (c.readByte ch buf).pc.weight + (c.readByte ch buf).buf.length + 1 ≤
      c.pc.weight + c.buf.length := by
  unfold ClientState.readByte ClientState.endLine
  split_ifs <;> simp [hpc, hbuf, ClientPc.weight]

theorem dispatch_weight (root : List Char) (v : ServerState) (chunk : List Char) (env : Env) :
    (v.dispatch root chunk env).pc.weight ≤ v.pc.weight ∨ v.pc ≠ .running := by
  by_cases hpc : v.pc = .running
  · left
    unfold ServerState.dispatch
    simp only
    split_ifs <;> simp [hpc, ServerPc.weight]
  · exact .inr hpc

/-- Every step of their own brings the two nearer to the end, but for the replies. -/
theorem step_paid {a : Action} (ha : a.own = true) (h : step root s a = some t) :
    System.Paid State.weight State.replied 3 s t := by
  unfold System.Paid State.weight
  cases a with
  | sendCmd | endOfInput => cases ha
  | sendNewline =>
    simp only [step] at h
    split_ifs at h with hpc
    cases h
    simp only [hpc, ClientPc.weight, List.length_append, List.length_singleton]
    omega
  | clientRecv n =>
    simp only [step] at h
    split_ifs at h with hcond
    obtain ⟨-, hbuf, hpos, -, hn⟩ := hcond
    cases h
    simp only [hbuf, List.length_take, List.length_drop, List.length_nil]
    omega
  | clientByte =>
    simp only [step] at h
    split at h
    · cases h
    rename_i ch buf hbuf
    split_ifs at h with hpc
    cases h
    have hread := readByte_weight hpc hbuf
    simp only
    omega
  | clientClosed =>
    simp only [step] at h
    split_ifs at h with hcond
    cases h
    simp only [hcond.1, ClientPc.weight]
    omega
  | serverRecv n env =>
    simp only [step] at h
    split_ifs at h with hcond
    obtain ⟨hrunning, hpending, hpos, -, hn⟩ := hcond
    cases h
    have hdispatch := (dispatch_weight root s.server (s.toServer.take n) env).resolve_right
      fun hne => hne hrunning
    simp only [hpending, List.length_nil, List.length_drop]
    omega
  | serverSend n =>
    simp only [step] at h
    split_ifs at h with hcond
    cases h
    simp only [List.length_drop, List.length_append, List.length_take]
    omega
  | serverDrop =>
    simp only [step] at h
    split_ifs at h with hcond
    cases h
    have hpos := List.length_pos_of_ne_nil hcond.1
    simp only [List.length_nil]
    omega
  | serverClose =>
    simp only [step] at h
    split_ifs at h with hcond
    cases h
    have hpc : 1 ≤ s.server.pc.weight := by
      rcases hcond.2 with hpc | ⟨hpc, -⟩ <;> simp [hpc, ServerPc.weight]
    have hclosed : ServerPc.weight .closed = 0 := rfl
    simp only [hclosed]
    omega

theorem clientRecv_one (hpc : s.client.pc = .handleServer) (hbuf : s.client.buf = [])
    (hflight : s.toClient ≠ []) : (step root s (.clientRecv 1)).isSome = true := by
  have hlen := List.length_pos_of_ne_nil hflight
  simp only [step]
  rw [if_pos ⟨hpc, hbuf, by decide, by decide, hlen⟩]
  rfl

theorem clientByte_isSome (hpc : s.client.pc = .handleServer) (hbuf : s.client.buf ≠ []) :
    (step root s .clientByte).isSome = true := by
  obtain ⟨ch, buf, hcons⟩ := List.exists_cons_of_ne_nil hbuf
  simp [step, hcons, hpc]

theorem serverSend_one (hpending : s.server.pending ≠ []) :
    (step root s (.serverSend 1)).isSome = true := by
  have hlen := List.length_pos_of_ne_nil hpending
  simp only [step]
  rw [if_pos ⟨by decide, hlen⟩]
  rfl

/-- While the client has something to read, a byte of it can be brought on. -/
theorem delivers_of_unread (root : List Char) (hpc : s.client.pc = .handleServer)
    (hout : '\n' ∉ s.client.out) {l rest : List Char} (hunread : s.unread = l ++ '\n' :: rest) :
    ∃ a : Action, a.delivers = true ∧ (step root s a).isSome = true := by
  by_cases hbuf : s.client.buf = []
  · by_cases hflight : s.toClient = []
    · by_cases hpending : s.server.pending = []
      · exfalso
        apply hout
        have hall : s.client.out = l ++ '\n' :: rest := by
          simpa [State.unread, hbuf, hflight, hpending] using hunread
        rw [hall]
        simp
      · exact ⟨.serverSend 1, rfl, serverSend_one hpending⟩
    · exact ⟨.clientRecv 1, rfl, clientRecv_one hpc hbuf hflight⟩
  · exact ⟨.clientByte, rfl, clientByte_isSome hpc hbuf⟩

theorem own_of_delivers {a : Action} (h : a.delivers = true) : a.own = true := by
  cases a <;> simp_all [Action.delivers, Action.own]

theorem delivered_of_delivers {a : Action} (h : a.delivers = true) (s : State) :
    Delivered s a := by
  cases a <;> simp_all [Action.delivers, Delivered]

theorem orderly_of_delivers {a : Action} (h : a.delivers = true) (root : List Char) (s : State) :
    Orderly root s a := by
  cases a <;> simp_all [Action.delivers, Orderly]

end Steps

theorem sentLines_length {fopen : List Char → Option (List Char)} {stdin line : List Char}
    (h : line ∈ sentLines fopen stdin) : line.length < bufSize := by
  have hline : ∀ {stream buf : List Char}, buf ∈ fgetsAll bufSize stream →
      (cutNewline buf).length < bufSize := fun hbuf =>
    Nat.lt_of_le_of_lt (cutNewline_length_le _) (fgetsAll_length hbuf)
  obtain ⟨buf, hbuf, hmem⟩ := List.mem_flatMap.mp h
  dsimp only at hmem
  split_ifs at hmem
  · split at hmem
    · cases hmem
    · obtain ⟨hfile, -⟩ := List.mem_filter.mp hmem
      obtain ⟨buf', hbuf', rfl⟩ := List.mem_map.mp hfile
      exact hline hbuf'
  · cases hmem
  · rw [List.mem_singleton.mp hmem]
    exact hline hbuf

theorem sentLines_cons (fopen : List Char → Option (List Char)) {line : List Char}
    (hline : Sendable line) (hfile : line.head? ≠ some '@') (hshort : line.length + 1 < bufSize)
    (rest : List Char) : sentLines fopen (line ++ '\n' :: rest) = line :: sentLines fopen rest := by
  have hone := sentLines_line fopen hline hfile hshort
  rw [sentLines, fgetsAll_line hline.oneLine hshort, List.flatMap_singleton] at hone
  have hcons : fgetsAll bufSize (line ++ '\n' :: rest) =
      (line ++ ['\n']) :: fgetsAll bufSize rest := fgetsAll_cons hline.oneLine hshort rest
  rw [sentLines, hcons, List.flatMap_cons, hone]
  rfl

section Wait

variable {root : List Char} {s t : State} {cmds : List (List Char × Env)}

/-- A command on its way can be received whole. -/
theorem serverRecv_whole (root : List Char) {line before : List Char}
    (hrunning : s.server.pc = .running) (hpending : s.server.pending = []) (hline : Sendable line)
    (hshort : line.length < bufSize) (hbefore : before = [] ∨ before = ['\n'])
    (hstream : s.toServer = before ++ line ++ s.client.pc.newlineSent) (env : Env) :
    ∃ n, WholeRecv s.toServer n ∧ (step root s (.serverRecv n env)).isSome = true := by
  have hpos := List.length_pos_of_ne_nil hline.nonempty
  have hall : ∀ c ∈ s.client.pc.newlineSent.head?, c = '\n' := by
    cases s.client.pc <;> simp [ClientPc.newlineSent]
  rcases hbefore with rfl | rfl
  · rw [List.nil_append] at hstream
    have hroom : line.length ≤ s.toServer.length := by
      rw [hstream, List.length_append]
      omega
    refine ⟨line.length, ⟨?_, .inr ?_⟩, ?_⟩
    · rw [hstream, List.take_left']
      · exact fun hmem => hline.oneLine (List.mem_of_mem_dropLast hmem)
      · rfl
    · rw [hstream, List.drop_left']
      · exact hall
      · rfl
    · simp only [step]
      rw [if_pos ⟨hrunning, hpending, hpos, hshort, hroom⟩]
      rfl
  · refine ⟨1, ⟨?_, .inl ?_⟩, ?_⟩
    · simp [hstream]
    · simp [hstream]
    · simp only [step]
      rw [if_pos ⟨hrunning, hpending, by decide, by decide, by simp [hstream]⟩]
      rfl

/-- A client that waits does not wait for ever: one of the two can go on. -/
theorem waits_step (hb : Between root cmds s) (hwaits : s.client.pc.waits)
    (hshort : ∀ line ∈ s.sent, line.length < bufSize) (env : Env) :
    ∃ a : Action, a.own = true ∧ Delivered s a ∧ (step root s a).isSome = true := by
  by_cases hpc : s.client.pc = .newline
  · refine ⟨.sendNewline, rfl, trivial, ?_⟩
    simp [step, hpc]
  have hread := hwaits.resolve_left hpc
  have hbring : ∀ l rest, s.unread = l ++ '\n' :: rest →
      ∃ a : Action, a.own = true ∧ Delivered s a ∧ (step root s a).isSome = true := by
    intro l rest hunread
    obtain ⟨a, ha, hstep⟩ := delivers_of_unread root hread hb.noNewline hunread
    exact ⟨a, own_of_delivers ha, delivered_of_delivers ha s, hstep⟩
  cases hb.phase with
  | input hother | quit _ hother | ended hother =>
    rw [hread] at hother
    cases hother
  | asking line before _ hserver hunread _ hsent hline _ hbefore hstream =>
    have hpending := (List.append_eq_nil_iff.mp hunread).2
    have hlong : line.length < bufSize := hshort line (by simp [hsent])
    obtain ⟨n, hn, hstep⟩ := serverRecv_whole root hserver hpending hline hlong hbefore
      hstream env
    exact ⟨.serverRecv n env, rfl, hn, hstep⟩
  | reading body p _ _ hunread =>
    cases body with
    | nil => exact hbring p _ (hunread.trans (textOf_cons p []))
    | cons l body => exact hbring l _ (hunread.trans (textOf_cons l (body ++ [p])))
  | quitting _ _ _ _ hunread => exact hbring bye _ hunread

/-- A step that brings a reply changes nothing else. -/
theorem delivers_frame {a : Action} (ha : a.delivers = true) (h : step root s a = some t) :
    t.toServer = s.toServer ∧ t.sent = s.sent ∧ t.client.todo = s.client.todo ∧
      t.server.pc = s.server.pc ∧ t.replied = s.replied := by
  cases a with
  | clientRecv n | serverSend n =>
    simp only [step] at h
    split_ifs at h
    cases h
    simp
  | clientByte =>
    simp only [step] at h
    split at h
    · cases h
    · split_ifs at h
      cases h
      exact ⟨rfl, rfl, readByte_todo _ _ _, rfl, rfl⟩
  | _ => cases ha

/-- A reply is on its way to a client that reads. -/
structure Reads (root : List Char) (cmds : List (List Char × Env)) (s : State) : Prop where
  between : Between root cmds s
  pc : s.client.pc = .handleServer
  running : s.server.pc = .running
  sent : s.sent = cmds.map Prod.fst

theorem Reads.step {a : Action} (hr : Reads root cmds s) (ha : a.delivers = true)
    (h : step root s a = some t) :
    Between root cmds t ∧ (t.client.pc = .input ∨ Reads root cmds t) := by
  obtain ⟨-, hsent, -, hrunning, -⟩ := delivers_frame ha h
  have hnext : Between root cmds t → t.client.pc = .handleServer → Reads root cmds t :=
    fun hb hpc => ⟨hb, hpc, hrunning.trans hr.running, hsent.trans hr.sent⟩
  cases a with
  | clientRecv n =>
    have hb := clientRecv_between hr.between h
    refine ⟨hb, .inr (hnext hb ?_)⟩
    simp only [Lab8.step] at h
    split_ifs at h
    cases h
    exact hr.pc
  | serverSend n =>
    have hb := serverSend_between hr.between h
    refine ⟨hb, .inr (hnext hb ?_)⟩
    simp only [Lab8.step] at h
    split_ifs at h
    cases h
    exact hr.pc
  | clientByte =>
    have hb := clientByte_between hr.between h
    refine ⟨hb, ?_⟩
    simp only [Lab8.step] at h
    split at h
    · cases h
    rename_i ch buf hbuf
    rw [if_pos hr.pc] at h
    cases h
    cases hr.between.phase with
    | input hother | quit _ hother | ended hother =>
      rw [hr.pc] at hother
      cases hother
    | asking _ _ _ _ _ _ hsent' | quitting _ _ _ _ _ _ hsent' =>
      simp [hr.sent] at hsent'
    | reading body p _ hserver hunread hincoming hp hprinted hsent' hstream =>
      have hread := clientByte_reading hr.between hbuf hr.pc hserver hunread hincoming hp hprinted
        hsent' hstream
      exact hread.2.imp id (hnext hb)
  | _ => cases ha

/-- Something of the reply can be brought on. -/
theorem Reads.exists_step (hr : Reads root cmds s) :
    ∃ (a : Action) (t : State), a.delivers = true ∧ Lab8.step root s a = some t := by
  have hbring : ∀ l rest, s.unread = l ++ '\n' :: rest →
      ∃ (a : Action) (t : State), a.delivers = true ∧ Lab8.step root s a = some t := by
    intro l rest hunread
    obtain ⟨a, ha, hstep⟩ := delivers_of_unread root hr.pc hr.between.noNewline hunread
    obtain ⟨t, ht⟩ := Option.isSome_iff_exists.mp hstep
    exact ⟨a, t, ha, ht⟩
  cases hr.between.phase with
  | input hother | quit _ hother | ended hother =>
    rw [hr.pc] at hother
    cases hother
  | asking _ _ _ _ _ _ hsent | quitting _ _ _ _ _ _ hsent =>
    simp [hr.sent] at hsent
  | reading body p _ _ hunread =>
    cases body with
    | nil => exact hbring p _ (hunread.trans (textOf_cons p []))
    | cons l body => exact hbring l _ (hunread.trans (textOf_cons l (body ++ [p])))

/-- The connection from a state on. -/
def onwards (root : List Char) (s : State) : System State Action := ⟨s, Lab8.step root⟩

theorem onwards_step {s₀ : State} {good : State → Action → Prop} {a : Action}
    (hs : (onwards root s₀).Reach good s) (hg : good s a) (h : Lab8.step root s a = some t) :
    (onwards root s₀).Reach good t := @System.Reach.step _ _ _ _ s t a hs hg h

theorem onwards_trans {s₀ : State} {good : State → Action → Prop}
    (hs : (onwards root s₀).Reach good s) (ht : (onwards root s).Reach good t) :
    (onwards root s₀).Reach good t := by
  induction ht with
  | init => exact hs
  | step _ hg h ih => exact onwards_step ih hg h

/-- The reply can be brought to its end. -/
theorem Reads.drain (hr : Reads root cmds s) :
    ∃ t, (onwards root s).Reach (Orderly root) t ∧ Between root cmds t ∧ t.client.pc = .input ∧
      t.toServer = s.toServer ∧ t.sent = s.sent ∧ t.client.todo = s.client.todo := by
  induction hw : s.weight using Nat.strong_induction_on generalizing s with
  | _ w ih =>
    obtain ⟨a, t, ha, ht⟩ := hr.exists_step
    obtain ⟨hstream, hsent, htodo, -, hreplied⟩ := delivers_frame ha ht
    have hreach : (onwards root s).Reach (Orderly root) t :=
      onwards_step .init (orderly_of_delivers ha root s) ht
    obtain ⟨hb, hpc | hread⟩ := hr.step ha ht
    · exact ⟨t, hreach, hb, hpc, hstream, hsent, htodo⟩
    · have hlt : t.weight < w := by
        have hpaid := step_paid (own_of_delivers ha) ht
        rw [System.Paid, hreplied] at hpaid
        omega
      obtain ⟨u, hu, hub, hupc, hustream, husent, hutodo⟩ := ih t.weight hlt hread rfl
      exact ⟨u, onwards_trans hreach hu, hub, hupc, hustream.trans hstream, husent.trans hsent,
        hutodo.trans htodo⟩

end Wait

section Returns

variable {root : List Char} {fopen : List Char → Option (List Char)} {stdin : List Char}
  {s t : State}

/-- In an orderly run the wait for a prompt ends: the steps that the client and the server take
by themselves are bounded by what is in flight and by the bytes of the replies, and when they can
take no more of them, the client is at its prompt or has exited. -/
theorem prompt_returns (hs : (connection root fopen stdin).Reach (Orderly root) s)
    (as : List Action) (hown : ∀ a ∈ as, a.own = true)
    (halong : (connection root fopen stdin).Along (Orderly root) s as)
    (hrun : (connection root fopen stdin).run s as = some t) :
    as.length ≤ s.weight + 3 * (t.replied - s.replied) ∧
    ((∀ a : Action, a.own = true → Delivered t a → step root t a = none) →
      t.client.pc = .input ∨ t.client.pc = .exited) := by
  constructor
  · have hkeep : ∀ (u : State) (a : Action) (v : State), True → a.own = true →
        (connection root fopen stdin).step u a = some v → True := fun _ _ _ _ _ _ => trivial
    exact System.run_length_le hkeep (fun _ _ _ _ ha h => step_paid ha h) trivial as hown hrun
  · intro hstuck
    have ht := hs.of_run as halong hrun
    obtain ⟨cmds, hb⟩ := reach_between ht
    have hshort : ∀ line ∈ t.sent, line.length < bufSize := by
      intro line hline
      have hmem := List.mem_append_left t.client.todo hline
      rw [reachable_lines ht.reachable] at hmem
      exact sentLines_length hmem
    have hgo : ¬t.client.pc.waits := by
      intro hwaits
      obtain ⟨a, ha, hwhole, hstep⟩ := waits_step hb hwaits hshort emptyEnv
      rw [hstuck a ha hwhole] at hstep
      cases hstep
    cases hb.phase with
    | input hpc => exact .inl hpc
    | quit _ hpc | ended hpc => exact .inr hpc
    | asking _ _ hwaits | reading _ _ hwaits | quitting _ hwaits => exact absurd hwaits hgo

end Returns

section Lost

variable {root : List Char} {s s₀ : State} {cmds : List (List Char × Env)}

theorem serverRecv_step (root chunk rest : List Char) (hrunning : s.server.pc = .running)
    (hpending : s.server.pending = []) (hstream : s.toServer = chunk ++ rest) (hpos : chunk ≠ [])
    (hshort : chunk.length < bufSize) (env : Env) :
    step root s (.serverRecv chunk.length env) = some { s with
      server := s.server.dispatch root chunk env
      toServer := rest
      replied := s.replied + (s.server.dispatch root chunk env).pending.length } := by
  have hlen := List.length_pos_of_ne_nil hpos
  simp only [step]
  rw [if_pos ⟨hrunning, hpending, hlen, hshort, by simp [hstream]⟩, hstream, List.take_left,
    List.drop_left]

theorem blank_received {chunk rest : List Char} (hs : (onwards root s₀).Reachable s)
    (hrunning : s.server.pc = .running) (hpending : s.server.pending = [])
    (hstream : s.toServer = chunk ++ rest) (hpos : chunk ≠ []) (hshort : chunk.length < bufSize)
    (hblank : cmdOf chunk = []) : (onwards root s₀).Reachable { s with toServer := rest } := by
  have hsame : s.server.dispatch root chunk emptyEnv = s.server := by
    rw [ServerState.dispatch]
    simp [hblank]
  have hstep := serverRecv_step root chunk rest hrunning hpending hstream hpos hshort
    emptyEnv
  rw [hsame, hpending, List.length_nil, Nat.add_zero] at hstep
  exact onwards_step hs trivial hstep

theorem dispatch_asks {cmd : List Char} (hcmd : Asks cmd) (v : ServerState) (env : Env) :
    v.dispatch root cmd env =
      let cwd := nextCwd env root v.cwd (commandOf (trim cmd))
      { v with
        cwd
        pending := replyBody env root v.cwd (commandOf (trim cmd)) ++ sendPrompt cwd } := by
  have htrim : cmdOf cmd = trim cmd := cmdOf_eq_trim hcmd.oneLine hcmd.noNul
  rw [ServerState.dispatch]
  simp [htrim, hcmd.notBlank, hcmd.notQuit]

/-- The server can answer a command before it receives the newline behind it. -/
theorem answered_before_newline {first : List Char} {todo : List (List Char)} {env : Env}
    (hb : Between root cmds s) (hpc : s.client.pc = .input) (hstream : s.toServer = [])
    (htodo : s.client.todo = first :: todo)
    (hsend : ∀ line ∈ s.client.todo, Sendable line ∧ line.length < bufSize) (hasks : Asks first)
    (hframed : Framed env root s.server.cwd (commandOf (trim first))) :
    ∃ t, (onwards root s).Reach (Orderly root) t ∧ Between root (cmds ++ [(first, env)]) t ∧
      t.client.pc = .input ∧ t.toServer = ['\n'] ∧ t.sent = s.sent ++ [first] ∧
      t.client.todo = todo := by
  obtain ⟨hline, hshort⟩ := hsend first (htodo ▸ List.mem_cons_self)
  -- the first `send`
  let s₁ : State := { s with
    client := { s.client with pc := .newline, todo }
    toServer := s.toServer ++ first
    sent := s.sent ++ [first] }
  have hsend₁ : step root s .sendCmd = some s₁ := by
    simp only [step, htodo, s₁]
    rw [if_pos hpc]
  have horderly : Orderly root s .sendCmd := by
    intro line hmem
    rw [htodo] at hmem
    cases hmem
    exact hasks.notBlank
  have hb₁ : Between root cmds s₁ :=
    sendCmd_between hb horderly (fun line hmem => (hsend line hmem).1) hsend₁
  obtain ⟨hserver, hunread, hprinted, -, hsent, -⟩ := hb.at_input hpc
  have hsent₁ : s₁.sent = cmds.map Prod.fst ++ [first] := by
    simp only [s₁, hsent]
  have hpending : s.server.pending = [] := (List.append_eq_nil_iff.mp hunread).2
  -- the command without its newline
  let cwd := nextCwd env root s.server.cwd (commandOf (trim first))
  let pending := replyBody env root s.server.cwd (commandOf (trim first)) ++ sendPrompt cwd
  let s₂ : State := { s₁ with
    server := { s.server with cwd, pending }
    toServer := []
    replied := s.replied + pending.length }
  have hstream₁ : s₁.toServer = first ++ [] := by
    simp [s₁, hstream]
  have htake : s₁.toServer.take first.length = first := by
    rw [hstream₁, List.take_left]
  have hwhole : Orderly root s₁ (.serverRecv first.length env) := by
    refine ⟨⟨?_, .inr ?_⟩, ?_⟩
    · rw [htake]
      exact fun hmem => hline.oneLine (List.mem_of_mem_dropLast hmem)
    · simp [hstream₁]
    · rw [htake, cmdOf_eq_trim hasks.oneLine hasks.noNul]
      exact fun _ => hframed
  have hrecv : step root s₁ (.serverRecv first.length env) = some s₂ := by
    have hserver₁ : s₁.server.pc = .running := hserver
    rw [serverRecv_step root first [] hserver₁ hpending hstream₁ hline.nonempty hshort env,
      dispatch_asks hasks]
  have hleft : s₁.client.pc.newlineSent = [] ++ [] := rfl
  have hb₂ : Between root (cmds ++ [(first, env)]) s₂ :=
    answer_between hb₁ (.inl rfl) hserver hunread hprinted hsent₁ hasks hleft hframed
  -- the newline
  let s₃ : State := { s₂ with
    client := { s₂.client with pc := .handleServer }
    toServer := ['\n'] }
  have hnewline : step root s₂ .sendNewline = some s₃ := by
    simp only [step, s₃]
    rw [if_pos rfl]
    rfl
  have hb₃ := sendNewline_between hb₂ hnewline
  have hfree : Orderly root s₂ .sendNewline := trivial
  have hreach : (onwards root s).Reach (Orderly root) s₃ :=
    onwards_step (onwards_step (onwards_step .init horderly hsend₁) hwhole hrecv) hfree hnewline
  have hreads : Reads root (cmds ++ [(first, env)]) s₃ :=
    ⟨hb₃, rfl, hserver, by simp [s₃, s₂, hsent₁]⟩
  obtain ⟨t, ht, hbt, hpct, hstreamt, hsentt, htodot⟩ := hreads.drain
  exact ⟨t, onwards_trans hreach ht, hbt, hpct, hstreamt, hsentt, htodot⟩

theorem nothing_left (hpc : s.client.pc = .handleServer) (hbuf : s.client.buf = [])
    (hflight : s.toClient = []) (hserver : s.server.pc = .running)
    (hpending : s.server.pending = []) (hstream : s.toServer = []) (a : Action) :
    step root s a = none := by
  cases a with
  | sendCmd => cases htodo : s.client.todo <;> simp [step, hpc, htodo]
  | serverRecv n env =>
    simp only [step, hstream, List.length_nil]
    rw [if_neg]
    omega
  | _ => simp [step, *] <;> omega

/-- Behind that newline the next command is lost: its newline is received, and nothing more. -/
theorem lost_behind_newline {second : List Char} {todo : List (List Char)}
    (hb : Between root cmds s) (hpc : s.client.pc = .input) (hstream : s.toServer = ['\n'])
    (htodo : s.client.todo = second :: todo) (hshort : second.length + 1 < bufSize) :
    ∃ t, (onwards root s).Reachable t ∧ t.sent = s.sent ++ [second] ∧
      t.client.printed = s.client.printed ∧ t.client.pc = .handleServer ∧
      ∀ a, step root t a = none := by
  obtain ⟨hserver, hunread, -⟩ := hb.at_input hpc
  obtain ⟨hread, hpending⟩ := List.append_eq_nil_iff.mp hunread
  obtain ⟨hbuffered, hflight⟩ := List.append_eq_nil_iff.mp hread
  have hbuf := (List.append_eq_nil_iff.mp hbuffered).2
  -- both calls of `send`
  let s₁ : State := { s with
    client := { s.client with pc := .newline, todo }
    toServer := s.toServer ++ second
    sent := s.sent ++ [second] }
  have hsend : step root s .sendCmd = some s₁ := by
    simp only [step, htodo, s₁]
    rw [if_pos hpc]
  let s₂ : State := { s₁ with
    client := { s₁.client with pc := .handleServer }
    toServer := s₁.toServer ++ ['\n'] }
  have hnewline : step root s₁ .sendNewline = some s₂ := by
    simp only [step, s₂]
    rw [if_pos rfl]
  have hreach₂ : (onwards root s).Reachable s₂ :=
    onwards_step (onwards_step .init trivial hsend) trivial hnewline
  -- a newline with the command behind it holds no command for the server
  have hstream₂ : s₂.toServer = ('\n' :: second) ++ ['\n'] := by
    simp [s₂, s₁, hstream]
  have hnone : cmdOf ('\n' :: second) = [] := by
    have hcut := cmdOf_append (.inr ⟨second, rfl⟩) []
    rwa [List.nil_append] at hcut
  have hreach₃ := blank_received hreach₂ hserver hpending hstream₂ (List.cons_ne_nil _ _) hshort
    hnone
  have hlast : ({ s₂ with toServer := ['\n'] } : State).toServer = ['\n'] ++ [] := rfl
  have hreach₄ := blank_received hreach₃ hserver hpending hlast (by simp) (by decide) cmdOf_newline
  refine ⟨_, hreach₄, rfl, rfl, rfl, ?_⟩
  exact nothing_left rfl hbuf hflight hserver hpending rfl

end Lost

/-- The newline of a command may reach the server in front of the next command, which is lost with
it: whatever was exchanged before, the client at its prompt can send a first command that is
answered and a second one for which both wait for ever, with nothing in flight. -/
theorem command_lost {root : List Char} {fopen : List Char → Option (List Char)}
    {stdin : List Char} {s : State} (hs : (connection root fopen stdin).Reach (Orderly root) s)
    (hpc : s.client.pc = .input) {first second : List Char} {todo : List (List Char)}
    (htodo : s.client.todo = first :: second :: todo) (hasks : Asks first) {env : Env}
    (hframed : Framed env root s.server.cwd (commandOf (trim first)))
    (hshort : second.length + 1 < bufSize) :
    ∃ (cmds : List (List Char × Env)) (t : State), (onwards root s).Reachable t ∧
      s.sent = cmds.map Prod.fst ∧ t.sent = s.sent ++ [first, second] ∧
      t.client.printed = transcript root (cmds ++ [(first, env)]) ∧
      t.client.pc = .handleServer ∧ ∀ a, step root t a = none := by
  obtain ⟨cmds, hb⟩ := reach_between hs
  have hsend : ∀ line ∈ s.client.todo, Sendable line ∧ line.length < bufSize := by
    intro line hline
    have hmem := List.mem_append_right s.sent hline
    rw [reachable_lines hs.reachable] at hmem
    exact ⟨sentLines_sendable hmem, sentLines_length hmem⟩
  obtain ⟨hserver, hunread, hprinted, hprompt, hsent, hstream⟩ := hb.at_input hpc
  have hpending := (List.append_eq_nil_iff.mp hunread).2
  -- a newline that is left from before is received first
  have hclear : (onwards root s).Reachable { s with toServer := [] } := by
    rcases hstream with hnone | hnone
    · rw [← hnone]
      exact .init
    · exact blank_received .init hserver hpending hnone (by simp) (by decide) cmdOf_newline
  have hb₀ : Between root cmds { s with toServer := [] } :=
    ⟨hb.asks, hb.cwd, hb.noNewline, .input hpc hserver hunread hprinted hprompt hsent (.inl rfl)⟩
  obtain ⟨u, hu, hbu, hpcu, hstreamu, hsentu, htodou⟩ :=
    answered_before_newline hb₀ hpc rfl htodo hsend hasks hframed
  obtain ⟨t, ht, hsentt, hprintedt, hpct, hstuck⟩ :=
    lost_behind_newline hbu hpcu hstreamu htodou hshort
  refine ⟨cmds, t, onwards_trans hclear (onwards_trans hu.reachable ht), hsent, ?_, ?_, hpct,
    hstuck⟩
  · rw [hsentt, hsentu]
    simp
  · rw [hprintedt]
    exact (hbu.at_input hpcu).2.2.1

/-- Two commands of the same text. -/
def infoTwice : List Char := "INFO\nINFO\n".toList

theorem sentLines_infoTwice (fopen : List Char → Option (List Char)) :
    sentLines fopen infoTwice = ["INFO".toList, "INFO".toList] := by
  have hline : Sendable "INFO".toList := ⟨by decide, by decide, by decide⟩
  have hsplit : infoTwice = "INFO".toList ++ '\n' :: ("INFO".toList ++ ['\n']) := by decide
  rw [hsplit, sentLines_cons fopen hline (by decide) (by decide),
    sentLines_line fopen hline (by decide) (by decide)]

theorem asks_info : Asks "INFO".toList := ⟨by decide, by decide, by decide, by decide⟩

theorem framed_info (env : Env) (root : List Char) :
    Framed env root [] (commandOf (trim "INFO".toList)) := by
  have hinfo : commandOf (trim "INFO".toList) = .info := by decide
  rw [hinfo]
  have hshort : ([] : List Char).length + 1 < bufSize := by decide
  exact ⟨trivial, List.not_mem_nil, hshort⟩

theorem first_prompt (root : List Char) (fopen : List Char → Option (List Char))
    (stdin : List Char) : ∃ s, (connection root fopen stdin).Reach (Orderly root) s ∧
      Between root [] s ∧ s.client.pc = .input ∧ s.toServer = [] ∧ s.sent = [] ∧
      s.client.todo = sentLines fopen stdin := by
  have hb := init_between root (sentLines fopen stdin)
  have hreads : Reads root [] (State.init (sentLines fopen stdin)) := ⟨hb, rfl, rfl, rfl⟩
  exact hreads.drain

theorem command_lost_info : ∃ (s t : State), s.client.pc = .input ∧
    (onwards ['/'] s).Reachable t ∧ t.sent = s.sent ++ ["INFO".toList, "INFO".toList] ∧
    t.client.pc = .handleServer ∧ ∀ a, step ['/'] t a = none := by
  obtain ⟨s, hs, hb, hpc, -, -, htodo⟩ := first_prompt ['/'] (fun _ => none) infoTwice
  rw [sentLines_infoTwice] at htodo
  have hframed : Framed emptyEnv ['/'] s.server.cwd (commandOf (trim "INFO".toList)) := by
    rw [hb.cwd]
    exact framed_info emptyEnv ['/']
  obtain ⟨-, t, ht, -, hsent, -, hwait, hstuck⟩ :=
    command_lost hs hpc htodo asks_info hframed (by decide)
  exact ⟨s, t, hpc, ht, hsent, hwait, hstuck⟩

theorem prompt_returns_greeting : ∃ t, (connection ['/'] (fun _ => none) infoTwice).run
      (connection ['/'] (fun _ => none) infoTwice).init [.serverSend 1] = some t ∧
    [Action.serverSend 1].length ≤
      (connection ['/'] (fun _ => none) infoTwice).init.weight + 3 * (t.replied - greeting.length) ∧
    ((∀ a : Action, a.own = true → Delivered t a → step ['/'] t a = none) →
      t.client.pc = .input ∨ t.client.pc = .exited) := by
  refine ⟨_, rfl, ?_⟩
  refine prompt_returns .init [.serverSend 1] (by simp [Action.own]) (.of_forall ?_ _) rfl
  intro s a ha
  rw [List.mem_singleton.mp ha]
  trivial

end Osisp.Lab8
