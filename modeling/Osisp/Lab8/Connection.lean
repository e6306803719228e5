import Osisp.Lab8.Client
import Osisp.Lib.Transition

namespace Osisp.Lab8

open Osisp.Lib Osisp.Lib.Stdio

/-- Where the client is: in `handle_server`, in the loop of `main`, between the two calls of `send`
in `send_cmd`, behind `exit` or the loop, or behind the end of `out` in `read_line`. -/
inductive ClientPc where
  | handleServer
  | input
  | newline
  | exited
  | overflow
  deriving DecidableEq

/-- `buf` is the part of the static buffer of `read_line` that is not read, `out` the line so far,
and `todo` holds the lines for which `main` will call `send_cmd`. -/
structure ClientState where
  pc : ClientPc
  buf : List Char
  out : List Char
  prompt : Option (List Char)
  printed : List (List Char)
  todo : List (List Char)

/-- The thread is in its loop, or behind it with `fd` open, or with `fd` closed. -/
inductive ServerPc where
  | running
  | quitting
  | closed
  deriving DecidableEq

/-- `pending` is what `sendall` has still to send. -/
structure ServerState where
  pc : ServerPc
  cwd : List Char
  pending : List Char

/-- `sent` are the lines for which `send_cmd` was called, `replied` is the number of bytes in the
replies so far. -/
structure State where
  client : ClientState
  server : ServerState
  toServer : List Char
  toClient : List Char
  sent : List (List Char)
  replied : Nat

inductive Action where
  /-- `fgets` returns the next line, and the first `send` of `send_cmd` sends it. -/
  | sendCmd
  /-- The second `send` of `send_cmd`. -/
  | sendNewline
  /-- `fgets` returns `NULL`. -/
  | endOfInput
  /-- `recv` in `read_line` returns `n` bytes. -/
  | clientRecv (n : Nat)
  /-- `read_line` takes a byte out of its buffer. -/
  | clientByte
  /-- `recv` in `read_line` returns 0. -/
  | clientClosed
  /-- `recv` in `client_thread` returns `n` bytes. -/
  | serverRecv (n : Nat) (env : Env)
  /-- `send` in `sendall` sends `n` bytes. -/
  | serverSend (n : Nat)
  /-- `send` in `sendall` fails. -/
  | serverDrop
  /-- The loop ends with `QUIT` or with a `recv` that returns 0. -/
  | serverClose

/-- The body of the loop of `handle_server`. -/
def ClientState.endLine (c : ClientState) (line : List Char) : ClientState :=
  if isPrompt line then { c with pc := .input, prompt := some line }
  else if line = bye then { c with pc := .exited, printed := c.printed ++ [line] }
  else { c with printed := c.printed ++ [line] }

/-- The body of the loop of `read_line` for the byte `ch`. -/
def ClientState.readByte (c : ClientState) (ch : Char) (buf : List Char) : ClientState :=
  if bufSize ≤ c.out.length then { c with pc := .overflow }
  else if ch = '\n' then { c with buf, out := [] }.endLine (cString c.out)
  else { c with buf, out := c.out ++ [ch] }

/-- The body of the loop of `client_thread` for what `recv` returned. -/
def ServerState.dispatch (root : List Char) (v : ServerState) (chunk : List Char) (env : Env) :
    ServerState :=
  let cmd := cmdOf chunk
  if cmd = [] then v
  else if isQuit cmd then { v with pc := .quitting, pending := replyBody env root v.cwd .quit }
  else
    let cwd := nextCwd env root v.cwd (commandOf cmd)
    { v with cwd, pending := replyBody env root v.cwd (commandOf cmd) ++ sendPrompt cwd }

def step (root : List Char) (s : State) : Action → Option State
  | .sendCmd =>
    match s.client.todo with
    | [] => none
    | line :: todo =>
      if s.client.pc = .input then
        some { s with
          client := { s.client with pc := .newline, todo }
          toServer := s.toServer ++ line
          sent := s.sent ++ [line] }
      else none
  | .sendNewline =>
    if s.client.pc = .newline then
      some { s with
        client := { s.client with pc := .handleServer }
        toServer := s.toServer ++ ['\n'] }
    else none
  | .endOfInput =>
    if s.client.pc = .input ∧ s.client.todo = [] then
      some { s with client := { s.client with pc := .exited } }
    else none
  | .clientRecv n =>
    if s.client.pc = .handleServer ∧ s.client.buf = [] ∧ 0 < n ∧ n ≤ bufSize ∧
        n ≤ s.toClient.length then
      some { s with
        client := { s.client with buf := s.toClient.take n }
        toClient := s.toClient.drop n }
    else none
  | .clientByte =>
    match s.client.buf with
    | [] => none
    | ch :: buf =>
      if s.client.pc = .handleServer then some { s with client := s.client.readByte ch buf }
      else none
  | .clientClosed =>
    if s.client.pc = .handleServer ∧ s.client.buf = [] ∧ s.toClient = [] ∧
        s.server.pc = .closed then
      some { s with client := { s.client with pc := .input, out := [] } }
    else none
  | .serverRecv n env =>
    if s.server.pc = .running ∧ s.server.pending = [] ∧ 0 < n ∧ n < bufSize ∧
        n ≤ s.toServer.length then
      let server := s.server.dispatch root (s.toServer.take n) env
      some { s with
        server
        toServer := s.toServer.drop n
        replied := s.replied + server.pending.length }
    else none
  | .serverSend n =>
    if 0 < n ∧ n ≤ s.server.pending.length then
      some { s with
        server := { s.server with pending := s.server.pending.drop n }
        toClient := s.toClient ++ s.server.pending.take n }
    else none
  | .serverDrop =>
    if s.server.pending ≠ [] ∧ s.client.pc = .exited then
      some { s with server := { s.server with pending := [] } }
    else none
  | .serverClose =>
    if s.server.pending = [] ∧ (s.server.pc = .quitting ∨
        s.server.pc = .running ∧ s.toServer = [] ∧ s.client.pc = .exited) then
      some { s with server := { s.server with pc := .closed } }
    else none

/-- The connection after `connect` and `accept`. -/
def State.init (todo : List (List Char)) : State where
  client := ⟨.handleServer, [], [], none, [], todo⟩
  server := ⟨.running, [], greeting⟩
  toServer := []
  toClient := []
  sent := []
  replied := greeting.length

/-- The connection of a client that reads `stdin` to a server for the directory `root`. -/
def connection (root : List Char) (fopen : List Char → Option (List Char)) (stdin : List Char) :
    System State Action :=
  ⟨State.init (sentLines fopen stdin), step root⟩

end Osisp.Lab8
