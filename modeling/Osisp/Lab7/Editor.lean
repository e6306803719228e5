import Osisp.Lib.Transition
import Osisp.Lib.Mutex
import Osisp.Lib.Cas
import Osisp.Lab7.Record

namespace Osisp.Lab7

open Osisp.Lib Osisp.Lib.Stdio

/-- Where an editor stands: between two commands, in `do_get` or in `do_put`. -/
inductive Pc where
  | command
  | getNumber
  | getRead (rn : Nat)
  | getName
  | getAddress
  | getSemester
  | putTest
  | putQuery
  | putLock
  | putReread
  | putCompare
  /-- At the `unlock_rec` after a conflict. -/
  | putConflict
  | putWrite
  /-- At the `unlock_rec` after a failed read or write. -/
  | putFail
  | putUnlock
  | putPrint
  | exited
  deriving DecidableEq, Repr

/-- A write of `do_put`: what it replaced, what it stored, what the user had entered, and the
record that the last conflict since `do_get` put in its place. -/
structure Put where
  editor : Nat
  recNo : Nat
  replaced : Record
  stored : Record
  built : Record
  conflict : Option Record
  deriving DecidableEq

/-- The globals of one process and the variable `current` of `do_put`. `last_rec_no` is -1 in
the source until the first `do_get`; it is not used before that. -/
structure Editor where
  pc : Pc
  origRec : Record
  workRec : Record
  lastRecNo : Nat
  hasWork : Bool
  current : Record
  /-- The record last fetched by `do_get`, with what the user entered. -/
  built : Record
  /-- What the last conflict since that `do_get` found on disk. -/
  conflict : Option Record
  /-- The last write of `do_put`. -/
  put : Option Put

def Editor.new : Editor where
  pc := .command
  origRec := .zero
  workRec := .zero
  lastRecNo := 0
  hasWork := false
  current := .zero
  built := .zero
  conflict := none
  put := none

/-- The data file with the holders of its record locks, and the editors. -/
structure State where
  disk : List Record
  locks : Nat → Option Nat
  editors : List Editor
  /-- The writes so far. -/
  puts : List Put
  /-- The writes that were reported as successful. -/
  updated : List Put

def State.init (disk : List Record) : State where
  disk := disk
  locks := fun _ => none
  editors := []
  puts := []
  updated := []

inductive Command where
  | get
  | put
  | exit
  /-- `do_list`, which only reads, or an unknown command. -/
  | other
  deriving DecidableEq, Repr

/-- What can happen next. An editor is started; editor `e` reads a command, a record number
(`none` where `scanf` finds none) or a line (`none` at the end of the input); or it goes on, `ok`
saying whether its next system call succeeds. -/
inductive Action where
  | start
  | command (e : Nat) (c : Command)
  | number (e : Nat) (rn : Option Int)
  | line (e : Nat) (buf : Option (List UInt8))
  | go (e : Nat) (ok : Bool)

def State.put (s : State) (e : Nat) (ed : Editor) : State :=
  { s with editors := s.editors.set e ed }

def State.setLock (s : State) (r : Nat) (holder : Option Nat) : State :=
  { s with locks := Function.update s.locks r holder }

/-- `unlock_rec`, which gives up a lock only if the caller has it. -/
def State.unlockRec (s : State) (e r : Nat) : State :=
  if s.locks r = some e then s.setLock r none else s

def commandStep (s : State) (e : Nat) (ed : Editor) (c : Command) : Option State :=
  match ed.pc with
  | .command =>
    match c with
    | .get => some (s.put e { ed with pc := .getNumber })
    | .put => some (s.put e { ed with pc := .putTest })
    | .exit => some (s.put e { ed with pc := .exited })
    | .other => some s
  | _ => none

/-- The record number of `do_get`; `record_count` is the length of the file. -/
def numberStep (s : State) (e : Nat) (ed : Editor) (rn : Option Int) : Option State :=
  match ed.pc with
  | .getNumber =>
    match rn with
    | none => some (s.put e { ed with pc := .command })
    | some rn =>
      if rn < 0 ∨ s.disk.length ≤ rn.toNat then some (s.put e { ed with pc := .command })
      else some (s.put e { ed with pc := .getRead rn.toNat })
  | _ => none

/-- One prompt of `do_get`: an empty line keeps the field, an unusable one asks again. -/
def lineStep (s : State) (e : Nat) (ed : Editor) (enter : List UInt8 → Record → Option Record)
    (next : Pc) (buf : Option (List UInt8)) : State :=
  match buf with
  | none => s.put e { ed with pc := .command }
  | some buf =>
    if buf.head? = some newline then s.put e { ed with pc := next }
    else
      match enter buf ed.workRec with
      | none => s
      | some rec => s.put e { ed with pc := next, workRec := rec, built := rec }

/-- The next step of `do_get` after the record number, and the steps of `do_put`. -/
def goStep (s : State) (e : Nat) (ed : Editor) (ok : Bool) : Option State :=
  match ed.pc with
  | .getRead rn =>
    match s.disk[rn]? with
    | none => none
    | some rec =>
      if ok then
        some (s.put e { ed with
          pc := .getName
          origRec := rec
          workRec := rec
          lastRecNo := rn
          hasWork := true
          built := rec
          conflict := none })
      else some (s.put e { ed with pc := .command })
  | .putTest =>
    if ed.hasWork = false then some (s.put e { ed with pc := .command })
    else if ed.origRec = ed.workRec then
      some (s.put e { ed with pc := .command, hasWork := false })
    else some (s.put e { ed with pc := .putQuery })
  | .putQuery =>
    if ok then some (s.put e { ed with pc := .putLock })
    else some (s.put e { ed with pc := .command })
  | .putLock =>
    if ok then
      if s.locks ed.lastRecNo = none then
        some ((s.setLock ed.lastRecNo (some e)).put e { ed with pc := .putReread })
      else none
    else some (s.put e { ed with pc := .command })
  | .putReread =>
    match s.disk[ed.lastRecNo]? with
    | none => none
    | some rec =>
      if ok then some (s.put e { ed with pc := .putCompare, current := rec })
      else some (s.put e { ed with pc := .putFail })
  | .putCompare =>
    if ed.current ≠ ed.origRec then
      some (s.put e { ed with
        pc := .putConflict
        origRec := ed.current
        workRec := ed.current
        conflict := some ed.current })
    else some (s.put e { ed with pc := .putWrite })
  | .putConflict =>
    some ((s.unlockRec e ed.lastRecNo).put e { ed with pc := .putQuery })
  | .putWrite =>
    if ok then
      let put : Put :=
        { editor := e
          recNo := ed.lastRecNo
          replaced := (s.disk[ed.lastRecNo]?).getD .zero
          stored := ed.workRec
          built := ed.built
          conflict := ed.conflict }
      some { s.put e { ed with pc := .putUnlock, put := some put } with
        disk := s.disk.set ed.lastRecNo ed.workRec
        puts := s.puts ++ [put] }
    else some (s.put e { ed with pc := .putFail })
  | .putFail => some ((s.unlockRec e ed.lastRecNo).put e { ed with pc := .command })
  | .putUnlock => some ((s.unlockRec e ed.lastRecNo).put e { ed with pc := .putPrint })
  | .putPrint =>
    some { s.put e { ed with pc := .command, hasWork := false } with
      updated := s.updated ++ ed.put.toList }
  | _ => none

/-- Any number of editors on a data file with the records `disk`. -/
def program (disk : List Record) : System State Action where
  init := .init disk
  step s
    | .start => some { s with editors := s.editors ++ [.new] }
    | .command e c => s.editors[e]?.bind fun ed => commandStep s e ed c
    | .number e rn => s.editors[e]?.bind fun ed => numberStep s e ed rn
    | .line e buf => s.editors[e]?.bind fun ed =>
      match ed.pc with
      | .getName => some (lineStep s e ed enterName .getAddress buf)
      | .getAddress => some (lineStep s e ed enterAddress .getSemester buf)
      | .getSemester => some (lineStep s e ed enterSemester .command buf)
      | _ => none
    | .go e ok => s.editors[e]?.bind fun ed => goStep s e ed ok

/-- Between `lock_rec` and `unlock_rec`. -/
def Pc.locked : Pc → Bool
  | .putReread | .putCompare | .putConflict | .putWrite | .putFail | .putUnlock => true
  | _ => false

/-- The editor has locked record `r`. -/
def Editor.holds (r : Nat) (ed : Editor) : Bool := ed.pc.locked && ed.lastRecNo == r

/-- Between a write and its report. -/
def Pc.reporting : Pc → Bool
  | .putUnlock | .putPrint => true
  | _ => false

/-- At a prompt of `do_get` for a field. -/
def Pc.entering : Pc → Bool
  | .getName | .getAddress | .getSemester => true
  | _ => false

end Osisp.Lab7
