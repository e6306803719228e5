import Osisp.Lab7.Prompts
import Osisp.Lab7.SystemCalls

namespace Osisp.Lab7

open Osisp.Lib Osisp.Lib.Stdio

/-- `scanf(" %c", &cmd)`: the command and the input behind it. -/
def scanChar (input : List UInt8) : Option (UInt8 × List UInt8) :=
  match input.dropWhile isSpace with
  | [] => none
  | c :: rest => some (c, rest)

/-- `scanf("%d", &rn)`: the number, if there is one, and the input behind what it has read. It is
converted to a `long` and stored in an `int`. -/
def scanInt (input : List UInt8) : Option Int × List UInt8 :=
  let (negative, t) := sign (input.dropWhile isSpace)
  let digits := t.takeWhile isDigit
  if digits = [] then (none, t)
  else
    let value := clampLong (if negative then -digitsValue digits else digitsValue digits)
    (some (value.bmod (2 ^ 32)), t.dropWhile isDigit)

/-- What comes behind a `while (getchar() != '\n');`. -/
inductive Next where
  | dispatch (cmd : UInt8)
  | prompts
  | select
  deriving DecidableEq

/-- Where the process reads, or is about to go through the loop of `do_put` again. -/
inductive Point where
  | select
  | skip (next : Next)
  | number
  | field (p : Prompt)
  | put
  | exited
  deriving DecidableEq

structure Loop where
  pc : Point
  session : Session
  input : List UInt8

/-- How the system calls go in the step that is next: those of `do_get` and those of `do_put`. -/
structure Outcome where
  seek : Bool
  read : Transfer
  calls : Calls

/-- The `switch` of `main`, and the tests of `do_put` before its loop. `do_list` only reads. -/
def Session.dispatch (s : Session) (cmd : UInt8) : Point × Session :=
  if cmd = 76 ∨ cmd = 108 then (.select, s)
  else if cmd = 71 ∨ cmd = 103 then (.number, s)
  else if cmd = 80 ∨ cmd = 112 then
    if s.hasWork = false then (.select, s)
    else if s.origRec = s.workRec then (.select, { s with hasWork := false })
    else (.put, s)
  else if cmd = 69 ∨ cmd = 101 then (.exited, s)
  else (.select, s)

def Next.go (s : Session) : Next → Point × Session
  | .dispatch cmd => s.dispatch cmd
  | .prompts => (.field .name, s)
  | .select => (.select, s)

/-- Where an end of `do_get` before its prompts leads. -/
def GetEnd.next : GetEnd → Point
  | .invalidInput => .skip .select
  | .readError => .select
  | .fetched => .skip .prompts

def fieldAt : Option Prompt → Point
  | some p => .field p
  | none => .select

/-- One step of the process. `getchar` returns `EOF` again and again at the end of the input. -/
def Loop.step (o : Outcome) (l : Loop) : Loop :=
  match l.pc with
  | .select =>
    match scanChar l.input with
    | none => { l with pc := .exited, input := [] }
    | some (cmd, rest) => { l with pc := .skip (.dispatch cmd), input := rest }
  | .skip next =>
    match l.input with
    | [] => l
    | c :: rest =>
      if c = newline then
        let (pc, s) := next.go l.session
        ⟨pc, s, rest⟩
      else { l with input := rest }
  | .number =>
    let (number, rest) := scanInt l.input
    let (last, s) := fetch l.session number o.seek o.read
    ⟨last.next, s, rest⟩
  | .field p =>
    if l.input = [] then { l with pc := .select }
    else
      let buf := fgets addrLen l.input
      let (p', work) := (answer p l.session.workRec buf).next p l.session.workRec
      ⟨fieldAt p', { l.session with workRec := work }, l.input.drop buf.length⟩
  | .put =>
    match putRound l.session o.calls with
    | .again s => { l with session := s }
    | .ended _ s => { l with pc := .select, session := s }
  | .exited => l

def Loop.run (outcomes : Nat → Outcome) (l : Loop) : Nat → Loop
  | 0 => l
  | n + 1 => ((l.run outcomes n).step (outcomes n))

/-- `main` before its loop, with the records of the file. -/
def Loop.start (disk : List Record) (input : List UInt8) : Loop :=
  ⟨.select, ⟨.zero, .zero, 0, false, disk, fun _ => false⟩, input⟩

/-- The steps that a process can make without a byte of the input. -/
def Loop.rank (l : Loop) : Nat :=
  match l.pc with
  | .exited => 0
  | .select => 1
  | .put => if l.session.onDisk = l.session.origRec then 2 else 3
  | .field _ => 4
  | .skip _ => 5
  | .number => 6

def Loop.measure (l : Loop) : Nat := 8 * l.input.length + l.rank

theorem Loop.rank_le (l : Loop) : l.rank ≤ 6 := by
  unfold Loop.rank
  split <;> try omega
  split <;> omega

theorem Loop.measure_lt {l l' : Loop} (h : l'.input.length < l.input.length) :
    l'.measure < l.measure := by
  have hrank := l'.rank_le
  unfold Loop.measure
  omega

theorem Loop.measure_lt_of_rank {l l' : Loop} (h : l'.input.length ≤ l.input.length)
    (hrank : l'.rank < l.rank) : l'.measure < l.measure := by
  unfold Loop.measure
  omega

theorem scanChar_length {input rest : List UInt8} {cmd : UInt8}
    (h : scanChar input = some (cmd, rest)) : rest.length < input.length := by
  unfold scanChar at h
  split at h
  · cases h
  · rename_i c rest' hdrop
    cases h
    have hle := (List.dropWhile_sublist isSpace (l := input)).length_le
    rw [hdrop, List.length_cons] at hle
    omega

theorem scanInt_length (input : List UInt8) : (scanInt input).2.length ≤ input.length := by
  have hsign : (sign (input.dropWhile isSpace)).2.length ≤ input.length :=
    ((sign_suffix _).trans (List.dropWhile_suffix _)).length_le
  unfold scanInt
  dsimp only
  split
  · exact hsign
  · exact (List.dropWhile_sublist _).length_le.trans hsign

/-- Only a conflict brings another round, and the next one finds the record it has fetched. -/
theorem putRound_eq_again {s s' : Session} {c : Calls} (h : putRound s c = .again s') :
    s.onDisk ≠ s.origRec ∧ s'.onDisk = s'.origRec := by
  unfold putRound at h
  split at h
  · cases h
  split at h
  · cases h
  dsimp only at h
  split at h
  · cases h
  split at h
  · rename_i hconflict
    cases h
    refine ⟨hconflict, ?_⟩
    cases c.unlock with
    | _ => rfl
  split at h
  · cases h
  split at h
  · cases h
  · split at h
    · cases h
    · cases h

/-- Every step makes something less, but for `getchar` at the end of the input. -/
theorem Loop.step_measure {l : Loop} (hpc : l.pc ≠ .exited)
    (hskip : ∀ next, l.pc = .skip next → l.input ≠ []) (o : Outcome) :
    (l.step o).measure < l.measure := by
  obtain ⟨pc, s, input⟩ := l
  cases pc with
  | exited => exact absurd rfl hpc
  | select =>
    unfold Loop.step
    dsimp only
    split
    · apply Loop.measure_lt_of_rank
      · exact Nat.zero_le _
      · exact Nat.zero_lt_one
    · rename_i cmd rest hscan
      exact Loop.measure_lt (scanChar_length hscan)
  | skip next =>
    unfold Loop.step
    dsimp only
    obtain ⟨c, rest, rfl⟩ := List.exists_cons_of_ne_nil (hskip next rfl)
    dsimp only
    split
    · exact Loop.measure_lt (Nat.lt_succ_self _)
    · exact Loop.measure_lt (Nat.lt_succ_self _)
  | number =>
    have hrank : ∀ (last : GetEnd) (s : Session) (rest : List UInt8),
        Loop.rank ⟨last.next, s, rest⟩ < 6 := by
      intro last s rest
      cases last with
      | readError => exact Nat.lt_of_sub_eq_succ rfl
      | _ => exact Nat.lt_succ_self 5
    exact Loop.measure_lt_of_rank (scanInt_length input) (hrank _ _ _)
  | field p =>
    unfold Loop.step
    dsimp only
    split
    · apply Loop.measure_lt_of_rank
      · exact Nat.le_refl _
      · show 1 < 4
        omega
    · rename_i hinput
      exact Loop.measure_lt (length_drop_lt hinput (fgets_length_pos (by decide) hinput))
  | put =>
    unfold Loop.step
    dsimp only
    split
    · rename_i s' hround
      obtain ⟨hconflict, hsame⟩ := putRound_eq_again hround
      apply Loop.measure_lt_of_rank
      · exact Nat.le_refl _
      · show (if s'.onDisk = s'.origRec then 2 else 3) < if s.onDisk = s.origRec then 2 else 3
        rw [if_pos hsame, if_neg hconflict]
        omega
    · apply Loop.measure_lt_of_rank
      · exact Nat.le_refl _
      · show 1 < if s.onDisk = s.origRec then 2 else 3
        split <;> omega

theorem Loop.step_exited {l : Loop} (h : l.pc = .exited) (o : Outcome) : l.step o = l := by
  obtain ⟨pc, s, input⟩ := l
  obtain rfl : pc = .exited := h
  rfl

theorem Loop.run_exited {outcomes : Nat → Outcome} {l : Loop} {n : Nat}
    (h : (l.run outcomes n).pc = .exited) {m : Nat} (hm : n ≤ m) :
    (l.run outcomes m).pc = .exited := by
  induction m, hm using Nat.le_induction with
  | base => exact h
  | succ m _ ih => rw [Loop.run, Loop.step_exited ih, ih]

theorem Loop.step_stuck {l : Loop} {next : Next} (hpc : l.pc = .skip next)
    (hinput : newline ∉ l.input) (o : Outcome) :
    (l.step o).pc = .skip next ∧ newline ∉ (l.step o).input := by
  obtain ⟨pc, s, input⟩ := l
  obtain rfl : pc = .skip next := hpc
  cases input with
  | nil => exact ⟨rfl, hinput⟩
  | cons c rest =>
    obtain ⟨hc, hrest⟩ := not_or.mp (List.mem_cons.not.mp hinput)
    have hstep : (⟨.skip next, s, c :: rest⟩ : Loop).step o = ⟨.skip next, s, rest⟩ :=
      if_neg (Ne.symm hc)
    rw [hstep]
    exact ⟨rfl, hrest⟩

theorem Loop.run_stuck {outcomes : Nat → Outcome} {l : Loop} {next : Next} {n : Nat}
    (hpc : (l.run outcomes n).pc = .skip next) (hinput : newline ∉ (l.run outcomes n).input)
    {m : Nat} (hm : n ≤ m) :
    (l.run outcomes m).pc = .skip next ∧ newline ∉ (l.run outcomes m).input := by
  induction m, hm using Nat.le_induction with
  | base => exact ⟨hpc, hinput⟩
  | succ m _ ih => exact Loop.step_stuck ih.1 ih.2 _

/-- A run that is long enough has come to its end, if no state of it waits for a newline in vain. -/
theorem Loop.run_ends (outcomes : Nat → Outcome) (l : Loop)
    (h : ∀ n next, (l.run outcomes n).pc = .skip next → newline ∈ (l.run outcomes n).input) :
    ∃ n, (l.run outcomes n).pc = .exited := by
  by_contra hnever
  have hbound : ∀ n, (l.run outcomes n).measure + n ≤ l.measure := by
    intro n
    induction n with
    | zero => exact Nat.le_refl _
    | succ n ih =>
      have hless := Loop.step_measure (fun hpc => hnever ⟨n, hpc⟩)
        (fun next hpc => List.ne_nil_of_mem (h n next hpc)) (outcomes n)
      rw [Loop.run]
      omega
  have hend := hbound (l.measure + 1)
  omega

theorem Loop.run_succ (outcomes : Nat → Outcome) (l : Loop) (n : Nat) :
    l.run outcomes (n + 1) = (l.step (outcomes 0)).run (fun k => outcomes (k + 1)) n := by
  induction n with
  | zero => rfl
  | succ n ih =>
    have hlast :
        l.run outcomes (n + 1 + 1) = (l.run outcomes (n + 1)).step (outcomes (n + 1)) := rfl
    rw [hlast, ih]
    rfl

/-- The prompts of `do_get` in the process are its three loops on the input. -/
theorem Loop.run_fields (outcomes : Nat → Outcome) (p : Option Prompt) (s : Session)
    (input : List UInt8) : ∃ n, (⟨fieldAt p, s, input⟩ : Loop).run outcomes n =
      ⟨.select, { s with workRec := (enterFields p s.workRec input).work },
        (enterFields p s.workRec input).rest⟩ := by
  induction hn : input.length using Nat.strong_induction_on generalizing p s input outcomes with
  | _ n ih =>
    cases p with
    | none =>
      rw [enterFields]
      exact ⟨0, rfl⟩
    | some p =>
      by_cases hinput : input = []
      · rw [enterFields, dif_pos hinput]
        refine ⟨1, ?_⟩
        rw [Loop.run, Loop.run, hinput]
        rfl
      · have hlen := length_drop_lt hinput (fgets_length_pos (by decide : 1 < addrLen) hinput)
        let turn := (answer p s.workRec (fgets addrLen input)).next p s.workRec
        obtain ⟨k, hk⟩ := ih _ (hn ▸ hlen) (fun k => outcomes (k + 1)) turn.1
          { s with workRec := turn.2 } _ rfl
        refine ⟨k + 1, ?_⟩
        have hstep : (⟨fieldAt (some p), s, input⟩ : Loop).step (outcomes 0) =
            ⟨fieldAt turn.1, { s with workRec := turn.2 },
              input.drop (fgets addrLen input).length⟩ := if_neg hinput
        rw [Loop.run_succ, hstep, hk, enterFields, dif_neg hinput]
        rfl

/-- The command loop ends on an input exactly if a newline is still to come whenever the process
is in one of the loops that skip the rest of a line. -/
theorem command_loop_ends_iff (disk : List Record) (input : List UInt8)
    (outcomes : Nat → Outcome) :
    (∃ n, ((Loop.start disk input).run outcomes n).pc = .exited) ↔
      ∀ n next, ((Loop.start disk input).run outcomes n).pc = .skip next →
        newline ∈ ((Loop.start disk input).run outcomes n).input := by
  constructor
  · rintro ⟨m, hm⟩ n next hpc
    by_contra hinput
    rcases Nat.le_total n m with hle | hle
    · cases (Loop.run_stuck hpc hinput hle).1.symm.trans hm
    · cases hpc.symm.trans (Loop.run_exited hm hle)
  · exact Loop.run_ends outcomes _

/-- An `E` without a newline behind it. -/
theorem exit_without_newline :
    ¬∀ (disk : List Record) (input : List UInt8) (outcomes : Nat → Outcome),
      ∃ n, ((Loop.start disk input).run outcomes n).pc = .exited := by
  intro h
  let outcome : Outcome :=
    ⟨true, .moved recordSize, ⟨true, true, true, .failed, true, .failed, true⟩⟩
  obtain ⟨m, hm⟩ := h [] [69] fun _ => outcome
  have hone : (Loop.start [] [69]).run (fun _ => outcome) 1 =
      ⟨.skip (.dispatch 69), (Loop.start [] [69]).session, []⟩ := rfl
  rcases Nat.le_total 1 m with hle | hle
  · have hstuck := Loop.run_stuck (congrArg Loop.pc hone)
      (congrArg Loop.input hone ▸ List.not_mem_nil) hle
    cases hstuck.1.symm.trans hm
  · cases (congrArg Loop.pc hone).symm.trans (Loop.run_exited hm hle)

end Osisp.Lab7
