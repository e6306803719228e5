import Osisp.Lab8.Reply

namespace Osisp.Lab8

open Osisp.Lib Osisp.Lib.Stdio

/-- What the client has to read: the rest of `buf` in `read_line`, and the chunks that its `recv`
will return. -/
structure Input where
  buf : List Char
  chunks : List (List Char)

def Input.rest (input : Input) : List Char := input.buf ++ input.chunks.flatten

/-- Every `recv` returns something. -/
def Input.Flowing (input : Input) : Prop := ∀ chunk ∈ input.chunks, chunk ≠ []

/-- What `read_line` comes to: a line and the input behind it, the end of the connection, or a
write behind the end of `out`. -/
inductive LineRead where
  | line (text : List Char) (next : Input)
  | closed
  | overflow

/-- Copies the buffer to `out` up to a newline; with it, the rest of the buffer. -/
def copyToNewline (out : List Char) : List Char → List Char × Option (List Char)
  | [] => (out, none)
  | c :: buf => if c = '\n' then (out, some buf) else copyToNewline (out ++ [c]) buf

/-- The loop of `read_line`. The line and its terminating NUL have `BUF_SIZE` bytes. -/
def readLine (out buf : List Char) (chunks : List (List Char)) : LineRead :=
  match copyToNewline out buf with
  | (out, some buf) => if bufSize ≤ out.length then .overflow else .line (cString out) ⟨buf, chunks⟩
  | (out, none) =>
    if bufSize < out.length then .overflow
    else
      match chunks with
      | [] => .closed
      | chunk :: chunks => if chunk = [] then .closed else readLine out chunk chunks

def isPrompt (s : List Char) : Bool := s.getLast? = some '>'

def bye : List Char := ['B', 'Y', 'E']

/-- How a call of `handle_server` ends: at a prompt, by `exit(0)`, with the connection, or in an
overflow. -/
inductive Outcome where
  | prompt
  | exited
  | closed
  | overflow
  deriving DecidableEq

theorem copyToNewline_line {l : List Char} (hl : '\n' ∉ l) (out more : List Char) :
    copyToNewline out (l ++ '\n' :: more) = (out ++ l, some more) := by
  induction l generalizing out with
  | nil => simp [copyToNewline]
  | cons c l ih =>
    rw [List.mem_cons, not_or] at hl
    rw [List.cons_append, copyToNewline, if_neg (Ne.symm hl.1), ih hl.2, List.append_assoc]
    rfl

theorem copyToNewline_part {l : List Char} (hl : '\n' ∉ l) (out : List Char) :
    copyToNewline out l = (out ++ l, none) := by
  induction l generalizing out with
  | nil => simp [copyToNewline]
  | cons c l ih =>
    rw [List.mem_cons, not_or] at hl
    rw [copyToNewline, if_neg (Ne.symm hl.1), ih hl.2, List.append_assoc]
    rfl

theorem readLine_line {l : List Char} (hl : '\n' ∉ l) (out more : List Char)
    (chunks : List (List Char)) : readLine out (l ++ '\n' :: more) chunks =
      if bufSize ≤ (out ++ l).length then .overflow
      else .line (cString (out ++ l)) ⟨more, chunks⟩ := by
  unfold readLine
  rw [copyToNewline_line hl]

theorem readLine_part {l : List Char} (hl : '\n' ∉ l) (out chunk : List Char)
    (chunks : List (List Char)) (hchunk : chunk ≠ []) : readLine out l (chunk :: chunks) =
      if bufSize < (out ++ l).length then .overflow else readLine (out ++ l) chunk chunks := by
  rw [readLine, copyToNewline_part hl]
  simp only [if_neg hchunk]

theorem readLine_rest_line {out buf text : List Char} {chunks : List (List Char)} {next : Input}
    (hbuf : '\n' ∈ buf) (h : readLine out buf chunks = .line text next) :
    next.rest.length < (buf ++ chunks.flatten).length := by
  obtain ⟨l, more, rfl, hl⟩ := List.eq_append_cons_of_mem hbuf
  rw [readLine_line hl] at h
  split at h
  · cases h
  · cases h
    show (more ++ chunks.flatten).length < (l ++ '\n' :: more ++ chunks.flatten).length
    simp only [List.length_append, List.length_cons]
    omega

/-- A line that is read is taken from the input. -/
theorem readLine_rest {out buf text : List Char} {chunks : List (List Char)} {next : Input}
    (h : readLine out buf chunks = .line text next) :
    next.rest.length < (buf ++ chunks.flatten).length := by
  induction chunks generalizing out buf with
  | nil =>
    by_cases hbuf : '\n' ∈ buf
    · exact readLine_rest_line hbuf h
    · unfold readLine at h
      rw [copyToNewline_part hbuf] at h
      simp only at h
      split at h <;> cases h
  | cons chunk chunks ih =>
    by_cases hbuf : '\n' ∈ buf
    · exact readLine_rest_line hbuf h
    by_cases hchunk : chunk = []
    · unfold readLine at h
      rw [copyToNewline_part hbuf] at h
      simp only [if_pos hchunk] at h
      split at h <;> cases h
    · rw [readLine_part hbuf _ _ _ hchunk] at h
      split at h
      · cases h
      · have hlt := ih h
        rw [List.flatten_cons, List.length_append]
        omega

/-- `handle_server`: the lines it reads, how it ends, and the input behind them. -/
def handleServer (input : Input) : List (List Char) × Outcome × Input :=
  match _ : readLine [] input.buf input.chunks with
  | .closed => ([], .closed, ⟨[], []⟩)
  | .overflow => ([], .overflow, ⟨[], []⟩)
  | .line line next =>
    if isPrompt line then ([line], .prompt, next)
    else if line = bye then ([line], .exited, next)
    else
      let (lines, outcome, last) := handleServer next
      (line :: lines, outcome, last)
termination_by input.rest.length
decreasing_by exact readLine_rest ‹_›

/-- The calls of `handle_server` in `main`, as long as there is a client. -/
def session : Nat → Input → List (List (List Char) × Outcome)
  | 0, _ => []
  | calls + 1, input =>
    let (lines, outcome, next) := handleServer input
    (lines, outcome) ::
      if outcome = .prompt ∨ outcome = .closed then session calls next else []

/-- `handle_server` on lines. -/
def frame : List (List Char) → List (List Char) × Outcome × List (List Char)
  | [] => ([], .closed, [])
  | l :: ls =>
    if bufSize ≤ l.length then ([], .overflow, [])
    else if isPrompt l then ([l], .prompt, ls)
    else if l = bye then ([l], .exited, ls)
    else
      let (lines, outcome, last) := frame ls
      (l :: lines, outcome, last)

/-- The calls of `handle_server` on lines. -/
def frames : Nat → List (List Char) → List (List (List Char) × Outcome)
  | 0, _ => []
  | calls + 1, ls =>
    let (lines, outcome, next) := frame ls
    (lines, outcome) :: if outcome = .prompt ∨ outcome = .closed then frames calls next else []

theorem line_unique {l l' more more' : List Char} (hl : '\n' ∉ l) (hl' : '\n' ∉ l')
    (h : l ++ '\n' :: more = l' ++ '\n' :: more') : l = l' ∧ more = more' := by
  induction l generalizing l' with
  | nil =>
    cases l' with
    | nil => exact ⟨rfl, (List.cons.inj h).2⟩
    | cons c l' =>
      rw [List.mem_cons, not_or] at hl'
      exact absurd (List.cons.inj h).1 hl'.1
  | cons c l ih =>
    rw [List.mem_cons, not_or] at hl
    cases l' with
    | nil => exact absurd (List.cons.inj h).1.symm hl.1
    | cons c' l' =>
      rw [List.mem_cons, not_or] at hl'
      obtain ⟨rfl, hrest⟩ := List.cons.inj h
      obtain ⟨rfl, hmore⟩ := ih hl.2 hl'.2 hrest
      exact ⟨rfl, hmore⟩

theorem line_beyond {l more buf rest : List Char} (hbuf : '\n' ∉ buf)
    (h : buf ++ rest = l ++ '\n' :: more) : ∃ l', l = buf ++ l' ∧ rest = l' ++ '\n' :: more := by
  rcases List.append_eq_append_iff.mp h with ⟨l', hl, hrest⟩ | ⟨t, hb, hrest⟩
  · exact ⟨l', hl, hrest⟩
  · cases t with
    | nil => exact ⟨[], by simpa using hb.symm, hrest.symm⟩
    | cons c t =>
      obtain ⟨rfl, -⟩ := List.cons.inj hrest
      rw [hb] at hbuf
      exact absurd (by simp) hbuf

/-- The next line is read, however the input arrives in chunks. -/
theorem readLine_spec {l more buf : List Char} {chunks : List (List Char)} (hl : '\n' ∉ l)
    (hflow : ∀ chunk ∈ chunks, chunk ≠ []) (out : List Char)
    (hrest : buf ++ chunks.flatten = l ++ '\n' :: more) :
    (bufSize ≤ (out ++ l).length ∧ readLine out buf chunks = .overflow) ∨
    ((out ++ l).length < bufSize ∧ ∃ next : Input, next.Flowing ∧ next.rest = more ∧
      readLine out buf chunks = .line (cString (out ++ l)) next) := by
  induction chunks generalizing out buf l with
  | nil =>
    rw [List.flatten_nil, List.append_nil] at hrest
    rw [hrest, readLine_line hl]
    by_cases hlong : bufSize ≤ (out ++ l).length
    · exact .inl ⟨hlong, if_pos hlong⟩
    · refine .inr ⟨Nat.lt_of_not_le hlong, ⟨more, []⟩, hflow, ?_, if_neg hlong⟩
      exact List.append_nil more
  | cons chunk chunks ih =>
    by_cases hbuf : '\n' ∈ buf
    · obtain ⟨l', more', rfl, hl'⟩ := List.eq_append_cons_of_mem hbuf
      rw [List.append_assoc, List.cons_append] at hrest
      obtain ⟨rfl, rfl⟩ := line_unique hl' hl hrest
      rw [readLine_line hl]
      by_cases hlong : bufSize ≤ (out ++ l').length
      · exact .inl ⟨hlong, if_pos hlong⟩
      · exact .inr ⟨Nat.lt_of_not_le hlong, ⟨more', chunk :: chunks⟩, hflow, rfl, if_neg hlong⟩
    · -- the line goes on in the next chunk
      obtain ⟨l', rfl, hnext⟩ := line_beyond hbuf hrest
      rw [List.flatten_cons] at hnext
      rw [List.mem_append, not_or] at hl
      rw [readLine_part hbuf _ _ _ (hflow chunk List.mem_cons_self), ← List.append_assoc]
      by_cases hlong : bufSize < (out ++ buf).length
      · rw [if_pos hlong]
        refine .inl ⟨?_, rfl⟩
        rw [List.length_append]
        omega
      · rw [if_neg hlong]
        exact ih hl.2 (fun c hc => hflow c (List.mem_cons_of_mem _ hc)) (out ++ buf) hnext

theorem handleServer_closed {input : Input}
    (h : readLine [] input.buf input.chunks = .closed) :
    handleServer input = ([], .closed, ⟨[], []⟩) := by
  rw [handleServer]
  split
  · rfl
  · rename_i hread
    cases h.symm.trans hread
  · rename_i hread
    cases h.symm.trans hread

theorem handleServer_overflow {input : Input}
    (h : readLine [] input.buf input.chunks = .overflow) :
    handleServer input = ([], .overflow, ⟨[], []⟩) := by
  rw [handleServer]
  split
  · rename_i hread
    cases h.symm.trans hread
  · rfl
  · rename_i hread
    cases h.symm.trans hread

theorem handleServer_line {input next : Input} {l : List Char}
    (h : readLine [] input.buf input.chunks = .line l next) :
    handleServer input =
      if isPrompt l then ([l], .prompt, next)
      else if l = bye then ([l], .exited, next)
      else (l :: (handleServer next).1, (handleServer next).2.1, (handleServer next).2.2) := by
  rw [handleServer]
  split
  · rename_i hread
    cases h.symm.trans hread
  · rename_i hread
    cases h.symm.trans hread
  · rename_i hread
    cases h.symm.trans hread
    rfl

/-- `handle_server` reads the lines of the input, whatever the chunks are. -/
theorem handleServer_eq {lines : List (List Char)} (hlines : ∀ l ∈ lines, '\n' ∉ l ∧ nul ∉ l)
    {input : Input} (hflow : input.Flowing)
    (hrest : input.rest = lines.flatMap (· ++ ['\n'])) :
    ∃ next : Input, handleServer input = ((frame lines).1, (frame lines).2.1, next) ∧
      next.Flowing ∧ next.rest = (frame lines).2.2.flatMap (· ++ ['\n']) := by
  have hempty : (⟨[], []⟩ : Input).Flowing := by simp [Input.Flowing]
  induction lines generalizing input with
  | nil =>
    obtain ⟨buf, chunks⟩ := input
    obtain ⟨hbuf, hchunks⟩ := List.append_eq_nil_iff.mp hrest
    have hbuf : buf = [] := hbuf
    have hnone : chunks = [] := by
      rw [List.eq_nil_iff_forall_not_mem]
      intro chunk hchunk
      exact hflow chunk hchunk (List.flatten_eq_nil_iff.mp hchunks chunk hchunk)
    subst hbuf hnone
    exact ⟨⟨[], []⟩, handleServer_closed rfl, hempty, rfl⟩
  | cons l ls ih =>
    obtain ⟨hl, hnul⟩ := hlines l List.mem_cons_self
    have hstr : cString ([] ++ l) = l := sendall_eq hnul
    rw [List.flatMap_cons, List.append_assoc, List.singleton_append] at hrest
    rcases readLine_spec hl hflow [] hrest with ⟨hlong, hread⟩ | ⟨hshort, next, hnext, hmore, hread⟩
    · rw [frame, if_pos (by simpa using hlong)]
      exact ⟨⟨[], []⟩, handleServer_overflow hread, hempty, rfl⟩
    · have hfits : ¬bufSize ≤ l.length := by
        rw [List.nil_append] at hshort
        omega
      rw [hstr] at hread
      rw [handleServer_line hread, frame, if_neg hfits]
      by_cases hprompt : isPrompt l = true
      · rw [if_pos hprompt, if_pos hprompt]
        exact ⟨next, rfl, hnext, hmore⟩
      · rw [if_neg hprompt, if_neg hprompt]
        by_cases hbye : l = bye
        · rw [if_pos hbye, if_pos hbye]
          exact ⟨next, rfl, hnext, hmore⟩
        · rw [if_neg hbye, if_neg hbye]
          obtain ⟨last, hlast, hflow', hrest'⟩ :=
            ih (fun x hx => hlines x (List.mem_cons_of_mem _ hx)) hnext hmore
          rw [hlast]
          exact ⟨last, rfl, hflow', hrest'⟩

theorem frame_rest (lines : List (List Char)) : ∀ l ∈ (frame lines).2.2, l ∈ lines := by
  induction lines with
  | nil => simp [frame]
  | cons l ls ih =>
    intro x hx
    rw [frame] at hx
    split at hx
    · cases hx
    split at hx
    · exact List.mem_cons_of_mem _ hx
    split at hx
    · exact List.mem_cons_of_mem _ hx
    · exact List.mem_cons_of_mem _ (ih x hx)

theorem session_eq {lines : List (List Char)} (hlines : ∀ l ∈ lines, '\n' ∉ l ∧ nul ∉ l)
    {input : Input} (hflow : input.Flowing)
    (hrest : input.rest = lines.flatMap (· ++ ['\n'])) (calls : Nat) :
    session calls input = frames calls lines := by
  induction calls generalizing lines input with
  | zero => rfl
  | succ calls ih =>
    obtain ⟨next, hrun, hnext, hmore⟩ := handleServer_eq hlines hflow hrest
    have hlater := ih (fun l hl => hlines l (frame_rest lines l hl)) hnext hmore
    rw [session, frames, hrun]
    simp only [hlater]

end Osisp.Lab8
