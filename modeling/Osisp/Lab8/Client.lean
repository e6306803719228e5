import Osisp.Lab8.Framing

namespace Osisp.Lab8

open Osisp.Lib Osisp.Lib.Stdio

def fileLines (contents : List Char) : List (List Char) :=
  ((fgetsAll bufSize contents).map cutNewline).filter fun line => line.length ≠ 0

/-- The lines for which `main` calls `send_cmd`; `fopen` is `none` where it fails. -/
def sentLines (fopen : List Char → Option (List Char)) (stdin : List Char) : List (List Char) :=
  (fgetsAll bufSize stdin).flatMap fun buf =>
    let line := cutNewline buf
    if line.head? = some '@' then
      match fopen (line.drop 1) with
      | none => []
      | some contents => fileLines contents
    else if line.length = 0 then []
    else [line]

def sendCmd (cmd : List Char) : List Char := cmd ++ ['\n']

/-- The text has a line that ends a call of `handle_server`. -/
def EndsCall (text : List Char) : Prop := ∃ l ∈ textLines text, isPrompt l = true ∨ l = bye

/-- A line that is sent is a C string of one line, and not empty. -/
structure Sendable (line : List Char) : Prop where
  noNul : nul ∉ line
  oneLine : '\n' ∉ line
  nonempty : line ≠ []

theorem cutNewline_sendable {buf : List Char} (h : cutNewline buf ≠ []) :
    Sendable (cutNewline buf) where
  noNul := nul_notMem_cutNewline buf
  oneLine := newline_notMem_cutNewline buf
  nonempty := h

theorem sentLines_sendable {fopen : List Char → Option (List Char)} {stdin line : List Char}
    (h : line ∈ sentLines fopen stdin) : Sendable line := by
  obtain ⟨buf, -, hline⟩ := List.mem_flatMap.mp h
  dsimp only at hline
  split_ifs at hline with hfile hempty
  · split at hline
    · cases hline
    · obtain ⟨hmem, hne⟩ := List.mem_filter.mp hline
      obtain ⟨buf', -, rfl⟩ := List.mem_map.mp hmem
      exact cutNewline_sendable fun hnil => by simp [hnil] at hne
  · cases hline
  · rw [List.mem_singleton.mp hline]
    exact cutNewline_sendable fun hnil => hempty (by rw [hnil]; rfl)

/-- The last line of a text that ends with a `>` and a newline ends with the `>`. -/
theorem exists_prompt_line {lines : List (List Char)} {s : List Char}
    (h : s ++ ['>'] ++ ['\n'] = lines.flatMap (· ++ ['\n'])) :
    ∃ l ∈ lines, isPrompt l = true := by
  rcases List.eq_nil_or_concat lines with rfl | ⟨before, last, rfl⟩
  · simp at h
  · rw [List.concat_eq_append, List.flatMap_append, List.flatMap_singleton,
      ← List.append_assoc] at h
    obtain ⟨h, -⟩ := List.append_inj' h rfl
    refine ⟨last, by simp, ?_⟩
    rcases List.eq_nil_or_concat last with rfl | ⟨l, c, rfl⟩
    · -- an empty last line would leave a newline at the end
      exfalso
      rw [List.append_nil] at h
      rcases List.eq_nil_or_concat before with rfl | ⟨before, l, rfl⟩
      · simp at h
      · rw [List.concat_eq_append, List.flatMap_append, List.flatMap_singleton,
          ← List.append_assoc] at h
        obtain ⟨-, hlast⟩ := List.append_inj' h rfl
        exact absurd hlast (by decide)
    · rw [List.concat_eq_append, ← List.append_assoc] at h
      obtain ⟨-, hlast⟩ := List.append_inj' h rfl
      rw [List.concat_eq_append, isPrompt, List.getLast?_concat, ← List.singleton_inj.mp hlast]
      rfl

theorem endsCall_append_prompt {body : List Char} (hbody : Whole body) (cwd : List Char) :
    EndsCall (body ++ sendPrompt cwd) := by
  have hnul : nul ∉ sendall cwd ++ ['>'] := List.not_mem_append (nul_notMem_sendall cwd) (by decide)
  obtain ⟨hwhole, -⟩ := whole_newline hnul
  obtain ⟨l, hl, hend⟩ := exists_prompt_line hwhole.lines.1
  refine ⟨l, ?_, .inl hend⟩
  rw [sendPrompt_sendall, (hbody.append hwhole).2]
  exact List.mem_append_right _ hl

/-- One `recv` returns the line with its newline: the server replies unless the line is blank for
`trim`, and what it sends ends the client's call. -/
theorem clientThreadReplies_line (root cwd : List Char) {line : List Char} (h : Sendable line)
    (env : Env) :
    if blank line = true then clientThreadReplies root cwd [(sendCmd line, env)] = []
    else ∃ r, clientThreadReplies root cwd [(sendCmd line, env)] = [r] ∧ EndsCall r.text := by
  have hcmd : cmdOf (sendCmd line) = trim line := by
    rw [sendCmd, cmdOf_append (.inr ⟨[], rfl⟩), cmdOf_eq_trim h.oneLine h.noNul]
  have hchunk : sendCmd line ≠ [] := by simp [sendCmd]
  rw [clientThreadReplies, if_neg hchunk]
  simp only [hcmd, trim_eq_nil_iff]
  split_ifs with hblank hquit
  · rfl
  · refine ⟨_, rfl, bye, ?_, .inr rfl⟩
    show bye ∈ textLines (sendall "BYE\n".toList)
    decide
  · exact ⟨_, rfl, endsCall_append_prompt (replyBody_whole env root cwd _) _⟩

/-- Every line the client sends is answered exactly when it is not all white space: the client
holds back empty lines only, and the server passes over blank ones without a prompt. -/
theorem line_answered_iff (fopen : List Char → Option (List Char)) (stdin : List Char)
    {line : List Char} (h : line ∈ sentLines fopen stdin) (root cwd : List Char) (env : Env) :
    (∃ r ∈ clientThreadReplies root cwd [(sendCmd line, env)], EndsCall r.text) ↔
      blank line = false := by
  have hreply := clientThreadReplies_line root cwd (sentLines_sendable h) env
  cases hblank : blank line with
  | true =>
    rw [hblank, if_pos rfl] at hreply
    simp [hreply]
  | false =>
    rw [hblank, if_neg Bool.false_ne_true] at hreply
    obtain ⟨r, hr, hend⟩ := hreply
    simp [hr, hend]

theorem fgetsAll_line {line : List Char} (hline : '\n' ∉ line)
    (hshort : line.length + 1 < bufSize) :
    fgetsAll bufSize (line ++ ['\n']) = [line ++ ['\n']] := by
  have hrest : fgetsAll bufSize ([] : List Char) = [] := by
    rw [fgetsAll, dif_neg fun h => h.2 rfl]
  exact (fgetsAll_cons hline hshort []).trans (by rw [hrest]; rfl)

theorem sentLines_line (fopen : List Char → Option (List Char)) {line : List Char}
    (hline : Sendable line) (hfile : line.head? ≠ some '@') (hshort : line.length + 1 < bufSize) :
    sentLines fopen (line ++ ['\n']) = [line] := by
  have hof : cutNewline (line ++ ['\n']) = line :=
    (cutNewline_line hline.oneLine (.inr rfl)).trans (cString_eq_self_iff.mpr hline.noNul)
  have hlen : line.length ≠ 0 := fun h => hline.nonempty (List.length_eq_zero_iff.mp h)
  rw [sentLines, fgetsAll_line hline.oneLine hshort, List.flatMap_singleton]
  simp only [hof, if_neg hfile, if_neg hlen]

theorem line_answered_iff_list :
    (∃ r ∈ clientThreadReplies ['/'] [] [(sendCmd "LIST".toList, emptyEnv)], EndsCall r.text) ↔
      blank "LIST".toList = false := by
  refine line_answered_iff (fun _ => none) "LIST\n".toList ?_ ['/'] [] emptyEnv
  have hline : Sendable "LIST".toList := ⟨by decide, by decide, by decide⟩
  exact sentLines_line (fun _ => none) hline (by decide) (by decide) ▸ List.mem_singleton_self _

/-- A line with a single space is sent and never answered. -/
theorem space_not_answered :
    ¬∀ (fopen : List Char → Option (List Char)) (stdin line : List Char),
      line ∈ sentLines fopen stdin → ∀ (root cwd : List Char) (env : Env),
      ∃ r ∈ clientThreadReplies root cwd [(sendCmd line, env)], EndsCall r.text := by
  intro h
  have hsent : [' '] ∈ sentLines (fun _ => none) [' ', '\n'] := by
    rw [show [' ', '\n'] = [' '] ++ ['\n'] from rfl, sentLines_line (fun _ => none)
      ⟨by decide, by decide, by decide⟩ (by decide) (by decide)]
    exact List.mem_singleton_self _
  obtain ⟨r, hr, -⟩ := h (fun _ => none) [' ', '\n'] [' '] hsent ['/'] [] emptyEnv
  have hnone : clientThreadReplies ['/'] [] [(sendCmd [' '], emptyEnv)] = [] := rfl
  rw [hnone] at hr
  cases hr

end Osisp.Lab8
