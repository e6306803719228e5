import Mathlib.Data.List.DropRight
import Osisp.Lib.Stdio
import Osisp.Lib.Tally

namespace Osisp.Lab8

open Osisp.Lib Osisp.Lib.Stdio

/-- `isspace` in the C locale. -/
def isSpace (c : Char) : Bool := c == ' ' || (9 ≤ c.toNat && c.toNat ≤ 13)

def trim (s : List Char) : List Char := (s.dropWhile isSpace).rdropWhile isSpace

/-- `tolower` in the C locale. -/
def toLower (c : Char) : Char :=
  if 65 ≤ c.toNat ∧ c.toNat ≤ 90 then Char.ofNat (c.toNat + 32) else c

/-- Whether `strcasecmp(s, t)` is 0. -/
def strcasecmpEqual (s t : List Char) : Bool := s.map toLower == t.map toLower

/-- Whether `strncasecmp(s, t, n)` is 0. -/
def strncasecmpEqual (s t : List Char) (n : Nat) : Bool := strcasecmpEqual (s.take n) (t.take n)

/-- The branches of `client_thread`. -/
inductive Command where
  | echo (arg : List Char)
  | quit
  | info
  | cd (arg : List Char)
  | list
  | unknown
  deriving DecidableEq, Repr

/-- The branch that `client_thread` takes for `cmd`. -/
def commandOf (cmd : List Char) : Command :=
  if strncasecmpEqual cmd ['E', 'C', 'H', 'O', ' '] 5 then .echo (cmd.drop 5)
  else if strcasecmpEqual cmd ['Q', 'U', 'I', 'T'] then .quit
  else if strcasecmpEqual cmd ['I', 'N', 'F', 'O'] then .info
  else if strncasecmpEqual cmd ['C', 'D', ' '] 3 then .cd (cmd.drop 3)
  else if strcasecmpEqual cmd ['L', 'I', 'S', 'T'] then .list
  else .unknown

def isQuit (cmd : List Char) : Bool := commandOf cmd == .quit

/-- `cmd` in `client_thread`: what a chunk holds up to its first newline, trimmed. -/
def cmdOf (chunk : List Char) : List Char := trim (cutNewline chunk)

/-- The loop of `client_thread` on the chunks that `recv` returns, the first of which begins in
line `line` of the stream: the commands it dispatches, each with the line in which its chunk
begins. It ends at a `QUIT` or when `recv` returns nothing. -/
def clientThread (line : Nat) : List (List Char) → List (Nat × List Char)
  | [] => []
  | chunk :: chunks =>
    if chunk = [] then []
    else
      let cmd := cmdOf chunk
      let line' := line + chunk.count '\n'
      if cmd = [] then clientThread line' chunks
      else if isQuit cmd then [(line, cmd)]
      else (line, cmd) :: clientThread line' chunks

/-- The lines that are not blank after `trim`, each with its number. -/
def commandLines (line : Nat) : List (List Char) → List (Nat × List Char)
  | [] => []
  | text :: texts =>
    if trim text = [] then commandLines (line + 1) texts
    else (line, trim text) :: commandLines (line + 1) texts

def blank (s : List Char) : Bool := s.all isSpace

/-- The number of characters that are not blanks. -/
def visible (s : List Char) : Nat := s.countP (fun c => !isSpace c)

theorem filter_trim (s : List Char) :
    (trim s).filter (fun c => !isSpace c) = s.filter (fun c => !isSpace c) := by
  have hdrop (s : List Char) : (s.dropWhile isSpace).filter (fun c => !isSpace c) =
      s.filter (fun c => !isSpace c) := by
    induction s with
    | nil => rfl
    | cons c s ih =>
      by_cases hc : isSpace c = true
      · simp [hc, ih]
      · simp [hc]
  rw [trim, List.rdropWhile, List.filter_reverse, hdrop, List.filter_reverse, List.reverse_reverse,
    hdrop]

theorem visible_trim (s : List Char) : visible (trim s) = visible s := by
  rw [visible, List.countP_eq_length_filter, filter_trim, visible, List.countP_eq_length_filter]

theorem mem_trim {c : Char} (hc : isSpace c = false) (s : List Char) : c ∈ trim s ↔ c ∈ s := by
  have h := congrArg (c ∈ ·) (filter_trim s)
  simpa [List.mem_filter, hc] using h

theorem blank_iff_visible {s : List Char} : blank s = true ↔ visible s = 0 := by
  simp [blank, visible, List.countP_eq_zero]

theorem visible_append (s t : List Char) : visible (s ++ t) = visible s + visible t :=
  List.countP_append

theorem dropWhile_blank {s : List Char} (hs : blank s = true) : s.dropWhile isSpace = [] := by
  simpa [blank, List.dropWhile_eq_nil_iff] using hs

theorem trim_blank {s : List Char} (hs : blank s = true) : trim s = [] := by
  rw [trim, dropWhile_blank hs, List.rdropWhile_nil]

theorem trim_eq_nil_iff {s : List Char} : trim s = [] ↔ blank s = true := by
  refine ⟨fun h => ?_, trim_blank⟩
  rw [blank_iff_visible, ← visible_trim, h]
  rfl

theorem trim_blank_append {s : List Char} (hs : blank s = true) (t : List Char) :
    trim (s ++ t) = trim t := by
  rw [trim, List.dropWhile_append, dropWhile_blank hs]
  rfl

theorem trim_append_blank (s : List Char) {t : List Char} (ht : blank t = true) :
    trim (s ++ t) = trim s := by
  rw [trim, List.dropWhile_append]
  cases hs : s.dropWhile isSpace with
  | nil => simp [trim, hs, dropWhile_blank ht]
  | cons c s' =>
    have ht' : t.reverse.dropWhile isSpace = [] := dropWhile_blank (by simpa [blank] using ht)
    simp [trim, hs, List.rdropWhile, List.dropWhile_append, ht']

theorem cmdOf_append {s : List Char} (hs : s = [] ∨ ∃ t, s = '\n' :: t) (p : List Char) :
    cmdOf (p ++ s) = cmdOf p := by
  rcases hs with rfl | ⟨t, rfl⟩
  · rw [List.append_nil]
  · rw [cmdOf, cmdOf]
    exact congrArg trim (cutNewline_append p t)

theorem cmdOf_eq_trim {p : List Char} (hp : '\n' ∉ p) (hn : nul ∉ p) : cmdOf p = trim p := by
  rw [cmdOf, cutNewline_eq_cString hp, cString_eq_self_iff.mpr hn]

theorem nul_notMem_cmdOf (p : List Char) : nul ∉ cmdOf p := by
  intro h
  rw [cmdOf, mem_trim (by decide)] at h
  exact nul_notMem_cutNewline p h

theorem visible_cmdOf_le (p : List Char) : visible (cmdOf p) ≤ visible p := by
  rw [cmdOf, visible_trim]
  exact ((List.takeWhile_sublist _).trans (List.takeWhile_sublist _)).countP_le

/-- What the chunks that begin in the line give. -/
def pieces (l : CutLine Char) : List (List Char) := (l.parts.map cmdOf).filter (· ≠ [])

/-- The line does not share its visible text with a chunk that began in an earlier line, nor
spread it over two chunks, and it holds no NUL. -/
structure LineOk (l : CutLine Char) : Prop where
  tail : blank l.tail = true
  parts : (l.parts.filter (fun p => !blank p)).length ≤ 1
  noNul : nul ∉ l.text

theorem text_blank {l : CutLine Char} (ht : blank l.tail = true)
    (hp : ∀ p ∈ l.parts, blank p = true) : blank l.text = true := by
  simp only [blank, CutLine.text, List.all_append, List.all_flatten, Bool.and_eq_true]
  exact ⟨ht, List.all_eq_true.mpr hp⟩

theorem cmdOf_blank {p : List Char} (hp : blank p = true) : cmdOf p = [] := by
  have hle := visible_cmdOf_le p
  rw [blank_iff_visible] at hp
  rw [cmdOf, trim_eq_nil_iff, blank_iff_visible, ← visible_trim]
  change visible (cmdOf p) = 0
  omega

theorem pieces_of_blank {parts : List (List Char)} (hp : ∀ p ∈ parts, blank p = true) :
    (parts.map cmdOf).filter (· ≠ []) = [] := by
  rw [List.filter_eq_nil_iff]
  intro cmd hcmd
  obtain ⟨p, hmem, rfl⟩ := List.mem_map.mp hcmd
  simp [cmdOf_blank (hp p hmem)]

theorem pieces_of_lineOk {l : CutLine Char} (hok : LineOk l) (hsep : ∀ p ∈ l.parts, '\n' ∉ p) :
    pieces l = if trim l.text = [] then [] else [trim l.text] := by
  have hblank {parts : List (List Char)} (h : parts.filter (fun p => !blank p) = []) :
      ∀ p ∈ parts, blank p = true := by simpa using h
  cases hf : l.parts.filter (fun p => !blank p) with
  | nil =>
    rw [if_pos (trim_blank (text_blank hok.tail (hblank hf)))]
    exact pieces_of_blank (hblank hf)
  | cons p ps =>
    -- the line's text is that of the one part that is not blank
    have hlen := hok.parts
    rw [hf, List.length_cons] at hlen
    obtain rfl : ps = [] := List.length_eq_zero_iff.mp (by omega)
    obtain ⟨before, after, hparts, hbefore, hp, hafter⟩ := List.filter_eq_cons_iff.mp hf
    have hbefore : ∀ q ∈ before, blank q = true := by simpa using hbefore
    have hmem : p ∈ l.parts := by simp [hparts]
    have hnul : nul ∉ p := fun h => hok.noNul (by simp [CutLine.text, hparts, h])
    have hcmd : cmdOf p = trim p := cmdOf_eq_trim (hsep p hmem) hnul
    have htext : trim l.text = trim p := by
      have hb : blank before.flatten = true := by simpa [blank, List.all_flatten] using hbefore
      have ha : blank after.flatten = true := by
        simpa [blank, List.all_flatten] using hblank hafter
      rw [CutLine.text, hparts, List.flatten_append, List.flatten_cons, trim_blank_append hok.tail,
        trim_blank_append hb, trim_append_blank p ha]
    have hne : trim p ≠ [] := fun h => by simp [trim_eq_nil_iff.mp h] at hp
    rw [htext, if_neg hne, pieces, hparts]
    simp only [List.map_append, List.map_cons, List.filter_append, List.filter_cons,
      pieces_of_blank hbefore, pieces_of_blank (hblank hafter), hcmd]
    simp [hne]

theorem filter_blank_eq_nil {parts : List (List Char)} (h : tally visible parts = 0) :
    parts.filter (fun p => !blank p) = [] := by
  rw [List.filter_eq_nil_iff]
  intro q hq
  obtain ⟨t, ht⟩ := List.mem_iff_getElem?.mp hq
  have hle := le_tally visible ht
  have hblank : blank q = true := blank_iff_visible.mpr (by omega)
  simp [hblank]

/-- One part with all that is visible of a line leaves the others blank. -/
theorem filter_length_le_one {parts : List (List Char)} {p : List Char} (hp : p ∈ parts)
    (h : tally visible parts ≤ visible p) : (parts.filter (fun p => !blank p)).length ≤ 1 := by
  induction parts with
  | nil => cases hp
  | cons q parts ih =>
    rw [tally_cons] at h
    rcases List.mem_cons.mp hp with rfl | hp
    · rw [List.filter_cons, filter_blank_eq_nil (by omega)]
      split_ifs <;> simp
    · obtain ⟨t, ht⟩ := List.mem_iff_getElem?.mp hp
      have hle := le_tally visible ht
      have hblank : blank q = true := blank_iff_visible.mpr (by omega)
      rw [List.filter_cons, if_neg (by simp [hblank])]
      exact ih hp (by omega)

theorem lineOk_of_mem_pieces {l : CutLine Char} (h : trim l.text ∈ pieces l) : LineOk l := by
  obtain ⟨p, hp, hcmd⟩ := List.mem_map.mp (List.mem_filter.mp h).1
  have hle := visible_cmdOf_le p
  rw [hcmd, visible_trim, CutLine.text, visible_append] at hle
  have hflat : visible l.parts.flatten = tally visible l.parts := List.countP_flatten
  obtain ⟨t, ht⟩ := List.mem_iff_getElem?.mp hp
  have hpart := le_tally visible ht
  refine ⟨blank_iff_visible.mpr (by omega), filter_length_le_one hp (by omega), fun hn => ?_⟩
  rw [← mem_trim (by decide), ← hcmd] at hn
  exact nul_notMem_cmdOf p hn

theorem lineOk_of_blank {l : CutLine Char} (h : trim l.text = []) : LineOk l := by
  have hv := blank_iff_visible.mp (trim_eq_nil_iff.mp h)
  rw [CutLine.text, visible_append] at hv
  have hflat : visible l.parts.flatten = tally visible l.parts := List.countP_flatten
  refine ⟨blank_iff_visible.mpr (by omega), ?_, fun hn => ?_⟩
  · rw [filter_blank_eq_nil (by omega)]
    exact Nat.zero_le _
  · rw [← mem_trim (by decide), h] at hn
    cases hn

/-- The commands of all chunks that are not blank, also of those after a `QUIT`. -/
def chunkCommands (line : Nat) : List (List Char) → List (Nat × List Char)
  | [] => []
  | chunk :: chunks =>
    ([cmdOf chunk].filter (· ≠ [])).map (fun cmd => (line, cmd)) ++
      chunkCommands (line + chunk.count '\n') chunks

/-- The same, line by line. -/
def lineCommands (line : Nat) : List (CutLine Char) → List (Nat × List Char)
  | [] => []
  | l :: ls => (pieces l).map (fun cmd => (line, cmd)) ++ lineCommands (line + 1) ls

theorem clientThread_eq (line : Nat) {chunks : List (List Char)}
    (hne : ∀ chunk ∈ chunks, chunk ≠ []) :
    clientThread line chunks = takeThrough (fun c => isQuit c.2) (chunkCommands line chunks) := by
  induction chunks generalizing line with
  | nil => rfl
  | cons chunk chunks ih =>
    have hrest := ih (line + chunk.count '\n') fun c hc => hne c (by simp [hc])
    rw [clientThread, if_neg (hne chunk (by simp)), chunkCommands]
    by_cases hcmd : cmdOf chunk = []
    · simp [hcmd, hrest]
    · by_cases hquit : isQuit (cmdOf chunk) = true
      · simp [hcmd, hquit, takeThrough]
      · simp [hcmd, hquit, takeThrough, hrest]

theorem pieces_addPart (l : CutLine Char) (p : List Char) :
    pieces (l.addPart p) = pieces l ++ [cmdOf p].filter (· ≠ []) := by
  simp [pieces, CutLine.addPart]

theorem lineCommands_endLines {next : CutLine Char → List (CutLine Char)}
    {rest : Nat → List (Nat × List Char)}
    (hnext : ∀ cur line, lineCommands line (next cur) =
      (pieces cur).map (fun cmd => (line, cmd)) ++ rest line)
    (cur : CutLine Char) (line : Nat) (ps : List (List Char)) :
    lineCommands line (endLines next cur ps) =
      (pieces cur).map (fun cmd => (line, cmd)) ++ rest (line + ps.length) := by
  induction ps generalizing cur line with
  | nil => exact hnext cur line
  | cons t ts ih =>
    have htail : pieces ⟨t, []⟩ = [] := rfl
    rw [endLines, lineCommands, ih, htail, List.length_cons, List.map_nil, List.nil_append,
      show line + 1 + ts.length = line + (ts.length + 1) by omega]

/-- Each chunk gives its command to the line in which it begins. -/
theorem lineCommands_cutLines (cur : CutLine Char) (line : Nat) (chunks : List (List Char)) :
    lineCommands line (cutLines '\n' cur chunks) =
      (pieces cur).map (fun cmd => (line, cmd)) ++ chunkCommands line chunks := by
  induction chunks generalizing cur line with
  | nil => simp [cutLines, lineCommands, chunkCommands]
  | cons chunk chunks ih =>
    obtain ⟨p, ps, hsplit, -, -, hs, hcount⟩ := splitOn_spec '\n' chunk
    have hcmd : cmdOf chunk = cmdOf p := by
      rw [hs]
      refine cmdOf_append ?_ p
      cases ps with
      | nil => exact .inl rfl
      | cons q ps => exact .inr ⟨_, rfl⟩
    rw [cutLines, hsplit]
    change lineCommands line (endLines (fun cur => cutLines '\n' cur chunks) (cur.addPart p) ps) = _
    have hend := lineCommands_endLines (fun cur line => ih cur line) (cur.addPart p) line ps
    rw [hend, pieces_addPart, chunkCommands, hcount, hcmd, List.map_append, List.append_assoc]

/-- Up to the first `QUIT` every line arrives well. -/
def CutWell : List (CutLine Char) → Prop
  | [] => True
  | l :: ls => LineOk l ∧ (isQuit (trim l.text) = true ∨ CutWell ls)

theorem mem_lineCommands {line n : Nat} {cmd : List Char} {ls : List (CutLine Char)}
    (h : (n, cmd) ∈ lineCommands line ls) : line ≤ n := by
  induction ls generalizing line with
  | nil => cases h
  | cons l ls ih =>
    rcases List.mem_append.mp h with h | h
    · obtain ⟨piece, -, heq⟩ := List.mem_map.mp h
      exact Nat.le_of_eq (congrArg Prod.fst heq)
    · exact Nat.le_of_succ_le (ih h)

/-- The loop does what the lines ask for exactly where every line up to the first `QUIT` arrives
well. -/
theorem takeThrough_lineCommands_iff (line : Nat) {ls : List (CutLine Char)}
    (hsep : ∀ l ∈ ls, ∀ p ∈ l.parts, '\n' ∉ p) :
    takeThrough (fun c => isQuit c.2) (lineCommands line ls) =
      takeThrough (fun c => isQuit c.2) (commandLines line (ls.map CutLine.text)) ↔
    CutWell ls := by
  induction ls generalizing line with
  | nil => simp [lineCommands, commandLines, CutWell]
  | cons l ls ih =>
    have hrest := ih (line + 1) fun x hx => hsep x (by simp [hx])
    have hnil : isQuit [] = false := by decide
    rw [List.map_cons, commandLines, lineCommands, CutWell]
    by_cases hok : LineOk l
    · rw [pieces_of_lineOk hok (hsep l (by simp))]
      by_cases htrim : trim l.text = []
      · simp [htrim, hok, hnil, hrest]
      · by_cases hquit : isQuit (trim l.text) = true
        · simp [htrim, hok, hquit, takeThrough]
        · simp [htrim, hok, hquit, takeThrough, hrest]
    · -- the line's own command is expected and is not among those of its chunks
      have htrim : trim l.text ≠ [] := fun h => hok (lineOk_of_blank h)
      simp only [htrim, if_false, hok, false_and, iff_false]
      intro h
      have hmem : (line, trim l.text) ∈ takeThrough (fun c => isQuit c.2)
          ((line, trim l.text) :: commandLines (line + 1) (ls.map CutLine.text)) := by
        unfold takeThrough
        split_ifs <;> simp
      rw [← h] at hmem
      rcases List.mem_append.mp ((takeThrough_isPrefix _ _).subset hmem) with hmem | hmem
      · obtain ⟨piece, hpiece, heq⟩ := List.mem_map.mp hmem
        rw [Prod.mk.injEq] at heq
        exact hok (lineOk_of_mem_pieces (heq.2 ▸ hpiece))
      · have hle := mem_lineCommands hmem
        omega

theorem commandLines_append_nil (line : Nat) (texts : List (List Char)) :
    commandLines line (texts ++ [[]]) = commandLines line texts := by
  induction texts generalizing line with
  | nil => rfl
  | cons text texts ih => simp only [List.cons_append, commandLines, ih]

theorem splitOn_lines {lines : List (List Char)} (hlines : ∀ l ∈ lines, '\n' ∉ l) :
    (lines.flatMap (· ++ ['\n'])).splitOn '\n' = lines ++ [[]] := by
  induction lines with
  | nil => simp
  | cons l lines ih =>
    rw [List.flatMap_cons, List.append_assoc, List.singleton_append,
      List.splitOn_append_cons_self_of_not_mem (hlines l (by simp)),
      ih fun x hx => hlines x (by simp [hx]), List.cons_append]

theorem commandLines_texts (line : Nat) (texts : List (List Char)) :
    (takeThrough (fun c => isQuit c.2) (commandLines line texts)).map Prod.snd =
      takeThrough isQuit ((texts.map trim).filter (· ≠ [])) := by
  induction texts generalizing line with
  | nil => rfl
  | cons text texts ih =>
    rw [commandLines, List.map_cons]
    by_cases htrim : trim text = []
    · simp [htrim, ih]
    · by_cases hquit : isQuit (trim text) = true
      · simp [htrim, hquit, takeThrough]
      · simp [htrim, hquit, takeThrough, ih]

/-- A stream of lines that arrives in chunks: every line that is not blank is dispatched, in
order and once, up to the first `QUIT`, exactly where up to there no line shares its visible text
with an earlier line's chunk or spreads it over two chunks. -/
theorem clientThread_lines_iff {lines chunks : List (List Char)} (hlines : ∀ l ∈ lines, '\n' ∉ l)
    (hne : ∀ chunk ∈ chunks, chunk ≠ [])
    (hstream : chunks.flatten = lines.flatMap (· ++ ['\n'])) :
    (clientThread 0 chunks = takeThrough (fun c => isQuit c.2) (commandLines 0 lines) ↔
      CutWell (cutLines '\n' ⟨[], []⟩ chunks)) ∧
    (CutWell (cutLines '\n' ⟨[], []⟩ chunks) → (clientThread 0 chunks).map Prod.snd =
      takeThrough isQuit ((lines.map trim).filter (· ≠ []))) := by
  have hempty : '\n' ∉ (⟨[], []⟩ : CutLine Char).text := by simp [CutLine.text]
  have hnone : ∀ p ∈ (⟨[], []⟩ : CutLine Char).parts, '\n' ∉ p := by simp
  have htext := cutLines_text '\n' hempty chunks
  have hstart : (⟨[], []⟩ : CutLine Char).text ++ chunks.flatten = chunks.flatten := rfl
  rw [hstart, hstream, splitOn_lines hlines] at htext
  have hcommands := lineCommands_cutLines ⟨[], []⟩ 0 chunks
  have hparts := cutLines_parts '\n' hnone chunks
  have hiff : clientThread 0 chunks = takeThrough (fun c => isQuit c.2) (commandLines 0 lines) ↔
      CutWell (cutLines '\n' ⟨[], []⟩ chunks) := by
    rw [clientThread_eq 0 hne, ← takeThrough_lineCommands_iff 0 hparts, hcommands, htext,
      commandLines_append_nil]
    rfl
  exact ⟨hiff, fun hwell => by rw [hiff.mpr hwell, commandLines_texts]⟩

def bufSize : Nat := 4096

theorem clientThread_lines_iff_whole :
    clientThread 0 [['I', 'N', 'F', 'O', '\n'], ['Q', 'U', 'I', 'T', '\n']] =
      [(0, ['I', 'N', 'F', 'O']), (1, ['Q', 'U', 'I', 'T'])] ∧
    CutWell (cutLines '\n' ⟨[], []⟩
      [['I', 'N', 'F', 'O', '\n'], ['Q', 'U', 'I', 'T', '\n']]) := by
  have hlines : ∀ l ∈ [['I', 'N', 'F', 'O'], ['Q', 'U', 'I', 'T']], '\n' ∉ l := by decide
  exact ⟨by decide, (clientThread_lines_iff hlines (by decide) (by decide)).1.mp (by decide)⟩

/-- Two commands that arrive in one chunk. -/
theorem two_lines_in_one_chunk :
    ¬∀ lines chunks : List (List Char), (∀ l ∈ lines, '\n' ∉ l ∧ l.length < bufSize - 1) →
      (∀ chunk ∈ chunks, chunk ≠ [] ∧ chunk.length ≤ bufSize - 1) →
      chunks.flatten = lines.flatMap (· ++ ['\n']) →
      (clientThread 0 chunks).map Prod.snd =
        takeThrough isQuit ((lines.map trim).filter (· ≠ [])) := by
  intro h
  have hone := h [['I', 'N', 'F', 'O'], ['I', 'N', 'F', 'O']]
    [['I', 'N', 'F', 'O', '\n', 'I', 'N', 'F', 'O', '\n']] (by decide) (by decide) (by decide)
  exact absurd hone (by decide)

end Osisp.Lab8
