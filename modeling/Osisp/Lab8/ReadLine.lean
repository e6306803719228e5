import Osisp.Lab8.HandleServer

namespace Osisp.Lab8

open Osisp.Lib.Stdio

/-- What one `recv` of the client returns. -/
structure Chunk where
  bytes : List Char
  nonempty : bytes ≠ []
  fits : bytes.length ≤ bufSize

/-- What is still to be received. -/
def stream (chunks : List Chunk) : List Char := (chunks.map Chunk.bytes).flatten

/-- The static variables of `read_line`. -/
structure Statics where
  buf : Vector Char bufSize
  pos : Nat
  len : Nat
  len_le : len ≤ bufSize

/-- The bytes of the buffer that no call has read. -/
def Statics.unread (s : Statics) : List Char := (s.buf.toList.take s.len).drop s.pos

/-- The variables before the first call; static memory is zero. -/
def Statics.initial : Statics := ⟨Vector.replicate bufSize nul, 0, 0, Nat.zero_le _⟩

/-- `len = recv(fd, buf, BUF_SIZE, 0)` and `pos = 0`, with some bytes received. -/
def Statics.recv (s : Statics) (chunk : Chunk) : Statics :=
  ⟨Vector.ofFn fun i => chunk.bytes.getD i s.buf[i], 0, chunk.bytes.length, chunk.fits⟩

/-- `recv` has returned 0. -/
def Statics.closed (s : Statics) : Statics := ⟨s.buf, 0, 0, Nat.zero_le _⟩

def Statics.next (s : Statics) : Statics := ⟨s.buf, s.pos + 1, s.len, s.len_le⟩

/-- What a call of `read_line` comes to: the array at the pointer it returns, `NULL`, or a write
to `out[oi]` behind the end of the array. -/
inductive Call where
  | line (out : Vector Char bufSize) (s : Statics) (chunks : List Chunk)
  | null (s : Statics)
  | overflow (oi : Nat)

def readLoop (out : Vector Char bufSize) (oi : Nat) (s : Statics) (chunks : List Chunk) : Call :=
  if hpos : s.pos < s.len then
    let c := s.buf.get ⟨s.pos, Nat.lt_of_lt_of_le hpos s.len_le⟩
    if hoi : oi < bufSize then
      if c = '\n' then .line (out.set oi nul) s.next chunks
      else readLoop (out.set oi c) (oi + 1) s.next chunks
    else .overflow oi
  else
    match chunks with
    | [] => .null s.closed
    | chunk :: chunks => readLoop out oi (s.recv chunk) chunks
termination_by (chunks.length, s.len - s.pos)
decreasing_by
  · apply Prod.Lex.right
    show s.len - (s.pos + 1) < s.len - s.pos
    omega
  · exact Prod.Lex.left _ _ (Nat.lt_succ_self _)

/-- The calls of `read_line` one after the other, `malloc` giving each a new array; nothing comes
after a write behind the end of one. -/
def calls (malloc : Nat → Vector Char bufSize) : Nat → Statics → List Chunk → List Call
  | 0, _, _ => []
  | n + 1, s, chunks =>
    let call := readLoop (malloc n) 0 s chunks
    call ::
      match call with
      | .line _ s chunks => calls malloc n s chunks
      | .null s => calls malloc n s []
      | .overflow _ => []

theorem stream_cons (chunk : Chunk) (chunks : List Chunk) :
    stream (chunk :: chunks) = chunk.bytes ++ stream chunks := rfl

theorem Statics.unread_initial : Statics.initial.unread = [] := rfl

theorem Statics.unread_closed (s : Statics) : s.closed.unread = [] := rfl

theorem Statics.unread_eq (s : Statics) (hpos : s.pos < s.len) :
    s.unread = s.buf.get ⟨s.pos, Nat.lt_of_lt_of_le hpos s.len_le⟩ :: s.next.unread := by
  have hlen : s.pos < (s.buf.toList.take s.len).length := by
    rw [List.length_take, Vector.length_toList]
    exact Nat.lt_min.mpr ⟨hpos, Nat.lt_of_lt_of_le hpos s.len_le⟩
  rw [Statics.unread, List.drop_eq_getElem_cons hlen, List.getElem_take, Vector.getElem_toList]
  rfl

theorem Statics.unread_nil (s : Statics) (hpos : ¬s.pos < s.len) : s.unread = [] := by
  apply List.drop_eq_nil_of_le
  rw [List.length_take]
  omega

theorem Statics.unread_recv (s : Statics) (chunk : Chunk) :
    (s.recv chunk).unread = chunk.bytes := by
  show (Vector.ofFn fun i => chunk.bytes.getD i s.buf[i]).toList.take chunk.bytes.length = _
  apply List.ext_getElem
  · rw [List.length_take, Vector.length_toList, Nat.min_eq_left chunk.fits]
  · intro i _ hi
    rw [List.getElem_take, Vector.getElem_toList, Vector.getElem_ofFn]
    exact List.getD_eq_getElem _ _ hi

/-- One byte: it comes from the buffer, or from the next chunk. -/
theorem readLoop_byte {s : Statics} {chunks : List Chunk} {c : Char} {more : List Char}
    (hrest : s.unread ++ stream chunks = c :: more) (out : Vector Char bufSize) (oi : Nat) :
    ∃ s' chunks', s'.unread ++ stream chunks' = more ∧
      readLoop out oi s chunks =
        if hoi : oi < bufSize then
          if c = '\n' then .line (out.set oi nul) s' chunks'
          else readLoop (out.set oi c) (oi + 1) s' chunks'
        else .overflow oi := by
  have hbuf : ∀ (s : Statics) (chunks : List Chunk), s.pos < s.len →
      s.unread ++ stream chunks = c :: more → s.next.unread ++ stream chunks = more ∧
      readLoop out oi s chunks =
        if hoi : oi < bufSize then
          if c = '\n' then .line (out.set oi nul) s.next chunks
          else readLoop (out.set oi c) (oi + 1) s.next chunks
        else .overflow oi := by
    intro s chunks hpos hrest
    rw [s.unread_eq hpos] at hrest
    obtain ⟨rfl, hmore⟩ := List.cons.inj hrest
    refine ⟨hmore, ?_⟩
    rw [readLoop.eq_def, dif_pos hpos]
  by_cases hpos : s.pos < s.len
  · exact ⟨s.next, chunks, hbuf s chunks hpos hrest⟩
  · rw [s.unread_nil hpos, List.nil_append] at hrest
    cases chunks with
    | nil => cases hrest
    | cons chunk chunks =>
      have hread : readLoop out oi s (chunk :: chunks) = readLoop out oi (s.recv chunk) chunks := by
        rw [readLoop.eq_def, dif_neg hpos]
      rw [stream_cons, ← s.unread_recv chunk] at hrest
      have hlen : (s.recv chunk).pos < (s.recv chunk).len :=
        List.length_pos_of_ne_nil chunk.nonempty
      rw [hread]
      exact ⟨(s.recv chunk).next, chunks, hbuf _ chunks hlen hrest⟩

theorem readLoop_end {s : Statics} {chunks : List Chunk} (hrest : s.unread ++ stream chunks = [])
    (out : Vector Char bufSize) (oi : Nat) : readLoop out oi s chunks = .null s.closed := by
  obtain ⟨hbuf, hchunks⟩ := List.append_eq_nil_iff.mp hrest
  cases chunks with
  | nil =>
    by_cases hpos : s.pos < s.len
    · rw [s.unread_eq hpos] at hbuf
      cases hbuf
    · rw [readLoop, dif_neg hpos]
  | cons chunk chunks =>
    rw [stream_cons] at hchunks
    exact absurd (List.append_eq_nil_iff.mp hchunks).1 chunk.nonempty

/-- The first `n` bytes of an array are a given text. -/
def Begins (out : Vector Char bufSize) (text : List Char) : Prop := text <+: out.toList

theorem Begins.set {out : Vector Char bufSize} {text : List Char} (h : Begins out text)
    (hlen : text.length < bufSize) (c : Char) : Begins (out.set text.length c) (text ++ [c]) := by
  obtain ⟨rest, hrest⟩ := h
  cases rest with
  | nil =>
    have hlength := congrArg List.length hrest
    rw [List.append_nil, Vector.length_toList] at hlength
    omega
  | cons d rest =>
    refine ⟨rest, ?_⟩
    rw [Vector.toList_set, ← hrest, List.set_append_right _ _ (Nat.le_refl _), Nat.sub_self,
      List.set_cons_zero, List.append_assoc]
    rfl

/-- A line that fits is read, with its end and nothing behind it. -/
theorem readLoop_line {l more text : List Char} (hl : '\n' ∉ l)
    (hfit : text.length + l.length < bufSize) {s : Statics} {chunks : List Chunk}
    (hrest : s.unread ++ stream chunks = l ++ '\n' :: more) {out : Vector Char bufSize}
    (hout : Begins out text) :
    ∃ out' s' chunks', readLoop out text.length s chunks = .line out' s' chunks' ∧
      Begins out' (text ++ l ++ [nul]) ∧ s'.unread ++ stream chunks' = more := by
  induction l generalizing s chunks out text with
  | nil =>
    obtain ⟨s', chunks', hmore, hread⟩ := readLoop_byte hrest out text.length
    rw [List.length_nil, Nat.add_zero] at hfit
    rw [dif_pos hfit, if_pos rfl] at hread
    rw [List.append_nil]
    exact ⟨_, s', chunks', hread, hout.set hfit nul, hmore⟩
  | cons c l ih =>
    rw [List.mem_cons, not_or] at hl
    rw [List.length_cons] at hfit
    have hoi : text.length < bufSize := by omega
    obtain ⟨s', chunks', hmore, hread⟩ := readLoop_byte hrest out text.length
    rw [dif_pos hoi, if_neg (Ne.symm hl.1)] at hread
    have hset := hout.set hoi c
    have hlen : (text ++ [c]).length = text.length + 1 := List.length_append
    rw [← hlen] at hread
    have htext : text ++ c :: l = text ++ [c] ++ l := by rw [List.append_assoc]; rfl
    rw [hread, htext]
    exact ih hl.2 (by omega) hmore hset

/-- A longer line is written over the end of the array: its next byte or its NUL comes there. -/
theorem readLoop_overflow {l more : List Char} (hl : '\n' ∉ l) {oi : Nat}
    (hlong : bufSize ≤ oi + l.length) {s : Statics} {chunks : List Chunk} {d : Char}
    (hrest : s.unread ++ stream chunks = l ++ d :: more) (out : Vector Char bufSize) :
    ∃ i, readLoop out oi s chunks = .overflow i := by
  induction l generalizing s chunks out oi with
  | nil =>
    obtain ⟨s', chunks', -, hread⟩ := readLoop_byte hrest out oi
    rw [List.length_nil, Nat.add_zero] at hlong
    rw [dif_neg (Nat.not_lt.mpr hlong)] at hread
    exact ⟨oi, hread⟩
  | cons c l ih =>
    rw [List.mem_cons, not_or] at hl
    rw [List.length_cons] at hlong
    obtain ⟨s', chunks', hmore, hread⟩ := readLoop_byte hrest out oi
    by_cases hoi : oi < bufSize
    · rw [dif_pos hoi, if_neg (Ne.symm hl.1)] at hread
      rw [hread]
      exact ih hl.2 (by omega) hmore _
    · rw [dif_neg hoi] at hread
      exact ⟨oi, hread⟩

theorem readLoop_rest {l : List Char} (hl : '\n' ∉ l) {oi : Nat} (hfit : oi + l.length ≤ bufSize)
    {s : Statics} {chunks : List Chunk} (hrest : s.unread ++ stream chunks = l)
    (out : Vector Char bufSize) : ∃ s', s'.unread = [] ∧ readLoop out oi s chunks = .null s' := by
  induction l generalizing s chunks out oi with
  | nil => exact ⟨s.closed, s.unread_closed, readLoop_end hrest out oi⟩
  | cons c l ih =>
    rw [List.mem_cons, not_or] at hl
    rw [List.length_cons] at hfit
    obtain ⟨s', chunks', hmore, hread⟩ := readLoop_byte hrest out oi
    rw [dif_pos (by omega), if_neg (Ne.symm hl.1)] at hread
    rw [hread]
    exact ih hl.2 (by omega) hmore _

/-- `readLine` at the end of the stream. -/
theorem readLine_end {l buf : List Char} {chunks : List (List Char)} (hl : '\n' ∉ l)
    (hflow : ∀ chunk ∈ chunks, chunk ≠ []) (out : List Char) (hrest : buf ++ chunks.flatten = l) :
    readLine out buf chunks = if bufSize < (out ++ l).length then .overflow else .closed := by
  induction chunks generalizing out buf l with
  | nil =>
    rw [List.flatten_nil, List.append_nil] at hrest
    rw [readLine, copyToNewline_part (hrest ▸ hl), hrest]
  | cons chunk chunks ih =>
    obtain ⟨hchunk, hflow⟩ := List.forall_mem_cons.mp hflow
    subst hrest
    rw [List.mem_append, not_or] at hl
    rw [readLine_part hl.1 _ _ _ hchunk, ih hl.2 hflow (out ++ buf) rfl, List.append_assoc]
    split_ifs with hlong hall hall
    · rfl
    · rw [List.length_append, List.length_append] at hall
      rw [List.length_append] at hlong
      omega
    · rfl
    · rfl

/-- `readLine` has no positions, and the array that a call returns is a C string. -/
def Call.Agrees : Call → LineRead → Prop
  | .line out s chunks, .line text next =>
    cString out.toList = text ∧ s.unread ++ stream chunks = next.rest
  | .null _, .closed => True
  | .overflow _, .overflow => True
  | _, _ => False

theorem cString_append_nul (l more : List Char) : cString (l ++ nul :: more) = cString l :=
  Lib.takeWhile_ne_append_end l more

/-- The loop on the static buffer does what `readLine` does on the bytes. -/
theorem readLoop_agrees {out : Vector Char bufSize} {text : List Char} (hout : Begins out text)
    (s : Statics) (chunks : List Chunk) :
    (readLoop out text.length s chunks).Agrees
      (readLine text s.unread (chunks.map Chunk.bytes)) := by
  have hflow : ∀ chunk ∈ chunks.map Chunk.bytes, chunk ≠ [] :=
    List.forall_mem_map.mpr fun chunk _ => chunk.nonempty
  by_cases hline : '\n' ∈ s.unread ++ stream chunks
  · obtain ⟨l, more, hrest, hl⟩ := List.eq_append_cons_of_mem hline
    rcases readLine_spec hl hflow text hrest with ⟨hlong, hread⟩ | ⟨hfit, next, -, hmore, hread⟩
    · rw [List.length_append] at hlong
      obtain ⟨i, hloop⟩ := readLoop_overflow hl hlong hrest out
      rw [hread, hloop]
      trivial
    · rw [List.length_append] at hfit
      obtain ⟨out', s', chunks', hloop, ⟨fill, hfill⟩, hmore'⟩ := readLoop_line hl hfit hrest hout
      rw [hread, hloop]
      refine ⟨?_, hmore'.trans hmore.symm⟩
      rw [← hfill, List.append_assoc, List.singleton_append, cString_append_nul]
  · rw [readLine_end hline hflow text rfl, List.length_append]
    split_ifs with hlong
    · have hroom := hout.length_le
      rw [Vector.length_toList] at hroom
      change bufSize < text.length + (s.unread ++ stream chunks).length at hlong
      rcases List.eq_nil_or_concat (s.unread ++ stream chunks) with hnil | ⟨l, d, hrest⟩
      · rw [hnil, List.length_nil] at hlong
        omega
      · rw [List.concat_eq_append] at hrest
        rw [hrest, List.length_append, List.length_singleton] at hlong
        rw [hrest, List.mem_append, not_or] at hline
        have hover : bufSize ≤ text.length + l.length := by omega
        obtain ⟨i, hloop⟩ := readLoop_overflow hline.1 hover hrest out
        rw [hloop]
        trivial
    · obtain ⟨s', -, hloop⟩ := readLoop_rest hline (Nat.le_of_not_lt hlong) rfl out
      rw [hloop]
      trivial

/-- A call returns a line, as a C string with its NUL, or `NULL`. -/
def Call.Returns : Call → Option (List Char) → Prop
  | .line out _ _, some l => Begins out (l ++ [nul])
  | .null _, none => True
  | _, _ => False

theorem calls_end (malloc : Nat → Vector Char bufSize) (n : Nat) {s : Statics}
    (hrest : s.unread = []) :
    List.Forall₂ Call.Returns (calls malloc n s []) (List.replicate n none) := by
  induction n generalizing s with
  | zero => exact .nil
  | succ n ih =>
    have hend : s.unread ++ stream [] = [] := by rw [hrest]; rfl
    rw [calls, readLoop_end hend, List.replicate_succ]
    exact .cons trivial (ih s.unread_closed)

/-- The calls return the lines of the stream in order, however it is cut, and then `NULL`. -/
theorem calls_lines_from (malloc : Nat → Vector Char bufSize) {lines : List (List Char)}
    (hlines : ∀ l ∈ lines, '\n' ∉ l ∧ l.length < bufSize) {rest : List Char} (hrest : '\n' ∉ rest)
    (hfit : rest.length ≤ bufSize) {s : Statics} {chunks : List Chunk}
    (hstream : s.unread ++ stream chunks = lines.flatMap (· ++ ['\n']) ++ rest) (n : Nat) :
    List.Forall₂ Call.Returns (calls malloc (lines.length + n) s chunks)
      (lines.map some ++ List.replicate n none) := by
  induction lines generalizing s chunks with
  | nil =>
    cases n with
    | zero =>
      exact .nil
    | succ n =>
      rw [← Nat.zero_add rest.length] at hfit
      obtain ⟨s', hs', hread⟩ := readLoop_rest hrest hfit hstream (malloc n)
      rw [List.length_nil, Nat.zero_add, calls, hread]
      exact .cons trivial (calls_end malloc n hs')
  | cons l lines ih =>
    obtain ⟨⟨hl, hshort⟩, hlines⟩ := List.forall_mem_cons.mp hlines
    rw [List.flatMap_cons, List.append_assoc, List.append_assoc, List.singleton_append] at hstream
    have hcalls : (l :: lines).length + n = lines.length + n + 1 := by
      rw [List.length_cons]
      omega
    have hnone : Begins (malloc (lines.length + n)) [] := List.nil_prefix
    obtain ⟨out', s', chunks', hread, hout, hmore⟩ :=
      readLoop_line hl (by simpa using hshort) hstream hnone
    rw [List.length_nil] at hread
    rw [hcalls, calls, hread]
    exact .cons hout (ih hlines hmore)

/-- No call writes behind the end of its array as long as the lines are short enough. -/
theorem calls_overflow_iff (malloc : Nat → Vector Char bufSize) {lines : List (List Char)}
    (hlines : ∀ l ∈ lines, '\n' ∉ l) {s : Statics} {chunks : List Chunk}
    (hstream : s.unread ++ stream chunks = lines.flatMap (· ++ ['\n'])) (n : Nat) :
    (∀ i, .overflow i ∉ calls malloc n s chunks) ↔ ∀ l ∈ lines.take n, l.length < bufSize := by
  induction n generalizing lines s chunks with
  | zero => simp [calls]
  | succ n ih =>
    cases lines with
    | nil =>
      rw [calls, readLoop_end hstream]
      have hend : s.closed.unread ++ stream [] =
          ([] : List (List Char)).flatMap (· ++ ['\n']) := rfl
      have hrest := ih (List.forall_mem_nil _) hend
      rw [List.take_nil] at hrest ⊢
      simp only [List.mem_cons, reduceCtorEq, false_or]
      exact hrest
    | cons l lines =>
      obtain ⟨hl, hlines⟩ := List.forall_mem_cons.mp hlines
      rw [List.flatMap_cons, List.append_assoc, List.singleton_append] at hstream
      rw [List.take_succ_cons, List.forall_mem_cons]
      by_cases hshort : l.length < bufSize
      · have hnone : Begins (malloc n) [] := List.nil_prefix
        obtain ⟨out', s', chunks', hread, -, hmore⟩ :=
          readLoop_line hl (by simpa using hshort) hstream hnone
        rw [List.length_nil] at hread
        rw [calls, hread]
        simp only [List.mem_cons, reduceCtorEq, false_or]
        rw [ih hlines hmore]
        exact (and_iff_right hshort).symm
      · have hlong : bufSize ≤ 0 + l.length := by omega
        obtain ⟨i, hread⟩ := readLoop_overflow hl hlong hstream (malloc n)
        rw [calls, hread]
        exact iff_of_false (fun h => h i List.mem_cons_self) fun h => hshort h.1

/-- `read_line` returns the newline-terminated lines of what the server sends, each once and in
order, and `NULL` behind them, whatever the chunks are that `recv` returns. -/
theorem readLine_segments (malloc : Nat → Vector Char bufSize) (lines : List (List Char))
    (hlines : ∀ l ∈ lines, '\n' ∉ l ∧ l.length < bufSize) (rest : List Char)
    (hrest : '\n' ∉ rest ∧ rest.length ≤ bufSize) (chunks : List Chunk)
    (hstream : stream chunks = lines.flatMap (· ++ ['\n']) ++ rest) (n : Nat) :
    List.Forall₂ Call.Returns (calls malloc (lines.length + n) .initial chunks)
      (lines.map some ++ List.replicate n none) :=
  calls_lines_from malloc hlines hrest.1 hrest.2 (Statics.unread_initial ▸ hstream) n

/-- A line over two chunks, an empty one behind it in the second, and a byte that is left. -/
theorem readLine_segments_two :
    List.Forall₂ Call.Returns
      (calls (fun _ => Vector.replicate bufSize '?') 3 .initial
        [⟨['h'], by decide, by decide⟩, ⟨['i', '\n', '\n', 'x'], by decide, by decide⟩])
      [some ['h', 'i'], some [], none] :=
  readLine_segments _ [['h', 'i'], []] (by decide) ['x'] (by decide) _ rfl 1

end Osisp.Lab8
