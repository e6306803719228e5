import Osisp.Lib.Segments
import Osisp.Lib.Terminated

namespace Osisp.Lib.Stdio

universe u

/-- The characters that end a C string and a line. -/
class Alphabet (α : Type u) where
  nul : α
  newline : α
  nul_ne_newline : nul ≠ newline

export Alphabet (nul newline)

instance : Alphabet UInt8 := ⟨0, 10, by decide⟩

instance : Alphabet Char := ⟨Char.ofNat 0, '\n', by decide⟩

variable {α : Type u} [DecidableEq α] [Alphabet α]

/-- `fgets` into a buffer of `size` bytes: what it stores of the stream, without the NUL. -/
def fgets (size : Nat) (stream : List α) : List α :=
  takeThrough (· == newline) (stream.take (size - 1))

/-- The C string in a buffer that starts with these bytes. -/
def cString (buf : List α) : List α := buf.takeWhile (· ≠ nul)

/-- The C string after `line[strcspn(line, "\n")] = 0`. -/
def cutNewline (buf : List α) : List α := (cString buf).takeWhile (· ≠ newline)

/-- The next line of a stream, with its newline if it has one. -/
def nextLine (stream : List α) : List α := takeThrough (· == newline) stream

variable {size : Nat} {stream : List α}

theorem nextLine_append {line : List α} (hline : newline ∉ line) (more : List α) :
    nextLine (line ++ newline :: more) = line ++ [newline] := by
  apply takeThrough_append
  · intro c hc
    have hne : c ≠ newline := fun h => hline (h ▸ hc)
    simpa using hne
  · exact beq_self_eq_true newline

theorem fgets_eq_take (size : Nat) (stream : List α) :
    fgets size stream = (nextLine stream).take (size - 1) := takeThrough_take _ _ _

theorem fgets_of_short (h : (nextLine stream).length < size) :
    fgets size stream = nextLine stream := by
  rw [fgets_eq_take]
  exact List.take_of_length_le (Nat.le_sub_one_of_lt h)

theorem fgets_length_lt (hsize : 0 < size) (stream : List α) :
    (fgets size stream).length < size := by
  rw [fgets_eq_take, List.length_take]
  omega

theorem fgets_isPrefix (size : Nat) (stream : List α) : fgets size stream <+: stream :=
  (takeThrough_isPrefix _ _).trans (List.take_prefix _ _)

theorem fgets_length_pos (hsize : 1 < size) (h : stream ≠ []) :
    0 < (fgets size stream).length := by
  obtain ⟨c, rest, rfl⟩ := List.exists_cons_of_ne_nil h
  obtain ⟨room, rfl⟩ : ∃ room, size = room + 2 := ⟨size - 2, by omega⟩
  exact takeThrough_length_pos (List.cons_ne_nil c (rest.take room))

/-- What the calls of `fgets` store one after the other, up to the end of the stream. -/
def fgetsAll (size : Nat) (stream : List α) : List (List α) :=
  if _ : 1 < size ∧ stream ≠ [] then
    fgets size stream :: fgetsAll size (stream.drop (fgets size stream).length)
  else []
termination_by stream.length
decreasing_by
  rename_i h
  have hstore := fgets_length_pos h.1 h.2
  have hstream := List.length_pos_iff.mpr h.2
  rw [List.length_drop]
  omega

theorem fgetsAll_length {buf : List α} (h : buf ∈ fgetsAll size stream) : buf.length < size := by
  fun_induction fgetsAll size stream with
  | case1 stream hmore ih =>
    rcases List.mem_cons.mp h with rfl | h
    · exact fgets_length_lt (by omega) stream
    · exact ih h
  | case2 => cases h

theorem fgetsAll_cons {line : List α} (hline : newline ∉ line) (hshort : line.length + 1 < size)
    (more : List α) :
    fgetsAll size (line ++ newline :: more) = (line ++ [newline]) :: fgetsAll size more := by
  have hnext := nextLine_append hline more
  have hget : fgets size (line ++ newline :: more) = line ++ [newline] := by
    rw [fgets_of_short (by rwa [hnext, List.length_append, List.length_singleton]), hnext]
  have hdrop : (line ++ newline :: more).drop (line ++ [newline]).length = more := by
    have hjoin : line ++ newline :: more = (line ++ [newline]) ++ more := by simp
    rw [hjoin, List.drop_left]
  rw [fgetsAll, dif_pos ⟨by omega, by simp⟩, hget, hdrop]

theorem fgetsAll_flatten (hsize : 1 < size) (stream : List α) :
    (fgetsAll size stream).flatten = stream := by
  fun_induction fgetsAll size stream with
  | case1 stream h ih =>
    rw [List.flatten_cons, ih]
    exact List.prefix_iff_eq_append.mp (fgets_isPrefix size stream)
  | case2 stream h =>
    rw [not_and_or, not_not] at h
    exact (h.resolve_left (not_not.mpr hsize)).symm

theorem nul_notMem_cString (buf : List α) : nul ∉ cString buf := notMem_takeWhile_ne nul buf

theorem cString_eq_self_iff {buf : List α} : cString buf = buf ↔ nul ∉ buf :=
  takeWhile_ne_eq_self_iff

theorem cString_append_of_mem {buf : List α} (h : nul ∈ buf) (more : List α) :
    cString (buf ++ more) = cString buf := takeWhile_ne_append_of_mem h more

theorem newline_notMem_cutNewline (buf : List α) : newline ∉ cutNewline buf :=
  notMem_takeWhile_ne newline _

theorem nul_notMem_cutNewline (buf : List α) : nul ∉ cutNewline buf := fun h =>
  nul_notMem_cString buf ((List.takeWhile_sublist _).subset h)

theorem cutNewline_length_le (buf : List α) : (cutNewline buf).length ≤ buf.length :=
  ((List.takeWhile_sublist _).trans (List.takeWhile_sublist _)).length_le

theorem cutNewline_append (buf more : List α) :
    cutNewline (buf ++ newline :: more) = cutNewline buf := by
  by_cases hnul : nul ∈ buf
  · rw [cutNewline, cString_append_of_mem hnul, cutNewline]
  · have hpass : (newline : α) ≠ nul := Alphabet.nul_ne_newline.symm
    have hstring : cString (buf ++ newline :: more) = buf ++ newline :: cString more := by
      rw [cString, takeWhile_ne_append hnul, List.takeWhile_cons_of_pos (by simpa using hpass),
        cString]
    rw [cutNewline, hstring, takeWhile_ne_append_end, cutNewline, cString_eq_self_iff.mpr hnul]

theorem cutNewline_eq_cString {line : List α} (hline : newline ∉ line) :
    cutNewline line = cString line :=
  takeWhile_ne_eq_self_iff.mpr fun h => hline ((List.takeWhile_sublist _).subset h)

theorem cutNewline_line {line buf : List α} (hline : newline ∉ line)
    (hbuf : buf = line ∨ buf = line ++ [newline]) : cutNewline buf = cString line := by
  rcases hbuf with rfl | rfl
  · exact cutNewline_eq_cString hline
  · rw [cutNewline_append, cutNewline_eq_cString hline]

theorem flatMap_cString_eq_iff (bufs : List (List α)) :
    bufs.flatMap cString = bufs.flatten ↔ nul ∉ bufs.flatten := by
  constructor
  · intro h
    rw [← h]
    intro hmem
    obtain ⟨buf, -, hbuf⟩ := List.mem_flatMap.mp hmem
    exact nul_notMem_cString buf hbuf
  · intro h
    have hself : ∀ buf ∈ bufs, cString buf = buf := fun buf hbuf =>
      cString_eq_self_iff.mpr fun h0 => h (List.mem_flatten.mpr ⟨buf, hbuf, h0⟩)
    rw [List.flatMap_congr hself, List.flatMap_id']

end Osisp.Lib.Stdio
