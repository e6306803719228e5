import Osisp.AccessManager.Main

namespace Osisp.AccessManager

abbrev Token := List Char

/-- The word behind each program. -/
def endWord : Token := ['-', '-']

/-- The word in front of a program's patterns. -/
def filesWord : Token := "--files".toList

/-- The variable `i`, and a record of its values at every `i++`. -/
structure Cursor where
  i : Nat
  taken : List Nat

def Cursor.next (c : Cursor) : Cursor := ⟨c.i + 1, c.taken ++ [c.i]⟩

/-- The two inner loops: the words up to one that stops the loop. -/
def readWords (argv : List Token) (stops : Token → Bool) (words : List Token) (c : Cursor) :
    List Token × Cursor :=
  if hi : c.i < argv.length then
    if stops argv[c.i] then (words, c)
    else readWords argv stops (words ++ [argv[c.i]]) c.next
  else (words, c)
termination_by argv.length - c.i
decreasing_by
  simp only [Cursor.next]
  omega

/-- The arguments of a program. -/
def readArgs (argv : List Token) (name : Token) (c : Cursor) : List Token × Cursor :=
  readWords argv (fun word => word == endWord || word == filesWord) [name] c

/-- The patterns of a program, with the word in front of them. -/
def readPatterns (argv : List Token) (c : Cursor) : List Token × Cursor :=
  if hi : c.i < argv.length then
    if argv[c.i] = filesWord then readWords argv (fun word => word == endWord) [] c.next
    else ([], c)
  else ([], c)

theorem readWords_le (argv : List Token) (stops : Token → Bool) (words : List Token) (c : Cursor) :
    c.i ≤ (readWords argv stops words c).2.i := by
  fun_induction readWords argv stops words c with
  | case1 => exact Nat.le_refl _
  | case2 words c hi hgo ih => exact Nat.le_trans (Nat.le_succ _) ih
  | case3 => exact Nat.le_refl _

theorem readPatterns_le (argv : List Token) (c : Cursor) : c.i ≤ (readPatterns argv c).2.i := by
  unfold readPatterns
  split_ifs
  · exact Nat.le_trans (Nat.le_succ _) (readWords_le argv _ [] c.next)
  · exact Nat.le_refl _
  · exact Nat.le_refl _

/-- The outer loop of `main`. -/
def readPrograms (argv : List Token) (programs : List ProgramInfo) (c : Cursor) :
    List ProgramInfo × Cursor :=
  if hi : c.i < argv.length then
    if argv[c.i] = endWord then readPrograms argv programs c.next
    else
      let name := argv[c.i]
      let args := readArgs argv name c.next
      let patterns := readPatterns argv args.2
      readPrograms argv (programs ++ [⟨name, args.1, patterns.1⟩]) patterns.2
  else (programs, c)
termination_by argv.length - c.i
decreasing_by
  · simp only [Cursor.next]
    omega
  · have hargs := readWords_le argv (fun word => word == endWord || word == filesWord) [argv[c.i]]
      c.next
    have hpatterns := readPatterns_le argv (readArgs argv argv[c.i] c.next).2
    simp only [Cursor.next, readArgs] at *
    omega

/-- The programs on a command line with at least a directory, which is `argv[1]`. -/
def parse (argv : List Token) : List ProgramInfo × Cursor := readPrograms argv [] ⟨2, []⟩

/-- What a user asks for. -/
structure Spec where
  name : Token
  arguments : List Token
  patterns : List Token

/-- How patterns are written down, if there are any. -/
def patternWords (patterns : List Token) : List Token :=
  if patterns = [] then [] else filesWord :: patterns

/-- How it is written down. -/
def Spec.encode (s : Spec) : List Token :=
  s.name :: s.arguments ++ patternWords s.patterns ++ [endWord]

def Spec.program (s : Spec) : ProgramInfo := ⟨s.name, s.name :: s.arguments, s.patterns⟩

/-- It can be written down. -/
structure Spec.Plain (s : Spec) : Prop where
  name_ne : s.name ≠ endWord
  arguments_ne : ∀ word ∈ s.arguments, word ≠ endWord ∧ word ≠ filesWord
  patterns_ne : ∀ word ∈ s.patterns, word ≠ endWord

/-- The cursor behind the next `n` words. -/
def Cursor.skip (c : Cursor) (n : Nat) : Cursor := ⟨c.i + n, c.taken ++ List.range' c.i n⟩

theorem Cursor.skip_zero (c : Cursor) : c.skip 0 = c := by
  rw [Cursor.skip, List.range'_zero, List.append_nil, Nat.add_zero]

theorem Cursor.next_eq_skip (c : Cursor) : c.next = c.skip 1 := rfl

theorem Cursor.next_skip (c : Cursor) (n : Nat) : c.next.skip n = c.skip (n + 1) := by
  rw [Cursor.skip, Cursor.skip, Cursor.next, List.range'_succ, List.append_assoc,
    Nat.add_right_comm]
  rfl

theorem Cursor.skip_skip (c : Cursor) (m n : Nat) : (c.skip m).skip n = c.skip (m + n) := by
  simp only [Cursor.skip, List.append_assoc, Nat.add_assoc, List.range'_append_1]

section Take

variable {argv rest : List Token} {c : Cursor}

theorem word_at {word : Token} (h : argv.drop c.i = word :: rest) :
    ∃ hi : c.i < argv.length, argv[c.i] = word ∧ argv.drop c.next.i = rest := by
  have hi : c.i < argv.length := by
    by_contra hend
    rw [List.drop_eq_nil_of_le (by omega)] at h
    cases h
  rw [List.drop_eq_getElem_cons hi] at h
  exact ⟨hi, List.cons_eq_cons.mp h⟩

/-- An inner loop takes the words in front of the one that stops it. -/
theorem readWords_eq {stops : Token → Bool} {words : List Token} (before : List Token)
    (hwords : ∀ word ∈ words, stops word = false) (hstop : ∀ word ∈ rest.head?, stops word = true)
    (h : argv.drop c.i = words ++ rest) :
    readWords argv stops before c = (before ++ words, c.skip words.length) := by
  induction words generalizing before c with
  | nil =>
    rw [List.nil_append] at h
    rw [List.append_nil, List.length_nil, Cursor.skip_zero, readWords]
    cases rest with
    | nil => rw [dif_neg (Nat.not_lt.mpr (List.drop_eq_nil_iff.mp h))]
    | cons word rest =>
      obtain ⟨hi, hword, -⟩ := word_at h
      rw [dif_pos hi, hword, if_pos (hstop word rfl)]
  | cons word words ih =>
    obtain ⟨hi, hword, hrest⟩ := word_at h
    have hgo := hwords word List.mem_cons_self
    have hnext := ih (before ++ [word]) (fun w hw => hwords w (List.mem_cons_of_mem _ hw)) hrest
    rw [readWords, dif_pos hi, hword, hgo, if_neg Bool.false_ne_true, hnext, Cursor.next_skip,
      List.append_assoc]
    rfl

theorem drop_skip {words : List Token} (h : argv.drop c.i = words ++ rest) :
    argv.drop (c.skip words.length).i = rest := by
  rw [Cursor.skip, ← List.drop_drop, h, List.drop_left]

/-- A program's patterns, as they are written down. -/
theorem readPatterns_eq {patterns : List Token} (hpatterns : ∀ word ∈ patterns, word ≠ endWord)
    (h : argv.drop c.i = patternWords patterns ++ endWord :: rest) :
    readPatterns argv c = (patterns, c.skip (patternWords patterns).length) := by
  by_cases hnone : patterns = []
  · rw [hnone, patternWords, if_pos rfl, List.nil_append] at h
    obtain ⟨hi, hword, -⟩ := word_at h
    have hne : argv[c.i] ≠ filesWord := by
      rw [hword]
      decide
    rw [hnone, readPatterns, dif_pos hi, if_neg hne, patternWords, if_pos rfl, List.length_nil,
      Cursor.skip_zero]
  · rw [patternWords, if_neg hnone, List.cons_append] at h
    obtain ⟨hi, hword, hrest⟩ := word_at h
    have hgo : ∀ word ∈ patterns, (word == endWord) = false := fun word hw =>
      beq_eq_false_iff_ne.mpr (hpatterns word hw)
    have hread := readWords_eq [] hgo (by simp) hrest
    rw [readPatterns, dif_pos hi, if_pos hword, hread, Cursor.next_skip, patternWords,
      if_neg hnone, List.nil_append, List.length_cons]

/-- One program, as it is written down. -/
theorem readPrograms_encode {s : Spec} (hs : s.Plain) (programs : List ProgramInfo)
    (h : argv.drop c.i = s.encode ++ rest) :
    readPrograms argv programs c
      = readPrograms argv (programs ++ [s.program]) (c.skip s.encode.length) := by
  have hsplit : s.encode ++ rest
      = s.name :: (s.arguments ++ (patternWords s.patterns ++ endWord :: rest)) := by
    simp only [Spec.encode, List.append_assoc, List.cons_append, List.nil_append]
  rw [hsplit] at h
  obtain ⟨hi, hname, hbehind⟩ := word_at h
  have hargs : readArgs argv s.name c.next
      = (s.name :: s.arguments, c.next.skip s.arguments.length) := by
    apply readWords_eq [s.name] _ _ hbehind
    · intro word hw
      obtain ⟨hend, hfiles⟩ := hs.arguments_ne word hw
      simp [hend, hfiles]
    · intro word hw
      simp only [patternWords] at hw
      split_ifs at hw <;> simp_all
  have hpatterns := readPatterns_eq hs.patterns_ne (drop_skip hbehind)
  have hstop := word_at (drop_skip (drop_skip hbehind))
  have hcursor : ((c.next.skip s.arguments.length).skip (patternWords s.patterns).length).next
      = c.skip s.encode.length := by
    rw [Cursor.next_eq_skip, Cursor.next_skip, Cursor.skip_skip, Cursor.skip_skip]
    congr 1
    simp only [Spec.encode, List.length_append, List.length_cons, List.length_nil]
    omega
  obtain ⟨hi', hend, -⟩ := hstop
  rw [readPrograms, dif_pos hi, if_neg (by rw [hname]; exact hs.name_ne)]
  simp only [hname, hargs, hpatterns]
  rw [readPrograms, dif_pos hi', if_pos hend, hcursor]
  rfl

theorem readPrograms_flatMap {specs : List Spec} (hs : ∀ s ∈ specs, s.Plain)
    (programs : List ProgramInfo) (h : argv.drop c.i = specs.flatMap Spec.encode) :
    (readPrograms argv programs c).1 = programs ++ specs.map Spec.program := by
  induction specs generalizing programs c with
  | nil =>
    rw [readPrograms, dif_neg (Nat.not_lt.mpr (List.drop_eq_nil_iff.mp h)), List.map_nil,
      List.append_nil]
  | cons s specs ih =>
    rw [List.flatMap_cons] at h
    have hrest := ih (fun t ht => hs t (List.mem_cons_of_mem _ ht)) (programs ++ [s.program])
      (drop_skip h)
    rw [readPrograms_encode (hs s List.mem_cons_self) programs h, hrest, List.append_assoc]
    rfl

end Take

section Taken

variable {argv : List Token}

theorem readWords_skip (stops : Token → Bool) (words : List Token) (c : Cursor)
    (hc : c.i ≤ argv.length) :
    ∃ n, (readWords argv stops words c).2 = c.skip n ∧ c.i + n ≤ argv.length := by
  fun_induction readWords argv stops words c with
  | case1 words c => exact ⟨0, c.skip_zero.symm, hc⟩
  | case2 words c hi hgo ih =>
    obtain ⟨n, hskip, hn⟩ := ih hi
    refine ⟨n + 1, by rw [hskip, Cursor.next_skip], ?_⟩
    simp only [Cursor.next] at hn
    omega
  | case3 words c => exact ⟨0, c.skip_zero.symm, hc⟩

theorem readPatterns_skip (c : Cursor) (hc : c.i ≤ argv.length) :
    ∃ n, (readPatterns argv c).2 = c.skip n ∧ c.i + n ≤ argv.length := by
  unfold readPatterns
  split_ifs with hi hfiles
  · obtain ⟨n, hskip, hn⟩ := readWords_skip (fun word => word == endWord) [] c.next hi
    refine ⟨n + 1, by rw [hskip, Cursor.next_skip], ?_⟩
    simp only [Cursor.next] at hn
    omega
  · exact ⟨0, c.skip_zero.symm, hc⟩
  · exact ⟨0, c.skip_zero.symm, hc⟩

theorem readPrograms_skip (programs : List ProgramInfo) (c : Cursor) (hc : c.i ≤ argv.length) :
    (readPrograms argv programs c).2 = c.skip (argv.length - c.i) := by
  fun_induction readPrograms argv programs c with
  | case1 programs c hi hend ih =>
    rw [ih hi, Cursor.next_skip]
    congr 1
    simp only [Cursor.next]
    omega
  | case2 programs c hi hend name args patterns ih =>
    obtain ⟨m, hargs, hm⟩ :=
      readWords_skip (fun word => word == endWord || word == filesWord) [name] c.next hi
    have hmid : args.2.i ≤ argv.length := by
      rw [show args.2 = c.next.skip m from hargs]
      exact hm
    obtain ⟨n, hpatterns, hn⟩ := readPatterns_skip args.2 hmid
    have hskip : patterns.2 = c.skip (m + 1 + n) := by
      rw [show patterns.2 = args.2.skip n from hpatterns,
        show args.2 = c.next.skip m from hargs, Cursor.next_skip, Cursor.skip_skip]
    have hle : c.i + (m + 1 + n) ≤ argv.length := by
      rw [show args.2 = c.next.skip m from hargs] at hn
      simp only [Cursor.next, Cursor.skip] at hn
      omega
    rw [hskip] at ih ⊢
    rw [ih hle, Cursor.skip_skip]
    congr 1
    simp only [Cursor.skip]
    omega
  | case3 programs c hi =>
    rw [show argv.length - c.i = 0 by omega, Cursor.skip_zero]

theorem parse_taken (argv : List Token) :
    (parse argv).2.taken = List.range' 2 (argv.length - 2) := by
  by_cases hc : 2 ≤ argv.length
  · rw [parse, readPrograms_skip [] ⟨2, []⟩ hc]
    rfl
  · rw [parse, readPrograms, dif_neg (by simp only; omega), show argv.length - 2 = 0 by omega]
    rfl

end Taken

/-- The command line gives back what was written on it, and every command line is read to its end,
word after word. -/
theorem parse_round_trip :
    (∀ (program directory : Token) (specs : List Spec), (∀ s ∈ specs, s.Plain) →
      (parse (program :: directory :: specs.flatMap Spec.encode)).1 = specs.map Spec.program) ∧
    ∀ argv : List Token, (parse argv).2.taken = List.range' 2 (argv.length - 2) := by
  refine ⟨?_, parse_taken⟩
  intro program directory specs hs
  have hwords : (program :: directory :: specs.flatMap Spec.encode).drop (Cursor.mk 2 []).i =
      specs.flatMap Spec.encode := rfl
  have hall := readPrograms_flatMap hs [] hwords
  rwa [List.nil_append] at hall

/-- Three of the programs of comand.txt; the second one also gets `--files` for a pattern. -/
def sampleSpecs : List Spec :=
  [⟨"wc".toList, ["-l".toList], [".txt".toList, ".log".toList]⟩,
    ⟨"grep".toList, ["error".toList], [".log".toList, filesWord]⟩,
    ⟨"cat".toList, [], []⟩]

theorem sampleSpecs_plain : ∀ s ∈ sampleSpecs, s.Plain := by
  intro s hs
  simp only [sampleSpecs, List.mem_cons, List.not_mem_nil, or_false] at hs
  obtain rfl | rfl | rfl := hs
  all_goals exact ⟨by decide, by decide, by decide⟩

theorem parse_round_trip_sample :
    (parse ("access_manager".toList :: "./test".toList ::
      ["wc".toList, "-l".toList, "--files".toList, ".txt".toList, ".log".toList, "--".toList,
        "grep".toList, "error".toList, "--files".toList, ".log".toList, "--files".toList,
        "--".toList, "cat".toList, "--".toList])).1 = sampleSpecs.map Spec.program :=
  parse_round_trip.1 _ _ sampleSpecs sampleSpecs_plain

end Osisp.AccessManager
