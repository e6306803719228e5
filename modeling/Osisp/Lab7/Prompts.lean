import Mathlib.Data.List.GetD
import Osisp.Lab7.Record

namespace Osisp.Lab7

open Osisp.Lib Osisp.Lib.Stdio

inductive Prompt where
  | name
  | address
  | semester
  deriving DecidableEq, Repr

/-- The loop behind the one for this field. -/
def Prompt.next : Prompt → Option Prompt
  | .name => some .address
  | .address => some .semester
  | .semester => none

def Prompt.enter : Prompt → List UInt8 → Record → Option Record
  | .name => enterName
  | .address => enterAddress
  | .semester => enterSemester

/-- What `do_get` prints before it asks again. -/
def Prompt.complaint : Prompt → String
  | .name => "Invalid name length.\n"
  | .address => "Invalid address length.\n"
  | .semester => "Invalid semester. Must be a number 1-12.\n"

/-- What comes of one answer: the field is kept, `work_rec` is changed, or a message is printed and
the prompt comes again. -/
inductive Answer where
  | kept
  | entered (work : Record)
  | refused (message : String)
  deriving DecidableEq

def Answer.ofOption (message : String) : Option Record → Answer
  | some work => .entered work
  | none => .refused message

/-- The body of the loop at a prompt, behind `fgets`. -/
def answer (p : Prompt) (work : Record) (buf : List UInt8) : Answer :=
  if buf.head? = some newline then .kept else .ofOption p.complaint (p.enter buf work)

/-- The loop that comes next, and `work_rec`. -/
def Answer.next (p : Prompt) (work : Record) : Answer → Option Prompt × Record
  | .kept => (p.next, work)
  | .entered work => (p.next, work)
  | .refused _ => (some p, work)

/-- One turn of a loop: its prompt, what it takes from the input, and the answer. -/
structure Attempt where
  prompt : Prompt
  text : List UInt8
  answer : Answer
  deriving DecidableEq

/-- What the three loops come to: their turns, `work_rec`, and the input that is left. -/
structure Entered where
  attempts : List Attempt
  work : Record
  rest : List UInt8
  deriving DecidableEq

def Entered.after (a : Attempt) (e : Entered) : Entered := { e with attempts := a :: e.attempts }

theorem length_drop_lt {input : List UInt8} (h : input ≠ []) {n : Nat} (hn : 0 < n) :
    (input.drop n).length < input.length := by
  have hpos := List.length_pos_of_ne_nil h
  rw [List.length_drop]
  omega

/-- The loops of `do_get` from the one for `p` on. -/
def enterFields (p : Option Prompt) (work : Record) (input : List UInt8) : Entered :=
  match p with
  | none => ⟨[], work, input⟩
  | some p =>
    if _ : input = [] then ⟨[], work, []⟩
    else
      let buf := fgets addrLen input
      let rest := input.drop buf.length
      let a := answer p work buf
      let (p', work') := a.next p work
      (enterFields p' work' rest).after ⟨p, buf, a⟩
termination_by input.length
decreasing_by exact length_drop_lt ‹_› (fgets_length_pos (by decide) ‹_›)

/-- A line without its newline. -/
def content (line : List UInt8) : List UInt8 := line.takeWhile (· ≠ newline)

/-- The number from 1 to 12 that a line consists of. -/
def semesterOf (l : List UInt8) : Option Nat :=
  let (s, rest) := strtol l
  if rest = [] ∧ 1 ≤ s ∧ s ≤ 12 then some s.toNat else none

/-- `work_rec` with the field that the user gives in a line. -/
def Prompt.given : Prompt → List UInt8 → Record → Option Record
  | .name, l, work =>
    if l.length < nameLen then some { work with name := strncpy nameLen l } else none
  | .address, l, work =>
    if l.length < addrLen then some { work with address := strncpy addrLen l } else none
  | .semester, l, work => (semesterOf l).map fun s => { work with semester := s.toUInt8 }

/-- What a line says at a prompt. -/
def reply (p : Prompt) (work : Record) (line : List UInt8) : Answer :=
  if content line = [] then .kept else .ofOption p.complaint (p.given (content line) work)

/-- The answers to the prompts from `p` on, one whole line each. -/
def answered (p : Option Prompt) (work : Record) (input : List UInt8) : Entered :=
  match p with
  | none => ⟨[], work, input⟩
  | some p =>
    if _ : input = [] then ⟨[], work, []⟩
    else
      let line := nextLine input
      let rest := input.drop line.length
      let a := reply p work line
      let (p', work') := a.next p work
      (answered p' work' rest).after ⟨p, line, a⟩
termination_by input.length
decreasing_by exact length_drop_lt ‹_› (takeThrough_length_pos ‹_›)

/-- A text with at most NULs behind its first NUL, and not at its start. -/
def Clean (l : List UInt8) : Prop := l.head? ≠ some 0 ∧ ∀ c ∈ l.dropWhile (· ≠ 0), c = 0

/-- A line that the buffer has room for, and that is the same as a C string. -/
def Readable (p : Prompt) (line : List UInt8) : Prop :=
  line.length < addrLen ∧
    match p with
    | .semester => 0 ∈ content line → semesterOf (cString (content line)) = none
    | _ => Clean (content line)

/-- A line is its content, with a newline behind it or not. -/
theorem nextLine_cases (input : List UInt8) : newline ∉ content (nextLine input) ∧
    (nextLine input = content (nextLine input) ∨
      nextLine input = content (nextLine input) ++ [newline]) := by
  have hclean : newline ∉ content input := notMem_takeWhile_ne newline input
  refine ⟨notMem_takeWhile_ne newline _, ?_⟩
  have hfirst : nextLine input = content input ∨ nextLine input = content input ++ [newline] := by
    have hbeq : (fun c : UInt8 => !(c == newline)) = (fun c => decide (c ≠ newline)) := by
      funext c
      rw [Bool.eq_iff_iff]
      simp
    rw [nextLine, takeThrough_eq, hbeq]
    rcases hrest : input.dropWhile (fun c => decide (c ≠ newline)) with - | ⟨c, rest⟩
    · exact .inl (by rw [List.take_nil, List.append_nil]; rfl)
    · have hc := List.head?_dropWhile_not (fun c : UInt8 => decide (c ≠ newline)) input
      rw [hrest] at hc
      have hnl : c = newline := by simpa using hc
      exact .inr (by rw [hnl]; rfl)
  rcases hfirst with h | h
  · have hsame : content (nextLine input) = content input := by
      rw [h]
      exact takeWhile_ne_eq_self_iff.mpr hclean
    exact .inl (by rw [hsame, h])
  · have hsame : content (nextLine input) = content input := by
      rw [h, content, takeWhile_ne_append hclean]
      simp
    exact .inr (by rw [hsame, h])

theorem semesterOf_eq_none {l : List UInt8} (h : 0 ∈ l) : semesterOf l = none := by
  obtain ⟨a, more, rfl, -⟩ := List.eq_append_cons_of_mem h
  have hstop : strtol (a ++ 0 :: more) = ((strtol a).1, (strtol a).2 ++ 0 :: more) :=
    strtol_append a rfl rfl
  rw [semesterOf, hstop]
  exact if_neg fun hrest => absurd hrest.1 (by simp)

/-- `work_rec` with the semester that a text consists of. -/
theorem enterSemester_line {l line : List UInt8} (hl : newline ∉ l)
    (hline : line = l ∨ line = l ++ [newline]) (work : Record) :
    enterSemester line work =
      (semesterOf (cString l)).map fun s => { work with semester := s.toUInt8 } := by
  obtain ⟨tail, htail, hstring⟩ : ∃ tail, (tail = [] ∨ tail = [newline]) ∧
      cString line = cString l ++ tail := by
    rcases hline with rfl | rfl
    · exact ⟨[], .inl rfl, (List.append_nil _).symm⟩
    · by_cases h0 : 0 ∈ l
      · exact ⟨[], .inl rfl, by rw [cString_append_of_mem h0, List.append_nil]⟩
      · have hall : 0 ∉ l ++ [newline] := List.not_mem_append h0 (by decide)
        refine ⟨[newline], .inr rfl, ?_⟩
        rw [cString_eq_self_iff.mpr hall, cString_eq_self_iff.mpr h0]
  have hread :
      strtol (cString line) = ((strtol (cString l)).1, (strtol (cString l)).2 ++ tail) := by
    rw [hstring]
    rcases htail with rfl | rfl
    · exact strtol_append _ rfl rfl
    · exact strtol_append _ rfl rfl
  -- the number is followed by the end of the string or by the newline exactly if nothing is left
  have hend : ((strtol (cString l)).2 ++ tail).headD 0 = newline ∨
      ((strtol (cString l)).2 ++ tail).headD 0 = 0 ↔ (strtol (cString l)).2 = [] := by
    have hsub := (strtol_suffix (cString l)).subset
    rcases hrest : (strtol (cString l)).2 with - | ⟨c, rest⟩
    · rcases htail with rfl | rfl
      · exact iff_of_true (.inr rfl) rfl
      · exact iff_of_true (.inl rfl) rfl
    · have hc : c ∈ cString l := hsub (hrest ▸ List.mem_cons_self)
      refine iff_of_false ?_ (List.cons_ne_nil _ _)
      rintro (h | h)
      · obtain rfl : c = newline := h
        exact hl ((List.takeWhile_sublist _).subset hc)
      · obtain rfl : c = 0 := h
        exact nul_notMem_cString l hc
  rw [enterSemester, hread, semesterOf]
  simp only [hend]
  split_ifs <;> simp_all

theorem strncpy_cString_iff {n : Nat} {l : List UInt8} (hlen : l.length ≤ n) :
    strncpy n (cString l) = strncpy n l ↔ ∀ c ∈ l.dropWhile (· ≠ 0), c = 0 := by
  have hsplit : cString l ++ l.dropWhile (· ≠ 0) = l := List.takeWhile_append_dropWhile
  generalize cString l = a at *
  generalize l.dropWhile (· ≠ 0) = d at *
  subst hsplit
  constructor
  · intro h c hc
    obtain ⟨j, hj, rfl⟩ := List.getElem_of_mem hc
    have hlt : a.length + j < n := by
      rw [List.length_append] at hlen
      omega
    have hbyte := congrArg (fun v : Vector UInt8 n => v[a.length + j]) h
    simp only [strncpy, Vector.getElem_ofFn] at hbyte
    rw [List.getD_append_right _ _ _ _ (Nat.le_add_right _ _), Nat.add_sub_cancel_left,
      List.getD_eq_default _ _ (Nat.le_add_right _ _), List.getD_eq_getElem _ _ hj] at hbyte
    exact hbyte.symm
  · intro h
    apply Vector.ext
    intro i hi
    simp only [strncpy, Vector.getElem_ofFn]
    by_cases hia : i < a.length
    · rw [List.getD_append _ _ _ _ hia]
    · have hai := Nat.le_of_not_lt hia
      rw [List.getD_append_right _ _ _ _ hai, List.getD_eq_default _ _ hai]
      by_cases hid : i - a.length < d.length
      · rw [List.getD_eq_getElem _ _ hid]
        exact (h _ (List.getElem_mem hid)).symm
      · rw [List.getD_eq_default _ _ (Nat.le_of_not_lt hid)]

theorem cString_eq_nil_iff {l : List UInt8} (hl : l ≠ []) : cString l = [] ↔ l.head? = some 0 := by
  obtain ⟨c, l, rfl⟩ := List.exists_cons_of_ne_nil hl
  by_cases hc : c = 0
  · simp [cString, nul, hc]
  · simp [cString, nul, hc]

theorem copy_eq_iff {n : Nat} {l : List UInt8} (hl : l ≠ []) (hlen : l.length < n)
    {put : Vector UInt8 n → Record} (hput : Function.Injective put) :
    (if 0 < (cString l).length ∧ (cString l).length < n then some (put (strncpy n (cString l)))
      else none) = (if l.length < n then some (put (strncpy n l)) else none) ↔ Clean l := by
  have hle : (cString l).length ≤ l.length := (List.takeWhile_sublist _).length_le
  have hfits : (cString l).length < n := Nat.lt_of_le_of_lt hle hlen
  rw [if_pos hlen, Clean, ← strncpy_cString_iff hlen.le, Ne, ← cString_eq_nil_iff hl]
  by_cases hnone : cString l = []
  · rw [hnone, if_neg (by simp)]
    exact iff_of_false (by simp) (by simp)
  · rw [if_pos ⟨List.length_pos_iff.mpr hnone, hfits⟩, Option.some.injEq, hput.eq_iff]
    exact (and_iff_right hnone).symm

theorem ofOption_injective (message : String) : Function.Injective (Answer.ofOption message) := by
  rintro (- | work) (- | work') h
  · rfl
  · cases h
  · cases h
  · cases h
    rfl

theorem answer_eq_iff (p : Prompt) (work : Record) {line : List UInt8}
    (hline : newline ∉ content line ∧ (line = content line ∨ line = content line ++ [newline]))
    (hne : line ≠ []) (hlen : line.length < addrLen) :
    answer p work line = reply p work line ↔ Readable p line := by
  obtain ⟨hclean, hcases⟩ := hline
  by_cases hempty : content line = []
  · -- the field is kept
    have hnl : line = [newline] := by
      rw [hempty] at hcases
      exact hcases.resolve_left hne
    have hclean : Clean (content line) := by
      rw [hempty]
      exact ⟨by simp, List.forall_mem_nil _⟩
    refine iff_of_true ?_ ⟨hlen, ?_⟩
    · rw [hnl]
      rfl
    · cases p with
      | semester =>
        rw [hempty]
        intro h
        exact absurd h List.not_mem_nil
      | _ => exact hclean
  have hhead : line.head? ≠ some newline := by
    obtain ⟨c, l, hcl⟩ := List.exists_cons_of_ne_nil hempty
    have hc : c ≠ newline := fun h => hclean (hcl ▸ h ▸ List.mem_cons_self)
    rcases hcases with h | h
    · rw [h, hcl]
      simpa using hc
    · rw [h, hcl]
      simpa using hc
  have hle : (content line).length ≤ line.length := (List.takeWhile_sublist _).length_le
  have hcut : cutNewline line = cString (content line) := cutNewline_line hclean hcases
  have hshort : (content line).length < addrLen := Nat.lt_of_le_of_lt hle hlen
  rw [answer, if_neg hhead, reply, if_neg hempty, (ofOption_injective _).eq_iff]
  unfold Readable
  rw [and_iff_right hlen]
  cases p with
  | name =>
    show enterName line work = _ ↔ Clean (content line)
    rw [enterName, hcut]
    have hput : Function.Injective fun v : Vector UInt8 nameLen => { work with name := v } :=
      fun v w h => congrArg Record.name h
    exact copy_eq_iff hempty hshort hput
  | address =>
    show enterAddress line work = _ ↔ Clean (content line)
    rw [enterAddress, hcut]
    have hput : Function.Injective fun v : Vector UInt8 addrLen => { work with address := v } :=
      fun v w h => congrArg Record.address h
    exact copy_eq_iff hempty hshort hput
  | semester =>
    show enterSemester line work = _ ↔
      (0 ∈ content line → semesterOf (cString (content line)) = none)
    rw [enterSemester_line hclean hcases]
    by_cases h0 : 0 ∈ content line
    · have hgiven : Prompt.semester.given (content line) work = none := by
        rw [Prompt.given, semesterOf_eq_none h0]
        rfl
      rw [hgiven, Option.map_eq_none_iff]
      exact ⟨fun h _ => h, fun h => h h0⟩
    · rw [cString_eq_self_iff.mpr h0]
      exact iff_of_true rfl fun h => absurd h h0

theorem after_eq_iff {a b : Attempt} {e f : Entered} : e.after a = f.after b ↔ a = b ∧ e = f := by
  obtain ⟨attempts, work, rest⟩ := e
  obtain ⟨attempts', work', rest'⟩ := f
  simp only [Entered.after, Entered.mk.injEq, List.cons.injEq]
  exact and_assoc

/-- From any of the prompts on. -/
theorem enterFields_eq_iff_from (p : Option Prompt) (work : Record) (input : List UInt8) :
    enterFields p work input = answered p work input ↔
      ∀ a ∈ (answered p work input).attempts, Readable a.prompt a.text := by
  induction hn : input.length using Nat.strong_induction_on generalizing p work input with
  | _ n ih =>
    cases p with
    | none =>
      rw [enterFields, answered]
      exact iff_of_true rfl (List.forall_mem_nil _)
    | some p =>
      by_cases hinput : input = []
      · rw [enterFields, answered, dif_pos hinput, dif_pos hinput]
        exact iff_of_true rfl (List.forall_mem_nil _)
      have hlinePos : 0 < (nextLine input).length := takeThrough_length_pos hinput
      have hline := nextLine_cases input
      have hne : nextLine input ≠ [] := List.ne_nil_of_length_pos hlinePos
      rw [enterFields, answered, dif_neg hinput, dif_neg hinput, after_eq_iff]
      show _ ↔ ∀ a ∈ (⟨p, nextLine input, reply p work (nextLine input)⟩ : Attempt) ::
        (answered _ _ _).attempts, Readable a.prompt a.text
      rw [List.forall_mem_cons]
      by_cases hreadable : Readable p (nextLine input)
      · -- both take the line and answer alike
        have htext := fgets_of_short hreadable.1
        have hanswer := (answer_eq_iff p work hline hne hreadable.1).mpr hreadable
        rw [htext, hanswer, eq_self, true_and, and_iff_right hreadable]
        exact ih _ (hn ▸ length_drop_lt hinput hlinePos) _ _ _ rfl
      · refine iff_of_false ?_ fun h => hreadable h.1
        rintro ⟨hattempt, -⟩
        have htext : fgets addrLen input = nextLine input := congrArg Attempt.text hattempt
        have hanswer := congrArg Attempt.answer hattempt
        have hlen : (nextLine input).length < addrLen := htext ▸ fgets_length_lt (by decide) input
        simp only [htext] at hanswer
        exact hreadable ((answer_eq_iff p work hline hne hlen).mp hanswer)

/-- `do_get` takes a whole line at each of its prompts, and puts exactly what the lines say into
`work_rec`, where every line it is given has room in its buffer and is the same as a string. -/
theorem enterFields_eq_iff (orig : Record) (input : List UInt8) :
    enterFields (some .name) orig input = answered (some .name) orig input ↔
      ∀ a ∈ (answered (some .name) orig input).attempts, Readable a.prompt a.text :=
  enterFields_eq_iff_from (some .name) orig input

/-- A name of 79 letters is taken without its newline, which then answers the next prompt. -/
theorem long_name_splits :
    ¬∀ (orig : Record) (input : List UInt8),
      enterFields (some .name) orig input = answered (some .name) orig input := by
  intro h
  have hname : newline ∉ List.replicate 79 (97 : UInt8) := by
    intro hmem
    exact absurd (List.eq_of_mem_replicate hmem) (by decide)
  have hall := (enterFields_eq_iff_from _ _ _).mp
    (h .zero (List.replicate 79 97 ++ newline :: [66, newline, newline]))
  rw [answered, dif_neg (by simp)] at hall
  have hread := (hall _ List.mem_cons_self).1
  simp only [nextLine_append hname, List.length_append, List.length_replicate,
    List.length_singleton] at hread
  exact absurd hread (by decide)

end Osisp.Lab7
