import Mathlib.Data.List.Basic

namespace Osisp.Lib

variable {α : Type*} [DecidableEq α] (sep : α)

/-- The pieces of a text between its separators. -/
theorem splitOn_spec (s : List α) : ∃ p ps, s.splitOn sep = p :: ps ∧ sep ∉ p ∧
    (∀ q ∈ ps, sep ∉ q) ∧ s = p ++ ps.flatMap (fun q => sep :: q) ∧ s.count sep = ps.length := by
  induction s with
  | nil => exact ⟨[], [], by simp, by simp, by simp, by simp, by simp⟩
  | cons c s ih =>
    obtain ⟨p, ps, hsplit, hp, hps, hs, hcount⟩ := ih
    rw [List.splitOn_cons_eq_if_modifyHead, hsplit]
    by_cases hc : c = sep
    · subst hc
      refine ⟨[], p :: ps, by simp, by simp, ?_, by simp [← hs], by simp [hcount]⟩
      intro q hq
      rcases List.mem_cons.mp hq with rfl | hq
      · exact hp
      · exact hps q hq
    · refine ⟨c :: p, ps, by simp [hc], ?_, hps, by simp [← hs], by simp [hc, hcount]⟩
      simp [hp, Ne.symm hc]

/-- A line as it arrives: what came of it at the end of a chunk that began in an earlier line,
and then what each chunk that began in it brought. -/
structure CutLine (α : Type*) where
  tail : List α
  parts : List (List α)

def CutLine.text (l : CutLine α) : List α := l.tail ++ l.parts.flatten

/-- The line so far, with the first piece of the next chunk. -/
def CutLine.addPart (l : CutLine α) (p : List α) : CutLine α := ⟨l.tail, l.parts ++ [p]⟩

omit [DecidableEq α] in
theorem CutLine.text_addPart (l : CutLine α) (p : List α) : (l.addPart p).text = l.text ++ p := by
  simp [CutLine.text, CutLine.addPart]

/-- The further pieces of a chunk end the line they follow and begin the next one; `next` goes
on with the last. -/
def endLines (next : CutLine α → List (CutLine α)) : CutLine α → List (List α) → List (CutLine α)
  | cur, [] => next cur
  | cur, t :: ts => cur :: endLines next ⟨t, []⟩ ts

/-- The lines of a text that arrives in chunks, `cur` being what has arrived of the first one. -/
def cutLines : CutLine α → List (List α) → List (CutLine α)
  | cur, [] => [cur]
  | cur, chunk :: chunks =>
    match chunk.splitOn sep with
    | [] => cutLines cur chunks
    | p :: ps => endLines (fun cur => cutLines cur chunks) (cur.addPart p) ps

theorem endLines_text (rest : List α) {next : CutLine α → List (CutLine α)}
    (hnext : ∀ cur : CutLine α, sep ∉ cur.text →
      (next cur).map CutLine.text = (cur.text ++ rest).splitOn sep)
    {cur : CutLine α} (hcur : sep ∉ cur.text) {ps : List (List α)} (hps : ∀ q ∈ ps, sep ∉ q) :
    (endLines next cur ps).map CutLine.text =
      (cur.text ++ ps.flatMap (fun q => sep :: q) ++ rest).splitOn sep := by
  induction ps generalizing cur with
  | nil => simpa [endLines] using hnext cur hcur
  | cons t ts ih =>
    have htext : (⟨t, []⟩ : CutLine α).text = t := by simp [CutLine.text]
    have ht : sep ∉ (⟨t, []⟩ : CutLine α).text := by
      rw [htext]
      exact hps t (by simp)
    have hrest := ih ht fun q hq => hps q (by simp [hq])
    rw [htext] at hrest
    rw [endLines, List.map_cons, hrest]
    simp only [List.flatMap_cons, List.cons_append, List.append_assoc]
    rw [List.splitOn_append_cons_self_of_not_mem hcur]

theorem cutLines_text {cur : CutLine α} (hcur : sep ∉ cur.text) (chunks : List (List α)) :
    (cutLines sep cur chunks).map CutLine.text = (cur.text ++ chunks.flatten).splitOn sep := by
  induction chunks generalizing cur with
  | nil => simp [cutLines, List.splitOn_eq_singleton hcur]
  | cons chunk chunks ih =>
    obtain ⟨p, ps, hsplit, hp, hps, hs, -⟩ := splitOn_spec sep chunk
    have hadd : sep ∉ (cur.addPart p).text := by
      rw [CutLine.text_addPart]
      exact List.not_mem_append hcur hp
    rw [cutLines, hsplit]
    change (endLines (fun cur => cutLines sep cur chunks) (cur.addPart p) ps).map CutLine.text = _
    rw [endLines_text sep chunks.flatten (fun _ h => ih h) hadd hps, CutLine.text_addPart]
    simp [← List.append_assoc, hs]

omit [DecidableEq α] in
theorem endLines_parts {next : CutLine α → List (CutLine α)}
    {P : CutLine α → Prop} (hnext : ∀ cur, P cur → ∀ l ∈ next cur, P l)
    (htail : ∀ t, P ⟨t, []⟩) {cur : CutLine α} (hcur : P cur) (ps : List (List α)) :
    ∀ l ∈ endLines next cur ps, P l := by
  induction ps generalizing cur with
  | nil => exact hnext cur hcur
  | cons t ts ih =>
    intro l hl
    rcases List.mem_cons.mp hl with rfl | hl
    · exact hcur
    · exact ih (htail t) l hl

/-- No part of a line holds a separator. -/
theorem cutLines_parts {cur : CutLine α} (hcur : ∀ p ∈ cur.parts, sep ∉ p)
    (chunks : List (List α)) : ∀ l ∈ cutLines sep cur chunks, ∀ p ∈ l.parts, sep ∉ p := by
  induction chunks generalizing cur with
  | nil =>
    intro l hl
    rw [List.mem_singleton.mp hl]
    exact hcur
  | cons chunk chunks ih =>
    obtain ⟨p, ps, hsplit, hp, -⟩ := splitOn_spec sep chunk
    rw [cutLines, hsplit]
    refine endLines_parts (P := fun l => ∀ p ∈ l.parts, sep ∉ p) (fun cur hc => ih hc)
      (by simp) ?_ ps
    intro q hq
    rcases List.mem_append.mp hq with hq | hq
    · exact hcur q hq
    · rw [List.mem_singleton.mp hq]
      exact hp

/-- The elements up to and including the first one with `p`. -/
def takeThrough {β : Type*} (p : β → Bool) : List β → List β
  | [] => []
  | x :: xs => if p x then [x] else x :: takeThrough p xs

theorem takeThrough_isPrefix {β : Type*} (p : β → Bool) (xs : List β) :
    takeThrough p xs <+: xs := by
  induction xs with
  | nil => exact List.prefix_rfl
  | cons x xs ih =>
    unfold takeThrough
    split_ifs
    · exact ⟨xs, rfl⟩
    · exact List.cons_prefix_cons.mpr ⟨rfl, ih⟩

theorem takeThrough_length_pos {β : Type*} {p : β → Bool} {xs : List β} (h : xs ≠ []) :
    0 < (takeThrough p xs).length := by
  obtain ⟨x, xs, rfl⟩ := List.exists_cons_of_ne_nil h
  rw [takeThrough]
  split_ifs <;> simp

theorem takeThrough_append {β : Type*} {p : β → Bool} {xs : List β} {x : β}
    (hxs : ∀ y ∈ xs, p y = false) (hx : p x = true) (more : List β) :
    takeThrough p (xs ++ x :: more) = xs ++ [x] := by
  induction xs with
  | nil => exact if_pos hx
  | cons y xs ih =>
    obtain ⟨hy, hrest⟩ := List.forall_mem_cons.mp hxs
    rw [List.cons_append, takeThrough, hy, if_neg Bool.false_ne_true, ih hrest]
    rfl

theorem takeThrough_eq {β : Type*} (p : β → Bool) (xs : List β) :
    takeThrough p xs = xs.takeWhile (fun x => !p x) ++ (xs.dropWhile fun x => !p x).take 1 := by
  induction xs with
  | nil => rfl
  | cons x xs ih =>
    rw [takeThrough]
    cases hx : p x with
    | true => simp [hx]
    | false => simp [hx, ih]

theorem takeThrough_take {β : Type*} (p : β → Bool) (n : Nat) (xs : List β) :
    takeThrough p (xs.take n) = (takeThrough p xs).take n := by
  induction xs generalizing n with
  | nil => simp [takeThrough]
  | cons x xs ih =>
    cases n with
    | zero => rfl
    | succ n =>
      rw [List.take_succ_cons, takeThrough, takeThrough, ih]
      split_ifs <;> simp

end Osisp.Lib
