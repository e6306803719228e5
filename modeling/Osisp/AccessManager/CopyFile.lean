import Osisp.AccessManager.Main

namespace Osisp.AccessManager

/-- A copy that is reported is complete, and one that is not has left the destination alone. -/
structure AllOrNothing (src : Content) (dst : Option Content) (r : Int × Option Content) :
    Prop where
  copied : r.1 = 0 → r.2 = some src
  kept : r.1 = -1 → r.2 = dst

/-- How many bytes `i` calls of `fread` return, from the `k`-th one on, if there are `size` left. -/
def readBy (fread : Nat → Nat) : Nat → Nat → Nat → Nat
  | _, _, 0 => 0
  | k, size, i + 1 =>
    let n := min (fread k) (min bufferSize size)
    n + readBy fread (k + 1) (size - n) i

/-- No call of `fread` returns 0 before the end. -/
def ReadsAll (fread : Nat → Nat) (k size : Nat) : Prop :=
  ∀ i, readBy fread k size i < size → 0 < fread (k + i)

theorem readsAll_next {fread : Nat → Nat} {k size : Nat}
    (h : min (fread k) (min bufferSize size) ≠ 0) :
    ReadsAll fread k size ↔
      ReadsAll fread (k + 1) (size - min (fread k) (min bufferSize size)) := by
  have hbound : min (fread k) (min bufferSize size) ≤ size :=
    le_trans (Nat.min_le_right _ _) (Nat.min_le_right _ _)
  constructor
  · intro hall i hi
    rw [Nat.add_right_comm, Nat.add_assoc]
    apply hall (i + 1)
    rw [readBy]
    omega
  · intro hall i hi
    cases i with
    | zero =>
      rw [Nat.add_zero]
      omega
    | succ i =>
      rw [readBy] at hi
      have hnext := hall i (by omega)
      rwa [Nat.add_right_comm, Nat.add_assoc] at hnext

/-- The loop hands on what is read, which is all of it only if no `fread` fails before the end. -/
theorem copyLoop_read (fread : Nat → Nat) (k : Nat) (rest handed : Content) :
    ∃ n ≤ rest.length, copyLoop fread k rest handed = handed ++ rest.take n ∧
      (n = rest.length ↔ ReadsAll fread k rest.length) := by
  fun_induction copyLoop fread k rest handed with
  | case1 k rest handed n hn =>
    refine ⟨0, Nat.zero_le _, (List.append_nil handed).symm, ?_⟩
    constructor
    · intro hlen i hi
      rw [← hlen] at hi
      exact absurd hi (Nat.not_lt_zero _)
    · intro hall
      have hsize : 0 < bufferSize := by decide
      have hfirst : 0 < rest.length → 0 < fread k := hall 0
      omega
  | case2 k rest handed n hn ih =>
    obtain ⟨m, hm, hloop, hiff⟩ := ih
    have hbound : n ≤ rest.length := le_trans (Nat.min_le_right _ _) (Nat.min_le_right _ _)
    rw [List.length_drop] at hm hiff
    refine ⟨n + m, by omega, ?_, ?_⟩
    · rw [hloop, List.append_assoc, List.take_add]
    · rw [readsAll_next hn, ← hiff]
      omega

theorem length_fclose_le (written : Nat → Bool) (handed : Content) :
    (fclose written handed).length ≤ handed.length := by
  rw [fclose, List.length_map, ← List.length_zipIdx (l := handed)]
  exact List.length_filter_le _ _

theorem fclose_eq_iff (written : Nat → Bool) (handed : Content) :
    (fclose written handed).length = handed.length ↔ ∀ i < handed.length, written i = true := by
  constructor
  · intro h i hi
    rw [fclose, List.length_map, ← List.length_zipIdx (l := handed)] at h
    have hall := List.length_filter_eq_length_iff.mp h
    exact hall (handed[i], i) (List.mk_mem_zipIdx_iff_getElem?.mpr (List.getElem?_eq_getElem hi))
  · intro h
    rw [fclose_all h]

/-- What a destination that was opened is in the end, if the source was opened too. -/
theorem copied_iff (calls : CopyCalls) (src : Content) :
    fclose calls.written (copyLoop calls.fread 0 src []) = src ↔
      ReadsAll calls.fread 0 src.length ∧ ∀ i < src.length, calls.written i = true := by
  obtain ⟨n, hn, hloop, hiff⟩ := copyLoop_read calls.fread 0 src []
  rw [List.nil_append] at hloop
  rw [hloop, ← hiff]
  constructor
  · intro heq
    have hlen := length_fclose_le calls.written (src.take n)
    rw [heq, List.length_take] at hlen
    obtain rfl : n = src.length := by omega
    rw [List.take_length] at heq
    exact ⟨rfl, (fclose_eq_iff _ _).mp (congrArg List.length heq)⟩
  · rintro ⟨rfl, hwritten⟩
    rw [List.take_length]
    exact fclose_all hwritten

/-- `copy_file` is all or nothing where, if the destination was opened, the source was too, read to
its end and written without a loss, or there was an empty destination already. -/
theorem copy_file_all_or_nothing_iff (calls : CopyCalls) (src : Content) (dst : Option Content) :
    AllOrNothing src dst (copyFile calls src dst) ↔
      (calls.openOut = true →
        if calls.openIn then
          ReadsAll calls.fread 0 src.length ∧ ∀ i < src.length, calls.written i = true
        else dst = some []) := by
  rw [← copied_iff]
  obtain ⟨openIn, openOut, fread, written⟩ := calls
  cases openOut with
  | false =>
    refine iff_of_true ⟨fun h => ?_, fun _ => ?_⟩ (fun h => by cases h)
    · rw [copyFile, Bool.not_false, Bool.or_true, if_pos rfl] at h
      cases h
    · rw [copyFile, Bool.not_false, Bool.or_true, if_pos rfl]
      rfl
  | true =>
    cases openIn with
    | false =>
      have hcall : copyFile ⟨false, true, fread, written⟩ src dst = (-1, some []) := rfl
      rw [hcall]
      constructor
      · intro h _
        exact (h.kept rfl).symm
      · intro h
        exact ⟨(fun h0 => by cases h0), fun _ => (h rfl).symm⟩
    | true =>
      have hcall : copyFile ⟨true, true, fread, written⟩ src dst =
          (0, some (fclose written (copyLoop fread 0 src []))) := rfl
      rw [hcall]
      constructor
      · intro h _
        exact Option.some.inj (h.copied rfl)
      · intro h
        exact ⟨fun _ => congrArg some (h rfl), (fun h1 => by cases h1)⟩

/-- A disk that is full: the copy is empty, and reported. A source that cannot be read: the same.
A source that cannot be opened: the old copy is lost. -/
theorem copies_lost :
    ¬AllOrNothing [65] none (copyFile ⟨true, true, fun _ => 1024, fun _ => false⟩ [65] none) ∧
      ¬AllOrNothing [65] none (copyFile ⟨true, true, fun _ => 0, fun _ => true⟩ [65] none) ∧
      ¬AllOrNothing [65] (some [66]) (copyFile (undisturbed false true) [65] (some [66])) := by
  have hcopied : ∀ fread written,
      AllOrNothing [65] none (copyFile ⟨true, true, fread, written⟩ [65] none) →
        ReadsAll fread 0 1 ∧ ∀ i < 1, written i = true := fun fread written h =>
    (copied_iff ⟨true, true, fread, written⟩ [65]).mp (Option.some.inj (h.copied rfl))
  refine ⟨fun h => ?_, fun h => ?_, fun h => ?_⟩
  · have hwritten := (hcopied _ _ h).2 0 Nat.zero_lt_one
    cases hwritten
  · have hread := (hcopied _ _ h).1 0 Nat.zero_lt_one
    exact absurd hread (Nat.lt_irrefl 0)
  · cases h.kept rfl

end Osisp.AccessManager
