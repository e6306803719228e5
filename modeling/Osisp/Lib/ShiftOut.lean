import Mathlib.Data.List.Basic

namespace Osisp.Lib

universe u

variable {α : Type u} {n : Nat}

/-- Each element behind `i`, up to `count`, moves down by one. -/
def shiftOut (v : Vector α n) (i count : Nat) : Vector α n :=
  if h : i + 1 < count ∧ i + 1 < n then
    have : i < n := by omega
    shiftOut (v.set i (v[i + 1])) (i + 1) count
  else v
termination_by count - i

theorem getElem_shiftOut (v : Vector α n) (i : Nat) {count : Nat} (hcount : count ≤ n) {j : Nat}
    (hj : j < n) :
    (shiftOut v i count)[j] = if h : i ≤ j ∧ j + 1 < count then v[j + 1] else v[j] := by
  fun_induction shiftOut v i count with
  | case1 v i hi hin ih =>
    rw [ih]
    by_cases hij : i = j
    · subst hij
      rw [dif_neg (by omega), dif_pos ⟨Nat.le_refl i, hi.1⟩, Vector.getElem_set_self]
    · by_cases hmid : i + 1 ≤ j ∧ j + 1 < count
      · rw [dif_pos hmid, dif_pos (by omega), Vector.getElem_set_ne _ _ (by omega)]
      · rw [dif_neg hmid, dif_neg (by omega), Vector.getElem_set_ne _ _ hij]
  | case2 v i hi =>
    rw [dif_neg (by omega)]

/-- What is left of the front part is the list without the element. -/
theorem take_shiftOut (v : Vector α n) {i count : Nat} (hi : i < count) (hcount : count ≤ n) :
    (shiftOut v i count).toList.take (count - 1) = (v.toList.take count).eraseIdx i := by
  apply List.ext_getElem
  · rw [List.length_eraseIdx_of_lt]
    · simp only [List.length_take, Vector.length_toList]
      omega
    · simp only [List.length_take, Vector.length_toList]
      omega
  · intro j hleft hright
    simp only [List.length_take, Vector.length_toList] at hleft
    rw [List.getElem_take, Vector.getElem_toList, getElem_shiftOut v i hcount,
      List.getElem_eraseIdx]
    by_cases hij : j < i
    · rw [dif_neg (by omega), dif_pos hij, List.getElem_take, Vector.getElem_toList]
    · rw [dif_pos (by omega), dif_neg hij, List.getElem_take, Vector.getElem_toList]

end Osisp.Lib
