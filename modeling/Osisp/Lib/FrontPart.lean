import Mathlib.Data.List.Basic

namespace Osisp.Lib

universe u

variable {α : Type u} {n : Nat}

theorem take_set (v : Vector α n) {count : Nat} (h : count < n) (x : α) :
    (v.set count x).toList.take (count + 1) = v.toList.take count ++ [x] := by
  have hcut : (v.toList.set count x).take count = v.toList.take count := by
    rw [List.take_set, List.set_eq_of_length_le (List.length_take_le _ _)]
  have hlast : (v.toList.set count x)[count]? = some x :=
    List.getElem?_set_self (by rwa [Vector.length_toList])
  rw [Vector.toList_set, List.take_add_one, hcut, hlast]
  rfl

theorem take_last (v : Vector α n) {count : Nat} (h : count < n) (d : α) :
    v.toList.take (count + 1) = v.toList.take count ++ [v.toList.getD count d] := by
  have hlast : v.toList[count]? = some (v.toList.getD count d) := by
    rw [List.getD_eq_getElem?_getD, List.getElem?_eq_getElem (by rwa [Vector.length_toList])]
    rfl
  rw [List.take_add_one, hlast]
  rfl

end Osisp.Lib
