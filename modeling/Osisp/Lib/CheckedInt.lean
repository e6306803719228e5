import Mathlib.Algebra.Ring.Int.Defs
import Osisp.Lib.Outcome

namespace Osisp.Lib

inductive IntFault where
  | overflow
  | zeroModulus
  deriving DecidableEq

/-- The value of an expression of type `int`, of 32 bits. -/
def toInt (n : Int) : Except IntFault Int :=
  if n < -2 ^ 31 ∨ 2 ^ 31 ≤ n then .error .overflow else .ok n

/-- `a % b`, which is the rest of a division that cuts off. The quotient has to be an `int`. -/
def intMod (a b : Int) : Except IntFault Int :=
  if b = 0 then .error .zeroModulus else (toInt (a.tdiv b)).bind fun _ => .ok (a.tmod b)

variable {P : IntFault → Prop} {Q : Int → Prop}

theorem ends_toInt {n : Int} (hlow : -2 ^ 31 ≤ n) (hover : 2 ^ 31 ≤ n → P .overflow)
    (hok : n < 2 ^ 31 → Q n) : Ends P Q (toInt n) := by
  rw [toInt]
  split_ifs with h
  · exact hover (by omega)
  · exact hok (by omega)

theorem line_toInt {β : Type} {R : β → Prop} {n : Int} {f : Int → Except IntFault β}
    (hlow : -2 ^ 31 ≤ n) (hover : 2 ^ 31 ≤ n → P .overflow) (hf : Ends P R (f n)) :
    Ends P R (toInt n >>= f) := by
  refine Ends.line (Q := fun a => a = n) (ends_toInt hlow hover fun _ => rfl) ?_
  rintro _ rfl
  exact hf

theorem ends_intMod {a b : Int} (ha : 0 ≤ a) (hint : a < 2 ^ 31) (hb : 0 < b) (hok : Q (a % b)) :
    Ends P Q (intMod a b) := by
  have hquotient : 0 ≤ a.tdiv b := Int.tdiv_nonneg ha (Int.le_of_lt hb)
  have hle : a.tdiv b ≤ a := Int.tdiv_le_self b ha
  rw [intMod, if_neg (by omega)]
  refine Ends.bind (Q := fun _ => True) (ends_toInt (by omega) (by omega) fun _ => trivial) ?_
  intro _ _
  rw [Int.tmod_eq_emod_of_nonneg ha]
  exact hok

end Osisp.Lib
