import Mathlib.Data.List.TakeWhile
import Mathlib.Tactic.Ring

namespace Osisp.Lib

/-- `isspace` in the C locale. -/
def isSpace (c : UInt8) : Bool := c == 32 || (9 ≤ c && c ≤ 13)

def isDigit (c : UInt8) : Bool := 48 ≤ c && c ≤ 57

def digitsValue (ds : List UInt8) : Nat := ds.foldl (fun n d => 10 * n + (d.toNat - 48)) 0

/-- The optional sign of a number: whether it is a minus, and the rest. -/
def sign : List UInt8 → Bool × List UInt8
  | 45 :: s => (true, s)
  | 43 :: s => (false, s)
  | s => (false, s)

/-- `LONG_MIN` and `LONG_MAX` bound the result. -/
def clampLong (n : Int) : Int := max (-2 ^ 63) (min n (2 ^ 63 - 1))

/-- `strtol` in base 10: the number, and the string from `endptr` on. -/
def strtol (s : List UInt8) : Int × List UInt8 :=
  let (negative, t) := sign (s.dropWhile isSpace)
  let digits := t.takeWhile isDigit
  if digits = [] then (0, s)
  else (clampLong (if negative then -digitsValue digits else digitsValue digits),
    t.dropWhile isDigit)

example : strtol [32, 45, 49, 50, 10] = (-12, [10]) := by decide

theorem sign_append {t : List UInt8} (ht : t ≠ []) (tail : List UInt8) :
    sign (t ++ tail) = ((sign t).1, (sign t).2 ++ tail) := by
  obtain ⟨c, t, rfl⟩ := List.exists_cons_of_ne_nil ht
  by_cases hminus : c = 45
  · subst hminus
    rfl
  · by_cases hplus : c = 43
    · subst hplus
      rfl
    · unfold sign
      split <;> simp_all

/-- `strtol` does not read what cannot go on with a number. -/
theorem strtol_append {tail : List UInt8} (l : List UInt8) (hdigits : tail.takeWhile isDigit = [])
    (hsigned : (sign (tail.dropWhile isSpace)).2.takeWhile isDigit = []) :
    strtol (l ++ tail) = ((strtol l).1, (strtol l).2 ++ tail) := by
  have htail : ∀ t : List UInt8, (t ++ tail).takeWhile isDigit = t.takeWhile isDigit ∧
      (t ++ tail).dropWhile isDigit = t.dropWhile isDigit ++ tail := by
    intro t
    induction t with
    | nil =>
      have hsplit := List.takeWhile_append_dropWhile (p := isDigit) (l := tail)
      rw [hdigits] at hsplit
      exact ⟨hdigits, hsplit⟩
    | cons c t ih =>
      by_cases hc : isDigit c = true
      · rw [List.cons_append, List.takeWhile_cons_of_pos hc, List.takeWhile_cons_of_pos hc,
          List.dropWhile_cons_of_pos hc, List.dropWhile_cons_of_pos hc, ih.1, ih.2]
        exact ⟨rfl, rfl⟩
      · rw [List.cons_append, List.takeWhile_cons_of_neg hc, List.takeWhile_cons_of_neg hc,
          List.dropWhile_cons_of_neg hc, List.dropWhile_cons_of_neg hc]
        exact ⟨rfl, rfl⟩
  unfold strtol
  rw [List.dropWhile_append]
  by_cases hblank : l.dropWhile isSpace = []
  · rw [hblank, if_pos (by rfl)]
    have hnone : sign [] = (false, []) := rfl
    simp only [hnone, hsigned, List.takeWhile_nil, if_true]
  · have hempty : (l.dropWhile isSpace).isEmpty = false := by simpa using hblank
    rw [hempty, if_neg Bool.false_ne_true, sign_append hblank]
    simp only [(htail _).1, (htail _).2]
    split_ifs <;> rfl

theorem sign_suffix (t : List UInt8) : (sign t).2 <:+ t := by
  unfold sign
  split
  · exact List.suffix_cons _ _
  · exact List.suffix_cons _ _
  · exact List.suffix_rfl

theorem strtol_suffix (s : List UInt8) : (strtol s).2 <:+ s := by
  unfold strtol
  dsimp only
  split
  · exact List.suffix_rfl
  · exact (List.dropWhile_suffix _).trans ((sign_suffix _).trans (List.dropWhile_suffix _))

theorem isDigit_bounds {d : UInt8} (h : isDigit d = true) : 48 ≤ d.toNat ∧ d.toNat ≤ 57 := by
  simp only [isDigit, Bool.and_eq_true, decide_eq_true_eq, UInt8.le_iff_toNat_le] at h
  exact h

theorem foldl_digits_lt (ds : List UInt8) (hdigits : ∀ d ∈ ds, isDigit d = true) (n : Nat) :
    ds.foldl (fun n d => 10 * n + (d.toNat - 48)) n < (n + 1) * 10 ^ ds.length := by
  induction ds generalizing n with
  | nil => simp
  | cons d ds ih =>
    have hd := isDigit_bounds (hdigits d List.mem_cons_self)
    have hrest := ih (fun e he => hdigits e (List.mem_cons_of_mem _ he)) (10 * n + (d.toNat - 48))
    have hstep : (10 * n + (d.toNat - 48) + 1) * 10 ^ ds.length
        ≤ (n + 1) * 10 * 10 ^ ds.length := Nat.mul_le_mul_right _ (by omega)
    rw [List.foldl_cons, List.length_cons, Nat.pow_succ]
    calc _ < (10 * n + (d.toNat - 48) + 1) * 10 ^ ds.length := hrest
      _ ≤ (n + 1) * 10 * 10 ^ ds.length := hstep
      _ = (n + 1) * (10 ^ ds.length * 10) := by ring

/-- Up to 18 digits are a `long`. -/
theorem strtol_digits {digits : List UInt8} (hne : digits ≠ []) (hlen : digits.length ≤ 18)
    (hdigits : ∀ d ∈ digits, isDigit d = true) : (strtol digits).1 = digitsValue digits := by
  have hvalue : digitsValue digits < 10 ^ 18 := by
    have hlt := foldl_digits_lt digits hdigits 0
    have hpow : 10 ^ digits.length ≤ 10 ^ 18 := Nat.pow_le_pow_right (by decide) hlen
    rw [digitsValue]
    omega
  have hall : digits.takeWhile isDigit = digits := List.takeWhile_eq_self_iff.mpr hdigits
  obtain ⟨d, ds, rfl⟩ := List.exists_cons_of_ne_nil hne
  have hd := isDigit_bounds (hdigits d List.mem_cons_self)
  have hspace : ¬isSpace d = true := by
    simp only [isSpace, Bool.or_eq_true, beq_iff_eq, Bool.and_eq_true, decide_eq_true_eq,
      UInt8.le_iff_toNat_le]
    rintro (rfl | hblank)
    · exact absurd hd.1 (by decide)
    · have hupper : (13 : UInt8).toNat = 13 := rfl
      omega
  have hsign : sign (d :: ds) = (false, d :: ds) := by
    have hminus : d ≠ 45 := by
      rintro rfl
      exact absurd hd.1 (by decide)
    have hplus : d ≠ 43 := by
      rintro rfl
      exact absurd hd.1 (by decide)
    unfold sign
    split
    · rename_i heq
      exact absurd (List.cons.inj heq).1 hminus
    · rename_i heq
      exact absurd (List.cons.inj heq).1 hplus
    · rfl
  rw [strtol, List.dropWhile_cons_of_neg hspace, hsign]
  simp only [hall, if_neg hne, Bool.false_eq_true, if_false]
  rw [clampLong]
  omega

end Osisp.Lib
