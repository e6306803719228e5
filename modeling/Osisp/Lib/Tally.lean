import Mathlib

namespace Osisp.Lib

variable {A : Type*}

/-- The sum of a weight over the entries of a table: how many units its entries hold. -/
def tally (w : A → Nat) (xs : List A) : Nat := (xs.map w).sum

@[simp] theorem tally_nil (w : A → Nat) : tally w [] = 0 := rfl

@[simp] theorem tally_cons (w : A → Nat) (x : A) (xs : List A) :
    tally w (x :: xs) = w x + tally w xs := rfl

@[simp] theorem tally_append (w : A → Nat) (xs ys : List A) :
    tally w (xs ++ ys) = tally w xs + tally w ys := by
  simp [tally]

/-- Changing one entry changes the tally by the difference of its weights. -/
theorem tally_set (w : A → Nat) {xs : List A} {t : Nat} {x : A} (h : xs[t]? = some x) (y : A) :
    tally w (xs.set t y) + w x = tally w xs + w y := by
  induction xs generalizing t with
  | nil => simp at h
  | cons z xs ih =>
    cases t with
    | zero =>
      obtain rfl : z = x := by simpa using h
      simp only [List.set_cons_zero, tally_cons]
      omega
    | succ t =>
      have ht := ih (by simpa using h)
      simp only [List.set_cons_succ, tally_cons]
      omega

theorem tally_set_eq_iff (w : A → Nat) {xs : List A} {t : Nat} {x : A} (h : xs[t]? = some x)
    (y : A) : tally w (xs.set t y) = tally w xs ↔ w y = w x := by
  have hset := tally_set w h y
  omega

theorem le_tally (w : A → Nat) {xs : List A} {t : Nat} {x : A} (h : xs[t]? = some x) :
    w x ≤ tally w xs := by
  induction xs generalizing t with
  | nil => simp at h
  | cons z xs ih =>
    cases t with
    | zero =>
      obtain rfl : z = x := by simpa using h
      exact Nat.le_add_right _ _
    | succ t => exact Nat.le_trans (ih (by simpa using h)) (Nat.le_add_left _ _)

/-- So are the weights of two different entries. -/
theorem add_le_tally (w : A → Nat) {xs : List A} {t u : Nat} {x y : A} (hne : t ≠ u)
    (hx : xs[t]? = some x) (hy : xs[u]? = some y) : w x + w y ≤ tally w xs := by
  induction xs generalizing t u with
  | nil => simp at hx
  | cons z xs ih =>
    cases t with
    | zero =>
      cases u with
      | zero => exact absurd rfl hne
      | succ u =>
        obtain rfl : z = x := by simpa using hx
        exact Nat.add_le_add_left (le_tally w (by simpa using hy)) _
    | succ t =>
      cases u with
      | zero =>
        obtain rfl : z = y := by simpa using hy
        have h : w x ≤ tally w xs := le_tally w (t := t) (by simpa using hx)
        simp only [tally_cons]
        omega
      | succ u =>
        have h := ih (t := t) (u := u) (by omega) (by simpa using hx) (by simpa using hy)
        simp only [tally_cons]
        omega

theorem tally_le_mul {w : A → Nat} {b : Nat} {xs : List A} (h : ∀ x ∈ xs, w x ≤ b) :
    tally w xs ≤ xs.length * b := by
  induction xs with
  | nil => exact Nat.zero_le _
  | cons z xs ih =>
    have hz := h z List.mem_cons_self
    have hrest := ih fun x hx => h x (List.mem_cons_of_mem z hx)
    rw [tally_cons, List.length_cons, Nat.succ_mul]
    omega

theorem tally_le_add {w w' : A → Nat} {b : Nat} {xs : List A} (h : ∀ x ∈ xs, w' x ≤ w x + b) :
    tally w' xs ≤ tally w xs + xs.length * b := by
  induction xs with
  | nil => simp
  | cons z xs ih =>
    have hz := h z List.mem_cons_self
    have hrest := ih fun x hx => h x (List.mem_cons_of_mem z hx)
    rw [tally_cons, tally_cons, List.length_cons, Nat.succ_mul]
    omega

theorem tally_eq_zero {w : A → Nat} {xs : List A} (h : ∀ x ∈ xs, w x = 0) :
    tally w xs = 0 := by
  induction xs with
  | nil => rfl
  | cons z xs ih =>
    rw [tally_cons, h z (by simp), ih (fun x hx => h x (by simp [hx]))]

theorem tally_modify (w : A → Nat) (f : A → A) (hf : ∀ x, w (f x) = w x) (xs : List A)
    (t : Nat) : tally w (xs.modify t f) = tally w xs := by
  induction xs generalizing t with
  | nil => simp
  | cons z xs ih => cases t <;> simp [hf, ih]

end Osisp.Lib
