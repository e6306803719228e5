namespace Osisp.Lib

universe u v

variable {ε : Type u} {α β : Type v} {P P' : ε → Prop} {Q Q' : α → Prop}

/-- The computation fails with an error of `P` or returns a value of `Q`. -/
def Ends (P : ε → Prop) (Q : α → Prop) : Except ε α → Prop
  | .error e => P e
  | .ok a => Q a

@[simp] theorem ends_error {e : ε} : Ends P Q (.error e) ↔ P e := Iff.rfl

@[simp] theorem ends_ok {a : α} : Ends P Q (.ok a) ↔ Q a := Iff.rfl

theorem Ends.of_error {x : Except ε α} {e : ε} (h : Ends P Q x) (hx : x = .error e) : P e := by
  rw [hx] at h
  exact h

theorem Ends.of_ok {x : Except ε α} {a : α} (h : Ends P Q x) (hx : x = .ok a) : Q a := by
  rw [hx] at h
  exact h

theorem Ends.imp {x : Except ε α} (h : Ends P Q x) (hP : ∀ e, P e → P' e) (hQ : ∀ a, Q a → Q' a) :
    Ends P' Q' x := by
  cases x with
  | error e => exact hP e h
  | ok a => exact hQ a h

theorem Ends.ite {c : Prop} [Decidable c] {e : ε} {x : Except ε α} (he : c → P e)
    (hx : ¬c → Ends P Q x) : Ends P Q (if c then .error e else x) := by
  by_cases hc : c
  · rw [if_pos hc]
    exact he hc
  · rw [if_neg hc]
    exact hx hc

theorem Ends.bind {R : β → Prop} {x : Except ε α} {f : α → Except ε β} (h : Ends P Q x)
    (hf : ∀ a, Q a → Ends P R (f a)) : Ends P R (x.bind f) := by
  cases x with
  | error e => exact h
  | ok a => exact hf a h

theorem Ends.line {R : β → Prop} {x : Except ε α} {f : α → Except ε β} (h : Ends P Q x)
    (hf : ∀ a, Q a → Ends P R (f a)) : Ends P R (x >>= f) := h.bind hf

end Osisp.Lib
