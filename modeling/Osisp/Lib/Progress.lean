import Osisp.Lib.Transition

namespace Osisp.Lib.System

universe u v

variable {σ : Type u} {α : Type v} {M : System σ α}

/-- A step either lowers the measure or is paid for by the counter. -/
def Paid (measure count : σ → Nat) (c : Nat) (s t : σ) : Prop :=
  measure t + 1 + c * count s ≤ measure s + c * count t

theorem run_paid {ok : α → Prop} {Inv : σ → Prop} {measure count : σ → Nat} {c : Nat}
    (hkeep : ∀ s a t, Inv s → ok a → M.step s a = some t → Inv t)
    (hpaid : ∀ s a t, Inv s → ok a → M.step s a = some t → Paid measure count c s t)
    {s t : σ} (hs : Inv s) (as : List α) (hok : ∀ a ∈ as, ok a) (h : M.run s as = some t) :
    measure t + as.length + c * count s ≤ measure s + c * count t := by
  induction as generalizing s with
  | nil =>
    obtain rfl : s = t := Option.some.inj h
    simp
  | cons a as ih =>
    obtain ⟨u, hu, hrest⟩ := Option.bind_eq_some_iff.mp h
    have ha := hok a List.mem_cons_self
    have hstep : measure u + 1 + c * count s ≤ measure s + c * count u := hpaid s a u hs ha hu
    have hrun := ih (hkeep s a u hs ha hu) (fun b hb => hok b (List.mem_cons_of_mem a hb)) hrest
    rw [List.length_cons]
    omega

theorem run_length_le {ok : α → Prop} {Inv : σ → Prop} {measure count : σ → Nat} {c : Nat}
    (hkeep : ∀ s a t, Inv s → ok a → M.step s a = some t → Inv t)
    (hpaid : ∀ s a t, Inv s → ok a → M.step s a = some t → Paid measure count c s t)
    {s t : σ} (hs : Inv s) (as : List α) (hok : ∀ a ∈ as, ok a) (h : M.run s as = some t) :
    as.length ≤ measure s + c * (count t - count s) := by
  have hrun := run_paid hkeep hpaid hs as hok h
  have hsub := Nat.mul_sub c (count t) (count s)
  omega

end Osisp.Lib.System
