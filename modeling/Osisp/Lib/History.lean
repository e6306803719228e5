import Osisp.Lib.Transition

namespace Osisp.Lib.System

universe u v w

variable {σ : Type u} {α : Type v} {κ : Type w} (M : System σ α)

/-- The calls of a run, in the order in which they are made. -/
def history (calls : σ → α → List κ) : σ → List α → List κ
  | _, [] => []
  | s, a :: as => calls s a ++ match M.step s a with
    | some t => history calls t as
    | none => []

variable {M} {calls : σ → α → List κ}

/-- A relation between the calls made so far and the state that every step keeps holds at the end
of every run. -/
theorem run_history {ok : σ → α → Prop} {R : List κ → σ → Prop}
    (hstep : ∀ ops s a t, R ops s → ok s a → M.step s a = some t → R (ops ++ calls s a) t)
    {ops : List κ} {s t : σ} (hs : R ops s) (as : List α) (hok : M.Along ok s as)
    (h : M.run s as = some t) : R (ops ++ M.history calls s as) t := by
  induction as generalizing ops s with
  | nil =>
    obtain rfl : s = t := Option.some.inj h
    simpa [history] using hs
  | cons a as ih =>
    obtain ⟨u, hu, hrest⟩ := Option.bind_eq_some_iff.mp h
    obtain ⟨ha, hok⟩ := hok
    rw [hu] at hok
    have hrun := ih (hstep ops s a u hs ha hu) hok hrest
    simpa [history, hu, List.append_assoc] using hrun

end Osisp.Lib.System
