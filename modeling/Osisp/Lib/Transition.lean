import Mathlib.Data.List.Basic

namespace Osisp.Lib

universe u v

/-- A labelled transition system. `step s a` is the state after action `a`, and
`none` where `a` is not enabled: all nondeterminism is in the choice of the label. -/
structure System (σ : Type u) (α : Type v) where
  init : σ
  step : σ → α → Option σ

namespace System

variable {σ : Type u} {α : Type v} (M : System σ α)

/-- The state after a list of actions, `none` as soon as one of them is not enabled. -/
def run : σ → List α → Option σ
  | s, [] => some s
  | s, a :: as => (M.step s a).bind (fun t => run t as)

/-- States reached from `init` by steps that all satisfy `good`, a condition on the
state before the step and the action. -/
inductive Reach (good : σ → α → Prop) : σ → Prop
  | init : Reach good M.init
  | step {s t : σ} {a : α} : Reach good s → good s a → M.step s a = some t → Reach good t

/-- States reached by any steps at all. -/
abbrev Reachable : σ → Prop := M.Reach (fun _ _ => True)

variable {M}

theorem Reach.invariant {good : σ → α → Prop} {Inv : σ → Prop} (h0 : Inv M.init)
    (hstep : ∀ s a t, Inv s → good s a → M.step s a = some t → Inv t)
    {s : σ} (hs : M.Reach good s) : Inv s := by
  induction hs with
  | init => exact h0
  | step _ hg ht ih => exact hstep _ _ _ ih hg ht

theorem Reach.mono {good good' : σ → α → Prop} (h : ∀ s a, good s a → good' s a)
    {s : σ} (hs : M.Reach good s) : M.Reach good' s := by
  induction hs with
  | init => exact .init
  | step _ hg ht ih => exact .step ih (h _ _ hg) ht

theorem Reach.reachable {good : σ → α → Prop} {s : σ} (hs : M.Reach good s) :
    M.Reachable s := hs.mono (fun _ _ _ => trivial)

theorem run_invariant {ok : α → Prop} (Inv : σ → Prop)
    (hstep : ∀ s a t, Inv s → ok a → M.step s a = some t → Inv t) {s t : σ} (hs : Inv s)
    (as : List α) (hok : ∀ a ∈ as, ok a) (h : M.run s as = some t) : Inv t := by
  induction as generalizing s with
  | nil =>
    obtain rfl : s = t := Option.some.inj h
    exact hs
  | cons a as ih =>
    obtain ⟨u, hu, hrest⟩ := Option.bind_eq_some_iff.mp h
    have hi := hstep s a u hs (hok a List.mem_cons_self) hu
    exact ih hi (fun b hb => hok b (List.mem_cons_of_mem a hb)) hrest

theorem run_unchanged {β : Type*} {ok : α → Prop} {Inv : σ → Prop} (f : σ → β)
    (hstep : ∀ s a t, Inv s → ok a → M.step s a = some t → Inv t ∧ f t = f s) {s t : σ}
    (hs : Inv s) (as : List α) (hok : ∀ a ∈ as, ok a) (h : M.run s as = some t) : f t = f s := by
  have hboth : Inv t ∧ f t = f s := by
    refine run_invariant (fun u => Inv u ∧ f u = f s) ?_ ⟨hs, rfl⟩ as hok h
    rintro u a v ⟨hu, hsame⟩ ha hnext
    obtain ⟨hv, heq⟩ := hstep u a v hu ha hnext
    exact ⟨hv, heq.trans hsame⟩
  exact hboth.2

variable (M) in
/-- Every step of the run of `as` from `s` satisfies `good`. -/
def Along (good : σ → α → Prop) : σ → List α → Prop
  | _, [] => True
  | s, a :: as => good s a ∧ match M.step s a with
    | some t => Along good t as
    | none => True

instance decidableAlong (good : σ → α → Prop) [∀ s a, Decidable (good s a)] :
    ∀ (s : σ) (as : List α), Decidable (M.Along good s as)
  | _, [] => isTrue trivial
  | s, a :: as => by
    unfold Along
    cases M.step s a with
    | none => infer_instance
    | some t =>
      have := decidableAlong good t as
      infer_instance

theorem Along.of_forall {good : σ → α → Prop} {as : List α} (h : ∀ s, ∀ a ∈ as, good s a)
    (s : σ) : M.Along good s as := by
  induction as generalizing s with
  | nil => trivial
  | cons a as ih =>
    refine ⟨h s a List.mem_cons_self, ?_⟩
    cases M.step s a with
    | none => trivial
    | some t => exact ih (fun s b hb => h s b (List.mem_cons_of_mem a hb)) t

theorem Reach.of_run {good : σ → α → Prop} {s t : σ} (hs : M.Reach good s) (as : List α)
    (hg : M.Along good s as) (h : M.run s as = some t) : M.Reach good t := by
  induction as generalizing s with
  | nil =>
    obtain rfl : s = t := Option.some.inj h
    exact hs
  | cons a as ih =>
    obtain ⟨u, hu, hrest⟩ := Option.bind_eq_some_iff.mp h
    obtain ⟨ha, hg⟩ := hg
    rw [hu] at hg
    exact ih (.step hs ha hu) hg hrest

theorem exists_reach_of_run (good : σ → α → Prop) (as : List α) (p : σ → Bool)
    (hg : M.Along good M.init as) (h : (M.run M.init as).any p = true) :
    ∃ s, M.Reach good s ∧ p s = true := by
  cases hr : M.run M.init as with
  | none => simp [hr] at h
  | some s => exact ⟨s, Reach.of_run .init as hg hr, by simpa [hr] using h⟩

end System

end Osisp.Lib
