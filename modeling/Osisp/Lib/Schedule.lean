import Osisp.Lib.Transition

namespace Osisp.Lib

variable {σ : Type*} (M : System σ Nat)

/-- The parties below `n` that can move. -/
def System.enabled (n : Nat) (s : σ) : List Nat :=
  (List.range n).filter (fun w => (M.step s w).isSome)

/-- Makes at most `fuel` moves; in its `t`-th one the scheduler picks the enabled party number
`choose t` (counted around). Every interleaving is such a choice. -/
def System.drive (n : Nat) (choose : Nat → Nat) : Nat → σ → σ
  | 0, s => s
  | fuel + 1, s =>
    match (M.enabled n s)[choose 0 % (M.enabled n s).length]? with
    | none => s
    | some w =>
      match M.step s w with
      | none => s
      | some t => System.drive n (fun i => choose (i + 1)) fuel t

variable {M}

theorem System.mem_enabled {n : Nat} {s : σ} {w : Nat} :
    w ∈ M.enabled n s ↔ w < n ∧ ∃ t, M.step s w = some t := by
  simp [System.enabled, Option.isSome_iff_exists]

theorem System.drive_invariant {n : Nat} {Inv : σ → Prop}
    (hstep : ∀ s w t, Inv s → M.step s w = some t → Inv t) (choose : Nat → Nat) (fuel : Nat)
    {s : σ} (hs : Inv s) : Inv (M.drive n choose fuel s) := by
  induction fuel generalizing choose s with
  | zero => exact hs
  | succ fuel ih =>
    unfold System.drive
    split
    · exact hs
    · split
      · exact hs
      · rename_i ht
        exact ih _ (hstep _ _ _ hs ht)

/-- A view of the states under which the same parties can move shows the same runs. -/
theorem System.drive_map {τ : Type*} {N : System τ Nat} (f : σ → τ)
    (h : ∀ s w, N.step (f s) w = (M.step s w).map f) (n : Nat) (choose : Nat → Nat) (fuel : Nat)
    (s : σ) : N.drive n choose fuel (f s) = f (M.drive n choose fuel s) := by
  have henabled : ∀ s, N.enabled n (f s) = M.enabled n s := by
    intro s
    simp only [System.enabled, h, Option.isSome_map]
  induction fuel generalizing choose s with
  | zero => rfl
  | succ fuel ih =>
    rw [System.drive, System.drive, henabled s]
    cases (M.enabled n s)[choose 0 % (M.enabled n s).length]? with
    | none => rfl
    | some w =>
      simp only [h]
      cases M.step s w with
      | none => rfl
      | some t => exact ih _ t

/-- If every move makes a measure smaller, enough fuel leads to a state in which no party can
move, whatever the scheduler does. -/
theorem System.drive_terminal {n : Nat} {Inv : σ → Prop} (measure : σ → Nat)
    (hstep : ∀ s w t, Inv s → M.step s w = some t → Inv t)
    (hdec : ∀ s w t, Inv s → M.step s w = some t → measure t < measure s) (choose : Nat → Nat)
    (fuel : Nat) {s : σ} (hs : Inv s) (hfuel : measure s ≤ fuel) :
    M.enabled n (M.drive n choose fuel s) = [] := by
  induction fuel generalizing choose s with
  | zero =>
    -- a move would make the measure smaller than 0
    rw [List.eq_nil_iff_forall_not_mem]
    intro w hw
    obtain ⟨-, t, ht⟩ := System.mem_enabled.mp hw
    have hlt := hdec s w t hs ht
    omega
  | succ fuel ih =>
    unfold System.drive
    split
    · rename_i hnone
      by_contra hne
      have hpos := List.length_pos_iff.mpr hne
      have hlt := Nat.mod_lt (choose 0) hpos
      rw [List.getElem?_eq_getElem hlt] at hnone
      cases hnone
    · rename_i w hw
      obtain ⟨-, t, ht⟩ := System.mem_enabled.mp (List.mem_of_getElem? hw)
      rw [ht]
      have hlt := hdec s w t hs ht
      exact ih _ (hstep s w t hs ht) (by omega)

end Osisp.Lib
