import Mathlib.Algebra.Group.Nat.Defs
import Mathlib.Data.List.Basic
import Mathlib.Logic.Function.Iterate

namespace Osisp.Lib

variable {α : Type*}

/-- Merges neighbouring runs; an odd last run stays. -/
def mergePairs (le : α → α → Bool) : List (List α) → List (List α)
  | x :: y :: rest => x.merge y le :: mergePairs le rest
  | runs => runs

theorem mergePairs_length (le : α → α → Bool) (runs : List (List α)) :
    (mergePairs le runs).length = (runs.length + 1) / 2 := by
  fun_induction mergePairs le runs with
  | case1 x y rest ih =>
    simp only [List.length_cons, ih]
    omega
  | case2 runs hshort =>
    match runs with
    | [] => simp
    | [x] => simp
    | x :: y :: rest => exact absurd rfl (hshort x y rest)

theorem mergePairs_perm (le : α → α → Bool) (runs : List (List α)) :
    (mergePairs le runs).flatten.Perm runs.flatten := by
  fun_induction mergePairs le runs with
  | case1 x y rest ih =>
    simp only [List.flatten_cons, ← List.append_assoc]
    exact (List.merge_perm_append le).append ih
  | case2 => exact .refl _

theorem mergePairs_sorted {le : α → α → Bool} (htrans : ∀ a b c, le a b → le b c → le a c)
    (htotal : ∀ a b, le a b || le b a) {runs : List (List α)}
    (h : ∀ r ∈ runs, r.Pairwise (fun a b => le a b)) :
    ∀ r ∈ mergePairs le runs, r.Pairwise (fun a b => le a b) := by
  fun_induction mergePairs le runs with
  | case1 x y rest ih =>
    intro r hr
    rcases List.mem_cons.mp hr with rfl | hr
    · exact List.pairwise_merge htrans htotal _ _ (h x (by simp)) (h y (by simp))
    · exact ih (fun r hr => h r (by simp [hr])) r hr
  | case2 => exact h

theorem mergePairs_iterate_length (le : α → α → Bool) {k : Nat} {runs : List (List α)}
    (h : runs.length = 2 ^ k) : ((mergePairs le)^[k] runs).length = 1 := by
  induction k generalizing runs with
  | zero => exact h
  | succ k ih =>
    rw [Function.iterate_succ_apply]
    apply ih
    rw [mergePairs_length, h, Nat.pow_succ]
    omega

theorem mergePairs_iterate_perm (le : α → α → Bool) (k : Nat) (runs : List (List α)) :
    ((mergePairs le)^[k] runs).flatten.Perm runs.flatten := by
  induction k generalizing runs with
  | zero => exact .refl _
  | succ k ih =>
    rw [Function.iterate_succ_apply]
    exact (ih _).trans (mergePairs_perm le runs)

theorem left_sublist_merge (le : α → α → Bool) (xs ys : List α) :
    xs.Sublist (xs.merge ys le) := by
  fun_induction List.merge xs ys le with
  | case1 ys => exact List.nil_sublist _
  | case2 xs hne => exact .refl _
  | case3 x xs y ys hle ih => exact ih.cons_cons x
  | case4 x xs y ys hle ih => exact ih.cons y

theorem right_sublist_merge (le : α → α → Bool) (xs ys : List α) :
    ys.Sublist (xs.merge ys le) := by
  fun_induction List.merge xs ys le with
  | case1 ys => exact .refl _
  | case2 xs hne => exact List.nil_sublist _
  | case3 x xs y ys hle ih => exact ih.cons x
  | case4 x xs y ys hle ih => exact ih.cons_cons y

theorem mergePairs_sublist (le : α → α → Bool) (runs : List (List α)) :
    ∀ r ∈ runs, ∃ r' ∈ mergePairs le runs, r.Sublist r' := by
  fun_induction mergePairs le runs with
  | case1 x y rest ih =>
    intro r hr
    rcases List.mem_cons.mp hr with rfl | hr
    · exact ⟨_, List.mem_cons_self, left_sublist_merge le r y⟩
    · rcases List.mem_cons.mp hr with rfl | hr
      · exact ⟨_, List.mem_cons_self, right_sublist_merge le x r⟩
      · obtain ⟨r', hr', hsub⟩ := ih r hr
        exact ⟨r', List.mem_cons_of_mem _ hr', hsub⟩
  | case2 => exact fun r hr => ⟨r, hr, .refl r⟩

theorem mergePairs_sorted_iff {le : α → α → Bool} (htrans : ∀ a b c, le a b → le b c → le a c)
    (htotal : ∀ a b, le a b || le b a) (runs : List (List α)) :
    (∀ r ∈ mergePairs le runs, r.Pairwise (fun a b => le a b)) ↔
      ∀ r ∈ runs, r.Pairwise (fun a b => le a b) := by
  constructor
  · intro h r hr
    obtain ⟨r', hr', hsub⟩ := mergePairs_sublist le runs r hr
    exact (h r' hr').sublist hsub
  · exact mergePairs_sorted htrans htotal

theorem merge_congr {le le' : α → α → Bool} {xs ys : List α}
    (h : ∀ a ∈ xs, ∀ b ∈ ys, le a b = le' a b) : xs.merge ys le = xs.merge ys le' := by
  fun_induction List.merge xs ys le with
  | case1 ys => rw [List.nil_merge]
  | case2 xs hne => rw [List.merge_right]
  | case3 x xs y ys hle ih =>
    have hle' : le' x y = true := (h x (by simp) y (by simp)).symm.trans hle
    rw [List.cons_merge_cons_pos le' _ _ hle', ih fun a ha b hb => h a (by simp [ha]) b hb]
  | case4 x xs y ys hle ih =>
    have hle' : ¬le' x y = true := fun hx => hle ((h x (by simp) y (by simp)).trans hx)
    rw [List.cons_merge_cons_neg le' _ _ hle', ih fun a ha b hb => h a ha b (by simp [hb])]

theorem mergePairs_congr {le le' : α → α → Bool} {runs : List (List α)}
    (h : ∀ a ∈ runs.flatten, ∀ b ∈ runs.flatten, le a b = le' a b) :
    mergePairs le runs = mergePairs le' runs := by
  fun_induction mergePairs le runs with
  | case1 x y rest ih =>
    have hrest := ih fun a ha b hb => h a (by simp [List.mem_flatten.mp ha]) b
      (by simp [List.mem_flatten.mp hb])
    rw [mergePairs, hrest, merge_congr fun a ha b hb => h a (by simp [ha]) b (by simp [hb])]
  | case2 runs hshort =>
    match runs with
    | [] => rfl
    | [x] => rfl
    | x :: y :: rest => exact absurd rfl (hshort x y rest)

/-- Merges neighbouring runs, round after round, until one is left. -/
def mergeAll (le : α → α → Bool) (runs : List (List α)) : List α :=
  if 1 < runs.length then mergeAll le (mergePairs le runs) else runs.flatten
termination_by runs.length
decreasing_by
  rw [mergePairs_length]
  omega

theorem mergeAll_perm (le : α → α → Bool) (runs : List (List α)) :
    (mergeAll le runs).Perm runs.flatten := by
  fun_induction mergeAll le runs with
  | case1 runs hmany ih => exact ih.trans (mergePairs_perm le runs)
  | case2 => exact .refl _

theorem mergeAll_sorted_iff {le : α → α → Bool} (htrans : ∀ a b c, le a b → le b c → le a c)
    (htotal : ∀ a b, le a b || le b a) (runs : List (List α)) :
    (mergeAll le runs).Pairwise (fun a b => le a b) ↔
      ∀ r ∈ runs, r.Pairwise (fun a b => le a b) := by
  fun_induction mergeAll le runs with
  | case1 runs hmany ih => exact ih.trans (mergePairs_sorted_iff htrans htotal runs)
  | case2 runs hone =>
    match runs with
    | [] => simp
    | [x] => simp
    | x :: y :: rest => exact absurd (by simp) hone

theorem mergeAll_congr {le le' : α → α → Bool} {runs : List (List α)}
    (h : ∀ a ∈ runs.flatten, ∀ b ∈ runs.flatten, le a b = le' a b) :
    mergeAll le runs = mergeAll le' runs := by
  fun_induction mergeAll le runs with
  | case1 runs hmany ih =>
    have hperm := mergePairs_perm le runs
    have hrest := ih fun a ha b hb => h a (hperm.mem_iff.mp ha) b (hperm.mem_iff.mp hb)
    rw [hrest, mergeAll.eq_def le' runs, if_pos hmany, mergePairs_congr h]
  | case2 runs hone => rw [mergeAll, if_neg hone]

/-- Neighbouring runs put together, not yet merged. -/
def joinPairs : List (List α) → List (List α)
  | x :: y :: rest => (x ++ y) :: joinPairs rest
  | runs => runs

theorem joinPairs_flatten (runs : List (List α)) : (joinPairs runs).flatten = runs.flatten := by
  fun_induction joinPairs runs with
  | case1 x y rest ih => simp [ih]
  | case2 => rfl

theorem joinPairs_length {n : Nat} {runs : List (List α)} (h : runs.length = 2 * n) :
    (joinPairs runs).length = n := by
  induction n generalizing runs with
  | zero =>
    obtain rfl := List.length_eq_zero_iff.mp h
    rfl
  | succ n ih =>
    match runs with
    | x :: y :: rest =>
      rw [joinPairs, List.length_cons, ih (by simp at h; omega)]

theorem joinPairs_width {n m : Nat} {runs : List (List α)} (h : runs.length = 2 * n)
    (hm : ∀ r ∈ runs, r.length = m) : ∀ r ∈ joinPairs runs, r.length = 2 * m := by
  induction n generalizing runs with
  | zero =>
    obtain rfl := List.length_eq_zero_iff.mp h
    nofun
  | succ n ih =>
    match runs with
    | x :: y :: rest =>
      intro r hr
      rcases List.mem_cons.mp hr with rfl | hr
      · rw [List.length_append, hm x (by simp), hm y (by simp)]
        omega
      · exact ih (by simp at h; omega) (fun r hr => hm r (by simp [hr])) r hr

/-- Merging the two halves of every joined pair. -/
theorem joinPairs_map_merge (le : α → α → Bool) {n m : Nat} {runs : List (List α)}
    (h : runs.length = 2 * n) (hm : ∀ r ∈ runs, r.length = m) :
    (joinPairs runs).map (fun r => (r.take m).merge (r.drop m) le) = mergePairs le runs := by
  induction n generalizing runs with
  | zero =>
    obtain rfl := List.length_eq_zero_iff.mp h
    rfl
  | succ n ih =>
    match runs with
    | x :: y :: rest =>
      have hx : x.length = m := hm x (by simp)
      have hlen : rest.length = 2 * n := by
        simp only [List.length_cons] at h
        omega
      have hrest := ih hlen fun r hr => hm r (by simp [hr])
      rw [joinPairs, mergePairs, List.map_cons, hrest, ← hx, List.take_left, List.drop_left]

theorem mergePairs_width (le : α → α → Bool) {n m : Nat} {runs : List (List α)}
    (h : runs.length = 2 * n) (hm : ∀ r ∈ runs, r.length = m) :
    ∀ r ∈ mergePairs le runs, r.length = 2 * m := by
  rw [← joinPairs_map_merge le h hm]
  intro r hr
  obtain ⟨r', hr', rfl⟩ := List.mem_map.mp hr
  rw [List.length_merge, ← List.length_append, List.take_append_drop]
  exact joinPairs_width h hm r' hr'

end Osisp.Lib
