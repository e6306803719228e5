import Mathlib.Data.Nat.ModEq
import Mathlib.Logic.Function.Basic

namespace Osisp.Lib

/-- Cell of the `k`-th element of a ring of `cap` cells whose first element is in `head`. -/
def slot (cap head k : Nat) : Nat := (head + k) % cap

theorem slot_lt {cap : Nat} (head k : Nat) (h : 0 < cap) : slot cap head k < cap :=
  Nat.mod_lt _ h

theorem slot_zero {cap head : Nat} (h : head < cap) : slot cap head 0 = head :=
  Nat.mod_eq_of_lt h

theorem slot_of_lt {cap head k : Nat} (h : head + k < cap) : slot cap head k = head + k :=
  Nat.mod_eq_of_lt h

theorem slot_of_le {cap head k : Nat} (h : cap ≤ head + k) (h' : head + k < 2 * cap) :
    slot cap head k = head + k - cap := by
  unfold slot
  rw [Nat.mod_eq_sub_mod h]
  exact Nat.mod_eq_of_lt (by omega)

theorem slot_inj {cap head j k : Nat} (hj : j < cap) (hk : k < cap)
    (h : slot cap head j = slot cap head k) : j = k := by
  unfold slot at h
  exact (Nat.ModEq.add_left_cancel' head h).eq_of_lt_of_lt hj hk

theorem slot_next (cap head k : Nat) : slot cap ((head + 1) % cap) k = slot cap head (k + 1) := by
  unfold slot
  rw [Nat.mod_add_mod, Nat.add_assoc, Nat.add_comm 1 k]

theorem slot_next_last {cap head : Nat} (h : head < cap) :
    slot cap ((head + 1) % cap) (cap - 1) = head := by
  rw [slot_next, slot, show cap - 1 + 1 = cap by omega, Nat.add_mod_right]
  exact Nat.mod_eq_of_lt h

theorem exists_slot {cap head i : Nat} (hh : head < cap) (hi : i < cap) :
    ∃ k, k < cap ∧ slot cap head k = i := by
  by_cases h : head ≤ i
  · exact ⟨i - head, by omega, by rw [slot_of_lt] <;> omega⟩
  · exact ⟨i + cap - head, by omega, by rw [slot_of_le] <;> omega⟩

variable {β : Type*}

/-- The first `n` cells from `head` on show `view 0`, `view 1`, ... -/
def Window (cap head n : Nat) (cells view : Nat → β) : Prop :=
  ∀ k, k < n → cells (slot cap head k) = view k

theorem Window.write {cap head n j : Nat} {cells view : Nat → β}
    (hw : Window cap head n cells view) (hn : n ≤ cap) (hj : j < cap) (v : β) :
    Window cap head n (Function.update cells (slot cap head j) v)
      (Function.update view j v) := by
  intro k hk
  by_cases hkj : k = j
  · subst hkj
    simp
  · have hne : slot cap head k ≠ slot cap head j := fun he => hkj (slot_inj (by omega) hj he)
    rw [Function.update_of_ne hne, Function.update_of_ne hkj]
    exact hw k hk

theorem Window.advance {cap head n : Nat} {cells view : Nat → β}
    (hw : Window cap head n cells view) :
    Window cap ((head + 1) % cap) (n - 1) cells (fun k => view (k + 1)) := by
  intro k hk
  rw [slot_next]
  exact hw (k + 1) (by omega)

theorem Window.rotate {cap head : Nat} {cells view : Nat → β}
    (hw : Window cap head cap cells view) (hh : head < cap) (hlast : view cap = view 0) :
    Window cap ((head + 1) % cap) cap cells (fun k => view (k + 1)) := by
  intro k hk
  by_cases hk' : k < cap - 1
  · exact hw.advance k hk'
  · obtain rfl : k = cap - 1 := by omega
    have h0 := hw 0 (by omega)
    rw [slot_zero hh] at h0
    have hcap : cap - 1 + 1 = cap := by omega
    simp only [slot_next_last hh, h0, hcap, hlast]

/-- A gap opened in front of the head. -/
theorem Window.insertGap {cap head : Nat} {cells cells' view : Nat → β}
    (hw : Window cap head cap cells view) (hh : head < cap)
    (hlow : ∀ i, i < head → cells' i = cells i) (hgap : cells' head = view cap)
    (hhigh : ∀ i, head < i → i ≤ cap → cells' i = cells (i - 1)) :
    Window (cap + 1) (head + 1) (cap + 1) cells' view := by
  intro k hk
  rcases Nat.lt_trichotomy (head + k) cap with h | h | h
  · have hs := hw k (by omega)
    rw [slot_of_lt h] at hs
    rw [slot_of_lt (by omega), hhigh _ (by omega) (by omega), ← hs]
    congr 1
    omega
  all_goals
    rw [slot_of_le (by omega) (by omega)]
    by_cases hk' : k = cap
    · subst hk'
      rw [← hgap]
      congr 1
      omega
    · have hs := hw k (by omega)
      rw [slot_of_le (by omega) (by omega)] at hs
      rw [hlow _ (by omega), ← hs]
      congr 1
      omega

/-- A gap appended behind the last cell, none of the elements from there on being shown. -/
theorem Window.appendGap {cap head : Nat} {cells cells' view : Nat → β} {c : β}
    (hw : Window cap head cap cells view) (hh : head < cap)
    (hlow : ∀ i, i < cap → cells' i = cells i) (hgap : cells' cap = c)
    (hview : ∀ k, cap ≤ head + k → view k = c) :
    Window (cap + 1) head (cap + 1) cells' view := by
  intro k hk
  rcases Nat.lt_trichotomy (head + k) cap with h | h | h
  · have hs := hw k (by omega)
    rw [slot_of_lt h] at hs
    rw [slot_of_lt (by omega), hlow _ h, hs]
  · rw [slot_of_lt (by omega), h, hgap, hview k (by omega)]
  · have hs := hw (k - 1) (by omega)
    rw [slot_of_le (by omega) (by omega), hview (k - 1) (by omega)] at hs
    rw [slot_of_le (by omega) (by omega), hlow _ (by omega), hview k (by omega), ← hs]
    congr 1
    omega

/-- The cell in front of the head removed. -/
theorem Window.removeGap {cap head : Nat} {cells cells' view : Nat → β}
    (hw : Window cap head cap cells view) (hh : head < cap) (h0 : 0 < head)
    (hlow : ∀ i, i + 1 < head → cells' i = cells i)
    (hhigh : ∀ i, head ≤ i + 1 → i + 1 < cap → cells' i = cells (i + 1)) :
    Window (cap - 1) (head - 1) (cap - 1) cells' view := by
  intro k hk
  have hs := hw k (by omega)
  by_cases h : head + k < cap
  · rw [slot_of_lt h] at hs
    rw [slot_of_lt (by omega), hhigh _ (by omega) (by omega), ← hs]
    congr 1
    omega
  · rw [slot_of_le (by omega) (by omega)] at hs
    rw [slot_of_le (by omega) (by omega), hlow _ (by omega), ← hs]
    congr 1
    omega

/-- The last cell removed, none of the elements from there on being shown. -/
theorem Window.dropLast {cap head : Nat} {cells cells' view : Nat → β} {c : β}
    (hw : Window cap head cap cells view) (hh : head + 1 < cap)
    (hlow : ∀ i, i + 1 < cap → cells' i = cells i)
    (hview : ∀ k, cap ≤ head + k + 1 → view k = c) :
    Window (cap - 1) head (cap - 1) cells' view := by
  intro k hk
  by_cases h : head + k + 1 < cap
  · have hs := hw k (by omega)
    rw [slot_of_lt (by omega)] at hs
    rw [slot_of_lt (by omega), hlow _ h, hs]
  · have hs := hw (k + 1) (by omega)
    rw [slot_of_le (by omega) (by omega), hview (k + 1) (by omega)] at hs
    rw [slot_of_le (by omega) (by omega), hlow _ (by omega), hview k (by omega), ← hs]
    congr 1
    omega

end Osisp.Lib
