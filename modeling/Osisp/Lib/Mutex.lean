import Mathlib.Logic.Basic
import Mathlib.Data.List.Basic

namespace Osisp.Lib

variable {P : Type*}

/-- Exactly the holder of a mutex is inside the section the mutex guards. -/
def Guards (holder : Option P) (inside : P → Prop) : Prop := ∀ p, inside p ↔ holder = some p

/-- How a fair step of party `p` changes the holder of a mutex: not at all, an entry while the
mutex is free, or an exit from inside. `was` and `is` say whether `p` is inside before and
after. -/
def MutexMove (p : P) (holder holder' : Option P) (was is : Bool) : Prop :=
  (holder' = holder ∧ is = was) ∨
  (holder = none ∧ holder' = some p ∧ was = false ∧ is = true) ∨
  (holder' = none ∧ was = true ∧ is = false)

/-- A fair step of one party that moves no other keeps the holder and the party inside the
same. -/
theorem MutexMove.guards {p : P} {holder holder' : Option P} {was is : Bool}
    {inside inside' : P → Prop} (hm : MutexMove p holder holder' was is)
    (hg : Guards holder inside) (hwas : inside p ↔ was = true) (his : inside' p ↔ is = true)
    (hother : ∀ q, q ≠ p → (inside' q ↔ inside q)) : Guards holder' inside' := by
  intro q
  have hgp := hg p
  have hgq := hg q
  by_cases hq : q = p
  · subst hq
    rcases hm with ⟨hh, he⟩ | ⟨-, hh, -, he⟩ | ⟨hh, -, he⟩
    · rw [his, he, ← hwas, hgq, hh]
    · simp [his, he, hh]
    · simp [his, he, hh]
  · rw [hother q hq, hgq]
    rcases hm with ⟨hh, -⟩ | ⟨hfree, hh, -, -⟩ | ⟨hh, hw, -⟩
    · rw [hh]
    · simp [hfree, hh, Ne.symm hq]
    · have hp := hgp.mp (hwas.mpr hw)
      simp [hp, hh, Ne.symm hq]

theorem MutexMove.lockAt {K : Type*} [DecidableEq K] {holder : K → Option P} {k : K}
    (hfree : holder k = none) (p : P) (j : K) :
    MutexMove p (holder j) (Function.update holder k (some p) j) false (decide (k = j)) := by
  rcases eq_or_ne j k with rfl | hne
  · exact .inr (.inl ⟨hfree, Function.update_self _ _ _, rfl, by simp⟩)
  · exact .inl ⟨Function.update_of_ne hne _ _, by simp [hne.symm]⟩

theorem MutexMove.unlockAt {K : Type*} [DecidableEq K] (holder : K → Option P) (k : K) (p : P)
    (j : K) : MutexMove p (holder j) (Function.update holder k none j) (decide (k = j)) false := by
  rcases eq_or_ne j k with rfl | hne
  · exact .inr (.inr ⟨Function.update_self _ _ _, by simp, rfl⟩)
  · exact .inl ⟨Function.update_of_ne hne _ _, by simp [hne.symm]⟩

theorem Guards.unique {holder : Option P} {inside : P → Prop} (hg : Guards holder inside)
    {p q : P} (hp : inside p) (hq : inside q) : p = q :=
  Option.some.inj (((hg p).mp hp).symm.trans ((hg q).mp hq))

variable {A : Type*}

def At (xs : List A) (t : Nat) (p : A → Prop) : Prop := ∃ x, xs[t]? = some x ∧ p x

instance (xs : List A) (t : Nat) (p : A → Prop) [DecidablePred p] : Decidable (At xs t p) :=
  match h : xs[t]? with
  | none => isFalse fun ⟨_, hx, _⟩ => by rw [h] at hx; cases hx
  | some x => decidable_of_iff (p x)
    ⟨fun hp => ⟨x, h, hp⟩, fun ⟨_, hy, hp⟩ => by rw [h] at hy; cases hy; exact hp⟩

theorem at_of_getElem? {xs : List A} {t : Nat} {x : A} (h : xs[t]? = some x) (p : A → Prop) :
    At xs t p ↔ p x := by
  constructor
  · rintro ⟨y, hy, hp⟩
    rw [h] at hy
    exact Option.some.inj hy ▸ hp
  · intro hp
    exact ⟨x, h, hp⟩

theorem at_set_self {xs : List A} {t : Nat} {x : A} (h : xs[t]? = some x) (y : A)
    (p : A → Prop) : At (xs.set t y) t p ↔ p y := by
  have ht : t < xs.length := (List.getElem?_eq_some_iff.mp h).1
  exact at_of_getElem? (by simp [ht]) p

theorem at_set_of_ne {t u : Nat} (h : t ≠ u) (xs : List A) (y : A) (p : A → Prop) :
    At (xs.set t y) u p ↔ At xs u p := by
  simp only [At, List.getElem?_set_ne h]

theorem set_of_getElem? {xs : List A} {t : Nat} {x : A} (h : xs[t]? = some x) :
    xs.set t x = xs := by
  obtain ⟨ht, rfl⟩ := List.getElem?_eq_some_iff.mp h
  exact List.set_getElem_self ht

theorem entry_of_set {xs : List A} {t u : Nat} {x y : A} (h : (xs.set t y)[u]? = some x) :
    (u = t ∧ x = y) ∨ (u ≠ t ∧ xs[u]? = some x) := by
  by_cases hu : t = u
  · subst hu
    have ht : t < xs.length := by simpa using (List.getElem?_eq_some_iff.mp h).1
    rw [List.getElem?_set_self ht] at h
    exact .inl ⟨rfl, (Option.some.inj h).symm⟩
  · rw [List.getElem?_set_ne hu] at h
    exact .inr ⟨fun h => hu h.symm, h⟩

theorem entry_of_append {xs : List A} {u : Nat} {x y : A} (h : (xs ++ [y])[u]? = some x) :
    x = y ∨ xs[u]? = some x := by
  by_cases hu : u < xs.length
  · rw [List.getElem?_append_left hu] at h
    exact .inr h
  · rw [List.getElem?_append_right (by omega)] at h
    exact .inl (List.mem_singleton.mp (List.mem_of_getElem? h))

theorem forall_entry_set {P : Nat → A → Prop} {xs ys : List A} {t : Nat} {y : A}
    (hset : ys = xs.set t y) (hself : P t y)
    (hother : ∀ u x, u ≠ t → xs[u]? = some x → P u x) :
    ∀ (u : Nat) (x : A), ys[u]? = some x → P u x := by
  intro u x hx
  rw [hset] at hx
  rcases entry_of_set hx with ⟨rfl, rfl⟩ | ⟨hne, hx⟩
  · exact hself
  · exact hother u x hne hx

theorem forall_entry_append {P : A → Prop} {xs : List A} {y : A} (hnew : P y)
    (h : ∀ (u : Nat) (x : A), xs[u]? = some x → P x) :
    ∀ (u : Nat) (x : A), (xs ++ [y])[u]? = some x → P x := by
  intro u x hx
  rcases entry_of_append hx with rfl | hx
  · exact hnew
  · exact h u x hx

theorem at_append_of_not {p : A → Prop} {y : A} (hy : ¬p y) (xs : List A) (u : Nat) :
    At (xs ++ [y]) u p ↔ At xs u p := by
  rcases Nat.lt_trichotomy u xs.length with h | h | h
  · simp only [At, List.getElem?_append_left h]
  · subst h
    simp [At, hy]
  · simp only [At]
    rw [List.getElem?_eq_none (by simp; omega), List.getElem?_eq_none (by omega)]

theorem at_modify (xs : List A) (t u : Nat) (f : A → A) (p : A → Prop) :
    At (xs.modify t f) u p ↔ At xs u (fun a => p (if t = u then f a else a)) := by
  simp only [At, List.getElem?_modify]
  cases h : xs[u]? with
  | none => simp
  | some a => by_cases ht : t = u <;> simp [ht]

theorem at_append {xs : List A} {t : Nat} {p : A → Prop} (h : At xs t p) (ys : List A) :
    At (xs ++ ys) t p := by
  obtain ⟨a, ha, hp⟩ := h
  exact ⟨a, by rw [List.getElem?_append_left (List.getElem?_eq_some_iff.mp ha).1, ha], hp⟩

end Osisp.Lib
