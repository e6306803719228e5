import Mathlib.Data.List.Nodup
import Mathlib.Data.List.Perm.Basic
import Mathlib.Order.Lattice
import Osisp.Lib.MergeRuns

namespace Osisp.Lib

variable {α β : Type*} [LinearOrder β] (key : α → β)

/-- The test of a sort by the key. -/
def keyLe (a b : α) : Bool := key a ≤ key b

/-- The elements with one key, in their order. -/
def withKey (k : β) (xs : List α) : List α := xs.filter fun x => key x = k

/-- `ys` is `xs` in the order of the keys; elements with equal keys stand as they stood in `xs`. -/
structure StableSort (xs ys : List α) : Prop where
  perm : ys.Perm xs
  sorted : ys.Pairwise (fun a b => keyLe key a b)
  withKey_eq : ∀ k, withKey key k ys = withKey key k xs

variable {key}

theorem keyLe_trans (a b c : α) (hab : keyLe key a b) (hbc : keyLe key b c) : keyLe key a c :=
  decide_eq_true (le_trans (of_decide_eq_true hab) (of_decide_eq_true hbc))

theorem keyLe_total (a b : α) : keyLe key a b || keyLe key b a := by
  simp only [keyLe, Bool.or_eq_true, decide_eq_true_eq]
  exact le_total _ _

@[simp] theorem withKey_append (k : β) (xs ys : List α) :
    withKey key k (xs ++ ys) = withKey key k xs ++ withKey key k ys :=
  List.filter_append _ _

theorem withKey_cons_of_eq {k : β} {x : α} (h : key x = k) (xs : List α) :
    withKey key k (x :: xs) = x :: withKey key k xs :=
  List.filter_cons_of_pos (decide_eq_true h)

theorem withKey_cons_of_ne {k : β} {x : α} (h : key x ≠ k) (xs : List α) :
    withKey key k (x :: xs) = withKey key k xs :=
  List.filter_cons_of_neg (by simpa using h)

theorem mem_withKey {k : β} {x : α} {xs : List α} : x ∈ withKey key k xs ↔ x ∈ xs ∧ key x = k := by
  rw [withKey, List.mem_filter, decide_eq_true_eq]

theorem withKey_eq_nil {k : β} {xs : List α} {x : α}
    (h : (x :: xs).Pairwise (fun a b => keyLe key a b)) (hk : k < key x) :
    withKey key k (x :: xs) = [] := by
  apply List.eq_nil_iff_forall_not_mem.mpr
  intro a ha
  obtain ⟨hmem, rfl⟩ := mem_withKey.mp ha
  rcases List.mem_cons.mp hmem with rfl | hmem
  · exact lt_irrefl _ hk
  · exact not_le_of_gt hk (of_decide_eq_true (List.rel_of_pairwise_cons h hmem))

/-- Two lists in the order of the keys are one, where their elements of each key are. -/
theorem sorted_unique {xs ys : List α} (hx : xs.Pairwise (fun a b => keyLe key a b))
    (hy : ys.Pairwise (fun a b => keyLe key a b))
    (h : ∀ k, withKey key k xs = withKey key k ys) : xs = ys := by
  induction xs generalizing ys with
  | nil =>
    rcases ys with _ | ⟨y, ys⟩
    · rfl
    · have hk := h (key y)
      rw [withKey_cons_of_eq rfl] at hk
      cases hk
  | cons x xs ih =>
    rcases ys with _ | ⟨y, ys⟩
    · have hk := h (key x)
      rw [withKey_cons_of_eq rfl] at hk
      cases hk
    · -- both begin with the smallest key
      have hkeys : key x = key y := by
        rcases lt_trichotomy (key x) (key y) with hlt | heq | hgt
        · have hk := h (key x)
          rw [withKey_cons_of_eq rfl, withKey_eq_nil hy hlt] at hk
          cases hk
        · exact heq
        · have hk := h (key y)
          rw [withKey_eq_nil hx hgt, withKey_cons_of_eq rfl] at hk
          cases hk
      have hfirst := h (key y)
      rw [withKey_cons_of_eq hkeys, withKey_cons_of_eq rfl] at hfirst
      obtain rfl := (List.cons.inj hfirst).1
      rw [ih hx.of_cons hy.of_cons]
      intro k
      have hk := h k
      by_cases hxk : key x = k
      · rw [withKey_cons_of_eq hxk, withKey_cons_of_eq hxk] at hk
        exact (List.cons.inj hk).2
      · rwa [withKey_cons_of_ne hxk, withKey_cons_of_ne hxk] at hk

theorem StableSort.unique {xs ys zs : List α} (hy : StableSort key xs ys)
    (hz : StableSort key xs zs) : ys = zs :=
  sorted_unique hy.sorted hz.sorted fun k => (hy.withKey_eq k).trans (hz.withKey_eq k).symm

/-- With different keys there is no choice for the elements of a key. -/
theorem withKey_eq_of_perm {xs ys : List α} (hperm : ys.Perm xs) (hnodup : (xs.map key).Nodup)
    (k : β) : withKey key k ys = withKey key k xs := by
  have hfilter : (withKey key k ys).Perm (withKey key k xs) := hperm.filter _
  have hone : (withKey key k xs).length ≤ 1 := by
    have hcount := List.nodup_iff_count_le_one.mp hnodup k
    rw [List.count_eq_countP, List.countP_map, List.countP_eq_length_filter] at hcount
    simpa [withKey, Function.comp_def, beq_eq_decide] using hcount
  match h : withKey key k xs with
  | [] =>
    rw [h] at hfilter
    exact List.perm_nil.mp hfilter
  | [x] =>
    rw [h] at hfilter
    exact List.perm_singleton.mp hfilter
  | x :: y :: zs =>
    rw [h] at hone
    simp at hone

theorem withKey_flatten_map {parts : List (List α)} {f : List α → List α}
    (hf : ∀ r ∈ parts, StableSort key r (f r)) (k : β) :
    withKey key k (parts.map f).flatten = withKey key k parts.flatten := by
  induction parts with
  | nil => simp
  | cons r parts ih =>
    have hrest := ih fun x hx => hf x (List.mem_cons_of_mem r hx)
    have hr := (hf r List.mem_cons_self).withKey_eq k
    simp only [List.map_cons, List.flatten_cons, withKey_append, hr, hrest]

/-- A merge takes from the left side where the keys are equal. -/
theorem withKey_merge {xs : List α} (hx : xs.Pairwise (fun a b => keyLe key a b)) (ys : List α)
    (k : β) : withKey key k (xs.merge ys (keyLe key)) = withKey key k (xs ++ ys) := by
  fun_induction List.merge xs ys (keyLe key) with
  | case1 ys => rw [List.nil_append]
  | case2 xs hne => rw [List.append_nil]
  | case3 x xs y ys hle ih =>
    have hrest := ih hx.of_cons
    rw [List.cons_append]
    by_cases hxk : key x = k
    · rw [withKey_cons_of_eq hxk, withKey_cons_of_eq hxk, hrest]
    · rw [withKey_cons_of_ne hxk, withKey_cons_of_ne hxk, hrest]
  | case4 x xs y ys hgt ih =>
    have hrest := ih hx
    rw [withKey_append] at hrest ⊢
    by_cases hyk : key y = k
    · have hlt : k < key x := hyk ▸ lt_of_not_ge fun hle => hgt (decide_eq_true hle)
      rw [withKey_eq_nil hx hlt, List.nil_append] at hrest
      rw [withKey_cons_of_eq hyk, withKey_cons_of_eq hyk, withKey_eq_nil hx hlt, List.nil_append,
        hrest]
    · rw [withKey_cons_of_ne hyk, withKey_cons_of_ne hyk, hrest]

theorem withKey_mergePairs {runs : List (List α)}
    (h : ∀ r ∈ runs, r.Pairwise (fun a b => keyLe key a b)) (k : β) :
    withKey key k (mergePairs (keyLe key) runs).flatten = withKey key k runs.flatten := by
  fun_induction mergePairs (keyLe key) runs with
  | case1 x y rest ih =>
    have hrest := ih fun r hr => h r (by simp [hr])
    rw [List.flatten_cons, List.flatten_cons, List.flatten_cons, ← List.append_assoc,
      withKey_append, withKey_append, withKey_merge (h x (by simp)), hrest]
  | case2 => rfl

theorem mergeAll_stable {runs : List (List α)}
    (h : ∀ r ∈ runs, r.Pairwise (fun a b => keyLe key a b)) :
    StableSort key runs.flatten (mergeAll (keyLe key) runs) := by
  refine ⟨mergeAll_perm _ runs, (mergeAll_sorted_iff keyLe_trans keyLe_total runs).mpr h, ?_⟩
  intro k
  fun_induction mergeAll (keyLe key) runs with
  | case1 runs hmany ih =>
    exact (ih (mergePairs_sorted keyLe_trans keyLe_total h)).trans (withKey_mergePairs h k)
  | case2 => rfl

theorem withKey_iterate {runs : List (List α)}
    (h : ∀ r ∈ runs, r.Pairwise (fun a b => keyLe key a b)) (n : Nat) (k : β) :
    withKey key k ((mergePairs (keyLe key))^[n] runs).flatten = withKey key k runs.flatten := by
  induction n generalizing runs with
  | zero => rfl
  | succ n ih =>
    rw [Function.iterate_succ_apply]
    exact (ih (mergePairs_sorted keyLe_trans keyLe_total h)).trans (withKey_mergePairs h k)

/-- The merge sort of the library is stable. -/
theorem mergeSort_stable (key : α → β) (xs : List α) :
    StableSort key xs (xs.mergeSort (keyLe key)) := by
  have hperm := List.mergeSort_perm xs (keyLe key)
  refine ⟨hperm, List.pairwise_mergeSort keyLe_trans keyLe_total xs, ?_⟩
  intro k
  have hties : (withKey key k xs).Pairwise (fun a b => keyLe key a b) := by
    apply List.pairwise_of_forall_mem_list
    intro a ha b hb
    exact decide_eq_true (le_of_eq ((mem_withKey.mp ha).2.trans (mem_withKey.mp hb).2.symm))
  have hsub := List.sublist_mergeSort keyLe_trans keyLe_total hties List.filter_sublist
  have hself : withKey key k (withKey key k xs) = withKey key k xs :=
    List.filter_eq_self.mpr fun a ha => decide_eq_true (mem_withKey.mp ha).2
  have hfilter : (withKey key k (withKey key k xs)).Sublist
      (withKey key k (xs.mergeSort (keyLe key))) := hsub.filter _
  rw [hself] at hfilter
  have hlen : (withKey key k (xs.mergeSort (keyLe key))).length = (withKey key k xs).length :=
    (hperm.filter _).length_eq
  exact (hfilter.eq_of_length hlen.symm).symm

section Border

theorem perm_of_withKey (key : α → β) {xs ys : List α}
    (h : ∀ k, (withKey key k xs).Perm (withKey key k ys)) :
    xs.Perm ys := by
  classical
  rw [List.perm_iff_count]
  intro a
  have hcount := (List.perm_iff_count.mp (h (key a))) a
  rwa [withKey, withKey, List.count_filter (by simp), List.count_filter (by simp)] at hcount

/-- Where no key behind the border is smaller, sorting leaves as many elements of each key in
front of it. -/
theorem length_withKey_take {out us vs : List α} (hout : out.Pairwise (fun a b => keyLe key a b))
    (hperm : out.Perm (us ++ vs)) (hle : ∀ a ∈ us, ∀ b ∈ vs, key a ≤ key b) (k : β) :
    (withKey key k (out.take us.length)).length = (withKey key k us).length := by
  have hu := mergeSort_stable key us
  have hv := mergeSort_stable key vs
  -- the two sides, sorted each for itself, have the keys of the sorted list
  have hboth : (us.mergeSort (keyLe key) ++ vs.mergeSort (keyLe key)).Pairwise
      (fun a b => keyLe key a b) := by
    refine List.pairwise_append.mpr ⟨hu.sorted, hv.sorted, ?_⟩
    intro a ha b hb
    exact decide_eq_true (hle a (hu.perm.mem_iff.mp ha) b (hv.perm.mem_iff.mp hb))
  have hkeys : out.map key = (us.mergeSort (keyLe key) ++ vs.mergeSort (keyLe key)).map key := by
    have hmap : ∀ xs : List α, xs.Pairwise (fun a b => keyLe key a b) →
        (xs.map key).Pairwise (· ≤ ·) := fun xs h =>
      List.pairwise_map.mpr (h.imp of_decide_eq_true)
    exact List.Perm.eq_of_pairwise (fun a b _ _ hab hba => le_antisymm hab hba) (hmap _ hout)
      (hmap _ hboth) ((hperm.trans (hu.perm.append hv.perm).symm).map key)
  have hlen : ∀ xs : List α, (withKey key k xs).length = (xs.map key).countP (· = k) := by
    intro xs
    rw [List.countP_map, List.countP_eq_length_filter]
    rfl
  have htake : (out.take us.length).map key = (us.mergeSort (keyLe key)).map key := by
    rw [List.map_take, hkeys, List.map_append, List.take_left']
    rw [List.length_map, hu.perm.length_eq]
  rw [hlen, hlen, htake]
  exact (hu.perm.map key).countP_eq _

variable {f : List α → List α} {front back : List (List α)} {b₁ b₂ out : List α}

/-- The border stays if and only if sorting the block it goes through leaves, for every key, the
elements before it in front. -/
theorem take_perm_iff (hf : ∀ r ∈ front ++ (b₁ ++ b₂) :: back, (f r).Perm r)
    (hout : StableSort key ((front ++ (b₁ ++ b₂) :: back).map f).flatten out)
    (hle : ∀ a ∈ front.flatten ++ b₁, ∀ b ∈ b₂ ++ back.flatten, key a ≤ key b) :
    (out.take (front.flatten ++ b₁).length).Perm (front.flatten ++ b₁) ↔
      ∀ k, ((withKey key k (f (b₁ ++ b₂))).take (withKey key k b₁).length).Perm
        (withKey key k b₁) := by
  have hmap : ∀ rs : List (List α), (∀ r ∈ rs, (f r).Perm r) →
      (rs.map f).flatten.Perm rs.flatten := by
    intro rs hrs
    have h := List.Perm.flatMap_left rs hrs
    simpa only [List.flatMap_def, List.map_id'] using h
  have hperm : out.Perm ((front.flatten ++ b₁) ++ (b₂ ++ back.flatten)) := by
    refine hout.perm.trans ((hmap _ hf).trans (List.Perm.of_eq ?_))
    simp only [List.flatten_append, List.flatten_cons, List.append_assoc]
  have hfront : ((front.map f).flatten).Perm front.flatten :=
    hmap front fun r hr => hf r (List.mem_append_left _ hr)
  -- the elements of a key before the border, in the sorted list
  have hside : ∀ k, withKey key k (out.take (front.flatten ++ b₁).length) =
      withKey key k (front.map f).flatten ++
        (withKey key k (f (b₁ ++ b₂))).take (withKey key k b₁).length := by
    intro k
    have hlen := length_withKey_take hout.sorted hperm hle k
    have hcut : withKey key k out = withKey key k (out.take (front.flatten ++ b₁).length) ++
        withKey key k (out.drop (front.flatten ++ b₁).length) := by
      rw [← withKey_append, List.take_append_drop]
    have hall : withKey key k out = withKey key k (front.map f).flatten ++
        (withKey key k (f (b₁ ++ b₂)) ++ withKey key k (back.map f).flatten) := by
      rw [hout.withKey_eq k, List.map_append, List.map_cons, List.flatten_append, List.flatten_cons,
        withKey_append, withKey_append]
    have hbefore : (withKey key k (front.flatten ++ b₁)).length =
        (withKey key k (front.map f).flatten).length + (withKey key k b₁).length := by
      rw [withKey_append, List.length_append]
      exact congrArg (· + (withKey key k b₁).length) (hfront.filter _).length_eq.symm
    have hblock : (withKey key k b₁).length ≤ (withKey key k (f (b₁ ++ b₂))).length := by
      have hb := ((hf (b₁ ++ b₂) (by simp)).filter fun x => decide (key x = k)).length_eq
      rw [List.filter_append, List.length_append] at hb
      simp only [withKey]
      omega
    have hfirst : (withKey key k (out.take (front.flatten ++ b₁).length) ++
        withKey key k (out.drop (front.flatten ++ b₁).length)).take
          ((withKey key k (front.map f).flatten).length + (withKey key k b₁).length) =
        withKey key k (out.take (front.flatten ++ b₁).length) :=
      List.take_left' (hlen.trans hbefore)
    rw [← hcut, hall, List.take_length_add_append, List.take_append_of_le_length hblock] at hfirst
    exact hfirst.symm
  constructor
  · intro h k
    have hk := h.filter fun x => decide (key x = k)
    have hk' : (withKey key k (out.take (front.flatten ++ b₁).length)).Perm
        (withKey key k (front.flatten ++ b₁)) := hk
    rw [hside, withKey_append] at hk'
    exact (List.perm_append_left_iff _).mp
      (hk'.trans ((hfront.filter fun x => decide (key x = k)).symm.append_right _))
  · intro h
    apply perm_of_withKey key
    intro k
    rw [hside, withKey_append]
    exact (hfront.filter _).append (h k)

/-- Where the sorted list has the same elements in front of the border, no key behind it is
smaller. -/
theorem le_of_take_perm {us vs : List α} (hout : out.Pairwise (fun a b => keyLe key a b))
    (hperm : out.Perm (us ++ vs)) (h : (out.take us.length).Perm us) :
    ∀ a ∈ us, ∀ b ∈ vs, key a ≤ key b := by
  have hrest : (out.drop us.length).Perm vs := by
    have hall : (out.take us.length ++ out.drop us.length).Perm (us ++ vs) := by
      rwa [List.take_append_drop]
    exact (List.perm_append_left_iff us).mp ((h.symm.append_right _).trans hall)
  intro a ha b hb
  have hsplit := hout
  rw [← List.take_append_drop us.length out, List.pairwise_append] at hsplit
  exact of_decide_eq_true (hsplit.2.2 a (h.mem_iff.mpr ha) b (hrest.mem_iff.mpr hb))

/-- Elements in any order, of which as many as before are in front of a border. -/
theorem perm_take_of_eq {xs ys zs : List α} (hperm : zs.Perm (xs ++ ys))
    (heq : ∀ a ∈ xs, ∀ b ∈ ys, a = b) : (zs.take xs.length).Perm xs := by
  have hlen : zs.length = xs.length + ys.length := by
    rw [hperm.length_eq, List.length_append]
  rcases ys with _ | ⟨y, ys⟩
  · rw [List.append_nil] at hperm
    rw [List.length_nil, Nat.add_zero] at hlen
    rwa [List.take_of_length_le (Nat.le_of_eq hlen)]
  · rcases xs with _ | ⟨x, xs⟩
    · exact .refl _
    · -- all of them are `x`
      have hxy := heq x List.mem_cons_self y List.mem_cons_self
      have hx : ∀ a ∈ x :: xs, a = x := fun a ha => (heq a ha y List.mem_cons_self).trans hxy.symm
      have hz : ∀ a ∈ zs, a = x := by
        intro a ha
        rcases List.mem_append.mp (hperm.mem_iff.mp ha) with ha | ha
        · exact hx a ha
        · exact (heq x List.mem_cons_self a ha).symm
      rw [List.eq_replicate_of_mem hz, List.take_replicate,
        Nat.min_eq_left (by rw [hlen]; exact Nat.le_add_right _ _), ← List.eq_replicate_of_mem hx]

/-- Every border inside the list goes through one of the blocks. -/
theorem exists_border {blocks : List (List α)} {c : Nat} (hc : c < blocks.flatten.length) :
    ∃ front b₁ b₂ back, blocks = front ++ (b₁ ++ b₂) :: back ∧
      (front.flatten ++ b₁).length = c := by
  induction blocks generalizing c with
  | nil => exact absurd hc (Nat.not_lt_zero c)
  | cons b blocks ih =>
    by_cases hin : c < b.length
    · refine ⟨[], b.take c, b.drop c, blocks, ?_, ?_⟩
      · rw [List.take_append_drop, List.nil_append]
      · rw [List.flatten_nil, List.nil_append, List.length_take]
        omega
    · rw [List.flatten_cons, List.length_append] at hc
      have hin' : c - b.length < blocks.flatten.length := by omega
      obtain ⟨front, b₁, b₂, back, rfl, hlen⟩ := ih hin'
      refine ⟨b :: front, b₁, b₂, back, rfl, ?_⟩
      rw [List.length_append] at hlen
      rw [List.flatten_cons, List.length_append, List.length_append]
      omega

end Border

end Osisp.Lib
