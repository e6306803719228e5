import Osisp.Lab6.Runs
import Osisp.Lib.StableSort

namespace Osisp.Lab6

open Osisp.Lib

/-- The operator `==`. -/
def Double.eq (x y : Double) : Bool := !x.isNaN && !y.isNaN && x.order = y.order

/-- By this number records without NaN are sorted. -/
def markOrder (r : IndexRecord) : Int := r.timeMark.order

theorem markLe_eq_keyLe : markLe = keyLe markOrder := rfl

/-- `ys` are the records of `xs` in order, and those with equal marks stand as in `xs`. -/
structure StablySorted (xs ys : List IndexRecord) : Prop where
  perm : ys.Perm xs
  inOrder : InOrder ys
  ties : ∀ t : Double, ys.filter (fun r => r.timeMark.eq t) = xs.filter (fun r => r.timeMark.eq t)

theorem filter_eq_withKey {xs : List IndexRecord} (hnan : NoNaN xs) {t : Double}
    (ht : t.isNaN = false) :
    xs.filter (fun r => r.timeMark.eq t) = withKey markOrder t.order xs := by
  apply List.filter_congr
  intro r hr
  rw [Double.eq, hnan r hr, ht, Bool.not_false, Bool.true_and, Bool.true_and]
  exact decide_eq_decide.mpr Iff.rfl

/-- Without NaN the order of the marks is that of a number. -/
theorem stablySorted_iff {xs ys : List IndexRecord} (hnan : NoNaN xs) :
    StablySorted xs ys ↔ StableSort markOrder xs ys := by
  constructor
  · intro h
    have hnan' := hnan.perm h.perm
    refine ⟨h.perm, (inOrder_iff_sorted hnan').mp h.inOrder, ?_⟩
    intro k
    by_cases hsome : ∃ r ∈ xs, markOrder r = k
    · obtain ⟨r, hr, rfl⟩ := hsome
      have hties := h.ties r.timeMark
      rwa [filter_eq_withKey hnan' (hnan r hr), filter_eq_withKey hnan (hnan r hr)] at hties
    · have hnone : withKey markOrder k xs = [] := by
        apply List.eq_nil_iff_forall_not_mem.mpr
        intro r hr
        exact hsome ⟨r, mem_withKey.mp hr⟩
      have hperm : (withKey markOrder k ys).Perm (withKey markOrder k xs) := h.perm.filter _
      rw [hnone] at hperm ⊢
      exact hperm.eq_nil
  · intro h
    have hnan' := hnan.perm h.perm
    refine ⟨h.perm, (inOrder_iff_sorted hnan').mpr h.sorted, ?_⟩
    intro t
    cases ht : t.isNaN with
    | true =>
      -- no mark is equal to a NaN
      have hnone : ∀ r : IndexRecord, r.timeMark.eq t = false := fun r => by simp [Double.eq, ht]
      simp [hnone]
    | false =>
      rw [filter_eq_withKey hnan' ht, filter_eq_withKey hnan ht]
      exact h.withKey_eq t.order

/-- Merging the sorted runs leaves the stable sort of their records, and there is one only. -/
theorem externalMerge_stable (w : World) (hw : w.Works) (front back : List UInt8)
    (lists : List (List IndexRecord)) (hruns : ∀ r ∈ lists, InOrder r)
    (hnan : NoNaN lists.flatten) (hsmall : lists.flatten.length < 2 ^ 31) :
    ∃ ys, externalMerge w (runsOf front.length lists)
        (front ++ recordCodec.encode lists.flatten ++ back) =
          .ok (front ++ recordCodec.encode ys ++ back) ∧
      StablySorted lists.flatten ys ∧ ∀ zs, StablySorted lists.flatten zs → zs = ys := by
  have hsorted : ∀ r ∈ lists, Sorted r := by
    intro r hr
    exact (inOrder_iff_sorted (hnan.block hr)).mp (hruns r hr)
  have hstable : StableSort markOrder lists.flatten (mergeAll cmpLe lists) := by
    rw [mergeAll_cmpLe hnan, markLe_eq_keyLe]
    exact mergeAll_stable hsorted
  refine ⟨mergeAll cmpLe lists, externalMerge_eq hw front back hsmall,
    (stablySorted_iff hnan).mpr hstable, ?_⟩
  intro zs hzs
  exact ((stablySorted_iff hnan).mp hzs).unique hstable

/-- Three runs with the marks 1.0 and 2.0, 1.0, and -0.0 and 0.0. -/
def threeRuns : List (List IndexRecord) :=
  [[⟨1, ⟨0x3FF0000000000000⟩⟩, ⟨2, ⟨0x4000000000000000⟩⟩], [⟨3, ⟨0x3FF0000000000000⟩⟩],
    [⟨4, ⟨0x8000000000000000⟩⟩, ⟨5, ⟨0⟩⟩]]

theorem externalMerge_stable_three :
    ∃ ys, externalMerge calmWorld (runsOf (word 5).length threeRuns)
        (word 5 ++ recordCodec.encode threeRuns.flatten ++ []) =
          .ok (word 5 ++ recordCodec.encode ys ++ []) ∧
      StablySorted threeRuns.flatten ys ∧ ∀ zs, StablySorted threeRuns.flatten zs → zs = ys :=
  externalMerge_stable calmWorld (fun _ => rfl) (word 5) [] threeRuns
    (by unfold InOrder; decide) (by unfold NoNaN; decide) (by decide)

end Osisp.Lab6
