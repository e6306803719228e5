import Osisp.Lab6.Portion

namespace Osisp.Lab6

open Osisp.Lib

/-- The boundaries of runs that lie one behind the other. -/
def runsOf : Nat → List (List IndexRecord) → List RunBoundary
  | _, [] => []
  | offset, xs :: lists => ⟨offset, xs.length⟩ :: runsOf (offset + 16 * xs.length) lists

@[simp] theorem runsOf_length (offset : Nat) (lists : List (List IndexRecord)) :
    (runsOf offset lists).length = lists.length := by
  induction lists generalizing offset with
  | nil => rfl
  | cons xs lists ih => simp [runsOf, ih]

theorem runsOf_append (offset : Nat) (lists : List (List IndexRecord)) (ys : List IndexRecord) :
    runsOf offset (lists ++ [ys]) =
      runsOf offset lists ++ [⟨offset + 16 * lists.flatten.length, ys.length⟩] := by
  induction lists generalizing offset with
  | nil => rfl
  | cons xs lists ih =>
    rw [List.cons_append, runsOf, runsOf, ih, List.flatten_cons, List.length_append, Nat.mul_add,
      Nat.add_assoc, List.cons_append]

/-- `merge_blocks` on two neighbouring runs. -/
theorem mergeBlocks_eq {front : List UInt8} {x y : List IndexRecord}
    (hsmall : x.length + y.length < 2 ^ 31) (back : List UInt8) :
    mergeBlocks front.length (front.length + 16 * x.length) x.length y.length
        (front ++ recordCodec.encode (x ++ y) ++ back) =
      front ++ recordCodec.encode (x.merge y cmpLe) ++ back := by
  have hleft : recordCodec.load front.length x.length
      (front ++ recordCodec.encode (x ++ y) ++ back) = x := by
    have h := recordCodec.load_encode (rfl : front.length = _) x (recordCodec.encode y ++ back)
    simpa only [recordCodec.encode_append, List.append_assoc] using h
  have hright : recordCodec.load (front.length + 16 * x.length) y.length
      (front ++ recordCodec.encode (x ++ y) ++ back) = y := by
    have hpos : (front ++ recordCodec.encode x).length = front.length + 16 * x.length :=
      end_encode front x
    have h := recordCodec.load_encode hpos y back
    simpa only [recordCodec.encode_append, List.append_assoc] using h
  rw [mergeBlocks, mergeTmp_eq hsmall, hleft, hright]
  refine recordCodec.store_encode rfl ?_ back
  rw [List.length_merge, List.length_append]

/-- The first two runs of a pass: they are merged between the calls `c₂` and `c₃`, and the rest of
the pass finds the merged run in front of it. -/
theorem mergePass_pair (w : World) (front back : List UInt8) {x y : List IndexRecord}
    {rest : List (List IndexRecord)} (hsmall : (x :: y :: rest).flatten.length < 2 ^ 31) :
    let file := front ++ recordCodec.encode (x :: y :: rest).flatten ++ back
    let merged := front ++ recordCodec.encode (x.merge y cmpLe)
    let after := merged ++ recordCodec.encode rest.flatten ++ back
    ∃ c₁ c₂ c₃ : Call, mergePass w (runsOf front.length (x :: y :: rest)) file =
      if !w.sys c₁ then .error (.failure, file)
      else if !w.sys c₂ then .error (.failure, file)
      else if !w.sys c₃ then .error (.failure, after)
      else (mergePass w (runsOf merged.length rest) after).bind fun r =>
        .ok (⟨front.length, (x.merge y cmpLe).length⟩ :: r.1, r.2) := by
  intro file merged after
  simp only [List.flatten_cons, List.length_append] at hsmall
  have hx : int32 x.length = x.length := int32_of_lt (by omega)
  have hy : int32 y.length = y.length := int32_of_lt (by omega)
  have hfile : file =
      front ++ recordCodec.encode (x ++ y) ++ (recordCodec.encode rest.flatten ++ back) := by
    simp only [file, List.flatten_cons, recordCodec.encode_append, List.append_assoc]
  have hmerge : mergeBlocks front.length (recordAt front.length x.length) x.length y.length file =
      after := by
    have hafter : after = merged ++ (recordCodec.encode rest.flatten ++ back) :=
      List.append_assoc _ _ _
    rw [hfile, hafter]
    exact mergeBlocks_eq (by omega) _
  have hnext : merged.length = front.length + 16 * x.length + 16 * y.length := by
    rw [end_encode, List.length_merge, Nat.mul_add, Nat.add_assoc]
  have htotal : (x.merge y cmpLe).length = x.length + y.length := List.length_merge _ _ _
  let mapOffset := front.length - front.length % pageSize
  let mapLength := (x.length + y.length) * 16 + (front.length - mapOffset)
  refine ⟨.openAt front.length ((x.length + y.length) * 16), .mmap mapOffset mapLength,
    .msync mapOffset mapLength, ?_⟩
  rw [runsOf, runsOf, mergePass, hnext, htotal]
  simp only [page_split, hx, hy, hmerge]
  cases mergePass w (runsOf (front.length + 16 * x.length + 16 * y.length) rest) after with
  | error e => rfl
  | ok r => rfl

/-- One pass merges neighbouring runs, in the list of runs and in the file. -/
theorem mergePass_eq {w : World} (hw : w.Works) (front back : List UInt8)
    {lists : List (List IndexRecord)} (hsmall : lists.flatten.length < 2 ^ 31) :
    mergePass w (runsOf front.length lists)
        (front ++ recordCodec.encode lists.flatten ++ back) =
      .ok (runsOf front.length (mergePairs cmpLe lists),
        front ++ recordCodec.encode (mergePairs cmpLe lists).flatten ++ back) := by
  fun_induction mergePairs cmpLe lists generalizing front with
  | case1 x y rest ih =>
    obtain ⟨c₁, c₂, c₃, hpair⟩ := mergePass_pair w front back hsmall
    simp only [List.flatten_cons, List.length_append] at hsmall
    have hrest := ih (front ++ recordCodec.encode (x.merge y cmpLe)) (by omega)
    rw [hpair, if_neg (hw.call c₁), if_neg (hw.call c₂), if_neg (hw.call c₃), hrest]
    have hnext : (front ++ recordCodec.encode (x.merge y cmpLe)).length =
        front.length + 16 * (x.merge y cmpLe).length := end_encode front _
    simp only [Except.bind, runsOf, hnext, List.flatten_cons, recordCodec.encode_append,
      List.append_assoc]
  | case2 lists hshort =>
    rcases lists with _ | ⟨x, _ | ⟨y, rest⟩⟩
    · rfl
    · rfl
    · exact absurd rfl (hshort x y rest)

theorem externalMerge_eq {w : World} (hw : w.Works) (front back : List UInt8)
    {lists : List (List IndexRecord)} (hsmall : lists.flatten.length < 2 ^ 31) :
    externalMerge w (runsOf front.length lists)
        (front ++ recordCodec.encode lists.flatten ++ back) =
      .ok (front ++ recordCodec.encode (mergeAll cmpLe lists) ++ back) := by
  fun_induction mergeAll cmpLe lists with
  | case1 lists hmany ih =>
    have hpass := mergePass_eq hw front back hsmall
    have hrest := ih ((mergePairs_perm cmpLe lists).length_eq ▸ hsmall)
    rw [externalMerge_next (by rwa [runsOf_length]) hpass]
    exact hrest
  | case2 lists hone => rw [externalMerge, runsOf_length, if_neg hone]

theorem mergeAll_cmpLe {runs : List (List IndexRecord)} (hnan : NoNaN runs.flatten) :
    mergeAll cmpLe runs = mergeAll markLe runs :=
  mergeAll_congr fun a ha b hb => cmpLe_eq_markLe (hnan a ha) (hnan b hb)

theorem externalMerge_sorted_iff {w : World} (hw : w.Works) (front back : List UInt8)
    {lists : List (List IndexRecord)} (hsmall : lists.flatten.length < 2 ^ 31)
    (hnan : NoNaN lists.flatten) :
    ∃ ys, externalMerge w (runsOf front.length lists)
        (front ++ recordCodec.encode lists.flatten ++ back) =
          .ok (front ++ recordCodec.encode ys ++ back) ∧
      (Sorted ys ↔ ∀ r ∈ lists, Sorted r) ∧ ys.Perm lists.flatten := by
  refine ⟨mergeAll cmpLe lists, externalMerge_eq hw front back hsmall, ?_,
    mergeAll_perm cmpLe lists⟩
  rw [mergeAll_cmpLe hnan]
  exact mergeAll_sorted_iff markLe_trans markLe_total lists

end Osisp.Lab6
