import Osisp.Lab6.Failure

namespace Osisp.Lab6

open Osisp.Lib Osisp.Lib.WorkPool

section Calm

/-- The same world without a call that fails. -/
def World.calm (w : World) : World := { w with sys := fun _ => true }

theorem World.calm_works (w : World) : w.calm.Works := fun _ => rfl

variable {w : World}

theorem runThreads_calm (phase : Phase) (P : Pool (List UInt8) (List IndexRecord))
    (entry : Pc (List IndexRecord)) (s : State) :
    runThreads w.calm phase P entry s = runThreads w phase P entry s := rfl

theorem mergeRounds_calm {offset base : Nat} {current : Int} {s t : State}
    (h : mergeRounds w offset base current s = .ok t) :
    mergeRounds w.calm offset base current s = .ok t := by
  fun_induction mergeRounds w offset base current s with
  | case1 => cases (barrierDestroy_ok h).2
  | case2 => cases h
  | case3 current s hmany hcall u hrun ih =>
    rw [mergeRounds, dif_pos hmany, if_neg (w.calm_works.call _), runThreads_calm, hrun]
    exact ih h
  | case4 current s hone =>
    rw [mergeRounds, dif_neg hone]
    exact h

theorem processPortion_calm {offset bytes n : Nat} {s t : State}
    (h : processPortion w offset bytes s = .ok (n, t)) :
    processPortion w.calm offset bytes s = .ok (n, t) := by
  unfold processPortion at h ⊢
  dsimp only at h ⊢
  have hcall : ∀ c, ¬(!w.calm.sys c) = true := w.calm_works.call
  generalize (if offset = 0 then (bytes - 8) / 16 else bytes / 16) = recs at h ⊢
  generalize offset - offset % pageSize +
    (if offset = 0 then 8 + (offset - (offset - offset % pageSize))
      else offset - (offset - offset % pageSize)) = base at h ⊢
  split at h
  · cases h
  split at h
  · cases h
  split at h
  · cases h
  rename_i hheader
  split at h
  · cases h
  rename_i hwhole
  split at h
  · cases h
  rename_i hdvd
  split at h
  · cases (barrierDestroy_ok h).2
  rw [if_neg (hcall _), if_neg (hcall _), if_neg hheader, if_neg hwhole, if_neg hdvd,
    if_neg (hcall _)]
  split at h
  · cases h
  rename_i hsort
  rw [runThreads_calm, show threadSort w.calm = threadSort w from rfl, hsort]
  dsimp only
  split at h
  · cases h
  rename_i hrounds
  rw [mergeRounds_calm hrounds]
  dsimp only
  rw [if_neg (hcall _), if_neg (hcall _)]
  split at h
  · cases h
  split at h
  · cases h
  · exact h

theorem portionLoop_calm {memsize size offset : Nat} {hmem : 0 < memsize} {maxRuns : Int}
    {runs : List RunBoundary} {s : State} {result : List RunBoundary × State}
    (h : portionLoop w memsize hmem size maxRuns offset runs s = .ok result) :
    portionLoop w.calm memsize hmem size maxRuns offset runs s = .ok result := by
  fun_induction portionLoop w memsize hmem size maxRuns offset runs s with
  | case1 => cases h
  | case2 => cases h
  | case3 => cases h
  | case4 offset runs s hmore remaining bytes hwhole n t hrun hroom ih =>
    have hbytes : (if memsize ≤ size - offset then memsize else size - offset) = bytes := rfl
    rw [portionLoop, if_pos hmore]
    dsimp only
    rw [hbytes, if_neg hwhole, processPortion_calm hrun]
    dsimp only
    rw [if_neg hroom]
    exact ih h
  | case5 offset runs s hend =>
    rw [portionLoop, if_neg hend]
    exact h

theorem mergePass_calm {runs : List RunBoundary} {file : List UInt8}
    {result : List RunBoundary × List UInt8} (h : mergePass w runs file = .ok result) :
    mergePass w.calm runs file = .ok result := by
  fun_induction mergePass w runs file generalizing result with
  | case1 => cases h
  | case2 => cases h
  | case3 => cases h
  | case4 => cases h
  | case5 =>
    rename_i hrest ih
    rw [mergePass]
    simp only [w.calm_works _, Bool.not_true, Bool.false_eq_true, if_false]
    split
    · rename_i hfail
      cases (ih hrest).symm.trans hfail
    · rename_i hdone
      cases (ih hrest).symm.trans hdone
      exact h
  | case6 runs file hshort =>
    rw [mergePass]
    · exact h
    · exact hshort

theorem externalMerge_calm {runs : List RunBoundary} {file out : List UInt8}
    (h : externalMerge w runs file = .ok out) : externalMerge w.calm runs file = .ok out := by
  fun_induction externalMerge w runs file with
  | case1 => cases h
  | case2 runs file hmany runs' file' hpass ih =>
    rw [externalMerge_next hmany (mergePass_calm hpass)]
    exact ih h
  | case3 runs file hone =>
    rw [externalMerge, if_neg hone]
    exact h

end Calm

/-- What a successful run leaves. Whether it is one depends on the calls only, and the records are
the stable sort of the blocks as `qsort` leaves them. -/
theorem sortIndex_stable {w : World} {memsizeArg blocks threads : Int} (hint : blocks < 2 ^ 31)
    (hthreads : 1 ≤ threads) {file out : List UInt8} (hnan : NoNaN (records file))
    (hsmall : (records file).length < 2 ^ 31)
    (h : sortIndex w memsizeArg blocks threads file = (.success, out)) :
    let layout := sortBlocks blocks.toNat (uint64 memsizeArg / 16) (records file)
    layout.flatten = records file ∧
      (∃ front : List UInt8, front.length = 8 ∧ file = front ++ recordCodec.encode (records file) ∧
        ∃ ys, out = front ++ recordCodec.encode ys ∧
          StableSort markOrder (layout.map (w.qsort.call cmpIndex)).flatten ys) ∧
      ∀ w' : World, w'.Works →
        ∃ out', sortIndex w' memsizeArg blocks threads file = (.success, out') := by
  intro layout
  obtain ⟨hlong, ⟨k, rfl⟩, ⟨m, hm⟩, hmem, maxRuns, ⟨runs, s, hloop, hmerge⟩, hchecks⟩ :=
    sortIndex_success h
  obtain ⟨front, tail, hfront, htail, hfile⟩ := file_split hlong
  have hk := lt_of_two_pow_int hint
  have hquot : uint64 memsizeArg / 16 = m := by omega
  have hlayout : layout = sortBlocks (2 ^ k) m (records file) := by
    simp only [layout, hquot, Int.toNat_natCast]
  rw [hlayout]
  simp only [hm] at hmem hloop hchecks
  have hsize : file.length = 8 + 16 * (records file).length + tail.length := by
    have hparts := (file_parts hfront (records file) tail).1
    rwa [← hfile] at hparts
  have hbegin : Partly front tail (records file) [] (records file) k
      ⟨(2 ^ k : Nat), threads, 0, file⟩ := ⟨hfile, .refl _, rfl, hthreads⟩
  -- the loop of `w` came to its end, so that the portions fit
  have hends := portionLoop_ends w hmem maxRuns (Qsort.keeps (.inl hnan)) hfront htail hk hsmall
    hbegin
  simp only [List.flatten_nil, List.nil_append, List.length_nil, Nat.mul_zero, Nat.add_zero, runsOf,
    ← hsize] at hends
  obtain ⟨rfl, hfits, -⟩ := hends.of_ok hloop
  rw [List.length_nil, Nat.add_zero] at hsize
  have hflat := sortBlocks_flatten (by omega) hfits.1
  -- a world in which no call fails
  have hall : ∀ w' : World, w'.Works → ∃ runs s ys,
      portionLoop w' (16 * m) hmem file.length maxRuns 8 [] ⟨(2 ^ k : Nat), threads, 0, file⟩ =
        .ok (runs, s) ∧
      externalMerge w' runs s.file = .ok (front ++ recordCodec.encode ys) ∧
      StableSort markOrder
        ((sortBlocks (2 ^ k) m (records file)).map (w'.qsort.call cmpIndex)).flatten ys := by
    intro w' hw'
    obtain ⟨lists, t, hrun, htfile, hsorted, hperm, hties⟩ := portionLoop_fits hw' hmem hfront hk
      hsmall hnan hbegin hfits
    simp only [List.flatten_nil, List.nil_append, List.length_nil, Nat.mul_zero, Nat.add_zero,
      runsOf, ← hsize] at hrun htfile
    have hdone := externalMerge_eq hw' front [] (hperm.length_eq ▸ hsmall)
    rw [hfront, List.append_nil, List.append_nil, ← htfile] at hdone
    have hstable : StableSort markOrder lists.flatten (mergeAll cmpLe lists) := by
      rw [mergeAll_cmpLe (hnan.perm hperm), markLe_eq_keyLe]
      exact mergeAll_stable hsorted
    have hblocks := w'.qsort.blocks_perm (hflat.symm ▸ hnan)
    rw [hflat] at hblocks
    exact ⟨_, t, _, hrun, hdone, hstable.perm.trans (hperm.trans hblocks.symm), hstable.sorted,
      fun mark => (hstable.withKey_eq mark).trans (hties mark)⟩
  refine ⟨hflat, ⟨front, hfront, ?_, ?_⟩, ?_⟩
  · rwa [List.append_nil] at hfile
  · obtain ⟨runs', s', ys, hrun, hdone, hstable⟩ := hall w.calm w.calm_works
    rw [portionLoop_calm hloop] at hrun
    cases hrun
    rw [externalMerge_calm hmerge] at hdone
    exact ⟨ys, Except.ok.inj hdone, hstable⟩
  · intro w' hw'
    obtain ⟨runs', s', ys, hrun, hdone, -⟩ := hall w' hw'
    exact ⟨_, hchecks w' hw' _ _ _ hrun hdone⟩

end Osisp.Lab6
