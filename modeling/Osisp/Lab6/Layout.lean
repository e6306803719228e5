import Osisp.Lab6.StableMerge

namespace Osisp.Lab6

open Osisp.Lib Osisp.Lib.WorkPool

/-- The blocks that are given to `qsort`, in the order of the file: a portion is cut into `count`
blocks, the later ones into one, because the rounds have brought `g_block_count` down to 1. -/
def sortBlocks (count m : Nat) (todo : List IndexRecord) : List (List IndexRecord) :=
  if _ : 0 < m ∧ todo ≠ [] then
    cut count (min m todo.length / count) (todo.take m) ++ sortBlocks 1 m (todo.drop m)
  else []
termination_by todo.length
decreasing_by
  have hpos := List.length_pos_iff.mpr (‹0 < m ∧ todo ≠ []›).2
  rw [List.length_drop]
  omega

-- two blocks in the first portion of four records, one in the second
example : sortBlocks 2 4 (makeRecords 6 fun _ => ⟨0⟩) =
    [[⟨1, ⟨0⟩⟩, ⟨2, ⟨0⟩⟩], [⟨3, ⟨0⟩⟩, ⟨4, ⟨0⟩⟩], [⟨5, ⟨0⟩⟩, ⟨6, ⟨0⟩⟩]] := by
  simp [sortBlocks, cut, makeRecords, List.range_succ]

theorem sortBlocks_flatten {count m : Nat} {todo : List IndexRecord} (hm : 0 < m)
    (hdvd : todo ≠ [] → count ∣ min m todo.length) : (sortBlocks count m todo).flatten = todo := by
  fun_induction sortBlocks count m todo with
  | case1 count todo hmore ih =>
    have hportion : (todo.take m).length = count * (min m todo.length / count) := by
      rw [List.length_take, Nat.mul_div_cancel' (hdvd hmore.2)]
    rw [List.flatten_append, (cut_chunks hportion).1, ih fun _ => Nat.one_dvd _,
      List.take_append_drop]
  | case2 count todo hend =>
    by_contra hne
    exact hend ⟨hm, fun h => hne h.symm⟩

theorem iterate_cmpLe {k : Nat} {blocks : List (List IndexRecord)} (hnan : NoNaN blocks.flatten) :
    (mergePairs cmpLe)^[k] blocks = (mergePairs markLe)^[k] blocks := by
  induction k generalizing blocks with
  | zero => rw [Function.iterate_zero_apply, Function.iterate_zero_apply]
  | succ k ih =>
    rw [Function.iterate_succ_apply, Function.iterate_succ_apply, ← mergePairs_cmpLe hnan]
    exact ih (hnan.perm (mergePairs_perm cmpLe blocks))

theorem sequentialSort_withKey (q : Qsort) (k : Nat) {blocks : List (List IndexRecord)}
    (hnan : NoNaN blocks.flatten) (mark : Int) :
    withKey markOrder mark (sequentialSort q k blocks) =
      withKey markOrder mark (blocks.map (q.call cmpIndex)).flatten := by
  rw [sequentialSort, iterate_cmpLe (hnan.perm (q.blocks_perm hnan)), markLe_eq_keyLe]
  apply withKey_iterate
  intro r hr
  obtain ⟨c, hc, rfl⟩ := List.mem_map.mp hr
  exact (q.sorts (hnan.block hc)).2

/-- The portions of `m` records fit: the first one is cut into `count` blocks, and the array of
`maxRuns` runs, `runs` of them in use, has an entry for each. -/
def Fits (count m runs : Nat) (maxRuns : Int) (todo : List IndexRecord) : Prop :=
  (todo ≠ [] → count ∣ min m todo.length) ∧
    ∀ r : Nat, m * r < todo.length → ((runs + r : Nat) : Int) < maxRuns

theorem Fits.cons {count m runs : Nat} {maxRuns : Int} {todo : List IndexRecord}
    (hdvd : count ∣ min m todo.length) (hroom : (runs : Int) < maxRuns)
    (hrest : Fits 1 m (runs + 1) maxRuns (todo.drop m)) : Fits count m runs maxRuns todo := by
  refine ⟨fun _ => hdvd, fun r hr => ?_⟩
  cases r with
  | zero => exact hroom
  | succ r =>
    rw [Nat.mul_succ] at hr
    have hlt : m * r < (todo.drop m).length := by
      rw [List.length_drop]
      omega
    have hnext := hrest.2 r hlt
    omega

theorem Fits.tail {count m runs : Nat} {maxRuns : Int} {todo : List IndexRecord}
    (h : Fits count m runs maxRuns todo) : Fits 1 m (runs + 1) maxRuns (todo.drop m) := by
  refine ⟨fun _ => Nat.one_dvd _, fun r hr => ?_⟩
  rw [List.length_drop] at hr
  have hnext := h.2 (r + 1) (by rw [Nat.mul_succ]; omega)
  omega

theorem encode_cut (done : List (List IndexRecord)) (todo : List IndexRecord) (m : Nat)
    (front tail : List UInt8) :
    front ++ recordCodec.encode (done.flatten ++ todo) ++ tail =
      front ++ recordCodec.encode done.flatten ++ recordCodec.encode (todo.take m) ++
        (recordCodec.encode (todo.drop m) ++ tail) := by
  nth_rewrite 1 [← List.take_append_drop m todo]
  simp only [recordCodec.encode_append, List.append_assoc]

theorem encode_done (done : List (List IndexRecord)) (ys todo : List IndexRecord)
    (front tail : List UInt8) :
    front ++ recordCodec.encode done.flatten ++ recordCodec.encode ys ++
        (recordCodec.encode todo ++ tail) =
      front ++ recordCodec.encode ((done ++ [ys]).flatten ++ todo) ++ tail := by
  simp only [List.flatten_append, List.flatten_singleton, recordCodec.encode_append,
    List.append_assoc]

/-- Where the loop over the portions stands, whatever has become of those that are done. -/
structure Partly (front tail : List UInt8) (all : List IndexRecord)
    (done : List (List IndexRecord)) (todo : List IndexRecord) (k : Nat) (s : State) : Prop where
  file_eq : s.file = front ++ recordCodec.encode (done.flatten ++ todo) ++ tail
  perm : (done.flatten ++ todo).Perm all
  blocks : s.blockCount = (2 ^ k : Nat)
  threads : 0 < s.threadCount

theorem Partly.file_cut {m k : Nat} {front tail : List UInt8} {all todo : List IndexRecord}
    {done : List (List IndexRecord)} {s : State} (h : Partly front tail all done todo k s) :
    s.file = front ++ recordCodec.encode done.flatten ++ recordCodec.encode (todo.take m) ++
      (recordCodec.encode (todo.drop m) ++ tail) := by
  rw [h.file_eq, encode_cut done todo m]

theorem portion_perm (done : List (List IndexRecord)) {ys todo : List IndexRecord} {m : Nat}
    (h : ys.Perm (todo.take m)) :
    ((done ++ [ys]).flatten ++ todo.drop m).Perm (done.flatten ++ todo) := by
  rw [List.flatten_append, List.flatten_singleton, List.append_assoc]
  apply List.Perm.append_left
  calc (ys ++ todo.drop m).Perm (todo.take m ++ todo.drop m) := h.append_right _
    _ = todo := List.take_append_drop m todo

/-- The next portion is cut into its blocks and sorted in its place. -/
theorem Partly.step {w : World} (hw : w.Works) {m k : Nat} {front tail : List UInt8}
    {all todo : List IndexRecord} {done : List (List IndexRecord)} {s : State}
    (hp : Partly front tail all done todo k s) (hfront : front.length = 8) (hk : k < 31)
    (hsmall : all.length < 2 ^ 31) (hnan : NoNaN all) (hdvd : 2 ^ k ∣ min m todo.length) :
    ∃ ys t, processPortion w (8 + 16 * done.flatten.length) (16 * min m todo.length) s =
        .ok (min m todo.length, t) ∧ Sorted ys ∧ ys.Perm (todo.take m) ∧
      (∀ mark, withKey markOrder mark ys = withKey markOrder mark
        ((cut (2 ^ k) (min m todo.length / 2 ^ k) (todo.take m)).map
          (w.qsort.call cmpIndex)).flatten) ∧
      Partly front tail all (done ++ [ys]) (todo.drop m) 0 t := by
  have hlen : (done.flatten ++ todo).length = done.flatten.length + todo.length :=
    List.length_append
  have hall := hp.perm.length_eq
  have htake : (todo.take m).length = min m todo.length := List.length_take
  have hsize := Nat.mul_div_cancel' hdvd
  generalize hblocks : cut (2 ^ k) (min m todo.length / 2 ^ k) (todo.take m) = blocks
  obtain ⟨hflat, hcount, hwidth⟩ := cut_chunks (htake.trans hsize.symm)
  rw [hblocks] at hflat hcount hwidth
  have hnan' : NoNaN blocks.flatten := by
    intro r hr
    rw [hflat] at hr
    exact hnan r (hp.perm.subset (List.mem_append_right _ (List.mem_of_mem_take hr)))
  have hoffset : (front ++ recordCodec.encode done.flatten).length =
      8 + 16 * done.flatten.length := by rw [end_encode, hfront]
  have hrun := processPortion_eq hw (by omega) hp.blocks hk hp.threads (by omega)
    ⟨hflat.symm ▸ hp.file_cut, hcount, hwidth⟩
  obtain ⟨hsorted, hperm⟩ := sequentialSort_sorts w.qsort hcount hnan'
  rw [hsize, hoffset] at hrun
  rw [hflat] at hperm
  exact ⟨_, _, hrun, hsorted, hperm, sequentialSort_withKey w.qsort k hnan',
    encode_done done _ _ front tail, (portion_perm done hperm).trans hp.perm, rfl, hp.threads⟩

/-- The loop goes on behind a portion of whole records, when there is an entry for its run. -/
theorem portionLoop_next {w : World} {m : Nat} (hmem : 0 < 16 * m) {maxRuns : Int} {d n : Nat}
    (hpos : 0 < n) {runs : List RunBoundary} (hroom : (runs.length : Int) < maxRuns) {s t : State}
    (hrun : processPortion w (8 + 16 * d) (16 * min m n) s = .ok (min m n, t)) :
    portionLoop w (16 * m) hmem (8 + 16 * (d + n)) maxRuns (8 + 16 * d) runs s =
      portionLoop w (16 * m) hmem (8 + 16 * (d + n)) maxRuns (8 + 16 * (d + min m n))
        (runs ++ [⟨8 + 16 * d, min m n⟩]) t := by
  have hbytes : (if 16 * m ≤ 8 + 16 * (d + n) - (8 + 16 * d) then 16 * m
      else 8 + 16 * (d + n) - (8 + 16 * d)) = 16 * min m n := by
    split
    · omega
    · omega
  have hwhole : ¬(8 + 16 * d ≠ 8 ∧ 16 * min m n % 16 ≠ 0) := by omega
  have hoffset : 8 + 16 * d + 16 * min m n = 8 + 16 * (d + min m n) := by omega
  rw [portionLoop, if_pos (by omega)]
  simp only [hbytes, if_neg hwhole, hrun, if_neg (Int.not_le.mpr hroom), hoffset]

/-- The portions that fit are sorted in their places. -/
theorem portionLoop_fits {w : World} (hw : w.Works) {m k : Nat} (hmem : 0 < 16 * m)
    {maxRuns : Int} {front : List UInt8} {all todo : List IndexRecord}
    {done : List (List IndexRecord)} {s : State} (hfront : front.length = 8) (hk : k < 31)
    (hsmall : all.length < 2 ^ 31) (hnan : NoNaN all) (hp : Partly front [] all done todo k s)
    (hfits : Fits (2 ^ k) m done.length maxRuns todo) :
    ∃ lists t, portionLoop w (16 * m) hmem (8 + 16 * (done.flatten ++ todo).length) maxRuns
        (8 + 16 * done.flatten.length) (runsOf 8 done) s = .ok (runsOf 8 (done ++ lists), t) ∧
      t.file = front ++ recordCodec.encode (done ++ lists).flatten ∧ (∀ r ∈ lists, Sorted r) ∧
      lists.flatten.Perm todo ∧
      ∀ mark, withKey markOrder mark lists.flatten = withKey markOrder mark
        ((sortBlocks (2 ^ k) m todo).map (w.qsort.call cmpIndex)).flatten := by
  induction hn : todo.length using Nat.strong_induction_on generalizing done todo k s with
  | h n ih =>
    have hlen : (done.flatten ++ todo).length = done.flatten.length + todo.length :=
      List.length_append
    by_cases htodo : todo = []
    · subst htodo
      have hfile := hp.file_eq
      rw [List.append_nil, List.append_nil] at hfile
      rw [portionLoop, sortBlocks]
      refine ⟨[], s, ?_, ?_, fun r hr => absurd hr List.not_mem_nil, .refl _, fun mark => ?_⟩
      · rw [if_neg (by simp), List.append_nil]
      · rw [List.append_nil, hfile]
      · rw [dif_neg fun h => h.2 rfl]
        rfl
    · have hpos : 0 < todo.length := List.length_pos_iff.mpr htodo
      obtain ⟨ys, t, hrun, hsorted, hperm, hties, hnext⟩ :=
        hp.step hw hfront hk hsmall hnan (hfits.1 htodo)
      have hyslen : ys.length = min m todo.length := hperm.length_eq.trans List.length_take
      have hfewer : (todo.drop m).length < n := by
        rw [List.length_drop]
        omega
      have hrest := hfits.tail
      rw [← List.length_singleton (a := ys), ← List.length_append] at hrest
      obtain ⟨lists, u, hloop, hfile, hlists, hlperm, hlties⟩ :=
        ih _ hfewer (by decide) hnext hrest rfl
      refine ⟨ys :: lists, u, ?_, ?_, List.forall_mem_cons.mpr ⟨hsorted, hlists⟩, ?_, ?_⟩
      · have hdone : (done ++ [ys]).flatten.length = done.flatten.length + min m todo.length := by
          rw [List.flatten_append, List.length_append, List.flatten_singleton, hyslen]
        have hroom := hfits.2 0 (by omega)
        rw [(portion_perm done hperm).length_eq, hlen, hdone, runsOf_append, hyslen,
          ← List.append_cons] at hloop
        rw [hlen, portionLoop_next hmem hpos (by rw [runsOf_length]; omega) hrun]
        exact hloop
      · rwa [← List.append_cons] at hfile
      · rw [List.flatten_cons]
        calc (ys ++ lists.flatten).Perm (todo.take m ++ todo.drop m) := hperm.append hlperm
          _ = todo := List.take_append_drop m todo
      · intro mark
        rw [sortBlocks, dif_pos ⟨by omega, htodo⟩, List.flatten_cons, List.map_append,
          List.flatten_append, withKey_append, withKey_append, hties mark, hlties mark]
        rfl

end Osisp.Lab6
