import Osisp.Lab6.StableRun
import Osisp.Lab6.Pipeline

namespace Osisp.Lab6

open Osisp.Lib

/-- The `qsort` keeps the order of records with equal marks, as a merge sort does. -/
def Qsort.Stable (q : Qsort) : Prop :=
  ∀ xs : List IndexRecord, NoNaN xs → StableSort markOrder xs (q.call cmpIndex xs)

/-- What a successful run makes of a file: the header stays, and the records are sorted. -/
structure SortedFrom (w : World) (file out : List UInt8) : Prop where
  header : out.take 8 = file.take 8
  file_eq : file = file.take 8 ++ recordCodec.encode (records file)
  out_eq : out = out.take 8 ++ recordCodec.encode (records out)
  perm : (records out).Perm (records file)
  sorted : (records out).Pairwise (fun a b => keyLe markOrder a b)
  stable : w.qsort.Stable → StableSort markOrder (records file) (records out)

theorem sortIndex_sortedFrom {w : World} {memsizeArg blocks threads : Int}
    (hint : blocks < 2 ^ 31) (hthreads : 1 ≤ threads) {file out : List UInt8}
    (hnan : NoNaN (records file)) (hsmall : (records file).length < 2 ^ 31)
    (h : sortIndex w memsizeArg blocks threads file = (.success, out)) :
    SortedFrom w file out := by
  obtain ⟨hflat, ⟨front, hfront, hfile, ys, rfl, hys⟩, -⟩ :=
    sortIndex_stable hint hthreads hnan hsmall h
  have hrecords : records (front ++ recordCodec.encode ys) = ys := records_encode hfront ys
  have hheader : (front ++ recordCodec.encode ys).take 8 = front := List.take_left' hfront
  have hheader' : file.take 8 = front := by
    rw [hfile]
    exact List.take_left' hfront
  have hblocks := w.qsort.blocks_perm (hflat.symm ▸ hnan)
  rw [hflat] at hblocks
  have hperm := hys.perm.trans hblocks
  refine ⟨?_, ?_, ?_, ?_, ?_, ?_⟩
  · rw [hheader, hheader']
  · rw [hheader']
    exact hfile
  · rw [hheader, hrecords]
  · rw [hrecords]
    exact hperm
  · rw [hrecords]
    exact hys.sorted
  · intro hstable
    rw [hrecords]
    refine ⟨hperm, hys.sorted, ?_⟩
    intro k
    have hparts := withKey_flatten_map (f := w.qsort.call cmpIndex)
      (fun r hr => hstable r (NoNaN.block (hflat.symm ▸ hnan) hr)) k
    rw [hys.withKey_eq k, hparts, hflat]

section

variable {w w' : World} {file out out' : List UInt8}

theorem SortedFrom.unique (h : SortedFrom w file out) (h' : SortedFrom w' file out')
    (hties : ∀ k, withKey markOrder k (records out) = withKey markOrder k (records out')) :
    out = out' := by
  have hsame : records out = records out' := sorted_unique h.sorted h'.sorted hties
  rw [h.out_eq, h'.out_eq, h.header, h'.header, hsame]

theorem SortedFrom.marks (h : SortedFrom w file out) (h' : SortedFrom w' file out') :
    (records out).map markOrder = (records out').map markOrder := by
  have hperm : ((records out).map markOrder).Perm ((records out').map markOrder) :=
    (h.perm.trans h'.perm.symm).map markOrder
  have hpairwise {xs : List IndexRecord} (hx : xs.Pairwise (fun a b => keyLe markOrder a b)) :
      (xs.map markOrder).Pairwise (· ≤ ·) := by
    rw [List.pairwise_map]
    exact hx.imp fun hab => of_decide_eq_true hab
  exact hperm.eq_of_pairwise (fun a b _ _ => Int.le_antisymm) (hpairwise h.sorted)
    (hpairwise h'.sorted)

end

/-- Two successful sorts of a file agree, with whatever memory size, number of blocks and threads
and in whatever order the threads run: always in the marks, and byte for byte if the marks are
different or both `qsort`s are stable. -/
theorem sort_config_free {w w' : World} {memsizeArg blocks threads : Int}
    {memsizeArg' blocks' threads' : Int} (hint : blocks < 2 ^ 31) (hint' : blocks' < 2 ^ 31)
    (hthreads : 1 ≤ threads) (hthreads' : 1 ≤ threads') {file out out' : List UInt8}
    (hnan : NoNaN (records file)) (hsmall : (records file).length < 2 ^ 31)
    (h : sortIndex w memsizeArg blocks threads file = (.success, out))
    (h' : sortIndex w' memsizeArg' blocks' threads' file = (.success, out')) :
    (records out).map markOrder = (records out').map markOrder ∧
    (((records file).map markOrder).Nodup ∨ w.qsort.Stable ∧ w'.qsort.Stable → out = out') := by
  have hs := sortIndex_sortedFrom hint hthreads hnan hsmall h
  have hs' := sortIndex_sortedFrom hint' hthreads' hnan hsmall h'
  refine ⟨hs.marks hs', ?_⟩
  rintro (hnodup | ⟨hstable, hstable'⟩)
  · apply hs.unique hs'
    intro k
    rw [withKey_eq_of_perm hs.perm hnodup, withKey_eq_of_perm hs'.perm hnodup]
  · apply hs.unique hs'
    intro k
    rw [(hs.stable hstable).withKey_eq, (hs'.stable hstable').withKey_eq]

theorem mergeQsort_stable : mergeQsort.Stable := by
  intro xs hnan
  have hsame : mergeQsort.call cmpIndex xs = xs.mergeSort (keyLe markOrder) := by
    have hmap := List.map_mergeSort (r := cmpLe) (s := keyLe markOrder) (f := id)
      fun a ha c hc => cmpLe_eq_markLe (hnan a ha) (hnan c hc)
    rwa [List.map_id, List.map_id] at hmap
  rw [hsame]
  exact mergeSort_stable markOrder xs

theorem unsortedFile_sorts {memsize : Int} (hmem : 0 < memsize)
    (hpage : (pageSize : Int) ∣ memsize) (hlong : memsize < 2 ^ 63) {k : Nat} (hk : k ≤ 8)
    {threads : Int} (hone : 1 ≤ threads) (hfour : 4 * threads ≤ (2 ^ k : Nat)) :
    ∃ ys, sortIndex calmWorld memsize (2 ^ k : Nat) threads unsortedFile =
      (.success, word 256 ++ recordCodec.encode ys) ∧ Sorted ys ∧
      ys.Perm (makeRecords 256 twoMarks) := by
  have hlen := makeRecords_length 256 twoMarks
  have hrun := sortIndex_sorted (w := calmWorld) (fun _ => rfl) (by rw [hlen]; decide)
    (by rw [hlen]) (noNaN_makeRecords fun i (_ : i < 256) => twoMarks_isNaN i) hmem hpage hlong hk
    hone hfour
  rwa [hlen] at hrun

theorem sort_config_free_unsorted : ∃ out out',
    sortIndex calmWorld 4096 4 1 unsortedFile = (.success, out) ∧
    sortIndex calmWorld 8192 8 2 unsortedFile = (.success, out') ∧ out = out' := by
  have hpage : (pageSize : Int) ∣ 4096 := by decide
  have hpage' : (pageSize : Int) ∣ 8192 := by decide
  have hfour : 4 * (1 : Int) ≤ (2 ^ 2 : Nat) := by decide
  have hfour' : 4 * (2 : Int) ≤ (2 ^ 3 : Nat) := by decide
  obtain ⟨ys, hrun, -, -⟩ := unsortedFile_sorts (by decide) hpage (by decide) (by decide)
    (by decide) hfour
  obtain ⟨zs, hrun', -, -⟩ := unsortedFile_sorts (by decide) hpage' (by decide) (by decide)
    (by decide) hfour'
  refine ⟨_, _, hrun, hrun', (sort_config_free (by decide) (by decide) (by decide) (by decide)
    ?_ ?_ hrun hrun').2 (.inr ⟨mergeQsort_stable, mergeQsort_stable⟩)⟩
  · rw [records_unsortedFile]
    exact noNaN_makeRecords fun i _ => twoMarks_isNaN i
  · rw [records_unsortedFile, makeRecords_length]
    decide

/-- A successful sort of a file whose records are in order leaves it as it is, if the marks are
different or `qsort` is stable. -/
theorem sort_keeps_sorted {w : World} {memsizeArg blocks threads : Int} (hint : blocks < 2 ^ 31)
    (hthreads : 1 ≤ threads) {file out : List UInt8} (hnan : NoNaN (records file))
    (hsmall : (records file).length < 2 ^ 31) (hsorted : InOrder (records file))
    (hties : ((records file).map markOrder).Nodup ∨ w.qsort.Stable)
    (h : sortIndex w memsizeArg blocks threads file = (.success, out)) : out = file := by
  have hs := sortIndex_sortedFrom hint hthreads hnan hsmall h
  have hfile : (records file).Pairwise (fun a b => keyLe markOrder a b) :=
    (inOrder_iff_sorted hnan).mp hsorted
  have hkeys (k : Int) :
      withKey markOrder k (records out) = withKey markOrder k (records file) := by
    rcases hties with hnodup | hstable
    · exact withKey_eq_of_perm hs.perm hnodup k
    · exact (hs.stable hstable).withKey_eq k
  have hsame : records out = records file := sorted_unique hs.sorted hfile hkeys
  rw [hs.out_eq, hs.header, hsame]
  exact hs.file_eq.symm

theorem sort_keeps_sorted_again : ∃ once twice,
    sortIndex calmWorld 4096 4 1 unsortedFile = (.success, once) ∧
    sortIndex calmWorld 8192 8 2 once = (.success, twice) ∧ twice = once := by
  have hpage : (pageSize : Int) ∣ 4096 := by decide
  have hpage' : (pageSize : Int) ∣ 8192 := by decide
  have hfour : 4 * (1 : Int) ≤ (2 ^ 2 : Nat) := by decide
  have hfour' : 4 * (2 : Int) ≤ (2 ^ 3 : Nat) := by decide
  obtain ⟨ys, hrun, hsorted, hperm⟩ := unsortedFile_sorts (by decide) hpage (by decide) (by decide)
    (by decide) hfour
  have hlen : ys.length = 256 := by
    rw [hperm.length_eq, makeRecords_length]
  have hnan : NoNaN ys := (noNaN_makeRecords fun i _ => twoMarks_isNaN i).perm hperm
  have hrecords : records (word 256 ++ recordCodec.encode ys) = ys :=
    records_encode (word_length 256) ys
  obtain ⟨zs, hrun', -, -⟩ := sortIndex_sorted (w := calmWorld) (fun _ => rfl)
    (by rw [hlen]; decide) (by rw [hlen]) hnan (by decide) hpage' (by decide) (by decide)
    (by decide) hfour'
  rw [hlen] at hrun'
  refine ⟨_, _, hrun, hrun', sort_keeps_sorted (by decide) (by decide) ?_ ?_ ?_
    (.inr mergeQsort_stable) hrun'⟩
  · rwa [hrecords]
  · rw [hrecords, hlen]
    decide
  · rw [hrecords]
    exact (inOrder_iff_sorted hnan).mpr hsorted

end Osisp.Lab6
