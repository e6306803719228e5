import Osisp.Lab6.Layout

namespace Osisp.Lab6

open Osisp.Lib

/-- Where the loop over the portions stands: the runs `done` are sorted, `todo` is untouched.
`m` records fill a portion. -/
structure Portions (m : Nat) (front : List UInt8) (done : List (List IndexRecord))
    (todo : List IndexRecord) (s : State) : Prop where
  file_eq : s.file = front ++ recordCodec.encode (done.flatten ++ todo)
  blocks : ∃ k, k ≤ 8 ∧ s.blockCount = (2 ^ k : Nat)
  threads : 0 < s.threadCount
  sorted : ∀ r ∈ done, Sorted r
  dvd : 256 ∣ todo.length
  full : todo ≠ [] → done.flatten.length = m * done.length

/-- The loop over the portions leaves sorted runs, one behind the other. -/
theorem portionLoop_sorted {w : World} (hw : w.Works) {m : Nat} (hm : 256 ∣ m)
    (hmem : 0 < 16 * m) {front : List UInt8} (hfront : front.length = 8)
    {done : List (List IndexRecord)} {todo : List IndexRecord} {s : State} {maxRuns : Int}
    (h : Portions m front done todo s) (hsmall : (done.flatten ++ todo).length < 2 ^ 31)
    (hnan : NoNaN (done.flatten ++ todo))
    (hmax : ∀ r : Nat, m * r < (done.flatten ++ todo).length → (r : Int) < maxRuns) :
    ∃ lists t, portionLoop w (16 * m) hmem (8 + 16 * (done.flatten ++ todo).length) maxRuns
        (8 + 16 * done.flatten.length) (runsOf 8 done) s = .ok (runsOf 8 lists, t) ∧
      t.file = front ++ recordCodec.encode lists.flatten ∧ (∀ r ∈ lists, Sorted r) ∧
      lists.flatten.Perm (done.flatten ++ todo) := by
  obtain ⟨k, hk, hblocks⟩ := h.blocks
  have hlen : (done.flatten ++ todo).length = done.flatten.length + todo.length :=
    List.length_append
  have hbegin : Partly front [] (done.flatten ++ todo) done todo k s :=
    ⟨by rw [h.file_eq, List.append_nil], .refl _, hblocks, h.threads⟩
  have hfits : Fits (2 ^ k) m done.length maxRuns todo := by
    constructor
    · intro _
      have hpow : 2 ^ k ∣ 2 ^ 8 := Nat.pow_dvd_pow 2 hk
      rcases Nat.le_total m todo.length with hle | hle
      · rw [Nat.min_eq_left hle]
        exact hpow.trans hm
      · rw [Nat.min_eq_right hle]
        exact hpow.trans h.dvd
    · -- the runs in front of it are those of full portions
      intro r hr
      have hdone := h.full (List.ne_nil_of_length_pos (by omega))
      apply hmax
      rw [Nat.mul_add, ← hdone, hlen]
      omega
  obtain ⟨lists, t, hloop, hfile, hsorted, hperm, -⟩ := portionLoop_fits hw hmem hfront (by omega)
    hsmall hnan hbegin hfits
  refine ⟨done ++ lists, t, hloop, hfile, ?_, ?_⟩
  · intro r hr
    rcases List.mem_append.mp hr with hr | hr
    · exact h.sorted r hr
    · exact hsorted r hr
  · rw [List.flatten_append]
    exact hperm.append_left _

theorem memsize_records {memsize : Int} (hmem : 0 < memsize) (hpage : (pageSize : Int) ∣ memsize)
    (hlong : memsize < 2 ^ 63) :
    ∃ m, uint64 memsize = 16 * m ∧ 16 * m % pageSize = 0 ∧ 256 ∣ m ∧ 0 < m ∧ 16 * m < 2 ^ 63 := by
  obtain ⟨q, rfl⟩ := hpage
  rw [pageSize] at *
  refine ⟨256 * q.toNat, ?_, by omega, Nat.dvd_mul_right _ _, by omega, by omega⟩
  rw [uint64]
  omega

theorem args_pass {k : Nat} (hk : k ≤ 8) {threads : Int} (hone : 1 ≤ threads)
    (hfour : 4 * threads ≤ (2 ^ k : Nat)) :
    ¬(((2 ^ k : Nat) : Int) ≤ 0 ∨
      ((2 ^ k : Nat) : Int).toNat &&& (((2 ^ k : Nat) : Int).toNat - 1) ≠ 0 ∨
      ((2 ^ k : Nat) : Int) < int32 (threads * 4)) := by
  have hpow : 2 ^ k ≤ 2 ^ 8 := Nat.pow_le_pow_right (by decide) hk
  have hpos := Nat.two_pow_pos k
  have hfit : int32 (threads * 4) = threads * 4 := by
    rw [int32, Int.bmod_eq_of_le] <;> omega
  have hand : 2 ^ k &&& (2 ^ k - 1) = 0 := by
    rw [Nat.and_two_pow_sub_one_eq_mod, Nat.mod_self]
  rw [hfit, Int.toNat_natCast, hand]
  omega

theorem run_lt_maxRuns {m n r : Nat} (hm : 0 < m) (hr : m * r < n) :
    r < (16 * n + 16 * m - 1) / (16 * m) := by
  have hmul : (r + 1) * (16 * m) = 16 * (m * r) + 16 * m := by
    rw [Nat.succ_mul, Nat.mul_left_comm, Nat.mul_comm r]
  have hle : r + 1 ≤ (16 * n + 16 * m - 1) / (16 * m) := by
    rw [Nat.le_div_iff_mul_le (by omega), hmul]
    omega
  exact hle

/-- Sorting the file that generation leaves, with the command line the checks let through. -/
theorem sortIndex_sorted {w : World} (hw : w.Works) {xs : List IndexRecord}
    (hsmall : xs.length < 2 ^ 31) (hdvd : 256 ∣ xs.length) (hnan : NoNaN xs)
    {memsize : Int} (hmem : 0 < memsize) (hpage : (pageSize : Int) ∣ memsize)
    (hlong : memsize < 2 ^ 63) {k : Nat} (hk : k ≤ 8) {threads : Int} (hone : 1 ≤ threads)
    (hfour : 4 * threads ≤ (2 ^ k : Nat)) :
    ∃ ys, sortIndex w memsize (2 ^ k : Nat) threads
        (word xs.length ++ recordCodec.encode xs) =
          (.success, word xs.length ++ recordCodec.encode ys) ∧
      Sorted ys ∧ ys.Perm xs := by
  obtain ⟨m, hm, hpages, hdvdm, hmpos, hmlt⟩ := memsize_records hmem hpage hlong
  have hsize : (word xs.length ++ recordCodec.encode xs).length = 8 + 16 * xs.length := by
    rw [end_encode, word_length]
  have hruns : int32 ((16 * xs.length + 16 * m - 1) % 2 ^ 64 / (16 * m) : Nat) =
      ((16 * xs.length + 16 * m - 1) / (16 * m) : Nat) := by
    rw [Nat.mod_eq_of_lt (by omega)]
    exact int32_of_lt (Nat.div_lt_of_lt_mul (by omega))
  have hstart : Portions m (word xs.length) [] xs
      ⟨(2 ^ k : Nat), threads, 0, word xs.length ++ recordCodec.encode xs⟩ :=
    ⟨rfl, ⟨k, hk, rfl⟩, hone, (fun r hr => by cases hr), hdvd, fun _ => (Nat.mul_zero m).symm⟩
  obtain ⟨lists, t, hloop, hfile, hsorted, hperm⟩ := portionLoop_sorted hw hdvdm (by omega)
    (word_length _) hstart hsmall hnan fun r hr => Int.ofNat_lt.mpr (run_lt_maxRuns hmpos hr)
  simp only [List.flatten_nil, List.nil_append, List.length_nil, Nat.mul_zero, Nat.add_zero,
    runsOf] at hloop hperm
  have hacc : Accepted w memsize (2 ^ k : Nat) threads
      (word xs.length ++ recordCodec.encode xs) := by
    have hargs := args_pass hk hone hfour
    exact ⟨hm ▸ hpages, by omega, by omega, by omega, by omega, ⟨hw _, hw _⟩, hw _, hw _, by omega⟩
  obtain ⟨ys, hmerge, hys, hysperm⟩ := externalMerge_sorted_iff hw (word xs.length) []
    (hperm.length_eq ▸ hsmall) (hnan.perm hperm)
  simp only [word_length, List.append_nil] at hmerge
  rw [← hfile] at hmerge
  refine ⟨ys, ?_, hys.mpr hsorted, hysperm.trans hperm⟩
  rw [sortIndex_accepted hacc]
  simp only [hm, hsize, maxRunsOf, Nat.add_sub_cancel_left, hruns, hloop]
  exact finish_ok hmerge

theorem noNaN_makeRecords {n : Nat} {timeMark : Nat → Double}
    (h : ∀ i < n, (timeMark i).isNaN = false) : NoNaN (makeRecords n timeMark) := by
  intro r hr
  obtain ⟨i, hi, rfl⟩ := List.mem_map.mp hr
  exact h i (List.mem_range.mp hi)

theorem makeRecords_recno {n : Nat} (hn : n < 2 ^ 64) (timeMark : Nat → Double) :
    (makeRecords n timeMark).map (fun r => r.recno.toNat) = List.range' 1 n := by
  rw [makeRecords, List.map_map, List.range'_eq_map_range]
  apply List.map_congr_left
  intro i hi
  have hlt := List.mem_range.mp hi
  simp only [Function.comp_apply]
  rw [UInt64.toNat_ofNat', Nat.mod_eq_of_lt (by omega), Nat.add_comm]

/-- Generation, sort_index and view: the records are printed in the order of their marks. -/
theorem pipeline_sorts (w : World) (hw : w.Works) (n : Nat) (hpos : 0 < n) (hdvd : 256 ∣ n)
    (hsmall : n < 2 ^ 31) (timeMark : Nat → Double) (hnan : ∀ i < n, (timeMark i).isNaN = false)
    (memsize : Int) (hmem : 0 < memsize) (hpage : 4096 ∣ memsize) (hlong : memsize < 2 ^ 63)
    (blocks : Nat) (hblocks : ∃ k, blocks = 2 ^ k) (hmany : blocks ≤ 256) (threads : Int)
    (hone : 1 ≤ threads) (hfour : 4 * threads ≤ blocks) :
    ∃ file sorted printed, generation w.sys n timeMark = some file ∧
      sortIndex w memsize blocks threads file = (.success, sorted) ∧
      view w.sys sorted = some printed ∧ printed.length = n ∧
      printed.Pairwise (fun a b => a.timeMark.le b.timeMark = true) ∧
      (printed.map (fun r => r.recno.toNat)).Perm (List.range' 1 n) ∧
      printed.Perm (makeRecords n timeMark) := by
  obtain ⟨k, rfl⟩ := hblocks
  have hk : k ≤ 8 := (Nat.pow_le_pow_iff_right (by decide)).mp hmany
  have hlen := makeRecords_length n timeMark
  have hnone := noNaN_makeRecords hnan
  obtain ⟨ys, hrun, hys, hperm⟩ := sortIndex_sorted hw (hlen.symm ▸ hsmall) (hlen.symm ▸ hdvd)
    hnone hmem hpage hlong hk hone hfour
  have hyslen : ys.length = n := hperm.length_eq.trans hlen
  rw [hlen] at hrun
  refine ⟨_, _, ys, generation_file hw hpos hdvd hsmall timeMark, hrun, ?_, hyslen,
    (inOrder_iff_sorted (hnone.perm hperm)).mpr hys, ?_, hperm⟩
  · rw [← hyslen]
    exact view_file hw (by omega)
  · rw [← makeRecords_recno (by omega) timeMark]
    exact hperm.map _

/-- The marks 2.0 and 1.0 in turn. -/
def twoMarks (i : Nat) : Double :=
  if i % 2 = 0 then ⟨0x4000000000000000⟩ else ⟨0x3FF0000000000000⟩

theorem twoMarks_isNaN (i : Nat) : (twoMarks i).isNaN = false := by
  unfold twoMarks
  split
  · decide
  · decide

theorem pipeline_sorts_two_runs :
    ∃ file sorted printed, generation calmWorld.sys 512 twoMarks = some file ∧
      sortIndex calmWorld 4096 4 1 file = (.success, sorted) ∧
      view calmWorld.sys sorted = some printed ∧ printed.length = 512 ∧
      printed.Pairwise (fun a b => a.timeMark.le b.timeMark = true) ∧
      (printed.map (fun r => r.recno.toNat)).Perm (List.range' 1 512) ∧
      printed.Perm (makeRecords 512 twoMarks) :=
  pipeline_sorts calmWorld (fun _ => rfl) 512 (by decide) (by decide) (by decide) twoMarks
    (fun i _ => twoMarks_isNaN i) 4096 (by decide) (by decide) (by decide) 4
    ⟨2, rfl⟩ (by decide) 1 (by decide) (by decide)

end Osisp.Lab6
