import Osisp.Lab6.Pipeline
import Osisp.Lib.JobLog

namespace Osisp.Lab6

open Osisp.Lib Osisp.Lib.WorkPool

/-- The blocks at which the pairs of a merge round begin. -/
def pairStarts (blocks : Nat) : List Nat := (List.range (blocks / 2)).map (2 * ·)

theorem pairStarts_cover (n : Nat) :
    (pairStarts (2 * n)).flatMap (fun i => [i, i + 1]) = List.range (2 * n) := by
  rw [pairStarts, Nat.mul_div_cancel_left n Nat.two_pos]
  induction n with
  | zero => rfl
  | succ n ih =>
    rw [List.range_succ, List.map_append, List.flatMap_append, ih, Nat.mul_succ, List.range_succ,
      List.range_succ, List.append_assoc]
    rfl

/-- The threads of the sort phase have the blocks distributed among them. -/
theorem threadSort_distributed (w : World) {front back : List UInt8} {count size : Nat} {s : State}
    (hcount : s.blockCount = count) (hsize : s.blockSize = size) (hthreads : 1 ≤ s.threadCount)
    (hsmall : count * size < 2 ^ 31) {blocks : List (List IndexRecord)}
    (hfile : Chunks front back count size s.file blocks) (ws : List Nat)
    {t : WorkPool.State (List UInt8) (List IndexRecord)}
    (h : ((threadSort w front.length s).system .arriveStart s.threadCount.toNat s.file).run
      (start .arriveStart s.threadCount.toNat s.file) ws = some t) :
    Distributed (List.range count) ((threadSort w front.length s).takes
      (start .arriveStart s.threadCount.toNat s.file) ws) t := by
  have hall := Pool.distributed (threadSort_maps w hcount hsize hsmall hfile.count_eq) (.inl rfl)
    (by omega) hfile ws h
  have hjobs : (List.range blocks.length).map (1 * ·) = List.range count := by
    simp only [Nat.one_mul, List.map_id', hfile.count_eq]
  rwa [← hjobs]

/-- The threads of a merge round have the pairs of blocks distributed among them. -/
theorem threadMerge_distributed {front back : List UInt8} {count size : Nat} {s : State}
    (hcount : s.blockCount = (2 * count : Nat)) (hsize : s.blockSize = size)
    (hthreads : 1 ≤ s.threadCount) (hsmall : 2 * count * size < 2 ^ 31)
    {blocks : List (List IndexRecord)}
    (hfile : Chunks front back (2 * count) size s.file blocks) (ws : List Nat)
    {t : WorkPool.State (List UInt8) (List IndexRecord)}
    (h : ((threadMerge front.length s).system .lock s.threadCount.toNat s.file).run
      (start .lock s.threadCount.toNat s.file) ws = some t) :
    Distributed (pairStarts (2 * count)) ((threadMerge front.length s).takes
      (start .lock s.threadCount.toNat s.file) ws) t := by
  have hjoined : Chunks front back count (2 * size) s.file (joinPairs blocks) :=
    ⟨by rw [joinPairs_flatten]; exact hfile.file_eq, joinPairs_length hfile.count_eq,
      joinPairs_width hfile.count_eq hfile.size_eq⟩
  have hall := Pool.distributed (threadMerge_maps hcount hsize hsmall hjoined.count_eq) (.inr rfl)
    (by omega) hjoined ws h
  have hjobs : (List.range (joinPairs blocks).length).map (2 * ·) = pairStarts (2 * count) := by
    rw [pairStarts, hjoined.count_eq, Nat.mul_div_cancel_left count Nat.two_pos]
  rwa [← hjobs]

/-- Which thread sorts a block or merges a pair is open; that each is done once is not, and the
portion becomes what one thread would make of it. -/
theorem distribution_schedule_free (w : World) (hw : w.Works) (front back : List UInt8)
    (hfront : 8 ≤ front.length) (k size : Nat) (hk : k < 31) (hsmall : 2 ^ k * size < 2 ^ 31)
    (blocks : List (List IndexRecord)) (hcount : blocks.length = 2 ^ k)
    (hwidth : ∀ r ∈ blocks, r.length = size) (hnan : NoNaN blocks.flatten) (threads : Int)
    (hthreads : 1 ≤ threads) :
    let file := front ++ recordCodec.encode blocks.flatten ++ back
    let sorting : State := ⟨(2 ^ k : Nat), threads, size, file⟩
    (∀ (ws : List Nat) (t : WorkPool.State (List UInt8) (List IndexRecord)),
      ((threadSort w front.length sorting).system .arriveStart threads.toNat file).run
        (start .arriveStart threads.toNat file) ws = some t →
      Distributed (List.range (2 ^ k))
        ((threadSort w front.length sorting).takes (start .arriveStart threads.toNat file) ws) t) ∧
    -- a round in which `2 ^ (j + 1)` blocks are left
    (∀ j < k, ∀ current : List (List IndexRecord), current.length = 2 ^ (j + 1) →
      (∀ r ∈ current, r.length = 2 ^ (k - (j + 1)) * size) →
      let file := front ++ recordCodec.encode current.flatten ++ back
      let merging : State := ⟨(2 ^ (j + 1) : Nat), threads, (2 ^ (k - (j + 1)) * size : Nat), file⟩
      (∀ (ws : List Nat) (t : WorkPool.State (List UInt8) (List IndexRecord)),
        ((threadMerge front.length merging).system .lock threads.toNat file).run
          (start .lock threads.toNat file) ws = some t →
        Distributed (pairStarts (2 ^ (j + 1)))
          ((threadMerge front.length merging).takes (start .lock threads.toNat file) ws) t) ∧
      (pairStarts (2 ^ (j + 1))).flatMap (fun i => [i, i + 1]) = List.range (2 ^ (j + 1))) ∧
    ∃ ys, (∀ blockSize : Int,
        processPortion w front.length (16 * (2 ^ k * size))
            ⟨(2 ^ k : Nat), threads, blockSize, file⟩ =
          .ok (2 ^ k * size, ⟨1, threads, (2 ^ k * size : Nat),
            front ++ recordCodec.encode ys ++ back⟩) ∧
        ∀ sched : Phase → Nat → Nat,
          processPortion { w with sched := sched } front.length (16 * (2 ^ k * size))
              ⟨(2 ^ k : Nat), 1, blockSize, file⟩ =
            .ok (2 ^ k * size, ⟨1, 1, (2 ^ k * size : Nat),
              front ++ recordCodec.encode ys ++ back⟩)) ∧
      ys = sequentialSort w.qsort k blocks ∧ InOrder ys ∧ ys.Perm blocks.flatten := by
  intro file sorting
  have hchunks : Chunks front back (2 ^ k) size file blocks := ⟨rfl, hcount, hwidth⟩
  obtain ⟨hsorted, hperm⟩ := sequentialSort_sorts w.qsort hcount hnan
  refine ⟨?_, ?_, sequentialSort w.qsort k blocks, ?_, rfl,
    (inOrder_iff_sorted (hnan.perm hperm)).mpr hsorted, hperm⟩
  · intro ws t h
    exact threadSort_distributed w (s := sorting) rfl rfl hthreads hsmall hchunks ws h
  · intro j hj current hlen hwide file merging
    have htwo : 2 ^ (j + 1) = 2 * 2 ^ j := by rw [Nat.pow_succ, Nat.mul_comm]
    have hsame : 2 ^ (j + 1) * (2 ^ (k - (j + 1)) * size) = 2 ^ k * size := by
      rw [← Nat.mul_assoc, ← Nat.pow_add, Nat.add_sub_of_le hj]
    constructor
    · intro ws t h
      have hcast : merging.blockCount = (2 * 2 ^ j : Nat) := congrArg Nat.cast htwo
      have hfile : Chunks front back (2 * 2 ^ j) (2 ^ (k - (j + 1)) * size) merging.file current :=
        ⟨rfl, htwo ▸ hlen, hwide⟩
      have hall := threadMerge_distributed hcast rfl hthreads (htwo ▸ hsame.trans_lt hsmall)
        hfile ws h
      rwa [← htwo] at hall
    · rw [htwo]
      exact pairStarts_cover (2 ^ j)
  · intro blockSize
    constructor
    · exact processPortion_eq hw (by omega) rfl hk hthreads hsmall hchunks
    · intro sched
      exact processPortion_eq (w := { w with sched := sched }) hw (by omega) rfl hk Int.one_pos
        hsmall hchunks

/-- Two blocks of one record each, the marks 2.0 and 1.0. -/
def twoBlocks : List (List IndexRecord) :=
  [[⟨1, ⟨0x4000000000000000⟩⟩], [⟨2, ⟨0x3FF0000000000000⟩⟩]]

theorem distribution_schedule_free_two :
    ∃ ys, processPortion calmWorld 8 32
        ⟨2, 3, 0, word 2 ++ recordCodec.encode twoBlocks.flatten ++ []⟩ =
      .ok (2, ⟨1, 3, 2, word 2 ++ recordCodec.encode ys ++ []⟩) ∧
      InOrder ys ∧ ys.Perm twoBlocks.flatten := by
  obtain ⟨-, -, ys, hrun, -, hys, hperm⟩ := distribution_schedule_free calmWorld (fun _ => rfl)
    (word 2) [] (by decide) 1 1 (by decide) (by decide) twoBlocks rfl (by decide)
    (by unfold NoNaN; decide) 3 (by decide)
  exact ⟨ys, (hrun 0).1, hys, hperm⟩

/-- The marks 0.0 and NaN. -/
def nanRecords : List IndexRecord := [⟨1, ⟨0⟩⟩, ⟨2, ⟨0x7FF8000000000000⟩⟩]

/-- With a NaN among the marks nothing is in order, and of `2 ^ 31` records in one block not even
the number fits `g_block_size`. -/
theorem distribution_nan :
    (∃ u, processPortion calmWorld 8 32
        ⟨2, 1, 0, word 2 ++ recordCodec.encode nanRecords ++ []⟩ = .ok (2, u) ∧
      ¬InOrder (recordCodec.load 8 2 u.file)) ∧
    int32 (2 ^ 31 / uint64 1 : Nat) < 0 := by
  constructor
  · let s : State := ⟨2, 1, 0, word 2 ++ recordCodec.encode nanRecords ++ []⟩
    have hfile : Chunks (word 2) [] (2 ^ 1) 1 s.file (nanRecords.map fun r => [r]) :=
      ⟨rfl, rfl, by decide⟩
    have hworks : calmWorld.Works := fun _ => rfl
    have hrun := processPortion_eq hworks (by decide) rfl (by decide) (by decide) (by decide) hfile
    refine ⟨_, hrun, ?_⟩
    -- the two compare as equal, so they stay where they are
    have hstay : sequentialSort calmWorld.qsort 1 (nanRecords.map fun r => [r]) = nanRecords := by
      have htie : cmpIndex ⟨1, ⟨0⟩⟩ ⟨2, ⟨0x7FF8000000000000⟩⟩ ≤ 0 := by decide
      simp [nanRecords, sequentialSort, mergePairs, calmWorld, mergeQsort, cmpLe, htie]
    rw [hstay]
    change ¬InOrder (recordCodec.load (word 2).length nanRecords.length
      (word 2 ++ recordCodec.encode nanRecords ++ []))
    rw [recordCodec.load_encode rfl]
    unfold InOrder nanRecords
    decide
  · decide

end Osisp.Lab6
