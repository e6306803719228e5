import Mathlib.Data.List.Perm.Basic
import Osisp.Lab6.SortIndex

namespace Osisp.Lab6

open Osisp.Lib Osisp.Lib.WorkPool

/-- The loops of `merge_blocks` are the merge of the two rests. -/
theorem mergeLoop_eq (left right : List IndexRecord) (i j : Nat) (tmp : List IndexRecord) :
    mergeLoop left right i j tmp = tmp ++ (left.drop i).merge (right.drop j) cmpLe := by
  fun_induction mergeLoop left right i j tmp with
  | case1 i j tmp h hle ih =>
    have hcmp : cmpLe left[i] right[j] = true := decide_eq_true hle
    rw [ih, List.drop_eq_getElem_cons h.1, List.drop_eq_getElem_cons h.2,
      List.cons_merge_cons_pos cmpLe _ _ hcmp, List.append_assoc, List.singleton_append]
  | case2 i j tmp h hgt ih =>
    have hcmp : ¬cmpLe left[i] right[j] = true := fun hle => hgt (of_decide_eq_true hle)
    rw [ih, List.drop_eq_getElem_cons h.1, List.drop_eq_getElem_cons h.2,
      List.cons_merge_cons_neg cmpLe _ _ hcmp, List.append_assoc, List.singleton_append]
  | case3 i j tmp h =>
    rw [List.append_assoc]
    rcases Nat.lt_or_ge i left.length with hi | hi
    · rw [List.drop_eq_nil_of_le (by omega : right.length ≤ j), List.append_nil,
        List.merge_right]
    · rw [List.drop_eq_nil_of_le hi, List.nil_append, List.nil_merge]

theorem mergeTmp_eq {left nleft nright : Nat} (hsmall : nleft + nright < 2 ^ 31)
    (file : List UInt8) :
    mergeTmp left (left + 16 * nleft) nleft nright file =
      (recordCodec.load left nleft file).merge
        (recordCodec.load (left + 16 * nleft) nright file) cmpLe := by
  have htotal : int32 ((nleft : Int) + nright) = (nleft + nright : Nat) := int32_of_lt hsmall
  rw [mergeTmp, htotal, mergeLoop_eq]
  simp only [Int.toNat_natCast, List.drop_zero, List.nil_append]
  apply List.take_of_length_le
  rw [List.length_merge, recordCodec.load_length, recordCodec.load_length]

/-- Behind `front` the file has `count` chunks of `size` records each. -/
structure Chunks (front back : List UInt8) (count size : Nat) (file : List UInt8)
    (chunks : List (List IndexRecord)) : Prop where
  file_eq : file = front ++ recordCodec.encode chunks.flatten ++ back
  count_eq : chunks.length = count
  size_eq : ∀ r ∈ chunks, r.length = size

section Phases

variable {front back : List UInt8} {count size : Nat} {s : State}

theorem Chunks.load {file : List UInt8} {cur : List (List IndexRecord)} {i : Nat}
    {x : List IndexRecord} (h : Chunks front back count size file cur) (hx : cur[i]? = some x) :
    i < count ∧ x.length = size ∧
      recordCodec.load (front.length + 16 * (size * i)) size file = x := by
  have hi : i < cur.length := (List.getElem?_eq_some_iff.mp hx).1
  refine ⟨h.count_eq ▸ hi, h.size_eq x (List.mem_of_getElem? hx), ?_⟩
  rw [h.file_eq]
  exact recordCodec.load_chunk rfl h.size_eq hx back

theorem Chunks.store {file : List UInt8} {cur : List (List IndexRecord)} {i : Nat}
    {x y : List IndexRecord} (h : Chunks front back count size file cur)
    (hx : cur[i]? = some x) (hy : y.length = size) :
    Chunks front back count size
      (recordCodec.store (front.length + 16 * (size * i)) y file) (cur.set i y) := by
  refine ⟨?_, ?_, ?_⟩
  · rw [h.file_eq]
    exact recordCodec.store_chunk rfl h.size_eq hx hy back
  · rw [List.length_set, h.count_eq]
  · intro r hr
    rcases List.mem_or_eq_of_mem_set hr with hr | rfl
    · exact h.size_eq r hr
    · exact hy

theorem recordAt_block {base block blocks : Nat} (hblock : block < blocks)
    (hsize : s.blockSize = size) (hsmall : blocks * size < 2 ^ 31) :
    recordAt base (int32 (block * s.blockSize)) = base + 16 * (size * block) := by
  have hle : block * size ≤ blocks * size := Nat.mul_le_mul_right size (Nat.le_of_lt hblock)
  have hint : int32 ((block : Int) * s.blockSize) = (block * size : Nat) := by
    rw [hsize, ← Int.natCast_mul]
    exact int32_of_lt (by omega)
  rw [recordAt, hint, Int.toNat_natCast, Nat.mul_comm block]

theorem threadSort_maps (w : World) (hcount : s.blockCount = count) (hsize : s.blockSize = size)
    (hsmall : count * size < 2 ^ 31) {cells : List (List IndexRecord)}
    (hcells : cells.length = count) :
    (threadSort w front.length s).Maps (Chunks front back count size) (w.qsort.call cmpIndex)
      cells := by
  constructor
  · exact Nat.one_pos
  · intro i hi
    simp only [threadSort, hcount, decide_eq_true_eq]
    omega
  · intro file cur i x hrep hx
    obtain ⟨hi, -, hload⟩ := hrep.load hx
    simp only [threadSort, Nat.one_mul]
    rw [recordAt_block hi hsize hsmall, hsize, Int.toNat_natCast, hload]
  · intro file cur i x hrep hx
    obtain ⟨hi, hlen, -⟩ := hrep.load hx
    simp only [threadSort, Nat.one_mul]
    rw [recordAt_block hi hsize hsmall]
    exact hrep.store hx ((w.qsort.call_length _ _).trans hlen)

theorem threadMerge_maps (hcount : s.blockCount = (2 * count : Nat)) (hsize : s.blockSize = size)
    (hsmall : 2 * count * size < 2 ^ 31) {cells : List (List IndexRecord)}
    (hcells : cells.length = count) :
    (threadMerge front.length s).Maps (Chunks front back count (2 * size))
      (fun r => (r.take size).merge (r.drop size) cmpLe) cells := by
  have hleft : ∀ {i : Nat}, i < count →
      recordAt front.length (int32 ((2 * i : Nat) * s.blockSize)) =
        front.length + 16 * (2 * size * i) := by
    intro i hi
    rw [recordAt_block (by omega : 2 * i < 2 * count) hsize hsmall, Nat.mul_left_comm size,
      Nat.mul_assoc]
  have hright : ∀ {i : Nat}, i < count →
      recordAt front.length (int32 (((2 * i : Nat) + 1) * s.blockSize)) =
        front.length + 16 * (2 * size * i) + 16 * size := by
    intro i hi
    have hplace : recordAt front.length (int32 ((2 * i + 1 : Nat) * s.blockSize)) =
        front.length + 16 * (size * (2 * i + 1)) :=
      recordAt_block (by omega : 2 * i + 1 < 2 * count) hsize hsmall
    rw [Int.natCast_succ] at hplace
    rw [hplace, Nat.mul_succ, Nat.mul_add, Nat.mul_left_comm size, Nat.mul_assoc 2, Nat.add_assoc]
  constructor
  · exact Nat.two_pos
  · intro i hi
    simp only [threadMerge, hcount, decide_eq_true_eq]
    omega
  · intro file cur i x hrep hx
    obtain ⟨hi, hlen, hload⟩ := hrep.load hx
    have hpair : size + size ≤ 2 * count * size := by
      rw [← Nat.two_mul]
      exact Nat.mul_le_mul_right size (by omega)
    simp only [threadMerge]
    rw [hleft hi, hright hi, hsize, mergeTmp_eq (by omega)]
    have hhalves := recordCodec.load_add (front.length + 16 * (2 * size * i)) size size file
    rw [← Nat.two_mul, hload] at hhalves
    rw [hhalves, List.take_left' (recordCodec.load_length _ _ _),
      List.drop_left' (recordCodec.load_length _ _ _)]
    rfl
  · intro file cur i x hrep hx
    obtain ⟨hi, hlen, -⟩ := hrep.load hx
    simp only [threadMerge]
    rw [hleft hi]
    apply hrep.store hx
    rw [List.length_merge, ← List.length_append, List.take_append_drop, hlen]

/-- A phase that ends: what its threads do to the cells is done to all of them. -/
theorem runThreads_maps (w : World) (phase : Phase) {P : Pool (List UInt8) (List IndexRecord)}
    {f : List IndexRecord → List IndexRecord} {cells : List (List IndexRecord)}
    (hP : P.Maps (Chunks front back count size) f cells) {entry : Pc (List IndexRecord)}
    (hentry : entry = .arriveStart ∨ entry = .lock) {blocks : Nat}
    (hblocks : s.blockCount = blocks) (hfuel : P.stride * cells.length ≤ blocks)
    (hthreads : 0 < s.threadCount) (hfile : Chunks front back count size s.file cells) :
    runThreads w phase P entry s =
      .ok { s with file := front ++ recordCodec.encode (cells.map f).flatten ++ back } := by
  have henough : 6 * (P.stride * cells.length) + 7 * s.threadCount.toNat ≤
      6 * s.blockCount.toNat + 7 * s.threadCount.toNat := by
    rw [hblocks, Int.toNat_natCast]
    omega
  obtain ⟨file, hjoin, hdone⟩ := P.join_maps hP hentry (by omega : 0 < s.threadCount.toNat)
    henough (w.sched phase) hfile
  simp only [runThreads, hjoin, hdone.file_eq]
  exact if_pos hthreads

end Phases

/-- All calls succeed. -/
def World.Works (w : World) : Prop := ∀ c, w.sys c = true

theorem World.Works.call {w : World} (hw : w.Works) (c : Call) : ¬(!w.sys c) = true := by
  simp [hw c]

/-- A merge sort does what is asked of `qsort`. -/
def mergeQsort : Qsort where
  call cmp xs := xs.mergeSort (fun a b => cmp a b ≤ 0)
  call_length _ xs := List.length_mergeSort xs
  call_perm _ xs _ := List.mergeSort_perm xs _
  call_sorted cmp xs hcmp := by
    -- the comparison is total and transitive on the elements of `xs`
    let le : {a // a ∈ xs} → {a // a ∈ xs} → Bool := fun a b => cmp a.1 b.1 ≤ 0
    have htrans : ∀ a b c, le a b → le b c → le a c := by
      intro a b c hab hbc
      simp only [le, decide_eq_true_eq] at *
      exact hcmp.trans a a.2 b b.2 c c.2 hab hbc
    have htotal : ∀ a b, le a b || le b a := by
      intro a b
      have h := hcmp.antisymm b b.2 a a.2
      simp only [le, Bool.or_eq_true, decide_eq_true_eq]
      omega
    have hmap : (xs.attach.mergeSort le).map Subtype.val =
        xs.mergeSort (fun a b => cmp a b ≤ 0) := by
      have hval := List.map_mergeSort (r := le) (s := fun a b => cmp a b ≤ 0) (f := Subtype.val)
        (l := xs.attach) fun _ _ _ _ => rfl
      rw [hval, List.attach_map_subtype_val]
    rw [← hmap, List.pairwise_map]
    exact (List.pairwise_mergeSort htrans htotal _).imp of_decide_eq_true

/-- All calls succeed, and the first thread that can goes on. -/
def calmWorld : World := ⟨fun _ => true, mergeQsort, fun _ _ => 0⟩

theorem mergePairs_cmpLe {runs : List (List IndexRecord)} (hnan : NoNaN runs.flatten) :
    mergePairs cmpLe runs = mergePairs markLe runs :=
  mergePairs_congr fun a ha b hb => cmpLe_eq_markLe (hnan a ha) (hnan b hb)

theorem mergePairs_cmpLe_sorted_iff {runs : List (List IndexRecord)}
    (hnan : NoNaN runs.flatten) :
    (∀ r ∈ mergePairs cmpLe runs, Sorted r) ↔ ∀ r ∈ runs, Sorted r := by
  rw [mergePairs_cmpLe hnan]
  exact mergePairs_sorted_iff markLe_trans markLe_total runs

/-- A round that gets its memory merges the blocks two by two, whatever the calls behind it do. -/
theorem mergeRounds_round {w : World} (offset : Nat) {front back : List UInt8} {k size : Nat}
    {s : State} {blocks : List (List IndexRecord)} (hblocks : s.blockCount = (2 ^ (k + 1) : Nat))
    (hsize : s.blockSize = size) (hthreads : 0 < s.threadCount)
    (hsmall : 2 ^ (k + 1) * size < 2 ^ 31)
    (hfile : Chunks front back (2 ^ (k + 1)) size s.file blocks)
    (hcall : w.sys (.mallocMerge offset (2 ^ (k + 1) : Nat)) = true) :
    let t : State := ⟨(2 ^ k : Nat), s.threadCount, (2 * size : Nat),
      front ++ recordCodec.encode (mergePairs cmpLe blocks).flatten ++ back⟩
    Chunks front back (2 ^ k) (2 * size) t.file (mergePairs cmpLe blocks) ∧
      2 ^ k * (2 * size) = 2 ^ (k + 1) * size ∧
      mergeRounds w offset front.length (2 ^ (k + 1) : Nat) s =
        mergeRounds w offset front.length (2 ^ k : Nat) t := by
  have hpos := Nat.two_pow_pos k
  have htwo : 2 ^ (k + 1) = 2 * 2 ^ k := by rw [Nat.pow_succ, Nat.mul_comm]
  rw [htwo] at hblocks hsmall hfile hcall ⊢
  have hjoined : Chunks front back (2 ^ k) (2 * size) s.file (joinPairs blocks) :=
    ⟨by rw [joinPairs_flatten]; exact hfile.file_eq, joinPairs_length hfile.count_eq,
      joinPairs_width hfile.count_eq hfile.size_eq⟩
  have hrun := runThreads_maps w (.merge offset (2 * 2 ^ k : Nat))
    (threadMerge_maps hblocks hsize hsmall hjoined.count_eq) (.inr rfl) hblocks
    (Nat.mul_le_mul_left 2 (Nat.le_of_eq hjoined.count_eq)) hthreads hjoined
  rw [joinPairs_map_merge cmpLe hfile.count_eq hfile.size_eq] at hrun
  have hhalf : ((2 * 2 ^ k : Nat) : Int) / 2 = (2 ^ k : Nat) := by omega
  have hlevel : 2 ^ k * (2 * size) = 2 * 2 ^ k * size := by
    rw [Nat.mul_comm 2 (2 ^ k), Nat.mul_assoc]
  have hdouble : int32 (s.blockSize * 2) = (2 * size : Nat) := by
    have hle : 1 * (2 * size) ≤ 2 ^ k * (2 * size) := Nat.mul_le_mul_right _ hpos
    have hcast : s.blockSize * 2 = (2 * size : Nat) := by omega
    rw [hcast]
    exact int32_of_lt (by omega)
  refine ⟨⟨rfl, by rw [mergePairs_length, hfile.count_eq]; omega,
    mergePairs_width cmpLe hfile.count_eq hfile.size_eq⟩, hlevel, ?_⟩
  have hmany : (1 : Int) < (2 * 2 ^ k : Nat) := by omega
  rw [mergeRounds, dif_pos hmany, hcall, Bool.not_true, if_neg Bool.false_ne_true, hrun]
  simp only [hhalf, hdouble]

/-- Rounds of merges make one run of `2 ^ k` blocks of one size. -/
theorem mergeRounds_eq {w : World} (hw : w.Works) (offset : Nat) {front back : List UInt8}
    {k size : Nat} {s : State} {blocks : List (List IndexRecord)}
    (hblocks : s.blockCount = (2 ^ k : Nat)) (hsize : s.blockSize = size)
    (hthreads : 0 < s.threadCount) (hsmall : 2 ^ k * size < 2 ^ 31)
    (hfile : Chunks front back (2 ^ k) size s.file blocks) :
    mergeRounds w offset front.length (2 ^ k : Nat) s =
      .ok ⟨1, s.threadCount, (2 ^ k * size : Nat),
        front ++ recordCodec.encode ((mergePairs cmpLe)^[k] blocks).flatten ++ back⟩ := by
  induction k generalizing size s blocks with
  | zero =>
    obtain ⟨blockCount, threadCount, blockSize, file⟩ := s
    obtain rfl : blockCount = 1 := hblocks
    obtain rfl : blockSize = size := hsize
    obtain rfl := hfile.file_eq
    rw [mergeRounds, dif_neg (by decide)]
    simp
  | succ k ih =>
    obtain ⟨hnext, hlevel, hround⟩ := mergeRounds_round offset hblocks hsize hthreads hsmall hfile
      (hw _)
    have hrounds := ih (s := ⟨(2 ^ k : Nat), s.threadCount, (2 * size : Nat),
      front ++ recordCodec.encode (mergePairs cmpLe blocks).flatten ++ back⟩) rfl rfl hthreads
      (hlevel ▸ hsmall) hnext
    rw [hround, hrounds, hlevel, Function.iterate_succ_apply]

/-- The rounds sort, when the blocks are sorted. -/
theorem mergePairs_iterate_sorted {k : Nat} {blocks : List (List IndexRecord)}
    (hcount : blocks.length = 2 ^ k) (hnan : NoNaN blocks.flatten)
    (hsorted : ∀ r ∈ blocks, Sorted r) : Sorted ((mergePairs cmpLe)^[k] blocks).flatten := by
  have hruns : ∀ r ∈ (mergePairs cmpLe)^[k] blocks, Sorted r := by
    clear hcount
    induction k generalizing blocks with
    | zero => exact hsorted
    | succ k ih =>
      rw [Function.iterate_succ_apply]
      exact ih (hnan.perm (mergePairs_perm cmpLe blocks))
        ((mergePairs_cmpLe_sorted_iff hnan).mpr hsorted)
  obtain ⟨xs, hxs⟩ := List.length_eq_one_iff.mp (mergePairs_iterate_length cmpLe hcount)
  rw [hxs] at hruns ⊢
  rw [List.flatten_singleton]
  exact hruns xs (List.mem_singleton_self xs)

theorem cmpIndex_consistent {xs : List IndexRecord} (hnan : NoNaN xs) :
    Consistent cmpIndex xs := by
  constructor
  · intro a ha b hb
    rw [(cmpIndex_sign (hnan a ha) (hnan b hb)).1, (cmpIndex_sign (hnan b hb) (hnan a ha)).2]
  · intro a ha b hb c hc hab hbc
    have h1 := (cmpIndex_sign (hnan a ha) (hnan b hb)).2
    have h2 := (cmpIndex_sign (hnan b hb) (hnan c hc)).2
    have h3 := (cmpIndex_sign (hnan a ha) (hnan c hc)).2
    omega

theorem Qsort.sorts (q : Qsort) {xs : List IndexRecord} (hnan : NoNaN xs) :
    (q.call cmpIndex xs).Perm xs ∧ Sorted (q.call cmpIndex xs) := by
  have hcmp := cmpIndex_consistent hnan
  have hperm := q.call_perm _ _ hcmp
  have hnan' := hnan.perm hperm
  refine ⟨hperm, (q.call_sorted _ _ hcmp).imp_of_mem ?_⟩
  intro a b ha hb hle
  rw [← cmpLe_eq_markLe (hnan' a ha) (hnan' b hb)]
  exact decide_eq_true hle

theorem map_call_perm {q : Qsort} {blocks : List (List IndexRecord)}
    (h : ∀ r ∈ blocks, (q.call cmpIndex r).Perm r) :
    (blocks.map (q.call cmpIndex)).flatten.Perm blocks.flatten := by
  have hall := List.Perm.flatMap_left blocks h
  simpa only [List.flatMap_def, List.map_id'] using hall

theorem Qsort.blocks_perm (q : Qsort) {blocks : List (List IndexRecord)}
    (hnan : NoNaN blocks.flatten) :
    (blocks.map (q.call cmpIndex)).flatten.Perm blocks.flatten :=
  map_call_perm fun _ hr => (q.sorts (hnan.block hr)).1

theorem page_split (offset : Nat) :
    offset - offset % pageSize + (offset - (offset - offset % pageSize)) = offset := by
  have hmod := Nat.mod_le offset pageSize
  omega

/-- What one thread would do with the blocks of a portion: it sorts one after the other, and
merges them two by two in `k` rounds. -/
def sequentialSort (q : Qsort) (k : Nat) (blocks : List (List IndexRecord)) : List IndexRecord :=
  ((mergePairs cmpLe)^[k] (blocks.map (q.call cmpIndex))).flatten

theorem sequentialSort_sorts (q : Qsort) {k : Nat} {blocks : List (List IndexRecord)}
    (hcount : blocks.length = 2 ^ k) (hnan : NoNaN blocks.flatten) :
    Sorted (sequentialSort q k blocks) ∧ (sequentialSort q k blocks).Perm blocks.flatten := by
  have hperm := q.blocks_perm hnan
  refine ⟨mergePairs_iterate_sorted ((List.length_map _).trans hcount) (hnan.perm hperm) ?_,
    (mergePairs_iterate_perm cmpLe k _).trans hperm⟩
  intro r hr
  obtain ⟨c, hc, rfl⟩ := List.mem_map.mp hr
  exact (q.sorts (hnan.block hc)).2

theorem lt_of_two_pow_int {k : Nat} (h : ((2 ^ k : Nat) : Int) < 2 ^ 31) : k < 31 := by
  by_contra hge
  have hpow : 2 ^ 31 ≤ 2 ^ k := Nat.pow_le_pow_right (by decide) (by omega)
  omega

theorem uint64_blocks {blocks : Int} {k : Nat} (hblocks : blocks = (2 ^ k : Nat)) (hk : k < 31) :
    uint64 blocks = 2 ^ k := by
  have hpow : 2 ^ k < 2 ^ 31 := Nat.pow_lt_pow_right (by decide) hk
  rw [hblocks]
  exact uint64_of_lt (by omega)

/-- `process_portion` where no call fails. -/
theorem processPortion_works {w : World} (hw : w.Works) {offset : Nat} (hoffset : offset ≠ 0)
    (n : Nat) (s : State) :
    processPortion w offset (16 * n) s =
      if n % uint64 s.blockCount ≠ 0 then .error (.failure, s.file)
      else
        let t : State := { s with blockSize := int32 (n / uint64 s.blockCount : Nat) }
        (runThreads w (.sort offset) (threadSort w offset t) .arriveStart t).bind fun t =>
          (mergeRounds w offset offset t.blockCount t).bind fun u => .ok (n, u) := by
  have hrecs : 16 * n / 16 = n := by omega
  have hwhole : ¬(16 * n % 16 ≠ 0 ∧ offset ≠ 0) := by omega
  simp only [processPortion, if_neg hoffset, page_split, hrecs, if_neg hwhole, hw _, Bool.not_true,
    Bool.false_eq_true, if_false]
  rw [if_neg fun h => hoffset h.1]
  refine if_congr Iff.rfl rfl ?_
  cases runThreads w (.sort offset) (threadSort w offset
      { s with blockSize := int32 (n / uint64 s.blockCount : Nat) }) .arriveStart
    { s with blockSize := int32 (n / uint64 s.blockCount : Nat) } with
  | error e => rfl
  | ok t =>
    simp only [Except.bind]
    cases mergeRounds w offset offset t.blockCount t with
    | error e => rfl
    | ok u => rfl

/-- The first phase of a portion: every block of the file becomes what `qsort` makes of it. -/
theorem sortPhase_eq (w : World) {front back : List UInt8} {blocks : List (List IndexRecord)}
    {k size : Nat} {s : State} (hblocks : s.blockCount = (2 ^ k : Nat))
    (hthreads : 0 < s.threadCount) (hsmall : 2 ^ k * size < 2 ^ 31)
    (hfile : Chunks front back (2 ^ k) size s.file blocks) :
    let t : State := { s with blockSize := size }
    let file := front ++ recordCodec.encode (blocks.map (w.qsort.call cmpIndex)).flatten ++ back
    runThreads w (.sort front.length) (threadSort w front.length t) .arriveStart t =
        .ok { t with file := file } ∧
      Chunks front back (2 ^ k) size file (blocks.map (w.qsort.call cmpIndex)) := by
  intro t file
  constructor
  · have hfuel : (threadSort w front.length t).stride * blocks.length ≤ 2 ^ k := by
      rw [hfile.count_eq]
      exact Nat.le_of_eq (Nat.one_mul _)
    exact runThreads_maps w (.sort front.length) (s := t)
      (threadSort_maps w (s := t) hblocks rfl hsmall hfile.count_eq) (.inl rfl) hblocks hfuel
      hthreads hfile
  · refine ⟨rfl, (List.length_map _).trans hfile.count_eq, ?_⟩
    intro r hr
    obtain ⟨c, hc, rfl⟩ := List.mem_map.mp hr
    rw [w.qsort.call_length, hfile.size_eq c hc]

theorem blockSize_eq {k size : Nat} (hsmall : 2 ^ k * size < 2 ^ 31) :
    int32 (2 ^ k * size / 2 ^ k : Nat) = size := by
  have hpos := Nat.two_pow_pos k
  have hle : 1 * size ≤ 2 ^ k * size := Nat.mul_le_mul_right size hpos
  rw [Nat.mul_div_cancel_left size hpos]
  exact int32_of_lt (by omega)

/-- Whatever the threads do, a portion becomes what one thread would make of it. Afterwards there
is one block left. -/
theorem processPortion_eq {w : World} (hw : w.Works) {front back : List UInt8}
    {blocks : List (List IndexRecord)} {k size : Nat} {s : State} (hfront : front.length ≠ 0)
    (hblocks : s.blockCount = (2 ^ k : Nat)) (hk : k < 31) (hthreads : 0 < s.threadCount)
    (hsmall : 2 ^ k * size < 2 ^ 31) (hfile : Chunks front back (2 ^ k) size s.file blocks) :
    processPortion w front.length (16 * (2 ^ k * size)) s =
      .ok (2 ^ k * size, ⟨1, s.threadCount, (2 ^ k * size : Nat),
        front ++ recordCodec.encode (sequentialSort w.qsort k blocks) ++ back⟩) := by
  obtain ⟨hsort, hsorted⟩ := sortPhase_eq w hblocks hthreads hsmall hfile
  have hrounds := mergeRounds_eq hw front.length
    (s := { s with
      blockSize := size
      file := front ++ recordCodec.encode (blocks.map (w.qsort.call cmpIndex)).flatten ++ back })
    hblocks rfl hthreads hsmall hsorted
  have hcounts := uint64_blocks hblocks hk
  have hrest : ¬2 ^ k * size % 2 ^ k ≠ 0 := by
    rw [Nat.mul_mod_right]
    intro h
    exact h rfl
  rw [processPortion_works hw hfront, hcounts, if_neg hrest, blockSize_eq hsmall]
  dsimp only at hsort ⊢
  rw [hsort]
  rw [← hblocks] at hrounds
  simp only [Except.bind]
  rw [hrounds, sequentialSort]

/-- A portion is sorted in its place. -/
theorem processPortion_sorted {w : World} (hw : w.Works) {front back : List UInt8}
    {xs : List IndexRecord} {k : Nat} {s : State} (hfront : front.length ≠ 0)
    (hblocks : s.blockCount = (2 ^ k : Nat)) (hk : k < 31) (hdvd : 2 ^ k ∣ xs.length)
    (hthreads : 0 < s.threadCount) (hsmall : xs.length < 2 ^ 31) (hnan : NoNaN xs)
    (hfile : s.file = front ++ recordCodec.encode xs ++ back) :
    ∃ ys, processPortion w front.length (16 * xs.length) s =
        .ok (xs.length,
          ⟨1, s.threadCount, xs.length, front ++ recordCodec.encode ys ++ back⟩) ∧
      Sorted ys ∧ ys.Perm xs := by
  obtain ⟨size, hsize⟩ := hdvd
  obtain ⟨chunks, rfl, hcount, hwidth⟩ := exists_chunks hsize
  refine ⟨sequentialSort w.qsort k chunks, ?_, sequentialSort_sorts w.qsort hcount hnan⟩
  rw [hsize] at hsmall ⊢
  exact processPortion_eq hw hfront hblocks hk hthreads hsmall ⟨hfile, hcount, hwidth⟩

end Osisp.Lab6
