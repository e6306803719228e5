import Osisp.Lab6.Index
import Osisp.Lib.MergeRuns
import Osisp.Lib.Outcome
import Osisp.Lib.WorkPool

namespace Osisp.Lab6

open Osisp.Lib Osisp.Lib.WorkPool

/-- A comparison that `qsort` may be given for an array. -/
structure Consistent (cmp : IndexRecord → IndexRecord → Int) (xs : List IndexRecord) : Prop where
  antisymm : ∀ a ∈ xs, ∀ b ∈ xs, cmp a b < 0 ↔ 0 < cmp b a
  trans : ∀ a ∈ xs, ∀ b ∈ xs, ∀ c ∈ xs, cmp a b ≤ 0 → cmp b c ≤ 0 → cmp a c ≤ 0

/-- `qsort` of the C library: it works in the array, and sorts it by a consistent comparison. -/
structure Qsort where
  call : (IndexRecord → IndexRecord → Int) → List IndexRecord → List IndexRecord
  call_length : ∀ (cmp : IndexRecord → IndexRecord → Int) (xs : List IndexRecord),
    (call cmp xs).length = xs.length
  call_perm : ∀ (cmp : IndexRecord → IndexRecord → Int) (xs : List IndexRecord),
    Consistent cmp xs → (call cmp xs).Perm xs
  call_sorted : ∀ (cmp : IndexRecord → IndexRecord → Int) (xs : List IndexRecord),
    Consistent cmp xs → (call cmp xs).Pairwise (fun a b => cmp a b ≤ 0)

/-- A time at which threads run: the sort of the portion at an offset, or a round of its merge. -/
inductive Phase where
  | sort (offset : Nat)
  | merge (offset : Nat) (blocks : Int)

/-- What the program does not decide: which calls succeed, what `qsort` does, and in which order
the threads of a phase go on. -/
structure World where
  sys : Call → Bool
  qsort : Qsort
  sched : Phase → Nat → Nat

def pageSize : Nat := 4096

theorem dvd_of_pages {memsize : Nat} (h : memsize % pageSize = 0) : 16 ∣ memsize := by
  rw [pageSize] at h
  omega

/-- The global variables that the threads use, and the bytes of the file. A mapping is shared, so
writes through it are writes to the file. -/
structure State where
  blockCount : Int
  threadCount : Int
  blockSize : Int
  file : List UInt8

/-- How a run ends: by `EXIT_SUCCESS`, by `EXIT_FAILURE`, by a division by zero in main or a write
past the array of runs, by a signal in `pthread_barrier_destroy`, or never. -/
inductive Outcome where
  | success
  | failure
  | crashed
  | killed
  | hung
  deriving DecidableEq

/-- The end of a run, with the file it leaves. -/
abbrev Stop := Outcome × List UInt8

/-- The place of record `i` of an array of records at `base`. -/
def recordAt (base : Nat) (i : Int) : Nat := base + 16 * i.toNat

/-- The loops of `merge_blocks`: the first one from `i` and `j` on, then those that copy what is
left of one side. -/
def mergeLoop (left right : List IndexRecord) (i j : Nat) (tmp : List IndexRecord) :
    List IndexRecord :=
  if h : i < left.length ∧ j < right.length then
    if cmpIndex left[i] right[j] ≤ 0 then mergeLoop left right (i + 1) j (tmp ++ [left[i]])
    else mergeLoop left right i (j + 1) (tmp ++ [right[j]])
  else tmp ++ left.drop i ++ right.drop j
termination_by left.length - i + (right.length - j)

/-- What `merge_blocks` copies back from `tmp`. -/
def mergeTmp (left right : Nat) (nleft nright : Int) (file : List UInt8) : List IndexRecord :=
  let tmp := mergeLoop (recordCodec.load left nleft.toNat file)
    (recordCodec.load right nright.toNat file) 0 0 []
  tmp.take (int32 (nleft + nright)).toNat

def mergeBlocks (left right : Nat) (nleft nright : Int) (file : List UInt8) : List UInt8 :=
  recordCodec.store left (mergeTmp left right nleft nright file) file

/-- The loop of `thread_sort`; `base` is `g_records`. -/
def threadSort (w : World) (base : Nat) (s : State) : Pool (List UInt8) (List IndexRecord) where
  more next := decide ((next : Int) < s.blockCount)
  stride := 1
  compute block file := w.qsort.call cmpIndex
    (recordCodec.load (recordAt base (int32 (block * s.blockSize))) s.blockSize.toNat file)
  store block sorted file :=
    recordCodec.store (recordAt base (int32 (block * s.blockSize))) sorted file

def threadMerge (base : Nat) (s : State) : Pool (List UInt8) (List IndexRecord) where
  more next := decide ((next : Int) + 1 < s.blockCount)
  stride := 2
  compute block file := mergeTmp (recordAt base (int32 (block * s.blockSize)))
    (recordAt base (int32 ((block + 1) * s.blockSize))) s.blockSize s.blockSize file
  store block tmp file := recordCodec.store (recordAt base (int32 (block * s.blockSize))) tmp file

/-- `pthread_barrier_destroy` of `g_barrier`, and what comes behind it. `pthread_barrier_init`
refuses a number of threads that is not positive (`EINVAL`, which nobody looks at): the barrier
keeps the count 0 of a static variable, and to destroy it is to divide by this count. -/
def barrierDestroy {α : Type} (s : State) (next : Except Stop α) : Except Stop α :=
  if 0 < s.threadCount then next else .error (.killed, s.file)

theorem barrierDestroy_threads {α : Type} {s : State} (h : 0 < s.threadCount)
    (next : Except Stop α) : barrierDestroy s next = next := if_pos h

theorem barrierDestroy_bind {α β : Type} (s : State) (next : Except Stop α)
    (f : α → Except Stop β) :
    (barrierDestroy s next).bind f = barrierDestroy s (next.bind f) := by
  unfold barrierDestroy
  split_ifs
  · rfl
  · rfl

theorem barrierDestroy_ok {α : Type} {s : State} {next : Except Stop α} {a : α}
    (h : barrierDestroy s next = .ok a) : 0 < s.threadCount ∧ next = .ok a := by
  unfold barrierDestroy at h
  split_ifs at h with hthreads
  exact ⟨hthreads, h⟩

theorem barrierDestroy_ends {α : Type} {s : State} {next : Except Stop α} {P : Stop → Prop}
    {Q : α → Prop} (hkilled : ¬0 < s.threadCount → P (.killed, s.file))
    (hnext : 0 < s.threadCount → Ends P Q next) : Ends P Q (barrierDestroy s next) := by
  unfold barrierDestroy
  split_ifs with hthreads
  · exact hnext hthreads
  · exact hkilled hthreads

/-- Creates the threads, joins them and destroys their barrier. The number of steps covers every
order of them. -/
def runThreads (w : World) (phase : Phase) (P : Pool (List UInt8) (List IndexRecord))
    (entry : Pc (List IndexRecord)) (s : State) : Except Stop State :=
  let threads := s.threadCount.toNat
  match P.join entry threads (6 * s.blockCount.toNat + 7 * threads) (w.sched phase) s.file with
  | some file => barrierDestroy { s with file := file } (.ok { s with file := file })
  | none => .error (.hung, s.file)

/-- The `while` loop of `process_portion`; `current` is `current_block_count`. -/
def mergeRounds (w : World) (offset base : Nat) (current : Int) (s : State) : Except Stop State :=
  if _ : 1 < current then
    if !w.sys (.mallocMerge offset current) then barrierDestroy s (.error (.failure, s.file))
    else match runThreads w (.merge offset current) (threadMerge base s) .lock s with
      | .error e => .error e
      | .ok t =>
        mergeRounds w offset base (current / 2)
          { t with blockCount := current / 2, blockSize := int32 (t.blockSize * 2) }
  else .ok s
termination_by current.toNat
decreasing_by omega

/-- `process_portion`: the number of its records. -/
def processPortion (w : World) (currentOffset portionBytes : Nat) (s : State) :
    Except Stop (Nat × State) :=
  let mapOffset := currentOffset - currentOffset % pageSize
  let mapLength := portionBytes + (currentOffset - mapOffset)
  let startOffset :=
    if currentOffset = 0 then 8 + (currentOffset - mapOffset) else currentOffset - mapOffset
  let recsInPortion :=
    if currentOffset = 0 then (portionBytes - 8) / 16 else portionBytes / 16
  let base := mapOffset + startOffset
  if !w.sys (.openAt currentOffset portionBytes) then .error (.failure, s.file)
  else if !w.sys (.mmap mapOffset mapLength) then .error (.failure, s.file)
  else if currentOffset = 0 ∧ portionBytes < 8 then .error (.failure, s.file)
  else if portionBytes % 16 ≠ 0 ∧ currentOffset ≠ 0 then .error (.failure, s.file)
  else if recsInPortion % uint64 s.blockCount ≠ 0 then .error (.failure, s.file)
  else if !w.sys (.mallocSort currentOffset) then barrierDestroy s (.error (.failure, s.file))
  else
    let s := { s with blockSize := int32 (recsInPortion / uint64 s.blockCount : Nat) }
    match runThreads w (.sort currentOffset) (threadSort w base s) .arriveStart s with
    | .error e => .error e
    | .ok t =>
      match mergeRounds w currentOffset base t.blockCount t with
      | .error e => .error e
      | .ok u =>
        if !w.sys (.msync mapOffset mapLength) then .error (.failure, u.file)
        else if !w.sys (.munmap mapOffset mapLength) then .error (.failure, u.file)
        else .ok (recsInPortion, u)

structure RunBoundary where
  offset : Nat
  nrecords : Nat
  deriving DecidableEq

/-- A pass of `external_merge` over the runs, and the runs it makes. -/
def mergePass (w : World) :
    List RunBoundary → List UInt8 → Except Stop (List RunBoundary × List UInt8)
  | a :: b :: runs, file =>
    let totalRecs := a.nrecords + b.nrecords
    let mapOffset := a.offset - a.offset % pageSize
    let mapLength := totalRecs * 16 + (a.offset - mapOffset)
    let ptr := mapOffset + (a.offset - mapOffset)
    if !w.sys (.openAt a.offset (totalRecs * 16)) then .error (.failure, file)
    else if !w.sys (.mmap mapOffset mapLength) then .error (.failure, file)
    else
      let file :=
        mergeBlocks ptr (recordAt ptr a.nrecords) (int32 a.nrecords) (int32 b.nrecords) file
      if !w.sys (.msync mapOffset mapLength) then .error (.failure, file)
      else match mergePass w runs file with
        | .error e => .error e
        | .ok (runs, file) => .ok (⟨a.offset, totalRecs⟩ :: runs, file)
  | runs, file => .ok (runs, file)

theorem mergePass_length (w : World) {runs runs' : List RunBoundary} {file file' : List UInt8}
    (h : mergePass w runs file = .ok (runs', file')) : runs'.length = (runs.length + 1) / 2 := by
  fun_induction mergePass w runs file generalizing runs' file' with
  | case5 =>
    -- both calls succeeded, and the rest of the pass `hrest` too
    rename_i hrest ih
    obtain ⟨rfl, -⟩ := Prod.mk.inj (Except.ok.inj h)
    simp only [List.length_cons, ih hrest]
    omega
  | case6 rest file hshort =>
    obtain ⟨rfl, -⟩ := Prod.mk.inj (Except.ok.inj h)
    match rest with
    | [] => simp
    | [a] => simp
    | a :: b :: rest => exact absurd rfl (hshort a b rest)
  | _ => cases h

/-- The `for` loop of `external_merge` in the array `runs`: what is left of it below
`new_run_count`. -/
def mergePassArray (w : World) (i newRunCount : Nat) (runs : List RunBoundary) (file : List UInt8) :
    Except Stop (List RunBoundary × List UInt8) :=
  if _ : i < runs.length then
    if _ : i + 1 = runs.length then
      mergePassArray w (i + 2) (newRunCount + 1) (runs.set newRunCount runs[i]) file
    else
      let totalRecs := runs[i].nrecords + runs[i + 1].nrecords
      let mapOffset := runs[i].offset - runs[i].offset % pageSize
      let mapLength := totalRecs * 16 + (runs[i].offset - mapOffset)
      let ptr := mapOffset + (runs[i].offset - mapOffset)
      if !w.sys (.openAt runs[i].offset (totalRecs * 16)) then .error (.failure, file)
      else if !w.sys (.mmap mapOffset mapLength) then .error (.failure, file)
      else
        let file := mergeBlocks ptr (recordAt ptr runs[i].nrecords) (int32 runs[i].nrecords)
          (int32 runs[i + 1].nrecords) file
        if !w.sys (.msync mapOffset mapLength) then .error (.failure, file)
        else mergePassArray w (i + 2) (newRunCount + 1)
          (runs.set newRunCount ⟨runs[i].offset, totalRecs⟩) file
  else .ok (runs.take newRunCount, file)
termination_by runs.length - i
decreasing_by
  all_goals
    rw [List.length_set]
    omega

theorem take_set_next {k : Nat} {runs : List RunBoundary} (hk : k < runs.length) (r : RunBoundary) :
    (runs.set k r).take (k + 1) = runs.take k ++ [r] := by
  have hlen : k < (runs.set k r).length := by rwa [List.length_set]
  rw [List.take_succ_eq_append_getElem hlen, List.take_set_of_le (Nat.le_refl k),
    List.getElem_set_self]

/-- The entries from `i` on are still the old ones when they are read. -/
theorem mergePassArray_drop (w : World) {i k : Nat} (runs : List RunBoundary) (hk : k ≤ i)
    (file : List UInt8) : mergePassArray w i k runs file =
      (mergePass w (runs.drop i) file).map fun r => (runs.take k ++ r.1, r.2) := by
  fun_induction mergePassArray w i k runs file with
  | case1 i k runs file hi hlast ih =>
    have hnone : runs.drop (i + 1) = [] := List.drop_eq_nil_of_le (by omega)
    have hbehind : runs.drop (i + 2) = [] := List.drop_eq_nil_of_le (by omega)
    rw [ih (by omega), take_set_next (by omega), List.drop_set_of_lt (by omega), hbehind,
      List.drop_eq_getElem_cons hi, hnone]
    simp [mergePass, Except.map]
  | case2 i k runs file hi hmore totalRecs hopen =>
    have hnext : i + 1 < runs.length := by omega
    rw [List.drop_eq_getElem_cons hi, List.drop_eq_getElem_cons hnext, mergePass, if_pos hopen]
    rfl
  | case3 i k runs file hi hmore totalRecs mapOffset mapLength hopen hmap =>
    have hnext : i + 1 < runs.length := by omega
    rw [List.drop_eq_getElem_cons hi, List.drop_eq_getElem_cons hnext, mergePass, if_neg hopen,
      if_pos hmap]
    rfl
  | case4 i k runs file hi hmore totalRecs mapOffset mapLength ptr hopen hmap merged hsync =>
    have hnext : i + 1 < runs.length := by omega
    rw [List.drop_eq_getElem_cons hi, List.drop_eq_getElem_cons hnext, mergePass, if_neg hopen,
      if_neg hmap, if_pos hsync]
    rfl
  | case5 i k runs file hi hmore totalRecs mapOffset mapLength ptr hopen hmap merged hsync ih =>
    have hnext : i + 1 < runs.length := by omega
    rw [ih (by omega), take_set_next (by omega), List.drop_set_of_lt (by omega),
      List.drop_eq_getElem_cons hi, List.drop_eq_getElem_cons hnext, mergePass, if_neg hopen,
      if_neg hmap, if_neg hsync]
    cases mergePass w (runs.drop (i + 2)) merged with
    | error e => rfl
    | ok r => simp [Except.map, totalRecs]
  | case6 i k runs file hend =>
    rw [List.drop_eq_nil_of_le (Nat.le_of_not_lt hend)]
    simp [mergePass, Except.map]

theorem mergePassArray_eq (w : World) (runs : List RunBoundary) (file : List UInt8) :
    mergePassArray w 0 0 runs file = mergePass w runs file := by
  rw [mergePassArray_drop w runs (Nat.le_refl 0), List.drop_zero, List.take_zero]
  cases mergePass w runs file with
  | error e => rfl
  | ok r => rfl

def externalMerge (w : World) (runs : List RunBoundary) (file : List UInt8) :
    Except Stop (List UInt8) :=
  if 1 < runs.length then
    match _ : mergePass w runs file with
    | .error e => .error e
    | .ok (runs', file') => externalMerge w runs' file'
  else .ok file
termination_by runs.length
decreasing_by
  have hlen := mergePass_length w ‹_›
  omega

theorem externalMerge_one (w : World) (r : RunBoundary) (file : List UInt8) :
    externalMerge w [r] file = .ok file := by
  rw [externalMerge, List.length_singleton, if_neg (Nat.lt_irrefl 1)]

theorem externalMerge_next {w : World} {runs runs' : List RunBoundary} {file file' : List UInt8}
    (hmany : 1 < runs.length) (hpass : mergePass w runs file = .ok (runs', file')) :
    externalMerge w runs file = externalMerge w runs' file' := by
  rw [externalMerge, if_pos hmany]
  split
  · rename_i hfail
    rw [hpass] at hfail
    cases hfail
  · rename_i hdone
    rw [hpass] at hdone
    cases hdone
    rfl

/-- The `while` loop of `main` over the portions; `size` is `st.st_size`. -/
def portionLoop (w : World) (memsize : Nat) (hmem : 0 < memsize) (size : Nat) (maxRuns : Int)
    (currentOffset : Nat) (runs : List RunBoundary) (s : State) :
    Except Stop (List RunBoundary × State) :=
  if currentOffset < size then
    let remaining := size - currentOffset
    let portionBytes := if memsize ≤ remaining then memsize else remaining
    if currentOffset ≠ 8 ∧ portionBytes % 16 ≠ 0 then .error (.failure, s.file)
    else match processPortion w currentOffset portionBytes s with
      | .error e => .error e
      | .ok (portionRecs, s) =>
        -- `runs` has room for `max_runs` entries
        if maxRuns ≤ runs.length then .error (.crashed, s.file)
        else portionLoop w memsize hmem size maxRuns (currentOffset + portionBytes)
          (runs ++ [⟨currentOffset, portionRecs⟩]) s
  else .ok (runs, s)
termination_by size - currentOffset
decreasing_by
  split <;> omega

/-- `main` of sort_index.c on the three numbers of its command line. -/
def sortIndex (w : World) (memsizeArg blocks threads : Int) (file : List UInt8) : Stop :=
  let memsize := uint64 memsizeArg
  if memsize % pageSize ≠ 0 then (.failure, file)
  else if blocks ≤ 0 ∨ blocks.toNat &&& (blocks.toNat - 1) ≠ 0 ∨ blocks < int32 (threads * 4) then
    (.failure, file)
  else if !w.sys .openMain then (.failure, file)
  else if !w.sys .fstat then (.failure, file)
  else if file.length < 8 then (.failure, file)
  else if !w.sys .readHeader then (.failure, file)
  else if hmem : memsize = 0 then (.crashed, file)
  else
    let fileDataSize := file.length - 8
    let maxRuns := int32 ((fileDataSize + memsize - 1) % 2 ^ 64 / memsize : Nat)
    if !w.sys .mallocRuns then (.failure, file)
    else
      match portionLoop w memsize (Nat.pos_of_ne_zero hmem) file.length maxRuns 8 []
        ⟨blocks, threads, 0, file⟩ with
      | .error e => e
      | .ok (runs, s) =>
        if 1 < runs.length then
          match externalMerge w runs s.file with
          | .error e => e
          | .ok file => (.success, file)
        else (.success, s.file)

def maxRunsOf (memsize size : Nat) : Int :=
  int32 ((size - 8 + memsize - 1) % 2 ^ 64 / memsize : Nat)

/-- Main comes to its loop over the portions. -/
structure Accepted (w : World) (memsizeArg blocks threads : Int) (file : List UInt8) : Prop where
  pages : uint64 memsizeArg % pageSize = 0
  blocks_pos : 0 < blocks
  pow : blocks.toNat &&& (blocks.toNat - 1) = 0
  threads_le : int32 (threads * 4) ≤ blocks
  header : 8 ≤ file.length
  opens : w.sys .openMain = true ∧ w.sys .fstat = true
  reads : w.sys .readHeader = true
  array : w.sys .mallocRuns = true
  memsize_pos : 0 < uint64 memsizeArg

instance (w : World) (memsizeArg blocks threads : Int) (file : List UInt8) :
    Decidable (Accepted w memsizeArg blocks threads file) :=
  decidable_of_iff (uint64 memsizeArg % pageSize = 0 ∧ 0 < blocks ∧
      blocks.toNat &&& (blocks.toNat - 1) = 0 ∧ int32 (threads * 4) ≤ blocks ∧ 8 ≤ file.length ∧
      (w.sys .openMain = true ∧ w.sys .fstat = true) ∧ w.sys .readHeader = true ∧
      w.sys .mallocRuns = true ∧ 0 < uint64 memsizeArg)
    ⟨fun h => ⟨h.1, h.2.1, h.2.2.1, h.2.2.2.1, h.2.2.2.2.1, h.2.2.2.2.2.1, h.2.2.2.2.2.2.1,
      h.2.2.2.2.2.2.2.1, h.2.2.2.2.2.2.2.2⟩,
    fun h => ⟨h.pages, h.blocks_pos, h.pow, h.threads_le, h.header, h.opens, h.reads, h.array,
      h.memsize_pos⟩⟩

/-- What main does behind its loop. -/
def finish (w : World) : Except Stop (List RunBoundary × State) → Stop
  | .error e => e
  | .ok (runs, s) =>
    if 1 < runs.length then
      match externalMerge w runs s.file with
      | .error e => e
      | .ok file => (.success, file)
    else (.success, s.file)

theorem finish_ok {w : World} {runs : List RunBoundary} {s : State} {out : List UInt8}
    (h : externalMerge w runs s.file = .ok out) : finish w (.ok (runs, s)) = (.success, out) := by
  by_cases hmany : 1 < runs.length
  · rw [finish, if_pos hmany, h]
  · rw [externalMerge, if_neg hmany] at h
    rw [finish, if_neg hmany, Except.ok.inj h]

theorem finish_error {w : World} {runs : List RunBoundary} {s : State} {e : Stop}
    (h : externalMerge w runs s.file = .error e) : finish w (.ok (runs, s)) = e := by
  by_cases hmany : 1 < runs.length
  · rw [finish, if_pos hmany, h]
  · rw [externalMerge, if_neg hmany] at h
    cases h

section Main

variable {w : World} {memsizeArg blocks threads : Int} {file : List UInt8}

theorem sortIndex_accepted (h : Accepted w memsizeArg blocks threads file) :
    sortIndex w memsizeArg blocks threads file =
      finish w (portionLoop w (uint64 memsizeArg) h.memsize_pos file.length
        (maxRunsOf (uint64 memsizeArg) file.length) 8 [] ⟨blocks, threads, 0, file⟩) := by
  have hpow := h.pow
  have hpos := h.blocks_pos
  have hle := h.threads_le
  have hheader := h.header
  have hmem := h.memsize_pos
  have hargs : ¬(blocks ≤ 0 ∨ blocks.toNat &&& (blocks.toNat - 1) ≠ 0 ∨
      blocks < int32 (threads * 4)) := by omega
  simp only [sortIndex, h.pages, ne_eq, not_true_eq_false, if_neg hargs, h.opens.1, h.opens.2,
    h.reads, h.array, Bool.not_true, Bool.false_eq_true, if_false]
  rw [if_neg (by omega), dif_neg (by omega)]
  rfl

/-- Main refuses its arguments or a call fails, or it divides by zero. -/
theorem sortIndex_refused (h : ¬Accepted w memsizeArg blocks threads file) :
    sortIndex w memsizeArg blocks threads file = (.failure, file) ∨
      uint64 memsizeArg = 0 ∧ sortIndex w memsizeArg blocks threads file = (.crashed, file) := by
  let Refused : Stop → Prop := fun r =>
    r = (.failure, file) ∨ uint64 memsizeArg = 0 ∧ r = (.crashed, file)
  have hfails : Refused (.failure, file) := .inl rfl
  change Refused (sortIndex w memsizeArg blocks threads file)
  unfold sortIndex
  refine iteInduction (motive := Refused) (fun _ => hfails) fun hpages => ?_
  refine iteInduction (motive := Refused) (fun _ => hfails) fun hargs => ?_
  refine iteInduction (motive := Refused) (fun _ => hfails) fun hopen => ?_
  refine iteInduction (motive := Refused) (fun _ => hfails) fun hstat => ?_
  refine iteInduction (motive := Refused) (fun _ => hfails) fun hheader => ?_
  refine iteInduction (motive := Refused) (fun _ => hfails) fun hread => ?_
  by_cases hmem : uint64 memsizeArg = 0
  · rw [dif_pos hmem]
    exact .inr ⟨hmem, rfl⟩
  rw [dif_neg hmem]
  refine iteInduction (motive := Refused) (fun _ => hfails) fun harray => ?_
  rw [Bool.not_eq_true', Bool.not_eq_false] at hopen hstat hread harray
  exact absurd ⟨not_not.mp hpages, by omega, by omega, by omega, by omega, ⟨hopen, hstat⟩, hread,
    harray, by omega⟩ h

end Main

end Osisp.Lab6
