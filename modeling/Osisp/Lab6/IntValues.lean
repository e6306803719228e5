import Osisp.Lab6.MaxRuns

namespace Osisp.Lab6

open Osisp.Lib

/-- `block_index * g_block_size` for the blocks that `thread_sort` takes. -/
def sortValues (s : State) : List Int :=
  if 0 < s.threadCount then
    (List.range s.blockCount.toNat).map fun block : Nat => block * s.blockSize
  else []

/-- `merge_index * g_block_size` and `(merge_index + 1) * g_block_size` in `thread_merge`, and
`total` in `merge_blocks`. -/
def roundValues (s : State) : List Int :=
  if 0 < s.threadCount then
    (List.range (s.blockCount.toNat / 2)).flatMap fun i : Nat =>
      [(2 * i : Nat) * s.blockSize, ((2 * i : Nat) + 1) * s.blockSize, s.blockSize + s.blockSize]
  else []

/-- The rounds of `mergeRounds`, with `g_block_size *= 2` behind each. -/
def mergeRoundsValues (w : World) (offset base : Nat) (current : Int) (s : State) : List Int :=
  if _ : 1 < current then
    if !w.sys (.mallocMerge offset current) then []
    else roundValues s ++
      match runThreads w (.merge offset current) (threadMerge base s) .lock s with
      | .error _ => []
      | .ok t =>
        t.blockSize * 2 :: mergeRoundsValues w offset base (current / 2)
          { t with blockCount := current / 2, blockSize := int32 (t.blockSize * 2) }
  else []
termination_by current.toNat
decreasing_by omega

def PortionCall.blockRecs (c : PortionCall) : Nat := c.bytes / 16 / uint64 c.state.blockCount

/-- The state with `g_block_size` set for the portion. -/
def PortionCall.cut (c : PortionCall) : State := { c.state with blockSize := int32 c.blockRecs }

def PortionCall.values (w : World) (c : PortionCall) : List Int :=
  if !w.sys (.openAt c.offset c.bytes) then []
  else if !w.sys (.mmap (c.offset - c.offset % pageSize)
    (c.bytes + (c.offset - (c.offset - c.offset % pageSize)))) then []
  else if c.bytes % 16 ≠ 0 then []
  else if c.bytes / 16 % uint64 c.state.blockCount ≠ 0 then []
  else
    (c.blockRecs : Int) ::
      if !w.sys (.mallocSort c.offset) then []
      else sortValues c.cut ++
        match runThreads w (.sort c.offset) (threadSort w c.offset c.cut) .arriveStart c.cut with
        | .error _ => []
        | .ok t => mergeRoundsValues w c.offset c.offset t.blockCount t

/-- `nleft`, `nright` and `total` in the merges of a pass. -/
def mergePassValues (w : World) : List RunBoundary → List UInt8 → List Int
  | a :: b :: runs, file =>
    let totalRecs := a.nrecords + b.nrecords
    let mapOffset := a.offset - a.offset % pageSize
    let mapLength := totalRecs * 16 + (a.offset - mapOffset)
    let ptr := mapOffset + (a.offset - mapOffset)
    if !w.sys (.openAt a.offset (totalRecs * 16)) then []
    else if !w.sys (.mmap mapOffset mapLength) then []
    else
      (a.nrecords : Int) :: (b.nrecords : Int) :: (int32 a.nrecords + int32 b.nrecords) ::
        if !w.sys (.msync mapOffset mapLength) then []
        else mergePassValues w runs
          (mergeBlocks ptr (recordAt ptr a.nrecords) (int32 a.nrecords) (int32 b.nrecords) file)
  | _, _ => []

def externalMergeValues (w : World) (runs : List RunBoundary) (file : List UInt8) : List Int :=
  if 1 < runs.length then
    mergePassValues w runs file ++
      match _ : mergePass w runs file with
      | .error _ => []
      | .ok (runs', file') => externalMergeValues w runs' file'
  else []
termination_by runs.length
decreasing_by
  have hlen := mergePass_length w ‹_›
  omega

/-- The values behind the loop of main. -/
def finishValues (w : World) : Except Stop (List RunBoundary × State) → List Int
  | .error _ => []
  | .ok (runs, s) => externalMergeValues w runs s.file

def intValues (w : World) (memsizeArg blocks threads : Int) (file : List UInt8) : List Int :=
  if h : Accepted w memsizeArg blocks threads file then
    (calls w memsizeArg blocks threads file).flatMap (PortionCall.values w) ++
      finishValues w (portionLoop w (uint64 memsizeArg) h.memsize_pos file.length
        (maxRunsOf (uint64 memsizeArg) file.length) 8 [] ⟨blocks, threads, 0, file⟩)
  else []

/-- No value is changed by the conversion. -/
def Exact (values : List Int) : Prop := ∀ x ∈ values, int32 x = x

theorem int32_natCast_iff (n : Nat) : int32 n = n ↔ n < 2 ^ 31 := by
  rw [int32_cast]
  split_ifs <;> omega

theorem exact_nil : Exact [] := fun _ hx => absurd hx List.not_mem_nil

theorem exact_cons {x : Int} {xs : List Int} : Exact (x :: xs) ↔ int32 x = x ∧ Exact xs :=
  List.forall_mem_cons

theorem exact_append {xs ys : List Int} : Exact (xs ++ ys) ↔ Exact xs ∧ Exact ys :=
  List.forall_mem_append

section Portion

variable {w : World} {s : State} {count size : Nat}

theorem sortValues_exact (hcount : s.blockCount = count) (hsize : s.blockSize = size)
    (hsmall : count * size < 2 ^ 31) : Exact (sortValues s) := by
  unfold sortValues
  split_ifs
  · intro x hx
    obtain ⟨block, hblock, rfl⟩ := List.mem_map.mp hx
    rw [List.mem_range, hcount, Int.toNat_natCast] at hblock
    have hle : block * size ≤ count * size := Nat.mul_le_mul_right size (Nat.le_of_lt hblock)
    rw [hsize, ← Int.natCast_mul, int32_natCast_iff]
    omega
  · exact exact_nil

theorem roundValues_exact (hcount : s.blockCount = (2 * count : Nat)) (hsize : s.blockSize = size)
    (hsmall : 2 * count * size < 2 ^ 31) : Exact (roundValues s) := by
  unfold roundValues
  split_ifs
  · intro x hx
    obtain ⟨i, hi, hx⟩ := List.mem_flatMap.mp hx
    rw [List.mem_range, hcount, Int.toNat_natCast, Nat.mul_div_cancel_left count Nat.two_pos] at hi
    have hpair : (2 * i + 1) * size + size ≤ 2 * count * size := by
      rw [← Nat.succ_mul]
      exact Nat.mul_le_mul_right size (by omega)
    have hleft : (2 * i) * size ≤ (2 * i + 1) * size := Nat.mul_le_mul_right size (Nat.le_succ _)
    have hone : 1 * size ≤ (2 * i + 1) * size := Nat.mul_le_mul_right size (by omega)
    have hright : ((2 * i : Nat) : Int) + 1 = (2 * i + 1 : Nat) := rfl
    rw [hsize, hright, ← Int.natCast_mul, ← Int.natCast_mul, ← Int.natCast_add] at hx
    simp only [List.mem_cons, List.not_mem_nil, or_false] at hx
    rcases hx with rfl | rfl | rfl
    · rw [int32_natCast_iff]
      omega
    · rw [int32_natCast_iff]
      omega
    · rw [int32_natCast_iff]
      omega
  · exact exact_nil

/-- Where the portion has fewer than `2 ^ 31` records, all rounds are exact. -/
theorem mergeRoundsValues_exact (offset base : Nat) {k : Nat} (hthreads : 0 < s.threadCount)
    (hcount : s.blockCount = (2 ^ k : Nat)) (hsize : s.blockSize = size)
    (hsmall : 2 ^ k * size < 2 ^ 31) :
    Exact (mergeRoundsValues w offset base (2 ^ k : Nat) s) := by
  induction k generalizing s size with
  | zero =>
    rw [mergeRoundsValues, dif_neg (by decide)]
    exact exact_nil
  | succ k ih =>
    have hpow : 2 ^ (k + 1) = 2 * 2 ^ k := by rw [Nat.pow_succ, Nat.mul_comm]
    have hpos := Nat.two_pow_pos k
    rw [hpow] at hcount hsmall ⊢
    have hmany : (1 : Int) < (2 * 2 ^ k : Nat) := by omega
    have hhalf : ((2 * 2 ^ k : Nat) : Int) / 2 = (2 ^ k : Nat) := by omega
    have hlevel : 2 ^ k * (2 * size) = 2 * 2 ^ k * size := by
      rw [Nat.mul_comm 2 (2 ^ k), Nat.mul_assoc]
    have hle : 1 * (2 * size) ≤ 2 ^ k * (2 * size) := Nat.mul_le_mul_right _ hpos
    obtain ⟨file, hjoined⟩ := runThreads_merge w hthreads (.merge offset (2 * 2 ^ k : Nat)) base
    rw [mergeRoundsValues, dif_pos hmany, hjoined]
    split_ifs
    · exact exact_nil
    rw [exact_append, exact_cons]
    have hdouble : s.blockSize * 2 = (2 * size : Nat) := by omega
    have hdoubled : int32 (2 * size : Nat) = (2 * size : Nat) :=
      (int32_natCast_iff _).mpr (by omega)
    refine ⟨roundValues_exact hcount hsize hsmall, ?_, ?_⟩
    · rw [hdouble, hdoubled]
    · rw [hhalf]
      exact ih hthreads rfl (by rw [hdouble, hdoubled]) (hlevel ▸ hsmall)

/-- Where no call fails, the last `g_block_size` is the number of records. -/
theorem mergeRoundsValues_small (hw : w.Works) (offset base : Nat) {k : Nat}
    (hsize : s.blockSize = size) (hthreads : 0 < s.threadCount) (hfits : size < 2 ^ 31)
    (hexact : Exact (mergeRoundsValues w offset base (2 ^ k : Nat) s)) : 2 ^ k * size < 2 ^ 31 := by
  induction k generalizing s size with
  | zero => rwa [Nat.pow_zero, Nat.one_mul]
  | succ k ih =>
    have hpow : 2 ^ (k + 1) = 2 * 2 ^ k := by rw [Nat.pow_succ, Nat.mul_comm]
    have hpos := Nat.two_pow_pos k
    rw [hpow] at hexact ⊢
    have hmany : (1 : Int) < (2 * 2 ^ k : Nat) := by omega
    have hhalf : ((2 * 2 ^ k : Nat) : Int) / 2 = (2 ^ k : Nat) := by omega
    obtain ⟨file, hjoined⟩ := runThreads_merge w hthreads (.merge offset (2 * 2 ^ k : Nat)) base
    rw [mergeRoundsValues, dif_pos hmany, if_neg (hw.call _), hjoined, exact_append, exact_cons,
      hhalf] at hexact
    obtain ⟨-, hdoubled, hrest⟩ := hexact
    have hdouble : s.blockSize * 2 = (2 * size : Nat) := by omega
    rw [hdouble, int32_natCast_iff] at hdoubled
    have hnext : int32 (s.blockSize * 2) = (2 * size : Nat) := by
      rw [hdouble, int32_natCast_iff]
      exact hdoubled
    have hlast : 2 ^ k * (2 * size) < 2 ^ 31 :=
      ih (s := ⟨(2 ^ k : Nat), s.threadCount, int32 (s.blockSize * 2), file⟩) hnext hthreads
        hdoubled hrest
    rwa [Nat.mul_comm 2 (2 ^ k), Nat.mul_assoc]

end Portion

namespace PortionCall

variable {w : World} {c : PortionCall} {k : Nat}

theorem cut_blockCount : c.cut.blockCount = c.state.blockCount := by rw [cut]

theorem cut_threadCount : c.cut.threadCount = c.state.threadCount := by rw [cut]

theorem cut_blockSize : c.cut.blockSize = int32 c.blockRecs := by rw [cut]

theorem blocks_mul (hcount : c.state.blockCount = (2 ^ k : Nat)) (hk : k < 31)
    (hdivides : Divides c.bytes c.state.blockCount) : 2 ^ k * c.blockRecs = c.bytes / 16 := by
  have hrest := hdivides.2
  rw [blockRecs, uint64_blocks hcount hk]
  rw [uint64_blocks hcount hk] at hrest
  exact Nat.mul_div_cancel' (Nat.dvd_of_mod_eq_zero hrest)

theorem values_refused (h : ¬Divides c.bytes c.state.blockCount) : c.values w = [] := by
  by_cases hwhole : c.bytes % 16 = 0
  · have hrest : c.bytes / 16 % uint64 c.state.blockCount ≠ 0 := fun hrest => h ⟨hwhole, hrest⟩
    simp only [values, if_pos hrest, ite_self]
  · simp only [values, if_pos hwhole, ite_self]

theorem values_none (hthreads : ¬0 < c.state.threadCount) (hsmall : c.blockRecs < 2 ^ 31) :
    Exact (c.values w) := by
  rw [← cut_threadCount] at hthreads
  have hsort : sortValues c.cut = [] := if_neg hthreads
  rw [values, runThreads_none w hthreads, hsort, List.append_nil, ite_self]
  split_ifs
  · exact exact_nil
  · exact exact_nil
  · exact exact_nil
  · exact exact_nil
  · exact exact_cons.mpr ⟨(int32_natCast_iff _).mpr hsmall, exact_nil⟩

/-- A portion of fewer than `2 ^ 31` records is exact. -/
theorem values_exact (hthreads : 0 < c.state.threadCount)
    (hcount : c.state.blockCount = (2 ^ k : Nat)) (hk : k < 31)
    (hsmall : c.bytes / 16 < 2 ^ 31) : Exact (c.values w) := by
  by_cases hdivides : Divides c.bytes c.state.blockCount
  · have hmul := blocks_mul hcount hk hdivides
    have hle : 1 * c.blockRecs ≤ 2 ^ k * c.blockRecs :=
      Nat.mul_le_mul_right _ (Nat.two_pow_pos k)
    have hexact : int32 c.blockRecs = c.blockRecs := (int32_natCast_iff _).mpr (by omega)
    have hcut : c.cut.blockCount = (2 ^ k : Nat) := cut_blockCount.trans hcount
    have hsize : c.cut.blockSize = c.blockRecs := cut_blockSize.trans hexact
    rw [← hmul] at hsmall
    have hlive : 0 < c.cut.threadCount := by rwa [cut_threadCount]
    obtain ⟨file, hsorted⟩ := runThreads_sort w hlive (.sort c.offset) c.offset
    rw [values, hsorted]
    split_ifs
    · exact exact_nil
    · exact exact_nil
    · exact exact_nil
    · exact exact_nil
    · exact exact_cons.mpr ⟨hexact, exact_nil⟩
    generalize c.cut = t at hlive hcut hsize ⊢
    rw [exact_cons, exact_append]
    refine ⟨hexact, sortValues_exact hcut hsize hsmall, ?_⟩
    dsimp only
    rw [hcut]
    exact mergeRoundsValues_exact c.offset c.offset hlive rfl hsize hsmall
  · rw [values_refused hdivides]
    exact exact_nil

theorem blockRecs_small (hw : w.Works) (hdivides : Divides c.bytes c.state.blockCount)
    (hexact : Exact (c.values w)) : c.blockRecs < 2 ^ 31 := by
  rw [values, if_neg (hw.call _), if_neg (hw.call _), if_neg (not_not.mpr hdivides.1),
    if_neg (not_not.mpr hdivides.2), exact_cons] at hexact
  exact (int32_natCast_iff _).mp hexact.1

/-- With threads, in a portion of fewer than `2 ^ 31` records only. -/
theorem values_small (hw : w.Works) (hthreads : 0 < c.state.threadCount)
    (hcount : c.state.blockCount = (2 ^ k : Nat)) (hk : k < 31)
    (hdivides : Divides c.bytes c.state.blockCount) (hexact : Exact (c.values w)) :
    c.bytes / 16 < 2 ^ 31 := by
  have hfits := blockRecs_small hw hdivides hexact
  have hlive : 0 < c.cut.threadCount := by rwa [cut_threadCount]
  obtain ⟨file, hsorted⟩ := runThreads_sort w hlive (.sort c.offset) c.offset
  rw [values, if_neg (hw.call _), if_neg (hw.call _), if_neg (not_not.mpr hdivides.1),
    if_neg (not_not.mpr hdivides.2), if_neg (hw.call _), hsorted, exact_cons,
    exact_append] at hexact
  obtain ⟨hrecs, -, hrounds⟩ := hexact
  have hcut : c.cut.blockCount = (2 ^ k : Nat) := cut_blockCount.trans hcount
  have hsize : c.cut.blockSize = c.blockRecs := cut_blockSize.trans hrecs
  rw [← blocks_mul hcount hk hdivides]
  generalize c.cut = t at hlive hcut hsize hrounds
  dsimp only at hrounds
  rw [hcut] at hrounds
  exact mergeRoundsValues_small (s := ⟨(2 ^ k : Nat), t.threadCount, t.blockSize, file⟩) hw c.offset
    c.offset hsize hlive hfits hrounds

end PortionCall

/-- All records of the runs. -/
def totalRecs (runs : List RunBoundary) : Nat := (runs.map RunBoundary.nrecords).sum

theorem totalRecs_cons (a : RunBoundary) (runs : List RunBoundary) :
    totalRecs (a :: runs) = a.nrecords + totalRecs runs := by
  rw [totalRecs, List.map_cons, List.sum_cons, totalRecs]

theorem totalRecs_append (runs : List RunBoundary) (a : RunBoundary) :
    totalRecs (runs ++ [a]) = totalRecs runs + a.nrecords := by
  rw [totalRecs, List.map_append, List.sum_append, totalRecs, List.map_singleton,
    List.sum_singleton]

section Merge

variable {w : World} {runs : List RunBoundary} {file : List UInt8}

theorem mergePass_totalRecs {runs' : List RunBoundary} {file' : List UInt8}
    (h : mergePass w runs file = .ok (runs', file')) : totalRecs runs' = totalRecs runs := by
  fun_induction mergePass w runs file generalizing runs' file' with
  | case1 => cases h
  | case2 => cases h
  | case3 => cases h
  | case4 => cases h
  | case5 =>
    -- the rest of the pass `hrest` ended too
    rename_i hrest ih
    obtain ⟨rfl, -⟩ := Prod.mk.inj (Except.ok.inj h)
    rw [totalRecs_cons, totalRecs_cons, totalRecs_cons, ih hrest]
    exact Nat.add_assoc _ _ _
  | case6 =>
    obtain ⟨rfl, -⟩ := Prod.mk.inj (Except.ok.inj h)
    rfl

theorem merge_exact_iff (a b : Nat) (values : List Int) :
    Exact (a :: b :: (int32 a + int32 b) :: values) ↔ a + b < 2 ^ 31 ∧ Exact values := by
  rw [exact_cons, exact_cons, exact_cons, int32_natCast_iff, int32_natCast_iff]
  constructor
  · rintro ⟨ha, hb, htotal, hvalues⟩
    rw [int32_of_lt ha, int32_of_lt hb, ← Int.natCast_add, int32_natCast_iff] at htotal
    exact ⟨htotal, hvalues⟩
  · rintro ⟨htotal, hvalues⟩
    have ha : a < 2 ^ 31 := by omega
    have hb : b < 2 ^ 31 := by omega
    refine ⟨ha, hb, ?_, hvalues⟩
    rw [int32_of_lt ha, int32_of_lt hb, ← Int.natCast_add, int32_natCast_iff]
    exact htotal

theorem mergePassValues_exact (hsmall : totalRecs runs < 2 ^ 31) :
    Exact (mergePassValues w runs file) := by
  fun_induction mergePassValues w runs file with
  | case1 => exact exact_nil
  | case2 => exact exact_nil
  | case3 a b runs file _ _ _ _ _ _ ih =>
    rw [totalRecs_cons, totalRecs_cons] at hsmall
    refine (merge_exact_iff _ _ _).mpr ⟨by omega, ?_⟩
    split_ifs
    · exact exact_nil
    · exact ih (by omega)
  | case4 => exact exact_nil

theorem externalMergeValues_exact (hsmall : totalRecs runs < 2 ^ 31) :
    Exact (externalMergeValues w runs file) := by
  fun_induction externalMergeValues w runs file with
  | case1 runs file hmany ih =>
    refine exact_append.mpr ⟨mergePassValues_exact hsmall, ?_⟩
    split
    · exact exact_nil
    · rename_i runs' file' hpass
      exact ih runs' file' hpass (mergePass_totalRecs hpass ▸ hsmall)
  | case2 => exact exact_nil

/-- Where no call fails, an exact pass leaves no run of `2 ^ 31` records. -/
theorem mergePassValues_small (hw : w.Works) (hall : ∀ r ∈ runs, r.nrecords < 2 ^ 31)
    (hexact : Exact (mergePassValues w runs file)) :
    ∃ runs' file', mergePass w runs file = .ok (runs', file') ∧
      ∀ r ∈ runs', r.nrecords < 2 ^ 31 := by
  fun_induction mergePassValues w runs file with
  | case1 a b runs file _ hopen => exact absurd hopen (hw.call _)
  | case2 a b runs file _ _ _ _ hmap => exact absurd hmap (hw.call _)
  | case3 a b runs file _ _ _ _ _ _ ih =>
    rw [if_neg (hw.call _), merge_exact_iff] at hexact
    obtain ⟨htotal, hrest⟩ := hexact
    have hmem : ∀ r ∈ runs, r.nrecords < 2 ^ 31 := fun r hr =>
      hall r (List.mem_cons_of_mem a (List.mem_cons_of_mem b hr))
    obtain ⟨runs', file', hpass, hruns'⟩ := ih hmem hrest
    refine ⟨⟨a.offset, a.nrecords + b.nrecords⟩ :: runs', file', ?_, ?_⟩
    · rw [mergePass, if_neg (hw.call _), if_neg (hw.call _)]
      dsimp only at hpass ⊢
      rw [if_neg (hw.call _), hpass]
    · exact List.forall_mem_cons.mpr ⟨htotal, hruns'⟩
  | case4 runs file hshort =>
    refine ⟨runs, file, ?_, hall⟩
    rcases runs with _ | ⟨a, _ | ⟨b, rest⟩⟩
    · rfl
    · rfl
    · exact absurd rfl (hshort a b rest)

/-- So if all passes are exact, the last run is short. -/
theorem externalMergeValues_small (hw : w.Works) (hall : ∀ r ∈ runs, r.nrecords < 2 ^ 31)
    (hexact : Exact (externalMergeValues w runs file)) : totalRecs runs < 2 ^ 31 := by
  fun_induction externalMergeValues w runs file with
  | case1 runs file hmany ih =>
    obtain ⟨hfirst, hrest⟩ := exact_append.mp hexact
    obtain ⟨runs', file', hpass, hall'⟩ := mergePassValues_small hw hall hfirst
    rw [← mergePass_totalRecs hpass]
    refine ih runs' file' hpass hall' ?_
    split at hrest
    · rename_i hfail
      rw [hpass] at hfail
      cases hfail
    · rename_i hdone
      rw [hpass] at hdone
      cases hdone
      exact hrest
  | case2 runs file hone =>
    rcases runs with _ | ⟨a, _ | ⟨b, rest⟩⟩
    · exact Nat.two_pow_pos 31
    · rw [totalRecs_cons]
      exact hall a List.mem_cons_self
    · rw [List.length_cons, List.length_cons] at hone
      omega

end Merge

section Loop

variable {w : World} {memsize size offset : Nat} {hmem : 0 < memsize} {maxRuns : Int}

/-- The stored runs hold the data, and each of them a portion of it. -/
theorem portionLoop_stored {runs runs' : List RunBoundary} {s t : State}
    (hmax : maxRuns < 2 ^ 31) (hoffset : offset ≠ 0) (hcount : 1 ≤ s.blockCount)
    (hend : offset ≤ size) (hruns : runs.length < 2 ^ 31)
    (h : portionLoop w memsize hmem size maxRuns offset runs s = .ok (runs', t)) :
    16 * totalRecs runs' = 16 * totalRecs runs + (size - offset) ∧
      size - offset + memsize * runs.length ≤ memsize * runs'.length ∧
      runs'.length < 2 ^ 31 := by
  fun_induction portionLoop w memsize hmem size maxRuns offset runs s with
  | case1 => cases h
  | case2 => cases h
  | case3 => cases h
  | case4 offset runs s hmore remaining bytes hwhole n t hrun hroom ih =>
    obtain ⟨rfl, hdivides, hone, -⟩ := (processPortion_total w hoffset bytes hcount).of_ok hrun
    have hlength (r : RunBoundary) : (runs ++ [r]).length = runs.length + 1 := List.length_append
    have hle : bytes ≤ size - offset ∧ bytes ≤ memsize := by
      simp only [bytes, remaining]
      split_ifs <;> omega
    have hrecs : 16 * (bytes / 16) = bytes := by
      have hragged := hdivides.1
      omega
    obtain ⟨hdata, hspan, hlen⟩ := ih (by omega) (Int.le_of_eq hone.symm) (by omega)
      (by rw [hlength]; omega) h
    rw [totalRecs_append, Nat.mul_add, hrecs] at hdata
    rw [hlength, Nat.mul_succ] at hspan
    exact ⟨by omega, by omega, hlen⟩
  | case5 offset runs s hdone =>
    obtain ⟨rfl, -⟩ := Prod.mk.inj (Except.ok.inj h)
    have hrest : size - offset = 0 := by omega
    rw [hrest]
    exact ⟨rfl, by omega, hruns⟩

/-- Where no call fails, there is room, and the portions divide, the loop ends with the runs. -/
theorem portionLoop_completes (hw : w.Works) (h16 : 16 ∣ memsize) {runs : List RunBoundary}
    {s : State} {limit : Nat} (hoffset : offset ≠ 0) (hthreads : 0 < s.threadCount)
    (hcount : 1 ≤ s.blockCount)
    (hdata : (size - offset) % 16 = 0)
    (hdivides : offset < size → Divides (portionBytes memsize size offset) s.blockCount)
    (hlimit : portionBytes memsize size offset / 16 ≤ limit)
    (hruns : ∀ r ∈ runs, r.nrecords ≤ limit)
    (hroom : size - offset ≤ memsize * (maxRuns - runs.length).toNat) :
    ∃ runs' t, portionLoop w memsize hmem size maxRuns offset runs s = .ok (runs', t) ∧
      ∀ r ∈ runs', r.nrecords ≤ limit := by
  fun_induction portionLoop w memsize hmem size maxRuns offset runs s with
  | case1 offset runs s hmore remaining bytes hragged =>
    exact absurd (hdivides hmore).1 hragged.2
  | case2 offset runs s hmore remaining bytes hwhole e hrun =>
    have hfailed := (processPortion_total w hoffset bytes hcount).of_error hrun
    exact absurd (hdivides hmore) (hfailed.2 hthreads hw)
  | case3 offset runs s hmore remaining bytes hwhole n t hrun hfull =>
    have hnone : (maxRuns - runs.length).toNat = 0 := by omega
    rw [hnone, Nat.mul_zero] at hroom
    omega
  | case4 offset runs s hmore remaining bytes hwhole n t hrun hnotfull ih =>
    obtain ⟨rfl, hthis, hone, hsame, -⟩ := (processPortion_total w hoffset bytes hcount).of_ok hrun
    have hlength (r : RunBoundary) : (runs ++ [r]).length = runs.length + 1 := List.length_append
    have hmem16 := Nat.mod_eq_zero_of_dvd h16
    have hbytes : bytes = portionBytes memsize size offset := rfl
    have hthis16 := hthis.1
    have hnext : portionBytes memsize size (offset + bytes) ≤ bytes ∧
        portionBytes memsize size (offset + bytes) % 16 = 0 ∧
        (bytes = memsize ∨ offset + bytes = size) := by
      rw [hbytes] at hthis16 ⊢
      unfold portionBytes at *
      split_ifs at * <;> omega
    obtain ⟨hless, hnext16, hspan⟩ := hnext
    have hlater : Divides (portionBytes memsize size (offset + bytes)) t.blockCount := by
      rw [hone]
      exact ⟨hnext16, Nat.mod_one _⟩
    have hplace : (maxRuns - runs.length).toNat =
        (maxRuns - (runs.length + 1 : Nat)).toNat + 1 := by omega
    rw [hplace, Nat.mul_succ] at hroom
    refine ih (by omega) (hsame ▸ hthreads) (Int.le_of_eq hone.symm) (by omega) (fun _ => hlater)
      (Nat.le_trans (Nat.div_le_div_right hless) hlimit) ?_ (by rw [hlength]; omega)
    intro r hr
    rcases List.mem_append.mp hr with hr | hr
    · exact hruns r hr
    · rw [List.mem_singleton.mp hr]
      exact hlimit
  | case5 offset runs s hdone => exact ⟨runs, s, rfl, hruns⟩

end Loop

section Main

variable {w : World} {memsizeArg blocks threads : Int} {file : List UInt8}

theorem maxRunsOf_lt (memsize size : Nat) : maxRunsOf memsize size < 2 ^ 31 := by
  rw [maxRunsOf, int32_cast]
  split_ifs <;> omega

theorem Accepted.blocks_eq (h : Accepted w memsizeArg blocks threads file)
    (hint : blocks < 2 ^ 31) : ∃ k < 31, blocks = (2 ^ k : Nat) := by
  obtain ⟨k, rfl⟩ := h.blocks_pow
  exact ⟨k, lt_of_two_pow_int hint, rfl⟩

/-- The runs that are divided up have fewer than `2 ^ 31` records: those of the first portion,
which the other ones do not exceed, and, where all portions are stored and merged, those of the
file. Without threads nobody divides them up, and it is the blocks that have fewer. -/
def Narrow (memsizeArg blocks threads : Int) (file : List UInt8) : Prop :=
  let memsize := uint64 memsizeArg
  let data := file.length - 8
  let portionRecs := portionBytes memsize file.length 8 / 16
  Accepted calmWorld memsizeArg blocks threads file → 0 < data →
    Divides (portionBytes memsize file.length 8) blocks →
      if 0 < threads then
        portionRecs < 2 ^ 31 ∧
          (data / 16 < 2 ^ 31 ∨ data % 16 ≠ 0 ∨ 2 ^ 31 ≤ (data + memsize - 1) / memsize)
      else portionRecs / blocks.toNat < 2 ^ 31

theorem le_mul_ceil {memsize : Nat} (hmem : 0 < memsize) (data : Nat) :
    data ≤ memsize * ((data + memsize - 1) / memsize) := by
  have hsplit := Nat.div_add_mod (data + memsize - 1) memsize
  have hrest := Nat.mod_lt (data + memsize - 1) hmem
  omega

theorem ceil_le {memsize data n : Nat} (hmem : 0 < memsize) (h : data ≤ memsize * n) :
    (data + memsize - 1) / memsize ≤ n := by
  apply Nat.le_of_lt_succ
  rw [Nat.div_lt_iff_lt_mul hmem, Nat.succ_mul, Nat.mul_comm n]
  omega

/-- The values of the loop where threads go through the portions. -/
theorem loopValues_exact (hint : blocks < 2 ^ 31) (hacc : Accepted w memsizeArg blocks threads file)
    (hthreads : 0 < threads)
    (hfirst : portionBytes (uint64 memsizeArg) file.length 8 / 16 < 2 ^ 31) :
    Exact ((calls w memsizeArg blocks threads file).flatMap (PortionCall.values w)) := by
  obtain ⟨k, hkint, hk⟩ := hacc.blocks_eq hint
  have hpos : 1 ≤ (⟨blocks, threads, 0, file⟩ : State).blockCount := hacc.blocks_pos
  intro x hx
  rw [calls, dif_pos hacc] at hx
  obtain ⟨c, hc, hx⟩ := List.mem_flatMap.mp hx
  obtain ⟨-, hle, hsame, hblocks⟩ := portionCalls_state (Nat.succ_ne_zero 7) hpos c hc
  have hlive : 0 < c.state.threadCount := hsame ▸ hthreads
  have hsmall : c.bytes / 16 < 2 ^ 31 := Nat.lt_of_le_of_lt (Nat.div_le_div_right hle) hfirst
  rcases hblocks with hfull | hone
  · exact PortionCall.values_exact hlive (hfull.trans hk) hkint hsmall x hx
  · exact PortionCall.values_exact (k := 0) hlive hone (by omega) hsmall x hx

/-- The values behind the loop, where the file is short or does not come to its passes. -/
theorem passes_exact (hacc : Accepted w memsizeArg blocks threads file)
    (hfile : (file.length - 8) / 16 < 2 ^ 31 ∨ (file.length - 8) % 16 ≠ 0 ∨
      2 ^ 31 ≤ (file.length - 8 + uint64 memsizeArg - 1) / uint64 memsizeArg) :
    Exact (finishValues w (portionLoop w (uint64 memsizeArg) hacc.memsize_pos file.length
      (maxRunsOf (uint64 memsizeArg) file.length) 8 [] ⟨blocks, threads, 0, file⟩)) := by
  have hpos : 1 ≤ (⟨blocks, threads, 0, file⟩ : State).blockCount := hacc.blocks_pos
  cases hloop : portionLoop w (uint64 memsizeArg) hacc.memsize_pos file.length
      (maxRunsOf (uint64 memsizeArg) file.length) 8 [] ⟨blocks, threads, 0, file⟩ with
  | error e => exact exact_nil
  | ok r =>
    obtain ⟨runs, s⟩ := r
    have hheader : (8 : Nat) ≠ 0 := Nat.succ_ne_zero 7
    obtain ⟨hrecs, hspan, hlen⟩ := portionLoop_stored (maxRunsOf_lt _ _) hheader hpos hacc.header
      (by rw [List.length_nil]; decide) hloop
    have hceil := ceil_le (n := runs.length) hacc.memsize_pos (Nat.le_of_add_right_le hspan)
    have hnone : totalRecs [] = 0 := rfl
    rw [hnone, Nat.mul_zero, Nat.zero_add] at hrecs
    exact externalMergeValues_exact (by omega)

theorem values_exact_of_narrow (hint : blocks < 2 ^ 31)
    (h : Narrow memsizeArg blocks threads file) (w : World) :
    Exact (intValues w memsizeArg blocks threads file) := by
  rw [intValues]
  split_ifs with hacc
  · have hpos : 1 ≤ (⟨blocks, threads, 0, file⟩ : State).blockCount := hacc.blocks_pos
    let c : PortionCall :=
      ⟨8, portionBytes (uint64 memsizeArg) file.length 8, ⟨blocks, threads, 0, file⟩⟩
    by_cases hdata : 8 < file.length
    · -- a portion that does not divide, or has no threads, is the only call
      have hrefused : Exact (c.values w) →
          (0 < threads → ¬Divides (portionBytes (uint64 memsizeArg) file.length 8) blocks) →
            Exact ((calls w memsizeArg blocks threads file).flatMap (PortionCall.values w) ++
              finishValues w (portionLoop w (uint64 memsizeArg) hacc.memsize_pos file.length
                (maxRunsOf (uint64 memsizeArg) file.length) 8 [] ⟨blocks, threads, 0, file⟩)) := by
        intro hvalues hno
        obtain ⟨hcalls, e, -, hloop⟩ := portionLoop_refused w hacc.memsize_pos
          (maxRunsOf (uint64 memsizeArg) file.length) hdata hpos hno
        rw [calls, dif_pos hacc, hcalls, hloop, List.flatMap_singleton]
        exact exact_append.mpr ⟨hvalues, exact_nil⟩
      by_cases hdivides : Divides (portionBytes (uint64 memsizeArg) file.length 8) blocks
      · have hnarrow := h (hacc.works fun _ => rfl) (by omega) hdivides
        split_ifs at hnarrow with hthreads
        · exact exact_append.mpr
            ⟨loopValues_exact hint hacc hthreads hnarrow.1, passes_exact hacc hnarrow.2⟩
        · refine hrefused (PortionCall.values_none hthreads ?_) fun hlive => absurd hlive hthreads
          obtain ⟨k, hk, rfl⟩ := hacc.blocks_eq hint
          rw [PortionCall.blockRecs, uint64_blocks rfl hk]
          exact hnarrow
      · refine hrefused ?_ fun _ => hdivides
        rw [PortionCall.values_refused hdivides]
        exact exact_nil
    · rw [calls, dif_pos hacc, portionCalls, if_neg hdata, portionLoop, if_neg hdata]
      exact externalMergeValues_exact (Nat.two_pow_pos 31)
  · exact exact_nil

theorem firstPortion_exact (hacc : Accepted w memsizeArg blocks threads file)
    (hdata : 8 < file.length)
    (h : Exact ((calls w memsizeArg blocks threads file).flatMap (PortionCall.values w))) :
    Exact (PortionCall.values w
      ⟨8, portionBytes (uint64 memsizeArg) file.length 8, ⟨blocks, threads, 0, file⟩⟩) := by
  intro x hx
  refine h x (List.mem_flatMap.mpr ⟨_, ?_, hx⟩)
  rw [calls, dif_pos hacc]
  exact portionCalls_head hdata fun hrefused => hrefused.1 rfl

/-- Where no call fails and the first portion is short, the file is if the values of the passes are
exact, and there are any. -/
theorem mergedFile_small (hw : w.Works) (hthreads : 0 < threads) (hsize : file.length < 2 ^ 63)
    (hacc : Accepted w memsizeArg blocks threads file)
    (hdivides : Divides (portionBytes (uint64 memsizeArg) file.length 8) blocks)
    (hfirst : portionBytes (uint64 memsizeArg) file.length 8 / 16 < 2 ^ 31)
    (hwhole : (file.length - 8) % 16 = 0)
    (hfew : (file.length - 8 + uint64 memsizeArg - 1) / uint64 memsizeArg < 2 ^ 31)
    (h : Exact (finishValues w (portionLoop w (uint64 memsizeArg) hacc.memsize_pos file.length
      (maxRunsOf (uint64 memsizeArg) file.length) 8 [] ⟨blocks, threads, 0, file⟩))) :
    (file.length - 8) / 16 < 2 ^ 31 := by
  have hheader : (8 : Nat) ≠ 0 := Nat.succ_ne_zero 7
  have hmem := hacc.memsize_pos
  have h16 : 16 ∣ uint64 memsizeArg := dvd_of_pages hacc.pages
  by_contra hlarge
  have hfull : uint64 memsizeArg ≤ file.length - 8 := by
    rw [portionBytes] at hfirst
    split_ifs at hfirst <;> omega
  have hruns : maxRunsOf (uint64 memsizeArg) file.length =
      ((file.length - 8 + uint64 memsizeArg - 1) / uint64 memsizeArg : Nat) := by
    rw [maxRunsOf, Nat.mod_eq_of_lt (by omega)]
    exact int32_of_lt hfew
  have hroom : file.length - 8 ≤ uint64 memsizeArg *
      (maxRunsOf (uint64 memsizeArg) file.length - ([] : List RunBoundary).length).toNat := by
    rw [hruns, List.length_nil, Int.natCast_zero, Int.sub_zero, Int.toNat_natCast]
    exact le_mul_ceil hmem _
  have hcount : 1 ≤ (⟨blocks, threads, 0, file⟩ : State).blockCount := hacc.blocks_pos
  obtain ⟨runs, s, hloop, hall⟩ := portionLoop_completes hw h16 hheader hthreads hcount hwhole
    (fun _ => hdivides) (Nat.le_refl _) (fun r hr => absurd hr List.not_mem_nil) hroom
  obtain ⟨hrecs, -, -⟩ := portionLoop_stored (maxRunsOf_lt _ _) hheader hcount hacc.header
    (by rw [List.length_nil]; decide) hloop
  rw [hloop] at h
  have hsmall := externalMergeValues_small hw (fun r hr => Nat.lt_of_le_of_lt (hall r hr) hfirst) h
  have hnone : totalRecs [] = 0 := rfl
  omega

theorem narrow_of_values_exact (hint : blocks < 2 ^ 31) (hsize : file.length < 2 ^ 63)
    (h : Exact (intValues calmWorld memsizeArg blocks threads file)) :
    Narrow memsizeArg blocks threads file := by
  intro hacc hdata hdivides
  have hworks : calmWorld.Works := fun _ => rfl
  rw [intValues, dif_pos hacc, exact_append] at h
  obtain ⟨hcalls, hfinish⟩ := h
  obtain ⟨k, hk, hblocks⟩ := hacc.blocks_eq hint
  have hvalues := firstPortion_exact hacc (by omega) hcalls
  split_ifs with hthreads
  · have hfirst := PortionCall.values_small hworks hthreads hblocks hk hdivides hvalues
    refine ⟨hfirst, ?_⟩
    by_cases hwhole : (file.length - 8) % 16 = 0
    · by_cases hfew : (file.length - 8 + uint64 memsizeArg - 1) / uint64 memsizeArg < 2 ^ 31
      · exact .inl
          (mergedFile_small hworks hthreads hsize hacc hdivides hfirst hwhole hfew hfinish)
      · exact .inr (.inr (Nat.le_of_not_lt hfew))
    · exact .inr (.inl hwhole)
  · have hsmall := PortionCall.blockRecs_small hworks hdivides hvalues
    rw [PortionCall.blockRecs, uint64_blocks hblocks hk] at hsmall
    rw [hblocks]
    exact hsmall

end Main

/-- All values are exact exactly where the runs are short. -/
theorem int_values_exact_iff {memsizeArg blocks threads : Int} {file : List UInt8}
    (hint : blocks < 2 ^ 31) (hsize : file.length < 2 ^ 63) :
    (∀ w, Exact (intValues w memsizeArg blocks threads file)) ↔
      Narrow memsizeArg blocks threads file :=
  ⟨fun h => narrow_of_values_exact hint hsize (h calmWorld), values_exact_of_narrow hint⟩

theorem int_values_exact_iff_page :
    (∀ w, Exact (intValues w 4096 4 1 unevenFile)) ∧ Narrow 4096 4 1 unevenFile := by
  have hlen := unevenFile_length
  have hnarrow : Narrow 4096 4 1 unevenFile := by
    intro _ _ _
    rw [hlen]
    decide
  exact ⟨(int_values_exact_iff (by decide) (by rw [hlen]; decide)).mpr hnarrow, hnarrow⟩

/-- A file of `2 ^ 31` records. -/
def wideFile : List UInt8 := word (2 ^ 31) ++ List.replicate (16 * 2 ^ 31) 0

theorem wideFile_length : wideFile.length = 8 + 16 * 2 ^ 31 := by
  rw [wideFile, List.length_append, word_length, List.length_replicate]

/-- One portion holds the whole file. Its 4 blocks fit into an `int`, and the last merge adds two
runs of `2 ^ 30` records. -/
theorem last_merge_overflows : Accepted calmWorld (2 ^ 36) 4 1 wideFile ∧
    ¬Exact (intValues calmWorld (2 ^ 36) 4 1 wideFile) := by
  have hlen := wideFile_length
  have hmem : uint64 (2 ^ 36) = 2 ^ 36 := by decide
  have hacc : Accepted calmWorld (2 ^ 36) 4 1 wideFile :=
    ⟨by decide, by decide, by decide, by decide, by rw [hlen]; decide, ⟨rfl, rfl⟩, rfl, rfl,
      by decide⟩
  have hwhole : portionBytes (2 ^ 36) (8 + 16 * 2 ^ 31) 8 = 16 * 2 ^ 31 := by decide
  refine ⟨hacc, fun hexact => ?_⟩
  have hnarrow := narrow_of_values_exact (by decide) (by rw [hlen]; decide) hexact hacc
  rw [hlen, hmem, hwhole] at hnarrow
  exact absurd (hnarrow (by decide) (by decide)).1 (by decide)

end Osisp.Lab6
