import Osisp.Lab6.Calls

namespace Osisp.Lab6

open Osisp.Lib

/-- The portions of `data` bytes that have whole records: the full ones, and the rest if it is one
of whole records. -/
def storable (memsize data : Nat) : Nat :=
  data / memsize + if data % memsize ≠ 0 ∧ data % 16 = 0 then 1 else 0

section Arithmetic

variable {memsize data : Nat}

/-- The next portion begins in the file and has whole records. -/
theorem lt_storable_iff (hmem : 0 < memsize) (h16 : 16 ∣ memsize) (r : Nat) :
    r < storable memsize data ↔
      memsize * r < data ∧ portionBytes memsize (8 + data) (8 + memsize * r) % 16 = 0 := by
  obtain ⟨m, rfl⟩ := h16
  have hsplit := Nat.div_add_mod data (16 * m)
  have hrest := Nat.mod_lt data hmem
  rw [storable, portionBytes, Nat.add_sub_add_left]
  generalize data / (16 * m) = full at *
  generalize data % (16 * m) = rest at *
  have hwhole : ∀ k, 16 * m * k = 16 * (m * k) := Nat.mul_assoc 16 m
  rcases Nat.lt_trichotomy r full with hlt | rfl | hgt
  · have hnext : 16 * m * r + 16 * m ≤ 16 * m * full := Nat.mul_le_mul_left (16 * m) hlt
    rw [if_pos (by omega : 16 * m ≤ data - 16 * m * r)]
    constructor
    · intro _
      omega
    · intro _
      omega
  · rw [if_neg (by omega : ¬16 * m ≤ data - 16 * m * r)]
    have hdata : data % 16 = rest % 16 := by
      rw [← hsplit, hwhole]
      omega
    rw [hdata, show data - 16 * m * r = rest by omega]
    split_ifs with h
    · constructor
      · intro _
        omega
      · intro _
        omega
    · constructor
      · intro hr
        omega
      · intro hr
        omega
  · have hnext : 16 * m * full + 16 * m ≤ 16 * m * r := Nat.mul_le_mul_left (16 * m) hgt
    constructor
    · intro hr
      split_ifs at hr <;> omega
    · intro hr
      omega

theorem ceil_eq (hmem : 0 < memsize) :
    (data + memsize - 1) / memsize = data / memsize + if data % memsize ≠ 0 then 1 else 0 := by
  have hsplit := Nat.div_add_mod data memsize
  have hrest := Nat.mod_lt data hmem
  generalize data / memsize = full at *
  generalize data % memsize = rest at *
  have hsum : data + memsize - 1 = (rest + memsize - 1) + memsize * full := by omega
  rw [hsum, Nat.add_mul_div_left _ _ hmem, Nat.add_comm full]
  congr 1
  split_ifs with h
  · exact Nat.div_eq_of_lt_le (by omega) (by omega)
  · exact Nat.div_eq_of_lt (by omega)

theorem int32_cast (q : Nat) :
    int32 q = if q % 2 ^ 32 < 2 ^ 31 then ((q % 2 ^ 32 : Nat) : Int)
      else ((q % 2 ^ 32 : Nat) : Int) - 2 ^ 32 := by
  rw [int32]
  split_ifs with h
  · rw [Int.bmod_eq_emod_of_lt] <;> omega
  · rw [Int.bmod_neg] <;> omega

/-- The array has an entry for every run, or there is no array: main divides by a number that is not
0, and either the sum in the numerator is below `2 ^ 64` and the quotient does not lose a multiple
of `2 ^ 32`, or the only portion is refused, as it has no multiple of 4 records and threads want at
least 4 blocks. -/
def Roomy (memsize data : Nat) : Prop :=
  memsize ≠ 0 ∧
    if data + memsize ≤ 2 ^ 64 then
      (data + memsize - 1) / memsize < 2 ^ 31 ∨ 2 ^ 31 ≤ (data + memsize - 1) / memsize % 2 ^ 32
    else data % 64 ≠ 0

instance (memsize data : Nat) : Decidable (Roomy memsize data) :=
  inferInstanceAs (Decidable (_ ∧ _))

theorem divides_four_iff (bytes : Nat) : Divides bytes 4 ↔ bytes % 64 = 0 := by
  have hfour : uint64 4 = 4 := by decide
  rw [Divides, hfour]
  omega

theorem roomy_iff (hmem : 0 < memsize) (hpages : memsize % pageSize = 0)
    (hlong : memsize < 2 ^ 64) (hdata : data < 2 ^ 63) :
    Roomy memsize data ↔ maxRunsOf memsize (8 + data) < 0 ∨
      (storable memsize data : Int) ≤ maxRunsOf memsize (8 + data) ∨
      ¬Divides (portionBytes memsize (8 + data) 8) 4 := by
  rw [pageSize] at hpages
  rw [Roomy, and_iff_right (Nat.ne_of_gt hmem), maxRunsOf, Nat.add_sub_cancel_left,
    divides_four_iff, portionBytes, Nat.add_sub_cancel_left]
  split_ifs with hsum hfull hfull
  · -- the quotient is exact, and the last of its portions may be refused
    have hexact : (data + memsize - 1) % 2 ^ 64 = data + memsize - 1 :=
      Nat.mod_eq_of_lt (by omega)
    have hwhole : memsize % 64 = 0 := by omega
    rw [hexact, int32_cast, storable, ceil_eq hmem]
    generalize data / memsize = full
    generalize data % memsize = rest
    split_ifs <;> omega
  · -- there is one portion at most
    have hexact : (data + memsize - 1) % 2 ^ 64 = data + memsize - 1 :=
      Nat.mod_eq_of_lt (by omega)
    rw [hexact, int32_cast, storable, ceil_eq hmem, Nat.div_eq_of_lt (by omega),
      Nat.mod_eq_of_lt (by omega)]
    split_ifs <;> omega
  · omega
  · have hwrap : (data + memsize - 1) % 2 ^ 64 / memsize = 0 := by
      apply Nat.div_eq_of_lt
      omega
    have hzero : int32 (0 : Nat) = 0 := by decide
    have hbelow : data < memsize := by omega
    rw [hwrap, hzero, storable, Nat.div_eq_of_lt hbelow, Nat.mod_eq_of_lt hbelow]
    split_ifs <;> omega

end Arithmetic

section Loop

variable {w : World} {memsize data : Nat} {hmem : 0 < memsize} {maxRuns : Int}

/-- How a run ends that neither divides by zero nor writes behind the array, and does end. -/
def Outcome.Regular (o : Outcome) : Prop := o ≠ .crashed ∧ o ≠ .hung

theorem Outcome.regular_success : Outcome.success.Regular := ⟨by decide, by decide⟩

theorem Outcome.regular_failure : Outcome.failure.Regular := ⟨by decide, by decide⟩

theorem Gone.regular {threadCount : Int} {e : Stop} (h : Gone threadCount e) : e.1.Regular := by
  rcases h with h | ⟨-, h⟩
  · rw [h]
    exact Outcome.regular_failure
  · rw [h]
    exact ⟨by decide, by decide⟩

/-- With room for all the runs the loop ends, and fails at most where a call does. -/
theorem portionLoop_room (h16 : 16 ∣ memsize) (hroom : (storable memsize data : Int) ≤ maxRuns)
    {offset : Nat} {runs : List RunBoundary} {s : State} (hoffset : offset ≠ 0)
    (hcount : 1 ≤ s.blockCount)
    (hplace : offset < 8 + data → offset = 8 + memsize * runs.length) :
    Ends (fun e : Stop => e.1.Regular) (fun _ => True)
      (portionLoop w memsize hmem (8 + data) maxRuns offset runs s) := by
  fun_induction portionLoop w memsize hmem (8 + data) maxRuns offset runs s with
  | case1 => exact Outcome.regular_failure
  | case2 offset runs s hmore remaining bytes hwhole e hrun =>
    exact ((processPortion_total w hoffset bytes hcount).of_error hrun).1.regular
  | case3 offset runs s hmore remaining bytes hwhole n t hrun hfull =>
    -- a run that is stored is one of those there is room for
    obtain ⟨-, hdivides, -⟩ := (processPortion_total w hoffset bytes hcount).of_ok hrun
    obtain rfl := hplace hmore
    have hlt := (lt_storable_iff hmem h16 runs.length).mpr ⟨by omega, hdivides.1⟩
    omega
  | case4 offset runs s hmore remaining bytes hwhole n t hrun hnotfull ih =>
    obtain ⟨-, -, hone, -, -⟩ := (processPortion_total w hoffset bytes hcount).of_ok hrun
    refine ih (by omega) (Int.le_of_eq hone.symm) fun hnext => ?_
    have hbytes : bytes = memsize := by
      simp only [bytes, remaining] at hnext ⊢
      split_ifs at hnext ⊢ <;> omega
    rw [hplace hmore, hbytes, List.length_append, List.length_singleton, Nat.mul_succ,
      Nat.add_assoc]
  | case5 => trivial

/-- Without room for the next run main writes it behind the array. -/
theorem portionLoop_overrun (hw : w.Works) (h16 : 16 ∣ memsize)
    (hroom : maxRuns < (storable memsize data : Int)) {runs : List RunBoundary} {s : State}
    (hcount : 1 ≤ s.blockCount) (hthreads : 0 < s.threadCount)
    (hdivides : Divides (portionBytes memsize (8 + data) (8 + memsize * runs.length)) s.blockCount)
    (hlen : (runs.length : Int) ≤ maxRuns) :
    ∃ file, portionLoop w memsize hmem (8 + data) maxRuns (8 + memsize * runs.length) runs s =
      .error (.crashed, file) := by
  have hstored : ∀ r, r < storable memsize data → _ := fun r => (lt_storable_iff hmem h16 r).mp
  have hlength (r : RunBoundary) : (runs ++ [r]).length = runs.length + 1 := List.length_append
  obtain ⟨hmore, -⟩ := hstored runs.length (by omega)
  obtain ⟨t, -, hone, hsame, hloop⟩ := portionLoop_works hw (by omega) (by omega) runs hcount
    hthreads hdivides
  rw [hloop]
  by_cases hfull : maxRuns ≤ runs.length
  · exact ⟨t.file, if_pos hfull⟩
  -- there is a run behind this one, so its portion is a full one
  obtain ⟨hnext, hwhole⟩ := hstored (runs.length + 1) (by omega)
  rw [Nat.mul_succ] at hnext
  have hbytes : portionBytes memsize (8 + data) (8 + memsize * runs.length) = memsize := by
    rw [portionBytes, if_pos (by omega)]
  have hplace (r : RunBoundary) :
      8 + memsize * runs.length + memsize = 8 + memsize * (runs ++ [r]).length := by
    rw [hlength, Nat.mul_succ, Nat.add_assoc]
  rw [if_neg hfull, hbytes, hplace ⟨8 + memsize * runs.length, memsize / 16⟩]
  refine portionLoop_overrun hw h16 hroom (Int.le_of_eq hone.symm) (hsame ▸ hthreads) ?_
    (by rw [hlength]; omega)
  rw [hone, hlength]
  exact ⟨hwhole, Nat.mod_one _⟩
termination_by (maxRuns - runs.length).toNat
decreasing_by
  rw [hlength]
  omega

variable (w hmem maxRuns) in
/-- The loop goes no further than a first portion that does not divide, or that has no threads. -/
theorem portionLoop_refused {size : Nat} {s : State} (hmore : 8 < size) (hcount : 1 ≤ s.blockCount)
    (hno : 0 < s.threadCount → ¬Divides (portionBytes memsize size 8) s.blockCount) :
    portionCalls w memsize hmem size maxRuns 8 0 s = [⟨8, portionBytes memsize size 8, s⟩] ∧
      ∃ e, Gone s.threadCount e ∧ portionLoop w memsize hmem size maxRuns 8 [] s = .error e := by
  have htotal := processPortion_total w (Nat.succ_ne_zero 7) (portionBytes memsize size 8) hcount
  cases hrun : processPortion w 8 (portionBytes memsize size 8) s with
  | error e =>
    have hwhole : ¬((8 : Nat) ≠ 8 ∧ portionBytes memsize size 8 % 16 ≠ 0) := fun h => h.1 rfl
    refine ⟨portionCalls_last hmore hwhole hrun, e, (htotal.of_error hrun).1, ?_⟩
    rw [portionLoop, if_pos hmore]
    unfold portionBytes at hrun hwhole
    dsimp only
    rw [if_neg hwhole, hrun]
  | ok r =>
    obtain ⟨-, hdivides, -, -, hthreads⟩ := htotal.of_ok hrun
    exact absurd hdivides (hno hthreads)

end Loop

theorem finish_ends {w : World} {x : Except Stop (List RunBoundary × State)}
    (h : Ends (fun e : Stop => e.1.Regular) (fun _ => True) x) : (finish w x).1.Regular := by
  cases x with
  | error e => exact h
  | ok r =>
    obtain ⟨runs, s⟩ := r
    cases hmerge : externalMerge w runs s.file with
    | error e =>
      rw [finish_error hmerge, externalMerge_error hmerge]
      exact Outcome.regular_failure
    | ok file =>
      rw [finish_ok hmerge]
      exact Outcome.regular_success

/-- Main ends, without a division by zero and without a write behind its array, on every command
line with an `int` for the product of its check and whatever its calls return; `malloc` gives no
array for a negative number of entries. -/
def Safe (memsizeArg : Int) (file : List UInt8) : Prop :=
  ∀ (w : World) (blocks threads : Int), int32 (threads * 4) = threads * 4 →
    (w.sys .mallocRuns = true → 0 ≤ maxRunsOf (uint64 memsizeArg) file.length) →
    (sortIndex w memsizeArg blocks threads file).1.Regular

theorem Accepted.four_le {w : World} {memsizeArg blocks threads : Int} {file : List UInt8}
    (h : Accepted w memsizeArg blocks threads file) (hint : int32 (threads * 4) = threads * 4)
    (hthreads : 0 < threads) : ∃ k, blocks = (4 * 2 ^ k : Nat) := by
  obtain ⟨k, rfl⟩ := h.blocks_pow
  have hle := h.threads_le
  rw [hint] at hle
  match k with
  | 0 => omega
  | 1 => omega
  | k + 2 => exact ⟨k, by rw [Nat.pow_add, Nat.mul_comm]⟩

theorem Divides.four {bytes k : Nat} (h : Divides bytes (4 * 2 ^ k : Nat)) : Divides bytes 4 := by
  have hfour : uint64 4 = 4 := by decide
  have hblocks : 4 ∣ uint64 (4 * 2 ^ k : Nat) := by
    rw [uint64]
    omega
  refine ⟨h.1, ?_⟩
  rw [hfour]
  exact Nat.mod_eq_zero_of_dvd (Nat.dvd_trans hblocks (Nat.dvd_of_mod_eq_zero h.2))

/-- The run goes no further than a first portion that has no multiple of 4 records. -/
theorem first_refused {w : World} {memsizeArg blocks threads : Int} {file : List UInt8}
    (h : Accepted w memsizeArg blocks threads file) (hint : int32 (threads * 4) = threads * 4)
    (hno : ¬Divides (portionBytes (uint64 memsizeArg) file.length 8) 4) (maxRuns : Int) :
    Ends (fun e : Stop => e.1.Regular) (fun _ => True)
      (portionLoop w (uint64 memsizeArg) h.memsize_pos file.length maxRuns 8 []
        ⟨blocks, threads, 0, file⟩) := by
  have hmem := h.memsize_pos
  have hmore : 8 < file.length := by
    rw [divides_four_iff, portionBytes] at hno
    split_ifs at hno <;> omega
  obtain ⟨-, e, hgone, hloop⟩ := portionLoop_refused w hmem maxRuns hmore
    (s := ⟨blocks, threads, 0, file⟩) h.blocks_pos fun hthreads hdivides => by
      obtain ⟨k, rfl⟩ := h.four_le hint hthreads
      exact hno hdivides.four
  rw [hloop]
  exact hgone.regular

theorem safe_of_roomy {memsizeArg : Int} {file : List UInt8}
    (hsize : file.length < 2 ^ 63) (h : Roomy (uint64 memsizeArg) (file.length - 8)) :
    Safe memsizeArg file := by
  intro w blocks threads hint hmalloc
  by_cases hacc : Accepted w memsizeArg blocks threads file
  · have hmem := hacc.memsize_pos
    have hpages := hacc.pages
    have hnonneg := hmalloc hacc.array
    have hlong : uint64 memsizeArg < 2 ^ 64 := by
      rw [uint64]
      omega
    have h16 : 16 ∣ uint64 memsizeArg := dvd_of_pages hpages
    obtain ⟨data, hdata⟩ : ∃ data, file.length = 8 + data :=
      ⟨file.length - 8, (Nat.add_sub_cancel' hacc.header).symm⟩
    have hrefused := first_refused hacc hint
    rw [sortIndex_accepted hacc]
    simp only [hdata, Nat.add_sub_cancel_left] at h hnonneg hsize hrefused ⊢
    apply finish_ends
    rcases (roomy_iff hmem hpages hlong (by omega)).mp h with hneg | hroom | hno
    · omega
    · exact portionLoop_room h16 hroom (Nat.succ_ne_zero 7) hacc.blocks_pos fun _ => rfl
    · exact hrefused hno _
  · rcases sortIndex_refused hacc with hrun | ⟨hzero, -⟩
    · rw [hrun]
      exact Outcome.regular_failure
    · exact absurd hzero h.1

/-- With four blocks and one thread, all portions of whole records behind the first one are
stored. -/
theorem roomy_of_safe {memsizeArg : Int} {file : List UInt8}
    (hpages : uint64 memsizeArg % pageSize = 0) (hheader : 8 ≤ file.length)
    (hsize : file.length < 2 ^ 63) (h : Safe memsizeArg file) :
    Roomy (uint64 memsizeArg) (file.length - 8) := by
  have hworks : calmWorld.Works := fun _ => rfl
  obtain ⟨data, hdata⟩ : ∃ data, file.length = 8 + data :=
    ⟨file.length - 8, (Nat.add_sub_cancel' hheader).symm⟩
  by_contra hno
  have hend := h calmWorld 4 1 (by decide)
  by_cases hmem : uint64 memsizeArg = 0
  · have hnonneg : 0 ≤ maxRunsOf (uint64 memsizeArg) file.length := by
      rw [hmem, maxRunsOf, Nat.div_zero]
      decide
    have hcrash : sortIndex calmWorld memsizeArg 4 1 file = (.crashed, file) := by
      simp only [sortIndex, hpages, hworks _]
      rw [if_neg (by decide), if_neg (by decide), if_neg (by decide), if_neg (by decide),
        if_neg (by omega), if_neg (by decide), dif_pos hmem]
    rw [hcrash] at hend
    exact (hend fun _ => hnonneg).1 rfl
  · have hpos : 0 < uint64 memsizeArg := Nat.pos_of_ne_zero hmem
    have hlong : uint64 memsizeArg < 2 ^ 64 := by
      rw [uint64]
      omega
    have h16 : 16 ∣ uint64 memsizeArg := dvd_of_pages hpages
    have hacc : Accepted calmWorld memsizeArg 4 1 file :=
      ⟨hpages, by decide, by decide, by decide, hheader, ⟨rfl, rfl⟩, rfl, rfl, hpos⟩
    rw [sortIndex_accepted hacc] at hend
    simp only [hdata, Nat.add_sub_cancel_left] at hno hsize hend
    rw [roomy_iff hpos hpages hlong (by omega), not_or, not_or, not_not] at hno
    obtain ⟨hnonneg, hfew, hdivides⟩ := hno
    have hfour : (1 : Int) ≤ 4 := by decide
    obtain ⟨out, hloop⟩ : ∃ out, portionLoop calmWorld (uint64 memsizeArg) hpos (8 + data)
        (maxRunsOf (uint64 memsizeArg) (8 + data))
        (8 + uint64 memsizeArg * ([] : List RunBoundary).length) [] ⟨4, 1, 0, file⟩ =
          .error (.crashed, out) :=
      portionLoop_overrun hworks h16 (by omega) hfour Int.one_pos hdivides
        (by rw [List.length_nil]; omega)
    rw [List.length_nil, Nat.mul_zero, Nat.add_zero] at hloop
    rw [hloop] at hend
    exact (hend fun _ => by omega).1 rfl

/-- The arithmetic of the portions is safe exactly where there is room. -/
theorem portions_safe_iff {memsizeArg : Int} {file : List UInt8}
    (hpages : uint64 memsizeArg % pageSize = 0) (hheader : 8 ≤ file.length)
    (hsize : file.length < 2 ^ 63) :
    Safe memsizeArg file ↔ Roomy (uint64 memsizeArg) (file.length - 8) :=
  ⟨roomy_of_safe hpages hheader hsize, safe_of_roomy hsize⟩

theorem portions_safe_iff_page : Safe 4096 unevenFile ∧ Roomy (uint64 4096) 4160 := by
  have hlen := unevenFile_length
  have hdata : unevenFile.length - 8 = 4160 := by rw [hlen]
  have hroomy : Roomy (uint64 4096) 4160 := by decide
  refine ⟨(portions_safe_iff (by decide) (by rw [hlen]; decide) (by rw [hlen]; decide)).mpr ?_,
    hroomy⟩
  rwa [hdata]

/-- The texts 0 and -4096 pass the check of the pages. With the first one main divides by zero;
with the second one the sum in the numerator wraps around, and the only run is written behind an
array of no entries. -/
theorem zero_and_below_pass :
    (uint64 0 % pageSize = 0 ∧ ¬Safe 0 unevenFile) ∧
      (uint64 (-4096) % pageSize = 0 ∧ ¬Safe (-4096) unevenFile) := by
  have hlen := unevenFile_length
  have hdata : unevenFile.length - 8 = 4160 := by rw [hlen]
  have hunsafe : ∀ memsizeArg, uint64 memsizeArg % pageSize = 0 →
      ¬Roomy (uint64 memsizeArg) 4160 → ¬Safe memsizeArg unevenFile := by
    intro memsizeArg hpages hno hsafe
    have hroomy := roomy_of_safe hpages (by rw [hlen]; decide) (by rw [hlen]; decide) hsafe
    rw [hdata] at hroomy
    exact hno hroomy
  exact ⟨⟨by decide, hunsafe 0 (by decide) (by decide)⟩,
    ⟨by decide, hunsafe (-4096) (by decide) (by decide)⟩⟩

end Osisp.Lab6
