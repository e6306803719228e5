import Osisp.Lab6.ExitSuccess

namespace Osisp.Lab6

open Osisp.Lib Osisp.Lib.WorkPool

section Joined

variable (w : World) {s : State}

theorem runThreads_joined (hthreads : 0 < s.threadCount) (phase : Phase)
    {P : Pool (List UInt8) (List IndexRecord)} {entry : Pc (List IndexRecord)}
    (hentry : entry = .arriveStart ∨ entry = .lock) (jobs : Nat) (hstride : 0 < P.stride)
    (hjobs : P.stride * jobs ≤ s.blockCount.toNat)
    (hmore : ∀ i : Nat, i ≤ jobs → (P.more (P.stride * i) = true ↔ i < jobs)) :
    ∃ file, runThreads w phase P entry s = .ok { s with file := file } := by
  have hfuel : 6 * (P.stride * jobs) + 7 * s.threadCount.toNat ≤
      6 * s.blockCount.toNat + 7 * s.threadCount.toNat := by omega
  obtain ⟨file, hjoin⟩ := P.join_some hstride hmore hentry hfuel (w.sched phase) s.file
  refine ⟨file, ?_⟩
  simp only [runThreads, hjoin]
  exact if_pos hthreads

theorem runThreads_sort (hthreads : 0 < s.threadCount) (phase : Phase) (base : Nat) :
    ∃ file, runThreads w phase (threadSort w base s) .arriveStart s =
      .ok { s with file := file } := by
  apply runThreads_joined w hthreads phase (.inl rfl) s.blockCount.toNat Nat.one_pos
  · exact Nat.le_of_eq (Nat.one_mul _)
  · intro i hi
    simp only [threadSort, decide_eq_true_eq]
    omega

theorem runThreads_merge (hthreads : 0 < s.threadCount) (phase : Phase) (base : Nat) :
    ∃ file, runThreads w phase (threadMerge base s) .lock s = .ok { s with file := file } := by
  apply runThreads_joined w hthreads phase (.inr rfl) (s.blockCount.toNat / 2) Nat.two_pos
  · exact Nat.mul_div_le _ _
  · intro i hi
    simp only [threadMerge, decide_eq_true_eq]
    omega

theorem runThreads_none (hthreads : ¬0 < s.threadCount) (phase : Phase)
    (P : Pool (List UInt8) (List IndexRecord)) (entry : Pc (List IndexRecord)) :
    runThreads w phase P entry s = .error (.killed, s.file) := by
  have hzero : s.threadCount.toNat = 0 := by omega
  rw [runThreads, hzero, P.join_none]
  exact if_neg hthreads

end Joined

section Portion

variable (w : World)

/-- A run that goes no further ends in a failure, or, without threads, by a signal. -/
def Gone (threadCount : Int) (e : Stop) : Prop :=
  e.1 = .failure ∨ ¬0 < threadCount ∧ e.1 = .killed

theorem tables_gone {α : Type} {s : State} {broken : Prop} (hbroken : broken) {Q : α → Prop} :
    Ends (fun e => Gone s.threadCount e ∧ (0 < s.threadCount → broken)) Q
      (barrierDestroy s (.error (.failure, s.file) : Except Stop α)) :=
  barrierDestroy_ends (fun hno => ⟨.inr ⟨hno, rfl⟩, fun h => absurd h hno⟩)
    fun _ => ⟨.inl rfl, fun _ => hbroken⟩

/-- The rounds of merges end with one block, or with an allocation that fails. -/
theorem mergeRounds_total (offset base : Nat) {current : Int} {s : State}
    (hthreads : 0 < s.threadCount) (hcount : s.blockCount = current) (hpos : 1 ≤ current) :
    Ends (fun e : Stop => e.1 = .failure ∧ ¬w.Works)
      (fun u => u.blockCount = 1 ∧ u.threadCount = s.threadCount)
      (mergeRounds w offset base current s) := by
  fun_induction mergeRounds w offset base current s with
  | case1 current s hmany hfail =>
    rw [barrierDestroy_threads hthreads]
    exact ⟨rfl, fun hw => hw.call _ hfail⟩
  | case2 current s hmany hcall e hrun =>
    obtain ⟨file, hjoined⟩ := runThreads_merge w hthreads (.merge offset current) base
    rw [hjoined] at hrun
    cases hrun
  | case3 current s hmany hcall t hrun ih =>
    obtain ⟨file, hjoined⟩ := runThreads_merge w hthreads (.merge offset current) base
    rw [hjoined] at hrun
    cases hrun
    exact ih hthreads rfl (by omega)
  | case4 current s hone =>
    refine ⟨?_, rfl⟩
    omega

/-- The portion is one that is processed: whole records, and whole blocks of them. -/
def Divides (bytes : Nat) (blockCount : Int) : Prop :=
  bytes % 16 = 0 ∧ bytes / 16 % uint64 blockCount = 0

instance (bytes : Nat) (blockCount : Int) : Decidable (Divides bytes blockCount) :=
  inferInstanceAs (Decidable (_ ∧ _))

/-- A call for a portion ends with a failure, or by a signal, or with one block; where there are
threads and all calls of the system succeed, only the size of the portion decides. -/
theorem processPortion_total {offset : Nat} (hoffset : offset ≠ 0) (bytes : Nat) {s : State}
    (hcount : 1 ≤ s.blockCount) :
    Ends (fun e : Stop => Gone s.threadCount e ∧
        (0 < s.threadCount → w.Works → ¬Divides bytes s.blockCount))
      (fun r => r.1 = bytes / 16 ∧ Divides bytes s.blockCount ∧ r.2.blockCount = 1 ∧
        r.2.threadCount = s.threadCount ∧ 0 < s.threadCount)
      (processPortion w offset bytes s) := by
  have hfails : ∀ c, (!w.sys c) = true → ∀ file : List UInt8, Gone s.threadCount (.failure, file) ∧
      (0 < s.threadCount → w.Works → ¬Divides bytes s.blockCount) :=
    fun c hc _ => ⟨.inl rfl, fun _ hw => absurd hc (hw.call c)⟩
  simp only [processPortion, if_neg hoffset, page_split]
  refine .ite (fun hc => hfails _ hc _) fun _ => .ite (fun hc => hfails _ hc _) fun _ =>
    .ite (fun hc => absurd hc.1 hoffset) fun _ => .ite (fun hragged => ?_) fun hwhole =>
    .ite (fun hrest => ?_) fun hblocks =>
    iteInduction (motive := Ends _ _) (fun hc => ?_) fun _ => ?_
  · exact ⟨.inl rfl, fun _ _ hdiv => hragged.1 hdiv.1⟩
  · exact ⟨.inl rfl, fun _ _ hdiv => hrest hdiv.2⟩
  · exact tables_gone fun hw => absurd hc (hw.call _)
  have hdiv : Divides bytes s.blockCount := ⟨by omega, not_not.mp hblocks⟩
  let t : State := { s with blockSize := int32 (bytes / 16 / uint64 s.blockCount : Nat) }
  by_cases hthreads : 0 < s.threadCount
  swap
  · rw [runThreads_none w (s := t) hthreads]
    exact ⟨.inr ⟨hthreads, rfl⟩, fun h => absurd h hthreads⟩
  obtain ⟨file, hsorted⟩ := runThreads_sort w (s := t) hthreads (.sort offset) offset
  simp only [t] at hsorted
  rw [hsorted]
  have hrounds := mergeRounds_total w offset offset (s := { t with file := file }) hthreads rfl
    hcount
  dsimp only [t] at hrounds ⊢
  cases hrun : mergeRounds w offset offset s.blockCount
      ⟨s.blockCount, s.threadCount, int32 (bytes / 16 / uint64 s.blockCount : Nat), file⟩ with
  | error e =>
    obtain ⟨hfailed, hbroken⟩ := hrounds.of_error hrun
    exact ⟨.inl hfailed, fun _ hw => absurd hw hbroken⟩
  | ok u =>
    refine .ite (fun hc => hfails _ hc _) fun _ => .ite (fun hc => hfails _ hc _) fun _ => ?_
    obtain ⟨hone, hsame⟩ := hrounds.of_ok hrun
    exact ⟨rfl, hdiv, hone, hsame, hthreads⟩

end Portion

structure PortionCall where
  offset : Nat
  bytes : Nat
  /-- The state that the call finds. -/
  state : State

/-- The calls of `portionLoop`, which has `runs` entries in its array. -/
def portionCalls (w : World) (memsize : Nat) (hmem : 0 < memsize) (size : Nat) (maxRuns : Int)
    (currentOffset runs : Nat) (s : State) : List PortionCall :=
  if currentOffset < size then
    let remaining := size - currentOffset
    let portionBytes := if memsize ≤ remaining then memsize else remaining
    if currentOffset ≠ 8 ∧ portionBytes % 16 ≠ 0 then []
    else ⟨currentOffset, portionBytes, s⟩ ::
      match processPortion w currentOffset portionBytes s with
      | .error _ => []
      | .ok (_, s) =>
        if maxRuns ≤ runs then []
        else portionCalls w memsize hmem size maxRuns (currentOffset + portionBytes) (runs + 1) s
  else []
termination_by size - currentOffset
decreasing_by
  split <;> omega

/-- The size of the portion at an offset. -/
def portionBytes (memsize size offset : Nat) : Nat :=
  if memsize ≤ size - offset then memsize else size - offset

section Loop

variable {w : World} {memsize size offset : Nat} {hmem : 0 < memsize} {maxRuns : Int}

theorem portionCalls_next {runs n : Nat} {s t : State} (hmore : offset < size)
    (hwhole : ¬(offset ≠ 8 ∧ portionBytes memsize size offset % 16 ≠ 0))
    (hrun : processPortion w offset (portionBytes memsize size offset) s = .ok (n, t))
    (hroom : ¬maxRuns ≤ runs) :
    portionCalls w memsize hmem size maxRuns offset runs s =
      ⟨offset, portionBytes memsize size offset, s⟩ ::
        portionCalls w memsize hmem size maxRuns (offset + portionBytes memsize size offset)
          (runs + 1) t := by
  unfold portionBytes at *
  conv_lhs => rw [portionCalls, if_pos hmore]
  dsimp only
  rw [if_neg hwhole, hrun]
  dsimp only
  rw [if_neg hroom]

theorem portionCalls_last {runs : Nat} {s : State} {e : Stop} (hmore : offset < size)
    (hwhole : ¬(offset ≠ 8 ∧ portionBytes memsize size offset % 16 ≠ 0))
    (hrun : processPortion w offset (portionBytes memsize size offset) s = .error e) :
    portionCalls w memsize hmem size maxRuns offset runs s =
      [⟨offset, portionBytes memsize size offset, s⟩] := by
  unfold portionBytes at *
  rw [portionCalls, if_pos hmore]
  dsimp only
  rw [if_neg hwhole, hrun]

/-- Where no call of the system fails, threads process a portion that divides, and its run is
stored where there is room for it. -/
theorem portionLoop_works (hw : w.Works) (hoffset : offset ≠ 0) (hmore : offset < size)
    (runs : List RunBoundary) {s : State} (hcount : 1 ≤ s.blockCount) (hthreads : 0 < s.threadCount)
    (hdivides : Divides (portionBytes memsize size offset) s.blockCount) :
    ∃ t, processPortion w offset (portionBytes memsize size offset) s =
        .ok (portionBytes memsize size offset / 16, t) ∧
      t.blockCount = 1 ∧ t.threadCount = s.threadCount ∧
      portionLoop w memsize hmem size maxRuns offset runs s =
        if maxRuns ≤ runs.length then .error (.crashed, t.file)
        else portionLoop w memsize hmem size maxRuns (offset + portionBytes memsize size offset)
          (runs ++ [⟨offset, portionBytes memsize size offset / 16⟩]) t := by
  have htotal := processPortion_total w hoffset (portionBytes memsize size offset) hcount
  cases hrun : processPortion w offset (portionBytes memsize size offset) s with
  | error e =>
    exact absurd hdivides ((htotal.of_error hrun).2 hthreads hw)
  | ok r =>
    obtain ⟨n, t⟩ := r
    obtain ⟨rfl, -, hone, hsame, -⟩ := htotal.of_ok hrun
    refine ⟨t, rfl, hone, hsame, ?_⟩
    have hwhole := hdivides.1
    unfold portionBytes at *
    conv_lhs => rw [portionLoop, if_pos hmore]
    dsimp only at hrun ⊢
    rw [if_neg fun hrefused => hrefused.2 hwhole, hrun]

theorem portionCalls_head {runs : Nat} {s : State} (hmore : offset < size)
    (hwhole : ¬(offset ≠ 8 ∧ portionBytes memsize size offset % 16 ≠ 0)) :
    ⟨offset, portionBytes memsize size offset, s⟩ ∈
      portionCalls w memsize hmem size maxRuns offset runs s := by
  unfold portionBytes at *
  rw [portionCalls, if_pos hmore]
  dsimp only
  rw [if_neg hwhole]
  exact List.mem_cons_self

/-- No portion is larger than the first one, every one finds the same threads, and every later one
finds one block. -/
theorem portionCalls_state {runs : Nat} {s : State} (hoffset : offset ≠ 0)
    (hcount : 1 ≤ s.blockCount) :
    ∀ c ∈ portionCalls w memsize hmem size maxRuns offset runs s, c.offset ≠ 0 ∧
      c.bytes ≤ portionBytes memsize size offset ∧ c.state.threadCount = s.threadCount ∧
      (c.state.blockCount = s.blockCount ∨ c.state.blockCount = 1) := by
  fun_induction portionCalls w memsize hmem size maxRuns offset runs s with
  | case1 => exact fun c hc => absurd hc List.not_mem_nil
  | case2 offset runs s hmore remaining bytes hwhole ih =>
    intro c hc
    rcases List.mem_cons.mp hc with rfl | hc
    · exact ⟨hoffset, Nat.le_refl _, rfl, .inl rfl⟩
    have htotal := processPortion_total w hoffset bytes hcount
    cases hrun : processPortion w offset bytes s with
    | error e => simp [hrun] at hc
    | ok r =>
      obtain ⟨n, t⟩ := r
      obtain ⟨-, -, hone, hsame, -⟩ := htotal.of_ok hrun
      rw [hrun] at hc
      dsimp only at hc
      split at hc
      · exact absurd hc List.not_mem_nil
      obtain ⟨hne, hle, hthreads, hblocks⟩ := ih t (by omega) (Int.le_of_eq hone.symm) c hc
      have hless :
          portionBytes memsize size (offset + bytes) ≤ portionBytes memsize size offset := by
        unfold portionBytes
        split_ifs <;> omega
      refine ⟨hne, Nat.le_trans hle hless, hthreads.trans hsame, .inr ?_⟩
      rcases hblocks with h | h
      · exact h.trans hone
      · exact h
  | case3 => exact fun c hc => absurd hc List.not_mem_nil

/-- The runs are those of the calls. -/
theorem portionLoop_calls {runs runs' : List RunBoundary} {s t : State}
    (h : portionLoop w memsize hmem size maxRuns offset runs s = .ok (runs', t)) :
    runs'.map RunBoundary.offset = runs.map RunBoundary.offset ++
      (portionCalls w memsize hmem size maxRuns offset runs.length s).map PortionCall.offset := by
  fun_induction portionLoop w memsize hmem size maxRuns offset runs s with
  | case1 => cases h
  | case2 => cases h
  | case3 => cases h
  | case4 offset runs s hmore remaining bytes hwhole n t hrun hroom ih =>
    have hlen (r : RunBoundary) : (runs ++ [r]).length = runs.length + 1 := List.length_append
    rw [ih h, hlen, List.map_append, List.append_assoc, portionCalls_next hmore hwhole hrun hroom]
    rfl
  | case5 offset runs s hend =>
    obtain ⟨rfl, -⟩ := Prod.mk.inj (Except.ok.inj h)
    rw [portionCalls, if_neg hend, List.map_nil, List.append_nil]

end Loop

def calls (w : World) (memsizeArg blocks threads : Int) (file : List UInt8) : List PortionCall :=
  if h : Accepted w memsizeArg blocks threads file then
    portionCalls w (uint64 memsizeArg) h.memsize_pos file.length
      (maxRunsOf (uint64 memsizeArg) file.length) 8 0 ⟨blocks, threads, 0, file⟩
  else []

/-- A file of 260 records, for portions of 256 and of 4 records. -/
def unevenFile : List UInt8 := word 260 ++ recordCodec.encode (makeRecords 260 twoMarks)

theorem unevenFile_length : unevenFile.length = 4168 := by
  rw [unevenFile, end_encode, word_length, makeRecords_length]

end Osisp.Lab6
