import Osisp.Lab6.Calls

namespace Osisp.Lab6

open Osisp.Lib Osisp.Lib.WorkPool

/-- The `while` loop of `process_portion`, `false` where it is left by `return -1`. -/
def mergeRoundsReturn (w : World) (offset base : Nat) (current : Int) (s : State) :
    Except Stop (Bool × State) :=
  if _ : 1 < current then
    if !w.sys (.mallocMerge offset current) then barrierDestroy s (.ok (false, s))
    else match runThreads w (.merge offset current) (threadMerge base s) .lock s with
      | .error e => .error e
      | .ok t =>
        mergeRoundsReturn w offset base (current / 2)
          { t with blockCount := current / 2, blockSize := int32 (t.blockSize * 2) }
  else .ok (true, s)
termination_by current.toNat
decreasing_by omega

/-- `process_portion`: the number of its records for `return 0`, none for `return -1`. -/
def processPortionReturn (w : World) (currentOffset portionBytes : Nat) (s : State) :
    Except Stop (Option Nat × State) :=
  let mapOffset := currentOffset - currentOffset % pageSize
  let mapLength := portionBytes + (currentOffset - mapOffset)
  let startOffset :=
    if currentOffset = 0 then 8 + (currentOffset - mapOffset) else currentOffset - mapOffset
  let recsInPortion :=
    if currentOffset = 0 then (portionBytes - 8) / 16 else portionBytes / 16
  let base := mapOffset + startOffset
  if !w.sys (.openAt currentOffset portionBytes) then .ok (none, s)
  else if !w.sys (.mmap mapOffset mapLength) then .ok (none, s)
  else if currentOffset = 0 ∧ portionBytes < 8 then .ok (none, s)
  else if portionBytes % 16 ≠ 0 ∧ currentOffset ≠ 0 then .ok (none, s)
  else if recsInPortion % uint64 s.blockCount ≠ 0 then .ok (none, s)
  else
    let s := { s with blockSize := int32 (recsInPortion / uint64 s.blockCount : Nat) }
    if !w.sys (.mallocSort currentOffset) then barrierDestroy s (.ok (none, s))
    else match runThreads w (.sort currentOffset) (threadSort w base s) .arriveStart s with
      | .error e => .error e
      | .ok t =>
        match mergeRoundsReturn w currentOffset base t.blockCount t with
        | .error e => .error e
        | .ok (false, u) => .ok (none, u)
        | .ok (true, u) =>
          if !w.sys (.msync mapOffset mapLength) then .ok (none, u)
          else if !w.sys (.munmap mapOffset mapLength) then .ok (none, u)
          else .ok (some recsInPortion, u)

theorem mergeRounds_returned (w : World) (offset base : Nat) (current : Int) (s : State) :
    mergeRounds w offset base current s = (mergeRoundsReturn w offset base current s).bind
      fun r => if r.1 then .ok r.2 else .error (.failure, r.2.file) := by
  fun_induction mergeRounds w offset base current s with
  | case1 current s hmany hfail =>
    rw [mergeRoundsReturn, dif_pos hmany, if_pos hfail, barrierDestroy_bind]
    rfl
  | case2 current s hmany hcall e hrun =>
    rw [mergeRoundsReturn, dif_pos hmany, if_neg hcall, hrun]
    rfl
  | case3 current s hmany hcall t hrun ih =>
    rw [mergeRoundsReturn, dif_pos hmany, if_neg hcall, hrun]
    exact ih
  | case4 current s hone =>
    rw [mergeRoundsReturn, dif_neg hone]
    rfl

/-- What main is told by a return. -/
def told (r : Option Nat × State) : Except Stop (Nat × State) :=
  r.1.elim (.error (.failure, r.2.file)) fun n => .ok (n, r.2)

theorem told_ite (c : Prop) [Decidable c] {s t : State} (hfile : s.file = t.file)
    {x : Except Stop (Nat × State)} {y : Except Stop (Option Nat × State)} (h : x = y.bind told) :
    (if c then .error (.failure, s.file) else x) = (if c then .ok (none, t) else y).bind told := by
  by_cases hc : c
  · rw [if_pos hc, if_pos hc, hfile]
    rfl
  · rw [if_neg hc, if_neg hc, h]

theorem told_tables (c : Prop) [Decidable c] {s t : State}
    (hthreads : s.threadCount = t.threadCount) (hfile : s.file = t.file)
    {x : Except Stop (Nat × State)} {y : Except Stop (Option Nat × State)} (h : x = y.bind told) :
    (if c then barrierDestroy s (.error (.failure, s.file)) else x) =
      (if c then barrierDestroy t (.ok (none, t)) else y).bind told := by
  by_cases hc : c
  · rw [if_pos hc, if_pos hc, barrierDestroy_bind, barrierDestroy, barrierDestroy, hthreads, hfile]
    rfl
  · rw [if_neg hc, if_neg hc, h]

theorem processPortion_told (w : World) (offset bytes : Nat) (s : State) :
    processPortion w offset bytes s = (processPortionReturn w offset bytes s).bind told := by
  unfold processPortion processPortionReturn
  dsimp only
  apply told_ite _ rfl
  apply told_ite _ rfl
  apply told_ite _ rfl
  apply told_ite _ rfl
  apply told_ite _ rfl
  -- the tables of the threads are allocated after `g_block_size` is set
  refine told_tables _ ?_ ?_ ?_
  · rfl
  · rfl
  cases runThreads w (.sort offset) _ .arriveStart _ with
  | error e => rfl
  | ok t =>
    dsimp only
    rw [mergeRounds_returned]
    cases mergeRoundsReturn w offset _ t.blockCount t with
    | error e => rfl
    | ok r =>
      obtain ⟨b, u⟩ := r
      cases b with
      | false => rfl
      | true => exact told_ite _ rfl (told_ite _ rfl rfl)

section Count

variable (w : World)

/-- Every completed round lowers `g_block_count`; without one it stays. -/
theorem mergeRoundsReturn_count (offset base : Nat) {current : Int} {s : State}
    (hthreads : 0 < s.threadCount) (hcount : s.blockCount = current) (hpos : 1 ≤ current) :
    ∃ r, mergeRoundsReturn w offset base current s = .ok r ∧ r.2.blockCount ≤ current ∧
      (r.2.blockCount = current ↔ ¬(1 < current ∧ w.sys (.mallocMerge offset current) = true)) := by
  fun_induction mergeRoundsReturn w offset base current s with
  | case1 current s hmany hfail =>
    refine ⟨(false, s), barrierDestroy_threads hthreads _, Int.le_of_eq hcount,
      iff_of_true hcount fun h => ?_⟩
    rw [h.2] at hfail
    cases hfail
  | case2 current s hmany hcall e hrun =>
    obtain ⟨file, hjoined⟩ := runThreads_merge w hthreads (.merge offset current) base
    rw [hjoined] at hrun
    cases hrun
  | case3 current s hmany hcall t hrun ih =>
    obtain ⟨file, hjoined⟩ := runThreads_merge w hthreads (.merge offset current) base
    rw [hjoined] at hrun
    cases hrun
    obtain ⟨r, hr, hle, -⟩ := ih hthreads rfl (by omega)
    refine ⟨r, hr, by omega, iff_of_false (by omega) fun h => h ⟨hmany, ?_⟩⟩
    rwa [Bool.not_eq_true', Bool.not_eq_false] at hcall
  | case4 current s hone =>
    exact ⟨(true, s), rfl, Int.le_of_eq hcount, iff_of_true hcount fun h => hone h.1⟩

/-- The call sorts the blocks of its portion and completes a round of merges. -/
structure PortionCall.Merges (c : PortionCall) : Prop where
  opens : w.sys (.openAt c.offset c.bytes) = true
  maps : w.sys (.mmap (c.offset - c.offset % pageSize)
    (c.bytes + (c.offset - (c.offset - c.offset % pageSize)))) = true
  divides : Divides c.bytes c.state.blockCount
  threads : 0 < c.state.threadCount
  sorts : w.sys (.mallocSort c.offset) = true
  many : 1 < c.state.blockCount
  merges : w.sys (.mallocMerge c.offset c.state.blockCount) = true

/-- The return of the call leaves `g_block_count` as it was. -/
def PortionCall.Keeps (c : PortionCall) : Prop :=
  ∀ r, processPortionReturn w c.offset c.bytes c.state = .ok r →
    r.2.blockCount = c.state.blockCount

/-- A call that returns leaves `g_block_count` as it was exactly if it completes no round; without
threads it may not return. -/
theorem PortionCall.returns (c : PortionCall) (hoffset : c.offset ≠ 0)
    (hcount : 1 ≤ c.state.blockCount) :
    (∃ r, processPortionReturn w c.offset c.bytes c.state = .ok r ∧
        (r.2.blockCount = c.state.blockCount ↔ ¬c.Merges w)) ∨
      ¬0 < c.state.threadCount ∧
        ∃ e, processPortionReturn w c.offset c.bytes c.state = .error e := by
  obtain ⟨offset, bytes, s⟩ := c
  dsimp only at hoffset hcount ⊢
  let Returns : Except Stop (Option Nat × State) → Prop := fun x =>
    (∃ r, x = .ok r ∧
      (r.2.blockCount = s.blockCount ↔ ¬PortionCall.Merges w ⟨offset, bytes, s⟩)) ∨
    ¬0 < s.threadCount ∧ ∃ e, x = .error e
  have hstops : ∀ t : State, t.blockCount = s.blockCount →
      ¬PortionCall.Merges w ⟨offset, bytes, s⟩ → Returns (.ok (none, t)) :=
    fun t ht hno => .inl ⟨(none, t), rfl, iff_of_true ht hno⟩
  change Returns (processPortionReturn w offset bytes s)
  simp only [processPortionReturn, if_neg hoffset, page_split]
  refine iteInduction (motive := Returns) (fun hfail => ?_) fun hopen => ?_
  · exact hstops s rfl fun h => by simp [h.opens] at hfail
  refine iteInduction (motive := Returns) (fun hfail => ?_) fun hmap => ?_
  · exact hstops s rfl fun h => by simp [h.maps] at hfail
  refine iteInduction (motive := Returns) (fun hsmall => absurd hsmall.1 hoffset) fun _ => ?_
  refine iteInduction (motive := Returns) (fun hragged => ?_) fun hwhole => ?_
  · exact hstops s rfl fun h => hragged.1 h.divides.1
  refine iteInduction (motive := Returns) (fun hrest => ?_) fun hblocks => ?_
  · exact hstops s rfl fun h => hrest h.divides.2
  let t : State := { s with blockSize := int32 (bytes / 16 / uint64 s.blockCount : Nat) }
  by_cases hthreads : 0 < s.threadCount
  swap
  · -- the process dies behind the tables of the threads, or behind the threads it does not have
    refine iteInduction (motive := Returns) (fun _ => ?_) fun _ => ?_
    · exact .inr ⟨hthreads, _, if_neg hthreads⟩
    · rw [runThreads_none w (s := t) hthreads]
      exact .inr ⟨hthreads, _, rfl⟩
  refine iteInduction (motive := Returns) (fun hfail => ?_) fun hsort => ?_
  · rw [barrierDestroy_threads (s := t) hthreads]
    exact hstops t rfl fun h => by simp [h.sorts] at hfail
  rw [Bool.not_eq_true', Bool.not_eq_false] at hopen hmap hsort
  have hdiv : Divides bytes s.blockCount := ⟨by omega, not_not.mp hblocks⟩
  obtain ⟨file, hsorted⟩ := runThreads_sort w (s := t) hthreads (.sort offset) offset
  obtain ⟨r, hr, -, hkeeps⟩ := mergeRoundsReturn_count w offset offset
    (s := { t with file := file }) hthreads rfl hcount
  have hmerges : PortionCall.Merges w ⟨offset, bytes, s⟩ ↔
      1 < s.blockCount ∧ w.sys (.mallocMerge offset s.blockCount) = true :=
    ⟨fun h => ⟨h.many, h.merges⟩, fun h => ⟨hopen, hmap, hdiv, hthreads, hsort, h.1, h.2⟩⟩
  rw [← hmerges] at hkeeps
  simp only [t] at hsorted hr hkeeps
  rw [hsorted]
  dsimp only
  rw [hr]
  obtain ⟨b, u⟩ := r
  cases b with
  | false => exact .inl ⟨(none, u), rfl, hkeeps⟩
  | true =>
    refine iteInduction (motive := Returns) (fun _ => .inl ⟨(none, u), rfl, hkeeps⟩) fun _ => ?_
    refine iteInduction (motive := Returns) (fun _ => .inl ⟨(none, u), rfl, hkeeps⟩) fun _ => ?_
    exact .inl ⟨(some (bytes / 16), u), rfl, hkeeps⟩

theorem PortionCall.keeps_iff {c : PortionCall} (hoffset : c.offset ≠ 0)
    (hcount : 1 ≤ c.state.blockCount) : c.Keeps w ↔ ¬c.Merges w := by
  rcases c.returns w hoffset hcount with ⟨r, hr, hkeeps⟩ | ⟨hthreads, e, he⟩
  · constructor
    · intro h
      exact hkeeps.mp (h r hr)
    · intro h r' hr'
      rw [hr] at hr'
      cases hr'
      exact hkeeps.mpr h
  · refine iff_of_true (fun r hr => ?_) fun h => hthreads h.threads
    rw [he] at hr
    cases hr

/-- A call after which main goes on has left one block. -/
theorem PortionCall.merges_of_ok {c : PortionCall} (hoffset : c.offset ≠ 0)
    (hmany : 1 < c.state.blockCount) {n : Nat} {t : State}
    (h : processPortion w c.offset c.bytes c.state = .ok (n, t)) : c.Merges w := by
  have htotal := processPortion_total w hoffset c.bytes (by omega : 1 ≤ c.state.blockCount)
  obtain ⟨-, -, hone, -, hthreads⟩ := htotal.of_ok h
  obtain ⟨⟨m, u⟩, hr, hkeeps⟩ :=
    (c.returns w hoffset (by omega)).resolve_right fun hno => hno.1 hthreads
  rw [processPortion_told, hr] at h
  cases m with
  | none => cases h
  | some m =>
    cases h
    dsimp only at hone hkeeps
    by_contra hno
    have hsame := hkeeps.mpr hno
    omega

end Count

/-- The portions are treated alike: every call finds the number of blocks of the command line, and
leaves it. -/
structure Alike (w : World) (memsizeArg blocks threads : Int) (file : List UInt8) : Prop where
  finds : ∀ c ∈ calls w memsizeArg blocks threads file, c.state.blockCount = blocks
  keeps : ∀ c ∈ calls w memsizeArg blocks threads file, c.Keeps w

/-- The first portion of a file. -/
def firstCall (memsizeArg blocks threads : Int) (file : List UInt8) : PortionCall :=
  ⟨8, portionBytes (uint64 memsizeArg) file.length 8, ⟨blocks, threads, 0, file⟩⟩

section Main

variable {w : World} {memsizeArg blocks threads : Int} {file : List UInt8}

theorem calls_eq (h : Accepted w memsizeArg blocks threads file) :
    calls w memsizeArg blocks threads file =
      portionCalls w (uint64 memsizeArg) h.memsize_pos file.length
        (maxRunsOf (uint64 memsizeArg) file.length) 8 0 ⟨blocks, threads, 0, file⟩ := dif_pos h

theorem calls_nil (h : ¬(Accepted w memsizeArg blocks threads file ∧ 8 < file.length)) :
    calls w memsizeArg blocks threads file = [] := by
  by_cases hacc : Accepted w memsizeArg blocks threads file
  · rw [calls_eq hacc, portionCalls, if_neg fun hmore => h ⟨hacc, hmore⟩]
  · exact dif_neg hacc

theorem firstCall_mem (h : Accepted w memsizeArg blocks threads file) (hmore : 8 < file.length) :
    firstCall memsizeArg blocks threads file ∈ calls w memsizeArg blocks threads file := by
  rw [calls_eq h]
  exact portionCalls_head hmore fun hrefused => hrefused.1 rfl

/-- The portions are treated alike unless threads cut the first of them into several blocks and
complete a round of merges. -/
theorem portions_alike_iff (w : World) (memsizeArg blocks threads : Int) (file : List UInt8) :
    Alike w memsizeArg blocks threads file ↔
      ¬(Accepted w memsizeArg blocks threads file ∧ 8 < file.length ∧
        (firstCall memsizeArg blocks threads file).Merges w) := by
  have hfirst : (firstCall memsizeArg blocks threads file).offset ≠ 0 := Nat.succ_ne_zero 7
  constructor
  · rintro h ⟨hacc, hmore, hmerges⟩
    have hkeeps := h.keeps _ (firstCall_mem hacc hmore)
    exact (PortionCall.keeps_iff w hfirst hacc.blocks_pos).mp hkeeps hmerges
  · intro hno
    by_cases hacc : Accepted w memsizeArg blocks threads file ∧ 8 < file.length
    · obtain ⟨hacc, hmore⟩ := hacc
      have hpos : 1 ≤ blocks := hacc.blocks_pos
      have hnot : ¬(firstCall memsizeArg blocks threads file).Merges w := fun h =>
        hno ⟨hacc, hmore, h⟩
      rcases Int.lt_or_eq_of_le hpos with hmany | hone
      · -- the first call is the only one
        have hcalls : calls w memsizeArg blocks threads file =
            [firstCall memsizeArg blocks threads file] := by
          cases hrun : processPortion w 8 (portionBytes (uint64 memsizeArg) file.length 8)
              ⟨blocks, threads, 0, file⟩ with
          | ok r => exact absurd (PortionCall.merges_of_ok w hfirst hmany hrun) hnot
          | error e =>
            rw [calls_eq hacc, portionCalls_last hmore (fun hrefused => hrefused.1 rfl) hrun]
            rfl
        constructor
        · intro c hc
          rw [hcalls, List.mem_singleton] at hc
          rw [hc]
          rfl
        · intro c hc
          rw [hcalls, List.mem_singleton] at hc
          rw [hc]
          exact (PortionCall.keeps_iff w hfirst hpos).mpr hnot
      · have hone : blocks = 1 := hone.symm
        have hall : ∀ c ∈ calls w memsizeArg blocks threads file,
            c.offset ≠ 0 ∧ c.state.blockCount = 1 := by
          intro c hc
          rw [calls_eq hacc] at hc
          obtain ⟨hoffset, -, -, hcount⟩ := portionCalls_state (Nat.succ_ne_zero 7) hpos c hc
          exact ⟨hoffset, hcount.elim (fun h => h.trans hone) fun h => h⟩
        constructor
        · intro c hc
          rw [(hall c hc).2, hone]
        · intro c hc
          obtain ⟨hoffset, hcount⟩ := hall c hc
          refine (PortionCall.keeps_iff w hoffset (Int.le_of_eq hcount.symm)).mpr fun h => ?_
          have hmany := h.many
          omega
    · have hnil := calls_nil hacc
      constructor
      · intro c hc
        rw [hnil] at hc
        cases hc
      · intro c hc
        rw [hnil] at hc
        cases hc

end Main

/-- Asked for 8 blocks, the second call finds one: it takes the portion of 4 records, which the
first one would have refused. -/
theorem second_portion_in_one_block :
    (∃ c ∈ calls calmWorld 4096 8 2 unevenFile, c.offset = 4104 ∧ c.bytes = 64 ∧
      c.state.blockCount = 1 ∧ Divides 64 1 ∧ ¬Divides 64 8) ∧
    ¬Alike calmWorld 4096 8 2 unevenFile := by
  have hworks : calmWorld.Works := fun _ => rfl
  have hacc : Accepted calmWorld 4096 8 2 unevenFile :=
    ⟨by decide, by decide, by decide, by decide, by rw [unevenFile_length]; decide, ⟨rfl, rfl⟩,
      rfl, rfl, by decide⟩
  have hsecond : ∃ c ∈ calls calmWorld 4096 8 2 unevenFile, c.offset = 4104 ∧ c.bytes = 64 ∧
      c.state.blockCount = 1 ∧ Divides 64 1 ∧ ¬Divides 64 8 := by
    have htotal := processPortion_total calmWorld (Nat.succ_ne_zero 7) 4096
      (s := ⟨8, 2, 0, unevenFile⟩) (by decide)
    rw [calls_eq hacc]
    have hmem : uint64 4096 = 4096 := by decide
    have hbytes : portionBytes 4096 4168 8 = 4096 := by decide
    have hruns : maxRunsOf 4096 4168 = 2 := by decide
    simp only [hmem, unevenFile_length, hruns]
    cases hrun : processPortion calmWorld 8 4096 ⟨8, 2, 0, unevenFile⟩ with
    | error e =>
      exact absurd ⟨by decide, by decide⟩ ((htotal.of_error hrun).2 (by decide) hworks)
    | ok r =>
      obtain ⟨n, t⟩ := r
      obtain ⟨-, -, hone, -, -⟩ := htotal.of_ok hrun
      refine ⟨⟨4104, 64, t⟩, ?_, rfl, rfl, hone, by decide, by decide⟩
      rw [portionCalls_next (by decide) (by decide) (by rw [hbytes]; exact hrun) (by decide)]
      exact List.mem_cons_of_mem _ (portionCalls_head (by decide) (by decide))
  refine ⟨hsecond, fun halike => ?_⟩
  obtain ⟨c, hc, -, -, hone, -⟩ := hsecond
  have height := halike.finds c hc
  omega

end Osisp.Lab6
