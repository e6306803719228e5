import Osisp.Lab6.Pipeline

namespace Osisp.Lab6

open Osisp.Lib Osisp.Lib.WorkPool

/-- The records behind the header of a file. -/
def records (file : List UInt8) : List IndexRecord :=
  recordCodec.load 8 ((file.length - 8) / 16) file

theorem recordCodec_enc_dec (bs : List UInt8) (h : bs.length = 16) :
    recordCodec.enc (recordCodec.dec bs) = bs := by
  have hword : ∀ cs : List UInt8, cs.length = 8 →
      word (UInt64.ofNat (leVal cs)).toNat = cs := by
    intro cs hcs
    have hlt := leVal_lt cs
    rw [hcs] at hlt
    rw [UInt64.toNat_ofNat', Nat.mod_eq_of_lt (by omega), word, ← hcs, leBytes_leVal]
  have htake : (bs.take 8).length = 8 := by
    rw [List.length_take]
    omega
  have hdrop : (bs.drop 8).length = 8 := by
    rw [List.length_drop]
    omega
  calc recordCodec.enc (recordCodec.dec bs) = bs.take 8 ++ bs.drop 8 :=
      congrArg₂ (· ++ ·) (hword _ htake) (hword _ hdrop)
    _ = bs := List.take_append_drop 8 bs

theorem file_split {file : List UInt8} (h : 8 ≤ file.length) :
    ∃ front tail, front.length = 8 ∧ tail.length < 16 ∧
      file = front ++ recordCodec.encode (records file) ++ tail := by
  have hroom : 8 + 16 * ((file.length - 8) / 16) ≤ file.length := by omega
  have hcells := recordCodec.encode_load recordCodec_enc_dec hroom
  refine ⟨file.take 8, (file.drop 8).drop (16 * ((file.length - 8) / 16)), ?_, ?_, ?_⟩
  · rw [List.length_take]
    omega
  · rw [List.length_drop, List.length_drop]
    omega
  · rw [records, hcells]
    have hwidth : recordCodec.width = 16 := rfl
    rw [hwidth, List.append_assoc, List.take_append_drop, List.take_append_drop]

theorem records_file {front tail : List UInt8} (hfront : front.length = 8)
    (htail : tail.length < 16) (xs : List IndexRecord) :
    records (front ++ recordCodec.encode xs ++ tail) = xs := by
  have hwidth : recordCodec.width = 16 := rfl
  have hcount : ((front ++ recordCodec.encode xs ++ tail).length - 8) / 16 = xs.length := by
    rw [List.length_append, List.length_append, recordCodec.encode_length, hfront, hwidth]
    omega
  rw [records, hcount, recordCodec.load_encode hfront]

theorem records_encode {front : List UInt8} (hfront : front.length = 8) (xs : List IndexRecord) :
    records (front ++ recordCodec.encode xs) = xs := by
  have h := records_file hfront (by decide : [].length < 16) xs
  rwa [List.append_nil] at h

theorem runThreads_threads {w : World} {phase : Phase} {P : Pool (List UInt8) (List IndexRecord)}
    {entry : Pc (List IndexRecord)} {s t : State} (h : runThreads w phase P entry s = .ok t) :
    0 < s.threadCount := by
  unfold runThreads at h
  dsimp only at h
  split at h
  · exact (barrierDestroy_ok h).1
  · cases h

/-- A portion that is processed was sorted by threads, and its records are in order. -/
theorem processPortion_ok {w : World} (hw : w.Works) {front back : List UInt8}
    {xs : List IndexRecord} {k n : Nat} {s t : State} (hfront : front.length ≠ 0)
    (hblocks : s.blockCount = (2 ^ k : Nat)) (hk : k < 31) (hsmall : xs.length < 2 ^ 31)
    (hnan : NoNaN xs) (hfile : s.file = front ++ recordCodec.encode xs ++ back)
    (h : processPortion w front.length (16 * xs.length) s = .ok (n, t)) :
    n = xs.length ∧ t.blockCount = 1 ∧
      ∃ ys, t.file = front ++ recordCodec.encode ys ++ back ∧ ys.Perm xs ∧ Sorted ys := by
  have hrun := h
  rw [processPortion_works hw hfront, uint64_blocks hblocks hk] at hrun
  have hdvd : 2 ^ k ∣ xs.length := by
    by_contra hno
    rw [if_pos fun hmod => hno (Nat.dvd_of_mod_eq_zero hmod)] at hrun
    cases hrun
  have hthreads : 0 < s.threadCount := by
    have hmod : ¬xs.length % 2 ^ k ≠ 0 := not_not.mpr (Nat.mod_eq_zero_of_dvd hdvd)
    rw [if_neg hmod] at hrun
    dsimp only at hrun
    generalize hphase : runThreads w _ _ _ _ = phase at hrun
    cases phase with
    | error e => cases hrun
    | ok u =>
      have hthreads := runThreads_threads hphase
      exact hthreads
  obtain ⟨ys, hsorted, hys, hperm⟩ := processPortion_sorted hw hfront hblocks hk hdvd hthreads
    hsmall hnan hfile
  rw [hsorted] at h
  cases h
  exact ⟨rfl, rfl, ys, rfl, hperm, hys⟩

theorem processPortion_ragged {w : World} (hw : w.Works) {offset bytes : Nat}
    (hoffset : offset ≠ 0) (hbytes : bytes % 16 ≠ 0) (s : State) :
    processPortion w offset bytes s = .error (.failure, s.file) := by
  simp only [processPortion, hw _, Bool.not_true, Bool.false_eq_true, if_false]
  rw [if_neg fun h => hoffset h.1, if_pos ⟨hbytes, hoffset⟩]

theorem portion_bytes {m n tail bytes : Nat} (htail : tail < 16)
    (hbytes : bytes = if 16 * m ≤ 16 * n + tail then 16 * m else 16 * n + tail)
    (hwhole : bytes % 16 = 0) : bytes = 16 * min m n ∧ (n < m → tail = 0) := by
  split at hbytes
  · omega
  · omega

/-- A round of the loop that is not the last thing the program does. -/
theorem portionLoop_round {w : World} {memsize size offset : Nat} {hmem : 0 < memsize}
    {maxRuns : Int} {runs : List RunBoundary} {s : State} {result : List RunBoundary × State}
    (hmore : offset < size)
    (h : portionLoop w memsize hmem size maxRuns offset runs s = .ok result) :
    ∃ bytes n t, bytes = (if memsize ≤ size - offset then memsize else size - offset) ∧
      processPortion w offset bytes s = .ok (n, t) ∧
      portionLoop w memsize hmem size maxRuns (offset + bytes) (runs ++ [⟨offset, n⟩]) t =
        .ok result := by
  rw [portionLoop, if_pos hmore] at h
  dsimp only at h
  generalize hbytes : (if memsize ≤ size - offset then memsize else size - offset) = bytes at h
  split at h
  · cases h
  · cases hrun : processPortion w offset bytes s with
    | error e =>
      rw [hrun] at h
      cases h
    | ok r =>
      obtain ⟨n, t⟩ := r
      simp only [hrun] at h
      split at h
      · cases h
      · exact ⟨bytes, n, t, rfl, hrun, h⟩

/-- Where the loop over the portions of a file with `tail` behind its last record stands. -/
structure Progress (front tail : List UInt8) (done : List (List IndexRecord))
    (todo : List IndexRecord) (s : State) : Prop where
  file_eq : s.file = front ++ recordCodec.encode (done.flatten ++ todo) ++ tail
  blocks : ∃ k < 31, s.blockCount = (2 ^ k : Nat)
  small : (done.flatten ++ todo).length < 2 ^ 31
  noNaN : NoNaN (done.flatten ++ todo)

section Loop

variable {w : World} {m size : Nat} {hmem : 0 < 16 * m} {maxRuns : Int} {front tail : List UInt8}
  {done : List (List IndexRecord)} {todo : List IndexRecord} {s : State}
  {result : List RunBoundary × State}

/-- In a loop that comes to its end the next portion is sorted. -/
theorem Progress.step (hw : w.Works) (hfront : front.length = 8) (htail : tail.length < 16)
    (hp : Progress front tail done todo s)
    (hsize : size = 8 + 16 * (done.flatten ++ todo).length + tail.length)
    (hmore : 8 + 16 * done.flatten.length < size)
    (h : portionLoop w (16 * m) hmem size maxRuns (8 + 16 * done.flatten.length) (runsOf 8 done) s =
      .ok result) :
    ∃ ys t, ys.Perm (todo.take m) ∧ Sorted ys ∧ 0 < todo.length ∧
      t.file = front ++ recordCodec.encode ((done ++ [ys]).flatten ++ todo.drop m) ++ tail ∧
      t.blockCount = 1 ∧
      portionLoop w (16 * m) hmem size maxRuns (8 + 16 * (done ++ [ys]).flatten.length)
        (runsOf 8 (done ++ [ys])) t = .ok result := by
  obtain ⟨bytes, count, u, hbytes, hrun, hloop⟩ := portionLoop_round hmore h
  have hlen : (done.flatten ++ todo).length = done.flatten.length + todo.length :=
    List.length_append
  have hsmall := hp.small
  have hwhole : bytes % 16 = 0 := by
    by_contra hragged
    rw [processPortion_ragged hw (by omega) hragged] at hrun
    cases hrun
  have hleft : size - (8 + 16 * done.flatten.length) = 16 * todo.length + tail.length := by
    omega
  rw [hleft] at hbytes
  obtain ⟨rfl, hlast⟩ := portion_bytes htail hbytes hwhole
  have htake : (todo.take m).length = min m todo.length := List.length_take
  have hoffset : (front ++ recordCodec.encode done.flatten).length =
      8 + 16 * done.flatten.length := by rw [end_encode, hfront]
  have hcut : s.file = front ++ recordCodec.encode done.flatten ++
      recordCodec.encode (todo.take m) ++ (recordCodec.encode (todo.drop m) ++ tail) := by
    rw [hp.file_eq, encode_cut done todo m]
  obtain ⟨k, hk, hblocks⟩ := hp.blocks
  rw [← hoffset, ← htake] at hrun
  obtain ⟨rfl, hcount, ys, hfile, hperm, hsorted⟩ := processPortion_ok hw (by omega) hblocks hk
    (by omega) (fun r hr =>
      hp.noNaN r (List.mem_append_right _ (List.mem_of_mem_take hr))) hcut hrun
  refine ⟨ys, u, hperm, hsorted, ?_, ?_, hcount, ?_⟩
  · by_contra hnone
    have htail0 := hlast (by omega)
    omega
  · exact hfile.trans (encode_done done ys _ front tail)
  · have hys : ys.length = min m todo.length := by rw [hperm.length_eq, htake]
    rw [runsOf_append, List.flatten_append, List.length_append, List.flatten_singleton, hys,
      Nat.mul_add, ← Nat.add_assoc, ← htake]
    rwa [← htake] at hloop

/-- What the loop over the portions has done when it ends. -/
theorem Progress.run (hw : w.Works) (hfront : front.length = 8) (htail : tail.length < 16)
    (hp : Progress front tail done todo s) (hsorted : ∀ r ∈ done, Sorted r)
    (hsize : size = 8 + 16 * (done.flatten ++ todo).length + tail.length)
    (h : portionLoop w (16 * m) hmem size maxRuns (8 + 16 * done.flatten.length) (runsOf 8 done) s =
      .ok result) :
    ∃ lists, result.1 = runsOf 8 lists ∧
      result.2.file = front ++ recordCodec.encode lists.flatten ∧
      lists.flatten.Perm (done.flatten ++ todo) ∧ ∀ r ∈ lists, Sorted r := by
  induction hn : todo.length using Nat.strong_induction_on generalizing done todo s with
  | h n ih =>
    by_cases hmore : 8 + 16 * done.flatten.length < size
    · obtain ⟨ys, t, hperm, hys, hsome, hfile, hcount, hloop⟩ :=
        hp.step hw hfront htail hsize hmore h
      have hall := portion_perm done hperm
      have hnext : Progress front tail (done ++ [ys]) (todo.drop m) t :=
        ⟨hfile, ⟨0, by decide, hcount⟩, hall.length_eq ▸ hp.small, hp.noNaN.perm hall⟩
      have hfewer : (todo.drop m).length < n := by
        rw [List.length_drop]
        omega
      have hdone : ∀ r ∈ done ++ [ys], Sorted r := by
        rw [List.forall_mem_append, List.forall_mem_singleton]
        exact ⟨hsorted, hys⟩
      obtain ⟨lists, hruns, htfile, hlists, hlsorted⟩ :=
        ih _ hfewer hnext hdone (hall.length_eq ▸ hsize) hloop rfl
      exact ⟨lists, hruns, htfile, hlists.trans hall, hlsorted⟩
    · have hlen : (done.flatten ++ todo).length = done.flatten.length + todo.length :=
        List.length_append
      have htodo : todo = [] := List.length_eq_zero_iff.mp (by omega)
      have hnone : tail = [] := List.length_eq_zero_iff.mp (by omega)
      rw [portionLoop, if_neg hmore] at h
      cases h
      subst htodo hnone
      refine ⟨done, rfl, ?_, ?_, hsorted⟩
      · rw [hp.file_eq, List.append_nil, List.append_nil]
      · rw [List.append_nil]

end Loop

section Errors

variable {w : World} {e : Stop}

theorem Outcome.ne_success {o : Outcome} {file : List UInt8} (h : o ≠ .success) :
    ((o, file) : Stop).1 ≠ .success := h

theorem barrierDestroy_error {α : Type} {s : State} {next : Except Stop α}
    (hnext : Ends (fun e : Stop => e.1 ≠ .success) (fun _ => True) next) :
    Ends (fun e : Stop => e.1 ≠ .success) (fun _ => True) (barrierDestroy s next) :=
  barrierDestroy_ends (fun _ => Outcome.ne_success (by decide)) fun _ => hnext

theorem failed_error {α : Type} {s : State} {file : List UInt8} :
    Ends (fun e : Stop => e.1 ≠ .success) (fun _ => True)
      (barrierDestroy s (.error (.failure, file) : Except Stop α)) :=
  barrierDestroy_error (Outcome.ne_success (by decide))

theorem runThreads_error {phase : Phase} {P : Pool (List UInt8) (List IndexRecord)}
    {entry : Pc (List IndexRecord)} {s : State} (h : runThreads w phase P entry s = .error e) :
    e.1 ≠ .success := by
  unfold runThreads at h
  dsimp only at h
  split at h
  · rename_i file _
    have hok : Ends (fun e : Stop => e.1 ≠ .success) (fun _ => True)
        (.ok { s with file := file } : Except Stop State) := trivial
    have hends := barrierDestroy_error (s := { s with file }) hok
    rwa [h] at hends
  · cases h
    exact Outcome.ne_success (by decide)

theorem mergeRounds_error {offset base : Nat} {current : Int} {s : State}
    (h : mergeRounds w offset base current s = .error e) : e.1 ≠ .success := by
  fun_induction mergeRounds w offset base current s with
  | case1 => exact failed_error.of_error h
  | case2 current s hmany hcall e' hrun =>
    cases h
    exact runThreads_error hrun
  | case3 current s hmany hcall t hrun ih => exact ih h
  | case4 => cases h

theorem processPortion_error {offset bytes : Nat} {s : State}
    (h : processPortion w offset bytes s = .error e) : e.1 ≠ .success := by
  have hfails : ∀ file : List UInt8, ((.failure, file) : Stop).1 ≠ .success := fun _ =>
    Outcome.ne_success (by decide)
  have hends : Ends (fun e : Stop => e.1 ≠ .success) (fun _ => True)
      (processPortion w offset bytes s) := by
    unfold processPortion
    dsimp only
    refine .ite (fun _ => hfails _) fun _ => .ite (fun _ => hfails _) fun _ =>
      .ite (fun _ => hfails _) fun _ => .ite (fun _ => hfails _) fun _ =>
      .ite (fun _ => hfails _) fun _ => ?_
    refine iteInduction (motive := Ends _ _) (fun _ => failed_error) fun _ => ?_
    cases hrun : runThreads w (.sort offset) _ .arriveStart _ with
    | error e => exact runThreads_error hrun
    | ok t =>
      dsimp only
      cases hrounds : mergeRounds w offset _ t.blockCount t with
      | error e => exact mergeRounds_error hrounds
      | ok u => exact .ite (fun _ => hfails _) fun _ => .ite (fun _ => hfails _) fun _ => trivial
  rwa [h] at hends

theorem portionLoop_error {memsize size offset : Nat} {hmem : 0 < memsize} {maxRuns : Int}
    {runs : List RunBoundary} {s : State}
    (h : portionLoop w memsize hmem size maxRuns offset runs s = .error e) : e.1 ≠ .success := by
  fun_induction portionLoop w memsize hmem size maxRuns offset runs s with
  | case1 =>
    cases h
    exact Outcome.ne_success (by decide)
  | case2 _ _ _ _ _ _ _ e' hrun =>
    cases h
    exact processPortion_error hrun
  | case3 =>
    cases h
    exact Outcome.ne_success (by decide)
  | case4 _ _ _ _ _ _ _ _ _ _ _ ih => exact ih h
  | case5 => cases h

theorem mergePass_error {runs : List RunBoundary} {file : List UInt8}
    (h : mergePass w runs file = .error e) : e.1 = .failure := by
  fun_induction mergePass w runs file with
  | case4 =>
    rename_i hrest ih
    cases h
    exact ih hrest
  | case5 => cases h
  | case6 => cases h
  | _ =>
    cases h
    rfl

theorem externalMerge_error {runs : List RunBoundary} {file : List UInt8}
    (h : externalMerge w runs file = .error e) : e.1 = .failure := by
  fun_induction externalMerge w runs file with
  | case1 runs file hmany e' hpass =>
    cases h
    exact mergePass_error hpass
  | case2 runs file hmany runs' file' hpass ih => exact ih h
  | case3 => cases h

end Errors

theorem Accepted.blocks_pow {w : World} {memsizeArg blocks threads : Int} {file : List UInt8}
    (h : Accepted w memsizeArg blocks threads file) : ∃ k, blocks = (2 ^ k : Nat) := by
  have hpos := h.blocks_pos
  obtain ⟨k, hk⟩ := (Nat.and_sub_one_eq_zero_iff_isPowerOfTwo (by omega)).mp h.pow
  refine ⟨k, ?_⟩
  omega

theorem Accepted.works {w w' : World} {memsizeArg blocks threads : Int} {file : List UInt8}
    (h : Accepted w memsizeArg blocks threads file) (hw : w'.Works) :
    Accepted w' memsizeArg blocks threads file :=
  ⟨h.pages, h.blocks_pos, h.pow, h.threads_le, h.header, ⟨hw _, hw _⟩, hw _, hw _, h.memsize_pos⟩

theorem externalMerge_of_finish {w : World} {runs : List RunBoundary} {s : State}
    {out : List UInt8} (h : finish w (.ok (runs, s)) = (.success, out)) :
    externalMerge w runs s.file = .ok out := by
  by_cases hmany : 1 < runs.length
  · rw [finish, if_pos hmany] at h
    cases hmerge : externalMerge w runs s.file with
    | error e =>
      rw [hmerge] at h
      have hfailed := externalMerge_error hmerge
      rw [show e = (.success, out) from h] at hfailed
      cases hfailed
    | ok merged =>
      rw [hmerge] at h
      rw [(Prod.mk.inj h).2]
  · rw [finish, if_neg hmany] at h
    rw [externalMerge, if_neg hmany, (Prod.mk.inj h).2]

/-- What the checks of `main` let through, and what is behind them. -/
theorem sortIndex_success {w : World} {memsizeArg blocks threads : Int} {file out : List UInt8}
    (h : sortIndex w memsizeArg blocks threads file = (.success, out)) :
    8 ≤ file.length ∧ (∃ k, blocks = (2 ^ k : Nat)) ∧ 16 ∣ uint64 memsizeArg ∧
      ∃ (hmem : 0 < uint64 memsizeArg) (maxRuns : Int),
        (∃ runs s, portionLoop w (uint64 memsizeArg) hmem file.length maxRuns 8 []
            ⟨blocks, threads, 0, file⟩ = .ok (runs, s) ∧ externalMerge w runs s.file = .ok out) ∧
        -- the checks do not depend on what `qsort` and the threads do
        ∀ w' : World, w'.Works → ∀ runs s out', portionLoop w' (uint64 memsizeArg) hmem file.length
            maxRuns 8 [] ⟨blocks, threads, 0, file⟩ = .ok (runs, s) →
          externalMerge w' runs s.file = .ok out' →
            sortIndex w' memsizeArg blocks threads file = (.success, out') := by
  by_cases hacc : Accepted w memsizeArg blocks threads file
  · rw [sortIndex_accepted hacc] at h
    refine ⟨hacc.header, hacc.blocks_pow, dvd_of_pages hacc.pages, hacc.memsize_pos,
      maxRunsOf (uint64 memsizeArg) file.length, ?_, ?_⟩
    · cases hloop : portionLoop w (uint64 memsizeArg) hacc.memsize_pos file.length
          (maxRunsOf (uint64 memsizeArg) file.length) 8 [] ⟨blocks, threads, 0, file⟩ with
      | error e =>
        rw [hloop] at h
        exact absurd (congrArg Prod.fst h) (portionLoop_error hloop)
      | ok r =>
        obtain ⟨runs, s⟩ := r
        rw [hloop] at h
        exact ⟨runs, s, rfl, externalMerge_of_finish h⟩
    · intro w' hw' runs s out' hloop hmerge
      rw [sortIndex_accepted (hacc.works hw'), hloop]
      exact finish_ok hmerge
  · rcases sortIndex_refused hacc with hrun | ⟨-, hrun⟩
    · rw [hrun] at h
      cases h
    · rw [hrun] at h
      cases h

/-- A sort that ends with `EXIT_SUCCESS` has sorted the records. -/
theorem success_means_sorted (w : World) (hw : w.Works) (memsizeArg blocks threads : Int)
    (hint : blocks < 2 ^ 31) (file out : List UInt8) (hnan : NoNaN (records file))
    (hsmall : (records file).length < 2 ^ 31)
    (h : sortIndex w memsizeArg blocks threads file = (.success, out)) :
    InOrder (records out) := by
  obtain ⟨hlong, ⟨k, rfl⟩, ⟨m, hm⟩, hmem, maxRuns, ⟨runs, s, hloop, hmerge⟩, -⟩ :=
    sortIndex_success h
  obtain ⟨front, tail, hfront, htail, hfile⟩ := file_split hlong
  simp only [hm] at hmem hloop
  have hk := lt_of_two_pow_int hint
  have hsize : file.length = 8 + 16 * (records file).length + tail.length := by
    have hlen := congrArg List.length hfile
    rwa [List.length_append, end_encode, hfront] at hlen
  have hstart : Progress front tail [] (records file) ⟨(2 ^ k : Nat), threads, 0, file⟩ :=
    ⟨hfile, ⟨k, hk, rfl⟩, hsmall, hnan⟩
  obtain ⟨lists, rfl, hsfile, hperm, hsorted⟩ :=
    hstart.run hw hfront htail (fun r hr => absurd hr List.not_mem_nil) hsize hloop
  rw [List.flatten_nil, List.nil_append] at hperm
  -- the runs are merged
  obtain ⟨ys, hys, hysorted, hysperm⟩ := externalMerge_sorted_iff hw front []
    (hperm.length_eq ▸ hsmall) (hnan.perm hperm)
  rw [List.append_nil, List.append_nil, hfront] at hys
  rw [hsfile, hys] at hmerge
  cases hmerge
  rw [records_encode hfront, inOrder_iff_sorted (hnan.perm (hysperm.trans hperm)), hysorted]
  exact hsorted

/-- A file of 256 records with the marks 2.0 and 1.0 in turn. -/
def unsortedFile : List UInt8 := word 256 ++ recordCodec.encode (makeRecords 256 twoMarks)

theorem records_unsortedFile : records unsortedFile = makeRecords 256 twoMarks :=
  records_encode (word_length 256) _

theorem success_means_sorted_one : ∃ out, sortIndex calmWorld 4096 4 1 unsortedFile =
      (.success, out) ∧ InOrder (records out) := by
  have hnan := noNaN_makeRecords fun i (_ : i < 256) => twoMarks_isNaN i
  have hlen := makeRecords_length 256 twoMarks
  have hworks : calmWorld.Works := fun _ => rfl
  have hpage : (pageSize : Int) ∣ 4096 := by decide
  have hfour : 4 * (1 : Int) ≤ (2 ^ 2 : Nat) := by decide
  obtain ⟨ys, hrun, -, -⟩ := sortIndex_sorted hworks (by rw [hlen]; decide) (by rw [hlen]) hnan
    (by decide) hpage (by decide) (by decide) (by decide) hfour
  rw [hlen] at hrun
  refine ⟨_, hrun, success_means_sorted calmWorld (fun _ => rfl) 4096 4 1 (by decide) unsortedFile _
    ?_ ?_ hrun⟩
  · rwa [records_unsortedFile]
  · rw [records_unsortedFile, hlen]
    decide

end Osisp.Lab6
