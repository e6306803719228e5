import Osisp.Lab6.ExitSuccess

namespace Osisp.Lab6

open Osisp.Lib Osisp.Lib.WorkPool

/-- `qsort` only moves the elements, also by a comparison that is not consistent. -/
def Qsort.Permutes (q : Qsort) : Prop :=
  ∀ (cmp : IndexRecord → IndexRecord → Int) (xs : List IndexRecord), (q.call cmp xs).Perm xs

/-- `qsort` loses none of these records. -/
def Qsort.Keeps (q : Qsort) (all : List IndexRecord) : Prop :=
  ∀ xs ⊆ all, (q.call cmpIndex xs).Perm xs

theorem Qsort.keeps {q : Qsort} {all : List IndexRecord} (h : NoNaN all ∨ q.Permutes) :
    q.Keeps all := by
  intro xs hxs
  rcases h with hnan | hq
  · exact (q.sorts fun r hr => hnan r (hxs hr)).1
  · exact hq cmpIndex xs

/-- Between `front` and `back` the file has the records `xs` in some order. -/
def Shuffled (front back : List UInt8) (xs : List IndexRecord) (file : List UInt8) : Prop :=
  ∃ ys : List IndexRecord, ys.Perm xs ∧ file = front ++ recordCodec.encode ys ++ back

section Shuffled

variable {front back file : List UInt8} {xs ys : List IndexRecord}

theorem Shuffled.of_eq (h : file = front ++ recordCodec.encode xs ++ back) :
    Shuffled front back xs file := ⟨xs, .refl xs, h⟩

theorem Shuffled.perm (h : Shuffled front back xs file) (hp : xs.Perm ys) :
    Shuffled front back ys file := by
  obtain ⟨zs, hzs, hfile⟩ := h
  exact ⟨zs, hzs.trans hp, hfile⟩

theorem Shuffled.widen {as bs : List IndexRecord}
    (h : Shuffled (front ++ recordCodec.encode as) (recordCodec.encode bs ++ back) xs file) :
    Shuffled front back (as ++ xs ++ bs) file := by
  obtain ⟨zs, hzs, rfl⟩ := h
  refine ⟨as ++ zs ++ bs, (hzs.append_left as).append_right bs, ?_⟩
  simp only [recordCodec.encode_append, List.append_assoc]

end Shuffled

/-- The rounds of a portion, up to an allocation that fails. -/
theorem mergeRounds_ends (w : World) (offset : Nat) {front back : List UInt8} {k size : Nat}
    {s : State} {blocks : List (List IndexRecord)} (hblocks : s.blockCount = (2 ^ k : Nat))
    (hsize : s.blockSize = size) (hthreads : 0 < s.threadCount) (hsmall : 2 ^ k * size < 2 ^ 31)
    (hfile : Chunks front back (2 ^ k) size s.file blocks) :
    Ends (fun e : Stop => Shuffled front back blocks.flatten e.2)
      (fun u => u.blockCount = 1 ∧ u.threadCount = s.threadCount ∧
        Shuffled front back blocks.flatten u.file)
      (mergeRounds w offset front.length (2 ^ k : Nat) s) := by
  induction k generalizing size s blocks with
  | zero =>
    rw [mergeRounds, dif_neg (by decide)]
    exact ⟨hblocks, rfl, .of_eq hfile.file_eq⟩
  | succ k ih =>
    cases hcall : w.sys (.mallocMerge offset (2 ^ (k + 1) : Nat)) with
    | false =>
      have hpos := Nat.two_pow_pos k
      have hmany : (1 : Int) < (2 ^ (k + 1) : Nat) := by
        rw [Nat.pow_succ]
        omega
      rw [mergeRounds, dif_pos hmany, hcall, Bool.not_false, if_pos rfl,
        barrierDestroy_threads hthreads]
      exact Shuffled.of_eq hfile.file_eq
    | true =>
      obtain ⟨hnext, hlevel, hround⟩ := mergeRounds_round offset hblocks hsize hthreads hsmall
        hfile hcall
      have hperm := mergePairs_perm cmpLe blocks
      rw [hround]
      apply (ih (s := ⟨(2 ^ k : Nat), s.threadCount, (2 * size : Nat), _⟩) rfl rfl hthreads
        (hlevel ▸ hsmall) hnext).imp
      · intro e he
        exact he.perm hperm
      · intro u hu
        exact ⟨hu.1, hu.2.1, hu.2.2.perm hperm⟩

/-- A portion of the records `xs`, refused or sorted, up to a call that fails. -/
theorem processPortion_ends (w : World) (bytes : Nat) {front back : List UInt8}
    {xs : List IndexRecord} {k : Nat} {s : State} (hqsort : w.qsort.Keeps xs)
    (hfront : front.length ≠ 0) (hblocks : s.blockCount = (2 ^ k : Nat)) (hk : k < 31)
    (hthreads : 0 < s.threadCount) (hsmall : xs.length < 2 ^ 31)
    (hfile : s.file = front ++ recordCodec.encode xs ++ back)
    (hbytes : bytes % 16 = 0 → bytes = 16 * xs.length) :
    Ends (fun e : Stop => Shuffled front back xs e.2)
      (fun r => r.1 = xs.length ∧ bytes = 16 * xs.length ∧ 2 ^ k ∣ xs.length ∧
        r.2.blockCount = 1 ∧ r.2.threadCount = s.threadCount ∧ Shuffled front back xs r.2.file)
      (processPortion w front.length bytes s) := by
  have hstart : Shuffled front back xs s.file := .of_eq hfile
  simp only [processPortion, if_neg hfront, page_split, uint64_blocks hblocks hk]
  -- the checks in front of the threads leave the file as it is
  refine .ite (fun _ => hstart) fun _ => .ite (fun _ => hstart) fun _ =>
    .ite (fun _ => hstart) fun _ => .ite (fun _ => hstart) fun hragged => ?_
  obtain rfl := hbytes (by omega)
  have hrecs : 16 * xs.length / 16 = xs.length := by omega
  rw [hrecs]
  refine .ite (fun _ => hstart) fun hrest =>
    iteInduction (motive := Ends _ _) (fun _ => ?_) fun _ => ?_
  · rw [barrierDestroy_threads hthreads]
    exact hstart
  obtain ⟨size, hsize⟩ := Nat.dvd_of_mod_eq_zero (not_not.mp hrest)
  obtain ⟨blocks, rfl, hcount, hwidth⟩ := exists_chunks hsize
  have hquot : int32 (blocks.flatten.length / 2 ^ k : Nat) = size := by
    rw [hsize]
    exact blockSize_eq (hsize ▸ hsmall)
  rw [hquot]
  rw [hsize] at hsmall
  obtain ⟨hsort, hsorted⟩ := sortPhase_eq w hblocks hthreads hsmall ⟨hfile, hcount, hwidth⟩
  have hperm : (blocks.map (w.qsort.call cmpIndex)).flatten.Perm blocks.flatten :=
    map_call_perm fun r hr => hqsort r fun a ha => List.mem_flatten.mpr ⟨r, hr, ha⟩
  have hrounds := mergeRounds_ends w front.length
    (s := ⟨s.blockCount, s.threadCount, size, front ++
      recordCodec.encode (blocks.map (w.qsort.call cmpIndex)).flatten ++ back⟩) hblocks rfl
    hthreads hsmall hsorted
  rw [← hblocks] at hrounds
  simp only [hsort]
  cases hrun : mergeRounds w front.length front.length s.blockCount
      ⟨s.blockCount, s.threadCount, size, front ++
        recordCodec.encode (blocks.map (w.qsort.call cmpIndex)).flatten ++ back⟩ with
  | error e =>
    exact (hrounds.of_error hrun).perm hperm
  | ok u =>
    obtain ⟨hone, hsame, hu⟩ := hrounds.of_ok hrun
    have hend := hu.perm hperm
    refine .ite (fun _ => hend) fun _ => .ite (fun _ => hend) fun _ => ?_
    exact ⟨rfl, trivial, ⟨size, hsize⟩, hone, hsame, hend⟩

section Loop

variable {m k : Nat} {front tail : List UInt8} {all todo : List IndexRecord}
  {done : List (List IndexRecord)} {s : State}

theorem Partly.shuffled (h : Partly front tail all done todo k s) {file : List UInt8}
    (hfile : Shuffled (front ++ recordCodec.encode done.flatten)
      (recordCodec.encode (todo.drop m) ++ tail) (todo.take m) file) :
    Shuffled front tail all file := by
  have hwide := hfile.widen
  rw [List.append_assoc, List.take_append_drop] at hwide
  exact hwide.perm h.perm

theorem Partly.whole (h : Partly front tail all done todo k s) : Shuffled front tail all s.file :=
  (Shuffled.of_eq h.file_eq).perm h.perm

/-- The next portion, refused or sorted, up to a call that fails. -/
theorem Partly.portion_ends (hp : Partly front tail all done todo k s) (w : World)
    (hqsort : w.qsort.Keeps all) (hfront : front.length = 8) (htail : tail.length < 16)
    (hk : k < 31) (hsmall : all.length < 2 ^ 31) {bytes : Nat}
    (hbytes : bytes = if 16 * m ≤ 16 * todo.length + tail.length then 16 * m
      else 16 * todo.length + tail.length) :
    Ends (fun e : Stop => Shuffled front tail all e.2)
      (fun r => r.1 = min m todo.length ∧ bytes = 16 * min m todo.length ∧
        2 ^ k ∣ min m todo.length ∧ ∃ ys, ys.Perm (todo.take m) ∧
          Partly front tail all (done ++ [ys]) (todo.drop m) 0 r.2)
      (processPortion w (8 + 16 * done.flatten.length) bytes s) := by
  have hlen : (done.flatten ++ todo).length = done.flatten.length + todo.length :=
    List.length_append
  have hall := hp.perm.length_eq
  have htake : (todo.take m).length = min m todo.length := List.length_take
  have hoffset : (front ++ recordCodec.encode done.flatten).length =
      8 + 16 * done.flatten.length := by rw [end_encode, hfront]
  have hkeeps : w.qsort.Keeps (todo.take m) := fun xs hxs => hqsort xs fun r hr =>
    hp.perm.subset (List.mem_append_right _ (List.mem_of_mem_take (hxs hr)))
  have hportion := processPortion_ends w bytes hkeeps (by omega) hp.blocks hk hp.threads (by omega)
    (hp.file_cut (m := m)) fun hwhole => by
      rw [htake]
      exact (portion_bytes htail hbytes hwhole).1
  rw [hoffset, htake] at hportion
  apply hportion.imp
  · intro e he
    exact hp.shuffled he
  · rintro r ⟨hcount, hwhole, hdvd, hone, hthreads, ys, hys, hfile⟩
    exact ⟨hcount, hwhole, hdvd, ys, hys, hfile.trans (encode_done done ys _ front tail),
      (portion_perm done hys).trans hp.perm, hone, hthreads ▸ hp.threads⟩

/-- The loop over the portions, up to a portion that is refused or fails. -/
theorem portionLoop_ends (w : World) (hmem : 0 < 16 * m) (maxRuns : Int)
    (hqsort : w.qsort.Keeps all) (hfront : front.length = 8) (htail : tail.length < 16)
    (hk : k < 31) (hsmall : all.length < 2 ^ 31) (hp : Partly front tail all done todo k s) :
    Ends (fun e : Stop => Shuffled front tail all e.2)
      (fun r => tail = [] ∧ Fits (2 ^ k) m done.length maxRuns todo ∧
        ∃ lists, r.1 = runsOf 8 lists ∧ r.2.file = front ++ recordCodec.encode lists.flatten ∧
          lists.flatten.Perm all)
      (portionLoop w (16 * m) hmem (8 + 16 * (done.flatten ++ todo).length + tail.length) maxRuns
        (8 + 16 * done.flatten.length) (runsOf 8 done) s) := by
  induction hn : todo.length using Nat.strong_induction_on generalizing done todo k s with
  | h n ih =>
    have hlen : (done.flatten ++ todo).length = done.flatten.length + todo.length :=
      List.length_append
    rw [portionLoop]
    split
    · rename_i hmore
      have hleft : 8 + 16 * (done.flatten ++ todo).length + tail.length -
          (8 + 16 * done.flatten.length) = 16 * todo.length + tail.length := by omega
      rw [hleft]
      dsimp only
      generalize hbytes : (if 16 * m ≤ 16 * todo.length + tail.length then 16 * m
        else 16 * todo.length + tail.length) = bytes
      split
      · exact hp.whole
      have hportion := hp.portion_ends w hqsort hfront htail hk hsmall hbytes.symm
      cases hrun : processPortion w (8 + 16 * done.flatten.length) bytes s with
      | error e =>
        exact hportion.of_error hrun
      | ok r =>
        obtain ⟨count, t⟩ := r
        obtain ⟨hcount, hwhole, hdvd, ys, hys, hnext⟩ := hportion.of_ok hrun
        dsimp only at hcount hnext ⊢
        split
        · exact hnext.whole
        rename_i hroom
        rw [runsOf_length] at hroom
        have hyslen : ys.length = min m todo.length := hys.length_eq.trans List.length_take
        have hlast := (portion_bytes htail hbytes.symm (by omega)).2
        have hsome : 0 < todo.length := by
          by_contra hnone
          have htail0 := hlast (by omega)
          omega
        have hfewer : (todo.drop m).length < n := by
          rw [List.length_drop]
          omega
        have hrest := ih _ hfewer (by decide) hnext rfl
        have hdone : (done ++ [ys]).flatten.length = done.flatten.length + min m todo.length := by
          rw [List.flatten_append, List.length_append, List.flatten_singleton, hyslen]
        rw [(portion_perm done hys).length_eq, hdone, runsOf_append, hyslen, Nat.mul_add,
          ← Nat.add_assoc] at hrest
        rw [hcount, hwhole]
        apply hrest.imp
        · intro e he
          exact he
        · rintro r ⟨htail0, hfits, hlists⟩
          rw [List.length_append, List.length_singleton] at hfits
          exact ⟨htail0, .cons hdvd (by omega) hfits, hlists⟩
    · rename_i hend
      have htodo : todo = [] := List.length_eq_zero_iff.mp (by omega)
      have hnone : tail = [] := List.length_eq_zero_iff.mp (by omega)
      subst htodo hnone
      have hfile := hp.file_eq
      have hperm := hp.perm
      rw [List.append_nil] at hperm
      rw [List.append_nil, List.append_nil] at hfile
      refine ⟨rfl, ⟨fun hne => absurd rfl hne, fun r hr => absurd hr (Nat.not_lt_zero _)⟩, done,
        rfl, hfile, hperm⟩

end Loop

/-- A pass over the runs, up to a call that fails: the runs in front of it are merged. -/
theorem mergePass_ends (w : World) (front back : List UInt8) {lists : List (List IndexRecord)}
    (hsmall : lists.flatten.length < 2 ^ 31) :
    Ends (fun e : Stop => Shuffled front back lists.flatten e.2)
      (fun r => r = (runsOf front.length (mergePairs cmpLe lists),
        front ++ recordCodec.encode (mergePairs cmpLe lists).flatten ++ back))
      (mergePass w (runsOf front.length lists)
        (front ++ recordCodec.encode lists.flatten ++ back)) := by
  fun_induction mergePairs cmpLe lists generalizing front with
  | case1 x y rest ih =>
    obtain ⟨c₁, c₂, c₃, hpair⟩ := mergePass_pair w front back hsmall
    have hmerge : (x.merge y cmpLe).Perm (x ++ y) := List.merge_perm_append cmpLe
    have hperm : (x.merge y cmpLe ++ rest.flatten).Perm (x :: y :: rest).flatten := by
      rw [List.flatten_cons, List.flatten_cons, ← List.append_assoc]
      exact hmerge.append_right _
    rw [hpair]
    split
    · exact Shuffled.of_eq rfl
    split
    · exact Shuffled.of_eq rfl
    split
    · refine ⟨_, hperm, ?_⟩
      rw [recordCodec.encode_append, ← List.append_assoc front]
    simp only [List.flatten_cons, List.length_append] at hsmall
    have hrest := ih (front ++ recordCodec.encode (x.merge y cmpLe)) (by omega)
    have hnext : (front ++ recordCodec.encode (x.merge y cmpLe)).length =
        front.length + 16 * (x.merge y cmpLe).length := end_encode front _
    apply Ends.bind (hrest.imp ?_ fun r hr => hr)
    · rintro r rfl
      rw [ends_ok]
      simp only [runsOf, hnext, List.flatten_cons, recordCodec.encode_append, List.append_assoc]
    · intro e he
      have hwide : Shuffled front back (x.merge y cmpLe ++ rest.flatten ++ []) e.2 :=
        Shuffled.widen he
      rw [List.append_nil] at hwide
      exact hwide.perm hperm
  | case2 lists hshort =>
    rcases lists with _ | ⟨x, _ | ⟨y, rest⟩⟩
    · rfl
    · rfl
    · exact absurd rfl (hshort x y rest)

/-- The merge of the runs, up to a call that fails in one of its passes. -/
theorem externalMerge_ends (w : World) (front back : List UInt8) {lists : List (List IndexRecord)}
    (hsmall : lists.flatten.length < 2 ^ 31) :
    Ends (fun e : Stop => Shuffled front back lists.flatten e.2)
      (fun file => Shuffled front back lists.flatten file)
      (externalMerge w (runsOf front.length lists)
        (front ++ recordCodec.encode lists.flatten ++ back)) := by
  fun_induction mergeAll cmpLe lists with
  | case1 lists hmany ih =>
    have hperm := mergePairs_perm cmpLe lists
    have hpass := mergePass_ends w front back hsmall
    have hrest := ih (hperm.length_eq ▸ hsmall)
    rw [externalMerge, runsOf_length, if_pos hmany]
    split
    · rename_i hfail
      exact hpass.of_error hfail
    · rename_i runs file hdone
      obtain ⟨rfl, rfl⟩ := Prod.mk.inj (hpass.of_ok hdone)
      exact hrest.imp (fun e he => he.perm hperm) fun f hf => hf.perm hperm
  | case2 lists hone =>
    rw [externalMerge, runsOf_length, if_neg hone]
    exact Shuffled.of_eq rfl

/-- However a run with threads ends, the header, the bytes behind the last whole record and the
records are those of the file, the records in some order. -/
theorem sortIndex_shuffled (w : World) (memsizeArg : Int) {blocks threads : Int}
    (hint : blocks < 2 ^ 31) (hthreads : 1 ≤ threads) {front tail : List UInt8}
    {xs : List IndexRecord} (hfront : front.length = 8) (htail : tail.length < 16)
    (hsmall : xs.length < 2 ^ 31) (hqsort : w.qsort.Keeps xs) :
    Shuffled front tail xs
      (sortIndex w memsizeArg blocks threads (front ++ recordCodec.encode xs ++ tail)).2 := by
  have hstart : Shuffled front tail xs (front ++ recordCodec.encode xs ++ tail) := .of_eq rfl
  have hsize : (front ++ recordCodec.encode xs ++ tail).length =
      8 + 16 * xs.length + tail.length := by rw [List.length_append, end_encode, hfront]
  by_cases hacc : Accepted w memsizeArg blocks threads (front ++ recordCodec.encode xs ++ tail)
  · obtain ⟨k, rfl⟩ := hacc.blocks_pow
    have hk := lt_of_two_pow_int hint
    have hmem := hacc.memsize_pos
    obtain ⟨m, hm⟩ := dvd_of_pages hacc.pages
    have hbegin : Partly front tail xs [] xs k
        ⟨(2 ^ k : Nat), threads, 0, front ++ recordCodec.encode xs ++ tail⟩ :=
      ⟨rfl, .refl xs, rfl, hthreads⟩
    rw [sortIndex_accepted hacc]
    simp only [hm, hsize] at hmem ⊢
    generalize maxRunsOf _ _ = maxRuns
    have hloop := portionLoop_ends w hmem maxRuns hqsort hfront htail hk hsmall hbegin
    simp only [List.flatten_nil, List.nil_append, List.length_nil, Nat.mul_zero, Nat.add_zero,
      runsOf] at hloop
    cases hrun : portionLoop w (16 * m) hmem (8 + 16 * xs.length + tail.length) maxRuns 8 []
        ⟨(2 ^ k : Nat), threads, 0, front ++ recordCodec.encode xs ++ tail⟩ with
    | error e =>
      exact hloop.of_error hrun
    | ok r =>
      obtain ⟨runs, t⟩ := r
      obtain ⟨rfl, -, lists, rfl, hfile, hperm⟩ := hloop.of_ok hrun
      dsimp only at hfile ⊢
      have hmerge := externalMerge_ends w front [] (hperm.length_eq ▸ hsmall)
      rw [List.append_nil, hfront, ← hfile] at hmerge
      cases hout : externalMerge w (runsOf 8 lists) t.file with
      | error e =>
        rw [finish_error hout]
        exact (hmerge.of_error hout).perm hperm
      | ok out =>
        rw [finish_ok hout]
        exact (hmerge.of_ok hout).perm hperm
  · rcases sortIndex_refused hacc with hrun | ⟨-, hrun⟩
    · rw [hrun]
      exact hstart
    · rw [hrun]
      exact hstart

theorem file_parts {front : List UInt8} (hfront : front.length = 8) (xs : List IndexRecord)
    (tail : List UInt8) :
    (front ++ recordCodec.encode xs ++ tail).length = 8 + 16 * xs.length + tail.length ∧
      (front ++ recordCodec.encode xs ++ tail).take 8 = front ∧
      (front ++ recordCodec.encode xs ++ tail).drop (8 + 16 * xs.length) = tail := by
  have hbody : (front ++ recordCodec.encode xs).length = 8 + 16 * xs.length := by
    rw [end_encode, hfront]
  refine ⟨?_, ?_, List.drop_left' hbody⟩
  · rw [List.length_append, hbody]
  · rw [List.append_assoc, List.take_left' hfront]

/-- A sort that fails, at whatever check or call of whatever portion or merge, leaves the header
and the bytes behind the last whole record, and loses none of the records. Where a mark is a NaN
this rests on a `qsort` that only moves elements. -/
theorem failure_keeps_records (w : World) (memsizeArg blocks threads : Int)
    (hint : blocks < 2 ^ 31) (hthreads : 1 ≤ threads) (file out : List UInt8)
    (hlong : 8 ≤ file.length) (hsmall : (records file).length < 2 ^ 31)
    (hqsort : NoNaN (records file) ∨ w.qsort.Permutes)
    (h : sortIndex w memsizeArg blocks threads file = (.failure, out)) :
    out.length = file.length ∧ out.take 8 = file.take 8 ∧
      out.drop (8 + 16 * (records file).length) = file.drop (8 + 16 * (records file).length) ∧
      (records out).Perm (records file) := by
  obtain ⟨front, tail, hfront, htail, hfile⟩ := file_split hlong
  obtain ⟨ys, hys, hout⟩ := sortIndex_shuffled w memsizeArg hint hthreads hfront htail hsmall
    (Qsort.keeps hqsort)
  rw [← hfile, h] at hout
  obtain ⟨hlen, hfirst, hlast⟩ := file_parts hfront (records file) tail
  obtain ⟨hlen', hfirst', hlast'⟩ := file_parts hfront ys tail
  rw [← hfile] at hlen hfirst hlast
  rw [← hout] at hlen' hfirst' hlast'
  rw [hys.length_eq] at hlen' hlast'
  refine ⟨hlen'.trans hlen.symm, hfirst'.trans hfirst.symm, hlast'.trans hlast.symm, ?_⟩
  dsimp only at hout
  rw [hout, records_file hfront htail]
  exact hys

/-- On a page of memory, with four blocks and one thread, the checks are passed, and the run ends
as the loop over the portions does if this fails or makes one run. -/
theorem sortIndex_page {file : List UInt8} (hlong : 8 ≤ file.length) {maxRuns : Int}
    (hruns : int32 ((file.length - 8 + 4096 - 1) % 2 ^ 64 / 4096 : Nat) = maxRuns) :
    (∀ e, portionLoop calmWorld 4096 (by decide) file.length maxRuns 8 [] ⟨4, 1, 0, file⟩ =
      .error e → sortIndex calmWorld 4096 4 1 file = e) ∧
    ∀ r t, portionLoop calmWorld 4096 (by decide) file.length maxRuns 8 [] ⟨4, 1, 0, file⟩ =
      .ok ([r], t) → sortIndex calmWorld 4096 4 1 file = (.success, t.file) := by
  have hmem : uint64 4096 = 4096 := by decide
  have hacc : Accepted calmWorld 4096 4 1 file :=
    ⟨by decide, by decide, by decide, by decide, hlong, ⟨rfl, rfl⟩, rfl, rfl, by decide⟩
  have hmax : maxRunsOf 4096 file.length = maxRuns := hruns
  rw [sortIndex_accepted hacc]
  simp only [hmem, hmax]
  constructor
  · intro e hloop
    rw [hloop]
    rfl
  · intro r t hloop
    rw [hloop]
    exact finish_ok (externalMerge_one _ r t.file)

/-- One page of records, and half a record behind them. -/
def raggedFile : List UInt8 := unsortedFile ++ word 1

theorem raggedFile_length : raggedFile.length = 4112 := by
  have hparts := (file_parts (word_length 256) (makeRecords 256 twoMarks) (word 1)).1
  rwa [makeRecords_length, word_length] at hparts

/-- The first portion is sorted, the second one refused. -/
theorem raggedFile_fails : ∃ out, sortIndex calmWorld 4096 4 1 raggedFile = (.failure, out) := by
  have hlen := makeRecords_length 256 twoMarks
  have hworks : calmWorld.Works := fun _ => rfl
  have hnan := noNaN_makeRecords fun i (_ : i < 256) => twoMarks_isNaN i
  have hsize := raggedFile_length
  let start : State := ⟨(2 ^ 2 : Nat), 1, 0, raggedFile⟩
  have hfile : start.file =
      word 256 ++ recordCodec.encode (makeRecords 256 twoMarks) ++ word 1 := rfl
  obtain ⟨ys, hrun, -, -⟩ := processPortion_sorted hworks (by simp) rfl (by decide)
    (by rw [hlen]; decide) Int.one_pos (by rw [hlen]; decide) hnan hfile
  rw [hlen, word_length] at hrun
  have hfirst : processPortion calmWorld 8 4096 ⟨4, 1, 0, raggedFile⟩ = .ok (256, ⟨1, 1, 256,
      word 256 ++ recordCodec.encode ys ++ word 1⟩) := hrun
  -- the second portion has 8 bytes
  have hsecond : ∀ (runs : List RunBoundary) (t : State), portionLoop calmWorld 4096 (by decide)
      4112 2 4104 runs t = .error (.failure, t.file) := by
    intro runs t
    rw [portionLoop, if_pos (by decide)]
    exact if_pos (by decide)
  have hruns : int32 ((raggedFile.length - 8 + 4096 - 1) % 2 ^ 64 / 4096 : Nat) = 2 := by
    rw [hsize]
    decide
  have hbytes : (if 4096 ≤ 4112 - 8 then 4096 else 4112 - 8) = 4096 := rfl
  have hwhole : ¬(8 ≠ 8 ∧ 4096 % 16 ≠ 0) := by decide
  have hroom : ¬(2 : Int) ≤ ([] : List RunBoundary).length := by decide
  refine ⟨_, (sortIndex_page (by omega) hruns).1
    (.failure, word 256 ++ recordCodec.encode ys ++ word 1) ?_⟩
  rw [hsize, portionLoop, if_pos (by decide)]
  simp only [hbytes, if_neg hwhole, hfirst, if_neg hroom, hsecond]

theorem records_raggedFile : records raggedFile = makeRecords 256 twoMarks :=
  records_file (word_length 256) (by decide) _

theorem failure_keeps_records_ragged : ∃ out, sortIndex calmWorld 4096 4 1 raggedFile =
      (.failure, out) ∧ out.length = raggedFile.length ∧ out.take 8 = raggedFile.take 8 ∧
    out.drop (8 + 16 * (records raggedFile).length) =
      raggedFile.drop (8 + 16 * (records raggedFile).length) ∧
    (records out).Perm (records raggedFile) := by
  have hsmall : (records raggedFile).length < 2 ^ 31 := by
    rw [records_raggedFile, makeRecords_length]
    decide
  obtain ⟨out, hrun⟩ := raggedFile_fails
  refine ⟨out, hrun, failure_keeps_records calmWorld 4096 4 1 (by decide) (by decide) raggedFile out
    (by rw [raggedFile_length]; decide) hsmall (.inr fun cmp xs => List.mergeSort_perm xs _) hrun⟩

end Osisp.Lab6
