import Osisp.Lab6.StableRun

namespace Osisp.Lab6

open Osisp.Lib

/-- The number of records that the header of a file gives. -/
def header (file : List UInt8) : Nat := leVal (file.take 8)

/-- What view prints of `out` are the records that it prints of `file`, in some order. -/
def ViewAgrees (sys : Call → Bool) (file out : List UInt8) : Prop :=
  ∃ before after, view sys file = some before ∧ view sys out = some after ∧ after.Perm before

/-- The border behind the first `c` records stays where it is when the blocks are sorted and
merged: no mark behind it is smaller than one before it, and where it goes through a block the
records of equal marks on its two sides are the same. -/
structure BorderStays (c : Nat) (blocks : List (List IndexRecord)) : Prop where
  ordered : ∀ a ∈ blocks.flatten.take c, ∀ b ∈ blocks.flatten.drop c,
    a.timeMark.le b.timeMark = true
  ties : ∀ (front : List (List IndexRecord)) (b₁ b₂ : List IndexRecord)
    (back : List (List IndexRecord)), blocks = front ++ (b₁ ++ b₂) :: back →
    (front.flatten ++ b₁).length = c → ∀ a ∈ b₁, ∀ b ∈ b₂, a.timeMark.eq b.timeMark = true → a = b

/-- The bytes behind the last whole record are not printed. -/
theorem viewRecords_take (count : Nat) {tail : List UInt8} (htail : tail.length < 16)
    (xs : List IndexRecord) :
    viewRecords count (recordCodec.encode xs ++ tail) = xs.take count := by
  induction count generalizing xs with
  | zero => rfl
  | succ count ih =>
    cases xs with
    | nil => exact if_pos htail
    | cons x xs =>
      have hcons : recordCodec.encode (x :: xs) = recordCodec.enc x ++ recordCodec.encode xs := rfl
      have hlen : (recordCodec.enc x).length = 16 := recordCodec.enc_length x
      have hroom : ¬(recordCodec.encode (x :: xs) ++ tail).length < 16 := by
        rw [hcons, List.length_append, List.length_append, hlen]
        omega
      rw [viewRecords, if_neg hroom, hcons, List.append_assoc, List.take_left' hlen,
        List.drop_left' hlen, recordCodec.dec_enc, ih, List.take_succ_cons]

section View

variable {sys : Call → Bool} {front tail : List UInt8}

theorem header_eq (hfront : front.length = 8) (xs : List IndexRecord) (tail : List UInt8) :
    header (front ++ recordCodec.encode xs ++ tail) = leVal front := by
  rw [header, List.append_assoc, List.take_left' hfront]

theorem view_eq (hopen : sys .fopen = true) (hfront : front.length = 8) (htail : tail.length < 16)
    (xs : List IndexRecord) :
    view sys (front ++ recordCodec.encode xs ++ tail) = some (xs.take (leVal front)) := by
  have hroom : ¬(front ++ recordCodec.encode xs ++ tail).length < 8 := by
    rw [List.length_append, List.length_append, hfront]
    omega
  rw [view, hopen, if_neg hroom, List.append_assoc, List.take_left' hfront, List.drop_left' hfront,
    viewRecords_take _ htail]
  rfl

theorem viewAgrees_iff (hopen : sys .fopen = true) (hfront : front.length = 8)
    (htail : tail.length < 16) (xs ys : List IndexRecord) :
    ViewAgrees sys (front ++ recordCodec.encode xs ++ tail)
        (front ++ recordCodec.encode ys ++ tail) ↔
      (ys.take (leVal front)).Perm (xs.take (leVal front)) := by
  constructor
  · rintro ⟨before, after, hbefore, hafter, hperm⟩
    rw [view_eq hopen hfront htail, Option.some.injEq] at hbefore hafter
    rwa [hbefore, hafter]
  · intro hperm
    exact ⟨_, _, view_eq hopen hfront htail xs, view_eq hopen hfront htail ys, hperm⟩

end View

section Adversary

/-- A `qsort` that puts the records equal to `b` in front of those with the same mark. -/
def frontQsort (b : IndexRecord) : Qsort where
  call cmp xs := mergeQsort.call cmp (xs.filter (· = b) ++ xs.filter (! · = b))
  call_length cmp xs := (mergeQsort.call_length cmp _).trans
    (List.filter_append_perm (· = b) xs).length_eq
  call_perm cmp xs hcmp :=
    (List.mergeSort_perm _ _).trans (List.filter_append_perm (· = b) xs)
  call_sorted cmp xs hcmp := by
    have hmem : ∀ {r}, r ∈ xs.filter (· = b) ++ xs.filter (! · = b) ↔ r ∈ xs :=
      (List.filter_append_perm (· = b) xs).mem_iff
    apply mergeQsort.call_sorted
    refine ⟨fun a ha c hc => ?_, fun a ha c hc d hd => ?_⟩
    · exact hcmp.antisymm a (hmem.mp ha) c (hmem.mp hc)
    · exact hcmp.trans a (hmem.mp ha) c (hmem.mp hc) d (hmem.mp hd)

/-- What it does to the records with the mark of `b`. -/
theorem frontQsort_withKey (b : IndexRecord) {xs : List IndexRecord} (hnan : NoNaN xs) :
    withKey markOrder (markOrder b) ((frontQsort b).call cmpIndex xs) =
      xs.filter (· = b) ++ withKey markOrder (markOrder b) (xs.filter (! · = b)) := by
  have hnan' := hnan.perm (List.filter_append_perm (· = b) xs)
  have hmarks : (frontQsort b).call cmpIndex xs =
      (xs.filter (· = b) ++ xs.filter (! · = b)).mergeSort (keyLe markOrder) := by
    have hmap := List.map_mergeSort (r := cmpLe) (s := keyLe markOrder) (f := id)
      fun a ha c hc => cmpLe_eq_markLe (hnan' a ha) (hnan' c hc)
    rwa [List.map_id, List.map_id] at hmap
  have hself : withKey markOrder (markOrder b) (xs.filter (· = b)) = xs.filter (· = b) := by
    apply List.filter_eq_self.mpr
    intro r hr
    have heq : r = b := of_decide_eq_true (List.mem_filter.mp hr).2
    rw [heq]
    exact decide_eq_true rfl
  rw [hmarks, (mergeSort_stable markOrder _).withKey_eq, withKey_append, hself]

/-- When copies of `b` from both sides of a border are put in front and as many elements as
before are left in front of the border, they are the same ones only if they all are `b`. -/
theorem eq_of_take_perm {b : IndexRecord} {xs ys rest : List IndexRecord} (hb : b ∈ ys)
    (h : (((xs ++ ys).filter (· = b) ++ rest).take xs.length).Perm xs) : ∀ a ∈ xs, a = b := by
  rw [List.filter_eq, List.count_append] at h
  have hmore : 0 < ys.count b := List.count_pos_iff.mpr hb
  intro a ha
  rcases Nat.le_total xs.length (xs.count b + ys.count b) with hle | hge
  · rw [List.take_append_of_le_length (by rwa [List.length_replicate]),
      List.take_replicate] at h
    exact List.eq_of_mem_replicate (h.mem_iff.mpr ha)
  · have hcount := h.count_eq b
    rw [List.take_append, List.take_of_length_le (by rwa [List.length_replicate]),
      List.count_append, List.count_replicate_self] at hcount
    omega

end Adversary

section Border

variable {xs ys : List IndexRecord} {blocks : List (List IndexRecord)} {c : Nat}

theorem le_iff_markOrder {a b : IndexRecord} (ha : a.timeMark.isNaN = false)
    (hb : b.timeMark.isNaN = false) :
    a.timeMark.le b.timeMark = true ↔ markOrder a ≤ markOrder b := by
  simp [Double.le, ha, hb, markOrder]

theorem eq_iff_markOrder {a b : IndexRecord} (ha : a.timeMark.isNaN = false)
    (hb : b.timeMark.isNaN = false) :
    a.timeMark.eq b.timeMark = true ↔ markOrder a = markOrder b := by
  simp [Double.eq, ha, hb, markOrder]

/-- A border that stays, through any block that `qsort` may sort in its own way. -/
theorem BorderStays.take_perm {q : Qsort} (hnan : NoNaN blocks.flatten)
    (hborder : BorderStays c blocks) (hc : c < blocks.flatten.length)
    (hys : StableSort markOrder (blocks.map (q.call cmpIndex)).flatten ys) :
    (ys.take c).Perm (blocks.flatten.take c) := by
  obtain ⟨front, b₁, b₂, back, rfl, rfl⟩ := exists_border hc
  have hflat : (front ++ (b₁ ++ b₂) :: back).flatten =
      (front.flatten ++ b₁) ++ (b₂ ++ back.flatten) := by
    simp only [List.flatten_append, List.flatten_cons, List.append_assoc]
  have hordered := hborder.ordered
  have hall : ∀ r, r ∈ front.flatten ++ b₁ ∨ r ∈ b₂ ++ back.flatten → r.timeMark.isNaN = false :=
    fun r hr => hnan r (by rw [hflat]; exact List.mem_append.mpr hr)
  have hblock : ∀ r ∈ front ++ (b₁ ++ b₂) :: back, (q.call cmpIndex r).Perm r := fun r hr =>
    (q.sorts (hnan.block hr)).1
  rw [hflat, List.take_left, List.drop_left] at hordered
  rw [hflat, List.take_left]
  refine (take_perm_iff hblock hys fun a ha b hb =>
    (le_iff_markOrder (hall a (.inl ha)) (hall b (.inr hb))).mp (hordered a ha b hb)).mpr ?_
  intro mark
  have hperm : (withKey markOrder mark (q.call cmpIndex (b₁ ++ b₂))).Perm
      (withKey markOrder mark b₁ ++ withKey markOrder mark b₂) := by
    rw [← withKey_append]
    exact (hblock (b₁ ++ b₂) (by simp)).filter _
  apply perm_take_of_eq hperm
  intro a ha b hb
  obtain ⟨ha, hmark⟩ := mem_withKey.mp ha
  obtain ⟨hb, hmark'⟩ := mem_withKey.mp hb
  apply hborder.ties front b₁ b₂ back rfl rfl a ha b hb
  rw [eq_iff_markOrder (hall a (.inl (List.mem_append_right _ ha)))
    (hall b (.inr (List.mem_append_left _ hb))), hmark, hmark']

/-- A border that no `qsort` moves. -/
theorem borderStays_of_take_perm (hnan : NoNaN blocks.flatten) (hc : c < blocks.flatten.length)
    (h : ∀ q : Qsort, ∃ ys, StableSort markOrder (blocks.map (q.call cmpIndex)).flatten ys ∧
      (ys.take c).Perm (blocks.flatten.take c)) : BorderStays c blocks := by
  have hblock : ∀ (q : Qsort), ∀ r ∈ blocks, (q.call cmpIndex r).Perm r := fun q r hr =>
    (q.sorts fun a ha => hnan a (List.mem_flatten.mpr ⟨r, hr, ha⟩)).1
  have hordered : ∀ a ∈ blocks.flatten.take c, ∀ b ∈ blocks.flatten.drop c,
      markOrder a ≤ markOrder b := by
    obtain ⟨ys, hys, hperm⟩ := h mergeQsort
    have hlen : (blocks.flatten.take c).length = c := by
      rw [List.length_take, Nat.min_eq_left (Nat.le_of_lt hc)]
    apply le_of_take_perm hys.sorted
    · rw [List.take_append_drop]
      exact hys.perm.trans (mergeQsort.blocks_perm hnan)
    · rwa [hlen]
  constructor
  · intro a ha b hb
    rw [le_iff_markOrder (hnan a (List.mem_of_mem_take ha)) (hnan b (List.mem_of_mem_drop hb))]
    exact hordered a ha b hb
  · rintro front b₁ b₂ back rfl rfl a ha b hb heq
    have hflat : (front ++ (b₁ ++ b₂) :: back).flatten =
        (front.flatten ++ b₁) ++ (b₂ ++ back.flatten) := by
      simp only [List.flatten_append, List.flatten_cons, List.append_assoc]
    have hmem : ∀ r ∈ b₁ ++ b₂, r ∈ (front ++ (b₁ ++ b₂) :: back).flatten := fun r hr =>
      List.mem_flatten.mpr ⟨b₁ ++ b₂, by simp, hr⟩
    rw [eq_iff_markOrder (hnan a (hmem a (List.mem_append_left _ ha)))
      (hnan b (hmem b (List.mem_append_right _ hb)))] at heq
    -- the copies of `b` come in front
    obtain ⟨ys, hys, hperm⟩ := h (frontQsort b)
    rw [hflat, List.take_left, List.drop_left] at hordered
    rw [hflat, List.take_left] at hperm
    have hkeep := (take_perm_iff (hblock (frontQsort b)) hys hordered).mp hperm (markOrder b)
    rw [frontQsort_withKey b fun r hr => hnan r (hmem r hr)] at hkeep
    have hcopies : (b₁ ++ b₂).filter (· = b) =
        (withKey markOrder (markOrder b) b₁ ++ withKey markOrder (markOrder b) b₂).filter
          (· = b) := by
      rw [← withKey_append, withKey, List.filter_filter]
      apply List.filter_congr
      intro r _
      by_cases hr : r = b
      · simp [hr]
      · simp [hr]
    rw [hcopies] at hkeep
    exact eq_of_take_perm (mem_withKey.mpr ⟨hb, rfl⟩) hkeep a (mem_withKey.mpr ⟨ha, heq⟩)

end Border

/-- What view prints of the file that a successful run leaves. -/
theorem viewAgrees_run (sys : Call → Bool) (hopen : sys .fopen = true) {w : World}
    {memsizeArg blocks threads : Int} (hint : blocks < 2 ^ 31) (hthreads : 1 ≤ threads)
    {file out : List UInt8} (hnan : NoNaN (records file)) (hsmall : (records file).length < 2 ^ 31)
    (h : sortIndex w memsizeArg blocks threads file = (.success, out)) :
    ∃ ys, StableSort markOrder ((sortBlocks blocks.toNat (uint64 memsizeArg / 16)
        (records file)).map (w.qsort.call cmpIndex)).flatten ys ∧ ys.Perm (records file) ∧
      (ViewAgrees sys file out ↔
        (ys.take (header file)).Perm ((records file).take (header file))) := by
  obtain ⟨hflat, ⟨front, hfront, hfile, ys, rfl, hys⟩, -⟩ := sortIndex_stable hint hthreads hnan
    hsmall h
  have hblocks := w.qsort.blocks_perm (hflat.symm ▸ hnan)
  rw [hflat] at hblocks
  have hshort : ([] : List UInt8).length < 16 := by decide
  have hagree := viewAgrees_iff hopen hfront hshort (records file) ys
  have hcount := header_eq hfront (records file) []
  rw [List.append_nil, ← hfile] at hagree hcount
  rw [List.append_nil] at hagree
  rw [hcount]
  exact ⟨ys, hys, hys.perm.trans hblocks, hagree⟩

/-- view prints the same records before and after a successful sort if the header gives at least
as many as there are, and otherwise, whatever `qsort` does with equal marks, only if no record
need cross the border that the header sets. -/
theorem view_agrees_iff (memsizeArg blocks threads : Int) (hint : blocks < 2 ^ 31)
    (hthreads : 1 ≤ threads) (file : List UInt8) (hsmall : (records file).length < 2 ^ 31)
    (sys : Call → Bool) (hopen : sys .fopen = true) :
    (∀ (w : World) (out : List UInt8), NoNaN (records file) ∨ w.qsort.Permutes →
      (records file).length ≤ header file →
      sortIndex w memsizeArg blocks threads file = (.success, out) → ViewAgrees sys file out) ∧
    (NoNaN (records file) →
      (∃ w out, sortIndex w memsizeArg blocks threads file = (.success, out)) →
      ((∀ (w : World) (out : List UInt8),
          sortIndex w memsizeArg blocks threads file = (.success, out) → ViewAgrees sys file out) ↔
        (records file).length ≤ header file ∨ BorderStays (header file)
          (sortBlocks blocks.toNat (uint64 memsizeArg / 16) (records file)))) := by
  have hmany : ∀ (w : World) (out : List UInt8), NoNaN (records file) ∨ w.qsort.Permutes →
      (records file).length ≤ header file →
      sortIndex w memsizeArg blocks threads file = (.success, out) → ViewAgrees sys file out := by
    intro w out hqsort hle h
    obtain ⟨front, tail, hfront, htail, hfile⟩ := file_split (sortIndex_success h).1
    obtain ⟨ys, hperm, hout⟩ := sortIndex_shuffled w memsizeArg hint hthreads hfront htail hsmall
      (Qsort.keeps hqsort)
    rw [← hfile, h] at hout
    dsimp only at hout
    have hcount : header file = leVal front := by
      rw [hfile]
      exact header_eq hfront _ tail
    rw [hcount] at hle
    rw [hfile, hout, viewAgrees_iff hopen hfront htail, List.take_of_length_le hle,
      List.take_of_length_le (hperm.length_eq ▸ hle)]
    exact hperm
  refine ⟨hmany, fun hnan hsuccess => ?_⟩
  obtain ⟨w₀, out₀, h₀⟩ := hsuccess
  obtain ⟨hflat, -, hworks⟩ := sortIndex_stable hint hthreads hnan hsmall h₀
  have hnan' := hnan
  rw [← hflat] at hnan'
  constructor
  · intro h
    rcases Nat.lt_or_ge (header file) (records file).length with hc | hle
    · refine .inr (borderStays_of_take_perm hnan' (by rwa [hflat]) fun q => ?_)
      obtain ⟨out, hout⟩ := hworks ⟨fun _ => true, q, fun _ _ => 0⟩ fun _ => rfl
      obtain ⟨ys, hys, -, hagree⟩ := viewAgrees_run sys hopen hint hthreads hnan hsmall hout
      rw [hflat]
      exact ⟨ys, hys, hagree.mp (h _ out hout)⟩
    · exact .inl hle
  · intro h w out hout
    rcases Nat.lt_or_ge (header file) (records file).length with hc | hle
    · have hborder := h.resolve_left (Nat.not_le.mpr hc)
      obtain ⟨ys, hys, -, hagree⟩ := viewAgrees_run sys hopen hint hthreads hnan hsmall hout
      rw [hagree, ← hflat]
      exact hborder.take_perm hnan' (by rwa [hflat]) hys
    · exact hmany w out (.inl hnan) hle hout

/-- Four records are one portion, whatever the header. -/
theorem sortIndex_four {front : List UInt8} (hfront : front.length = 8) {xs : List IndexRecord}
    (hlen : xs.length = 4) (hnan : NoNaN xs) :
    ∃ out, sortIndex calmWorld 4096 4 1 (front ++ recordCodec.encode xs) = (.success, out) := by
  have hworks : calmWorld.Works := fun _ => rfl
  have hsize : (front ++ recordCodec.encode xs).length = 72 := by
    have hparts := (file_parts hfront xs []).1
    rwa [List.append_nil, hlen] at hparts
  let start : State := ⟨(2 ^ 2 : Nat), 1, 0, front ++ recordCodec.encode xs⟩
  have hfile : start.file = front ++ recordCodec.encode xs ++ [] := (List.append_nil _).symm
  obtain ⟨ys, hrun, -, -⟩ := processPortion_sorted hworks (by omega) rfl (by decide)
    (by rw [hlen]; decide) Int.one_pos (by rw [hlen]; decide) hnan hfile
  rw [hlen, hfront] at hrun
  have hfirst : processPortion calmWorld 8 64 ⟨4, 1, 0, front ++ recordCodec.encode xs⟩ =
      .ok (4, ⟨1, 1, 4, front ++ recordCodec.encode ys ++ []⟩) := hrun
  have hend : ∀ (runs : List RunBoundary) (t : State), portionLoop calmWorld 4096 (by decide)
      72 1 72 runs t = .ok (runs, t) := by
    intro runs t
    rw [portionLoop, if_neg (by decide)]
  have hruns : int32 (((front ++ recordCodec.encode xs).length - 8 + 4096 - 1) % 2 ^ 64 / 4096 :
      Nat) = 1 := by
    rw [hsize]
    decide
  have hbytes : (if 4096 ≤ 72 - 8 then 4096 else 72 - 8) = 64 := rfl
  have hwhole : ¬(8 ≠ 8 ∧ 64 % 16 ≠ 0) := by decide
  have hroom : ¬(1 : Int) ≤ ([] : List RunBoundary).length := by decide
  refine ⟨_, (sortIndex_page (by omega) hruns).2 ⟨8, 4⟩
    ⟨1, 1, 4, front ++ recordCodec.encode ys ++ []⟩ ?_⟩
  rw [hsize, portionLoop, if_pos (by decide)]
  simp only [hbytes, if_neg hwhole, hfirst, if_neg hroom, hend]
  rfl

/-- The marks 1.0, 1.0, 2.0 and 2.0. -/
def pairedMarks (i : Nat) : Double :=
  if i < 2 then ⟨0x3FF0000000000000⟩ else ⟨0x4000000000000000⟩

/-- The header gives two of four records, and the other two have the larger marks. -/
def halfFile : List UInt8 := word 2 ++ recordCodec.encode (makeRecords 4 pairedMarks)

theorem view_agrees_iff_half : ∃ out, sortIndex calmWorld 4096 4 1 halfFile = (.success, out) ∧
    ViewAgrees (fun _ => true) halfFile out := by
  have hnan : NoNaN (makeRecords 4 pairedMarks) :=
    noNaN_makeRecords fun i _ => by unfold pairedMarks; split <;> decide
  have hrecords : records halfFile = makeRecords 4 pairedMarks := records_encode (word_length 2) _
  have hblocks : sortBlocks 4 256 (makeRecords 4 pairedMarks) =
      (makeRecords 4 pairedMarks).map fun r => [r] := by
    simp [sortBlocks, cut, makeRecords, List.range_succ]
  have hborder : BorderStays 2 (sortBlocks 4 256 (makeRecords 4 pairedMarks)) := by
    rw [hblocks]
    refine ⟨by decide, ?_⟩
    intro front b₁ b₂ back hsplit _ a ha b hb _
    -- a block of one record has no border inside
    have hmem : b₁ ++ b₂ ∈ (makeRecords 4 pairedMarks).map fun r => [r] := by
      rw [hsplit]
      simp
    obtain ⟨r, -, hr⟩ := List.mem_map.mp hmem
    have hlen := congrArg List.length hr
    have ha' := List.length_pos_of_mem ha
    have hb' := List.length_pos_of_mem hb
    rw [List.length_append, List.length_singleton] at hlen
    omega
  obtain ⟨out, hrun⟩ := sortIndex_four (word_length 2) (makeRecords_length 4 pairedMarks) hnan
  have hcount : header halfFile = 2 := by decide
  have hargs : sortBlocks (4 : Int).toNat (uint64 4096 / 16) (records halfFile) =
      sortBlocks 4 256 (makeRecords 4 pairedMarks) := by
    rw [hrecords]
    rfl
  have hiff := (view_agrees_iff 4096 4 1 (by decide) (by decide) halfFile
    (by rw [hrecords, makeRecords_length]; decide) (fun _ => true) rfl).2 (by rwa [hrecords])
    ⟨calmWorld, out, hrun⟩
  rw [hargs, hcount] at hiff
  exact ⟨out, hrun, hiff.mpr (.inr hborder) calmWorld out hrun⟩

/-- The header gives one of four records, with the mark 2.0, and there are smaller marks. -/
def shortFile : List UInt8 := word 1 ++ recordCodec.encode (makeRecords 4 twoMarks)

/-- view prints a mark 2.0 before the sort, and a mark 1.0 after it. -/
theorem view_disagrees : ¬∀ (w : World) (memsizeArg blocks threads : Int) (file out : List UInt8),
    w.Works → 0 < memsizeArg → 1 ≤ threads → 8 ≤ file.length →
    sortIndex w memsizeArg blocks threads file = (.success, out) →
    ViewAgrees (fun _ => true) file out := by
  intro h
  have hnan := noNaN_makeRecords fun i (_ : i < 4) => twoMarks_isNaN i
  have hrecords : records shortFile = makeRecords 4 twoMarks := records_encode (word_length 1) _
  have hnan' : NoNaN (records shortFile) := by rwa [hrecords]
  have hlong : 8 ≤ shortFile.length := by
    rw [shortFile, List.length_append, word_length]
    omega
  obtain ⟨out, hrun⟩ := sortIndex_four (word_length 1) (makeRecords_length 4 twoMarks) hnan
  have hagree := h calmWorld 4096 4 1 shortFile out (fun _ => rfl) (by decide) (by decide) hlong
    hrun
  have hcount : header shortFile = 1 := by decide
  obtain ⟨ys, hys, hperm, hiff⟩ := viewAgrees_run (fun _ => true) rfl (by decide) (by decide)
    hnan' (by rw [hrecords, makeRecords_length]; decide) hrun
  have htake := hiff.mp hagree
  rw [hcount, hrecords] at htake
  rw [hrecords, ← List.take_append_drop 1 (makeRecords 4 twoMarks)] at hperm
  have hle := le_of_take_perm hys.sorted hperm htake
  exact absurd (hle ⟨1, twoMarks 0⟩ (by decide) ⟨2, twoMarks 1⟩ (by decide)) (by decide)

end Osisp.Lab6
