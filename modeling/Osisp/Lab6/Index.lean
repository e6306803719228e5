import Osisp.Lib.Cells

namespace Osisp.Lab6

open Osisp.Lib

/-- A `double`, by its bits. -/
structure Double where
  bits : UInt64
  deriving DecidableEq, Repr

/-- All exponent bits are set and some bit of the fraction is. -/
def Double.isNaN (x : Double) : Bool :=
  x.bits.toNat / 2 ^ 52 % 2 ^ 11 = 2047 && x.bits.toNat % 2 ^ 52 ≠ 0

/-- Doubles that are no NaN are ordered as their bits are, read as sign and magnitude. -/
def Double.order (x : Double) : Int :=
  if x.bits.toNat < 2 ^ 63 then x.bits.toNat else -(x.bits.toNat - 2 ^ 63 : Nat)

/-- The operator `<`; a NaN is not below and not above anything. -/
def Double.lt (x y : Double) : Bool := !x.isNaN && !y.isNaN && x.order < y.order

/-- The operator `<=`. -/
def Double.le (x y : Double) : Bool := !x.isNaN && !y.isNaN && x.order ≤ y.order

-- the bits of -1.0, -0.0, 0.0 and 1.0
example : (Double.mk 0xBFF0000000000000).lt ⟨0x8000000000000000⟩ = true ∧
    (Double.mk 0x8000000000000000).lt ⟨0⟩ = false ∧
    (Double.mk 0).lt ⟨0x3FF0000000000000⟩ = true := by decide

structure IndexRecord where
  recno : UInt64
  timeMark : Double
  deriving DecidableEq, Repr

/-- The comparison function of `qsort` and of `merge_blocks`. -/
def cmpIndex (a b : IndexRecord) : Int :=
  if a.timeMark.lt b.timeMark then -1 else if b.timeMark.lt a.timeMark then 1 else 0

/-- The value that an `int` takes for `n`. -/
def int32 (n : Int) : Int := Int.bmod n (2 ^ 32)

/-- The value that a `uint64_t` takes for `n`. -/
def uint64 (n : Int) : Nat := (n % 2 ^ 64).toNat

/-- The 8 bytes of an unsigned 64-bit number in memory. -/
def word (n : Nat) : List UInt8 := leBytes 8 n

/-- `index_record` in memory and in the file. -/
def recordCodec : Codec IndexRecord where
  width := 16
  enc r := word r.recno.toNat ++ word r.timeMark.bits.toNat
  dec bs := ⟨UInt64.ofNat (leVal (bs.take 8)), ⟨UInt64.ofNat (leVal (bs.drop 8))⟩⟩
  enc_length r := by simp [word]
  dec_enc r := by
    have hlen : (word r.recno.toNat).length = 8 := leBytes_length 8 _
    have hword : ∀ x : UInt64, UInt64.ofNat (leVal (word x.toNat)) = x := by
      intro x
      rw [word, leVal_leBytes x.toNat_lt, UInt64.ofNat_toNat]
    rw [List.take_left' hlen, List.drop_left' hlen, hword, hword]

/-- The calls that can fail. Those of a portion or a merge are known by an offset and a length, an
allocation of the thread tables by the portion and the blocks of the merge round. -/
inductive Call where
  | fopen
  | writeHeader
  | mallocRecords
  | writeRecords
  | openMain
  | fstat
  | readHeader
  | mallocRuns
  | openAt (offset length : Nat)
  | mmap (offset length : Nat)
  | mallocSort (offset : Nat)
  | mallocMerge (offset : Nat) (blocks : Int)
  | msync (offset length : Nat)
  | munmap (offset length : Nat)
  deriving DecidableEq

/-- The records that generation makes: `timeMark i` is the mark drawn for the `i`-th. -/
def makeRecords (recordsCount : Nat) (timeMark : Nat → Double) : List IndexRecord :=
  (List.range recordsCount).map fun i => ⟨UInt64.ofNat (i + 1), timeMark i⟩

/-- `main` of generation.c: the file that it leaves, `none` for `EXIT_FAILURE`. -/
def generation (sys : Call → Bool) (recordsCountArg : Int) (timeMark : Nat → Double) :
    Option (List UInt8) :=
  let recordsCount := uint64 recordsCountArg
  if recordsCount = 0 ∨ recordsCount % 256 ≠ 0 then none
  else if !sys .fopen then none
  else if !sys .writeHeader then none
  else if !sys .mallocRecords then none
  else if !sys .writeRecords then none
  else some (word recordsCount ++ recordCodec.encode (makeRecords recordsCount timeMark))

/-- The loop of view.c: it ends early where `fread` finds no whole record. -/
def viewRecords : Nat → List UInt8 → List IndexRecord
  | 0, _ => []
  | count + 1, rest =>
    if rest.length < 16 then []
    else recordCodec.dec (rest.take 16) :: viewRecords count (rest.drop 16)

/-- `main` of view.c: the records that it prints, `none` for `EXIT_FAILURE`. -/
def view (sys : Call → Bool) (file : List UInt8) : Option (List IndexRecord) :=
  if !sys .fopen then none
  else if file.length < 8 then none
  else some (viewRecords (leVal (file.take 8)) (file.drop 8))

@[simp] theorem word_length (n : Nat) : (word n).length = 8 := leBytes_length 8 n

theorem int32_of_lt {n : Nat} (h : n < 2 ^ 31) : int32 n = n := by
  rw [int32, Int.bmod_eq_of_le] <;> omega

theorem uint64_of_lt {n : Nat} (h : n < 2 ^ 64) : uint64 n = n := by
  rw [uint64]
  omega

/-- No record of the list has a NaN for its mark. -/
def NoNaN (xs : List IndexRecord) : Prop := ∀ r ∈ xs, r.timeMark.isNaN = false

/-- The test of the merge, and the order of the marks. -/
def cmpLe (a b : IndexRecord) : Bool := cmpIndex a b ≤ 0

def markLe (a b : IndexRecord) : Bool := a.timeMark.order ≤ b.timeMark.order

def Sorted (xs : List IndexRecord) : Prop := xs.Pairwise (fun a b => markLe a b)

theorem markLe_trans (a b c : IndexRecord) (hab : markLe a b) (hbc : markLe b c) :
    markLe a c := by
  simp only [markLe, decide_eq_true_eq] at *
  exact Int.le_trans hab hbc

theorem markLe_total (a b : IndexRecord) : markLe a b || markLe b a := by
  simp only [markLe, Bool.or_eq_true, decide_eq_true_eq]
  exact Int.le_total _ _

theorem NoNaN.perm {xs ys : List IndexRecord} (h : NoNaN xs) (hp : ys.Perm xs) : NoNaN ys :=
  fun r hr => h r (hp.mem_iff.mp hr)

theorem NoNaN.block {blocks : List (List IndexRecord)} (h : NoNaN blocks.flatten)
    {r : List IndexRecord} (hr : r ∈ blocks) : NoNaN r :=
  fun a ha => h a (List.mem_flatten.mpr ⟨r, hr, ha⟩)

theorem cmpIndex_sign {a b : IndexRecord} (ha : a.timeMark.isNaN = false)
    (hb : b.timeMark.isNaN = false) :
    (cmpIndex a b < 0 ↔ a.timeMark.order < b.timeMark.order) ∧
      (0 < cmpIndex a b ↔ b.timeMark.order < a.timeMark.order) := by
  simp only [cmpIndex, Double.lt, ha, hb, Bool.not_false, Bool.true_and, decide_eq_true_eq]
  split
  · omega
  · split <;> omega

theorem cmpLe_eq_markLe {a b : IndexRecord} (ha : a.timeMark.isNaN = false)
    (hb : b.timeMark.isNaN = false) : cmpLe a b = markLe a b := by
  obtain ⟨-, hpos⟩ := cmpIndex_sign ha hb
  rw [cmpLe, markLe, decide_eq_decide]
  omega

/-- The list is in the order of the operator `<=` on the marks. -/
def InOrder (xs : List IndexRecord) : Prop :=
  xs.Pairwise (fun a b => a.timeMark.le b.timeMark = true)

theorem inOrder_iff_sorted {xs : List IndexRecord} (hnan : NoNaN xs) :
    InOrder xs ↔ Sorted xs := by
  apply List.Pairwise.iff_of_mem
  intro a b ha hb
  rw [Double.le, hnan a ha, hnan b hb]
  simp [markLe]

theorem end_encode (front : List UInt8) (xs : List IndexRecord) :
    (front ++ recordCodec.encode xs).length = front.length + 16 * xs.length := by
  rw [List.length_append, recordCodec.encode_length]
  rfl

theorem viewRecords_encode (xs : List IndexRecord) :
    viewRecords xs.length (recordCodec.encode xs) = xs := by
  induction xs with
  | nil => rfl
  | cons x xs ih =>
    have hcons : recordCodec.encode (x :: xs) = recordCodec.enc x ++ recordCodec.encode xs := rfl
    have hlen : (recordCodec.enc x).length = 16 := recordCodec.enc_length x
    have hroom : ¬(recordCodec.encode (x :: xs)).length < 16 := by
      rw [hcons, List.length_append, hlen]
      omega
    rw [List.length_cons, viewRecords, if_neg hroom, hcons, List.take_left' hlen,
      List.drop_left' hlen, recordCodec.dec_enc, ih]

theorem view_file {sys : Call → Bool} (hsys : ∀ c, sys c = true) {xs : List IndexRecord}
    (hlen : xs.length < 2 ^ 64) :
    view sys (word xs.length ++ recordCodec.encode xs) = some xs := by
  have hword : leVal (word xs.length) = xs.length := leVal_leBytes hlen
  have hlen8 : (word xs.length).length = 8 := word_length _
  have hroom : ¬(word xs.length ++ recordCodec.encode xs).length < 8 := by
    rw [List.length_append, hlen8]
    omega
  rw [view, hsys, if_neg hroom, List.take_left' hlen8, List.drop_left' hlen8, hword,
    viewRecords_encode]
  rfl

theorem makeRecords_length (n : Nat) (timeMark : Nat → Double) :
    (makeRecords n timeMark).length = n := by
  rw [makeRecords, List.length_map, List.length_range]

theorem generation_file {sys : Call → Bool} (hsys : ∀ c, sys c = true) {n : Nat} (hpos : 0 < n)
    (hdvd : 256 ∣ n) (hlt : n < 2 ^ 31) (timeMark : Nat → Double) :
    generation sys n timeMark =
      some (word n ++ recordCodec.encode (makeRecords n timeMark)) := by
  have hcount : uint64 n = n := uint64_of_lt (by omega)
  have hgood : ¬(n = 0 ∨ n % 256 ≠ 0) := by omega
  simp only [generation, hcount, if_neg hgood, hsys, Bool.not_true, Bool.false_eq_true, if_false]

end Osisp.Lab6
