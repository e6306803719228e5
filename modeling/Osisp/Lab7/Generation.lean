import Osisp.Lab7.Record

namespace Osisp.Lab7

open Osisp.Lib

def ascii (s : String) : List UInt8 := s.toList.map fun c => c.toNat.toUInt8

/-- `snprintf` to an array of `n` bytes: what fits of the text and a NUL; the rest of the array
stays as it was. -/
def snprintf (n : Nat) (dst : Vector UInt8 n) (s : List UInt8) : Vector UInt8 n :=
  let len := min s.length (n - 1)
  Vector.ofFn fun i => if i < len then s.getD i 0 else if i = len then 0 else dst[i]

/-- `%03ld` -/
def decimal3 (i : Nat) : List UInt8 :=
  let ds := ascii (String.ofList (Nat.toDigits 10 i))
  List.replicate (3 - ds.length) 48 ++ ds

/-- What the loop of `main` makes of the variable `rec` in its round `i`. -/
def nextRecord (rec : Record) (i : Nat) : Record where
  name := snprintf nameLen rec.name (ascii "Student" ++ decimal3 i)
  address := snprintf addrLen rec.address (ascii "Address" ++ decimal3 i)
  semester := (i % 8 + 1).toUInt8

/-- The loop of `main` from round `i` on, with `n` rounds to go. -/
def writeRecords (rec : Record) (i : Nat) : Nat → List Record
  | 0 => []
  | n + 1 => nextRecord rec i :: writeRecords (nextRecord rec i) (i + 1) n

/-- `main`, when the file can be written: the records of the file, or none where the argument
`num_records` is refused. `rec` is what the variable `rec` holds before it is first written. -/
def generation (arg : List UInt8) (rec : Record) : Option (List Record) :=
  let (n, rest) := strtol arg
  if rest ≠ [] ∨ n < 10 then none else some (writeRecords rec 0 n.toNat)

/-- A record that its readers can print: both texts end, and the semester is one. -/
structure Record.WellFormed (rec : Record) : Prop where
  name : 0 ∈ rec.name
  address : 0 ∈ rec.address
  semester : 1 ≤ rec.semester.toNat ∧ rec.semester.toNat ≤ 12

theorem nul_mem_snprintf {n : Nat} (hn : 0 < n) (dst : Vector UInt8 n) (s : List UInt8) :
    0 ∈ snprintf n dst s := by
  have hlen : min s.length (n - 1) < n := by omega
  rw [Vector.mem_iff_getElem]
  refine ⟨min s.length (n - 1), hlen, ?_⟩
  unfold snprintf
  simp only [Vector.getElem_ofFn, lt_irrefl, if_false, if_true]

theorem nextRecord_wellFormed (rec : Record) (i : Nat) : (nextRecord rec i).WellFormed where
  name := nul_mem_snprintf (by decide) _ _
  address := nul_mem_snprintf (by decide) _ _
  semester := by
    have h : (nextRecord rec i).semester.toNat = i % 8 + 1 := by
      change (i % 8 + 1) % 256 = i % 8 + 1
      omega
    omega

theorem writeRecords_wellFormed (n : Nat) (rec : Record) (i : Nat) :
    ∀ r ∈ writeRecords rec i n, r.WellFormed := by
  induction n generalizing rec i with
  | zero =>
    intro r hr
    cases hr
  | succ n ih =>
    intro r hr
    rcases List.mem_cons.mp hr with rfl | hr
    · exact nextRecord_wellFormed rec i
    · exact ih _ _ r hr

theorem generation_wellFormed {arg : List UInt8} {rec : Record} {disk : List Record}
    (h : generation arg rec = some disk) : ∀ r ∈ disk, r.WellFormed := by
  simp only [generation] at h
  split_ifs at h
  cases h
  exact writeRecords_wellFormed _ _ _

theorem nul_mem_strncpy {n : Nat} {s : List UInt8} (h : s.length < n) : 0 ∈ strncpy n s := by
  rw [Vector.mem_iff_getElem]
  refine ⟨s.length, h, ?_⟩
  simp [strncpy]

theorem enterName_wellFormed {buf : List UInt8} {rec rec' : Record} (hw : rec.WellFormed)
    (h : enterName buf rec = some rec') : rec'.WellFormed := by
  simp only [enterName] at h
  split_ifs at h with hlen
  rw [Option.some.injEq] at h
  rw [← h]
  exact ⟨nul_mem_strncpy hlen.2, hw.address, hw.semester⟩

theorem enterAddress_wellFormed {buf : List UInt8} {rec rec' : Record} (hw : rec.WellFormed)
    (h : enterAddress buf rec = some rec') : rec'.WellFormed := by
  simp only [enterAddress] at h
  split_ifs at h with hlen
  rw [Option.some.injEq] at h
  rw [← h]
  exact ⟨hw.name, nul_mem_strncpy hlen.2, hw.semester⟩

theorem semester_cast {n : Int} (h : 1 ≤ n ∧ n ≤ 12) :
    1 ≤ (n.toNat.toUInt8).toNat ∧ (n.toNat.toUInt8).toNat ≤ 12 := by
  have hn : (n.toNat.toUInt8).toNat = n.toNat := by
    change n.toNat % 256 = n.toNat
    omega
  omega

theorem enterSemester_wellFormed {buf : List UInt8} {rec rec' : Record} (hw : rec.WellFormed)
    (h : enterSemester buf rec = some rec') : rec'.WellFormed := by
  simp only [enterSemester] at h
  split_ifs at h with hend hrange
  rw [Option.some.injEq] at h
  rw [← h]
  exact ⟨hw.name, hw.address, semester_cast hrange⟩

end Osisp.Lab7
