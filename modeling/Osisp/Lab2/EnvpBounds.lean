import Osisp.Lab2.Environment

namespace Osisp.Lab2

def Filled.indices (f : Filled) : List Nat := f.writes.map Assign.index

/-- `envp` is written to inside the array only. -/
def InBounds (f : Filled) : Prop := ∀ i ∈ f.indices, i < envpSize

instance (f : Filled) : Decidable (InBounds f) :=
  inferInstanceAs (Decidable (∀ i ∈ f.indices, i < envpSize))

/-- What is put into `envp` leaves one cell for the `NULL`; or a `malloc` fails while there is
room. -/
def Room (environ : List Text) (calls : Calls) : Mode → Prop
  | .plus => ∀ file, calls.env = some file →
      (setLines environ file).length ≤ 99 ∨ ∃ k ≤ 99, calls.malloc k = false
  | .star => environ.length ≤ 99

/-- `spawn_child` comes to the point where it fills `envp`. -/
def Fills (environ : List Text) (calls : Calls) : Prop :=
  getenv environ childPath ≠ none ∧ calls.access = true

theorem copyLoop_indices (entries : List Text) (count : Nat) :
    (copyLoop entries count).indices = List.range' count (entries.length + 1) := by
  induction entries generalizing count with
  | nil => rfl
  | cons entry entries ih =>
    have hnext : (copyLoop (entry :: entries) count).indices =
        count :: (copyLoop entries (count + 1)).indices := rfl
    rw [hnext, ih]
    rfl

/-- The loop of `read_env_file` writes one cell after the other, until the lines end or a `malloc`
fails. -/
theorem readLoop_indices (environ : List Text) (malloc : Nat → Bool) (lines : List Text)
    (count : Nat) :
    ∃ n, (readLoop environ malloc lines count).indices = List.range' count (n + 1) ∧
      n ≤ (lines.filter fun line => (getenv environ line).isSome).length ∧
      (∀ j < n, malloc (count + j) = true) ∧
      (n < (lines.filter fun line => (getenv environ line).isSome).length →
        malloc (count + n) = false) := by
  induction lines generalizing count with
  | nil => exact ⟨0, rfl, Nat.le_refl 0, by simp, fun h => absurd h (Nat.lt_irrefl 0)⟩
  | cons line lines ih =>
    rw [readLoop, List.filter_cons]
    cases getenv environ line with
    | none => exact ih count
    | some value =>
      dsimp only
      rw [Option.isSome_some, if_pos rfl, List.length_cons]
      by_cases hmalloc : malloc count = true
      · obtain ⟨n, hindices, hle, hall, hlast⟩ := ih (count + 1)
        rw [if_pos hmalloc]
        refine ⟨n + 1, ?_, Nat.succ_le_succ hle, ?_, ?_⟩
        · rw [List.range'_succ, ← hindices]
          rfl
        · intro j hj
          cases j with
          | zero => exact hmalloc
          | succ j =>
            have hj := hall j (Nat.lt_of_succ_lt_succ hj)
            rwa [Nat.add_right_comm] at hj
        · intro hlt
          have hn := hlast (Nat.lt_of_succ_lt_succ hlt)
          rwa [Nat.add_right_comm] at hn
      · rw [if_neg hmalloc]
        refine ⟨0, rfl, Nat.zero_le _, by simp, fun _ => ?_⟩
        exact (Bool.not_eq_true _).mp hmalloc

theorem inBounds_range {f : Filled} {n : Nat} (h : f.indices = List.range' 0 (n + 1)) :
    InBounds f ↔ n ≤ 99 := by
  rw [InBounds, h]
  simp only [List.mem_range'_1]
  constructor
  · intro hall
    exact Nat.lt_succ_iff.mp (hall n (by omega))
  · intro hn i hi
    rw [envpSize]
    omega

theorem readEnvFile_inBounds_iff (environ : List Text) (calls : Calls) :
    InBounds (readEnvFile environ calls) ↔ Room environ calls .plus := by
  cases hfile : calls.env with
  | none =>
    rw [readEnvFile, hfile]
    refine iff_of_true (fun i hi => by cases hi) (fun file h => ?_)
    rw [hfile] at h
    cases h
  | some file =>
    obtain ⟨n, hindices, hle, hall, hlast⟩ :=
      readLoop_indices environ calls.malloc (envLines file) 0
    have hread : readEnvFile environ calls = readLoop environ calls.malloc (envLines file) 0 := by
      rw [readEnvFile, hfile]
    rw [hread, inBounds_range hindices]
    simp only [Nat.zero_add] at hall hlast
    constructor
    · intro hn other hother
      obtain rfl : file = other := Option.some.inj (hfile.symm.trans hother)
      by_cases hlt : n < (setLines environ file).length
      · exact .inr ⟨n, hn, hlast hlt⟩
      · exact .inl (Nat.le_trans (Nat.not_lt.mp hlt) hn)
    · intro hroom
      rcases hroom file hfile with hset | ⟨k, hk, hfail⟩
      · exact Nat.le_trans hle hset
      · by_contra hn
        have hmalloc := hall k (by omega)
        rw [hfail] at hmalloc
        cases hmalloc

/-- `envp` is not overrun exactly if what goes into it leaves room for the `NULL`. -/
theorem envp_in_bounds_iff (mode : Mode) (environ : List Text) (calls : Calls) :
    InBounds (spawnChild mode environ calls) ↔
      (Fills environ calls → Room environ calls mode) := by
  by_cases hfills : Fills environ calls
  · have hroom : (Fills environ calls → Room environ calls mode) ↔ Room environ calls mode :=
      ⟨fun h => h hfills, fun h _ => h⟩
    rw [hroom]
    obtain ⟨hpath, haccess⟩ := hfills
    cases mode with
    | plus =>
      rw [spawnChild, if_neg hpath, haccess, if_neg (by decide)]
      exact readEnvFile_inBounds_iff environ calls
    | star =>
      rw [spawnChild, if_neg hpath, haccess, if_neg (by decide)]
      exact inBounds_range (copyLoop_indices environ 0)
  · have hnone : spawnChild mode environ calls = ⟨[], false⟩ := by
      unfold spawnChild
      split_ifs with hpath haccess
      · rfl
      · rfl
      · rw [Bool.not_eq_true', Bool.not_eq_false] at haccess
        exact absurd ⟨hpath, haccess⟩ hfills
    rw [hnone]
    exact iff_of_true (fun i hi => by cases hi) fun h => absurd h hfills

/-- `CHILD_PATH` and 99 other variables. -/
def largeEnviron : List Text :=
  (childPath ++ [61, 47]) :: (List.range 99).map fun n => [65 + n.toUInt8, 61]

/-- In mode `*` the `NULL` is written behind the array. -/
theorem large_environ_overruns :
    100 ∈ (spawnChild .star largeEnviron sampleCalls).indices ∧
      ¬InBounds (spawnChild .star largeEnviron sampleCalls) := by
  have hspawn : spawnChild .star largeEnviron sampleCalls = copyLoop largeEnviron 0 := by
    rw [spawnChild, if_neg (by decide), if_neg (by decide)]
  have hmem : 100 ∈ (spawnChild .star largeEnviron sampleCalls).indices := by
    rw [hspawn, copyLoop_indices]
    decide
  exact ⟨hmem, fun h => absurd (h 100 hmem) (by decide)⟩

end Osisp.Lab2
