import Osisp.Lib.FileSystem

namespace Osisp.Lab8

open Osisp.Lib

/-- `PATH_MAX` and `NAME_MAX` of the system. -/
def pathMax : Nat := 4096

def nameMax : Nat := 255

def pathBuf : Nat := pathMax + nameMax + 2

/-- The buffer `tmp` of `build_path`; `snprintf` cuts it off at the end of the buffer. -/
def joined (root cwd target : List Char) : List Char :=
  let tmp := if target.head? = some '/' then root ++ target else root ++ '/' :: cwd ++ '/' :: target
  tmp.take (pathBuf - 1)

/-- Whether `strncmp(s, t, n)` is 0. -/
def strncmpEqual (s t : List Char) (n : Nat) : Prop := s.take n = t.take n

instance (s t : List Char) (n : Nat) : Decidable (strncmpEqual s t n) :=
  inferInstanceAs (Decidable (_ = _))

/-- `build_path`: the path it stores in `out` when it returns 0. -/
def buildPath (realpath : List Char → Option (List Char)) (root cwd target : List Char) :
    Option (List Char) :=
  match realpath (joined root cwd target) with
  | none => none
  | some realp => if strncmpEqual realp root root.length then some realp else none

/-- A `realpath` on a file system: it returns the canonical absolute path of an existing file, or
fails. -/
structure Realpath (fs : FileSystem) where
  call : List Char → Option (List Char)
  canonical : ∀ s r, call s = some r → ∃ path, fs.Real path ∧ r = absolute path

/-- The one that fails only where the path names nothing. -/
def Realpath.ofResolve (fs : FileSystem) : Realpath fs where
  call s := (fs.resolve s).map absolute
  canonical s r h := by
    obtain ⟨path, hpath, rfl⟩ := Option.map_eq_some_iff.mp h
    exact ⟨path, FileSystem.resolve_real hpath, rfl⟩

/-- `out` is the root or a path below it. -/
def Confined (root out : List Char) : Prop :=
  out = root ∨ root ++ ['/'] <+: out ∨ root = ['/'] ∧ ['/'] <+: out

theorem buildPath_eq_some {realpath : List Char → Option (List Char)}
    {root cwd target out : List Char} :
    buildPath realpath root cwd target = some out ↔
      realpath (joined root cwd target) = some out ∧ root <+: out := by
  have hcut (out : List Char) : strncmpEqual out root root.length ↔ root <+: out := by
    rw [strncmpEqual, List.take_length, List.prefix_iff_eq_take, eq_comm]
  unfold buildPath
  cases realpath (joined root cwd target) with
  | none => simp
  | some realp =>
    simp only [hcut, Option.some.injEq]
    split_ifs with h
    · simp only [Option.some.injEq]
      exact ⟨fun he => ⟨he, he ▸ h⟩, fun he => he.1⟩
    · simp only [false_iff]
      rintro ⟨rfl, hpre⟩
      exact h hpre

theorem confined_of_prefix {dir path : List FileName} (h : dir <+: path) :
    Confined (absolute dir) (absolute path) := by
  obtain ⟨below, rfl⟩ := h
  by_cases hdir : dir = []
  · subst hdir
    refine .inr (.inr ⟨rfl, ?_⟩)
    cases below with
    | nil => simp [absolute]
    | cons name below => simp [absolute]
  · cases below with
    | nil => exact .inl (by simp)
    | cons name below =>
      refine .inr (.inl ⟨name ++ below.flatMap (fun name => '/' :: name), ?_⟩)
      rw [absolute_of_ne_nil hdir, absolute_of_ne_nil (by simp [hdir])]
      simp

theorem not_confined_of_below {dir path : List FileName} (hdir : ∀ name ∈ dir, ValidName name)
    (hpath : ∀ name ∈ path, ValidName name) (h : BelowLongerSibling dir path) :
    ¬Confined (absolute dir) (absolute path) := by
  obtain ⟨c, s, heq, name, hname, hc⟩ := absolute_of_belowLongerSibling h
  have hslash : c ≠ '/' := by
    rintro rfl
    exact (hpath name hname).2.2.2 hc
  rw [heq]
  rintro (h | h | ⟨h, -⟩)
  · exact absurd (congrArg List.length h) (by simp)
  · have hcons := (List.prefix_append_right_inj _).mp h
    exact hslash (List.cons_prefix_cons.mp hcons).1.symm
  · -- the root directory has no siblings
    obtain ⟨parent, last, more, below, -, rfl, -⟩ := ‹BelowLongerSibling dir path›
    have hlast := (hdir last (by simp)).1
    have hlen := congrArg List.length h
    have hpos : 0 < last.length := List.length_pos_iff.mpr hlast
    rw [absolute_of_ne_nil (by simp)] at hlen
    simp at hlen
    omega

/-- `build_path` leaves the root exactly where the joined path resolves to a place in or below a
sibling of the root with a longer name that begins with the root's own. -/
theorem buildPath_confined_iff {fs : FileSystem} (rp : Realpath fs) {dir : List FileName}
    (hdir : ∀ name ∈ dir, ValidName name) (cwd target : List Char) :
    (∀ out, buildPath rp.call (absolute dir) cwd target = some out →
      Confined (absolute dir) out) ↔
    ∀ path, fs.Real path → rp.call (joined (absolute dir) cwd target) = some (absolute path) →
      ¬BelowLongerSibling dir path := by
  constructor
  · intro h path hreal hcall hbelow
    obtain ⟨c, s, heq, -⟩ := absolute_of_belowLongerSibling hbelow
    have hout := buildPath_eq_some.mpr ⟨hcall, heq ▸ List.prefix_append _ _⟩
    exact not_confined_of_below hdir (FileSystem.valid_of_entry hreal.entry_ne_none) hbelow
      (h _ hout)
  · intro h out hout
    obtain ⟨hcall, hpre⟩ := buildPath_eq_some.mp hout
    obtain ⟨path, hreal, rfl⟩ := rp.canonical _ _ hcall
    have hpath := FileSystem.valid_of_entry hreal.entry_ne_none
    by_cases hroot : dir = []
    · subst hroot
      exact confined_of_prefix (List.nil_prefix)
    · rcases absolute_prefix_cases hdir hpath hroot hpre with hpre | hbelow
      · exact confined_of_prefix hpre
      · exact absurd hbelow (h path hreal hcall)

/-- The directories `/a` and `/ab`. -/
def siblings : FileSystem where
  entry path :=
    if path = [] ∨ path = [['a']] ∨ path = [['a', 'b']] then some .directory else none
  root := by simp
  parent path name h := by
    by_cases hpath : path = []
    · subst hpath
      have hname : name = ['a'] ∨ name = ['a', 'b'] := by
        by_contra hn
        exact h (by simpa using hn)
      rcases hname with rfl | rfl <;> simp [ValidName]
    · exfalso
      obtain ⟨first, path, rfl⟩ := List.exists_cons_of_ne_nil hpath
      simp at h

theorem buildPath_confined_iff_inside :
    buildPath (Realpath.ofResolve siblings).call (absolute [['a']]) [] ['.'] =
      some (absolute [['a']]) ∧ Confined (absolute [['a']]) (absolute [['a']]) := by
  have hcall : (Realpath.ofResolve siblings).call (joined (absolute [['a']]) [] ['.']) =
      some (absolute [['a']]) := by decide
  refine ⟨by decide, (buildPath_confined_iff (Realpath.ofResolve siblings)
    (by simp [ValidName]) [] ['.']).mpr (fun path _ hpath hbelow => ?_) _ (by decide)⟩
  obtain ⟨c, s, heq, -⟩ := absolute_of_belowLongerSibling hbelow
  rw [hcall, heq] at hpath
  simp at hpath

/-- With the root `/a` the target `../ab` is accepted. -/
theorem sibling_not_confined :
    ¬∀ (fs : FileSystem) (rp : Realpath fs) (dir : List FileName),
      (∀ name ∈ dir, ValidName name) → ∀ cwd target out,
      buildPath rp.call (absolute dir) cwd target = some out → Confined (absolute dir) out := by
  intro h
  have hout := h siblings (Realpath.ofResolve siblings) [['a']] (by simp [ValidName]) []
    ['.', '.', '/', 'a', 'b'] ['/', 'a', 'b'] (by decide)
  exact absurd hout (by simp [Confined, absolute])

end Osisp.Lab8
