import Osisp.Lib.Mutex
import Osisp.Lab5.Threads

namespace Osisp.Lab5

open Osisp.Lib

/-- How far main is in creating or closing a thread. -/
inductive Phase where
  | steady
  | spawning (type : ThreadType) (ind : Nat)
  | asked (type : ThreadType) (ind : Nat)
  | chosen (type : ThreadType) (ind : Nat)
  /-- It is decided whether the thread is cancelled. -/
  | marked (type : ThreadType) (ind : Nat)
  | cleared (type : ThreadType) (ind : Nat)
  | left (type : ThreadType)
  deriving DecidableEq, Repr

/-- The entries of a table of threads. `onDuty` is what main relies on as long as it does not
close the thread. -/
class Worker (A : Type*) where
  type : A → ThreadType
  ind : A → Nat
  onDuty : A → Prop
  live : A → Prop
  fresh : ThreadType → Nat → A
  cancelled : A → A
  type_fresh : ∀ t i, type (fresh t i) = t
  ind_fresh : ∀ t i, ind (fresh t i) = i
  onDuty_fresh : ∀ t i, onDuty (fresh t i)
  type_cancelled : ∀ a, type (cancelled a) = type a
  ind_cancelled : ∀ a, ind (cancelled a) = ind a
  live_cancelled : ∀ a, live (cancelled a) → live a

structure Roll (A : Type*) where
  phase : Phase
  roster : ThreadType → Roster
  table : List A

/-- `producers_working[ind] = b`, or the same of the consumers. -/
def setFlag (roster : ThreadType → Roster) (type : ThreadType) (ind : Nat) (b : Bool) :
    ThreadType → Roster :=
  Function.update roster type { roster type with
    working := Function.update (roster type).working ind b }

@[simp] theorem setFlag_count (roster : ThreadType → Roster) (type ty : ThreadType) (ind : Nat)
    (b : Bool) : (setFlag roster type ind b ty).count = (roster ty).count := by
  rcases eq_or_ne ty type with rfl | hne
  · simp [setFlag]
  · simp [setFlag, hne]

@[simp] theorem setFlag_handle (roster : ThreadType → Roster) (type ty : ThreadType) (ind : Nat)
    (b : Bool) : (setFlag roster type ind b ty).handle = (roster ty).handle := by
  rcases eq_or_ne ty type with rfl | hne
  · simp [setFlag]
  · simp [setFlag, hne]

theorem setFlag_working (roster : ThreadType → Roster) (type ty : ThreadType) (ind i : Nat)
    (b : Bool) : (setFlag roster type ind b ty).working i =
      if ty = type ∧ i = ind then b else (roster ty).working i := by
  rcases eq_or_ne ty type with rfl | hne
  · simp [setFlag, Function.update_apply]
  · simp [setFlag, hne]

variable {A : Type*} [Worker A]

/-- One move of main; a move of a thread changes entries of the table only and is none of
these. -/
inductive Roll.Move (limit : Nat) (s : Roll A) : Roll A → Prop
  | stay : Move limit s s
  | enlist (type : ThreadType) : s.phase = .steady → (s.roster type).count < limit →
      Move limit s ⟨.spawning type ((s.roster type).firstFree limit),
        setFlag s.roster type ((s.roster type).firstFree limit) true, s.table⟩
  | hired (type : ThreadType) (ind : Nat) : s.phase = .spawning type ind →
      Move limit s ⟨.steady, Function.update s.roster type { s.roster type with
        count := (s.roster type).count + 1
        handle := Function.update (s.roster type).handle ind s.table.length },
        s.table ++ [Worker.fresh type ind]⟩
  | failed (type : ThreadType) (ind : Nat) : s.phase = .spawning type ind →
      Move limit s ⟨.steady, setFlag s.roster type ind false, s.table⟩
  | ask (type : ThreadType) : s.phase = .steady →
      Move limit s ⟨.asked type ((s.roster type).count - 1), s.roster, s.table⟩
  | refuse (type : ThreadType) (ind : Nat) : s.phase = .asked type ind →
      Move limit s ⟨.steady, s.roster, s.table⟩
  | choose (type : ThreadType) (ind : Nat) : s.phase = .asked type ind →
      0 < (s.roster type).count → Move limit s ⟨.chosen type ind, s.roster, s.table⟩
  | cancel (type : ThreadType) (ind : Nat) : s.phase = .chosen type ind →
      Move limit s ⟨.marked type ind, s.roster,
        s.table.modify ((s.roster type).handle ind) Worker.cancelled⟩
  | spare (type : ThreadType) (ind : Nat) : s.phase = .chosen type ind →
      Move limit s ⟨.marked type ind, s.roster, s.table⟩
  | clear (type : ThreadType) (ind : Nat) : s.phase = .marked type ind →
      Move limit s ⟨.cleared type ind, setFlag s.roster type ind false, s.table⟩
  | leave (type : ThreadType) (ind : Nat) : s.phase = .cleared type ind →
      Move limit s ⟨.left type, s.roster, s.table⟩
  | count (type : ThreadType) : s.phase = .left type →
      Move limit s ⟨.steady, Function.update s.roster type { s.roster type with
        count := (s.roster type).count - 1 }, s.table⟩

/-- How many flags of the type are up: the count, one more before a new thread is counted, one
fewer after the flag of a thread is cleared. -/
def Phase.enrolled (type : ThreadType) (count : Nat) : Phase → Nat
  | .spawning ty _ => if ty = type then count + 1 else count
  | .cleared ty _ | .left ty => if ty = type then count - 1 else count
  | _ => count

/-- How many threads of the type are on duty: all but the one that is being closed. -/
def Phase.staff (type : ThreadType) (count : Nat) : Phase → Nat
  | .marked ty _ | .cleared ty _ | .left ty => if ty = type then count - 1 else count
  | _ => count

/-- The thread that main is closing. -/
def Phase.closing : Phase → Option (ThreadType × Nat)
  | .marked type ind | .cleared type ind => some (type, ind)
  | _ => none

/-- The index main works on is the first free one, or that of the last thread. -/
def Phase.Indexed (roster : ThreadType → Roster) : Phase → Prop
  | .steady => True
  | .spawning type ind => ind = (roster type).count
  | .asked type ind => ind = (roster type).count - 1
  | .chosen type ind | .marked type ind | .cleared type ind => ind + 1 = (roster type).count
  | .left type => 0 < (roster type).count

/-- The rosters say the truth: the flags that are up are the first ones, and each handle leads to
the thread with its type and index, on duty unless main closes it. -/
structure Roll.Sound (s : Roll A) : Prop where
  indexed : s.phase.Indexed s.roster
  working : ∀ type i, (s.roster type).working i = true ↔
    i < s.phase.enrolled type (s.roster type).count
  manned : ∀ type i, i < (s.roster type).count →
    At s.table ((s.roster type).handle i) (fun a => Worker.type a = type ∧ Worker.ind a = i ∧
      (i < s.phase.staff type (s.roster type).count → Worker.onDuty a))

/-- Every thread that has not ended is found through its handle, and is on the staff or being
closed. -/
def Roll.Known (s : Roll A) : Prop :=
  ∀ t a, s.table[t]? = some a → Worker.live a →
    (s.roster (Worker.type a)).handle (Worker.ind a) = t ∧
    (Worker.ind a < s.phase.staff (Worker.type a) (s.roster (Worker.type a)).count ∨
      s.phase.closing = some (Worker.type a, Worker.ind a))

theorem firstFree_eq {r : Roster} {limit : Nat} (hw : ∀ i, r.working i = true ↔ i < r.count)
    (hl : r.count < limit) : r.firstFree limit = r.count := by
  have hfind : (List.range limit).find? (fun i => !r.working i) = some r.count := by
    rw [List.find?_range_eq_some]
    refine ⟨?_, List.mem_range.mpr hl, ?_⟩
    · have h := hw r.count
      simpa using h
    · intro j hj
      simpa using (hw j).mpr hj
  simp [Roster.firstFree, hfind]

theorem Phase.staff_le (type : ThreadType) (count : Nat) (p : Phase) :
    p.staff type count ≤ count ∧ p.staff type count ≤ p.enrolled type count := by
  cases p <;> simp only [Phase.staff, Phase.enrolled] <;> try split_ifs
  all_goals omega

theorem Roll.Sound.working_of_staff {s : Roll A} (hs : s.Sound) {type : ThreadType} {i : Nat}
    (hi : i < s.phase.staff type (s.roster type).count) : (s.roster type).working i = true :=
  (hs.working type i).mpr (Nat.lt_of_lt_of_le hi (Phase.staff_le _ _ _).2)

theorem Roll.Sound.handle_inj {s : Roll A} (hs : s.Sound) {type type' : ThreadType} {i j : Nat}
    (hi : i < (s.roster type).count) (hj : j < (s.roster type').count)
    (h : (s.roster type).handle i = (s.roster type').handle j) : type = type' ∧ i = j := by
  obtain ⟨a, ha, hty, hind, -⟩ := hs.manned type i hi
  obtain ⟨b, hb, hty', hind', -⟩ := hs.manned type' j hj
  rw [h, hb] at ha
  obtain rfl := Option.some.inj ha
  exact ⟨hty.symm.trans hty', hind.symm.trans hind'⟩

/-- A change of one entry that keeps its type and index, and leaves it on duty if it has to be,
keeps the roll. -/
theorem Roll.Sound.set {s : Roll A} (hs : s.Sound) {t : Nat} {a b : A}
    (ha : s.table[t]? = some a) (hty : Worker.type b = Worker.type a)
    (hind : Worker.ind b = Worker.ind a)
    (hduty : (s.roster (Worker.type a)).working (Worker.ind a) = true → Worker.onDuty a →
      Worker.onDuty b) : Roll.Sound { s with table := s.table.set t b } where
  indexed := hs.indexed
  working := hs.working
  manned type i hi := by
    have hm := hs.manned type i hi
    by_cases ht : t = (s.roster type).handle i
    · rw [← ht, at_of_getElem? ha] at hm
      obtain ⟨h1, h2, h3⟩ := hm
      change At (s.table.set t b) _ _
      rw [← ht, at_set_self ha]
      refine ⟨hty.trans h1, hind.trans h2, fun hstaff => ?_⟩
      apply hduty
      · rw [h1, h2]
        exact hs.working_of_staff hstaff
      · exact h3 hstaff
    · exact (at_set_of_ne ht _ _ _).mpr hm

section Moves

variable {phase phase' : Phase} {roster : ThreadType → Roster} {table : List A}
  {type : ThreadType} {ind : Nat}

/-- A flag goes up or down as the phase says. -/
theorem Roll.Sound.flag {b : Bool} (hs : Roll.Sound ⟨phase, roster, table⟩)
    (hindexed : phase'.Indexed (setFlag roster type ind b))
    (hflag : ∀ ty i, (if ty = type ∧ i = ind then b = true
      else i < phase.enrolled ty (roster ty).count) ↔ i < phase'.enrolled ty (roster ty).count)
    (hstaff : ∀ ty count, phase'.staff ty count ≤ phase.staff ty count) :
    Roll.Sound ⟨phase', setFlag roster type ind b, table⟩ where
  indexed := hindexed
  working ty i := by
    have h := hs.working ty i
    have hf := hflag ty i
    simp only [setFlag_working, setFlag_count]
    split_ifs at hf ⊢
    · exact hf
    · exact h.trans hf
  manned ty i hlt := by
    simp only [setFlag_count, setFlag_handle] at hlt ⊢
    obtain ⟨a, ha, h1, h2, h3⟩ := hs.manned ty i hlt
    exact ⟨a, ha, h1, h2, fun hlow => h3 (Nat.lt_of_lt_of_le hlow (hstaff ty _))⟩

/-- The new thread gets the handle of its index and is counted. -/
theorem Roll.Sound.hire (hs : Roll.Sound ⟨.spawning type (roster type).count, roster, table⟩) :
    Roll.Sound ⟨.steady, Function.update roster type { roster type with
      count := (roster type).count + 1
      handle := Function.update (roster type).handle (roster type).count table.length },
      table ++ [Worker.fresh type (roster type).count]⟩ where
  indexed := trivial
  working ty i := by
    have h := hs.working ty i
    rcases eq_or_ne ty type with rfl | hne
    · simpa [Phase.enrolled] using h
    · simpa [Phase.enrolled, hne, hne.symm] using h
  manned ty i hlt := by
    rcases eq_or_ne ty type with rfl | hne
    · simp only [Function.update_self] at hlt ⊢
      rcases Nat.lt_or_eq_of_le (Nat.le_of_lt_succ hlt) with hlt | rfl
      · rw [Function.update_of_ne (Nat.ne_of_lt hlt)]
        apply at_append
        obtain ⟨a, ha, h1, h2, h3⟩ := hs.manned ty i hlt
        exact ⟨a, ha, h1, h2, fun _ => h3 hlt⟩
      · rw [Function.update_self]
        refine ⟨Worker.fresh ty (roster ty).count, by simp, Worker.type_fresh _ _,
          Worker.ind_fresh _ _, fun _ => Worker.onDuty_fresh _ _⟩
    · simp only [Function.update_of_ne hne] at hlt ⊢
      exact at_append (hs.manned ty i hlt) _

/-- Only the last thread of the type, which leaves the staff, is cancelled. -/
theorem Roll.Sound.cancel (hs : Roll.Sound ⟨.chosen type ind, roster, table⟩) :
    Roll.Sound ⟨.marked type ind, roster,
      table.modify ((roster type).handle ind) Worker.cancelled⟩ where
  indexed := hs.indexed
  working := hs.working
  manned ty i hlt := by
    have hind : ind + 1 = (roster type).count := hs.indexed
    obtain ⟨a, ha, h1, h2, h3⟩ := hs.manned ty i hlt
    rw [at_modify]
    refine ⟨a, ha, ?_⟩
    split_ifs with ht
    · refine ⟨(Worker.type_cancelled a).trans h1, (Worker.ind_cancelled a).trans h2, ?_⟩
      have hlast : ind < (roster type).count := by omega
      obtain ⟨hty, hsame⟩ := hs.handle_inj hlast hlt ht
      subst hty hsame
      intro hstaff
      simp only [Phase.staff, if_pos] at hstaff
      omega
    · exact ⟨h1, h2, fun hstaff => h3 hlt⟩

/-- The thread that has left is counted no more. -/
theorem Roll.Sound.discount (hs : Roll.Sound ⟨.left type, roster, table⟩) :
    Roll.Sound ⟨.steady, Function.update roster type { roster type with
      count := (roster type).count - 1 }, table⟩ where
  indexed := trivial
  working ty i := by
    have h := hs.working ty i
    rcases eq_or_ne ty type with rfl | hne
    · simpa [Phase.enrolled] using h
    · simpa [Phase.enrolled, hne, hne.symm] using h
  manned ty i hlt := by
    rcases eq_or_ne ty type with rfl | hne
    · simp only [Function.update_self] at hlt ⊢
      obtain ⟨a, ha, h1, h2, h3⟩ := hs.manned ty i (Nat.lt_of_lt_of_le hlt (Nat.sub_le _ _))
      exact ⟨a, ha, h1, h2, fun _ => h3 (by simpa [Phase.staff] using hlt)⟩
    · simp only [Function.update_of_ne hne] at hlt ⊢
      obtain ⟨a, ha, h1, h2, h3⟩ := hs.manned ty i hlt
      exact ⟨a, ha, h1, h2, fun _ => h3 (by simpa [Phase.staff, hne.symm] using hlt)⟩

end Moves

theorem Roll.Move.sound {limit : Nat} {s s' : Roll A} (hm : Roll.Move limit s s')
    (hs : s.Sound) : s'.Sound := by
  obtain ⟨phase, roster, table⟩ := s
  cases hm with
  | stay => exact hs
  | enlist type hp hlt =>
    obtain rfl : phase = .steady := hp
    have hfree : (roster type).firstFree limit = (roster type).count :=
      firstFree_eq (hs.working type) hlt
    simp only [hfree]
    apply hs.flag
    · simp [Phase.Indexed]
    · intro ty i
      simp only [Phase.enrolled]
      split_ifs <;> grind
    · intro _ _
      exact Nat.le_refl _
  | hired type ind hp =>
    obtain rfl : phase = .spawning type ind := hp
    obtain rfl : ind = (roster type).count := hs.indexed
    exact hs.hire
  | failed type ind hp =>
    obtain rfl : phase = .spawning type ind := hp
    obtain rfl : ind = (roster type).count := hs.indexed
    apply hs.flag
    · trivial
    · intro ty i
      simp only [Phase.enrolled]
      split_ifs <;> grind
    · intro _ _
      exact Nat.le_refl _
  | ask type hp =>
    obtain rfl : phase = .steady := hp
    exact ⟨rfl, hs.working, hs.manned⟩
  | refuse type ind hp =>
    obtain rfl : phase = .asked type ind := hp
    exact ⟨trivial, hs.working, hs.manned⟩
  | choose type ind hp hpos =>
    obtain rfl : phase = .asked type ind := hp
    have hind : ind = (roster type).count - 1 := hs.indexed
    have hpos : 0 < (roster type).count := hpos
    exact ⟨show ind + 1 = (roster type).count by omega, hs.working, hs.manned⟩
  | cancel type ind hp =>
    obtain rfl : phase = .chosen type ind := hp
    exact hs.cancel
  | spare type ind hp =>
    obtain rfl : phase = .chosen type ind := hp
    refine ⟨hs.indexed, hs.working, fun ty i hlt => ?_⟩
    obtain ⟨a, ha, h1, h2, h3⟩ := hs.manned ty i hlt
    exact ⟨a, ha, h1, h2, fun _ => h3 hlt⟩
  | clear type ind hp =>
    obtain rfl : phase = .marked type ind := hp
    have hind : ind + 1 = (roster type).count := hs.indexed
    apply hs.flag
    · simpa [Phase.Indexed] using hind
    · intro ty i
      simp only [Phase.enrolled]
      split_ifs <;> grind
    · intro _ _
      exact Nat.le_refl _
  | leave type ind hp =>
    obtain rfl : phase = .cleared type ind := hp
    have hind : ind + 1 = (roster type).count := hs.indexed
    exact ⟨show 0 < (roster type).count by omega, hs.working, hs.manned⟩
  | count type hp =>
    obtain rfl : phase = .left type := hp
    exact hs.discount

/-- A step of the program, seen in the roll: a move of main, or a thread that goes on and stays on
duty as long as its flag is up. -/
inductive Roll.Step (limit : Nat) (s : Roll A) : Roll A → Prop
  | main {s' : Roll A} : s.Move limit s' → Step limit s s'
  | thread {t : Nat} {a b : A} : s.table[t]? = some a → Worker.type b = Worker.type a →
      Worker.ind b = Worker.ind a →
      ((s.roster (Worker.type a)).working (Worker.ind a) = true → Worker.onDuty a →
        Worker.onDuty b) →
      Step limit s { s with table := s.table.set t b }

theorem Roll.Step.sound {limit : Nat} {s s' : Roll A} (h : s.Step limit s') (hs : s.Sound) :
    s'.Sound := by
  cases h with
  | main hm => exact hm.sound hs
  | thread ha hty hind hduty => exact hs.set ha hty hind hduty

/-- The arrays have room for all threads, also for one that main is about to count. -/
def Roll.Within (limit : Nat) (s : Roll A) : Prop :=
  ∀ type, (s.roster type).count ≤ limit ∧
    ∀ ind, s.phase = .spawning type ind → (s.roster type).count < limit

theorem Roll.Move.within {limit : Nat} {s s' : Roll A} (hm : Roll.Move limit s s')
    (hw : s.Within limit) : s'.Within limit := by
  intro ty
  obtain ⟨hle, hlt⟩ := hw ty
  cases hm with
  | stay => exact ⟨hle, hlt⟩
  | enlist type hp hroom =>
    refine ⟨by simpa using hle, fun ind h => ?_⟩
    cases h
    simpa using hroom
  | hired type ind hp =>
    refine ⟨?_, fun ind h => by cases h⟩
    rcases eq_or_ne ty type with rfl | hne
    · simp only [Function.update_self]
      exact hlt ind hp
    · simpa [hne] using hle
  | failed type ind hp | clear type ind hp =>
    exact ⟨by simpa using hle, fun ind h => by cases h⟩
  | count type hp =>
    refine ⟨?_, fun ind h => by cases h⟩
    rcases eq_or_ne ty type with rfl | hne
    · simp only [Function.update_self]
      omega
    · simpa [hne] using hle
  | ask | refuse | choose | cancel | spare | leave => exact ⟨hle, fun ind h => by cases h⟩

theorem Roll.Step.within {limit : Nat} {s s' : Roll A} (h : s.Step limit s')
    (hw : s.Within limit) : s'.Within limit := by
  cases h with
  | main hm => exact hm.within hw
  | thread => exact hw

/-- A move of main leaves the entries with `p` with `p`, and adds none unless a fresh entry has
it. -/
theorem Roll.Move.at_iff {limit : Nat} {s s' : Roll A} (hm : Roll.Move limit s s')
    {p : A → Prop} (hfresh : ∀ type ind, ¬p (Worker.fresh type ind))
    (hcancel : ∀ a, p (Worker.cancelled a) ↔ p a) (t : Nat) : At s'.table t p ↔ At s.table t p := by
  cases hm with
  | hired type ind hp => exact at_append_of_not (hfresh type ind) s.table t
  | cancel type ind hp =>
    rw [at_modify]
    split_ifs <;> simp only [hcancel]
  | stay | enlist | failed | ask | refuse | choose | spare | clear | leave | count => exact Iff.rfl

theorem Roll.Known.set {s : Roll A} (hk : s.Known) {t : Nat} {a b : A}
    (ha : s.table[t]? = some a) (hty : Worker.type b = Worker.type a)
    (hind : Worker.ind b = Worker.ind a) (hlive : Worker.live b → Worker.live a) :
    Roll.Known { s with table := s.table.set t b } := by
  intro u c hc hl
  rcases entry_of_set hc with ⟨rfl, rfl⟩ | ⟨-, hc⟩
  · rw [hty, hind]
    exact hk u a ha (hlive hl)
  · exact hk u c hc hl

theorem Roll.Known.ind_lt {s : Roll A} (hk : s.Known) (hi : s.phase.closing = none) {t : Nat}
    {a : A} (ha : s.table[t]? = some a) (hl : Worker.live a) :
    Worker.ind a < (s.roster (Worker.type a)).count := by
  obtain ⟨-, hlt | hc⟩ := hk t a ha hl
  · exact Nat.lt_of_lt_of_le hlt (Phase.staff_le _ _ _).1
  · rw [hi] at hc
    cases hc

/-- As soon as the last thread of a type is marked, a thread is on the staff or it is this
one. -/
theorem staff_or_closing {roster : ThreadType → Roster} {type ty : ThreadType} {ind i : Nat}
    (hi : ind + 1 = (roster type).count) (hlt : i < (roster ty).count) :
    i < (Phase.marked type ind).staff ty (roster ty).count ∨
      (Phase.marked type ind).closing = some (ty, i) := by
  simp only [Phase.staff, Phase.closing]
  split_ifs with hty
  · subst hty
    rcases Nat.lt_or_ge i ((roster type).count - 1) with h | h
    · exact .inl h
    · exact .inr (by rw [show ind = i by omega])
  · exact .inl hlt

theorem Roll.Move.known {limit : Nat} {s s' : Roll A} (hm : Roll.Move limit s s')
    (hs : s.Sound) (hk : s.Known)
    (hleave : ∀ type ind, s.phase = .cleared type ind → s'.phase = .left type →
      ¬At s.table ((s.roster type).handle ind) Worker.live) : s'.Known := by
  obtain ⟨phase, roster, table⟩ := s
  obtain ⟨hi, -, -⟩ := hs
  intro t a ha hl
  cases hm with
  | stay => exact hk t a ha hl
  | enlist type hp hlt =>
    obtain rfl : phase = .steady := hp
    simpa [Phase.staff, Phase.closing] using hk t a ha hl
  | hired type ind hp =>
    obtain rfl : phase = .spawning type ind := hp
    obtain rfl : ind = (roster type).count := hi
    rcases Nat.lt_or_ge t table.length with ht | ht
    · obtain ⟨hh, hlt | hc⟩ := hk t a (by rwa [List.getElem?_append_left ht] at ha) hl
      · change Worker.ind a < (roster (Worker.type a)).count at hlt
        rcases eq_or_ne (Worker.type a) type with hty | hne
        · rw [hty] at hlt hh
          simp only [hty, Function.update_self, Phase.staff]
          rw [Function.update_of_ne (Nat.ne_of_lt hlt)]
          exact ⟨hh, .inl (Nat.lt_succ_of_lt hlt)⟩
        · simp only [Function.update_of_ne hne, Phase.staff]
          exact ⟨hh, .inl hlt⟩
      · cases hc
    · obtain ⟨hlast, rfl⟩ : t = table.length ∧ Worker.fresh type (roster type).count = a := by
        rw [List.getElem?_append_right ht] at ha
        have h0 : t - table.length = 0 := by
          by_contra h0
          rw [List.getElem?_eq_none (by simp; omega)] at ha
          cases ha
        exact ⟨by omega, by simpa [h0] using ha⟩
      simp [Worker.type_fresh, Worker.ind_fresh, Phase.staff, hlast]
  | failed type ind hp =>
    obtain rfl : phase = .spawning type ind := hp
    simpa [Phase.staff, Phase.closing] using hk t a ha hl
  | ask type hp =>
    obtain rfl : phase = .steady := hp
    exact hk t a ha hl
  | refuse type ind hp | choose type ind hp hpos =>
    obtain rfl : phase = .asked type ind := hp
    exact hk t a ha hl
  | cancel type ind hp =>
    obtain rfl : phase = .chosen type ind := hp
    obtain ⟨b, hb, hab⟩ : ∃ b, table[t]? = some b ∧
        (a = b ∨ a = Worker.cancelled b) := by
      simp only [List.getElem?_modify, Option.map_eq_map, Option.map_eq_some_iff] at ha
      obtain ⟨b, hb, rfl⟩ := ha
      exact ⟨b, hb, by split_ifs <;> simp⟩
    rcases hab with rfl | rfl
    · exact ⟨(hk t a hb hl).1, staff_or_closing hi (hk.ind_lt rfl hb hl)⟩
    · have hl := Worker.live_cancelled b hl
      rw [Worker.type_cancelled, Worker.ind_cancelled]
      exact ⟨(hk t b hb hl).1, staff_or_closing hi (hk.ind_lt rfl hb hl)⟩
  | spare type ind hp =>
    obtain rfl : phase = .chosen type ind := hp
    exact ⟨(hk t a ha hl).1, staff_or_closing hi (hk.ind_lt rfl ha hl)⟩
  | clear type ind hp =>
    obtain rfl : phase = .marked type ind := hp
    simpa [Phase.staff, Phase.closing] using hk t a ha hl
  | leave type ind hp =>
    obtain rfl : phase = .cleared type ind := hp
    obtain ⟨hh, hlt | hc⟩ := hk t a ha hl
    · exact ⟨hh, .inl hlt⟩
    · cases hc
      exact absurd ⟨a, by rwa [hh], hl⟩ (hleave _ _ rfl rfl)
  | count type hp =>
    obtain rfl : phase = .left type := hp
    obtain ⟨hh, hlt | hc⟩ := hk t a ha hl
    · rcases eq_or_ne (Worker.type a) type with hty | hne
      · rw [hty] at hlt hh
        simp only [Phase.staff, if_pos] at hlt
        simp only [hty, Function.update_self, Phase.staff]
        exact ⟨hh, .inl hlt⟩
      · simp only [Function.update_of_ne hne, Phase.staff]
        exact ⟨hh, .inl (by simpa [Phase.staff, hne.symm] using hlt)⟩
    · cases hc

end Osisp.Lab5
