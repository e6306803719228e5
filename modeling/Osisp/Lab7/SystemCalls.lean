import Mathlib.Data.List.GetD
import Osisp.Lab7.Record

namespace Osisp.Lab7

/-- `sizeof(record_t)` -/
def recordSize : Nat := nameLen + addrLen + 1

/-- What `read` or `write` of a record does: it fails, or it moves so many bytes. -/
inductive Transfer where
  | failed
  | moved (n : Nat)
  deriving DecidableEq

/-- `dst` with its first `n` bytes taken from `src`. -/
@[irreducible] def overwrite (n : Nat) (src dst : Record) : Record where
  name := Vector.ofFn fun i => if i.val < n then src.name[i] else dst.name[i]
  address := Vector.ofFn fun i => if nameLen + i.val < n then src.address[i] else dst.address[i]
  semester := if nameLen + addrLen < n then src.semester else dst.semester

/-- The globals of the process, the records of its file, and those of them that it has locked. -/
structure Session where
  origRec : Record
  workRec : Record
  lastRecNo : Nat
  hasWork : Bool
  disk : List Record
  locked : Nat → Bool

/-- The record on disk that was fetched. -/
def Session.onDisk (s : Session) : Record := s.disk.getD s.lastRecNo .zero

inductive GetEnd where
  | invalidInput
  | readError
  | fetched
  deriving DecidableEq

/-- `do_get` up to its prompts, for what `scanf` has found. `read` goes straight to `orig_rec`. -/
def fetch (s : Session) (number : Option Int) (seek : Bool) (read : Transfer) : GetEnd × Session :=
  match number with
  | none => (.invalidInput, s)
  | some rn =>
    if rn < 0 ∨ s.disk.length ≤ rn.toNat then (.invalidInput, s)
    else if seek = false then (.readError, s)
    else
      match read with
      | .failed => (.readError, s)
      | .moved n =>
        let orig := overwrite n (s.disk.getD rn.toNat .zero) s.origRec
        if n = recordSize then
          (.fetched,
            { s with origRec := orig, workRec := orig, lastRecNo := rn.toNat, hasWork := true })
        else (.readError, { s with origRec := orig })

/-- How the system calls in one round of the loop in `do_put` go. -/
structure Calls where
  query : Bool
  lock : Bool
  seek : Bool
  read : Transfer
  seekBack : Bool
  write : Transfer
  unlock : Bool

/-- How a call of `do_put` ends. -/
inductive PutEnd where
  | noEdits
  | noChanges
  | queryError
  | lockError
  | rereadError
  | writeError
  | updated
  deriving DecidableEq

inductive Round where
  /-- After a conflict. -/
  | again (s : Session)
  | ended (last : PutEnd) (s : Session)

def Session.lockRec (s : Session) : Session :=
  { s with locked := Function.update s.locked s.lastRecNo true }

/-- `unlock_rec`; nothing is done about its failing. -/
def Session.unlockRec (s : Session) (ok : Bool) : Session :=
  if ok then { s with locked := Function.update s.locked s.lastRecNo false } else s

/-- What a short write leaves in the file. -/
def Session.store (s : Session) (n : Nat) : Session :=
  { s with disk := s.disk.set s.lastRecNo (overwrite n s.workRec s.onDisk) }

def putRound (s : Session) (c : Calls) : Round :=
  if c.query = false then .ended .queryError s
  else if c.lock = false then .ended .lockError s
  else
    let s := s.lockRec
    if c.seek = false ∨ c.read ≠ .moved recordSize then .ended .rereadError (s.unlockRec c.unlock)
    else
      let current := s.onDisk
      if current ≠ s.origRec then
        .again ({ s with origRec := current, workRec := current }.unlockRec c.unlock)
      else if c.seekBack = false then .ended .writeError (s.unlockRec c.unlock)
      else
        match c.write with
        | .failed => .ended .writeError (s.unlockRec c.unlock)
        | .moved n =>
          let s := (s.store n).unlockRec c.unlock
          if n = recordSize then .ended .updated { s with hasWork := false }
          else .ended .writeError s

/-- The loop of `do_put` over the rounds: how it ends, and whether it has seen a conflict. -/
def putLoop (conflict : Bool) : List Calls → Session → Option (PutEnd × Bool × Session)
  | [], _ => none
  | c :: cs, s =>
    match putRound s c with
    | .again s => putLoop true cs s
    | .ended last s => some (last, conflict, s)

def doPut (rounds : List Calls) (s : Session) : Option (PutEnd × Bool × Session) :=
  if s.hasWork = false then some (.noEdits, false, s)
  else if s.origRec = s.workRec then some (.noChanges, false, { s with hasWork := false })
  else putLoop false rounds s

/-- The edit and the file are as before, and no record is locked. -/
structure Untouched (s s' : Session) : Prop where
  origRec : s'.origRec = s.origRec
  workRec : s'.workRec = s.workRec
  lastRecNo : s'.lastRecNo = s.lastRecNo
  hasWork : s'.hasWork = s.hasWork
  disk : s'.disk = s.disk
  unlocked : ∀ r, s'.locked r = false

/-- `rn` is the number of a record. -/
def Session.HasRecord (s : Session) (rn : Int) : Prop := 0 ≤ rn ∧ rn.toNat < s.disk.length

/-- A read that is short of a record brings nothing new. -/
def ReadsSame (s : Session) (number : Option Int) (seek : Bool) (read : Transfer) : Prop :=
  ∀ rn n, number = some rn → s.HasRecord rn → seek = true → read = .moved n → n ≠ recordSize →
    overwrite n (s.disk.getD rn.toNat .zero) s.origRec = s.origRec

/-- There is something to save. -/
def Session.Edited (s : Session) : Prop := s.hasWork = true ∧ s.origRec ≠ s.workRec

def Calls.Locks (c : Calls) : Prop := c.query = true ∧ c.lock = true

def Calls.Rereads (c : Calls) : Prop := c.seek = true ∧ c.read = .moved recordSize

def Calls.Writes (c : Calls) : Prop := c.seekBack = true ∧ c.write = .moved recordSize

/-- What is asked of the state and of the first round of `do_put`. -/
structure Harmless (s : Session) (c : Calls) : Prop where
  /-- Where it does not come to the lock, no earlier one is left. -/
  before : s.hasWork = false ∨ s.Edited ∧ ¬c.Locks → ∀ r, s.locked r = false
  /-- Where it fails with the lock, that is given up, and no other is left. -/
  after : s.Edited → c.Locks → ¬c.Rereads ∨ s.onDisk = s.origRec ∧ ¬c.Writes →
    c.unlock = true ∧ ∀ r, r ≠ s.lastRecNo → s.locked r = false
  /-- A short write changes nothing. -/
  stored : s.Edited → c.Locks → c.Rereads → s.onDisk = s.origRec → s.lastRecNo < s.disk.length →
    ∀ n, c.seekBack = true → c.write = .moved n → n ≠ recordSize →
    overwrite n s.workRec s.onDisk = s.onDisk

theorem hasRecord_iff {s : Session} {rn : Int} :
    s.HasRecord rn ↔ ¬(rn < 0 ∨ s.disk.length ≤ rn.toNat) := by
  unfold Session.HasRecord
  omega

theorem fetch_invalid {s : Session} {number : Option Int}
    (h : ∀ rn, number = some rn → ¬s.HasRecord rn) (seek : Bool) (read : Transfer) :
    fetch s number seek read = (.invalidInput, s) := by
  cases number with
  | none => rfl
  | some rn =>
    have hnot := h rn rfl
    rw [hasRecord_iff, not_not] at hnot
    unfold fetch
    exact if_pos hnot

theorem fetch_failed {s : Session} {rn : Int} (h : s.HasRecord rn) {seek : Bool} {read : Transfer}
    (hfail : seek = false ∨ read = .failed) : fetch s (some rn) seek read = (.readError, s) := by
  unfold fetch
  refine (if_neg (hasRecord_iff.mp h)).trans ?_
  rcases hfail with rfl | rfl
  · exact if_pos rfl
  · exact ite_self _

theorem fetch_short {s : Session} {rn : Int} (h : s.HasRecord rn) {n : Nat} (hn : n ≠ recordSize) :
    fetch s (some rn) true (.moved n) =
      (.readError, { s with origRec := overwrite n (s.disk.getD rn.toNat .zero) s.origRec }) := by
  rw [fetch, if_neg (hasRecord_iff.mp h), if_neg (by decide)]
  exact if_neg hn

theorem fetch_whole {s : Session} {rn : Int} (h : s.HasRecord rn) :
    (fetch s (some rn) true (.moved recordSize)).1 = .fetched := by
  rw [fetch, if_neg (hasRecord_iff.mp h), if_neg (by decide)]
  exact congrArg Prod.fst (if_pos rfl)

theorem fetch_error_iff (s : Session) (number : Option Int) (seek : Bool) (read : Transfer) :
    ((fetch s number seek read).1 ≠ .fetched → (fetch s number seek read).2 = s) ↔
      ReadsSame s number seek read := by
  by_cases hnumber : ∃ rn, number = some rn ∧ s.HasRecord rn
  · obtain ⟨rn, rfl, hrn⟩ := hnumber
    by_cases hfail : seek = false ∨ read = .failed
    · rw [fetch_failed hrn hfail]
      refine iff_of_true (fun _ => rfl) ?_
      rintro rn' n - - hseek hread -
      rcases hfail with h | h
      · cases h.symm.trans hseek
      · cases h.symm.trans hread
    obtain ⟨hseek, hread⟩ := not_or.mp hfail
    obtain rfl : seek = true := by simpa using hseek
    cases read with
    | failed => exact absurd rfl hread
    | moved n =>
      by_cases hn : n = recordSize
      · subst hn
        refine iff_of_true (fun h => absurd (fetch_whole hrn) h) ?_
        rintro rn' n - - - hmoved hshort
        exact absurd (Transfer.moved.inj hmoved).symm hshort
      · rw [fetch_short hrn hn]
        have hne : GetEnd.readError ≠ .fetched := by decide
        constructor
        · intro h rn' n' hsame _ _ hmoved _
          obtain rfl := Option.some.inj hsame
          obtain rfl := Transfer.moved.inj hmoved
          exact congrArg Session.origRec (h hne)
        · intro h _
          rw [h rn n rfl hrn rfl rfl hn]
  · rw [fetch_invalid fun rn hsome hrn => hnumber ⟨rn, hsome, hrn⟩]
    refine iff_of_true (fun _ => rfl) ?_
    intro rn n hsome hrn
    exact absurd ⟨rn, hsome, hrn⟩ hnumber

/-- With the lock given up, the state is as before exactly if no other record is locked. -/
theorem untouched_unlock_iff (s s' : Session) (horig : s'.origRec = s.origRec)
    (hwork : s'.workRec = s.workRec) (hlast : s'.lastRecNo = s.lastRecNo)
    (hhas : s'.hasWork = s.hasWork) (hlocked : s'.locked = s.lockRec.locked) (unlock : Bool) :
    Untouched s (s'.unlockRec unlock) ↔ s'.disk = s.disk ∧
      unlock = true ∧ ∀ r, r ≠ s.lastRecNo → s.locked r = false := by
  cases unlock with
  | false =>
    refine iff_of_false (fun h => ?_) fun h => Bool.false_ne_true h.2.1
    have hheld := h.unlocked s.lastRecNo
    change s'.locked s.lastRecNo = false at hheld
    rw [hlocked] at hheld
    change Function.update s.locked s.lastRecNo true s.lastRecNo = false at hheld
    rw [Function.update_self] at hheld
    cases hheld
  | true =>
    have hlock : ∀ r,
        (s'.unlockRec true).locked r = if r = s.lastRecNo then false else s.locked r := by
      intro r
      show Function.update s'.locked s'.lastRecNo false r = _
      rw [hlast, hlocked, Session.lockRec, Function.update_idem, Function.update_apply]
    constructor
    · intro h
      refine ⟨h.disk, rfl, fun r hr => ?_⟩
      have hfree := h.unlocked r
      rwa [hlock, if_neg hr] at hfree
    · rintro ⟨hdisk, -, hother⟩
      refine ⟨horig, hwork, hlast, hhas, hdisk, fun r => ?_⟩
      rw [hlock]
      split_ifs with hr
      · rfl
      · exact hother r hr

theorem store_disk_iff (s : Session) (n : Nat) : (s.lockRec.store n).disk = s.disk ↔
    (s.lastRecNo < s.disk.length → overwrite n s.workRec s.onDisk = s.onDisk) := by
  show s.disk.set s.lastRecNo (overwrite n s.workRec s.onDisk) = s.disk ↔ _
  constructor
  · intro h hlen
    have hget := congrArg (fun disk : List Record => disk.getD s.lastRecNo .zero) h
    simp only [List.getD_eq_getElem?_getD, List.getElem?_set_self hlen, Option.getD_some] at hget
    rw [hget, Session.onDisk, List.getD_eq_getElem?_getD]
  · intro h
    by_cases hlen : s.lastRecNo < s.disk.length
    · rw [h hlen, Session.onDisk, List.getD_eq_getElem _ _ hlen]
      exact List.set_getElem_self hlen
    · exact List.set_eq_of_length_le (Nat.le_of_not_lt hlen)

theorem untouched_self_iff (s : Session) : Untouched s s ↔ ∀ r, s.locked r = false :=
  ⟨Untouched.unlocked, fun h => ⟨rfl, rfl, rfl, rfl, rfl, h⟩⟩

section

variable {s : Session} {c : Calls}

theorem putRound_unlocked (h : ¬c.Locks) :
    ∃ last, (last ≠ .updated ∧ last ≠ .noChanges) ∧ putRound s c = .ended last s := by
  by_cases hquery : c.query = true
  · have hlock : c.lock = false := by simpa using fun hl => h ⟨hquery, hl⟩
    refine ⟨.lockError, by decide, ?_⟩
    rw [putRound, if_neg (by simp [hquery]), if_pos hlock]
  · rw [Bool.not_eq_true] at hquery
    refine ⟨.queryError, by decide, ?_⟩
    rw [putRound, if_pos hquery]

theorem putRound_rereadError (hlocks : c.Locks) (h : ¬c.Rereads) :
    putRound s c = .ended .rereadError (s.lockRec.unlockRec c.unlock) := by
  have hfail : c.seek = false ∨ c.read ≠ .moved recordSize := by
    by_cases hseek : c.seek = true
    · exact .inr fun hread => h ⟨hseek, hread⟩
    · exact .inl (by simpa using hseek)
  rw [putRound, if_neg (by simp [hlocks.1]), if_neg (by simp [hlocks.2])]
  exact if_pos hfail

theorem putRound_again (hlocks : c.Locks) (h : c.Rereads) (hconflict : s.onDisk ≠ s.origRec) :
    ∃ s', putRound s c = .again s' := by
  have hread : ¬(c.seek = false ∨ c.read ≠ .moved recordSize) := by
    rintro (hseek | hread)
    · cases hseek.symm.trans h.1
    · exact hread h.2
  rw [putRound, if_neg (by simp [hlocks.1]), if_neg (by simp [hlocks.2])]
  exact ⟨_, (if_neg hread).trans (if_pos hconflict)⟩

/-- With the record read again and no conflict, it depends on the write. -/
theorem putRound_reread (hlocks : c.Locks) (h : c.Rereads) (hsame : s.onDisk = s.origRec) :
    ((c.seekBack = false ∨ c.write = .failed) →
      putRound s c = .ended .writeError (s.lockRec.unlockRec c.unlock)) ∧
    (∀ n, c.seekBack = true → c.write = .moved n → n ≠ recordSize →
      putRound s c = .ended .writeError ((s.lockRec.store n).unlockRec c.unlock)) ∧
    (c.Writes → ∃ s', putRound s c = .ended .updated s') := by
  have hread : ¬(c.seek = false ∨ c.read ≠ .moved recordSize) := by
    rintro (hseek | hread)
    · cases hseek.symm.trans h.1
    · exact hread h.2
  have hround : putRound s c =
      if c.seekBack = false then .ended .writeError (s.lockRec.unlockRec c.unlock)
      else
        match c.write with
        | .failed => .ended .writeError (s.lockRec.unlockRec c.unlock)
        | .moved n =>
          if n = recordSize then
            .ended .updated { (s.lockRec.store n).unlockRec c.unlock with hasWork := false }
          else .ended .writeError ((s.lockRec.store n).unlockRec c.unlock) := by
    rw [putRound, if_neg (by simp [hlocks.1]), if_neg (by simp [hlocks.2])]
    exact (if_neg hread).trans (if_neg (not_not.mpr hsame))
  rw [hround]
  refine ⟨?_, ?_, ?_⟩
  · rintro (hseek | hwrite)
    · rw [if_pos hseek]
    · rw [hwrite]
      exact ite_self _
  · intro n hseek hwrite hn
    rw [hseek, if_neg (by decide), hwrite]
    exact if_neg hn
  · rintro ⟨hseek, hwrite⟩
    rw [hseek, if_neg (by decide), hwrite]
    exact ⟨_, if_pos rfl⟩

theorem ends_untouched_iff {last : PutEnd} {t : Session} (h : last ≠ .updated ∧ last ≠ .noChanges) :
    (∀ last' s', some (last, false, t) = some (last', false, s') → last' ≠ .updated →
      last' ≠ .noChanges → Untouched s s') ↔ Untouched s t := by
  constructor
  · intro hall
    exact hall last t rfl h.1 h.2
  · rintro hu last' s' heq - -
    obtain ⟨-, -, rfl⟩ := heq
    exact hu

end

theorem putLoop_conflict {cs : List Calls} {s s' : Session} {last : PutEnd} {conflict : Bool}
    (h : putLoop true cs s = some (last, conflict, s')) : conflict = true := by
  induction cs generalizing s with
  | nil => cases h
  | cons c cs ih =>
    rw [putLoop] at h
    split at h
    · exact ih h
    · cases h
      rfl

theorem doPut_failed_iff (s : Session) (c : Calls) (cs : List Calls) :
    (∀ last s', doPut (c :: cs) s = some (last, false, s') → last ≠ .updated → last ≠ .noChanges →
      Untouched s s') ↔ Harmless s c := by
  by_cases hwork : s.hasWork = true
  swap
  · rw [Bool.not_eq_true] at hwork
    have hedited : ¬s.Edited := fun h => by cases hwork.symm.trans h.1
    rw [doPut, if_pos hwork, ends_untouched_iff (by decide), untouched_self_iff]
    exact ⟨fun h => ⟨fun _ => h, fun he => absurd he hedited, fun he => absurd he hedited⟩,
      fun h => h.before (.inl hwork)⟩
  by_cases hsame : s.origRec = s.workRec
  · have hedited : ¬s.Edited := fun h => h.2 hsame
    rw [doPut, if_neg (by simp [hwork]), if_pos hsame]
    refine iff_of_true ?_ ⟨?_, fun he => absurd he hedited, fun he => absurd he hedited⟩
    · rintro last s' heq - hlast
      obtain ⟨rfl, -, -⟩ := heq
      exact absurd rfl hlast
    · rintro (h | h)
      · cases h.symm.trans hwork
      · exact absurd h.1 hedited
  have hedited : s.Edited := ⟨hwork, hsame⟩
  have hbefore : ∀ {P : Prop}, c.Locks → s.hasWork = false ∨ s.Edited ∧ ¬c.Locks → P := by
    rintro P hlocks (h | h)
    · cases h.symm.trans hwork
    · exact absurd hlocks h.2
  rw [doPut, if_neg (by simp [hwork]), if_neg hsame, putLoop]
  by_cases hlocks : c.Locks
  swap
  · obtain ⟨last, hlast, hround⟩ := putRound_unlocked (s := s) hlocks
    rw [hround]
    dsimp only
    rw [ends_untouched_iff hlast, untouched_self_iff]
    exact ⟨fun h => ⟨fun _ => h, fun _ hl => absurd hl hlocks, fun _ hl => absurd hl hlocks⟩,
      fun h => h.before (.inr ⟨hedited, hlocks⟩)⟩
  by_cases hrereads : c.Rereads
  swap
  · rw [putRound_rereadError hlocks hrereads]
    dsimp only
    rw [ends_untouched_iff (by decide), untouched_unlock_iff s s.lockRec rfl rfl rfl rfl rfl]
    constructor
    · rintro ⟨-, hfree⟩
      exact ⟨hbefore hlocks, fun _ _ _ => hfree, fun _ _ hr => absurd hr hrereads⟩
    · intro h
      exact ⟨rfl, h.after hedited hlocks (.inl hrereads)⟩
  by_cases hconflict : s.onDisk = s.origRec
  swap
  · obtain ⟨s', hround⟩ := putRound_again hlocks hrereads hconflict
    rw [hround]
    refine iff_of_true ?_ ⟨hbefore hlocks, ?_, fun _ _ _ h => absurd h hconflict⟩
    · intro last s' heq
      cases putLoop_conflict heq
    · rintro - - (h | h)
      · exact absurd hrereads h
      · exact absurd h.1 hconflict
  obtain ⟨hfailed, hshort, hwrites⟩ := putRound_reread hlocks hrereads hconflict
  by_cases hwrite : c.Writes
  · obtain ⟨s', hround⟩ := hwrites hwrite
    rw [hround]
    refine iff_of_true ?_ ⟨hbefore hlocks, ?_, ?_⟩
    · rintro last s'' heq hlast -
      obtain ⟨rfl, -, -⟩ := heq
      exact absurd rfl hlast
    · rintro - - (h | h)
      · exact absurd hrereads h
      · exact absurd hwrite h.2
    · rintro - - - - - n - hmoved hn
      exact absurd (Transfer.moved.inj (hmoved.symm.trans hwrite.2)) hn
  by_cases hnone : c.seekBack = false ∨ c.write = .failed
  · rw [hfailed hnone]
    dsimp only
    rw [ends_untouched_iff (by decide), untouched_unlock_iff s s.lockRec rfl rfl rfl rfl rfl]
    constructor
    · rintro ⟨-, hfree⟩
      refine ⟨hbefore hlocks, fun _ _ _ => hfree, ?_⟩
      rintro - - - - - n hseek hmoved -
      rcases hnone with h | h
      · cases h.symm.trans hseek
      · cases h.symm.trans hmoved
    · intro h
      exact ⟨rfl, h.after hedited hlocks (.inr ⟨hconflict, hwrite⟩)⟩
  · -- a short write
    obtain ⟨hseek, hmove⟩ := not_or.mp hnone
    rw [Bool.not_eq_false] at hseek
    obtain ⟨n, hmoved⟩ : ∃ n, c.write = .moved n := by
      cases hcase : c.write with
      | failed => exact absurd hcase hmove
      | moved n => exact ⟨n, rfl⟩
    have hn : n ≠ recordSize := fun hn => hwrite ⟨hseek, hn ▸ hmoved⟩
    rw [hshort n hseek hmoved hn]
    dsimp only
    rw [ends_untouched_iff (by decide),
      untouched_unlock_iff s (s.lockRec.store n) rfl rfl rfl rfl rfl, store_disk_iff]
    constructor
    · rintro ⟨hstored, hfree⟩
      refine ⟨hbefore hlocks, fun _ _ _ => hfree, ?_⟩
      rintro - - - - hlen n' - hmoved' -
      obtain rfl := Transfer.moved.inj (hmoved.symm.trans hmoved')
      exact hstored hlen
    · intro h
      exact ⟨fun hlen => h.stored hedited hlocks hrereads hconflict hlen n hseek hmoved hn,
        h.after hedited hlocks (.inr ⟨hconflict, hwrite⟩)⟩

/-- A failing `G` or `P` leaves the edit and the file as they were exactly if a short read brings
nothing new, a short write stores nothing new, and no lock is left. -/
theorem failed_command_iff (s : Session) :
    (∀ number seek read, ((fetch s number seek read).1 ≠ .fetched →
      (fetch s number seek read).2 = s) ↔ ReadsSame s number seek read) ∧
    ∀ c cs, (∀ last s', doPut (c :: cs) s = some (last, false, s') → last ≠ .updated →
      last ≠ .noChanges → Untouched s s') ↔ Harmless s c :=
  ⟨fetch_error_iff s, doPut_failed_iff s⟩

/-- A read that stops behind the name leaves another name in `orig_rec`. -/
theorem short_read_changes :
    ¬∀ s : Session,
      (∀ number seek read, (fetch s number seek read).1 ≠ .fetched →
        (fetch s number seek read).2 = s) ∧
      ∀ c cs last s', doPut (c :: cs) s = some (last, false, s') → last ≠ .updated →
        last ≠ .noChanges → Untouched s s' := by
  intro h
  let rec1 : Record := ⟨Vector.replicate nameLen 65, Vector.replicate addrLen 66, 1⟩
  let s : Session := ⟨.zero, .zero, 0, false, [rec1], fun _ => false⟩
  have hreads := (fetch_error_iff s (some 0) true (.moved 80)).mp ((h s).1 _ _ _)
  have hsame := hreads 0 80 rfl ⟨by decide, by decide⟩ rfl rfl (by decide)
  have hname := congrArg (fun r : Record => r.name[0]) hsame
  unfold overwrite at hname
  simp only [Vector.getElem_ofFn] at hname
  exact absurd hname (by decide)

end Osisp.Lab7
