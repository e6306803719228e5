import Osisp.Lib.Mutex
import Osisp.Lib.Schedule
import Osisp.Lib.Tally

namespace Osisp.Lib.WorkPool

/-- Where a worker stands. `job` is what it has in hand. -/
inductive Pc (α : Type*) where
  | arriveStart
  | awaitStart
  | lock
  | take
  | bump (job : Nat)
  | unlock (job : Option Nat)
  | compute (job : Nat)
  | store (job : Nat) (v : α)
  | arriveEnd
  | awaitEnd
  | done

/-- `more next` is the test on the counter, `stride` what a job adds to it. -/
structure Pool (δ α : Type*) where
  more : Nat → Bool
  stride : Nat
  compute : Nat → δ → α
  store : Nat → α → δ → δ

structure State (δ α : Type*) where
  next : Nat
  holder : Option Nat
  workers : List (Pc α)
  data : δ

variable {δ α : Type*}

/-- The worker has not come to the first barrier yet. -/
def Pc.beforeStart : Pc α → Bool
  | .arriveStart => true
  | _ => false

/-- The worker has come to the last barrier. -/
def Pc.ending : Pc α → Bool
  | .awaitEnd => true
  | .done => true
  | _ => false

def Pc.finished : Pc α → Bool
  | .done => true
  | _ => false

def State.goto (s : State δ α) (w : Nat) (p : Pc α) : State δ α :=
  { s with workers := s.workers.set w p }

/-- Worker `w` goes on. A barrier opens when every worker has come to it. -/
def Pool.step (P : Pool δ α) (s : State δ α) (w : Nat) : Option (State δ α) :=
  match s.workers[w]? with
  | none => none
  | some .arriveStart => some (s.goto w .awaitStart)
  | some .awaitStart => if s.workers.any Pc.beforeStart then none else some (s.goto w .lock)
  | some .lock =>
    match s.holder with
    | none => some { s.goto w .take with holder := some w }
    | some _ => none
  | some .take =>
    if P.more s.next then some (s.goto w (.bump s.next)) else some (s.goto w (.unlock none))
  | some (.bump j) => some { s.goto w (.unlock (some j)) with next := s.next + P.stride }
  | some (.unlock none) => some { s.goto w .arriveEnd with holder := none }
  | some (.unlock (some j)) => some { s.goto w (.compute j) with holder := none }
  | some (.compute j) => some (s.goto w (.store j (P.compute j s.data)))
  | some (.store j v) => some { s.goto w .lock with data := P.store j v s.data }
  | some .arriveEnd => some (s.goto w .awaitEnd)
  | some .awaitEnd => if s.workers.all Pc.ending then some (s.goto w .done) else none
  | some .done => none

/-- `threads` workers that begin at `entry`. -/
def start (entry : Pc α) (threads : Nat) (data : δ) : State δ α :=
  ⟨0, none, List.replicate threads entry, data⟩

def Pool.system (P : Pool δ α) (entry : Pc α) (threads : Nat) (data : δ) :
    System (State δ α) Nat where
  init := start entry threads data
  step := P.step

/-- The data after all the workers were joined, `none` where one of them never ends. -/
def Pool.join (P : Pool δ α) (entry : Pc α) (threads fuel : Nat) (choose : Nat → Nat) (data : δ) :
    Option δ :=
  let s := (P.system entry threads data).drive threads choose fuel (start entry threads data)
  if s.workers.all Pc.finished then some s.data else none

theorem Pool.join_none (P : Pool δ α) (entry : Pc α) (fuel : Nat) (choose : Nat → Nat) (data : δ) :
    P.join entry 0 fuel choose data = some data := by
  have hstay : (P.system entry 0 data).drive 0 choose fuel (start entry 0 data) =
      start entry 0 data := by
    cases fuel with
    | zero => rfl
    | succ fuel => rfl
  rw [Pool.join, hstay]
  rfl

/-- The steps from `p` to `q` that leave the counter and the data alone; the mutex goes to
`holder`. -/
inductive Pool.Plain (P : Pool δ α) (s : State δ α) (w : Nat) : Pc α → Pc α → Option Nat → Prop
  | arriveStart : Plain P s w .arriveStart .awaitStart s.holder
  | awaitStart : Plain P s w .awaitStart .lock s.holder
  | lock (hfree : s.holder = none) : Plain P s w .lock .take (some w)
  | takeJob (hmore : P.more s.next = true) : Plain P s w .take (.bump s.next) s.holder
  | takeNone (hmore : ¬P.more s.next = true) : Plain P s w .take (.unlock none) s.holder
  | unlockNone : Plain P s w (.unlock none) .arriveEnd none
  | unlockJob (j : Nat) : Plain P s w (.unlock (some j)) (.compute j) none
  | compute (j : Nat) : Plain P s w (.compute j) (.store j (P.compute j s.data)) s.holder
  | arriveEnd : Plain P s w .arriveEnd .awaitEnd s.holder
  | awaitEnd : Plain P s w .awaitEnd .done s.holder

/-- What a step is: a plain one, the increment of the counter, or the writing of a cell. -/
inductive Pool.Move (P : Pool δ α) (s : State δ α) (w : Nat) : State δ α → Prop
  | plain (p q : Pc α) (holder : Option Nat) (hw : s.workers[w]? = some p)
      (hpq : P.Plain s w p q holder) : Move P s w { s.goto w q with holder := holder }
  | bump (j : Nat) (hw : s.workers[w]? = some (.bump j)) :
      Move P s w { s.goto w (.unlock (some j)) with next := s.next + P.stride }
  | store (j : Nat) (v : α) (hw : s.workers[w]? = some (.store j v)) :
      Move P s w { s.goto w .lock with data := P.store j v s.data }

theorem Pool.step_move {P : Pool δ α} {s t : State δ α} {w : Nat} (h : P.step s w = some t) :
    P.Move s w t := by
  unfold Pool.step at h
  cases hw : s.workers[w]? with
  | none => simp [hw] at h
  | some p =>
    simp only [hw] at h
    cases p with
    | arriveStart =>
      obtain rfl := Option.some.inj h
      exact .plain _ _ _ hw .arriveStart
    | awaitStart =>
      simp only [Option.ite_none_left_eq_some] at h
      obtain rfl := Option.some.inj h.2
      exact .plain _ _ _ hw .awaitStart
    | lock =>
      cases hh : s.holder with
      | some u => simp [hh] at h
      | none =>
        simp only [hh] at h
        obtain rfl := Option.some.inj h
        exact .plain _ _ _ hw (.lock hh)
    | take =>
      simp only at h
      split at h
      · rename_i hmore
        obtain rfl := Option.some.inj h
        exact .plain _ _ _ hw (.takeJob hmore)
      · rename_i hmore
        obtain rfl := Option.some.inj h
        exact .plain _ _ _ hw (.takeNone hmore)
    | bump j =>
      obtain rfl := Option.some.inj h
      exact .bump j hw
    | unlock j =>
      cases j with
      | none =>
        obtain rfl := Option.some.inj h
        exact .plain _ _ _ hw .unlockNone
      | some j =>
        obtain rfl := Option.some.inj h
        exact .plain _ _ _ hw (.unlockJob j)
    | compute j =>
      obtain rfl := Option.some.inj h
      exact .plain _ _ _ hw (.compute j)
    | store j v =>
      obtain rfl := Option.some.inj h
      exact .store j v hw
    | arriveEnd =>
      obtain rfl := Option.some.inj h
      exact .plain _ _ _ hw .arriveEnd
    | awaitEnd =>
      simp only [Option.ite_none_right_eq_some] at h
      obtain rfl := Option.some.inj h.2
      exact .plain _ _ _ hw .awaitEnd
    | done => cases h

theorem Pool.step_workers {P : Pool δ α} {s t : State δ α} {w : Nat} (h : P.step s w = some t) :
    ∃ q, t.workers = s.workers.set w q := by
  cases Pool.step_move h with
  | plain p q holder hw hpq => exact ⟨q, rfl⟩
  | bump j hw => exact ⟨.unlock (some j), rfl⟩
  | store j v hw => exact ⟨.lock, rfl⟩

/-- The job the worker has taken and not yet written back. -/
def Pc.job : Pc α → Option Nat
  | .unlock j => j
  | .compute j => some j
  | .store j _ => some j
  | _ => none

/-- The worker holds the mutex. -/
def Pc.inside : Pc α → Bool
  | .take => true
  | .bump _ => true
  | .unlock _ => true
  | _ => false

/-- How many steps the worker can still make without a new job. -/
def Pc.rank : Pc α → Nat
  | .arriveStart => 7
  | .awaitStart => 6
  | .lock => 5
  | .take => 4
  | .bump _ => 3
  | .unlock none => 3
  | .unlock (some _) => 8
  | .compute _ => 7
  | .store _ _ => 6
  | .arriveEnd => 2
  | .awaitEnd => 1
  | .done => 0

/-- The pool's jobs, on data that represent a list of cells, replace each cell `x` by `f x`. -/
structure Pool.Maps (P : Pool δ α) (Rep : δ → List α → Prop) (f : α → α) (cells : List α) :
    Prop where
  stride_pos : 0 < P.stride
  more_iff : ∀ i : Nat, i ≤ cells.length → (P.more (P.stride * i) = true ↔ i < cells.length)
  compute_eq : ∀ (d : δ) (cur : List α) (i : Nat) (x : α), Rep d cur → cur[i]? = some x →
    P.compute (P.stride * i) d = f x
  store_rep : ∀ (d : δ) (cur : List α) (i : Nat) (x : α), Rep d cur → cur[i]? = some x →
    Rep (P.store (P.stride * i) (f x) d) (cur.set i (f x))

section Invariant

variable (P : Pool δ α) (Rep : δ → List α → Prop) (f : α → α) (cells : List α)

/-- What is known of a worker's job when `k` jobs were given out and the cells are `cur`. -/
def Pc.Fine (k : Nat) (cur : List α) : Pc α → Prop
  | .bump j => j = P.stride * k ∧ k < cells.length
  | .unlock none | .arriveEnd | .awaitEnd | .done => k = cells.length
  | .unlock (some j) | .compute j =>
    ∃ i x, i < k ∧ j = P.stride * i ∧ cells[i]? = some x ∧ cur[i]? = some x
  | .store j v => ∃ i x, i < k ∧ j = P.stride * i ∧ cells[i]? = some x ∧ cur[i]? = some x ∧ v = f x
  | .arriveStart | .awaitStart | .lock | .take => True

def Pc.claims (j : Nat) (p : Pc α) : Nat := if p.job = some j then 1 else 0

structure Inv (s : State δ α) (k : Nat) (cur : List α) : Prop where
  next_eq : s.next = P.stride * k
  bound : k ≤ cells.length
  length_eq : cur.length = cells.length
  rep : Rep s.data cur
  guards : Guards s.holder (fun w => At s.workers w (fun p => p.inside = true))
  fine : ∀ (w : Nat) (p : Pc α), s.workers[w]? = some p → p.Fine P f cells k cur
  /-- No job is in two hands. -/
  unique : ∀ j, tally (Pc.claims j) s.workers ≤ 1
  untouched : ∀ i, k ≤ i → cur[i]? = cells[i]?
  /-- A job that was given out and is in nobody's hands is finished. -/
  finished : ∀ i, i < k → tally (Pc.claims (P.stride * i)) s.workers = 0 →
    cur[i]? = cells[i]?.map f

variable {P Rep f cells}

theorem Pc.claims_of_job {p : Pc α} {j : Nat} (h : p.job = some j) : p.claims j = 1 := if_pos h

theorem guards_set {holder holder' : Option Nat} {workers : List (Pc α)} {w : Nat} {p q : Pc α}
    (hw : workers[w]? = some p) (hm : MutexMove w holder holder' p.inside q.inside)
    (hg : Guards holder (fun w => At workers w (fun p => p.inside = true))) :
    Guards holder' (fun u => At (workers.set w q) u (fun p => p.inside = true)) :=
  hm.guards hg (at_of_getElem? hw _) (at_set_self hw q _)
    (fun _ hu => at_set_of_ne (Ne.symm hu) _ _ _)

/-- A step that keeps the counter, the data and the job in hand keeps the invariant. -/
theorem Inv.move {s : State δ α} {k : Nat} {cur : List α} (hi : Inv P Rep f cells s k cur)
    {w : Nat} {p q : Pc α} (hw : s.workers[w]? = some p) (holder' : Option Nat)
    (hm : MutexMove w s.holder holder' p.inside q.inside) (hjob : q.job = p.job)
    (hq : q.Fine P f cells k cur) :
    Inv P Rep f cells { s.goto w q with holder := holder' } k cur := by
  have htally : ∀ j, tally (Pc.claims j) (s.workers.set w q) = tally (Pc.claims j) s.workers := by
    intro j
    have hset := tally_set (Pc.claims j) hw q
    have hsame : q.claims j = p.claims j := by rw [Pc.claims, Pc.claims, hjob]
    omega
  constructor
  · exact hi.next_eq
  · exact hi.bound
  · exact hi.length_eq
  · exact hi.rep
  · exact guards_set hw hm hi.guards
  · intro u r hu
    obtain ⟨-, rfl⟩ | ⟨-, hr⟩ := entry_of_set hu
    · exact hq
    · exact hi.fine u r hr
  · intro j
    exact (htally j).trans_le (hi.unique j)
  · exact hi.untouched
  · intro i hik hzero
    exact hi.finished i hik ((htally _).symm.trans hzero)

theorem Pc.Fine.succ {k : Nat} {cur : List α} {p : Pc α} (hp : p.Fine P f cells k cur)
    (hk : k < cells.length) (hout : p.inside = false) : p.Fine P f cells (k + 1) cur := by
  cases p with
  | take | bump | unlock => cases hout
  | arriveStart | awaitStart | lock => trivial
  | arriveEnd | awaitEnd | done => exact absurd hp (Nat.ne_of_lt hk)
  | compute j =>
    obtain ⟨i, x, hik, h⟩ := hp
    exact ⟨i, x, Nat.lt_succ_of_lt hik, h⟩
  | store j v =>
    obtain ⟨i, x, hik, h⟩ := hp
    exact ⟨i, x, Nat.lt_succ_of_lt hik, h⟩

/-- Writing one cell concerns no worker whose job is another one. -/
theorem Pc.Fine.set {k i : Nat} {cur : List α} {p : Pc α} (hp : p.Fine P f cells k cur)
    (hjob : p.job ≠ some (P.stride * i)) (y : α) : p.Fine P f cells k (cur.set i y) := by
  have hother : ∀ {u : Nat} {x : α}, p.job = some (P.stride * u) → cur[u]? = some x →
      (cur.set i y)[u]? = some x := by
    intro u x hu hx
    have hne : i ≠ u := fun h => hjob (by rw [hu, h])
    rw [List.getElem?_set_ne hne, hx]
  cases p with
  | arriveStart | awaitStart | lock | take => trivial
  | bump j => exact hp
  | arriveEnd | awaitEnd | done => exact hp
  | unlock j =>
    cases j with
    | none => exact hp
    | some j =>
      obtain ⟨u, x, huk, rfl, hcell, hcur⟩ := hp
      exact ⟨u, x, huk, rfl, hcell, hother rfl hcur⟩
  | compute j =>
    obtain ⟨u, x, huk, rfl, hcell, hcur⟩ := hp
    exact ⟨u, x, huk, rfl, hcell, hother rfl hcur⟩
  | store j v =>
    obtain ⟨u, x, huk, rfl, hcell, hcur, hv⟩ := hp
    exact ⟨u, x, huk, rfl, hcell, hother rfl hcur, hv⟩

theorem Inv.bump {s : State δ α} {k : Nat} {cur : List α} (hP : P.Maps Rep f cells)
    (hi : Inv P Rep f cells s k cur) {w j : Nat} (hw : s.workers[w]? = some (.bump j)) :
    Inv P Rep f cells { s.goto w (.unlock (some j)) with next := s.next + P.stride } (k + 1)
      cur := by
  obtain ⟨rfl, hk⟩ := hi.fine w _ hw
  have hcell := List.getElem?_eq_getElem hk
  -- nobody else is inside the mutex
  have hout : ∀ (u : Nat) (p : Pc α), u ≠ w → s.workers[u]? = some p → p.inside = false := by
    intro u p hne hu
    by_contra hin
    exact hne (hi.guards.unique (p := u) (q := w) ⟨p, hu, by simpa using hin⟩ ⟨_, hw, rfl⟩)
  -- the job is in no hand yet
  have hfresh : tally (Pc.claims (P.stride * k)) s.workers = 0 := by
    apply tally_eq_zero
    intro p hp
    obtain ⟨u, hu⟩ := List.getElem?_of_mem hp
    rw [Pc.claims, if_neg]
    intro hjob
    have hf := hi.fine u p hu
    have hless : ∃ i x, i < k ∧ P.stride * k = P.stride * i ∧ cells[i]? = some x ∧
        cur[i]? = some x := by
      cases p with
      | unlock j' =>
        obtain rfl : j' = some (P.stride * k) := hjob
        exact hf
      | compute j' =>
        obtain rfl : j' = P.stride * k := Option.some.inj hjob
        exact hf
      | store j' v =>
        obtain rfl : j' = P.stride * k := Option.some.inj hjob
        obtain ⟨i, x, hik, heq, hc, hx, -⟩ := hf
        exact ⟨i, x, hik, heq, hc, hx⟩
      | _ => cases hjob
    obtain ⟨i, x, hik, heq, -⟩ := hless
    exact absurd (Nat.eq_of_mul_eq_mul_left hP.stride_pos heq) (Nat.ne_of_gt hik)
  have htally : ∀ j, tally (Pc.claims j) (s.workers.set w (.unlock (some (P.stride * k)))) =
      tally (Pc.claims j) s.workers + if P.stride * k = j then 1 else 0 := by
    intro j
    have hset := tally_set (Pc.claims j) hw (.unlock (some (P.stride * k)))
    simp only [Pc.claims, Pc.job, Option.some.injEq, reduceCtorEq, if_false, Nat.add_zero] at hset
    exact hset
  constructor
  · change s.next + P.stride = P.stride * (k + 1)
    rw [hi.next_eq, Nat.mul_succ]
  · exact hk
  · exact hi.length_eq
  · exact hi.rep
  · exact guards_set hw (.inl ⟨rfl, rfl⟩) hi.guards
  · intro u p hu
    obtain ⟨-, rfl⟩ | ⟨hne, hp⟩ := entry_of_set hu
    · exact ⟨k, _, Nat.lt_succ_self k, rfl, hcell, (hi.untouched k (Nat.le_refl k)).trans hcell⟩
    · exact (hi.fine u p hp).succ hk (hout u p hne hp)
  · intro j
    apply (htally j).trans_le
    by_cases hj : P.stride * k = j
    · subst hj
      exact Nat.le_of_eq (by rw [if_pos rfl, hfresh])
    · rw [if_neg hj]
      exact hi.unique j
  · intro i hki
    exact hi.untouched i (by omega)
  · intro i hik hzero
    rw [State.goto, htally] at hzero
    have hne : i ≠ k := by
      rintro rfl
      rw [if_pos rfl] at hzero
      omega
    exact hi.finished i (by omega) (by omega)

theorem Inv.store {s : State δ α} {k : Nat} {cur : List α} (hP : P.Maps Rep f cells)
    (hi : Inv P Rep f cells s k cur) {w j : Nat} {v : α}
    (hw : s.workers[w]? = some (.store j v)) :
    ∃ cur', Inv P Rep f cells { s.goto w .lock with data := P.store j v s.data } k cur' := by
  obtain ⟨i, x, hik, rfl, hcell, hcur, rfl⟩ := hi.fine w _ hw
  have hlt : i < cur.length := (List.getElem?_eq_some_iff.mp hcur).1
  have htally : ∀ j, tally (Pc.claims j) (s.workers.set w .lock) +
      (if P.stride * i = j then 1 else 0) = tally (Pc.claims j) s.workers := by
    intro j
    have hset := tally_set (Pc.claims j) hw .lock
    simp only [Pc.claims, Pc.job, Option.some.injEq, reduceCtorEq, if_false, Nat.add_zero] at hset
    exact hset
  refine ⟨cur.set i (f x), ?_⟩
  constructor
  · exact hi.next_eq
  · exact hi.bound
  · rw [List.length_set, hi.length_eq]
  · exact hP.store_rep _ _ _ _ hi.rep hcur
  · exact guards_set hw (.inl ⟨rfl, rfl⟩) hi.guards
  · intro u p hu
    obtain ⟨-, rfl⟩ | ⟨hne, hp⟩ := entry_of_set hu
    · trivial
    · -- a second worker with this job would make two of them
      refine (hi.fine u p hp).set (fun hjob => ?_) _
      have htwo := add_le_tally (Pc.claims (P.stride * i)) hne hp hw
      rw [Pc.claims_of_job hjob, Pc.claims_of_job rfl] at htwo
      have hone := hi.unique (P.stride * i)
      omega
  · intro j
    have h := htally j
    have hone := hi.unique j
    change tally (Pc.claims j) (s.workers.set w .lock) ≤ 1
    omega
  · intro u hku
    rw [List.getElem?_set_ne (by omega)]
    exact hi.untouched u hku
  · intro u huk hzero
    have h := htally (P.stride * u)
    change tally (Pc.claims (P.stride * u)) (s.workers.set w .lock) = 0 at hzero
    by_cases hu : i = u
    · subst hu
      rw [List.getElem?_set_self hlt, hcell]
      rfl
    · have hjob : P.stride * i ≠ P.stride * u := fun heq =>
        hu (Nat.eq_of_mul_eq_mul_left hP.stride_pos heq)
      rw [if_neg hjob] at h
      rw [List.getElem?_set_ne hu]
      exact hi.finished u huk (by omega)

theorem Pool.Plain.job_eq {s : State δ α} {w : Nat} {p q : Pc α} {holder : Option Nat}
    (h : P.Plain s w p q holder) : q.job = p.job := by
  cases h <;> rfl

theorem Pool.Plain.mutex {s : State δ α} {w : Nat} {p q : Pc α} {holder : Option Nat}
    (h : P.Plain s w p q holder) : MutexMove w s.holder holder p.inside q.inside := by
  cases h with
  | lock hfree => exact .inr (.inl ⟨hfree, rfl, rfl, rfl⟩)
  | unlockNone | unlockJob => exact .inr (.inr ⟨rfl, rfl, rfl⟩)
  | arriveStart | awaitStart | takeJob | takeNone | compute | arriveEnd | awaitEnd =>
    exact .inl ⟨rfl, rfl⟩

theorem Inv.plain_fine {s : State δ α} {k : Nat} {cur : List α} (hP : P.Maps Rep f cells)
    (hi : Inv P Rep f cells s k cur) {w : Nat} {p q : Pc α} {holder : Option Nat}
    (hw : s.workers[w]? = some p) (h : P.Plain s w p q holder) : q.Fine P f cells k cur := by
  have hfine := hi.fine w p hw
  have hmore := hP.more_iff k hi.bound
  rw [← hi.next_eq] at hmore
  cases h with
  | arriveStart | awaitStart | lock => trivial
  | takeJob hyes => exact ⟨hi.next_eq, hmore.mp hyes⟩
  | takeNone hno =>
    have hbound := hi.bound
    have hnot : ¬k < cells.length := fun hlt => hno (hmore.mpr hlt)
    show k = cells.length
    omega
  | unlockNone | unlockJob | arriveEnd | awaitEnd => exact hfine
  | compute j =>
    obtain ⟨i, x, hik, rfl, hcell, hcur⟩ := hfine
    exact ⟨i, x, hik, rfl, hcell, hcur, hP.compute_eq s.data cur i x hi.rep hcur⟩

theorem Inv.step {s t : State δ α} {k : Nat} {cur : List α} (hP : P.Maps Rep f cells)
    (hi : Inv P Rep f cells s k cur) {w : Nat} (h : P.step s w = some t) :
    ∃ k' cur', Inv P Rep f cells t k' cur' := by
  cases Pool.step_move h with
  | plain p q holder hw hpq =>
    exact ⟨k, cur, hi.move hw holder hpq.mutex hpq.job_eq (hi.plain_fine hP hw hpq)⟩
  | bump j hw => exact ⟨k + 1, cur, hi.bump hP hw⟩
  | store j v hw => exact ⟨k, hi.store hP hw⟩

/-- How many more steps the pool can make at most. -/
def Pool.measure (P : Pool δ α) (jobs : Nat) (s : State δ α) : Nat :=
  6 * (P.stride * jobs - s.next) + tally Pc.rank s.workers

theorem Inv.measure_lt {s t : State δ α} {k : Nat} {cur : List α} (hP : P.Maps Rep f cells)
    (hi : Inv P Rep f cells s k cur) {w : Nat} (h : P.step s w = some t) :
    P.measure cells.length t < P.measure cells.length s := by
  cases Pool.step_move h with
  | plain p q holder hw hpq =>
    have hset := tally_set Pc.rank hw q
    have hlower : q.rank < p.rank := by cases hpq <;> simp [Pc.rank]
    simp only [Pool.measure, State.goto]
    omega
  | bump j hw =>
    -- a job is worth six steps
    obtain ⟨-, hk⟩ := hi.fine w _ hw
    have hset := tally_set Pc.rank hw (.unlock (some j))
    have hroom : P.stride * (k + 1) ≤ P.stride * cells.length := Nat.mul_le_mul_left _ hk
    have hpos := hP.stride_pos
    have hnext := hi.next_eq
    rw [Nat.mul_succ] at hroom
    simp only [Pc.rank] at hset
    simp only [Pool.measure, State.goto]
    omega
  | store j v hw =>
    have hset := tally_set Pc.rank hw .lock
    simp only [Pc.rank] at hset
    simp only [Pool.measure, State.goto]
    omega

/-- A worker that cannot go on waits for another one, or is at its end. -/
theorem Pool.blocked {s : State δ α} {w : Nat} {p : Pc α} (hw : s.workers[w]? = some p)
    (h : P.step s w = none) :
    (p = .awaitStart ∧ s.workers.any Pc.beforeStart = true) ∨
    (p = .lock ∧ s.holder ≠ none) ∨ (p = .awaitEnd ∧ s.workers.all Pc.ending = false) ∨
    p = .done := by
  unfold Pool.step at h
  simp only [hw] at h
  cases p with
  | awaitStart =>
    by_cases hany : s.workers.any Pc.beforeStart = true
    · exact .inl ⟨rfl, hany⟩
    · simp [hany] at h
  | lock =>
    refine .inr (.inl ⟨rfl, fun hh => ?_⟩)
    simp [hh] at h
  | awaitEnd =>
    refine .inr (.inr (.inl ⟨rfl, ?_⟩))
    by_contra hall
    rw [Bool.not_eq_false] at hall
    simp [hall] at h
  | done => exact .inr (.inr (.inr rfl))
  | take =>
    simp only at h
    split at h <;> cases h
  | unlock j => cases j <;> cases h
  | _ => cases h

/-- Where no worker can go on, all have ended: nobody waits for ever. -/
theorem Inv.all_finished {s : State δ α} {k : Nat} {cur : List α}
    (hi : Inv P Rep f cells s k cur)
    (hstuck : ∀ w, w < s.workers.length → P.step s w = none) :
    ∀ p ∈ s.workers, p = .done := by
  have hblocked : ∀ (w : Nat) (p : Pc α), s.workers[w]? = some p → _ := fun w p hw =>
    Pool.blocked hw (hstuck w (List.getElem?_eq_some_iff.mp hw).1)
  have hstart : s.workers.any Pc.beforeStart = false := by
    rw [List.any_eq_false]
    intro p hp hbefore
    obtain ⟨w, hw⟩ := List.getElem?_of_mem hp
    rcases hblocked w p hw with ⟨rfl, -⟩ | ⟨rfl, -⟩ | ⟨rfl, -⟩ | rfl <;> cases hbefore
  have hfree : s.holder = none := by
    by_contra hh
    obtain ⟨u, hu⟩ := Option.ne_none_iff_exists'.mp hh
    obtain ⟨p, hp, hin⟩ := (hi.guards u).mpr hu
    rcases hblocked u p hp with ⟨rfl, -⟩ | ⟨rfl, -⟩ | ⟨rfl, -⟩ | rfl <;> cases hin
  have hend : ∀ (w : Nat) (p : Pc α), s.workers[w]? = some p → p = .awaitEnd ∨ p = .done := by
    intro w p hw
    rcases hblocked w p hw with ⟨-, hany⟩ | ⟨-, hh⟩ | ⟨rfl, -⟩ | rfl
    · rw [hstart] at hany
      cases hany
    · exact absurd hfree hh
    · exact .inl rfl
    · exact .inr rfl
  have hall : s.workers.all Pc.ending = true := by
    rw [List.all_eq_true]
    intro p hp
    obtain ⟨w, hw⟩ := List.getElem?_of_mem hp
    rcases hend w p hw with rfl | rfl <;> rfl
  intro p hp
  obtain ⟨w, hw⟩ := List.getElem?_of_mem hp
  rcases hblocked w p hw with ⟨-, hany⟩ | ⟨-, hh⟩ | ⟨-, hnot⟩ | rfl
  · rw [hstart] at hany
    cases hany
  · exact absurd hfree hh
  · rw [hall] at hnot
    cases hnot
  · rfl

/-- When all workers have ended, and there was one, every cell was replaced. -/
theorem Inv.cells_done {s : State δ α} {k : Nat} {cur : List α}
    (hi : Inv P Rep f cells s k cur) (hdone : ∀ p ∈ s.workers, p = .done)
    (hne : s.workers ≠ []) : cur = cells.map f := by
  obtain ⟨p, hp⟩ := List.exists_mem_of_ne_nil _ hne
  obtain ⟨w, hw⟩ := List.getElem?_of_mem hp
  have hfine := hi.fine w p hw
  obtain rfl := hdone p hp
  have hk : k = cells.length := hfine
  apply List.ext_getElem?
  intro i
  rw [List.getElem?_map]
  by_cases hik : i < k
  · refine hi.finished i hik (tally_eq_zero fun q hq => ?_)
    obtain rfl := hdone q hq
    rfl
  · rw [hi.untouched i (by omega), List.getElem?_eq_none (by omega), Option.map_none]

theorem inv_start {entry : Pc α}
    (hentry : entry = .arriveStart ∨ entry = .lock) (threads : Nat) {data : δ}
    (hdata : Rep data cells) : Inv P Rep f cells (start entry threads data) 0 cells := by
  have hworker : ∀ (w : Nat) (p : Pc α), (start entry threads data).workers[w]? = some p →
      p = entry := fun w p hw => List.eq_of_mem_replicate (List.mem_of_getElem? hw)
  have hnone : ∀ j, tally (Pc.claims j) (start entry threads data).workers = 0 := by
    intro j
    apply tally_eq_zero
    intro p hp
    obtain rfl := List.eq_of_mem_replicate hp
    rcases hentry with rfl | rfl <;> rfl
  constructor
  · exact (Nat.mul_zero _).symm
  · exact Nat.zero_le _
  · rfl
  · exact hdata
  · intro w
    refine ⟨fun ⟨p, hw, hin⟩ => ?_, fun h => by cases h⟩
    obtain rfl := hworker w p hw
    rcases hentry with rfl | rfl <;> cases hin
  · intro w p hw
    obtain rfl := hworker w p hw
    rcases hentry with rfl | rfl <;> trivial
  · intro j
    rw [hnone]
    exact Nat.zero_le 1
  · intro _ _
    exact rfl
  · intro i hi
    exact absurd hi (Nat.not_lt_zero i)

/-- With enough fuel the workers are joined, whatever the scheduler does, and every cell was
replaced. -/
theorem Pool.join_maps (hP : P.Maps Rep f cells) {entry : Pc α}
    (hentry : entry = .arriveStart ∨ entry = .lock) {threads fuel : Nat} (hthreads : 0 < threads)
    (hfuel : 6 * (P.stride * cells.length) + 7 * threads ≤ fuel) (choose : Nat → Nat) {data : δ}
    (hdata : Rep data cells) :
    ∃ data', P.join entry threads fuel choose data = some data' ∧ Rep data' (cells.map f) := by
  let M := P.system entry threads data
  let Good : State δ α → Prop := fun s =>
    (∃ k cur, Inv P Rep f cells s k cur) ∧ s.workers.length = threads
  have hstart : Good (start entry threads data) :=
    ⟨⟨0, cells, inv_start hentry threads hdata⟩, List.length_replicate⟩
  have hstep : ∀ s w t, Good s → M.step s w = some t → Good t := by
    rintro s w t ⟨⟨k, cur, hi⟩, hlen⟩ ht
    obtain ⟨q, hq⟩ := P.step_workers ht
    exact ⟨hi.step hP ht, by rw [hq, List.length_set, hlen]⟩
  have hmeasure : P.measure cells.length (start entry threads data) ≤ fuel := by
    have hrank : tally Pc.rank (List.replicate threads entry) ≤ 7 * threads := by
      rw [tally, List.map_replicate, List.sum_replicate_nat, Nat.mul_comm]
      apply Nat.mul_le_mul_right
      rcases hentry with rfl | rfl
      · exact Nat.le_refl 7
      · exact Nat.le_add_right 5 2
    refine Nat.le_trans ?_ hfuel
    exact Nat.add_le_add (Nat.mul_le_mul_left 6 (Nat.sub_le _ _)) hrank
  have hdec : ∀ s w t, Good s → M.step s w = some t →
      P.measure cells.length t < P.measure cells.length s := by
    rintro s w t ⟨⟨k, cur, hi⟩, -⟩ ht
    exact hi.measure_lt hP ht
  obtain ⟨⟨k, cur, hi⟩, hlen⟩ := System.drive_invariant (n := threads) hstep choose fuel hstart
  have hstuck := System.drive_terminal (n := threads) (P.measure cells.length) hstep hdec choose
    fuel hstart hmeasure
  -- in the last state no worker can go on
  set s := M.drive threads choose fuel (start entry threads data) with hs
  have hdone : ∀ p ∈ s.workers, p = .done := by
    apply hi.all_finished
    intro w hw
    by_contra hsome
    obtain ⟨t, ht⟩ := Option.ne_none_iff_exists'.mp hsome
    have hmem : w ∈ M.enabled threads s := System.mem_enabled.mpr ⟨hlen ▸ hw, t, ht⟩
    rw [hstuck] at hmem
    cases hmem
  have hne : s.workers ≠ [] := List.ne_nil_of_length_pos (by omega)
  obtain rfl := hi.cells_done hdone hne
  have hall : s.workers.all Pc.finished = true := by
    rw [List.all_eq_true]
    intro p hp
    rw [hdone p hp]
    rfl
  exact ⟨s.data, if_pos hall, hi.rep⟩

end Invariant

/-- The worker without the value in its hand. -/
def Pc.bare : Pc α → Pc Unit
  | .arriveStart => .arriveStart
  | .awaitStart => .awaitStart
  | .lock => .lock
  | .take => .take
  | .bump j => .bump j
  | .unlock j => .unlock j
  | .compute j => .compute j
  | .store j _ => .store j ()
  | .arriveEnd => .arriveEnd
  | .awaitEnd => .awaitEnd
  | .done => .done

def State.bare (s : State δ α) : State Unit Unit := ⟨s.next, s.holder, s.workers.map Pc.bare, ()⟩

/-- The same workers, who do nothing with the data. -/
def Pool.bare (P : Pool δ α) : Pool Unit Unit := ⟨P.more, P.stride, fun _ _ => (), fun _ _ _ => ()⟩

theorem State.bare_goto (s : State δ α) (w : Nat) (p : Pc α) :
    (s.goto w p).bare = s.bare.goto w p.bare := by
  simp only [State.bare, State.goto, List.map_set]

theorem Pc.bare_beforeStart (p : Pc α) : p.bare.beforeStart = p.beforeStart := by
  cases p <;> rfl

theorem Pc.bare_ending (p : Pc α) : p.bare.ending = p.ending := by
  cases p <;> rfl

theorem Pc.bare_finished (p : Pc α) : p.bare.finished = p.finished := by
  cases p <;> rfl

theorem State.bare_any {f : Pc Unit → Bool} {g : Pc α → Bool} (h : ∀ p, f p.bare = g p)
    (s : State δ α) : s.bare.workers.any f = s.workers.any g := by
  rw [State.bare, List.any_map]
  exact congrArg s.workers.any (funext h)

theorem State.bare_all {f : Pc Unit → Bool} {g : Pc α → Bool} (h : ∀ p, f p.bare = g p)
    (s : State δ α) : s.bare.workers.all f = s.workers.all g := by
  rw [State.bare, List.all_map]
  exact congrArg s.workers.all (funext h)

theorem Pool.step_bare (P : Pool δ α) (s : State δ α) (w : Nat) :
    P.bare.step s.bare w = (P.step s w).map State.bare := by
  have hworker : s.bare.workers[w]? = s.workers[w]?.map Pc.bare := List.getElem?_map
  have hstart := s.bare_any Pc.bare_beforeStart
  have hend := s.bare_all Pc.bare_ending
  unfold Pool.step
  rw [hworker]
  cases s.workers[w]? with
  | none => rfl
  | some p =>
    cases p with
    | arriveStart | compute | arriveEnd => simp only [Option.map_some, Pc.bare, State.bare_goto]
    | awaitStart =>
      simp only [Option.map_some, Pc.bare, hstart]
      split
      · rfl
      · exact congrArg some (s.bare_goto w .lock).symm
    | lock =>
      simp only [Option.map_some, Pc.bare]
      change (match s.holder with | none => _ | some _ => none) = _
      cases s.holder with
      | none =>
        simp [State.bare, State.goto, List.map_set, Pc.bare]
      | some u => rfl
    | take =>
      simp only [Option.map_some, Pc.bare]
      change (if P.more s.next then _ else _) = _
      split
      · exact congrArg some (s.bare_goto w (.bump s.next)).symm
      · exact congrArg some (s.bare_goto w (.unlock none)).symm
    | bump j => simp [State.bare, State.goto, List.map_set, Pc.bare, Pool.bare]
    | unlock j => cases j <;> simp [State.bare, State.goto, List.map_set, Pc.bare]
    | store j v => simp [State.bare, State.goto, List.map_set, Pc.bare]
    | awaitEnd =>
      simp only [Option.map_some, Pc.bare, hend]
      split
      · exact congrArg some (s.bare_goto w .done).symm
      · rfl
    | done => rfl

/-- With enough fuel the workers are joined, whatever the jobs do. -/
theorem Pool.join_some {P : Pool δ α} {jobs : Nat} (hstride : 0 < P.stride)
    (hmore : ∀ i : Nat, i ≤ jobs → (P.more (P.stride * i) = true ↔ i < jobs)) {entry : Pc α}
    (hentry : entry = .arriveStart ∨ entry = .lock) {threads fuel : Nat}
    (hfuel : 6 * (P.stride * jobs) + 7 * threads ≤ fuel) (choose : Nat → Nat) (data : δ) :
    ∃ data', P.join entry threads fuel choose data = some data' := by
  rcases Nat.eq_zero_or_pos threads with rfl | hthreads
  · exact ⟨data, P.join_none entry fuel choose data⟩
  let cells : List Unit := List.replicate jobs ()
  have hcells : cells.length = jobs := List.length_replicate
  have hmaps : P.bare.Maps (fun _ cur => cur.length = jobs) id cells := by
    refine ⟨hstride, ?_, fun _ _ _ _ _ _ => rfl, fun _ _ _ _ hlen _ => ?_⟩
    · rw [hcells]
      exact hmore
    · rw [List.length_set, hlen]
  have hbare : entry.bare = .arriveStart ∨ entry.bare = .lock := by
    rcases hentry with rfl | rfl
    · exact .inl rfl
    · exact .inr rfl
  have henough : 6 * (P.bare.stride * cells.length) + 7 * threads ≤ fuel := by
    rw [hcells]
    exact hfuel
  obtain ⟨_, hjoin, -⟩ : ∃ d, P.bare.join entry.bare threads fuel choose () = some d ∧
      (cells.map id).length = jobs := P.bare.join_maps hmaps hbare hthreads henough choose hcells
  have hrun := System.drive_map (M := P.system entry threads data)
    (N := P.bare.system entry.bare threads ()) State.bare P.step_bare threads choose fuel
    (start entry threads data)
  have hstart : (start entry threads data).bare = start entry.bare threads () := by
    simp only [start, State.bare, List.map_replicate]
  rw [hstart] at hrun
  simp only [Pool.join, hrun, State.bare_all Pc.bare_finished] at hjoin ⊢
  split at hjoin
  · rename_i hall
    exact ⟨_, if_pos hall⟩
  · cases hjoin

end Osisp.Lib.WorkPool
