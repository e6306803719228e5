import Osisp.Lab4.Accounting

namespace Osisp.Lab4

open Osisp.Lib

/-- `hash` after `type` and the first `i` bytes of `data`. -/
def partialHash (msg : Message) (i : Nat) : UInt16 :=
  (List.range i).foldl (fun hash i => hash + (msg.data.getD i 0).toUInt16) msg.type.toUInt16

theorem partialHash_succ (msg : Message) (i : Nat) :
    partialHash msg (i + 1) = partialHash msg i + (msg.data.getD i 0).toUInt16 := by
  rw [partialHash, List.range_succ, List.foldl_append]
  rfl

theorem generateMessage_hash (rand : Nat → Nat) (msg : Message) :
    (generateMessage rand msg).hash = calculateHash (generateMessage rand msg) := rfl

def Process.checking (pr : Process) : Bool :=
  match pr.pc with
  | .signalAccess | .signalLast => pr.type == .consumer
  | .testMsg | .hashType | .hashData _ | .compare => true
  | _ => false

/-- How far the hash of the message has been computed. -/
def Pc.Progress (pc : Pc) (hash : UInt16) (msg : Message) : Prop :=
  match pc with
  | .hashType => hash = 0
  | .hashData i => i ≤ msg.size.toNat ∧ hash = partialHash msg i
  | .compare => hash = calculateHash msg
  | _ => True

/-- The cell the consumer points to still holds the message that was at the head of the queue
when it called `dequeue`. -/
structure Intact (sent : List Message) (q : MessageQueue) (pr : Process) (slot : Nat)
    (taken : Taken) : Prop where
  slot_eq : pr.slot = some slot
  taken_eq : pr.taken = some taken
  sent_eq : sent[taken.seq]? = some taken.msg
  cell_eq : q.buffer slot = taken.msg
  progress : pr.pc.Progress pr.hash taken.msg

/-- A producer at its call of `enqueue` has a message from `generate_message`. -/
def Process.Made (pr : Process) : Prop :=
  pr.pc = .call → pr.type = .producer → pr.msg.hash = calculateHash pr.msg

def Process.checks (k : Nat) (pr : Process) : Nat :=
  if pr.checking ∧ pr.taken.map Taken.seq = some k then 1 else 0

/-- How often message `k` has been verified. -/
def State.timesVerified (s : State) (k : Nat) : Nat := (s.verified.map Prod.fst).count k

/-- How many processes are checking message `k`. -/
def State.timesChecking (s : State) (k : Nat) : Nat := tally (Process.checks k) s.processes

/-- The step does not kill, and it does not call `enqueue` while the cell at `tail` is one that
a consumer has taken and not checked to the end. -/
def Good (s : State) : Action → Prop
  | .kill _ => False
  | .process p _ =>
    At s.processes p (fun pr => pr.pc = .call ∧ pr.type = .producer) →
      ∀ pr ∈ s.processes, pr.checking = true → pr.slot ≠ some s.queue.tail
  | _ => True

instance (s : State) : (a : Action) → Decidable (Good s a)
  | .kill _ => isFalse id
  | .process p _ => inferInstanceAs (Decidable (At s.processes p _ → _))
  | .create .. | .reap | .deliver _ | .interrupt _ => isTrue trivial

structure Tracked (s : State) : Prop where
  accounted : Accounted s
  ring : RingOf s.sent s.queue
  calm : ∀ (p : Nat) (pr : Process), s.processes[p]? = some pr → pr.pending = false
  intact : ∀ (p : Nat) (pr : Process), s.processes[p]? = some pr → pr.checking = true →
    ∃ slot taken, Intact s.sent s.queue pr slot taken
  made : ∀ (p : Nat) (pr : Process), s.processes[p]? = some pr → pr.Made
  genuine : ∀ msg ∈ s.sent, msg.hash = calculateHash msg
  agreed : ∀ v ∈ s.verified, v.2 = true
  once : ∀ k, s.timesVerified k + s.timesChecking k = if k < s.queue.removedCount then 1 else 0

theorem Intact.enqueue {sent : List Message} {q : MessageQueue} {pr : Process} {slot : Nat}
    {taken : Taken} (hi : Intact sent q pr slot taken) (hroom : q.freeSpace ≠ 0) (msg : Message)
    (hslot : slot ≠ q.tail) : Intact (sent ++ [msg]) (enqueue q msg) pr slot taken where
  slot_eq := hi.slot_eq
  taken_eq := hi.taken_eq
  sent_eq := by
    have hlt := (List.getElem?_eq_some_iff.mp hi.sent_eq).1
    rw [List.getElem?_append_left hlt]
    exact hi.sent_eq
  cell_eq := by
    rw [Osisp.Lab4.enqueue, if_neg hroom]
    exact (Function.update_of_ne hslot _ _).trans hi.cell_eq
  progress := hi.progress

theorem dequeue_buffer (q : MessageQueue) : (dequeue q).2.buffer = q.buffer := by
  unfold dequeue
  split_ifs <;> rfl

theorem Intact.dequeue {sent : List Message} {q : MessageQueue} {pr : Process} {slot : Nat}
    {taken : Taken} (hi : Intact sent q pr slot taken) :
    Intact sent (dequeue q).2 pr slot taken where
  slot_eq := hi.slot_eq
  taken_eq := hi.taken_eq
  sent_eq := hi.sent_eq
  cell_eq := by rw [dequeue_buffer]; exact hi.cell_eq
  progress := hi.progress

/-- What one step of a process does: it adds a message, takes one, ends a check, or keeps the
queue and the state of its check. -/
inductive ProcessMove (s s' : State) (p : Nat) (pr : Process) : Prop
  | enqueue (htype : pr.type = .producer) (hpc : pr.pc = .call)
      (hset : s'.processes = s.processes.set p { pr with pc := .signalAccess })
      (hq : s'.queue = enqueue s.queue pr.msg)
      (hsent : s'.sent = if s.queue.freeSpace = 0 then s.sent else s.sent ++ [pr.msg])
      (hv : s'.verified = s.verified)
  | dequeue (htype : pr.type = .consumer) (hpc : pr.pc = .call)
      (hset : s'.processes = s.processes.set p { pr with
        pc := .signalAccess
        slot := (dequeue s.queue).1
        taken := (dequeue s.queue).1.map fun slot =>
          ⟨s.queue.removedCount, s.queue.buffer slot⟩ })
      (hq : s'.queue = (dequeue s.queue).2) (hsent : s'.sent = s.sent)
      (hv : s'.verified = s.verified)
  | compare (slot : Nat) (taken : Taken) (hpc : pr.pc = .compare) (hslot : pr.slot = some slot)
      (htaken : pr.taken = some taken)
      (hset : s'.processes = s.processes.set p { pr with pc := .delay })
      (hq : s'.queue = s.queue) (hsent : s'.sent = s.sent)
      (hv : s'.verified =
        s.verified ++ [(taken.seq, pr.hash == (s.queue.buffer slot).hash)])
  | other (pr' : Process) (hset : s'.processes = s.processes.set p pr') (hq : s'.queue = s.queue)
      (hsent : s'.sent = s.sent) (hv : s'.verified = s.verified)
      (hpending : pr'.pending = pr.pending) (hchecking : pr'.checking = pr.checking)
      (hslot : pr'.slot = pr.slot) (htaken : pr'.taken = pr.taken)
      (hprogress : ∀ slot msg, pr.slot = some slot → s.queue.buffer slot = msg →
        pr.pc.Progress pr.hash msg → pr'.pc.Progress pr'.hash msg)
      (hmade : pr'.Made)

theorem processStep_move {s s' : State} {p : Nat} {pr : Process} {rand : Nat → Nat}
    (h : processStep s p pr rand = some s')
    (hslot : pr.checking = true → pr.slot.isSome = true) : ProcessMove s s' p pr := by
  obtain ⟨type, pc, flag, pending, msg, slot, hash, taken⟩ := pr
  cases pc <;> simp only [processStep] at h
  case start | delay =>
    cases h
    exact .other _ rfl rfl rfl rfl rfl rfl rfl rfl (fun _ _ _ _ _ => trivial) (fun h => by cases h)
  case generate =>
    cases h
    exact .other _ rfl rfl rfl rfl rfl rfl rfl rfl (fun _ _ _ _ _ => trivial)
      fun _ _ => generateMessage_hash rand msg
  case loopTest =>
    split_ifs at h <;> cases h <;>
      exact .other _ rfl rfl rfl rfl rfl rfl rfl rfl (fun _ _ _ _ _ => trivial)
        (fun h => by cases h)
  case waitFirst =>
    obtain ⟨sem, -, rfl⟩ := Option.map_eq_some_iff.mp h
    exact .other _ rfl rfl rfl rfl rfl rfl rfl rfl (fun _ _ _ _ _ => trivial) (fun h => by cases h)
  case waitAccess =>
    obtain ⟨sem, -, rfl⟩ := Option.map_eq_some_iff.mp h
    refine .other _ rfl rfl rfl rfl rfl ?_ rfl rfl (fun _ _ _ _ _ => ?_) ?_
    · cases type <;> rfl
    · cases type <;> exact trivial
    · intro hpc htype
      cases htype
      cases hpc
  case call =>
    cases type <;> cases h
    · exact .dequeue rfl rfl rfl rfl rfl rfl
    · exact .enqueue rfl rfl rfl rfl rfl rfl
  case signalAccess =>
    cases h
    exact .other _ rfl rfl rfl rfl rfl rfl rfl rfl (fun _ _ _ _ _ => trivial) (fun h => by cases h)
  case signalLast =>
    cases h
    refine .other _ rfl rfl rfl rfl rfl ?_ rfl rfl (fun _ _ _ _ _ => ?_) ?_
    · cases type <;> rfl
    · cases type <;> exact trivial
    · cases type <;> intro h <;> cases h
  case testMsg =>
    rw [if_pos (hslot rfl)] at h
    cases h
    exact .other _ rfl rfl rfl rfl rfl rfl rfl rfl (fun _ _ _ _ _ => rfl) (fun h => by cases h)
  case hashType =>
    obtain ⟨cell, hcell, rfl⟩ := Option.map_eq_some_iff.mp h
    refine .other _ rfl rfl rfl rfl rfl rfl rfl rfl (fun slot' msg' hs hm hp => ?_)
      (fun h => by cases h)
    obtain rfl : cell = slot' := Option.some.inj (hcell.symm.trans hs)
    have hp : hash = 0 := hp
    refine ⟨Nat.zero_le _, ?_⟩
    simp only [hp, hm, partialHash, List.range_zero, List.foldl_nil, UInt16.zero_add]
  case hashData i =>
    obtain ⟨cell, hcell, rfl⟩ := Option.map_eq_some_iff.mp h
    by_cases hi : i < (s.queue.buffer cell).size.toNat
    · simp only [if_pos hi]
      refine .other _ rfl rfl rfl rfl rfl rfl rfl rfl (fun slot' msg' hs hm hp => ?_)
        (fun h => by cases h)
      obtain rfl : cell = slot' := Option.some.inj (hcell.symm.trans hs)
      obtain ⟨-, hp⟩ : i ≤ msg'.size.toNat ∧ hash = partialHash msg' i := hp
      refine ⟨by rw [← hm]; exact hi, ?_⟩
      simp only [partialHash_succ, hp, hm]
    · simp only [if_neg hi]
      refine .other _ rfl rfl rfl rfl rfl rfl rfl rfl (fun slot' msg' hs hm hp => ?_)
        (fun h => by cases h)
      obtain rfl : cell = slot' := Option.some.inj (hcell.symm.trans hs)
      obtain ⟨hle, hp⟩ : i ≤ msg'.size.toNat ∧ hash = partialHash msg' i := hp
      have hend : i = msg'.size.toNat := by
        rw [hm] at hi
        omega
      change hash = calculateHash msg'
      rw [hp, hend]
      rfl
  case compare =>
    obtain ⟨cell, hcell, h⟩ := Option.bind_eq_some_iff.mp h
    obtain ⟨t, ht, rfl⟩ := Option.map_eq_some_iff.mp h
    exact .compare cell t rfl hcell ht rfl rfl rfl rfl
  case exited => cases h

section

variable {s s' : State} {p : Nat} {pr : Process}

theorem timesChecking_set {pr' : Process} (hp : s.processes[p]? = some pr)
    (hset : s'.processes = s.processes.set p pr') (k : Nat) :
    s'.timesChecking k + pr.checks k = s.timesChecking k + pr'.checks k := by
  unfold State.timesChecking
  rw [hset]
  exact tally_set (Process.checks k) hp pr'

theorem checks_of_not_checking (h : pr.checking = false) (k : Nat) : pr.checks k = 0 := by
  simp [Process.checks, h]

theorem checks_of_taken {taken : Taken} (h : pr.checking = true) (ht : pr.taken = some taken)
    (k : Nat) : pr.checks k = if taken.seq = k then 1 else 0 := by
  simp [Process.checks, h, ht]

theorem Tracked.enqueue (hi : Tracked s) (hp : s.processes[p]? = some pr)
    (haccounted : Accounted s') (htype : pr.type = .producer) (hpc : pr.pc = .call)
    (hfree : ∀ x ∈ s.processes, x.checking = true → x.slot ≠ some s.queue.tail)
    (hset : s'.processes = s.processes.set p { pr with pc := .signalAccess })
    (hq : s'.queue = Osisp.Lab4.enqueue s.queue pr.msg)
    (hsent : s'.sent = if s.queue.freeSpace = 0 then s.sent else s.sent ++ [pr.msg])
    (hv : s'.verified = s.verified) : Tracked s' := by
  have hroom : s.queue.freeSpace ≠ 0 := (hi.accounted.call hp hpc).1 htype
  rw [if_neg hroom] at hsent
  have hidle : pr.checking = false := by simp [Process.checking, hpc]
  have hidle' : ({ pr with pc := .signalAccess } : Process).checking = false := by
    simp [Process.checking, htype]
  refine ⟨haccounted, ?_, ?_, ?_, ?_, ?_, by rw [hv]; exact hi.agreed, fun k => ?_⟩
  · rw [hsent, hq]
    exact enqueue_ringOf hi.ring pr.msg hroom
  · exact forall_entry_set hset (hi.calm p pr hp) fun u x _ hx => hi.calm u x hx
  · refine forall_entry_set hset (fun h => ?_) fun u x _ hx hc => ?_
    · rw [hidle'] at h
      cases h
    · obtain ⟨slot, taken, hin⟩ := hi.intact u x hx hc
      have hne := hfree x (List.mem_of_getElem? hx) hc
      rw [hin.slot_eq] at hne
      rw [hsent, hq]
      exact ⟨slot, taken, hin.enqueue hroom pr.msg fun h => hne (by rw [h])⟩
  · exact forall_entry_set hset nofun fun u x _ hx => hi.made u x hx
  · rw [hsent]
    intro msg hmem
    rcases List.mem_append.mp hmem with hmem | hmem
    · exact hi.genuine msg hmem
    · rw [List.mem_singleton.mp hmem]
      exact hi.made p pr hp hpc htype
  · have hc := timesChecking_set hp hset k
    have ho := hi.once k
    have hr : s'.queue.removedCount = s.queue.removedCount := by
      rw [hq, Osisp.Lab4.enqueue, if_neg hroom]
    rw [checks_of_not_checking hidle, checks_of_not_checking hidle'] at hc
    rw [hr, ← ho, State.timesVerified, hv, State.timesVerified]
    omega

/-- The consumer takes the message with the next number. -/
theorem Tracked.dequeue (hi : Tracked s) (hp : s.processes[p]? = some pr)
    (haccounted : Accounted s') (htype : pr.type = .consumer) (hpc : pr.pc = .call)
    (hset : s'.processes = s.processes.set p { pr with
      pc := .signalAccess
      slot := (Osisp.Lab4.dequeue s.queue).1
      taken := (Osisp.Lab4.dequeue s.queue).1.map fun slot =>
        ⟨s.queue.removedCount, s.queue.buffer slot⟩ })
    (hq : s'.queue = (Osisp.Lab4.dequeue s.queue).2) (hsent : s'.sent = s.sent)
    (hv : s'.verified = s.verified) : Tracked s' := by
  have hitem : s.queue.count ≠ 0 := (hi.accounted.call hp hpc).2 htype
  obtain ⟨hslot, hhead, hring⟩ := dequeue_ringOf hi.ring hitem
  rw [hslot] at hset
  have hidle : pr.checking = false := by simp [Process.checking, hpc]
  refine ⟨haccounted, ?_, ?_, ?_, ?_, by rw [hsent]; exact hi.genuine,
    by rw [hv]; exact hi.agreed, fun k => ?_⟩
  · rw [hsent, hq]
    exact hring
  · exact forall_entry_set hset (hi.calm p pr hp) fun u x _ hx => hi.calm u x hx
  · refine forall_entry_set hset (fun _ => ?_) fun u x _ hx hc => ?_
    · refine ⟨s.queue.head, ⟨s.queue.removedCount, s.queue.buffer s.queue.head⟩, rfl, rfl, ?_, ?_,
        trivial⟩
      · rw [hsent]
        exact hhead
      · rw [hq, dequeue_buffer]
    · obtain ⟨slot, taken, hin⟩ := hi.intact u x hx hc
      rw [hsent, hq]
      exact ⟨slot, taken, hin.dequeue⟩
  · exact forall_entry_set hset nofun fun u x _ hx => hi.made u x hx
  · have hc := timesChecking_set hp hset k
    have ho := hi.once k
    have hr : s'.queue.removedCount = s.queue.removedCount + 1 := by
      rw [hq, Osisp.Lab4.dequeue, if_neg hitem]
    rw [checks_of_not_checking hidle, checks_of_taken (by simp [Process.checking, htype]) rfl] at hc
    simp only [State.timesVerified, hv] at hc ho ⊢
    rw [hr]
    split_ifs at hc ho ⊢ <;> omega

/-- The consumer ends its check of the message it took. -/
theorem Tracked.compare (hi : Tracked s) (hp : s.processes[p]? = some pr)
    (haccounted : Accounted s') {slot : Nat} {taken : Taken} (hpc : pr.pc = .compare)
    (hslot : pr.slot = some slot) (htaken : pr.taken = some taken)
    (hset : s'.processes = s.processes.set p { pr with pc := .delay })
    (hq : s'.queue = s.queue) (hsent : s'.sent = s.sent)
    (hv : s'.verified = s.verified ++
      [(taken.seq, pr.hash == (s.queue.buffer slot).hash)]) : Tracked s' := by
  have hchecking : pr.checking = true := by simp [Process.checking, hpc]
  have hidle : ({ pr with pc := .delay } : Process).checking = false := rfl
  refine ⟨haccounted, by rw [hsent, hq]; exact hi.ring, ?_, ?_, ?_, by rw [hsent]; exact hi.genuine,
    ?_, fun k => ?_⟩
  · exact forall_entry_set hset (hi.calm p pr hp) fun u x _ hx => hi.calm u x hx
  · refine forall_entry_set hset (fun h => ?_) fun u x _ hx hc => ?_
    · rw [hidle] at h
      cases h
    · rw [hsent, hq]
      exact hi.intact u x hx hc
  · exact forall_entry_set hset nofun fun u x _ hx => hi.made u x hx
  · -- the sum is that of the message taken, which came with its own hash
    have hagree : (pr.hash == (s.queue.buffer slot).hash) = true := by
      obtain ⟨slot', taken', hin⟩ := hi.intact p pr hp hchecking
      obtain rfl : slot = slot' := Option.some.inj (hslot.symm.trans hin.slot_eq)
      have hhash : pr.hash = calculateHash taken'.msg := by
        have hprogress := hin.progress
        rw [hpc] at hprogress
        exact hprogress
      rw [hhash, hin.cell_eq, hi.genuine _ (List.mem_of_getElem? hin.sent_eq)]
      exact beq_self_eq_true _
    rw [hv]
    intro v hmem
    rcases List.mem_append.mp hmem with hmem | hmem
    · exact hi.agreed v hmem
    · rw [List.mem_singleton.mp hmem]
      exact hagree
  · have hc := timesChecking_set hp hset k
    have ho := hi.once k
    have hcount : s'.timesVerified k = s.timesVerified k + if taken.seq = k then 1 else 0 := by
      simp [State.timesVerified, hv, List.count_append, List.count_singleton]
    rw [checks_of_taken hchecking htaken, checks_of_not_checking hidle] at hc
    rw [hq, hcount]
    omega

theorem Tracked.other (hi : Tracked s) (hp : s.processes[p]? = some pr)
    (haccounted : Accounted s') {pr' : Process}
    (hset : s'.processes = s.processes.set p pr') (hq : s'.queue = s.queue)
    (hsent : s'.sent = s.sent) (hv : s'.verified = s.verified)
    (hpending : pr'.pending = pr.pending) (hchecking : pr'.checking = pr.checking)
    (hslot : pr'.slot = pr.slot) (htaken : pr'.taken = pr.taken)
    (hprogress : ∀ slot msg, pr.slot = some slot → s.queue.buffer slot = msg →
      pr.pc.Progress pr.hash msg → pr'.pc.Progress pr'.hash msg)
    (hmade : pr'.Made) : Tracked s' := by
  refine ⟨haccounted, by rw [hsent, hq]; exact hi.ring, ?_, ?_, ?_, by rw [hsent]; exact hi.genuine,
    by rw [hv]; exact hi.agreed, fun k => ?_⟩
  · exact forall_entry_set hset (hpending.trans (hi.calm p pr hp)) fun u x _ hx => hi.calm u x hx
  · rw [hsent, hq]
    refine forall_entry_set hset (fun h => ?_) fun u x _ hx hc => hi.intact u x hx hc
    obtain ⟨slot, taken, hin⟩ := hi.intact p pr hp (hchecking.symm.trans h)
    exact ⟨slot, taken, hslot.trans hin.slot_eq, htaken.trans hin.taken_eq, hin.sent_eq,
      hin.cell_eq, hprogress slot taken.msg hin.slot_eq hin.cell_eq hin.progress⟩
  · exact forall_entry_set hset hmade fun u x _ hx => hi.made u x hx
  · have hc := timesChecking_set hp hset k
    have hsame : pr'.checks k = pr.checks k := by
      simp only [Process.checks, hchecking, htaken]
    rw [hq, ← hi.once k, State.timesVerified, hv, State.timesVerified]
    omega

end

theorem init_tracked : Tracked State.init where
  accounted := init_accounted
  ring := queueInit_ringOf
  calm := by simp [State.init]
  intact := by simp [State.init]
  made := by simp [State.init]
  genuine := by simp [State.init]
  agreed := by simp [State.init]
  once := by simp [State.init, State.timesVerified, State.timesChecking, queueInit]

theorem step_tracked {limit : Nat} {s s' : State} {a : Action} (hi : Tracked s)
    (hgood : Good s a) (h : (program limit).step s a = some s') : Tracked s' := by
  have hn : NotInterrupt a → Accounted s' := fun hn => step_accounted hi.accounted hn h
  cases step_cases h with
  | refused hs =>
    subst hs
    exact hi
  | fork type stack hread hs =>
    have ha := hn trivial
    subst hs
    have hidle : (Process.new type stack).checking = false := rfl
    refine ⟨ha, hi.ring, ?_, ?_, ?_, hi.genuine, hi.agreed, fun k => ?_⟩
    · exact forall_entry_append rfl hi.calm
    · refine forall_entry_append (fun hc => ?_) hi.intact
      rw [hidle] at hc
      cases hc
    · refine forall_entry_append (fun hc => ?_) hi.made
      cases hc
    · rw [← hi.once k]
      simp only [State.timesVerified, State.timesChecking, tally_append, tally_cons, tally_nil,
        checks_of_not_checking hidle, Nat.add_zero]
  | forkFails type stack hread hs =>
    have ha := hn trivial
    subst hs
    exact ⟨ha, hi.ring, hi.calm, hi.intact, hi.made, hi.genuine, hi.agreed, hi.once⟩
  | kill index pid hread hpid hs => exact absurd hgood id
  | reap index pid pr hwait hp hexit hs =>
    have ha := hn trivial
    subst hs
    exact ⟨ha, hi.ring, hi.calm, hi.intact, hi.made, hi.genuine, hi.agreed, hi.once⟩
  | process p rand pr hp hstep =>
    have ha := hn trivial
    have hslot : pr.checking = true → pr.slot.isSome = true := by
      intro hc
      obtain ⟨slot, taken, hin⟩ := hi.intact p pr hp hc
      rw [hin.slot_eq]
      rfl
    cases processStep_move hstep hslot with
    | enqueue htype hpc hset hq hsent hv =>
      have hfree := hgood ((at_of_getElem? hp _).mpr ⟨hpc, htype⟩)
      exact hi.enqueue hp ha htype hpc hfree hset hq hsent hv
    | dequeue htype hpc hset hq hsent hv => exact hi.dequeue hp ha htype hpc hset hq hsent hv
    | compare slot taken hpc hslot htaken hset hq hsent hv =>
      exact hi.compare hp ha hpc hslot htaken hset hq hsent hv
    | other pr' hset hq hsent hv hpending hchecking hslot htaken hprogress hmade =>
      exact hi.other hp ha hset hq hsent hv hpending hchecking hslot htaken hprogress hmade
  | deliver p pr hp hstep => simp [deliverStep, hi.calm p pr hp] at hstep
  | interrupt p pr hp hstep => simp [interruptStep, hi.calm p pr hp] at hstep

theorem reach_tracked {limit : Nat} {s : State} (h : (program limit).Reach Good s) : Tracked s :=
  h.invariant init_tracked fun _ _ _ hi hg ht => step_tracked hi hg ht

/-- What a consumer checks is what it took, and every message that has left the queue has been
verified once or is being checked by one process, while the others are still in the queue. -/
structure ChecksTaken (s : State) : Prop where
  same : ∀ (p : Nat) (pr : Process), s.processes[p]? = some pr → pr.checking = true →
    ∃ slot taken, pr.slot = some slot ∧ pr.taken = some taken ∧
      s.sent[taken.seq]? = some taken.msg ∧ s.queue.buffer slot = taken.msg ∧
      (pr.pc = .compare → pr.hash = calculateHash taken.msg)
  once : ∀ k, k < s.sent.length →
    s.timesVerified k + s.timesChecking k = if k < s.queue.removedCount then 1 else 0

theorem Tracked.checksTaken {s : State} (hi : Tracked s) : ChecksTaken s where
  same p pr hp hc := by
    obtain ⟨slot, taken, hin⟩ := hi.intact p pr hp hc
    refine ⟨slot, taken, hin.slot_eq, hin.taken_eq, hin.sent_eq, hin.cell_eq, fun hpc => ?_⟩
    have hprogress := hin.progress
    rw [hpc] at hprogress
    exact hprogress
  once k _ := hi.once k

/-- Runs without kills in which no message is put into a cell that is being checked. -/
theorem checks_taken {limit : Nat} {s : State} (h : (program limit).Reach Good s) :
    ChecksTaken s :=
  (reach_tracked h).checksTaken

/-- In these runs no consumer reports an invalid hash: the hash it compares is that of the message
as its producer made it. -/
theorem never_invalid_hash {limit : Nat} {s : State} (h : (program limit).Reach Good s) :
    ∀ v ∈ s.verified, v.2 = true :=
  (reach_tracked h).agreed

/-- Process `p` takes `n` steps, with `rand` always 0. -/
def steps (p n : Nat) : List Action := List.replicate n (.process p fun _ => 0)

/-- A producer adds one message and a consumer takes it and begins to check it. -/
def firstCheck : List Action :=
  [.create .producer true .zero, .create .consumer true .zero] ++ steps 0 8 ++ steps 1 8

theorem checks_taken_first :
    ∃ s pr, (program 100).Reach Good s ∧ s.processes[1]? = some pr ∧ pr.checking = true ∧
      ChecksTaken s := by
  obtain ⟨s, hs, hm⟩ := System.exists_reach_of_run (M := program 100) Good firstCheck
    (fun s => s.processes[1]?.any Process.checking) (by decide) (by decide)
  obtain ⟨pr, hp, hc⟩ := (Option.any_eq_true _ _).mp hm
  exact ⟨s, pr, hs, hp, hc, checks_taken hs⟩

/-- The same with a message of type 1 and one byte, which the consumer checks to the end. -/
def checkedOnce : List Action :=
  [.create .producer true .zero, .create .consumer true .zero] ++
    List.replicate 8 (.process 0 fun _ => 1) ++ steps 1 12

theorem never_invalid_hash_once :
    ∃ s, (program 100).Reach Good s ∧ s.verified.map Prod.fst = [0] ∧
      ∀ v ∈ s.verified, v.2 = true := by
  obtain ⟨s, hs, hm⟩ := System.exists_reach_of_run (M := program 100) Good checkedOnce
    (fun s => s.verified.map Prod.fst == [0]) (by decide) (by decide)
  exact ⟨s, hs, beq_iff_eq.mp hm, never_invalid_hash hs⟩

def NotKill : Action → Prop
  | .kill _ => False
  | _ => True

instance : (a : Action) → Decidable (NotKill a)
  | .kill _ => isFalse id
  | .create .. | .reap | .process .. | .deliver _ | .interrupt _ => isTrue trivial

/-- The producer fills the queue, the consumer takes the first message and gives up its
semaphores, and the producer puts an eleventh message, of type 1, into the same cell. -/
def overwrite : List Action :=
  [.create .producer true .zero, .create .consumer true .zero] ++ steps 0 81 ++ steps 1 8 ++
    List.replicate 5 (.process 0 fun _ => 1)

theorem overwritten_not_checked :
    ¬∀ s, (program 100).Reach (fun _ a => NotKill a) s → ChecksTaken s := by
  intro h
  obtain ⟨s, hs, hm⟩ := System.exists_reach_of_run (M := program 100)
    (fun _ a => NotKill a) overwrite
    (fun s => s.processes[1]?.any fun pr => pr.checking && pr.slot.any fun slot =>
      pr.taken.any fun taken => (s.queue.buffer slot).type != taken.msg.type)
    (by decide +kernel) (by decide +kernel)
  obtain ⟨pr, hp, hm⟩ := (Option.any_eq_true _ _).mp hm
  obtain ⟨hc, hm⟩ := (Bool.and_eq_true _ _).mp hm
  obtain ⟨slot, taken, hslot, htaken, -, hcell, -⟩ := (h s hs).same 1 pr hp hc
  simp [hslot, htaken, hcell] at hm

end Osisp.Lab4
