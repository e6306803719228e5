import Osisp.Lib.History
import Osisp.Lab4.Accounting
import Osisp.Lab4.RingFifo

namespace Osisp.Lab4

open Osisp.Lib

/-- The call that a step makes. -/
def queueCall (s : State) : Action → List QueueOp
  | .process p _ =>
    match s.processes[p]? with
    | some pr =>
      if pr.pc = .call then
        match pr.type with
        | .producer => [.enqueue pr.msg]
        | .consumer => [.dequeue]
      else []
    | none => []
  | _ => []

/-- The messages that the calls are to add. -/
def enqueued : List QueueOp → List Message
  | [] => []
  | .enqueue msg :: ops => msg :: enqueued ops
  | .dequeue :: ops => enqueued ops

/-- How many messages the calls are to take. -/
def dequeues : List QueueOp → Nat
  | [] => 0
  | .enqueue _ :: ops => dequeues ops
  | .dequeue :: ops => dequeues ops + 1

@[simp] theorem enqueued_append (ops ops' : List QueueOp) :
    enqueued (ops ++ ops') = enqueued ops ++ enqueued ops' := by
  induction ops with
  | nil => simp [enqueued]
  | cons op ops ih => cases op <;> simp [enqueued, ih]

@[simp] theorem dequeues_append (ops ops' : List QueueOp) :
    dequeues (ops ++ ops') = dequeues ops + dequeues ops' := by
  induction ops with
  | nil => simp [dequeues]
  | cons op ops ih =>
    cases op
    · simp [dequeues, ih]
    · simp [dequeues, ih]
      omega

/-- The program's queue is that of the calls made so far by one caller, and each of them
succeeded. -/
structure Serial (ops : List QueueOp) (s : State) : Prop where
  accounted : Accounted s
  queue_eq : s.queue = (Session.run ops).queue
  sent_eq : s.sent = (Session.run ops).accepted
  none_refused : (Session.run ops).accepted = enqueued ops
  none_null : (Session.run ops).returned.length = dequeues ops

theorem Session.run_append (ops : List QueueOp) (op : QueueOp) :
    Session.run (ops ++ [op]) = (Session.run ops).step op := by
  simp [Session.run]

theorem init_serial : Serial [] State.init where
  accounted := init_accounted
  queue_eq := rfl
  sent_eq := rfl
  none_refused := rfl
  none_null := rfl

section

variable {ops : List QueueOp} {s s' : State}

theorem Serial.same (hi : Serial ops s) (ha : Accounted s') (hq : s'.queue = s.queue)
    (hsent : s'.sent = s.sent) : Serial (ops ++ []) s' := by
  rw [List.append_nil]
  exact ⟨ha, hq.trans hi.queue_eq, hsent.trans hi.sent_eq, hi.none_refused, hi.none_null⟩

theorem Serial.enqueue (hi : Serial ops s) (ha : Accounted s') {msg : Message}
    (hroom : s.queue.freeSpace ≠ 0) (hq : s'.queue = Osisp.Lab4.enqueue s.queue msg)
    (hsent : s'.sent = s.sent ++ [msg]) : Serial (ops ++ [.enqueue msg]) s' := by
  have hfree : 0 < (Session.run ops).queue.freeSpace := by
    rw [← hi.queue_eq]
    omega
  have hacc : (Session.run (ops ++ [.enqueue msg])).accepted =
      (Session.run ops).accepted ++ [msg] := by
    simp [Session.run_append, Session.step, hfree]
  refine ⟨ha, ?_, ?_, ?_, ?_⟩
  · simp [Session.run_append, Session.step, hq, hi.queue_eq]
  · rw [hsent, hacc, hi.sent_eq]
  · rw [hacc, hi.none_refused]
    simp [enqueued]
  · simp [Session.run_append, Session.step, dequeues, hi.none_null]

theorem Serial.dequeue (hi : Serial ops s) (ha : Accounted s')
    (hitem : s.queue.count ≠ 0) (hq : s'.queue = (Osisp.Lab4.dequeue s.queue).2)
    (hsent : s'.sent = s.sent) : Serial (ops ++ [.dequeue]) s' := by
  have hcount : (Session.run ops).queue.count ≠ 0 := by
    rw [← hi.queue_eq]
    exact hitem
  have hcell : (Osisp.Lab4.dequeue (Session.run ops).queue).1 =
      some (Session.run ops).queue.head := by
    rw [Osisp.Lab4.dequeue, if_neg hcount]
  refine ⟨ha, ?_, ?_, ?_, ?_⟩
  · simp [Session.run_append, Session.step, hq, hi.queue_eq]
  · simp [Session.run_append, Session.step, hsent, hi.sent_eq]
  · simp [Session.run_append, Session.step, enqueued, hi.none_refused]
  · simp [Session.run_append, Session.step, dequeues, hi.none_null, hcell]

end

/-- Only the call touches the queue. -/
theorem processStep_queue {s s' : State} {p : Nat} {pr : Process} {rand : Nat → Nat}
    (h : processStep s p pr rand = some s') (hpc : pr.pc ≠ .call) :
    s'.queue = s.queue ∧ s'.sent = s.sent := by
  obtain ⟨type, pc, flag, pending, msg, slot, hash, taken⟩ := pr
  cases pc <;> simp only [processStep] at h
  case call => exact absurd rfl hpc
  case exited => cases h
  case loopTest | testMsg =>
    split_ifs at h
    all_goals
      cases h
      exact ⟨rfl, rfl⟩
  case waitFirst | waitAccess | hashType =>
    obtain ⟨x, -, rfl⟩ := Option.map_eq_some_iff.mp h
    exact ⟨rfl, rfl⟩
  case hashData i =>
    obtain ⟨cell, -, rfl⟩ := Option.map_eq_some_iff.mp h
    split_ifs <;> exact ⟨rfl, rfl⟩
  case compare =>
    obtain ⟨cell, -, h⟩ := Option.bind_eq_some_iff.mp h
    obtain ⟨t, -, rfl⟩ := Option.map_eq_some_iff.mp h
    exact ⟨rfl, rfl⟩
  all_goals
    cases h
    exact ⟨rfl, rfl⟩

/-- No handler runs in a blocked `semop`; kills are no exception. -/
def Uninterrupted (_ : State) (a : Action) : Prop := NotInterrupt a

instance (s : State) (a : Action) : Decidable (Uninterrupted s a) :=
  inferInstanceAs (Decidable (NotInterrupt a))

theorem step_serial {limit : Nat} (ops : List QueueOp) (s : State) (a : Action) (s' : State)
    (hi : Serial ops s) (hok : Uninterrupted s a) (h : (program limit).step s a = some s') :
    Serial (ops ++ queueCall s a) s' := by
  have ha : Accounted s' := step_accounted hi.accounted hok h
  cases a with
  | process p rand =>
    obtain ⟨pr, hp, hstep⟩ := Option.bind_eq_some_iff.mp h
    obtain ⟨hroom, hitem⟩ : (pr.pc = .call → pr.type = .producer → s.queue.freeSpace ≠ 0) ∧
        (pr.pc = .call → pr.type = .consumer → s.queue.count ≠ 0) :=
      ⟨fun hpc => (hi.accounted.call hp hpc).1, fun hpc => (hi.accounted.call hp hpc).2⟩
    by_cases hpc : pr.pc = .call
    · simp only [queueCall, hp, if_pos hpc]
      simp only [processStep, hpc] at hstep
      cases htype : pr.type with
      | producer =>
        have hfree := hroom hpc htype
        simp only [htype, Option.some.injEq, if_neg hfree] at hstep ⊢
        subst hstep
        exact hi.enqueue ha hfree rfl rfl
      | consumer =>
        simp only [htype, Option.some.injEq] at hstep ⊢
        subst hstep
        exact hi.dequeue ha (hitem hpc htype) rfl rfl
    · obtain ⟨hq, hsent⟩ := processStep_queue hstep hpc
      simp only [queueCall, hp, if_neg hpc]
      exact hi.same ha hq hsent
  | deliver p =>
    obtain ⟨pr, hp, hstep⟩ := Option.bind_eq_some_iff.mp h
    obtain ⟨pr', rfl, -⟩ := deliverStep_cases hstep
    exact hi.same ha rfl rfl
  | interrupt p => exact hok.elim
  | create type forked stack =>
    cases step_cases h with
    | refused hs | fork _ _ _ hs | forkFails _ _ _ hs =>
      subst hs
      exact hi.same ha rfl rfl
  | kill index =>
    cases step_cases h with
    | refused hs | kill _ _ _ _ hs =>
      subst hs
      exact hi.same ha rfl rfl
  | reap =>
    cases step_cases h with
    | refused hs | reap _ _ _ _ _ _ hs =>
      subst hs
      exact hi.same ha rfl rfl

theorem run_serial {limit : Nat} {s : State} (as : List Action)
    (hok : (program limit).Along Uninterrupted State.init as)
    (h : (program limit).run .init as = some s) :
    Serial ((program limit).history queueCall .init as) s :=
  System.run_history step_serial init_serial as hok h

/-- The queue is the ring of what the calls added, and what the calls took is its oldest part. -/
structure InOrder (ops : List QueueOp) (s : State) : Prop where
  ring : RingOf (enqueued ops) s.queue
  sent_eq : s.sent = enqueued ops
  returned_eq : (Session.run ops).returned = (enqueued ops).take (dequeues ops)
  length_eq : (enqueued ops).length = dequeues ops + s.queue.count
  count_le : s.queue.count ≤ queueSize

theorem Serial.inOrder {ops : List QueueOp} {s : State} (hi : Serial ops s) : InOrder ops s := by
  obtain ⟨l, hk⟩ : ∃ l, (Session.run ops).Keeps l := Session.run_keeps ops Session.init_keeps
  have hring : RingOf (enqueued ops) s.queue := by
    rw [← hi.none_refused, hi.queue_eq]
    exact hk.ring
  have hremoved : s.queue.removedCount = dequeues ops := by
    rw [hi.queue_eq, hk.removed, ← hk.returned, hi.none_null]
  have hprefix := hk.fifo.returned_isPrefix
  have hlength := hring.removed
  have hsum := hring.sum_eq
  refine ⟨hring, hi.sent_eq.trans hi.none_refused, ?_, ?_, ?_⟩
  · rw [← hi.none_refused, ← hi.none_null]
    exact List.prefix_iff_eq_take.mp hprefix
  · rw [← hlength, hremoved]
  · omega

/-- Some calls by one caller lead to the queue of the state. -/
def Serialised (s : State) : Prop := ∃ ops, Serial ops s

theorem reach_serialised {limit : Nat} {s : State}
    (h : (program limit).Reach (fun _ a => NotInterrupt a) s) : Serialised s := by
  refine h.invariant ⟨[], init_serial⟩ ?_
  intro s a t hi hg ht
  obtain ⟨ops, hi⟩ := hi
  exact ⟨_, step_serial ops s a t hi hg ht⟩

theorem reach_ringOf {limit : Nat} {s : State}
    (h : (program limit).Reach (fun _ a => NotInterrupt a) s) : RingOf s.sent s.queue := by
  obtain ⟨ops, hi⟩ := reach_serialised h
  rw [hi.inOrder.sent_eq]
  exact hi.inOrder.ring

/-- Wherever processes are killed, no call fails, and the messages leave in the order in which
they were added, none of them lost or taken twice. -/
theorem delivered_in_order {limit : Nat} {s : State} (as : List Action)
    (hok : (program limit).Along Uninterrupted State.init as)
    (h : (program limit).run .init as = some s) :
    InOrder ((program limit).history queueCall .init as) s :=
  (run_serial as hok h).inOrder

/-- A producer adds a message and is killed; a consumer takes the message. -/
def producerKilled : List Action :=
  [.create .producer true .zero, .create .consumer true .zero] ++
    List.replicate 6 (.process 0 id) ++ [.kill 0, .deliver 0] ++
    List.replicate 4 (.process 0 id) ++ [.reap] ++ List.replicate 5 (.process 1 id)

theorem delivered_in_order_killed :
    ∃ s, InOrder ((program 100).history queueCall .init producerKilled) s := by
  obtain ⟨s, hs⟩ := Option.isSome_iff_exists.mp
    (show ((program 100).run .init producerKilled).isSome = true by decide)
  exact ⟨s, delivered_in_order producerKilled (by decide) hs⟩

end Osisp.Lab4
