import Osisp.Lab5.QueueFifo

namespace Osisp.Lab5

open MessageQueue

variable {α : Type*}

/-- Both indices are cells of the array, or the array has no cell and both are back at 0. -/
structure Indexed (q : MessageQueue α) : Prop where
  allocated : q.messages.length = q.maxLen
  len_le : q.len ≤ q.maxLen
  head_lt : q.head < q.maxLen ∨ (q.maxLen = 0 ∧ q.head = 0)
  tail_lt : q.tail < q.maxLen ∨ (q.maxLen = 0 ∧ q.tail = 0)

theorem queueInit_indexed : Indexed (queueInit : MessageQueue α) where
  allocated := by simp [queueInit]
  len_le := Nat.zero_le _
  head_lt := .inl (Nat.succ_pos 9)
  tail_lt := .inl (Nat.succ_pos 9)

theorem Indexed.pushCell_lt {q : MessageQueue α} (hi : Indexed q) (h : q.len < q.maxLen) :
    pushCell q < q.maxLen := by
  unfold pushCell
  split_ifs
  · exact Nat.mod_lt _ (by omega)
  · have ht := hi.tail_lt
    omega

theorem queuePush_indexed {q : MessageQueue α} (hi : Indexed q) (m : α) :
    Indexed (queuePush (some m) q) ∧ (queuePush (some m) q).fault = q.fault := by
  by_cases h : q.len < q.maxLen
  · have hlt := hi.pushCell_lt h
    have hcell : pushCell q < q.messages.length := by rwa [hi.allocated]
    rw [queuePush_accepted m h]
    refine ⟨⟨by simpa using hi.allocated, h, hi.head_lt, .inl hlt⟩, ?_⟩
    exact store_fault (q := { q with tail := pushCell q }) (some m) hcell
  · rw [queuePush_refused (some m) (Nat.le_of_not_lt h)]
    exact ⟨hi, rfl⟩

theorem queuePop_indexed {q : MessageQueue α} (hi : Indexed q) :
    Indexed (queuePop q).2 ∧ (queuePop q).2.fault = q.fault := by
  by_cases h0 : q.len = 0
  · rw [queuePop, if_pos h0]
    exact ⟨hi, rfl⟩
  · have hle := hi.len_le
    have hh : q.head < q.messages.length := by
      have hlt := hi.head_lt
      rw [hi.allocated]
      omega
    have hq : (queuePop q).2 =
        { q.store q.head none with head := (q.head + 1) % q.maxLen, len := q.len - 1 } := by
      simp only [queuePop, if_neg h0, store_head, store_maxLen, store_len]
    rw [hq]
    refine ⟨⟨by simpa using hi.allocated, ?_, ?_, hi.tail_lt⟩, store_fault none hh⟩
    · exact Nat.le_trans (Nat.sub_le _ _) hle
    · exact .inl (Nat.mod_lt _ (by omega))

theorem queueExpand_indexed {q : MessageQueue α} (hi : Indexed q) :
    Indexed (queueExpand q) ∧ (queueExpand q).fault = q.fault := by
  have hhead := hi.head_lt
  have htail := hi.tail_lt
  have hle := hi.len_le
  by_cases hw : q.tail < q.head
  · obtain ⟨hf, hh, ht, hl, _⟩ := queueExpand_wrapped hi.allocated hw (by omega)
    refine ⟨⟨?_, ?_, .inl ?_, .inl ?_⟩, hf⟩ <;>
      simp only [queueExpand_maxLen, queueExpand_len, hh, ht, hl] <;> omega
  · obtain ⟨hf, hh, ht, hl, _⟩ := queueExpand_appended (Nat.le_of_not_lt hw)
    refine ⟨⟨?_, ?_, .inl ?_, .inl ?_⟩, hf⟩ <;>
      simp only [queueExpand_maxLen, queueExpand_len, hh, ht, hl] <;> omega

def QueueOp.isReduce : QueueOp α → Bool
  | .reduce => true
  | .push _ | .pop | .expand => false

/-- The reduction does not take away the cell `tail` stands on. -/
def TailStays (q : MessageQueue α) : Prop :=
  q.len < q.maxLen → 1 < q.maxLen → q.tail + 1 ≠ q.maxLen

theorem queueReduce_indexed {copy : Copy} {q : MessageQueue α} (hi : Indexed q)
    (hs : TailStays q) :
    Indexed (queueReduce copy q) ∧ (queueReduce copy q).fault = q.fault := by
  rw [queueReduce_eq]
  by_cases hrefuse : q.len = q.maxLen ∨ q.maxLen = copy.minLen
  · rw [queueReduceTo_refused hrefuse]
    exact ⟨hi, rfl⟩
  obtain ⟨hl, hm⟩ := not_or.mp hrefuse
  have hmax : (queueReduceTo copy.minLen q).maxLen = q.maxLen - 1 := by
    rw [queueReduceTo_maxLen, if_neg hrefuse]
  have hhead := hi.head_lt
  have htail := hi.tail_lt
  have hle := hi.len_le
  have hstay := hs (by omega)
  by_cases hw : q.tail < q.head
  · obtain ⟨hf, hh, ht, hla, _⟩ := queueReduceTo_wrapped hi.allocated hl hm hw (by omega)
    refine ⟨⟨?_, ?_, .inl ?_, .inl ?_⟩, hf⟩ <;>
      simp only [hmax, queueReduceTo_len, hh, ht, hla] <;> omega
  · obtain ⟨hf, hh, ht, hla, _⟩ := queueReduceTo_cut hl hm (Nat.le_of_not_lt hw)
    refine ⟨⟨?_, ?_, ?_, ?_⟩, hf⟩ <;>
      simp only [hmax, queueReduceTo_len, hh, ht, hla] <;> omega

namespace Session

/-- Every reduction of the list leaves the cell of `tail` in the array. -/
def TailStaysRun (copy : Copy) : Session α → List (QueueOp α) → Prop
  | _, [] => True
  | s, op :: ops =>
    (op.isReduce → TailStays s.queue) ∧ TailStaysRun copy (s.step copy op) ops

theorem step_indexed {copy : Copy} {s : Session α} (hi : Indexed s.queue) {op : QueueOp α}
    (hs : op.isReduce → TailStays s.queue) :
    Indexed (s.step copy op).queue ∧ (s.step copy op).queue.fault = s.queue.fault := by
  cases op with
  | push m => exact queuePush_indexed hi m
  | pop => exact queuePop_indexed hi
  | expand => exact queueExpand_indexed hi
  | reduce => exact queueReduce_indexed hi (hs rfl)

theorem run_indexed {copy : Copy} (ops : List (QueueOp α)) {s : Session α}
    (hi : Indexed s.queue) (hs : TailStaysRun copy s ops) :
    Indexed (ops.foldl (step copy) s).queue ∧
      (ops.foldl (step copy) s).queue.fault = s.queue.fault := by
  induction ops generalizing s with
  | nil => exact ⟨hi, rfl⟩
  | cons op ops ih =>
    obtain ⟨hi', hf'⟩ := step_indexed hi hs.1
    obtain ⟨hr, hf⟩ := ih hi' hs.2
    exact ⟨hr, hf.trans hf'⟩

theorem tailStaysRun_of_noReduce {copy : Copy} (ops : List (QueueOp α)) {s : Session α}
    (h : ∀ op ∈ ops, op.isReduce = false) : TailStaysRun copy s ops := by
  induction ops generalizing s with
  | nil => trivial
  | cons op ops ih =>
    rw [List.forall_mem_cons] at h
    exact ⟨fun hr => absurd hr (by simp [h.1]), ih h.2⟩

/-- Popping all messages leaves `tail` where it is. -/
theorem drain_frame (copy : Copy) (n : Nat) (s : Session α) (hn : s.queue.len = n) :
    ((List.replicate n .pop).foldl (step copy) s).queue.len = 0 ∧
    ((List.replicate n .pop).foldl (step copy) s).queue.tail = s.queue.tail ∧
    ((List.replicate n .pop).foldl (step copy) s).queue.maxLen = s.queue.maxLen ∧
    ((List.replicate n .pop).foldl (step copy) s).queue.messages.length =
      s.queue.messages.length := by
  induction n generalizing s with
  | zero => exact ⟨hn, rfl, rfl, rfl⟩
  | succ n ih =>
    have hpop : (queuePop s.queue).2.tail = s.queue.tail ∧
        (queuePop s.queue).2.messages.length = s.queue.messages.length := by
      simp [queuePop, hn]
    obtain ⟨hl, ht, hm, ha⟩ := ih (s.step copy .pop) (by simp [step, hn])
    rw [List.replicate_succ, List.foldl_cons]
    exact ⟨hl, ht.trans hpop.1, hm.trans (queuePop_maxLen _), ha.trans hpop.2⟩

/-- Once a reduction has cut off the cell of `tail`, draining the queue and pushing again
writes outside the array. -/
theorem reduce_then_refill (copy : Copy) (m : α) {s : Session α} (hi : Indexed s.queue)
    (hcut : ¬TailStays s.queue) :
    ((QueueOp.reduce :: (List.replicate s.queue.len .pop ++ [.push m])).foldl
      (step copy) s).queue.fault = true := by
  obtain ⟨hfree, hone, hlast⟩ : s.queue.len < s.queue.maxLen ∧ 1 < s.queue.maxLen ∧
      s.queue.tail + 1 = s.queue.maxLen := by
    simpa only [TailStays, Classical.not_imp, not_not] using hcut
  have hhead := hi.head_lt
  have hmin : copy.minLen ≤ 1 := by cases copy <;> decide
  -- the reduction gives back the last cell and leaves the rest as it is
  have hmax : (queueReduce copy s.queue).maxLen = s.queue.maxLen - 1 := by
    rw [queueReduce_maxLen, if_neg (by omega)]
  obtain ⟨-, -, htail, halloc, -⟩ := queueReduceTo_cut (q := s.queue) (by omega)
    (by omega : s.queue.maxLen ≠ copy.minLen) (by omega)
  rw [← queueReduce_eq] at htail halloc
  obtain ⟨hl, ht, hm, ha⟩ := drain_frame copy s.queue.len (s.step copy .reduce)
    (queueReduce_len copy s.queue)
  rw [List.foldl_cons, List.foldl_append]
  let d := (List.replicate s.queue.len .pop).foldl (step copy) (s.step copy .reduce)
  have hpush : d.queue.len < d.queue.maxLen := by
    rw [hl, hm]
    change 0 < (queueReduce copy s.queue).maxLen
    omega
  have hout : d.queue.messages.length ≤ pushCell d.queue := by
    rw [pushCell, if_neg (not_not.mpr hl), ha, ht]
    change (queueReduce copy s.queue).messages.length ≤ (queueReduce copy s.queue).tail
    omega
  change (queuePush (some m) d.queue).fault = true
  rw [queuePush_accepted m hpush]
  simp [store, touch, hout]

theorem tailStaysRun_append {copy : Copy} (ops rest : List (QueueOp α)) {s : Session α} :
    TailStaysRun copy s (ops ++ rest) ↔
      TailStaysRun copy s ops ∧ TailStaysRun copy (ops.foldl (step copy) s) rest := by
  induction ops generalizing s with
  | nil => exact (and_iff_right trivial).symm
  | cons op ops ih =>
    rw [List.cons_append, TailStaysRun, TailStaysRun, ih, List.foldl_cons, and_assoc]

/-- In a run whose reductions never cut off the cell of `tail` every access is inside the
array, and a further reduction stays harmless, whatever calls without reductions come after
it, exactly when it does not cut that cell off either. -/
theorem inside_of_tailStaysRun [Nonempty α] (copy : Copy) (ops : List (QueueOp α))
    (hs : TailStaysRun copy init ops) :
    (run copy ops).queue.fault = false ∧
    ((∀ rest : List (QueueOp α), (∀ op ∈ rest, op.isReduce = false) →
        (run copy (ops ++ .reduce :: rest)).queue.fault = false) ↔
      TailStays (run copy ops).queue) := by
  obtain ⟨hi, hf⟩ := run_indexed ops queueInit_indexed hs
  refine ⟨hf, ?_, ?_⟩
  · intro hall
    by_contra hcut
    obtain ⟨m⟩ := ‹Nonempty α›
    have hrest := hall (List.replicate (run copy ops).queue.len .pop ++ [.push m]) (by
      intro op hop
      rcases List.mem_append.mp hop with hp | hp
      · rw [List.eq_of_mem_replicate hp]
        rfl
      · rw [List.mem_singleton.mp hp]
        rfl)
    rw [run, List.foldl_append] at hrest
    have hfault := reduce_then_refill copy m (s := run copy ops) hi hcut
    exact absurd (hrest.symm.trans hfault) (by decide)
  · intro hstay rest hrest
    have hrun : TailStaysRun copy init (ops ++ .reduce :: rest) :=
      (tailStaysRun_append ops _).mpr ⟨hs, fun _ => hstay, tailStaysRun_of_noReduce rest hrest⟩
    exact (run_indexed _ queueInit_indexed hrun).2

instance (q : MessageQueue α) : Decidable (TailStays q) :=
  inferInstanceAs (Decidable (q.len < q.maxLen → 1 < q.maxLen → q.tail + 1 ≠ q.maxLen))

instance decidableTailStaysRun (copy : Copy) :
    ∀ (s : Session α) (ops : List (QueueOp α)), Decidable (TailStaysRun copy s ops)
  | _, [] => isTrue trivial
  | s, op :: ops =>
    have := decidableTailStaysRun copy (s.step copy op) ops
    inferInstanceAs (Decidable ((op.isReduce → TailStays s.queue) ∧ _))

theorem inside_of_tailStaysRun_shrunk :
    (run .lab51 [.push 1, .pop, .reduce, .push 2]).queue.fault = false ∧
    ((∀ rest : List (QueueOp Nat), (∀ op ∈ rest, op.isReduce = false) →
        (run .lab51 ([.push 1, .pop, .reduce, .push 2] ++ .reduce :: rest)).queue.fault =
          false) ↔
      TailStays (run .lab51 [.push 1, .pop, .reduce, .push 2]).queue) :=
  inside_of_tailStaysRun .lab51 _ (by decide)

/-- Ten pushes and ten pops leave `tail` on `messages[9]`; a reduction takes that cell away
and the next push writes it. -/
theorem push_outside :
    (¬∀ ops : List (QueueOp Nat), (run .lab51 ops).queue.fault = false) ∧
    ¬∀ ops : List (QueueOp Nat), (run .lab52 ops).queue.fault = false := by
  constructor <;> intro h
  all_goals
    exact absurd (h (List.replicate 10 (.push 1) ++ List.replicate 10 .pop ++
      [.reduce, .push 2])) (by decide)

end Session

end Osisp.Lab5
