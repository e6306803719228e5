import Mathlib.Data.Set.List
import Osisp.Lab5.QueueFifo

namespace Osisp.Lab5

open MessageQueue Osisp.Lib

variable {α : Type*}

namespace MessageQueue

/-- The ring in memory: `len` messages in the slots from `head` on, `NULL` in all others,
and `tail` on the last message. -/
structure WellFormed (q : MessageQueue α) : Prop where
  allocated : q.messages.length = q.maxLen
  head_lt : q.head < q.maxLen
  len_pos : 1 ≤ q.len
  len_le : q.len ≤ q.maxLen
  tail_eq : q.tail = (q.head + q.len - 1) % q.maxLen
  occupied : ∀ k, k < q.maxLen → ((q.cell ((q.head + k) % q.maxLen)).isSome ↔ k < q.len)

/-- The slots from `head` on, `len` of them. -/
def content (q : MessageQueue α) : List (Option α) :=
  (List.range q.len).map fun k => q.cell ((q.head + k) % q.maxLen)

theorem WellFormed.tail_slot {q : MessageQueue α} (h : q.WellFormed) :
    q.tail = slot q.maxLen q.head (q.len - 1) := by
  have hpos := h.len_pos
  rw [h.tail_eq, slot, Nat.add_sub_assoc hpos]

theorem WellFormed.tail_lt {q : MessageQueue α} (h : q.WellFormed) : q.tail < q.maxLen := by
  rw [h.tail_eq]
  exact Nat.mod_lt _ (Nat.zero_lt_of_lt h.head_lt)

theorem WellFormed.exists_items {q : MessageQueue α} (h : q.WellFormed) :
    ∃ items : List α, items.map some = q.content := by
  rw [← Set.mem_range, Set.range_list_map]
  intro x hx
  obtain ⟨k, hk, rfl⟩ := List.mem_map.mp hx
  have hlt : k < q.len := List.mem_range.mp hk
  obtain ⟨m, hm⟩ := Option.isSome_iff_exists.mp
    ((h.occupied k (Nat.lt_of_lt_of_le hlt h.len_le)).mpr hlt)
  exact ⟨m, hm.symm⟩

end MessageQueue

namespace MessageQueue

def clearFault (q : MessageQueue α) : MessageQueue α := { q with fault := false }

end MessageQueue

theorem MessageQueue.WellFormed.represents {q : MessageQueue α} (h : q.WellFormed) :
    ∃ f : BoundedFifo α, Represents q.clearFault f ∧ f.items ≠ [] ∧
      f.items.map some = q.content := by
  obtain ⟨items, hitems⟩ := h.exists_items
  have hlen : items.length = q.len := by
    rw [← List.length_map (f := some), hitems, content, List.length_map, List.length_range]
  have hne : items ≠ [] := by
    intro hnil
    have hpos := h.len_pos
    rw [← hlen, hnil] at hpos
    exact absurd hpos (Nat.not_succ_le_zero 0)
  -- the window of the ring shows the items and then `NULL`
  have hwindow : Window q.maxLen q.head q.maxLen q.cell (fun k => items[k]?) := by
    intro k hk
    by_cases hlt : k < q.len
    · have hget := congrArg (fun l => l[k]?) hitems
      simp only [content, List.getElem?_map, List.getElem?_range hlt, Option.map_some,
        List.getElem?_eq_getElem (hlen ▸ hlt), Option.some.injEq] at hget
      simp only [List.getElem?_eq_getElem (hlen ▸ hlt)]
      exact hget.symm
    · have hnone := (h.occupied k hk).not.mpr hlt
      rw [Bool.not_eq_true, Option.isSome_eq_false_iff, Option.isNone_iff_eq_none] at hnone
      simp only [List.getElem?_eq_none (show items.length ≤ k by omega)]
      exact hnone
  refine ⟨⟨items, q.maxLen, by rw [hlen]; exact h.len_le⟩, ?_, hne, hitems⟩
  refine ⟨rfl, h.allocated, rfl, hlen.symm, fun _ => ⟨h.head_lt, hwindow, ?_⟩,
    fun hnil => absurd hnil hne⟩
  change q.tail = slot q.maxLen q.head (items.length - 1)
  rw [hlen]
  exact h.tail_slot

theorem Represents.wellFormed {q : MessageQueue α} {f : BoundedFifo α}
    (hr : Represents q.clearFault f) (hne : f.items ≠ []) :
    q.WellFormed ∧ q.content = f.items.map some := by
  have hb := hr.busy hne
  have hlen : q.len = f.items.length := hr.len_eq
  have hpos : 0 < f.items.length := List.length_pos_of_ne_nil hne
  have hfits : f.items.length ≤ q.maxLen := by
    have hcap : q.maxLen = f.capacity := hr.maxLen_eq
    rw [hcap]
    exact f.fits
  have hview : ∀ k, k < q.maxLen → q.cell ((q.head + k) % q.maxLen) = f.items[k]? := hb.window
  refine ⟨⟨hr.allocated, hb.head_lt, by omega, by omega, ?_, ?_⟩, ?_⟩
  · have ht : q.tail = slot q.maxLen q.head (f.items.length - 1) := hb.tail_eq
    rw [ht, slot, hlen, Nat.add_sub_assoc hpos]
  · intro k hk
    rw [hview k hk, hlen]
    exact iff_of_eq (isSome_getElem? f.items k)
  · apply List.ext_getElem?
    intro k
    rw [content, List.getElem?_map, List.getElem?_map]
    by_cases hk : k < q.len
    · rw [List.getElem?_range hk, Option.map_some, hview k (by omega),
        List.getElem?_eq_getElem (hlen ▸ hk)]
      rfl
    · rw [List.getElem?_eq_none (by simpa using hk), List.getElem?_eq_none (by omega)]
      rfl

theorem copy_clearFault (q : MessageQueue α) (i j : Nat) :
    (q.clearFault.copy i j).clearFault = (q.copy i j).clearFault := rfl

theorem shiftUp_clearFault (q : MessageQueue α) (head n : Nat) :
    (shiftUp q.clearFault head n).clearFault = (shiftUp q head n).clearFault := by
  induction n generalizing q with
  | zero => rfl
  | succ n ih =>
    simp only [shiftUp]
    split_ifs
    · rw [← ih (q.clearFault.copy (n + 1) n), copy_clearFault, ih]
    · rfl

theorem shiftDown_clearFault (q : MessageQueue α) (i n : Nat) :
    (shiftDown q.clearFault i n).clearFault = (shiftDown q i n).clearFault := by
  induction n generalizing q i with
  | zero => rfl
  | succ n ih =>
    simp only [shiftDown]
    rw [← ih (q.clearFault.copy (i - 1) i), copy_clearFault, ih]

theorem queueExpand_clearFault (q : MessageQueue α) :
    (queueExpand q.clearFault).clearFault = (queueExpand q).clearFault := by
  by_cases hw : q.tail < q.head
  · rw [queueExpand_of_lt hw, queueExpand_of_lt (q := q.clearFault) hw]
    exact congrArg (fun s => ({ s.store q.head none with head := q.head + 1 }).clearFault)
      (shiftUp_clearFault ({ q with maxLen := q.maxLen + 1 }.realloc (q.maxLen + 1)) q.head
        q.maxLen)
  · rw [queueExpand_of_le (Nat.le_of_not_lt hw),
      queueExpand_of_le (q := q.clearFault) (Nat.le_of_not_lt hw)]
    rfl

theorem queueReduceTo_clearFault (minLen : Nat) (q : MessageQueue α) :
    (queueReduceTo minLen q.clearFault).clearFault = (queueReduceTo minLen q).clearFault := by
  by_cases hrefuse : q.len = q.maxLen ∨ q.maxLen = minLen
  · rw [queueReduceTo_refused hrefuse, queueReduceTo_refused (q := q.clearFault) hrefuse]
    rfl
  obtain ⟨hl, hm⟩ := not_or.mp hrefuse
  by_cases hw : q.tail < q.head
  · rw [queueReduceTo_of_lt hl hm hw, queueReduceTo_of_lt (q := q.clearFault) hl hm hw]
    exact congrArg (fun s => ({ s.store (q.maxLen - 1) none with
      head := q.head - 1, maxLen := q.maxLen - 1 }.realloc (q.maxLen - 1)).clearFault)
      (shiftDown_clearFault q q.head (q.maxLen - q.head))
  · rw [queueReduceTo_of_le hl hm (Nat.le_of_not_lt hw),
      queueReduceTo_of_le (q := q.clearFault) hl hm (Nat.le_of_not_lt hw)]
    rfl

theorem Represents.clear {q : MessageQueue α} {f : BoundedFifo α} (hr : Represents q f) :
    Represents q.clearFault f :=
  ⟨rfl, hr.allocated, hr.maxLen_eq, hr.len_eq,
    fun h => ⟨(hr.busy h).head_lt, (hr.busy h).window, (hr.busy h).tail_eq⟩,
    fun h => ⟨(hr.idle h).cells, (hr.idle h).head_lt⟩⟩

/-- `queue_expand` keeps a well-formed ring well formed, with one free slot more and every
message where the order wants it. -/
theorem queueExpand_content {q : MessageQueue α} (h : q.WellFormed) :
    (queueExpand q).WellFormed ∧ (queueExpand q).maxLen = q.maxLen + 1 ∧
    (queueExpand q).len = q.len ∧ (queueExpand q).content = q.content := by
  obtain ⟨f, hr, hne, hitems⟩ := h.represents
  have hr' : Represents (queueExpand q).clearFault f.grow := by
    have hx := queueExpand_represents hr
    rw [← queueExpand_clearFault]
    exact hx.clear
  obtain ⟨hwf, hcontent⟩ := hr'.wellFormed hne
  refine ⟨hwf, queueExpand_maxLen q, queueExpand_len q, ?_⟩
  rw [hcontent, ← hitems]
  rfl

theorem queueExpand_content_wrapped :
    (queueExpand (⟨1, 0, 2, 2, [some 2, some 1], false⟩ : MessageQueue Nat)).WellFormed ∧
    (queueExpand (⟨1, 0, 2, 2, [some 2, some 1], false⟩ : MessageQueue Nat)).maxLen = 2 + 1 ∧
    (queueExpand (⟨1, 0, 2, 2, [some 2, some 1], false⟩ : MessageQueue Nat)).len = 2 ∧
    (queueExpand (⟨1, 0, 2, 2, [some 2, some 1], false⟩ : MessageQueue Nat)).content =
      [some 1, some 2] :=
  queueExpand_content ⟨rfl, by decide, by decide, by decide, rfl, by decide⟩

/-- What `queue_reduce` owes to a well-formed ring with a free slot. -/
def ReduceKeeps (copy : Copy) (q : MessageQueue α) : Prop :=
  (queueReduce copy q).WellFormed ∧ (queueReduce copy q).maxLen + 1 = q.maxLen ∧
    (queueReduce copy q).content = q.content

/-- `queue_reduce` keeps the content exactly when `tail` is not on the last slot: with
`head <= tail` the code gives that slot back without a look at what is in it. -/
theorem queueReduce_keeps_iff (copy : Copy) {q : MessageQueue α} (h : q.WellFormed)
    (hfree : q.len < q.maxLen) : ReduceKeeps copy q ↔ q.tail + 1 ≠ q.maxLen := by
  have hpos := h.len_pos
  have hmin : copy.minLen ≤ 1 := by cases copy <;> decide
  have hmax : (queueReduce copy q).maxLen = q.maxLen - 1 := by
    rw [queueReduce_maxLen, if_neg (by omega)]
  constructor
  · intro hk hlast
    -- `tail` is not moved, so it stands outside the smaller ring
    have hhead := h.head_lt
    have htail : (queueReduce copy q).tail = q.tail := by
      rw [queueReduce_eq]
      exact (queueReduceTo_cut (by omega) (by omega) (by omega)).2.2.1
    have hlt := hk.1.tail_lt
    rw [htail, hmax] at hlt
    omega
  · intro hlast
    obtain ⟨f, hr, hne, hitems⟩ := h.represents
    have hr' : Represents (queueReduce copy q).clearFault (f.shrink copy.minLen) := by
      rw [queueReduce_eq, ← queueReduceTo_clearFault]
      exact (queueReduceTo_represents copy.minLen hr fun _ _ _ => hlast).clear
    obtain ⟨hwf, hcontent⟩ := hr'.wellFormed (by rwa [BoundedFifo.shrink_items])
    refine ⟨hwf, by rw [hmax]; omega, ?_⟩
    rw [hcontent, BoundedFifo.shrink_items, hitems]

theorem queueReduce_keeps_iff_gap :
    ReduceKeeps .lab51 (⟨0, 0, 1, 2, [some 1, none], false⟩ : MessageQueue Nat) ↔ 0 + 1 ≠ 2 :=
  queueReduce_keeps_iff .lab51 ⟨rfl, by decide, by decide, by decide, rfl, by decide⟩ (by decide)

/-- One message in the last of two slots: the reduction cuts the message off. -/
theorem queueReduce_last_lost :
    (¬∀ q : MessageQueue Nat, q.WellFormed → q.len < q.maxLen → ReduceKeeps .lab51 q) ∧
    ¬∀ q : MessageQueue Nat, q.WellFormed → q.len < q.maxLen → ReduceKeeps .lab52 q := by
  constructor <;> intro h
  all_goals
    have hk := h ⟨1, 1, 1, 2, [none, some 7], false⟩
      ⟨rfl, by decide, by decide, by decide, rfl, by decide⟩ (by decide)
    exact absurd hk.2.2 (by decide)

end Osisp.Lab5
