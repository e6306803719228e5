import Osisp.Lib.BoundedFifo
import Osisp.Lab5.QueueRing

namespace Osisp.Lab5

open MessageQueue Osisp.Lib

variable {α : Type*}

/-- A ring with messages in it: from `head` on the cells show `items` and then `NULL`s,
and `tail` is the cell of the last message. -/
structure Busy (q : MessageQueue α) (items : List α) : Prop where
  head_lt : q.head < q.maxLen
  window : Window q.maxLen q.head q.maxLen q.cell (fun k => items[k]?)
  tail_eq : q.tail = slot q.maxLen q.head (items.length - 1)

/-- An empty ring: `head` and `tail` are left where they were, and reductions may leave
them outside the array. -/
structure Idle (q : MessageQueue α) : Prop where
  cells : ∀ i, q.cell i = none
  head_lt : q.tail < q.head → q.head < q.maxLen

/-- The queue in memory stands for the bounded FIFO `f`. -/
structure Represents (q : MessageQueue α) (f : BoundedFifo α) : Prop where
  noFault : q.fault = false
  allocated : q.messages.length = q.maxLen
  maxLen_eq : q.maxLen = f.capacity
  len_eq : q.len = f.items.length
  busy : f.items ≠ [] → Busy q f.items
  idle : f.items = [] → Idle q

theorem queueInit_represents : Represents (queueInit : MessageQueue α) (.empty queueBaseSize) where
  noFault := rfl
  allocated := by simp [queueInit]
  maxLen_eq := rfl
  len_eq := rfl
  busy h := absurd rfl h
  idle _ :=
    { cells := fun i => by
        simp only [cell, queueInit, List.getElem?_replicate]
        split_ifs <;> rfl
      head_lt := fun h => absurd h (Nat.lt_irrefl 0) }

theorem append_view (items : List α) (m : α) :
    (fun k => (items ++ [m])[k]?) =
      Function.update (fun k => items[k]?) items.length (some m) := by
  funext k
  rcases Nat.lt_trichotomy k items.length with h | h | h
  · rw [Function.update_of_ne (by omega), List.getElem?_append_left h]
  · subst h
    simp
  · rw [Function.update_of_ne (by omega), List.getElem?_eq_none (by simp; omega),
      List.getElem?_eq_none (by omega)]

/-- A push is sound when the queue is not empty, or when `tail` has stayed with `head`. -/
theorem queuePush_represents {q : MessageQueue α} {f : BoundedFifo α} (hr : Represents q f)
    (m : α) (hsafe : q.len = 0 → 0 < q.maxLen → q.tail = q.head ∧ q.head < q.maxLen) :
    Represents (queuePush (some m) q) (f.push m) := by
  have hlen := hr.len_eq
  have hmax := hr.maxLen_eq
  by_cases hlt : q.len < q.maxLen
  swap
  · rw [queuePush_refused (some m) (Nat.le_of_not_lt hlt), BoundedFifo.push_of_le m (by omega)]
    exact hr
  obtain ⟨hitems, hcap⟩ := BoundedFifo.push_of_lt (f := f) m (by omega)
  -- an accepted push writes the cell that follows the last message
  obtain ⟨ht, hh⟩ : pushCell q = slot q.maxLen q.head q.len ∧ q.head < q.maxLen := by
    by_cases h0 : q.len = 0
    · obtain ⟨he, hh⟩ := hsafe h0 (by omega)
      exact ⟨by rw [pushCell, if_neg (not_not.mpr h0), h0, slot_zero hh, he], hh⟩
    · have hb := hr.busy (fun h => h0 (by rw [hlen, h]; rfl))
      refine ⟨?_, hb.head_lt⟩
      rw [pushCell, if_pos h0, hb.tail_eq, slot, slot, Nat.mod_add_mod, ← hlen]
      congr 1
      omega
  have htlt : pushCell q < q.messages.length := by
    rw [ht, hr.allocated]; exact slot_lt _ _ (by omega)
  have hview : Window q.maxLen q.head q.maxLen q.cell (fun k => f.items[k]?) := by
    by_cases hne : f.items = []
    · intro k _
      rw [(hr.idle hne).cells, hne]
      rfl
    · exact (hr.busy hne).window
  rw [queuePush_accepted m hlt]
  refine ⟨?_, ?_, ?_, ?_, fun _ => ⟨hh, ?_, ?_⟩, fun h => ?_⟩
  · exact (store_fault (q := { q with tail := pushCell q }) (some m) htlt).trans hr.noFault
  · simpa using hr.allocated
  · rw [hcap]; exact hmax
  · rw [hitems, List.length_append, ← hlen]; rfl
  · have hc : ({ q with tail := pushCell q }.store (pushCell q) (some m)).cell =
        Function.update q.cell (pushCell q) (some m) :=
      store_cell (q := { q with tail := pushCell q }) (some m) htlt
    change Window q.maxLen q.head q.maxLen
      ({ q with tail := pushCell q }.store (pushCell q) (some m)).cell _
    rw [hc, hitems, append_view, ht, ← hlen]
    exact hview.write (Nat.le_refl _) hlt _
  · rw [hitems, List.length_append, ← hlen]
    exact ht
  · rw [hitems] at h
    simp at h

/-- A pop on a queue that stands for a FIFO gives the front of the FIFO. -/
theorem queuePop_represents {q : MessageQueue α} {f : BoundedFifo α} (hr : Represents q f) :
    (queuePop q).1 = f.items.head? ∧ Represents (queuePop q).2 f.pop := by
  cases hi : f.items with
  | nil =>
    have h0 : q.len = 0 := by rw [hr.len_eq, hi]; rfl
    have hpop : f.pop = f := by
      cases f
      simp only at hi
      subst hi
      rfl
    rw [hpop, queuePop, if_pos h0]
    exact ⟨rfl, hr⟩
  | cons m ms =>
    have hne : f.items ≠ [] := by rw [hi]; exact List.cons_ne_nil _ _
    have hlen : q.len = ms.length + 1 := by rw [hr.len_eq, hi]; rfl
    have h0 : q.len ≠ 0 := by omega
    have hfits : ms.length + 1 ≤ q.maxLen := by
      have hf := f.fits
      rw [hi, ← hr.maxLen_eq] at hf
      exact hf
    have hb := hr.busy hne
    have hlt : q.head < q.messages.length := by rw [hr.allocated]; exact hb.head_lt
    have hpop : f.pop.items = ms := by simp [BoundedFifo.pop, hi]
    have hq : queuePop q = (q.cell q.head,
        { q.store q.head none with head := (q.head + 1) % q.maxLen, len := q.len - 1 }) := by
      simp only [queuePop, if_neg h0, store_head, store_maxLen, store_len]
    have hfirst : q.cell q.head = some m := by
      have hw := hb.window 0 (by omega)
      rw [slot_zero hb.head_lt, hi] at hw
      exact hw
    have hcell : (q.store q.head none).cell = Function.update q.cell q.head none :=
      store_cell none hlt
    -- the window with its first cell emptied, seen from the next cell
    have hwin : Window q.maxLen ((q.head + 1) % q.maxLen) q.maxLen (q.store q.head none).cell
        (fun k => ms[k]?) := by
      have hw := hb.window.write (Nat.le_refl _) (show 0 < q.maxLen by omega) none
      rw [slot_zero hb.head_lt, ← hcell, hi] at hw
      have hrot := hw.rotate hb.head_lt (by
        rw [Function.update_of_ne (by omega), Function.update_self]
        exact List.getElem?_eq_none (by simpa using hfits))
      intro k hk
      rw [hrot k hk]
      exact Function.update_of_ne (Nat.succ_ne_zero k) _ _
    rw [hq]
    refine ⟨hfirst, ?_, ?_, ?_, ?_, fun hms => ⟨?_, ?_, ?_⟩, fun hms => ⟨?_, fun _ => ?_⟩⟩
    · exact (store_fault none hlt).trans hr.noFault
    · simpa using hr.allocated
    · exact hr.maxLen_eq
    · rw [hpop]
      change q.len - 1 = ms.length
      omega
    · exact Nat.mod_lt _ (by omega)
    · rw [hpop]
      exact hwin
    · rw [hpop] at hms ⊢
      have hpos : 0 < ms.length := List.length_pos_of_ne_nil hms
      change q.tail = slot q.maxLen ((q.head + 1) % q.maxLen) (ms.length - 1)
      rw [hb.tail_eq, slot_next, hi]
      congr 1
      simp only [List.length_cons]
      omega
    · intro i
      rw [hpop] at hms
      change (q.store q.head none).cell i = none
      by_cases hi' : i < q.maxLen
      · obtain ⟨k, hk, rfl⟩ := exists_slot (Nat.mod_lt (q.head + 1) (by omega)) hi'
        rw [hwin k hk, hms]
        rfl
      · rw [cell, List.getElem?_eq_none (by rw [store_length, hr.allocated]; omega)]
        rfl
    · exact Nat.mod_lt _ (by omega)

theorem Busy.tail_lt {q : MessageQueue α} {items : List α} (hb : Busy q items) :
    q.tail < q.maxLen := by
  rw [hb.tail_eq]
  exact slot_lt _ _ (Nat.zero_lt_of_lt hb.head_lt)

theorem Busy.unwrapped {q : MessageQueue α} {items : List α} (hb : Busy q items)
    (hne : items ≠ []) (hfits : items.length ≤ q.maxLen) (h : q.head ≤ q.tail) :
    q.head + items.length = q.tail + 1 := by
  have hpos : 0 < items.length := List.length_pos_of_ne_nil hne
  have hh := hb.head_lt
  have ht := hb.tail_eq
  by_cases hw : q.head + (items.length - 1) < q.maxLen
  · rw [slot_of_lt hw] at ht
    omega
  · rw [slot_of_le (by omega) (by omega)] at ht
    omega

/-- The memory after the branch of `queue_expand` that opens a cell in front of `head`. -/
theorem queueExpand_wrapped {q : MessageQueue α} (halloc : q.messages.length = q.maxLen)
    (hw : q.tail < q.head) (hh : q.head < q.maxLen) :
    (queueExpand q).fault = q.fault ∧ (queueExpand q).head = q.head + 1 ∧
    (queueExpand q).tail = q.tail ∧ (queueExpand q).messages.length = q.maxLen + 1 ∧
    ∀ i, (queueExpand q).cell i =
      if i < q.head then q.cell i else if i = q.head then none
      else if i ≤ q.maxLen then q.cell (i - 1) else none := by
  let r := { q with maxLen := q.maxLen + 1 }.realloc (q.maxLen + 1)
  have hlen : r.messages.length = q.maxLen + 1 := realloc_length _ _
  have hup : (shiftUp r q.head q.maxLen).messages.length = q.maxLen + 1 := by
    rw [shiftUp_length, hlen]
  have hq : queueExpand q =
      { (shiftUp r q.head q.maxLen).store q.head none with head := q.head + 1 } :=
    queueExpand_of_lt hw
  have hcell : ((shiftUp r q.head q.maxLen).store q.head none).cell =
      Function.update (shiftUp r q.head q.maxLen).cell q.head none :=
    store_cell none (by omega)
  rw [hq]
  refine ⟨?_, rfl, ?_, ?_, fun i => ?_⟩
  · change ((shiftUp r q.head q.maxLen).store q.head none).fault = q.fault
    rw [store_fault none (by omega), shiftUp_fault _ _ _ (by omega)]
    rfl
  · exact shiftUp_tail _ _ _
  · exact (store_length _ _ _).trans hup
  · change ((shiftUp r q.head q.maxLen).store q.head none).cell i = _
    have hr (j : Nat) : r.cell j = if j < q.maxLen + 1 then q.cell j else none :=
      realloc_cell { q with maxLen := q.maxLen + 1 } (q.maxLen + 1) j
    have hout : q.cell q.maxLen = none := by
      rw [cell, List.getElem?_eq_none (by omega)]; rfl
    rw [hcell]
    rcases Nat.lt_trichotomy i q.head with h | h | h
    · rw [Function.update_of_ne (by omega), shiftUp_cell _ _ _ (by omega), if_neg (by omega),
        if_pos h, hr, if_pos (by omega)]
    · subst h
      rw [Function.update_self, if_neg (by omega), if_pos rfl]
    · rw [Function.update_of_ne (by omega), shiftUp_cell _ _ _ (by omega),
        if_neg (show ¬i < q.head by omega), if_neg (show ¬i = q.head by omega)]
      by_cases hi : i ≤ q.maxLen
      · rw [if_pos ⟨h, hi⟩, if_pos hi, hr, if_pos (by omega)]
      · rw [if_neg (fun hc => hi hc.2), if_neg hi, hr, if_neg (by omega)]

/-- The memory after the branch of `queue_expand` that appends a cell. -/
theorem queueExpand_appended {q : MessageQueue α} (hw : q.head ≤ q.tail) :
    (queueExpand q).fault = q.fault ∧ (queueExpand q).head = q.head ∧
    (queueExpand q).tail = q.tail ∧ (queueExpand q).messages.length = q.maxLen + 1 ∧
    ∀ i, (queueExpand q).cell i = if i < q.maxLen then q.cell i else none := by
  let r := { q with maxLen := q.maxLen + 1 }.realloc (q.maxLen + 1)
  have hlen : r.messages.length = q.maxLen + 1 := realloc_length _ _
  have hq : queueExpand q = r.store q.maxLen none := queueExpand_of_le hw
  have hcell : (r.store q.maxLen none).cell = Function.update r.cell q.maxLen none :=
    store_cell none (by omega)
  rw [hq]
  refine ⟨store_fault none (by omega), rfl, rfl, (store_length _ _ _).trans hlen, fun i => ?_⟩
  have hr : r.cell i = if i < q.maxLen + 1 then q.cell i else none :=
    realloc_cell { q with maxLen := q.maxLen + 1 } (q.maxLen + 1) i
  rw [hcell]
  rcases Nat.lt_trichotomy i q.maxLen with h | h | h
  · rw [Function.update_of_ne (by omega), hr, if_pos (by omega), if_pos h]
  · subst h
    rw [Function.update_self, if_neg (by omega)]
  · rw [Function.update_of_ne (by omega), hr, if_neg (by omega), if_neg (by omega)]

theorem Represents.head_lt {q : MessageQueue α} {f : BoundedFifo α} (hr : Represents q f)
    (hw : q.tail < q.head) : q.head < q.maxLen := by
  by_cases hne : f.items = []
  · exact (hr.idle hne).head_lt hw
  · exact (hr.busy hne).head_lt

/-- `queue_expand` is sound on every queue that stands for a FIFO. -/
theorem queueExpand_represents {q : MessageQueue α} {f : BoundedFifo α} (hr : Represents q f) :
    Represents (queueExpand q) f.grow := by
  have hfits : f.items.length ≤ q.maxLen := by rw [hr.maxLen_eq]; exact f.fits
  have hmax : (queueExpand q).maxLen = f.grow.capacity := by
    rw [queueExpand_maxLen, hr.maxLen_eq]; rfl
  have hlen : (queueExpand q).len = f.grow.items.length := by
    rw [queueExpand_len, hr.len_eq]; rfl
  by_cases hw : q.tail < q.head
  · have hh := hr.head_lt hw
    obtain ⟨hf, hhead, htail, halloc, hcell⟩ := queueExpand_wrapped hr.allocated hw hh
    refine ⟨hf.trans hr.noFault, by rw [halloc, queueExpand_maxLen], hmax, hlen,
      fun hne => ⟨?_, ?_, ?_⟩, fun hnil => ⟨?_, fun _ => ?_⟩⟩
    · rw [hhead, queueExpand_maxLen]; omega
    · rw [hhead, queueExpand_maxLen]
      refine (hr.busy hne).window.insertGap hh ?_ ?_ ?_
      · intro i hi
        rw [hcell, if_pos hi]
      · rw [hcell, if_neg (Nat.lt_irrefl _), if_pos rfl]
        exact (List.getElem?_eq_none hfits).symm
      · intro i hi hi'
        rw [hcell, if_neg (by omega), if_neg (by omega), if_pos hi']
    · have hpos : 0 < f.items.length := List.length_pos_of_ne_nil hne
      have ht := (hr.busy hne).tail_eq
      rw [hhead, htail, queueExpand_maxLen]
      change q.tail = slot (q.maxLen + 1) (q.head + 1) (f.items.length - 1)
      by_cases hl : q.head + (f.items.length - 1) < q.maxLen
      · rw [slot_of_lt hl] at ht
        omega
      · rw [slot_of_le (by omega) (by omega)] at ht
        rw [slot_of_le (by omega) (by omega)]
        omega
    · intro i
      rw [hcell]
      simp only [(hr.idle hnil).cells, ite_self]
    · rw [hhead, queueExpand_maxLen]; omega
  · have hw' : q.head ≤ q.tail := Nat.le_of_not_lt hw
    obtain ⟨hf, hhead, htail, halloc, hcell⟩ := queueExpand_appended hw'
    refine ⟨hf.trans hr.noFault, by rw [halloc, queueExpand_maxLen], hmax, hlen,
      fun hne => ⟨?_, ?_, ?_⟩, fun hnil => ⟨?_, fun h => ?_⟩⟩
    · rw [hhead, queueExpand_maxLen]
      exact Nat.lt_succ_of_lt (hr.busy hne).head_lt
    · have hun := (hr.busy hne).unwrapped hne hfits hw'
      have htlt := (hr.busy hne).tail_lt
      rw [hhead, queueExpand_maxLen]
      refine (hr.busy hne).window.appendGap (c := none) (hr.busy hne).head_lt ?_ ?_ ?_
      · intro i hi
        rw [hcell, if_pos hi]
      · rw [hcell, if_neg (Nat.lt_irrefl _)]
      · intro k hk
        exact List.getElem?_eq_none (show f.items.length ≤ k by omega)
    · have hun := (hr.busy hne).unwrapped hne hfits hw'
      have htlt := (hr.busy hne).tail_lt
      rw [hhead, htail, queueExpand_maxLen]
      change q.tail = slot (q.maxLen + 1) q.head (f.items.length - 1)
      rw [slot_of_lt (by omega)]
      omega
    · intro i
      rw [hcell]
      simp only [(hr.idle hnil).cells, ite_self]
    · rw [hhead, htail] at h
      omega

/-- The memory after the branch of `queue_reduce` that takes out the cell in front of
`head`. -/
theorem queueReduceTo_wrapped {q : MessageQueue α} {minLen : Nat}
    (halloc : q.messages.length = q.maxLen) (hlen : q.len ≠ q.maxLen) (hmin : q.maxLen ≠ minLen)
    (hw : q.tail < q.head) (hh : q.head < q.maxLen) :
    (queueReduceTo minLen q).fault = q.fault ∧ (queueReduceTo minLen q).head = q.head - 1 ∧
    (queueReduceTo minLen q).tail = q.tail ∧
    (queueReduceTo minLen q).messages.length = q.maxLen - 1 ∧
    ∀ i, (queueReduceTo minLen q).cell i =
      if i + 1 < q.maxLen then (if q.head ≤ i + 1 then q.cell (i + 1) else q.cell i)
      else none := by
  let d := shiftDown q q.head (q.maxLen - q.head)
  let r := d.store (q.maxLen - 1) none
  have hd : d.messages.length = q.maxLen := by rw [shiftDown_length, halloc]
  have hq : queueReduceTo minLen q =
      { r with head := q.head - 1, maxLen := q.maxLen - 1 }.realloc (q.maxLen - 1) :=
    queueReduceTo_of_lt hlen hmin hw
  have hcell : r.cell = Function.update d.cell (q.maxLen - 1) none := store_cell none (by omega)
  rw [hq]
  refine ⟨?_, rfl, ?_, realloc_length _ _, fun i => ?_⟩
  · change r.fault = q.fault
    rw [store_fault none (by omega), shiftDown_fault _ _ _ (by omega) (by omega)]
  · exact shiftDown_tail _ _ _
  · rw [realloc_cell]
    change (if i < q.maxLen - 1 then r.cell i else none) = _
    by_cases hi : i + 1 < q.maxLen
    · rw [if_pos (by omega), if_pos hi, hcell, Function.update_of_ne (by omega),
        shiftDown_cell _ _ _ (by omega) (by omega)]
      by_cases hl : q.head ≤ i + 1
      · rw [if_pos (by omega), if_pos hl]
      · rw [if_neg (by omega), if_neg hl]
    · rw [if_neg (by omega), if_neg hi]

theorem queueReduceTo_cut {q : MessageQueue α} {minLen : Nat} (hlen : q.len ≠ q.maxLen)
    (hmin : q.maxLen ≠ minLen) (hw : q.head ≤ q.tail) :
    (queueReduceTo minLen q).fault = q.fault ∧ (queueReduceTo minLen q).head = q.head ∧
    (queueReduceTo minLen q).tail = q.tail ∧
    (queueReduceTo minLen q).messages.length = q.maxLen - 1 ∧
    ∀ i, (queueReduceTo minLen q).cell i = if i + 1 < q.maxLen then q.cell i else none := by
  rw [queueReduceTo_of_le hlen hmin hw]
  refine ⟨rfl, rfl, rfl, realloc_length _ _, fun i => ?_⟩
  rw [realloc_cell]
  by_cases hi : i + 1 < q.maxLen
  · rw [if_pos (by omega), if_pos hi]
    rfl
  · rw [if_neg (by omega), if_neg hi]

/-- A reduction is sound unless it gives back the cell of the last message. -/
theorem queueReduceTo_represents {q : MessageQueue α} {f : BoundedFifo α} (minLen : Nat)
    (hr : Represents q f)
    (hsafe : 0 < q.len → q.len < q.maxLen → q.head ≤ q.tail → q.tail + 1 ≠ q.maxLen) :
    Represents (queueReduceTo minLen q) (f.shrink minLen) := by
  have hfits : f.items.length ≤ q.maxLen := by rw [hr.maxLen_eq]; exact f.fits
  by_cases hrefuse : q.len = q.maxLen ∨ q.maxLen = minLen
  · have hq : queueReduceTo minLen q = q := queueReduceTo_refused hrefuse
    have hf : f.shrink minLen = f := by
      rw [BoundedFifo.shrink, dif_neg]
      rw [← hr.len_eq, ← hr.maxLen_eq]
      omega
    rw [hq, hf]
    exact hr
  obtain ⟨hl, hm⟩ := not_or.mp hrefuse
  have hmax : (queueReduceTo minLen q).maxLen = q.maxLen - 1 := by
    rw [queueReduceTo_maxLen, if_neg hrefuse]
  have hcap : (queueReduceTo minLen q).maxLen = (f.shrink minLen).capacity := by
    rw [queueReduceTo_maxLen, BoundedFifo.shrink_capacity, hr.len_eq, hr.maxLen_eq]
  have hlen : (queueReduceTo minLen q).len = (f.shrink minLen).items.length := by
    rw [queueReduceTo_len, hr.len_eq, BoundedFifo.shrink_items]
  have hle := hr.len_eq
  by_cases hw : q.tail < q.head
  · have hh := hr.head_lt hw
    obtain ⟨hf, hhead, htail, halloc, hcell⟩ := queueReduceTo_wrapped hr.allocated hl hm hw hh
    refine ⟨hf.trans hr.noFault, by rw [halloc, hmax], hcap, hlen, ?_, ?_⟩ <;>
      rw [BoundedFifo.shrink_items]
    · intro hne
      refine ⟨by rw [hhead, hmax]; omega, ?_, ?_⟩
      · rw [hhead, hmax]
        refine (hr.busy hne).window.removeGap hh (by omega) ?_ ?_
        · intro i hi
          rw [hcell, if_pos (by omega), if_neg (by omega)]
        · intro i hi hi'
          rw [hcell, if_pos hi', if_pos hi]
      · have hpos : 0 < f.items.length := List.length_pos_of_ne_nil hne
        have ht := (hr.busy hne).tail_eq
        rw [hhead, htail, hmax]
        by_cases hlt : q.head + (f.items.length - 1) < q.maxLen
        · rw [slot_of_lt hlt] at ht
          omega
        · rw [slot_of_le (by omega) (by omega)] at ht
          rw [slot_of_le (by omega) (by omega)]
          omega
    · intro hnil
      refine ⟨fun i => ?_, fun _ => by rw [hhead, hmax]; omega⟩
      rw [hcell]
      simp only [(hr.idle hnil).cells, ite_self]
  · have hw' : q.head ≤ q.tail := Nat.le_of_not_lt hw
    obtain ⟨hf, hhead, htail, halloc, hcell⟩ := queueReduceTo_cut hl hm hw'
    refine ⟨hf.trans hr.noFault, by rw [halloc, hmax], hcap, hlen, ?_, ?_⟩ <;>
      rw [BoundedFifo.shrink_items]
    · intro hne
      have hpos : 0 < f.items.length := List.length_pos_of_ne_nil hne
      have htlt := (hr.busy hne).tail_lt
      have hlast := hsafe (by omega) (by omega) hw'
      have hun := (hr.busy hne).unwrapped hne hfits hw'
      refine ⟨by rw [hhead, hmax]; omega, ?_, ?_⟩
      · rw [hhead, hmax]
        refine (hr.busy hne).window.dropLast (c := none) (by omega) ?_ ?_
        · intro i hi
          rw [hcell, if_pos hi]
        · intro k hk
          exact List.getElem?_eq_none (by omega)
      · rw [hhead, htail, hmax, slot_of_lt (by omega)]
        omega
    · intro hnil
      refine ⟨fun i => ?_, fun h => by rw [hhead, htail] at h; omega⟩
      rw [hcell]
      simp only [(hr.idle hnil).cells, ite_self]

inductive QueueOp (α : Type*) where
  | push (m : α)
  | pop
  | expand
  | reduce

structure Session (α : Type*) where
  queue : MessageQueue α
  accepted : List α
  returned : List α

namespace Session

def init : Session α := ⟨queueInit, [], []⟩

/-- One call. A push is accepted when it is made with `len < max_len`; a pop that gives
`NULL` returns no message. -/
def step (copy : Copy) (s : Session α) : QueueOp α → Session α
  | .push m =>
    { queue := queuePush (some m) s.queue
      accepted := if s.queue.len < s.queue.maxLen then s.accepted ++ [m] else s.accepted
      returned := s.returned }
  | .pop =>
    { queue := (queuePop s.queue).2
      accepted := s.accepted
      returned := s.returned ++ (queuePop s.queue).1.toList }
  | .expand => { s with queue := queueExpand s.queue }
  | .reduce => { s with queue := queueReduce copy s.queue }

def run (copy : Copy) (ops : List (QueueOp α)) : Session α := ops.foldl (step copy) init

/-- What a session of a bounded FIFO satisfies at every moment. -/
structure Fifo (s : Session α) : Prop where
  returned_isPrefix : s.returned <+: s.accepted
  len_eq : s.queue.len + s.returned.length = s.accepted.length
  pop_oldest : 0 < s.queue.len →
    ∃ m, s.accepted[s.returned.length]? = some m ∧ (queuePop s.queue).1 = some m

/-- The calls that keep the ring in shape: no push on an empty queue whose `tail` does not
stand on `head` inside the array, and no reduction that gives back the last message. -/
def Sound (q : MessageQueue α) : QueueOp α → Prop
  | .push _ => q.len = 0 → 0 < q.maxLen → q.tail = q.head ∧ q.head < q.maxLen
  | .reduce => 0 < q.len → q.len < q.maxLen → q.head ≤ q.tail → q.tail + 1 ≠ q.maxLen
  | .pop | .expand => True

/-- Every call of the list is sound where it is made. -/
def SoundRun (copy : Copy) : Session α → List (QueueOp α) → Prop
  | _, [] => True
  | s, op :: ops => Sound s.queue op ∧ SoundRun copy (s.step copy op) ops

/-- The session keeps the books `l`, and its queue stands for the FIFO of `l`. -/
structure Keeps (s : Session α) (l : Ledger α) : Prop where
  queue : Represents s.queue l.fifo
  accepted : s.accepted = l.accepted
  returned : s.returned = l.returned

theorem init_keeps : (init : Session α).Keeps (.empty queueBaseSize) :=
  ⟨queueInit_represents, rfl, rfl⟩

/-- One sound call is one step of the books. -/
theorem step_keeps {copy : Copy} {s : Session α} {l : Ledger α} (hk : s.Keeps l)
    {op : QueueOp α} (hs : Sound s.queue op) : ∃ l', (s.step copy op).Keeps l' := by
  cases op with
  | push m =>
    refine ⟨l.push m, queuePush_represents hk.queue m hs, ?_, hk.returned⟩
    simp only [step, Ledger.push, hk.queue.len_eq, hk.queue.maxLen_eq, hk.accepted]
  | pop =>
    obtain ⟨hdata, hq⟩ := queuePop_represents hk.queue
    refine ⟨l.pop, hq, hk.accepted, ?_⟩
    simp only [step, Ledger.pop, hdata, hk.returned]
  | expand => exact ⟨l.grow, queueExpand_represents hk.queue, hk.accepted, hk.returned⟩
  | reduce =>
    refine ⟨l.shrink copy.minLen, ?_, hk.accepted, hk.returned⟩
    have hq := queueReduceTo_represents copy.minLen hk.queue hs
    rwa [← queueReduce_eq] at hq

theorem run_keeps {copy : Copy} (ops : List (QueueOp α)) {s : Session α} {l : Ledger α}
    (hk : s.Keeps l) (hs : SoundRun copy s ops) :
    ∃ l', (ops.foldl (step copy) s).Keeps l' := by
  induction ops generalizing s l with
  | nil => exact ⟨l, hk⟩
  | cons op ops ih =>
    obtain ⟨l', hk'⟩ := step_keeps hk hs.1
    exact ih hk' hs.2

theorem Keeps.fifo {s : Session α} {l : Ledger α} (hk : s.Keeps l) : s.Fifo where
  returned_isPrefix := by
    rw [hk.returned, hk.accepted]
    exact l.returned_isPrefix
  len_eq := by
    rw [hk.queue.len_eq, hk.returned, hk.accepted]
    exact l.length_eq
  pop_oldest h := by
    rw [hk.queue.len_eq] at h
    obtain ⟨m, ms, hi⟩ := List.exists_cons_of_length_pos h
    refine ⟨m, ?_, ?_⟩
    · rw [hk.accepted, hk.returned, l.oldest, hi]
      rfl
    · rw [(queuePop_represents hk.queue).1, hi]
      rfl

/-- In a run of sound calls, of either copy, the queue is a bounded FIFO in every state
reached, and no cell outside the array has been touched. -/
theorem fifo_of_soundRun (copy : Copy) (ops : List (QueueOp α))
    (hs : SoundRun copy init ops) :
    (run copy ops).Fifo ∧ (run copy ops).queue.fault = false := by
  obtain ⟨l, hk⟩ := run_keeps ops init_keeps hs
  exact ⟨hk.fifo, hk.queue.noFault⟩

instance (q : MessageQueue α) : (op : QueueOp α) → Decidable (Sound q op)
  | .push _ =>
    inferInstanceAs (Decidable (q.len = 0 → 0 < q.maxLen → q.tail = q.head ∧ q.head < q.maxLen))
  | .reduce =>
    inferInstanceAs
      (Decidable (0 < q.len → q.len < q.maxLen → q.head ≤ q.tail → q.tail + 1 ≠ q.maxLen))
  | .pop | .expand => isTrue trivial

instance decidableSoundRun (copy : Copy) :
    ∀ (s : Session α) (ops : List (QueueOp α)), Decidable (SoundRun copy s ops)
  | _, [] => isTrue trivial
  | s, op :: ops =>
    have := decidableSoundRun copy (s.step copy op) ops
    inferInstanceAs (Decidable (_ ∧ _))

/-- The queue is filled, and its tail goes past the end of the array. -/
def wrappedOps : List (QueueOp Nat) :=
  (List.range 10).map .push ++ [.pop, .pop, .push 10, .push 11, .pop]

theorem fifo_of_soundRun_wrapped :
    (run .lab52 wrappedOps).queue.tail < (run .lab52 wrappedOps).queue.head ∧
    (run .lab52 wrappedOps).Fifo ∧ (run .lab52 wrappedOps).queue.fault = false :=
  ⟨by decide, fifo_of_soundRun .lab52 wrappedOps (by decide)⟩

/-- Refilling a queue that was emptied puts the message in the cell `tail` while the next pop
looks in the cell `head`: after `push 1, pop, push 2` a pop gives `NULL`. -/
theorem refilled_not_fifo :
    (¬∀ ops : List (QueueOp Nat), (run .lab51 ops).Fifo) ∧
    ¬∀ ops : List (QueueOp Nat), (run .lab52 ops).Fifo := by
  constructor <;> intro h
  all_goals
    obtain ⟨m, _, hm⟩ := (h [.push 1, .pop, .push 2]).pop_oldest (by decide)
    exact absurd hm.symm (by rintro ⟨⟩)

end Session

end Osisp.Lab5
